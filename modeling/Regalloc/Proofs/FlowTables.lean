import Regalloc.Proofs.CodeFlow
import Regalloc.Proofs.Grammar

/-! The tables of control flow. There is no flow just when a label is carried twice or named and not
carried, and then every such place is reported. Otherwise successors and predecessors say the same,
and labels and labelled positions correspond. -/
namespace Regalloc

/-- The issues of all positions that have one, in the order of the positions. -/
def Listed (has : Nat → Issue → Prop) (issues : List Issue) : Prop :=
  ∃ positions : List Nat, positions.Pairwise (· < ·) ∧ List.Forall₂ has positions issues ∧
    ∀ i issue, has i issue → i ∈ positions

theorem listedOf {α : Type} {entries : List α} {place : α → Nat} {report : α → Option Issue}
    {has : Nat → Issue → Prop} (ordered : entries.Pairwise fun x y => place x < place y)
    (spec : ∀ i issue, has i issue ↔ ∃ x ∈ entries, place x = i ∧ report x = some issue) :
    Listed has (entries.filterMap report) := by
  have along : ∀ part : List α, part ⊆ entries →
      List.Forall₂ has ((part.filter fun x => (report x).isSome).map place)
        (part.filterMap report) := by
    intro part inside
    induction part with
    | nil => exact .nil
    | cons x part ih =>
      obtain ⟨here, later⟩ := List.cons_subset.mp inside
      cases found : report x with
      | none => simpa [found] using ih later
      | some issue =>
        have first : has (place x) issue := (spec _ _).mpr ⟨x, here, rfl, found⟩
        simpa [found] using List.Forall₂.cons first (ih later)
  refine ⟨_, ?_, along entries (List.Subset.refl entries), fun i issue holds => ?_⟩
  · exact List.pairwise_map.mpr (ordered.filter _)
  · obtain ⟨x, inside, rfl, found⟩ := (spec i issue).mp holds
    exact List.mem_map_of_mem (List.mem_filter.mpr ⟨inside, by rw [found]; rfl⟩)

theorem Listed.someIff {has : Nat → Issue → Prop} {issues : List Issue} (listed : Listed has issues) :
    issues ≠ [] ↔ ∃ i issue, has i issue := by
  obtain ⟨positions, _, along, all⟩ := listed
  constructor
  · intro nonempty
    cases along with
    | nil => contradiction
    | cons first _ => exact ⟨_, _, first⟩
  · rintro ⟨i, issue, holds⟩ rfl
    cases along
    exact List.not_mem_nil (all i issue holds)

namespace ControlFlow

theorem countOwn (k : Nat) (nexts : List Nat) (i j : Nat) :
    ((nexts.map fun n => (k, n)).filterMap fun (i, n) => if n = j then some i else none).count i =
      if i = k then nexts.count j else 0 := by
  induction nexts with
  | nil => simp
  | cons n nexts ih => by_cases same : n = j <;> by_cases here : i = k <;> simp_all [Ne.symm]

theorem countEdges (k : Nat) (succs : List (List Nat)) (i j : Nat) :
    (((succs.zipIdx k).flatMap fun (nexts, i) => nexts.map fun j => (i, j)).filterMap
      fun (i, n) => if n = j then some i else none).count i =
        if k ≤ i then ((succs[i - k]?).getD []).count j else 0 := by
  -- The rows begin with that of position `k`: before it there are no edges left to count.
  induction succs generalizing k with
  | nil => simp
  | cons nexts succs ih =>
    rw [List.zipIdx_cons, List.flatMap_cons, List.filterMap_append, List.count_append, countOwn,
      ih (k + 1)]
    rcases Nat.lt_trichotomy i k with below | rfl | above
    · rw [if_neg (Nat.ne_of_lt below), if_neg (by omega), if_neg (by omega)]
    · simp
    · have shift : i - k = i - (k + 1) + 1 := by omega
      rw [if_neg (Nat.ne_of_gt above), if_pos (Nat.succ_le_of_lt above), if_pos above.le, shift,
        List.getElem?_cons_succ, Nat.zero_add]

theorem succsMirrored (flow : ControlFlow) (i j : Nat) :
    (flow.succsAt i).count j = (flow.predsAt j).count i := by
  have count := countEdges 0 flow.succs i j
  rw [if_pos (Nat.zero_le i)] at count
  exact count.symm

end ControlFlow

def Program.Carries (p : Program) (i : Nat) (text : String) (span : Span) : Prop :=
  ∃ inst, p.instructions[i]? = some inst ∧ inst.label = some (text, span)

structure ControlFlow.Tables (p : Program) (flow : ControlFlow) : Prop where
  length : flow.succs.length = p.size
  mirrored : ∀ i j, (flow.succsAt i).count j = (flow.predsAt j).count i
  succsInside : ∀ i, ∀ j ∈ flow.succsAt i, i < p.size ∧ j < p.size
  predsInside : ∀ j, ∀ i ∈ flow.predsAt j, i < p.size ∧ j < p.size
  resolves : ∀ text i, flow.resolve? text = some i ↔ ∃ span, p.Carries i text span
  labels : ∀ text i, flow.labelOf? i = some text ↔ ∃ span, p.Carries i text span

namespace Program

variable {p : Program} {flow : ControlFlow} {i j : Nat} {text : String} {span : Span}

structure First (p : Program) (text : String) (i : Nat) (span : Span) : Prop where
  carries : p.Carries i text span
  fresh : ∀ k other, k < i → ¬ p.Carries k text other

inductive Repeats (p : Program) (i : Nat) : Issue → Prop where
  | mk {text : String} {span first : Span} {k : Nat} (carries : p.Carries i text span)
      (before : p.First text k first) (later : k < i) :
      Repeats p i (.duplicateLabel span text first)

inductive Dangles (p : Program) (i : Nat) : Issue → Prop where
  | mk {inst : Instruction} {text : String} {span : Span} (present : p.instructions[i]? = some inst)
      (names : inst.destination = some (text, span)) (absent : ∀ k other, ¬ p.Carries k text other) :
      Dangles p i (.unresolvedLabel span text inst.line)

def Targets (p : Program) (inst : Instruction) (t : Nat) : Prop :=
  ∃ text named carried, inst.destination = some (text, named) ∧ p.Carries t text carried

inductive Leads (p : Program) (i : Nat) (inst : Instruction) : List Nat → Prop where
  | jump {t : Nat} (op : inst.opcode = some .jump) (target : p.Targets inst t) : Leads p i inst [t]
  | call {t : Nat} (op : inst.opcode = some .call) (target : p.Targets inst t) :
      Leads p i inst (t :: (p.next? i).toList)
  | branch {condition : Condition} {t : Nat} (op : inst.opcode = some (.branch condition))
      (target : p.Targets inst t) : Leads p i inst ((p.next? i).toList ++ [t])
  | ends (op : inst.opcode = some .ret ∨ inst.opcode = some .stop) : Leads p i inst []
  | onward (other : inst.opcode ≠ some .jump ∧ inst.opcode ≠ some .call ∧
      (∀ condition, inst.opcode ≠ some (.branch condition)) ∧
      inst.opcode ≠ some .ret ∧ inst.opcode ≠ some .stop) : Leads p i inst (p.next? i).toList

theorem memDefinitions {d : Definition} :
    d ∈ p.definitions ↔ p.Carries d.position d.text d.span := by
  obtain ⟨text, span, i⟩ := d
  simp only [definitions, List.mem_filterMap, List.mem_zipIdx_iff_getElem?, Option.map_eq_some_iff,
    Prod.exists, Carries]
  constructor
  · rintro ⟨inst, k, present, text, span, label, same⟩
    cases same
    exact ⟨inst, present, label⟩
  · rintro ⟨inst, present, label⟩
    exact ⟨inst, i, present, text, span, label, rfl⟩

theorem carriesOne {other : String} {span' : Span} (left : p.Carries i text span)
    (right : p.Carries i other span') : text = other ∧ span = span' := by
  obtain ⟨inst, present, label⟩ := left
  obtain ⟨inst', present', label'⟩ := right
  cases Option.some.inj (present.symm.trans present')
  cases Option.some.inj (label.symm.trans label')
  exact ⟨rfl, rfl⟩

theorem First.unique {span' : Span} (left : p.First text i span) (right : p.First text j span') :
    i = j ∧ span = span' := by
  rcases Nat.lt_trichotomy i j with before | rfl | after
  · exact absurd left.carries (right.fresh i span before)
  · exact ⟨rfl, (carriesOne left.carries right.carries).2⟩
  · exact absurd right.carries (left.fresh j span' after)

theorem firstOf (carries : p.Carries i text span) :
    ∃ k first, p.First text k first ∧ k ≤ i := by
  induction i using Nat.strong_induction_on generalizing span with
  | h i ih =>
    by_cases earlier : ∃ k other, k < i ∧ p.Carries k text other
    · obtain ⟨k, other, before, carried⟩ := earlier
      obtain ⟨m, first, found, le⟩ := ih k before carried
      exact ⟨m, first, found, le.trans before.le⟩
    · exact ⟨i, span, ⟨carries, fun k other before carried => earlier ⟨k, other, before, carried⟩⟩,
        Nat.le_refl i⟩

theorem firstDefinitionIff {d : Definition} : p.firstDefinition? text = some d ↔
    d.text = text ∧ p.First text d.position d.span := by
  have sound : ∀ e, p.firstDefinition? text = some e → e.text = text ∧
      p.First text e.position e.span := by
    intro e found
    obtain ⟨same, front, back, split, skipped⟩ := List.find?_eq_some_iff_append.mp found
    obtain rfl : e.text = text := by simpa using same
    have carries := memDefinitions.mp (List.mem_of_find?_eq_some found)
    refine ⟨rfl, carries, fun k other before carried => ?_⟩
    have mem : (⟨e.text, other, k⟩ : Definition) ∈ p.definitions := memDefinitions.mpr carried
    have ordered : p.definitions.Pairwise (fun d e => d.position < e.position) :=
      (definitionsOrdered 0 p.instructions).1
    -- An earlier definition of the label stands in front, where the search has passed it.
    rw [split] at mem ordered
    obtain ⟨_, after, _⟩ := List.pairwise_append.mp ordered
    rcases List.mem_append.mp mem with inside | inside
    · simpa using skipped _ inside
    · rcases List.mem_cons.mp inside with same | later
      · exact Nat.ne_of_lt before (congrArg Definition.position same)
      · exact Nat.lt_asymm before ((List.pairwise_cons.mp after).1 _ later)
  refine ⟨sound d, fun ⟨same, first⟩ => ?_⟩
  obtain ⟨text', span', k⟩ := d
  obtain rfl : text' = text := same
  cases found : p.firstDefinition? text' with
  | none =>
    have absent := List.find?_eq_none.mp found _ (memDefinitions.mpr first.carries)
    simp at absent
  | some e =>
    obtain ⟨text, span, m⟩ := e
    obtain ⟨rfl, other⟩ := sound _ found
    obtain ⟨rfl, rfl⟩ := other.unique first
    rfl

theorem firstDefinitionNone :
    p.firstDefinition? text = none ↔ ∀ k other, ¬ p.Carries k text other := by
  constructor
  · intro none k other carries
    have mem : (⟨text, other, k⟩ : Definition) ∈ p.definitions := memDefinitions.mpr carries
    simpa using List.find?_eq_none.mp none _ mem
  · intro absent
    cases found : p.firstDefinition? text with
    | none => rfl
    | some d =>
      obtain ⟨_, first⟩ := firstDefinitionIff.mp found
      exact absurd first.carries (absent _ _)

theorem repeatsListed (p : Program) : Listed p.Repeats p.duplicateLabels := by
  refine listedOf (definitionsOrdered 0 p.instructions).1 fun i issue => ?_
  constructor
  · rintro @⟨text, span, first, k, carries, before, later⟩
    have known : p.firstDefinition? text = some ⟨text, first, k⟩ :=
      firstDefinitionIff.mpr ⟨rfl, before⟩
    refine ⟨⟨text, span, i⟩, memDefinitions.mpr carries, rfl, ?_⟩
    rw [known]
    exact if_neg (Nat.ne_of_lt later)
  · rintro ⟨d, mem, rfl, found⟩
    split at found <;> try contradiction
    rename_i first known
    obtain ⟨same, before⟩ := firstDefinitionIff.mp known
    split at found <;> cases found
    rename_i differ
    have carries := memDefinitions.mp mem
    refine .mk carries before (Nat.lt_of_le_of_ne (Nat.le_of_not_lt fun earlier => ?_) differ)
    exact before.fresh _ _ earlier carries

theorem filterMapPositions {α β : Type} (f : α → Option β) (xs : List α) :
    xs.filterMap f = xs.zipIdx.filterMap fun entry => f entry.1 := by
  conv_lhs => rw [← List.zipIdx_map_fst 0 xs, List.filterMap_map]
  rfl

theorem danglesListed (p : Program) : Listed p.Dangles p.unresolvedLabels := by
  rw [unresolvedLabels, filterMapPositions]
  have ordered : p.instructions.zipIdx.Pairwise fun x y => x.2 < y.2 := by
    rw [← List.pairwise_map, List.zipIdx_map_snd]
    exact List.pairwise_lt_range'
  refine listedOf ordered fun i issue => ?_
  constructor
  · rintro ⟨present, names, absent⟩
    refine ⟨(_, i), List.mem_zipIdx_iff_getElem?.mpr present, rfl, ?_⟩
    simp [names, firstDefinitionNone.mpr absent]
  · rintro ⟨⟨inst, k⟩, mem, rfl, found⟩
    dsimp only at found
    split at found <;> try contradiction
    rename_i text span names
    split at found <;> cases found
    rename_i absent
    exact .mk (List.mem_zipIdx_iff_getElem?.mp mem) names
      (firstDefinitionNone.mp (Option.isNone_iff_eq_none.mp absent))

theorem rejectedIffLabels : (∃ issues, p.controlFlow = .error issues) ↔
    (∃ i j text first second, i < j ∧ p.Carries i text first ∧ p.Carries j text second) ∨
      ∃ inst ∈ p.instructions, ∃ text span, inst.destination = some (text, span) ∧
        ∀ k other, ¬ p.Carries k text other := by
  have rejected : (∃ issues, p.controlFlow = .error issues) ↔
      p.duplicateLabels ≠ [] ∨ p.unresolvedLabels ≠ [] := by
    rw [← not_and_or, ← List.append_eq_nil_iff, controlFlow]
    split <;> simp_all
  rw [rejected, (repeatsListed p).someIff, (danglesListed p).someIff]
  refine or_congr ⟨?_, ?_⟩ ⟨?_, ?_⟩
  · rintro ⟨j, issue, carries, before, later⟩
    exact ⟨_, j, _, _, _, later, before.carries, carries⟩
  · rintro ⟨i, j, text, first, second, later, left, right⟩
    obtain ⟨k, span, before, le⟩ := firstOf left
    exact ⟨j, _, .mk right before (Nat.lt_of_le_of_lt le later)⟩
  · rintro ⟨i, issue, present, names, absent⟩
    exact ⟨_, List.mem_of_getElem? present, _, _, names, absent⟩
  · rintro ⟨inst, mem, text, span, names, absent⟩
    obtain ⟨i, present⟩ := List.mem_iff_getElem?.mp mem
    exact ⟨i, _, .mk present names absent⟩

theorem findOnly {α : Type} {l : List α} {q : α → Bool}
    (only : ∀ x ∈ l, ∀ y ∈ l, q x = true → q y = true → x = y) {x : α} (mem : x ∈ l)
    (holds : q x = true) : l.find? q = some x := by
  cases found : l.find? q with
  | none => exact absurd holds (List.find?_eq_none.mp found x mem)
  | some y =>
    rw [only x mem y (List.mem_of_find?_eq_some found) holds (List.find?_some found)]

theorem memLabels : (text, i) ∈ p.flow.labels ↔ ∃ span, p.First text i span := by
  simp only [Program.flow, List.mem_map, List.mem_filter, beq_iff_eq, Prod.mk.injEq]
  constructor
  · rintro ⟨d, ⟨_, found⟩, rfl, rfl⟩
    exact ⟨d.span, (firstDefinitionIff.mp found).2⟩
  · rintro ⟨span, first⟩
    have found : p.firstDefinition? text = some ⟨text, span, i⟩ := firstDefinitionIff.mpr ⟨rfl, first⟩
    exact ⟨⟨text, span, i⟩, ⟨memDefinitions.mpr first.carries, found⟩, rfl, rfl⟩

section Accepted

variable (flows : p.controlFlow = .ok flow)
include flows

theorem firstOfCarries (carries : p.Carries i text span) : p.First text i span := by
  refine ⟨carries, fun k other before carried => ?_⟩
  obtain ⟨issues, rejected⟩ := rejectedIffLabels.mpr
    (.inl ⟨k, i, text, other, span, before, carried, carries⟩)
  rw [flows] at rejected
  contradiction

theorem memLabelsCarries : (text, i) ∈ flow.labels ↔ ∃ span, p.Carries i text span := by
  rw [flowSource flows, memLabels]
  exact exists_congr fun span => ⟨First.carries, firstOfCarries flows⟩

theorem resolvesIff : flow.resolve? text = some i ↔ ∃ span, p.Carries i text span := by
  have only : ∀ entry ∈ flow.labels, ∀ entry' ∈ flow.labels,
      (entry.1 == text) = true → (entry'.1 == text) = true → entry = entry' := by
    rintro ⟨first, k⟩ mem ⟨second, m⟩ mem' same same'
    obtain ⟨rfl, rfl⟩ : first = text ∧ second = text := ⟨by simpa using same, by simpa using same'⟩
    obtain ⟨_, carries⟩ := (memLabelsCarries flows).mp mem
    obtain ⟨_, carries'⟩ := (memLabelsCarries flows).mp mem'
    rw [((firstOfCarries flows carries).unique (firstOfCarries flows carries')).1]
  rw [← memLabelsCarries flows, ControlFlow.resolve?, Option.map_eq_some_iff]
  constructor
  · rintro ⟨⟨other, k⟩, found, rfl⟩
    obtain rfl : other = text := by simpa using List.find?_some found
    exact List.mem_of_find?_eq_some found
  · exact fun mem => ⟨(text, i), findOnly only mem (by simp), rfl⟩

theorem labelsIff : flow.labelOf? i = some text ↔ ∃ span, p.Carries i text span := by
  have only : ∀ entry ∈ flow.labels, ∀ entry' ∈ flow.labels,
      (entry.2 == i) = true → (entry'.2 == i) = true → entry = entry' := by
    rintro ⟨first, k⟩ mem ⟨second, m⟩ mem' same same'
    obtain ⟨rfl, rfl⟩ : k = i ∧ m = i := ⟨by simpa using same, by simpa using same'⟩
    obtain ⟨_, carries⟩ := (memLabelsCarries flows).mp mem
    obtain ⟨_, carries'⟩ := (memLabelsCarries flows).mp mem'
    rw [(carriesOne carries carries').1]
  rw [← memLabelsCarries flows, ControlFlow.labelOf?, Option.map_eq_some_iff]
  constructor
  · rintro ⟨⟨other, k⟩, found, rfl⟩
    obtain rfl : k = i := by simpa using List.find?_some found
    exact List.mem_of_find?_eq_some found
  · exact fun mem => ⟨(text, i), findOnly only mem (by simp), rfl⟩

theorem succInside (next : j ∈ flow.succsAt i) : i < p.size ∧ j < p.size := by
  obtain ⟨inst, present, goes⟩ := succSource flows next
  refine ⟨(List.getElem?_eq_some_iff.mp present).1, ?_⟩
  rw [succsOfCode] at goes
  rw [← codeLength]
  rcases Code.succsCases goes with ⟨_, inside⟩ | ⟨text, _, position⟩
  · exact inside
  · exact Code.positionLt position

theorem tables : flow.Tables p where
  length := by
    rw [flowSource flows, Program.flow, List.length_map, List.length_zipIdx, size]
  mirrored := flow.succsMirrored
  succsInside := fun _ _ next => succInside flows next
  predsInside := by
    intro j i before
    have count := List.count_pos_iff.mpr before
    rw [← flow.succsMirrored] at count
    exact succInside flows (List.count_pos_iff.mp count)
  resolves := fun _ _ => resolvesIff flows
  labels := fun _ _ => labelsIff flows

theorem targeted {inst : Instruction} (present : p.instructions[i]? = some inst)
    (names : inst.destination.isSome = true) : ∃ t, p.Targets inst t ∧
      (inst.destination.bind fun (text, _) =>
        (p.firstDefinition? text).map Definition.position).toList = [t] := by
  obtain ⟨⟨text, named⟩, found⟩ := Option.isSome_iff_exists.mp names
  cases known : p.firstDefinition? text with
  | none =>
    obtain ⟨issues, rejected⟩ := rejectedIffLabels.mpr (.inr
      ⟨inst, List.mem_of_getElem? present, text, named, found, firstDefinitionNone.mp known⟩)
    rw [flows] at rejected
    contradiction
  | some d =>
    exact ⟨d.position, ⟨text, named, d.span, found, (firstDefinitionIff.mp known).2.carries⟩,
      by simp [found, known]⟩

theorem leadsOfShaped {inst : Instruction} (present : p.instructions[i]? = some inst)
    (shaped : inst.Shaped) : p.Leads i inst (flow.succsAt i) := by
  have aimed := fun names => targeted flows present (shaped.destination.mpr names)
  rw [flowSource flows, succsOfFlow, present, Option.map_some, Option.getD_some, succsOf]
  cases coded : inst.opcode with
  | none => exact .onward (by simp [coded])
  | some op =>
    cases op with
    | jump =>
      obtain ⟨t, target, same⟩ := aimed (.inl coded)
      exact same ▸ .jump coded target
    | call =>
      obtain ⟨t, target, same⟩ := aimed (.inr (.inl coded))
      exact same ▸ .call coded target
    | branch condition =>
      obtain ⟨t, target, same⟩ := aimed (.inr (.inr ⟨condition, coded⟩))
      exact same ▸ .branch coded target
    | ret => exact .ends (.inl coded)
    | stop => exact .ends (.inr coded)
    | _ => exact .onward (by simp [coded])

end Accepted

theorem flowExact :
    (∀ p : Program,
      ((∃ issues, p.controlFlow = .error issues) ↔
        (∃ i j text first second, i < j ∧ p.Carries i text first ∧ p.Carries j text second) ∨
          ∃ inst ∈ p.instructions, ∃ text span, inst.destination = some (text, span) ∧
            ∀ k other, ¬ p.Carries k text other) ∧
      (∀ issues, p.controlFlow = .error issues → ∃ repeated dangling, issues = repeated ++ dangling ∧
        Listed p.Repeats repeated ∧ Listed p.Dangles dangling) ∧
      ∀ flow, p.controlFlow = .ok flow → flow.Tables p) ∧
    ∀ (source : String) (file : Nat) (p : Program) (flow : ControlFlow),
      Program.parse source file = .ok p → p.controlFlow = .ok flow →
        ∀ i inst, p.instructions[i]? = some inst → p.Leads i inst (flow.succsAt i) := by
  refine ⟨fun p => ⟨rejectedIffLabels, fun issues rejected => ?_, fun flow flows => tables flows⟩,
    fun source file p flow parsed flows i inst present => ?_⟩
  · refine ⟨p.duplicateLabels, p.unresolvedLabels, ?_, repeatsListed p, danglesListed p⟩
    unfold controlFlow at rejected
    split at rejected
    · contradiction
    · exact (Except.error.inj rejected).symm
  · have shaped := Reading.parsedShaped parsed inst (List.mem_of_getElem? present)
    exact leadsOfShaped flows present shaped

theorem labelsFlow :
    (∃ p issues, Program.parse "a: JMP b\na: RET\na: JMP a\n" 0 = .ok p ∧
      p.controlFlow = .error issues ∧ issues =
        [.duplicateLabel ⟨0, 9, 11⟩ "a" ⟨0, 0, 2⟩, .duplicateLabel ⟨0, 16, 18⟩ "a" ⟨0, 0, 2⟩,
          .unresolvedLabel ⟨0, 7, 8⟩ "b" 1] ∧
      ∃ repeated dangling, issues = repeated ++ dangling ∧
        Listed p.Repeats repeated ∧ Listed p.Dangles dangling) ∧
    ∃ p flow, Program.parse "top: JEQU a a next\nnext: CALL top\n" 0 = .ok p ∧
      p.controlFlow = .ok flow ∧
      (flow.succsAt 0 = [1, 1] ∧ flow.predsAt 1 = [0, 0] ∧ flow.succsAt 1 = [0]) ∧
      flow.Tables p ∧ ∀ i inst, p.instructions[i]? = some inst → p.Leads i inst (flow.succsAt i) := by
  have rejected : (Program.parse "a: JMP b\na: RET\na: JMP a\n" 0).toOption.any (fun p =>
      p.controlFlow = .error [.duplicateLabel ⟨0, 9, 11⟩ "a" ⟨0, 0, 2⟩,
        .duplicateLabel ⟨0, 16, 18⟩ "a" ⟨0, 0, 2⟩, .unresolvedLabel ⟨0, 7, 8⟩ "b" 1]) = true := by
    decide +kernel
  have accepted : (Program.parse "top: JEQU a a next\nnext: CALL top\n" 0).toOption.any (fun p =>
      p.controlFlow.toOption.any fun flow =>
        flow.succsAt 0 = [1, 1] ∧ flow.predsAt 1 = [0, 0] ∧ flow.succsAt 1 = [0]) = true := by
    decide +kernel
  constructor
  · obtain ⟨p, parsed, ran⟩ := Allocation.okOf rejected
    have flows := of_decide_eq_true ran
    exact ⟨p, _, parsed, flows, rfl, (flowExact.1 p).2.1 _ flows⟩
  · obtain ⟨p, parsed, ran⟩ := Allocation.okOf accepted
    obtain ⟨flow, flows, ran⟩ := Allocation.okOf ran
    exact ⟨p, flow, parsed, flows, of_decide_eq_true ran, (flowExact.1 p).2.2 flow flows,
      flowExact.2 _ 0 p flow parsed flows⟩

end Program

end Regalloc
