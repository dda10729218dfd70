import Regalloc.ControlFlow
import Regalloc.Proofs.LiveTogether
import Regalloc.Statement

/-! Programs as control sees them: statements and their positions. Two programs with the same
statements have the same flow, wherever their lines stand in a text. -/
namespace Regalloc

namespace Statement

def shape (s : Statement) : List Slot := (s.opcode.map Opcode.shape).getD []

def registersIn (s : Statement) (wanted : Slot) : List Name :=
  (s.shape.zip s.operands).filterMap fun (slot, value) =>
    if slot = wanted then value.register? else none

def kills (s : Statement) : List Name := s.registersIn .written

def gens (s : Statement) : List Name := s.registersIn .read

def destination? (s : Statement) : Option String := s.operands.findSome? Value.label?

end Statement

namespace Code

variable {code : List Statement} {text : String}

def position? (code : List Statement) (text : String) : Option Nat :=
  code.findIdx? fun s => s.label == some text

def next (code : List Statement) (i : Nat) : List Nat :=
  if i + 1 < code.length then [i + 1] else []

def target (code : List Statement) (s : Statement) : List Nat :=
  (s.destination?.bind (position? code)).toList

def succsOf (code : List Statement) (i : Nat) (s : Statement) : List Nat :=
  match s.opcode with
  | some .ret | some .stop => []
  | some .jump => target code s
  | some .call => target code s ++ next code i
  | some (.branch _) => next code i ++ target code s
  | _ => next code i

def edges (code : List Statement) : List (Nat × Nat) :=
  code.zipIdx.flatMap fun (s, i) => (succsOf code i s).map fun j => (i, j)

structure Linked (code : List Statement) : Prop where
  distinct : (code.filterMap Statement.label).Nodup
  resolved : ∀ s ∈ code, ∀ text ∈ s.destination?, (position? code text).isSome = true

theorem positionLt {j : Nat} (found : position? code text = some j) : j < code.length :=
  (List.findIdx?_eq_some_iff_getElem.mp found).1

theorem succsCases {k j : Nat} {s : Statement} (edge : j ∈ succsOf code k s) :
    (j = k + 1 ∧ j < code.length) ∨
      ∃ text, s.destination? = some text ∧ position? code text = some j := by
  have next : j ∈ next code k → j = k + 1 ∧ j < code.length := fun mem => by
    unfold Code.next at mem
    split at mem
    · cases List.mem_singleton.mp mem
      exact ⟨rfl, by assumption⟩
    · contradiction
  have target : j ∈ target code s →
      ∃ text, s.destination? = some text ∧ position? code text = some j :=
    fun mem => Option.bind_eq_some_iff.mp (Option.mem_toList.mp mem)
  unfold succsOf at edge
  split at edge
  · contradiction
  · contradiction
  · exact .inr (target edge)
  · exact (List.mem_append.mp edge).elim (fun mem => .inr (target mem)) fun mem => .inl (next mem)
  · exact (List.mem_append.mp edge).elim (fun mem => .inl (next mem)) fun mem => .inr (target mem)
  · exact .inl (next edge)

end Code

theorem Instruction.registersInStatement (inst : Instruction) (wanted : Slot) :
    inst.registersIn wanted = inst.statement.registersIn wanted := by
  unfold Instruction.registersIn Statement.registersIn Instruction.slots Instruction.statement
  rw [List.zip_map_right, List.filterMap_map]
  rfl

theorem Instruction.destinationStatement (inst : Instruction) :
    inst.destination.map Prod.fst = inst.statement.destination? := by
  unfold Instruction.destination Statement.destination? Instruction.statement
  rw [List.findSome?_map]
  induction inst.operands with
  | nil => rfl
  | cons operand operands ih =>
    rw [List.findSome?_cons, List.findSome?_cons]
    cases labelled : operand.value.label? with
    | none => simpa [labelled] using ih
    | some text => simp [labelled]

namespace Program

variable {p : Program} {text : String}

def code (p : Program) : List Statement := p.instructions.map Instruction.statement

theorem codeLength : p.code.length = p.size := List.length_map _

theorem codeAt {i : Nat} : p.code[i]? = (p.instructions[i]?).map Instruction.statement :=
  List.getElem?_map

def definitionsFrom (k : Nat) (insts : List Instruction) : List Definition :=
  (insts.zipIdx k).filterMap fun (inst, i) => inst.label.map fun (text, span) => ⟨text, span, i⟩

theorem definitionsFromCons (k : Nat) (inst : Instruction) (insts : List Instruction) :
    definitionsFrom k (inst :: insts) =
      (inst.label.map fun (text, span) => (⟨text, span, k⟩ : Definition)).toList
        ++ definitionsFrom (k + 1) insts := by
  unfold definitionsFrom
  rw [List.zipIdx_cons, List.filterMap_cons]
  dsimp only
  cases inst.label <;> rfl

theorem findDefinition (k : Nat) (insts : List Instruction) (text : String) :
    ((definitionsFrom k insts).find? (fun d => d.text == text)).map Definition.position =
      (Code.position? (insts.map Instruction.statement) text).map (fun i => i + k) := by
  induction insts generalizing k with
  | nil => rfl
  | cons inst insts ih =>
    have tail := ih (k + 1)
    unfold Code.position? at tail ⊢
    rw [definitionsFromCons, List.map_cons, List.findIdx?_cons]
    have shift : ∀ found : Option Nat, found.map (fun i => i + (k + 1)) =
        (found.map fun i => i + 1).map fun i => i + k := by
      intro found
      cases found with
      | none => rfl
      | some i => exact congrArg some (Nat.add_comm k 1 ▸ (Nat.add_assoc i 1 k).symm)
    cases labelled : inst.label with
    | none =>
      have plain : inst.statement.label = none := by simp [Instruction.statement, labelled]
      simp [plain, tail, shift]
    | some label =>
      obtain ⟨other, span⟩ := label
      have carried : inst.statement.label = some other := by
        simp [Instruction.statement, labelled]
      by_cases same : other = text
      · simp [carried, same]
      · simp [carried, same, tail, shift]

theorem definitionPosition (p : Program) (text : String) :
    (p.firstDefinition? text).map Definition.position = Code.position? p.code text := by
  have found := findDefinition 0 p.instructions text
  simp only [Nat.add_zero, Option.map_id_fun', id_eq] at found
  exact found

theorem definitionsOrdered (k : Nat) (insts : List Instruction) :
    (definitionsFrom k insts).Pairwise (fun d e => d.position < e.position) ∧
      ∀ d ∈ definitionsFrom k insts, k ≤ d.position := by
  induction insts generalizing k with
  | nil => exact ⟨.nil, fun _ absent => nomatch absent⟩
  | cons inst insts ih =>
    obtain ⟨ordered, above⟩ := ih (k + 1)
    rw [definitionsFromCons]
    cases inst.label with
    | none => exact ⟨ordered, fun d mem => Nat.le_of_succ_le (above d mem)⟩
    | some label =>
      refine ⟨List.pairwise_cons.mpr ⟨fun d mem => above d mem, ordered⟩, fun d mem => ?_⟩
      rcases List.mem_cons.mp mem with rfl | later
      · exact Nat.le_refl k
      · exact Nat.le_of_succ_le (above d later)

theorem definitionTexts (k : Nat) (insts : List Instruction) :
    (definitionsFrom k insts).map Definition.text =
      (insts.map Instruction.statement).filterMap Statement.label := by
  induction insts generalizing k with
  | nil => rfl
  | cons inst insts ih =>
    rw [definitionsFromCons, List.map_append, ih, List.map_cons, List.filterMap_cons]
    cases labelled : inst.label <;> simp [Instruction.statement, labelled]

theorem firstsIff {ds : List Definition}
    (ordered : ds.Pairwise (fun d e => d.position < e.position)) :
    (∀ d ∈ ds, ∃ first ∈ ds.find? (fun e => e.text == d.text), first.position = d.position) ↔
      (ds.map Definition.text).Nodup := by
  induction ds with
  | nil => simp
  | cons d ds ih =>
    obtain ⟨before, rest⟩ := List.pairwise_cons.mp ordered
    have laterFirst : ∀ e ∈ ds, d.text ≠ e.text →
        (d :: ds).find? (fun f => f.text == e.text) = ds.find? (fun f => f.text == e.text) :=
      fun e _ differ => List.find?_cons_of_neg (by simpa using differ)
    rw [List.map_cons, List.nodup_cons, ← ih rest]
    constructor
    · intro firsts
      have fresh : ∀ e ∈ ds, d.text ≠ e.text := by
        intro e mem same
        obtain ⟨first, found, position⟩ := firsts e (List.mem_cons_of_mem _ mem)
        rw [List.find?_cons_of_pos (by simpa using same)] at found
        cases Option.some.inj found
        exact Nat.ne_of_lt (before e mem) position
      refine ⟨fun mem => ?_, fun e mem => ?_⟩
      · obtain ⟨e, inside, same⟩ := List.mem_map.mp mem
        exact fresh e inside same.symm
      · rw [← laterFirst e mem (fresh e mem)]
        exact firsts e (List.mem_cons_of_mem _ mem)
    · rintro ⟨fresh, firsts⟩ e mem
      rcases List.mem_cons.mp mem with rfl | later
      · exact ⟨e, List.find?_cons_of_pos (by simp), rfl⟩
      · have differ : d.text ≠ e.text := fun same =>
          fresh (List.mem_map.mpr ⟨e, later, same.symm⟩)
        rw [laterFirst e later differ]
        exact firsts e later

theorem duplicateLabelsNone : p.duplicateLabels = [] ↔ (p.code.filterMap Statement.label).Nodup := by
  have ordered := (definitionsOrdered 0 p.instructions).1
  rw [code, ← definitionTexts 0, ← firstsIff ordered, duplicateLabels, List.filterMap_eq_nil_iff]
  refine forall_congr' fun d => imp_congr_right fun mem => ?_
  have present : (definitionsFrom 0 p.instructions).find? (fun e => e.text == d.text) ≠ none := by
    intro none
    have absent := List.find?_eq_none.mp none d mem
    simp at absent
  have first : (definitionsFrom 0 p.instructions).find? (fun e => e.text == d.text) =
      p.firstDefinition? d.text := rfl
  rw [first] at present ⊢
  cases found : p.firstDefinition? d.text with
  | none => exact absurd found present
  | some first => simp

theorem unresolvedLabelsNone : p.unresolvedLabels = [] ↔
    ∀ s ∈ p.code, ∀ text ∈ s.destination?, (Code.position? p.code text).isSome = true := by
  rw [unresolvedLabels, List.filterMap_eq_nil_iff]
  refine Iff.trans (forall_congr' fun inst => imp_congr_right fun _ => ?_)
    List.forall_mem_map.symm
  rw [← inst.destinationStatement]
  cases named : inst.destination with
  | none => simp
  | some label => simp [← definitionPosition, Option.isSome_iff_ne_none]

theorem linkedIff : (∃ flow, p.controlFlow = .ok flow) ↔ Code.Linked p.code := by
  have none : (∃ flow, p.controlFlow = .ok flow) ↔
      p.duplicateLabels = [] ∧ p.unresolvedLabels = [] := by
    rw [← List.append_eq_nil_iff, controlFlow]
    split <;> simp_all
  rw [none, duplicateLabelsNone, unresolvedLabelsNone]
  exact ⟨fun both => ⟨both.1, both.2⟩, fun linked => ⟨linked.distinct, linked.resolved⟩⟩

theorem succsOfCode (p : Program) (i : Nat) (inst : Instruction) :
    p.succsOf i inst = Code.succsOf p.code i inst.statement := by
  have next : (p.next? i).toList = Code.next p.code i := by
    unfold next? Code.next
    rw [codeLength]
    split <;> rfl
  have target : (inst.destination.bind fun (text, _) =>
      (p.firstDefinition? text).map Definition.position).toList =
        Code.target p.code inst.statement := by
    rw [Code.target, ← inst.destinationStatement, Option.bind_map]
    simp [definitionPosition]
  simp only [succsOf, Code.succsOf, next, target]
  rfl

theorem statementAt {i : Nat} {inst : Instruction} (present : p.instructions[i]? = some inst) :
    p.code[i]? = some inst.statement := by
  rw [codeAt, present]
  rfl

theorem succsAtCode {flow : ControlFlow} {i : Nat} {inst : Instruction}
    (flows : p.controlFlow = .ok flow) (present : p.instructions[i]? = some inst) :
    flow.succsAt i = Code.succsOf p.code i inst.statement := by
  rw [flowSource flows, succsOfFlow, present, Option.map_some, Option.getD_some, succsOfCode]

theorem edgesOfCode (p : Program) : p.flow.edges = Code.edges p.code := by
  unfold ControlFlow.edges flow Code.edges
  simp only [succsOfCode]
  change _ = ((p.instructions.map Instruction.statement).zipIdx 0).flatMap fun (s, i) =>
    (Code.succsOf p.code i s).map fun j => (i, j)
  generalize p.instructions = insts
  generalize 0 = k
  induction insts generalizing k with
  | nil => rfl
  | cons inst insts ih =>
    simp only [List.zipIdx_cons, List.map_cons, List.flatMap_cons]
    rw [ih]

end Program

end Regalloc
