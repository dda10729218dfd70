import Regalloc.Allocation
import Regalloc.Proofs.Coloring
import Regalloc.Proofs.Interference
import Regalloc.Reading

/-! What an allocation that succeeds promises. Every name of the program that is neither reserved
nor spilled has a register, names that conflict have different ones, and no name gets a register
that the target does not have or keeps for itself. -/
namespace Regalloc

namespace Target

variable {t : Target} {color : Nat} {r : Register}

theorem allocatableNodup (t : Target) : t.allocatable.Nodup := by
  unfold allocatable
  refine List.Nodup.filter _ (List.Nodup.map ?_ List.nodup_range)
  exact fun _ _ same => congrArg Register.index same

theorem registerSome : (∃ r, t.register? color = some r) ↔ color < t.budget := by
  unfold register? budget
  rw [← Option.isSome_iff_exists]
  simp

theorem unbound {x : Name} (free : t.isReserved x = false) : t.reservedRegister? x = none :=
  Option.isNone_iff_eq_none.mp (Option.isSome_eq_false_iff.mp free)

theorem registerInjective {other : Nat} (left : t.register? color = some r)
    (right : t.register? other = some r) : color = other :=
  (List.getElem?_inj (registerSome.mp ⟨r, left⟩) (allocatableNodup t)).mp (left.trans right.symm)

theorem registerSource (found : t.register? color = some r) :
    r.index < t.registers ∧ ∀ entry ∈ t.reserved, entry.2 ≠ r := by
  have mem : r ∈ t.allocatable := List.mem_of_getElem? found
  unfold allocatable at mem
  obtain ⟨inside, free⟩ := List.mem_filter.mp mem
  obtain ⟨index, bound, rfl⟩ := List.mem_map.mp inside
  refine ⟨List.mem_range.mp bound, fun entry reserved => ?_⟩
  simpa using List.all_eq_true.mp free entry reserved

end Target

namespace Spills

variable {s : Spills} {x : Name} {i : Nat}

theorem memNameSet : x ∈ s.nameSet ↔ x ∈ s.names := NameSet.memOfList

theorem offsetSome : (∃ offset, s.offset? x = some offset) ↔ x ∈ s.names := by
  unfold offset?
  rw [← Option.isSome_iff_exists, Option.isSome_map, List.isSome_idxOf?]

theorem offsetAt (nodup : s.names.Nodup) (present : s.names[i]? = some x) :
    s.offset? x = some (i * s.stride) := by
  obtain ⟨bound, rfl⟩ := List.getElem?_eq_some_iff.mp present
  have first : s.names.idxOf? s.names[i] = some i := by
    refine List.idxOf?_eq_some_iff.mpr ⟨bound, rfl, fun j before same => ?_⟩
    exact absurd ((nodup.getElem_inj_iff).mp same) (Nat.ne_of_lt before)
  rw [offset?, first, Option.map_some]

theorem slotAt (present : s.names[i]? = some x) : s.slots[i]? = some (x, i * s.stride) := by
  simp [slots, List.getElem?_zipIdx, present]

end Spills

namespace NameMap

variable {β γ : Type} {m : NameMap β} {f : β → Option γ} {x : Name}

theorem lookupFilterMap {l : List (Name × β)} (ascending : (l.map Prod.fst).Pairwise (· < ·)) :
    lookup x (l.filterMap fun p => (f p.2).map fun c => (p.1, c)) = (lookup x l).bind f := by
  induction l with
  | nil => rfl
  | cons p l ih =>
    obtain ⟨first, rest⟩ := List.pairwise_cons.mp ascending
    have tail := ih rest
    cases image : f p.2 with
    | none =>
      by_cases same : x = p.1
      · subst same
        have absent : lookup p.1 l = none :=
          lookupAbsent fun mem => String.lt_irrefl p.1 (first p.1 mem)
        simp [image, lookup, tail, absent]
      · simp [image, lookup, same, tail]
    | some c => by_cases same : x = p.1 <;> simp [image, lookup, same, tail]

theorem getFilterMap : (m.filterMap f).get? x = (m.get? x).bind f := lookupFilterMap m.ascending

end NameMap

namespace Interference

variable {t : Target} {p : Program} {flow : ControlFlow} {excluded : NameSet} {g : Graph}

theorem exactSimple (exact : Exact t p (p.liveness flow) excluded g) : g.Simple := by
  refine ⟨fun x y joined => ?_, fun x loop => ?_, fun x y joined => ?_⟩
  · obtain ⟨⟨i, bound, either⟩, keepX, keepY⟩ := (exact.neighbors x y).mp joined
    exact (exact.neighbors y x).mpr ⟨⟨i, bound, either.symm⟩, keepY, keepX⟩
  · obtain ⟨⟨i, _, either⟩, _⟩ := (exact.neighbors x x).mp loop
    rcases either with conflict | conflict <;> exact conflict.kept conflict.killed
  · obtain ⟨⟨i, bound, either⟩, _, keepY⟩ := (exact.neighbors x y).mp joined
    refine (exact.vertices y).mpr ⟨?_, keepY⟩
    rcases either with conflict | conflict
    · exact (conflictNamed bound conflict).2
    · exact (conflictNamed bound conflict).1

end Interference

namespace Allocation

variable {t : Target} {p : Program} {flow : ControlFlow} {colorer : Colorer} {last : Attempt}
  {registers : NameMap Register} {x y : Name}

structure SpillsFrom (t : Target) (p : Program) (s : Spills) : Prop where
  stride : s.stride = t.stride
  nodup : s.names.Nodup
  named : ∀ x ∈ s.names, x ∈ p.names ∧ t.isReserved x = false

theorem spillsNone : SpillsFrom t p (Spills.none t.stride) :=
  ⟨rfl, List.nodup_nil, fun _ mem => absurd mem List.not_mem_nil⟩

theorem spillAnother {s spilled : Spills} {g : Graph} (before : SpillsFrom t p s)
    (exact : Interference.Exact t p (p.liveness flow) s.nameSet g) (vertex : x ∈ g.vertices)
    (ok : s.add x = .ok spilled) : SpillsFrom t p spilled := by
  obtain ⟨named, keep⟩ := (exact.vertices x).mp vertex
  obtain ⟨fresh, free⟩ := Interference.keepsIff.mp keep
  unfold Spills.add at ok
  split at ok <;> try contradiction
  cases Except.ok.inj ok
  refine ⟨before.stride, ?_, fun y mem => ?_⟩
  · rw [List.nodup_append]
    refine ⟨before.nodup, List.nodup_singleton x, fun y mem z single same => ?_⟩
    rw [List.mem_singleton.mp single] at same
    exact fresh (Spills.memNameSet.mpr (same ▸ mem))
  · rcases List.mem_append.mp mem with old | new
    · exact before.named y old
    · exact List.mem_singleton.mp new ▸ ⟨named, free⟩

structure Settled (t : Target) (p : Program) (flow : ControlFlow) (colorer : Colorer)
    (last : Attempt) (registers : NameMap Register) : Prop where
  spills : SpillsFrom t p last.spills
  built : p.interference t (p.liveness flow) last.spills.nameSet = .ok last.graph
  coloring : last.coloring = colorer.color last.graph
  proper : Coloring.Proper last.graph last.coloring
  fits : last.coloring.used ≤ t.budget
  registers : registers = Allocation.registers t last.coloring

theorem mostConflictedMember {g : Graph} (found : g.mostConflicted? = some x) : x ∈ g.vertices :=
  Graph.memDegreesKeys.mp (NameMap.highestMember found)

theorem attemptsSource {more : Nat} {spills : Spills} {history : List Nat}
    (before : SpillsFrom t p spills)
    (ok : (attempts t colorer p (p.liveness flow) more spills history).value
      = .ok (.allocated last registers)) : Settled t p flow colorer last registers := by
  fun_induction attempts t colorer p (p.liveness flow) more spills history with
  | case1 => cases ok
  | case2 => cases ok
  | case3 more spills history graph built coloring clean attempt told fits =>
    obtain ⟨here, colored⟩ := Outcome.allocated.inj (Except.ok.inj ok)
    rw [← here, ← colored]
    exact ⟨before, built, rfl, Coloring.violationNone.mp clean, fits, rfl⟩
  | case4 => cases ok
  | case5 spills history graph built coloring clean attempt told tight more name found spilled
      added rest ih =>
    have exact := Program.interferenceSource built
    exact ih (spillAnother before exact (mostConflictedMember found) added) ok
  | case6 => cases ok

theorem allocateSource
    (ok : (p.allocate t colorer (p.liveness flow)).value = .ok (.allocated last registers)) :
    Settled t p flow colorer last registers :=
  attemptsSource spillsNone ok

namespace Settled

variable (settled : Settled t p flow colorer last registers)
include settled

theorem graphExact : Interference.Exact t p (p.liveness flow) last.spills.nameSet last.graph :=
  Program.interferenceSource settled.built

theorem memVertices :
    x ∈ last.graph.vertices ↔ x ∈ p.names ∧ t.isReserved x = false ∧ x ∉ last.spills.names := by
  rw [settled.graphExact.vertices, Interference.keepsIff, Spills.memNameSet]
  exact and_congr_right fun _ => and_comm

theorem getRegister {r : Register} : registers.get? x = some r ↔
    ∃ color, last.coloring.get? x = some color ∧ t.register? color = some r := by
  rw [settled.registers, Allocation.registers, NameMap.getFilterMap, Option.bind_eq_some_iff]
  rfl

theorem registerSource {r : Register} (found : registers.get? x = some r) :
    r.index < t.registers ∧ ∀ entry ∈ t.reserved, entry.2 ≠ r := by
  obtain ⟨color, _, bound⟩ := settled.getRegister.mp found
  exact Target.registerSource bound

theorem registersApart {r s : Register} (joined : y ∈ last.graph.neighbors x)
    (atX : registers.get? x = some r) (atY : registers.get? y = some s) : r ≠ s := by
  obtain ⟨color, givenX, boundX⟩ := settled.getRegister.mp atX
  obtain ⟨other, givenY, boundY⟩ := settled.getRegister.mp atY
  intro same
  have equal := Target.registerInjective boundX (same ▸ boundY)
  exact settled.proper.proper x y joined (givenX.trans (equal ▸ givenY.symm))

variable (builtIn : colorer.BuiltIn)
include builtIn

theorem coloringExact : Coloring.Exact last.graph last.coloring := by
  rw [settled.coloring]
  exact Colorer.builtInExact builtIn (Interference.exactSimple settled.graphExact)

theorem memRegisters : x ∈ registers.keys ↔ x ∈ last.graph.vertices := by
  have exact := settled.coloringExact builtIn
  rw [← exact.domain, NameMap.memKeysIff, NameMap.memKeysIff]
  constructor
  · rintro ⟨r, found⟩
    obtain ⟨color, given, _⟩ := settled.getRegister.mp found
    exact ⟨color, given⟩
  · rintro ⟨color, given⟩
    have below : color < t.budget :=
      Nat.lt_of_lt_of_le ((exact.range color).mpr ⟨x, given⟩) settled.fits
    obtain ⟨r, found⟩ := Target.registerSome.mpr below
    exact ⟨r, settled.getRegister.mpr ⟨color, given, found⟩⟩

theorem neighborsApart (joined : y ∈ last.graph.neighbors x) :
    ∃ r s, registers.get? x = some r ∧ registers.get? y = some s ∧ r ≠ s := by
  have simple := Interference.exactSimple settled.graphExact
  have vertexY := simple.closed x y joined
  have vertexX := simple.closed y x (simple.symmetric x y joined)
  obtain ⟨r, atX⟩ := NameMap.memKeysIff.mp ((settled.memRegisters builtIn).mpr vertexX)
  obtain ⟨s, atY⟩ := NameMap.memKeysIff.mp ((settled.memRegisters builtIn).mpr vertexY)
  exact ⟨r, s, atX, atY, settled.registersApart joined atX atY⟩

end Settled

theorem okOf {α β : Type} {e : Except α β} {holds : β → Bool}
    (ran : e.toOption.any holds = true) : ∃ b, e = .ok b ∧ holds b = true := by
  cases e with
  | error _ => contradiction
  | ok b => exact ⟨b, rfl, ran⟩

theorem allocatedPlacement (builtIn : colorer.BuiltIn)
    (ok : (p.allocate t colorer (p.liveness flow)).value = .ok (.allocated last registers)) :
    (∀ x, x ∈ registers.keys ↔ x ∈ p.names ∧ t.isReserved x = false ∧ x ∉ last.spills.names) ∧
    (∀ x ∈ last.spills.names, x ∈ p.names ∧ t.isReserved x = false) ∧
    last.spills.names.Nodup ∧
    (∀ i x, last.spills.names[i]? = some x →
      last.spills.slots[i]? = some (x, i * t.stride) ∧
      last.spills.offset? x = some (i * t.stride)) ∧
    (∃ g, p.interference t (p.liveness flow) last.spills.nameSet = .ok g ∧
      ∀ x y, g.hasEdge x y = true →
        ∃ r s, registers.get? x = some r ∧ registers.get? y = some s ∧ r ≠ s) ∧
    ∀ x r, registers.get? x = some r →
      r.index < t.registers ∧ ∀ entry ∈ t.reserved, entry.2 ≠ r := by
  have settled := allocateSource ok
  refine ⟨fun x => ?_, settled.spills.named, settled.spills.nodup, fun i x present => ?_,
    ⟨last.graph, settled.built, fun x y edge => ?_⟩, fun x r => settled.registerSource⟩
  · rw [settled.memRegisters builtIn, settled.memVertices]
  · rw [← settled.spills.stride]
    exact ⟨Spills.slotAt present, Spills.offsetAt settled.spills.nodup present⟩
  · exact settled.neighborsApart builtIn (of_decide_eq_true edge)

theorem pairPlacement : ∃ p last registers,
    Program.parse "IN a\nIN b\nADD a a b\nOUT a\n" 0 = .ok p ∧
    (p.allocate { Target.standard with registers := 1 } .greedy (p.liveness p.flow)).value =
      .ok (.allocated last registers) ∧
    last.spills.names = ["a"] ∧ last.spills.offset? "a" = some 0 ∧
    (∀ x, x ∈ registers.keys ↔ x ∈ p.names ∧ Target.standard.isReserved x = false ∧ x ≠ "a") ∧
    ∀ x r, registers.get? x = some r → r.index < 1 := by
  have ran : (Program.parse "IN a\nIN b\nADD a a b\nOUT a\n" 0).toOption.any (fun p =>
      (p.allocate { Target.standard with registers := 1 } .greedy
        (p.liveness p.flow)).value.toOption.any fun outcome =>
          outcome.placement?.isSome && decide (outcome.last.spills.names = ["a"])) = true := by
    decide +kernel
  obtain ⟨p, parsed, ran⟩ := okOf ran
  obtain ⟨outcome, ok, ran⟩ := okOf ran
  cases outcome with
  | failed last budget => contradiction
  | allocated last registers =>
    have spilled : last.spills.names = ["a"] := of_decide_eq_true ran
    obtain ⟨domain, _, _, offsets, _, below⟩ := allocatedPlacement .greedy ok
    have first : last.spills.names[0]? = some "a" := by rw [spilled]; rfl
    refine ⟨p, last, registers, parsed, ok, spilled, (offsets 0 "a" first).2, fun x => ?_,
      fun x r found => (below x r found).1⟩
    rw [domain, spilled, List.mem_singleton]
    rfl

end Allocation

end Regalloc
