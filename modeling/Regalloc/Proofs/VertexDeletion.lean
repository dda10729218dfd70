import Regalloc.Proofs.Coloring
import Regalloc.Proofs.Interference

/-! Vertices that are deleted together with their edges. The interference graph of a program without
some names is its whole interference graph with these vertices deleted. -/
namespace Regalloc

namespace Graph

variable {g : Graph} {x y z : Name} {names : List Name}

def without (g : Graph) (x : Name) : Graph :=
  ⟨(g.adjacency.erase x).mapValues fun _ neighbors => neighbors.filter fun y => decide (y ≠ x)⟩

@[simp] theorem memVerticesWithout : y ∈ (g.without x).vertices ↔ y ∈ g.vertices ∧ y ≠ x := by
  unfold vertices without
  rw [NameMap.memKeysMapValues, NameMap.memKeysErase, and_comm]

@[simp] theorem memNeighborsWithout :
    z ∈ (g.without x).neighbors y ↔ z ∈ g.neighbors y ∧ y ≠ x ∧ z ≠ x := by
  unfold neighbors without
  by_cases same : y = x
  · simp [same]
  · cases found : g.adjacency.get? y <;> simp [found, same]

def withoutAll (g : Graph) (names : List Name) : Graph := names.foldl without g

@[simp] theorem memVerticesWithoutAll :
    y ∈ (g.withoutAll names).vertices ↔ y ∈ g.vertices ∧ y ∉ names := by
  unfold withoutAll
  induction names generalizing g with
  | nil => simp
  | cons x names ih => simp [ih, and_assoc]

@[simp] theorem memNeighborsWithoutAll :
    z ∈ (g.withoutAll names).neighbors y ↔ z ∈ g.neighbors y ∧ y ∉ names ∧ z ∉ names := by
  unfold withoutAll
  induction names generalizing g with
  | nil => simp
  | cons x names ih =>
    simp only [List.foldl_cons, ih, memNeighborsWithout, List.mem_cons, not_or]
    tauto

end Graph

theorem Target.isReservedFalse {t : Target} {x : Name} :
    t.isReserved x = false ↔ x ∉ t.reserved.map Prod.fst := by
  simp only [isReserved, reservedRegister?, Option.isSome_map, Option.isSome_eq_false_iff,
    Option.isNone_iff_eq_none, List.find?_eq_none, beq_iff_eq, List.mem_map, not_exists, not_and]

namespace Interference

variable {t : Target} {p : Program} {l : Liveness} {excluded : NameSet} {g : Graph} {x y : Name}

theorem Exact.exclude (whole : Exact t p l ∅ g) (excluded : NameSet) :
    Exact t p l excluded (g.withoutAll excluded.toList) := by
  refine ⟨fun x => ?_, fun x y => ?_⟩
  · simp only [Graph.memVerticesWithoutAll, whole.vertices, keepsIff, NameSet.notMemEmpty,
      NameSet.memToList]
    tauto
  · simp only [Graph.memNeighborsWithoutAll, whole.neighbors, keepsIff, NameSet.notMemEmpty,
      NameSet.memToList, not_false_eq_true, true_and]
    exact and_assoc.trans (and_congr_right fun _ => by tauto)

theorem Exact.joined {flow : ControlFlow} (exact : Exact t p (p.liveness flow) excluded g) :
    y ∈ g.neighbors x ↔ (x ∈ g.vertices ∧ y ∈ g.vertices) ∧ x ≠ y ∧
      ∃ i < p.size, Conflict (p.liveness flow) i x y ∨ Conflict (p.liveness flow) i y x := by
  rw [exact.neighbors, exact.vertices, exact.vertices]
  constructor
  · rintro ⟨⟨i, bound, conflict | conflict⟩, keepX, keepY⟩
    · have named := conflictNamed bound conflict
      exact ⟨⟨⟨named.1, keepX⟩, named.2, keepY⟩, conflict.apart, i, bound, .inl conflict⟩
    · have named := conflictNamed bound conflict
      exact ⟨⟨⟨named.2, keepX⟩, named.1, keepY⟩, conflict.apart.symm, i, bound, .inr conflict⟩
  · rintro ⟨⟨⟨_, keepX⟩, _, keepY⟩, _, conflict⟩
    exact ⟨conflict, keepX, keepY⟩

end Interference

namespace Program

open Interference (Conflict)

theorem interferenceInduced (p : Program) (t : Target) (flow : ControlFlow) (excluded : NameSet) :
    ∃ g whole, p.interference t (p.liveness flow) excluded = .ok g ∧
      p.interference t (p.liveness flow) ∅ = .ok whole ∧
      (∀ x, x ∈ g.vertices ↔ (∃ inst ∈ p.instructions, x ∈ inst.registers) ∧ x ∉ excluded ∧
        x ∉ t.reserved.map Prod.fst) ∧
      (∀ x y, y ∈ g.neighbors x ↔ (x ∈ g.vertices ∧ y ∈ g.vertices) ∧ x ≠ y ∧
        ∃ i < p.size, Conflict (p.liveness flow) i x y ∨ Conflict (p.liveness flow) i y x) ∧
      g = whole.withoutAll excluded.toList := by
  obtain ⟨g, built, exact⟩ := interferenceExact p t flow excluded
  obtain ⟨whole, all, full⟩ := interferenceExact p t flow ∅
  refine ⟨g, whole, built, all, fun x => ?_, fun x y => exact.joined,
    exact.unique (full.exclude excluded)⟩
  rw [exact.vertices, memNames, Interference.keepsIff, Target.isReservedFalse]

end Program

end Regalloc
