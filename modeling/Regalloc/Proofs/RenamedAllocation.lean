import Regalloc.Proofs.RenamedColoring

/-! Allocation under a renaming that leaves reserved names alone and keeps the order of the others.
The graph of each attempt is the renamed one, so the spill loop takes the same turns. -/
namespace Regalloc

open NameSet (Increasing)

variable {σ : Name ≃ Name} {t : Target}

namespace Spills

variable {s : Spills} {x : Name}

def rename (f : Name → Name) (s : Spills) : Spills := ⟨s.names.map f, s.stride⟩

theorem nameSetRename : (s.rename σ).nameSet = s.nameSet.map σ := NameSet.mapOfList.symm

@[simp] theorem containsRename : (s.rename σ).contains (σ x) = s.contains x := by
  simp [contains, rename]

@[simp] theorem offsetRename : (s.rename σ).offset? (σ x) = s.offset? x := by
  have same : ((fun y => y == σ x) ∘ σ) = fun y => y == x := by
    funext y
    exact Bool.eq_iff_iff.mpr (by simp)
  rw [offset?, rename, List.idxOf?, List.findIdx?_map, same]
  rfl

end Spills

def Attempt.rename (f : Name → Name) (a : Attempt) : Attempt :=
  ⟨a.graph.rename f, a.coloring.rename f, a.spills.rename f, a.history⟩

def Outcome.rename (f : Name → Name) : Outcome → Outcome
  | allocated last registers => allocated (last.rename f) (registers.mapKeys f)
  | failed last budget => failed (last.rename f) budget

structure Program.Ordered (t : Target) (p : Program) (f : Name → Name) : Prop where
  fixed : ∀ x ∈ p.names, t.isReserved x = true → f x = x
  free : ∀ x ∈ p.names, t.isReserved x = false → t.isReserved (f x) = false
  increasing : Increasing f (p.ownNames t)

namespace Program.Ordered

variable {p : Program} {x : Name} (ordered : p.Ordered t σ)
include ordered

theorem reserved (named : x ∈ p.names) : t.reservedRegister? (σ x) = t.reservedRegister? x := by
  cases reserved : t.isReserved x with
  | true => rw [ordered.fixed x named reserved]
  | false => rw [Target.unbound reserved, Target.unbound (ordered.free x named reserved)]

theorem keeps (excluded : NameSet) (named : x ∈ p.names) :
    Interference.keeps t (excluded.map σ) (σ x) = Interference.keeps t excluded x := by
  simp [Interference.keeps, Target.isReserved, ordered.reserved named]

theorem exact {q : Program} {flow : ControlFlow} {excluded : NameSet} {g : Graph}
    (renamed : p.Renamed σ q)
    (exact : Interference.Exact t p (p.liveness flow) excluded g) :
    Interference.Exact t q (q.liveness flow) (excluded.map σ) (g.rename σ) := by
  have conflict (i : Nat) (x y : Name) : Interference.Conflict (q.liveness flow) i (σ x) (σ y) ↔
      Interference.Conflict (p.liveness flow) i x y := by
    rw [renamed.liveness]
    constructor
    · rintro ⟨killed, live, kept⟩
      rw [Liveness.killsRename, NameSet.memMap, σ.symm_apply_apply] at killed kept
      rw [Liveness.liveOutRename, NameSet.memMap, σ.symm_apply_apply] at live
      exact ⟨killed, live, kept⟩
    · rintro ⟨killed, live, kept⟩
      refine ⟨?_, ?_, ?_⟩
      · rwa [Liveness.killsRename, NameSet.memMap, σ.symm_apply_apply]
      · rwa [Liveness.liveOutRename, NameSet.memMap, σ.symm_apply_apply]
      · rwa [Liveness.killsRename, NameSet.memMap, σ.symm_apply_apply]
  refine ⟨fun y => ?_, fun y z => ?_⟩
  · obtain ⟨x, rfl⟩ := σ.surjective y
    rw [Graph.verticesRename, renamed.names, NameSet.memMap, NameSet.memMap, σ.symm_apply_apply,
      exact.vertices]
    exact and_congr_right fun named => by rw [ordered.keeps excluded named]
  · obtain ⟨x, rfl⟩ := σ.surjective y
    obtain ⟨y, rfl⟩ := σ.surjective z
    rw [Graph.neighborsRename, NameSet.memMap, σ.symm_apply_apply, σ.symm_apply_apply,
      exact.neighbors, renamed.size]
    simp only [conflict]
    refine and_congr_right fun ⟨i, bound, either⟩ => ?_
    have named : x ∈ p.names ∧ y ∈ p.names := either.elim (Interference.conflictNamed bound)
      fun conflict => (Interference.conflictNamed bound conflict).symm
    rw [ordered.keeps excluded named.1, ordered.keeps excluded named.2]

end Program.Ordered

namespace Allocation

variable {p q : Program} {flow : ControlFlow} {colorer : Colorer} {s : Spills} {past : List Nat}
  {a b : Attempt}

theorem Made.increasing (made : Made t p flow colorer s past a) (ordered : p.Ordered t σ) :
    Increasing σ a.graph.vertices :=
  ordered.increasing.mono fun x mem => by
    obtain ⟨named, _, free⟩ := made.memVertices.mp mem
    exact NameSet.memFilter.mpr ⟨named, by simp [free]⟩

theorem Made.renamed (builtIn : colorer.BuiltIn) (renamed : p.Renamed σ q)
    (ordered : p.Ordered t σ) (made : Made t p flow colorer s past a)
    (other : Made t q flow colorer (s.rename σ) past b) : b = a.rename σ := by
  have graph : b.graph = a.graph.rename σ :=
    other.graphExact.unique (Spills.nameSetRename ▸ ordered.exact renamed made.graphExact)
  have coloring : b.coloring = a.coloring.rename σ := by
    rw [other.coloring, graph, made.coloring]
    exact Colorer.builtInRename builtIn (Interference.exactSimple made.graphExact)
      (made.increasing ordered)
  have history : b.history = a.history := by rw [other.history, made.history, coloring]; rfl
  have spills : b.spills = a.spills.rename σ := by rw [other.spills, made.spills]
  cases b
  simp_all [Attempt.rename]

theorem registersRename (c : Coloring) : registers t (c.rename σ) = (registers t c).mapKeys σ :=
  NameMap.mapKeysFilterMap

theorem allocatedRename (a : Attempt) :
    Outcome.allocated (a.rename σ) (registers t (a.rename σ).coloring) =
      (Outcome.allocated a (registers t a.coloring)).rename σ :=
  congrArg (Outcome.allocated (a.rename σ)) (registersRename a.coloring)

theorem attemptsRename (builtIn : colorer.BuiltIn) (renamed : p.Renamed σ q)
    (ordered : p.Ordered t σ) (flow : ControlFlow) (more : Nat) (s : Spills) (past : List Nat) :
    (attempts t colorer q (q.liveness flow) more (s.rename σ) past).value =
      (attempts t colorer p (p.liveness flow) more s past).value.map (Outcome.rename σ) := by
  induction more generalizing s past with
  | zero =>
    obtain ⟨a, made, turn⟩ := attemptsTurn builtIn t p flow s past
    obtain ⟨b, other, turn'⟩ := attemptsTurn builtIn t q flow (s.rename σ) past
    cases made.renamed builtIn renamed ordered other
    rw [turn, turn', show (a.rename σ).coloring.used = a.coloring.used from rfl, allocatedRename]
    split <;> rfl
  | succ more ih =>
    obtain ⟨a, made, turn⟩ := attemptsTurn builtIn t p flow s past
    obtain ⟨b, other, turn'⟩ := attemptsTurn builtIn t q flow (s.rename σ) past
    cases made.renamed builtIn renamed ordered other
    have worst : (a.rename σ).graph.mostConflicted? = a.graph.mostConflicted?.map σ :=
      Graph.mostConflictedRename (made.increasing ordered)
    rw [turn, turn', show (a.rename σ).coloring.used = a.coloring.used from rfl, allocatedRename,
      worst]
    split
    · rfl
    · cases a.graph.mostConflicted? with
      | none => rfl
      | some x =>
        have spilled := ih ⟨s.names ++ [x], s.stride⟩ a.history
        rw [Spills.rename, List.map_append] at spilled
        exact spilled

end Allocation

end Regalloc
