import Regalloc.Proofs.Allocation

/-! Spilling converges. A coloring uses no more colors than there are names in the graph, and every
further attempt has one name fewer, so with enough attempts the names left fit the registers. -/
namespace Regalloc

namespace Graph

variable {g : Graph}

theorem mostConflictedSome (positive : 0 < g.size) : ∃ x, g.mostConflicted? = some x := by
  cases found : g.mostConflicted? with
  | some x => exact ⟨x, rfl⟩
  | none =>
    have empty : g.degrees.size = 0 :=
      List.length_eq_zero_iff.mpr (NameMap.highestNone (m := g.degrees) found)
    rw [degrees, NameMap.sizeMapValues] at empty
    exact absurd empty (Nat.ne_of_gt positive)

end Graph

namespace Coloring

variable {g : Graph} {c : Coloring}

theorem usedLeSize (exact : Exact g c) : c.used ≤ g.size := by
  have inside : List.range c.used ⊆ c.colors.toList.map Prod.snd := fun color mem =>
    memValues.mpr ((exact.range color).mp (List.mem_range.mp mem))
  have bound := (List.subperm_of_subset List.nodup_range inside).length_le
  have domain : c.colors.keys = g.vertices := NameSet.ext exact.domain
  have sizes : (c.colors.toList.map Prod.fst).length = (g.adjacency.toList.map Prod.fst).length :=
    congrArg NameSet.size domain
  rw [List.length_range, List.length_map] at bound
  rw [List.length_map, List.length_map] at sizes
  exact Nat.le_trans bound (Nat.le_of_eq sizes)

end Coloring

namespace Spills

variable {s : Spills} {x : Name}

theorem addFresh (fresh : x ∉ s.names) : s.add x = .ok ⟨s.names ++ [x], s.stride⟩ :=
  if_neg fun mem => fresh (of_decide_eq_true mem)

end Spills

namespace Allocation

variable {t : Target} {p : Program} {flow : ControlFlow} {colorer : Colorer} {s : Spills}
  {g : Graph} {x : Name}

def names (t : Target) (p : Program) (s : Spills) : Nat :=
  (Interference.vertices t p s.nameSet).size

theorem namesOfExact (exact : Interference.Exact t p (p.liveness flow) s.nameSet g) :
    g.size = names t p s := by
  have same : g.vertices = Interference.vertices t p s.nameSet :=
    NameSet.ext fun x => (exact.vertices x).trans NameSet.memFilter.symm
  rw [names, ← same]
  exact (List.length_map _).symm

theorem namesSpill (exact : Interference.Exact t p (p.liveness flow) s.nameSet g)
    (vertex : x ∈ g.vertices) : names t p ⟨s.names ++ [x], s.stride⟩ < names t p s := by
  have inside : ∀ y ∈ Interference.vertices t p (Spills.nameSet ⟨s.names ++ [x], s.stride⟩),
      y ∈ Interference.vertices t p s.nameSet := by
    intro y mem
    obtain ⟨named, keep⟩ := NameSet.memFilter.mp mem
    obtain ⟨fresh, free⟩ := Interference.keepsIff.mp keep
    refine NameSet.memFilter.mpr ⟨named, Interference.keepsIff.mpr ⟨fun old => fresh ?_, free⟩⟩
    exact Spills.memNameSet.mpr (List.mem_append_left _ (Spills.memNameSet.mp old))
  by_contra large
  have back := NameSet.insideOfSizeLe inside (Nat.le_of_not_lt large) x
    (NameSet.memFilter.mpr ((exact.vertices x).mp vertex))
  have fresh := (Interference.keepsIff.mp (NameSet.memFilter.mp back).2).1
  exact fresh (Spills.memNameSet.mpr (List.mem_append_right _ (List.mem_singleton.mpr rfl)))

theorem namesSpillOne (x : Name) (s : Spills) :
    names t p s ≤ names t p ⟨s.names ++ [x], s.stride⟩ + 1 := by
  have inside : (Interference.vertices t p s.nameSet).toList ⊆
      x :: (Interference.vertices t p (Spills.nameSet ⟨s.names ++ [x], s.stride⟩)).toList := by
    intro y mem
    obtain ⟨named, keep⟩ := NameSet.memFilter.mp mem
    obtain ⟨kept, free⟩ := Interference.keepsIff.mp keep
    by_cases same : y = x
    · exact same ▸ List.mem_cons_self
    · refine List.mem_cons_of_mem _ (NameSet.memFilter.mpr ⟨named,
        Interference.keepsIff.mpr ⟨fun spilled => ?_, free⟩⟩)
      rcases List.mem_append.mp (Spills.memNameSet.mp spilled) with old | new
      · exact kept (Spills.memNameSet.mpr old)
      · exact same (List.mem_singleton.mp new)
  exact (List.subperm_of_subset (NameSet.nodup _) inside).length_le

theorem graphColored (builtIn : colorer.BuiltIn) (t : Target) (p : Program) (flow : ControlFlow)
    (s : Spills) :
    ∃ g, p.interference t (p.liveness flow) s.nameSet = .ok g ∧
      Interference.Exact t p (p.liveness flow) s.nameSet g ∧
      (colorer.color g).violation? g = none ∧ (colorer.color g).used ≤ g.size := by
  obtain ⟨g, built, exact⟩ := p.interferenceExact t flow s.nameSet
  have simple := Interference.exactSimple exact
  have colored := Colorer.builtInExact builtIn simple
  exact ⟨g, built, exact, Coloring.violationNone.mpr (Coloring.properOfExact simple colored),
    Coloring.usedLeSize colored⟩

theorem attemptsSucceed (builtIn : colorer.BuiltIn) {more : Nat}
    (room : names t p s ≤ t.budget + more) (history : List Nat) :
    ∃ last registers, (attempts t colorer p (p.liveness flow) more s history).value =
      .ok (.allocated last registers) := by
  -- Each further attempt has one name fewer in its graph, which `room` counts.
  induction more generalizing s history with
  | zero =>
    obtain ⟨g, built, exact, clean, used⟩ := graphColored builtIn t p flow s
    have fits : (colorer.color g).used ≤ t.budget :=
      Nat.le_trans used (namesOfExact exact ▸ room)
    unfold attempts
    simp only [built, clean, if_pos fits]
    exact ⟨_, _, rfl⟩
  | succ more ih =>
    obtain ⟨g, built, exact, clean, used⟩ := graphColored builtIn t p flow s
    unfold attempts
    simp only [built, clean]
    by_cases fits : (colorer.color g).used ≤ t.budget
    · simp only [if_pos fits]
      exact ⟨_, _, rfl⟩
    · have positive : 0 < g.size :=
        Nat.lt_of_lt_of_le (Nat.zero_lt_of_lt (Nat.lt_of_not_le fits)) used
      obtain ⟨x, found⟩ := Graph.mostConflictedSome positive
      have vertex := mostConflictedMember found
      have fresh : x ∉ s.names := fun mem =>
        (Interference.keepsIff.mp ((exact.vertices x).mp vertex).2).1 (Spills.memNameSet.mpr mem)
      have less : names t p ⟨s.names ++ [x], s.stride⟩ ≤ t.budget + more :=
        Nat.le_of_lt_succ (Nat.lt_of_lt_of_le (namesSpill exact vertex) room)
      obtain ⟨last, registers, ok⟩ := ih less (history ++ [(colorer.color g).used])
      simp only [if_neg fits, found, Spills.addFresh fresh]
      exact ⟨last, registers, ok⟩

theorem allocateSucceeds (flow : ControlFlow) (builtIn : colorer.BuiltIn)
    (room : names t p (Spills.none t.stride) ≤ t.budget + (t.attempts - 1)) :
    ∃ last registers, (p.allocate t colorer (p.liveness flow)).value =
      .ok (.allocated last registers) :=
  attemptsSucceed builtIn room []

theorem attemptsLeave (builtIn : colorer.BuiltIn) {more : Nat} {history : List Nat} {last : Attempt}
    {registers : NameMap Register}
    (ok : (attempts t colorer p (p.liveness flow) more s history).value
      = .ok (.allocated last registers)) :
    last.spills = s ∨ t.budget ≤ names t p last.spills := by
  fun_induction attempts t colorer p (p.liveness flow) more s history with
  | case1 => cases ok
  | case2 => cases ok
  | case3 more spills history graph built coloring clean attempt told fits =>
    obtain ⟨here, _⟩ := Outcome.allocated.inj (Except.ok.inj ok)
    exact .inl (here ▸ rfl)
  | case4 => cases ok
  | case5 spills history graph built coloring clean attempt told tight more name found spilled
      added rest ih =>
    have exact := Program.interferenceSource built
    have used : coloring.used ≤ graph.size :=
      Coloring.usedLeSize (Colorer.builtInExact builtIn (Interference.exactSimple exact))
    rw [namesOfExact exact] at used
    rcases ih ok with same | left
    · unfold Spills.add at added
      split at added <;> try contradiction
      have room := namesSpillOne (t := t) (p := p) name spills
      rw [Except.ok.inj added, ← same] at room
      exact .inr (by omega)
    · exact .inr left
  | case6 => cases ok

theorem allocateLeaves (builtIn : colorer.BuiltIn) {last : Attempt} {registers : NameMap Register}
    (ok : (p.allocate t colorer (p.liveness flow)).value = .ok (.allocated last registers)) :
    last.spills = Spills.none t.stride ∨ t.budget ≤ names t p last.spills :=
  attemptsLeave builtIn ok

end Allocation

end Regalloc
