import Regalloc.Proofs.Convergence

/-! The spill loop as the list of its attempts. Each attempt colors what is not spilled yet, and the
next one does so with one name fewer, the one with the most conflicts. A coloring that is too large
leaves such a name, so that the loop gives up only when no attempt is left to make. Later graphs are
parts of earlier ones: an old coloring would still do, but what a colorer makes of the smaller graph
is bounded by degrees alone, and may be larger. -/
namespace Regalloc

def Program.ownNames (p : Program) (t : Target) : NameSet := p.names.filter fun x => !t.isReserved x

namespace Coloring

variable {g : Graph} {c : Coloring} {bound : Nat}

theorem colorLeDegree {x : Name} {color : Nat} (exact : Exact g c)
    (given : c.get? x = some color) : color ≤ g.degree x := by
  -- Every smaller color sits on a neighbor, and no neighbor has two.
  have inside : List.range color ⊆ (g.neighbors x).toList.filterMap c.get? := fun b below => by
    obtain ⟨y, joined, found⟩ := exact.lowest x color given b (List.mem_range.mp below)
    exact List.mem_filterMap.mpr ⟨y, joined, found⟩
  have short := (List.subperm_of_subset List.nodup_range inside).length_le
  rw [List.length_range] at short
  exact Nat.le_trans short (List.length_filterMap_le _ _)

theorem usedLeDegree (exact : Exact g c) (low : ∀ x, g.degree x ≤ bound) :
    c.used ≤ bound + 1 := by
  by_contra large
  obtain ⟨x, given⟩ := (exact.range (bound + 1)).mp (Nat.lt_of_not_le large)
  exact absurd (Nat.le_trans (colorLeDegree exact given) (low x)) (Nat.not_succ_le_self bound)

end Coloring

namespace Allocation

/-- What one attempt is, made where `s` is spilled and the attempts before used `past`. -/
structure Made (t : Target) (p : Program) (flow : ControlFlow) (colorer : Colorer) (s : Spills)
    (past : List Nat) (a : Attempt) : Prop where
  spills : a.spills = s
  built : p.interference t (p.liveness flow) s.nameSet = .ok a.graph
  coloring : a.coloring = colorer.color a.graph
  history : a.history = past ++ [a.coloring.used]

inductive Run (t : Target) (p : Program) (flow : ControlFlow) (colorer : Colorer) :
    Nat → Spills → List Nat → List Attempt → Outcome → Prop where
  | fits {more s past a} (made : Made t p flow colorer s past a)
      (fit : a.coloring.used ≤ t.budget) :
      Run t p flow colorer more s past [a] (.allocated a (registers t a.coloring))
  | exhausted {s past a} (made : Made t p flow colorer s past a)
      (tight : t.budget < a.coloring.used) :
      Run t p flow colorer 0 s past [a] (.failed a t.budget)
  | nothingLeft {more s past a} (made : Made t p flow colorer s past a)
      (tight : t.budget < a.coloring.used) (none : a.graph.mostConflicted? = none) :
      Run t p flow colorer (more + 1) s past [a] (.failed a t.budget)
  | spill {more s past a x rest outcome} (made : Made t p flow colorer s past a)
      (tight : t.budget < a.coloring.used) (found : a.graph.mostConflicted? = some x)
      (next : Run t p flow colorer more ⟨s.names ++ [x], s.stride⟩ a.history rest outcome) :
      Run t p flow colorer (more + 1) s past (a :: rest) outcome

variable {t : Target} {p : Program} {flow : ControlFlow} {colorer : Colorer} {s : Spills}
  {more : Nat} {past : List Nat} {a : Attempt} {tried : List Attempt} {outcome : Outcome}

namespace Made

variable (made : Made t p flow colorer s past a)
include made

theorem graphExact : Interference.Exact t p (p.liveness flow) s.nameSet a.graph :=
  Program.interferenceSource made.built

theorem size : a.graph.size = names t p s := namesOfExact made.graphExact

theorem memVertices {x : Name} :
    x ∈ a.graph.vertices ↔ x ∈ p.names ∧ x ∉ s.names ∧ t.isReserved x = false := by
  rw [made.graphExact.vertices, Interference.keepsIff, Spills.memNameSet]

theorem added {x : Name} (found : a.graph.mostConflicted? = some x) :
    s.add x = .ok ⟨s.names ++ [x], s.stride⟩ :=
  Spills.addFresh (made.memVertices.mp (mostConflictedMember found)).2.1

theorem namesNext {x : Name} (found : a.graph.mostConflicted? = some x) :
    names t p ⟨s.names ++ [x], s.stride⟩ + 1 = names t p s :=
  Nat.le_antisymm (namesSpill made.graphExact (mostConflictedMember found)) (namesSpillOne x s)

theorem coloringExact (builtIn : colorer.BuiltIn) : Coloring.Exact a.graph a.coloring := by
  rw [made.coloring]
  exact Colorer.builtInExact builtIn (Interference.exactSimple made.graphExact)

theorem usedLe (builtIn : colorer.BuiltIn) : a.coloring.used ≤ names t p s :=
  made.size ▸ Coloring.usedLeSize (made.coloringExact builtIn)

theorem conflicted (builtIn : colorer.BuiltIn) (tight : t.budget < a.coloring.used) :
    ∃ x, a.graph.mostConflicted? = some x :=
  Graph.mostConflictedSome
    (Nat.lt_of_lt_of_le (Nat.zero_lt_of_lt tight) (made.size ▸ made.usedLe builtIn))

end Made

theorem attemptsTurn (builtIn : colorer.BuiltIn) (t : Target) (p : Program) (flow : ControlFlow)
    (s : Spills) (past : List Nat) :
    ∃ a, Made t p flow colorer s past a ∧ ∀ more,
      (attempts t colorer p (p.liveness flow) more s past).value =
        if a.coloring.used ≤ t.budget then .ok (.allocated a (registers t a.coloring))
        else match more, a.graph.mostConflicted? with
          | more + 1, some x =>
            (attempts t colorer p (p.liveness flow) more ⟨s.names ++ [x], s.stride⟩ a.history).value
          | _, _ => .ok (.failed a t.budget) := by
  obtain ⟨g, built, _, clean, _⟩ := graphColored builtIn t p flow s
  have made : Made t p flow colorer s past
      ⟨g, colorer.color g, s, past ++ [(colorer.color g).used]⟩ := ⟨rfl, built, rfl, rfl⟩
  refine ⟨_, made, fun more => ?_⟩
  rw [attempts.eq_def]
  simp only [built, clean]
  by_cases fit : (colorer.color g).used ≤ t.budget
  · simp only [if_pos fit]
  · simp only [if_neg fit]
    cases more with
    | zero => rfl
    | succ more =>
      cases found : g.mostConflicted? with
      | none => rfl
      | some x =>
        simp only [made.added found]

theorem attemptsRun (builtIn : colorer.BuiltIn) (t : Target) (p : Program) (flow : ControlFlow)
    (more : Nat) (s : Spills) (past : List Nat) :
    ∃ tried outcome, (attempts t colorer p (p.liveness flow) more s past).value = .ok outcome ∧
      Run t p flow colorer more s past tried outcome := by
  induction more generalizing s past with
  | zero =>
    obtain ⟨a, made, turn⟩ := attemptsTurn builtIn t p flow s past
    rw [turn]
    by_cases fit : a.coloring.used ≤ t.budget
    · exact ⟨_, _, if_pos fit, .fits made fit⟩
    · exact ⟨_, _, if_neg fit, .exhausted made (Nat.lt_of_not_le fit)⟩
  | succ more ih =>
    obtain ⟨a, made, turn⟩ := attemptsTurn builtIn t p flow s past
    rw [turn]
    by_cases fit : a.coloring.used ≤ t.budget
    · exact ⟨_, _, if_pos fit, .fits made fit⟩
    · obtain ⟨x, found⟩ := made.conflicted builtIn (Nat.lt_of_not_le fit)
      obtain ⟨rest, outcome, ok, next⟩ := ih ⟨s.names ++ [x], s.stride⟩ a.history
      rw [if_neg fit, found]
      exact ⟨_, _, ok, .spill made (Nat.lt_of_not_le fit) found next⟩

namespace Run

theorem history (run : Run t p flow colorer more s past tried outcome) :
    outcome.last.history = past ++ tried.map (·.coloring.used) := by
  induction run with
  | fits made => exact made.history
  | exhausted made => exact made.history
  | nothingLeft made => exact made.history
  | spill made _ _ _ ih => rw [ih, made.history, List.append_assoc]; rfl

theorem last (run : Run t p flow colorer more s past tried outcome) :
    tried.getLast? = some outcome.last := by
  induction run with
  | fits => rfl
  | exhausted => rfl
  | nothingLeft => rfl
  | spill _ _ _ _ ih => rw [List.getLast?_cons, ih]; rfl

theorem short (builtIn : colorer.BuiltIn)
    (run : Run t p flow colorer more s past tried outcome) :
    tried.length ≤ max 1 (names t p s - t.budget + 1) := by
  induction run with
  | fits => exact Nat.le_max_left _ _
  | exhausted => exact Nat.le_max_left _ _
  | nothingLeft => exact Nat.le_max_left _ _
  | spill made tight found _ ih =>
    have fewer := made.namesNext found
    have used := made.usedLe builtIn
    rw [List.length_cons]
    omega

theorem failed (builtIn : colorer.BuiltIn) {last : Attempt} {budget : Nat}
    (run : Run t p flow colorer more s past tried outcome)
    (gaveUp : outcome = .failed last budget) :
    budget = t.budget ∧ tried.length = more + 1 ∧ ∀ a ∈ tried,
      t.budget < a.coloring.used ∧ ∃ x, a.graph.mostConflicted? = some x := by
  induction run with
  | fits => cases gaveUp
  | exhausted made tight =>
    refine ⟨(Outcome.failed.inj gaveUp).2.symm, rfl, fun a mem => ?_⟩
    rw [List.mem_singleton.mp mem]
    exact ⟨tight, made.conflicted builtIn tight⟩
  | nothingLeft made tight absent =>
    obtain ⟨x, found⟩ := made.conflicted builtIn tight
    cases absent.symm.trans found
  | spill made tight found _ ih =>
    obtain ⟨same, length, all⟩ := ih gaveUp
    refine ⟨same, congrArg (· + 1) length, fun a mem => ?_⟩
    rcases List.mem_cons.mp mem with rfl | later
    · exact ⟨tight, _, found⟩
    · exact all a later

theorem attempt (run : Run t p flow colorer more s past tried outcome) :
    ∀ a ∈ tried, ∃ spilled before, Made t p flow colorer ⟨s.names ++ spilled, s.stride⟩ before a ∧
      a.graph.size + spilled.length = names t p s := by
  have start {s : Spills} {past : List Nat} {a : Attempt}
      (made : Made t p flow colorer s past a) :
      ∃ spilled before, Made t p flow colorer ⟨s.names ++ spilled, s.stride⟩ before a ∧
        a.graph.size + spilled.length = names t p s := by
    refine ⟨[], past, ?_, made.size⟩
    rw [List.append_nil]
    exact made
  induction run with
  | fits made => exact fun a mem => List.mem_singleton.mp mem ▸ start made
  | exhausted made => exact fun a mem => List.mem_singleton.mp mem ▸ start made
  | nothingLeft made => exact fun a mem => List.mem_singleton.mp mem ▸ start made
  | @spill more s past head x rest outcome made _ found _ ih =>
    intro a mem
    rcases List.mem_cons.mp mem with rfl | later
    · exact start made
    · obtain ⟨spilled, before, here, size⟩ := ih a later
      refine ⟨x :: spilled, before, ?_, ?_⟩
      · rw [List.append_cons]
        exact here
      · rw [← made.namesNext found, ← size]
        rfl

end Run

theorem namesNone : names t p (Spills.none t.stride) = (p.ownNames t).size := by
  have same : Interference.vertices t p (Spills.none t.stride).nameSet = p.ownNames t := by
    refine NameSet.ext fun x => NameSet.memFilter.trans (Iff.trans ?_ NameSet.memFilter.symm)
    rw [Interference.keepsIff, Spills.memNameSet]
    simp [Spills.none]
  rw [names, same]

theorem spillingConverges (t : Target) (p : Program) (flow : ControlFlow)
    (builtIn : colorer.BuiltIn) :
    ∃ tried outcome, (p.allocate t colorer (p.liveness flow)).value = .ok outcome ∧
      Run t p flow colorer (t.attempts - 1) (Spills.none t.stride) [] tried outcome ∧
      outcome.last.history = tried.map (·.coloring.used) ∧
      tried.length ≤ max 1 ((p.ownNames t).size - t.budget + 1) ∧
      ((p.ownNames t).size - t.budget + 1 ≤ t.attempts →
        ∃ last registers, outcome = .allocated last registers) ∧
      ∀ last budget, outcome = .failed last budget →
        budget = t.budget ∧ tried.length = max 1 t.attempts ∧
        (∀ used ∈ last.history, t.budget < used) ∧
        last.history.getLast? = some last.coloring.used ∧
        ∀ a ∈ tried, ∃ x, a.graph.mostConflicted? = some x := by
  obtain ⟨tried, outcome, ok, run⟩ :=
    attemptsRun builtIn t p flow (t.attempts - 1) (Spills.none t.stride) []
  have history : outcome.last.history = tried.map (·.coloring.used) := run.history
  refine ⟨tried, outcome, ok, run, history, namesNone ▸ run.short builtIn, fun enough => ?_,
    fun last budget gaveUp => ?_⟩
  · have room : names t p (Spills.none t.stride) ≤ t.budget + (t.attempts - 1) := by
      rw [namesNone]
      omega
    obtain ⟨last, registers, settled⟩ := allocateSucceeds flow builtIn room
    exact ⟨last, registers, Except.ok.inj (ok.symm.trans settled)⟩
  · obtain ⟨same, length, all⟩ := run.failed builtIn gaveUp
    have final := run.last
    rw [gaveUp] at history final
    refine ⟨same, length.trans (by omega), fun used mem => ?_, ?_, fun a mem => (all a mem).2⟩
    · obtain ⟨a, tried, rfl⟩ := List.mem_map.mp (history ▸ mem)
      exact (all a tried).1
    · rw [show last.history = _ from history, List.getLast?_map, final]
      rfl

theorem pairConverges : ∃ (p : Program) (tried : List Attempt) (last : Attempt),
    Program.parse "IN a\nIN b\nADD a a b\nOUT a\n" 0 = .ok p ∧
    (p.allocate { Target.standard with registers := 1, attempts := 1 } .greedy
      (p.liveness p.flow)).value = .ok (.failed last 1) ∧
    (p.ownNames Target.standard).size = 2 ∧ tried.map (·.coloring.used) = [2] ∧
    ∀ a ∈ tried, ∃ x, a.graph.mostConflicted? = some x := by
  have ran : (Program.parse "IN a\nIN b\nADD a a b\nOUT a\n" 0).toOption.any (fun p =>
      decide ((p.ownNames Target.standard).size = 2) &&
      (p.allocate { Target.standard with registers := 1, attempts := 1 } .greedy
        (p.liveness p.flow)).value.toOption.any fun outcome =>
          outcome.placement?.isNone && decide (outcome.last.history = [2])) = true := by
    decide +kernel
  obtain ⟨p, parsed, ran⟩ := okOf ran
  obtain ⟨two, ran⟩ := Bool.and_eq_true_iff.mp ran
  obtain ⟨outcome, found, ran⟩ := okOf ran
  obtain ⟨tried, same, ok, _, history, _, _, failed⟩ :=
    spillingConverges { Target.standard with registers := 1, attempts := 1 } p p.flow .greedy
  cases Except.ok.inj (found.symm.trans ok)
  cases outcome with
  | allocated last registers => cases ran
  | failed last budget =>
    obtain ⟨rfl, _, _, _, left⟩ := failed last budget rfl
    exact ⟨p, tried, last, parsed, found, of_decide_eq_true two,
      history.symm.trans (of_decide_eq_true ran), left⟩

structure Later (earlier later : Attempt) : Prop where
  spills : ∃ spilled, later.spills.names = earlier.spills.names ++ spilled ∧
    later.graph.size + spilled.length = earlier.graph.size
  vertices : ∀ x, x ∈ later.graph.vertices ↔
    x ∈ earlier.graph.vertices ∧ x ∉ later.spills.names
  neighbors : ∀ x y, y ∈ later.graph.neighbors x ↔
    y ∈ earlier.graph.neighbors x ∧ x ∉ later.spills.names ∧ y ∉ later.spills.names
  still : Coloring.Proper later.graph earlier.coloring
  size : later.coloring.used ≤ later.graph.size
  degree : ∀ bound, (∀ x, earlier.graph.degree x ≤ bound) → later.coloring.used ≤ bound + 1

theorem keepsLater {spilled : List Name} {x : Name} :
    Interference.keeps t (Spills.nameSet ⟨s.names ++ spilled, s.stride⟩) x = true ↔
      Interference.keeps t s.nameSet x = true ∧ x ∉ s.names ++ spilled := by
  rw [Interference.keepsIff, Interference.keepsIff, Spills.memNameSet, Spills.memNameSet]
  constructor
  · rintro ⟨fresh, free⟩
    exact ⟨⟨fun old => fresh (List.mem_append_left _ old), free⟩, fresh⟩
  · rintro ⟨⟨_, free⟩, fresh⟩
    exact ⟨fresh, free⟩

theorem Made.later (builtIn : colorer.BuiltIn) {spilled : List Name} {next : List Nat}
    {b : Attempt} (made : Made t p flow colorer s past a)
    (after : Made t p flow colorer ⟨s.names ++ spilled, s.stride⟩ next b)
    (size : b.graph.size + spilled.length = a.graph.size) : Later a b := by
  have names : b.spills.names = s.names ++ spilled := by rw [after.spills]
  have vertices (x : Name) : x ∈ b.graph.vertices ↔
      x ∈ a.graph.vertices ∧ x ∉ b.spills.names := by
    rw [after.graphExact.vertices, made.graphExact.vertices, keepsLater, names, and_assoc]
  have neighbors (x y : Name) : y ∈ b.graph.neighbors x ↔
      y ∈ a.graph.neighbors x ∧ x ∉ b.spills.names ∧ y ∉ b.spills.names := by
    rw [after.graphExact.neighbors, made.graphExact.neighbors, keepsLater, keepsLater, names,
      and_and_and_comm]
    exact and_assoc.symm
  have colored := made.coloringExact builtIn
  have proper := Coloring.properOfExact (Interference.exactSimple made.graphExact) colored
  refine ⟨⟨spilled, by rw [names, made.spills], size⟩, vertices, neighbors,
    ⟨fun x vertex => ?_, fun x y joined => ?_⟩,
    Coloring.usedLeSize (after.coloringExact builtIn), fun bound low => ?_⟩
  · exact proper.total x ((vertices x).mp vertex).1
  · exact proper.proper x y ((neighbors x y).mp joined).1
  · refine Coloring.usedLeDegree (after.coloringExact builtIn) fun x => ?_
    exact Nat.le_trans (NameSet.sizeLe fun y joined => ((neighbors x y).mp joined).1) (low x)

theorem Run.pairwise (builtIn : colorer.BuiltIn)
    (run : Run t p flow colorer more s past tried outcome) : tried.Pairwise Later := by
  induction run with
  | fits => exact List.pairwise_singleton _ _
  | exhausted => exact List.pairwise_singleton _ _
  | nothingLeft => exact List.pairwise_singleton _ _
  | @spill more s past a x rest outcome made _ found next ih =>
    refine List.pairwise_cons.mpr ⟨fun b mem => ?_, ih⟩
    obtain ⟨spilled, before, after, size⟩ := next.attempt b mem
    rw [List.append_assoc] at after
    refine made.later builtIn after ?_
    rw [made.size, ← made.namesNext found, ← size]
    rfl

theorem colorsBounded (builtIn : colorer.BuiltIn)
    (ok : (p.allocate t colorer (p.liveness flow)).value = .ok outcome) :
    ∃ tried, Run t p flow colorer (t.attempts - 1) (Spills.none t.stride) [] tried outcome ∧
      outcome.last.history = tried.map (·.coloring.used) ∧ tried.Pairwise Later := by
  obtain ⟨tried, same, found, run⟩ :=
    attemptsRun builtIn t p flow (t.attempts - 1) (Spills.none t.stride) []
  cases Except.ok.inj (ok.symm.trans found)
  exact ⟨tried, run, run.history, run.pairwise builtIn⟩

theorem pairBounded : ∃ (p : Program) (tried : List Attempt) (outcome : Outcome),
    Program.parse "IN a\nIN b\nADD a a b\nOUT a\n" 0 = .ok p ∧
    (p.allocate { Target.standard with registers := 1 } .greedy (p.liveness p.flow)).value =
      .ok outcome ∧
    outcome.last.history = [2, 1] ∧ tried.map (·.coloring.used) = [2, 1] ∧
    tried.Pairwise Later := by
  have ran : (Program.parse "IN a\nIN b\nADD a a b\nOUT a\n" 0).toOption.any (fun p =>
      (p.allocate { Target.standard with registers := 1 } .greedy
        (p.liveness p.flow)).value.toOption.any fun outcome =>
          decide (outcome.last.history = [2, 1])) = true := by
    decide +kernel
  obtain ⟨p, parsed, ran⟩ := okOf ran
  obtain ⟨outcome, ok, ran⟩ := okOf ran
  have history : outcome.last.history = [2, 1] := of_decide_eq_true ran
  obtain ⟨tried, _, used, later⟩ := colorsBounded .greedy ok
  exact ⟨p, tried, outcome, parsed, ok, history, used.symm.trans history, later⟩

def risingSource : String :=
  "IN a\nIN e\nLD b a\nLD d e\nLD f b\nLD a d\nLD g f\nLD d a\n" ++
    "LD h g\nLD e d\nLD f h\nLD h e\nLD b f\nLD c h\nOUT b\n"

/-- With two registers, both ways of coloring use three colors at first, and four once the name with
the most conflicts is gone. -/
theorem colorsRise : ∃ p, Program.parse risingSource 0 = .ok p ∧
    ∀ colorer ∈ [Colorer.greedy, Colorer.simplify 2], ∃ last registers,
      (p.allocate { Target.standard with registers := 2 } colorer (p.liveness p.flow)).value =
        .ok (.allocated last registers) ∧
      last.history = [3, 4, 3, 2] ∧ ¬ last.history.Pairwise (· ≥ ·) := by
  have ran : (Program.parse risingSource 0).toOption.any (fun p =>
      [Colorer.greedy, Colorer.simplify 2].all fun colorer =>
        (p.allocate { Target.standard with registers := 2 } colorer
          (p.liveness p.flow)).value.toOption.any fun outcome =>
            outcome.placement?.isSome && decide (outcome.last.history = [3, 4, 3, 2])) = true := by
    decide +kernel
  obtain ⟨p, parsed, ran⟩ := okOf ran
  refine ⟨p, parsed, fun colorer mem => ?_⟩
  obtain ⟨outcome, ok, ran⟩ := okOf (List.all_eq_true.mp ran colorer mem)
  cases outcome with
  | failed last budget => cases ran
  | allocated last registers =>
    have history : last.history = [3, 4, 3, 2] := of_decide_eq_true ran
    exact ⟨last, registers, ok, history, by rw [history]; decide⟩

end Allocation

end Regalloc
