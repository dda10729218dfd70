import Regalloc.Proofs.GraphSteps
import Regalloc.Proofs.SpillRecord

/-! The check that stands between a colorer and the rest. It passes the proper colorings only and
names the first vertex where another one is wrong. So a run of the spill loop ends in a proper
coloring, or else at its first coloring that is not, before anything more is told of it. -/
namespace Regalloc

namespace Ascending

variable {α β : Type} [LT α] [LE α] [Std.IsLinearOrder α] [Std.LawfulOrderLT α] {s : List α} {x : α}

theorem findSomeFirst (ascending : s.Pairwise (· < ·)) {f : α → Option β} {b : β} :
    s.findSome? f = some b ↔ ∃ x ∈ s, f x = some b ∧ ∀ z ∈ s, z < x → f z = none := by
  rw [List.findSome?_eq_some_iff]
  constructor
  · rintro ⟨front, x, rest, rfl, found, before⟩
    refine ⟨x, by simp, found, fun z mem below => ?_⟩
    rcases List.mem_append.mp mem with early | late
    · exact before z early
    · obtain ⟨_, tail, _⟩ := List.pairwise_append.mp ascending
      rcases List.mem_cons.mp late with rfl | later
      · exact absurd below Std.lt_irrefl
      · exact absurd (Std.lt_trans below ((List.pairwise_cons.mp tail).1 z later)) Std.lt_irrefl
  · rintro ⟨x, mem, found, before⟩
    obtain ⟨front, rest, rfl⟩ := List.append_of_mem mem
    obtain ⟨_, _, between⟩ := List.pairwise_append.mp ascending
    exact ⟨front, x, rest, rfl, found, fun z early =>
      before z (List.mem_append_left _ early) (between z early x List.mem_cons_self)⟩

theorem findFirst (ascending : s.Pairwise (· < ·)) {p : α → Bool} :
    s.find? p = some x ↔ x ∈ s ∧ p x = true ∧ ∀ z ∈ s, p z = true → x ≤ z := by
  rw [List.find?_eq_findSome?_guard, findSomeFirst ascending]
  constructor
  · rintro ⟨y, mem, found, before⟩
    obtain ⟨rfl, holds⟩ := Option.guard_eq_some_iff.mp found
    refine ⟨mem, holds, fun z inside also => Std.not_lt.mp fun below => ?_⟩
    have none := before z inside below
    simp [Option.guard, also] at none
  · rintro ⟨mem, holds, first⟩
    refine ⟨x, mem, Option.guard_eq_some_iff.mpr ⟨rfl, holds⟩, fun z inside below => ?_⟩
    refine Option.guard_eq_none_iff.mpr (Bool.eq_false_iff.mpr fun also => ?_)
    exact Std.not_lt.mpr (first z inside also) below

end Ascending

namespace Coloring

variable {g : Graph} {c : Coloring} {x : Name} {fault : Fault}

inductive WrongAt (g : Graph) (c : Coloring) (x : Name) : Fault → Prop where
  | uncolored (missing : c.get? x = none) : WrongAt g c x (.uncolored x)
  | clash {y : Name} {color : Nat} (given : c.get? x = some color) (joined : y ∈ g.neighbors x)
      (same : c.get? y = some color)
      (first : ∀ z ∈ g.neighbors x, c.get? z = some color → y ≤ z) :
      WrongAt g c x (.clash x y color)

structure FirstWrong (g : Graph) (c : Coloring) (x : Name) (fault : Fault) : Prop where
  vertex : x ∈ g.vertices
  wrong : WrongAt g c x fault
  before : ∀ z ∈ g.vertices, z < x → FineAt g c z

theorem clashFirst {y : Name} {color : Nat} :
    (g.neighbors x).toList.find? (fun y => c.get? y == some color) = some y ↔
      y ∈ g.neighbors x ∧ c.get? y = some color ∧
        ∀ z ∈ g.neighbors x, c.get? z = some color → y ≤ z := by
  rw [Ascending.findFirst (g.neighbors x).ascending]
  simp

theorem violationAtSome : c.violationAt x (g.neighbors x) = some fault ↔ WrongAt g c x fault := by
  unfold violationAt
  constructor
  · intro found
    split at found
    · rename_i missing
      cases found
      exact .uncolored missing
    · rename_i color given
      obtain ⟨y, clash, rfl⟩ := Option.map_eq_some_iff.mp found
      obtain ⟨joined, same, first⟩ := clashFirst.mp clash
      exact .clash given joined same first
  · intro wrong
    cases wrong with
    | uncolored missing => simp [missing]
    | clash given joined same first => simp [given, clashFirst.mpr ⟨joined, same, first⟩]

theorem violationFirst : c.violation? g = some fault ↔ ∃ x, FirstWrong g c x fault := by
  rw [violationVertices, Ascending.findSomeFirst g.vertices.ascending]
  simp only [violationAtSome, violationAtNone]
  exact ⟨fun ⟨x, vertex, wrong, before⟩ => ⟨x, vertex, wrong, before⟩,
    fun ⟨x, first⟩ => ⟨x, first.vertex, first.wrong, first.before⟩⟩

theorem firstOfImproper (improper : ¬ Proper g c) : ∃ fault x, FirstWrong g c x fault := by
  cases found : c.violation? g with
  | none => exact absurd (violationNone.mp found) improper
  | some fault => exact ⟨fault, violationFirst.mp found⟩

theorem FirstWrong.improper (first : FirstWrong g c x fault) : ¬ Proper g c := fun proper =>
  Option.some_ne_none fault ((violationFirst.mpr ⟨x, first⟩).symm.trans (violationNone.mpr proper))

theorem FirstWrong.clashOrdered (simple : g.Simple) {y : Name} {color : Nat}
    (first : FirstWrong g c x (.clash x y color)) : x < y := by
  cases first.wrong with
  | clash given joined same _ =>
    by_contra late
    rcases Std.le_iff_lt_or_eq.mp (Std.not_lt.mp late) with below | loop
    · obtain ⟨own, has, differs⟩ := first.before y (simple.closed x y joined) below
      cases same.symm.trans has
      exact differs x (simple.symmetric x y joined) given
    · exact simple.irreflexive x (loop ▸ joined)

end Coloring

namespace Allocation

inductive Reaches (t : Target) (p : Program) (flow : ControlFlow) (colorer : Colorer) :
    Nat → Spills → List Nat → List Attempt → List Name → Attempt → Prop where
  | here {more s past a} (made : Made t p flow colorer s past a) :
      Reaches t p flow colorer more s past [] [] a
  | later {more s past a x tried names last} (made : Made t p flow colorer s past a)
      (proper : Coloring.Proper a.graph a.coloring) (tight : t.budget < a.coloring.used)
      (found : a.graph.mostConflicted? = some x)
      (next : Reaches t p flow colorer more ⟨s.names ++ [x], s.stride⟩ a.history tried names last) :
      Reaches t p flow colorer (more + 1) s past (a :: tried) (x :: names) last

variable {t : Target} {p : Program} {flow : ControlFlow} {colorer : Colorer} {s : Spills}
  {more : Nat} {past : List Nat} {a last : Attempt} {tried : List Attempt} {outcome : Outcome}
  {names : List Name} {x : Name} {fault : Fault}

theorem Made.stops (made : Made t p flow colorer s past a)
    (wrong : a.coloring.violation? a.graph = some fault) :
    attempts t colorer p (p.liveness flow) more s past =
      ⟨[.interference a.graph], .error fault⟩ := by
  rw [made.coloring] at wrong
  rw [attempts.eq_def]
  simp only [made.built, wrong]

theorem Made.goesOn (made : Made t p flow colorer s past a)
    (proper : Coloring.Proper a.graph a.coloring) (tight : t.budget < a.coloring.used)
    (found : a.graph.mostConflicted? = some x) :
    attempts t colorer p (p.liveness flow) (more + 1) s past =
      let rest := attempts t colorer p (p.liveness flow) more ⟨s.names ++ [x], s.stride⟩ a.history
      ⟨[.interference a.graph, attemptNotice a] ++
        spillNotices x (s.size * s.stride) (a.graph.degree x) ++ rest.notices, rest.value⟩ := by
  have added := made.added found
  obtain ⟨graph, coloring, spills, history⟩ := a
  obtain ⟨same, built, colored, recorded⟩ := made
  dsimp only at *
  subst same colored recorded
  rw [attempts.eq_def]
  simp only [built, Coloring.violationNone.mpr proper, if_neg (Nat.not_le_of_lt tight), found,
    added]

theorem Reaches.stopped (reached : Reaches t p flow colorer more s past tried names last)
    (wrong : last.coloring.violation? last.graph = some fault) :
    let run := attempts t colorer p (p.liveness flow) more s past
    run.value = .error fault ∧
      Notice.events run.notices =
        List.zipWith (fun x a => .spilling x (a.graph.degree x)) names tried := by
  -- Each turn before the last one adds its own spill and ends as the rest does.
  induction reached with
  | here made =>
    rw [made.stops wrong]
    exact ⟨rfl, rfl⟩
  | later made proper tight found _ ih =>
    obtain ⟨value, events⟩ := ih wrong
    rw [made.goesOn proper tight found]
    refine ⟨value, ?_⟩
    simp only [Notice.events, List.filter_append] at events ⊢
    rw [events]
    rfl

theorem faultSource
    (stopped : (attempts t colorer p (p.liveness flow) more s past).value = .error fault) :
    ∃ tried names last, Reaches t p flow colorer more s past tried names last ∧
      last.coloring.violation? last.graph = some fault := by
  fun_induction attempts t colorer p (p.liveness flow) more s past with
  | case1 more s past raised failed =>
    obtain ⟨_, built, _⟩ := p.interferenceExact t flow s.nameSet
    cases failed.symm.trans built
  | case2 more s past graph built coloring raised wrong =>
    cases stopped
    exact ⟨[], [], ⟨graph, coloring, s, past ++ [coloring.used]⟩, .here ⟨rfl, built, rfl, rfl⟩, wrong⟩
  | case3 => cases stopped
  | case4 s past graph built coloring clean attempt told tight more x found raised refused =>
    have made : Made t p flow colorer s past attempt := ⟨rfl, built, rfl, rfl⟩
    cases refused.symm.trans (made.added found)
  | case5 s past graph built coloring clean attempt told tight more x found spilled added rest ih =>
    have made : Made t p flow colorer s past attempt := ⟨rfl, built, rfl, rfl⟩
    cases added.symm.trans (made.added found)
    obtain ⟨tried, names, last, reached, wrong⟩ := ih stopped
    exact ⟨attempt :: tried, x :: names, last, .later made (Coloring.violationNone.mp clean)
      (Nat.lt_of_not_le tight) found reached, wrong⟩
  | case6 => cases stopped

theorem answerProper
    (ok : (attempts t colorer p (p.liveness flow) more s past).value = .ok outcome) :
    Coloring.Proper outcome.last.graph outcome.last.coloring := by
  fun_induction attempts t colorer p (p.liveness flow) more s past with
  | case1 => cases ok
  | case2 => cases ok
  | case3 more s past graph built coloring clean attempt told fits =>
    cases ok
    exact Coloring.violationNone.mp clean
  | case4 => cases ok
  | case5 s past graph built coloring clean attempt told tight more x found spilled added rest ih =>
    exact ih ok
  | case6 more s past graph built coloring clean attempt told tight left =>
    cases ok
    exact Coloring.violationNone.mp clean

/-- The check passes a coloring of a graph if and only if it is proper, and names the first vertex
where it is not. So every answer has a proper coloring, whatever the colorer. The first attempt whose
coloring is not proper ends the run with what is wrong there, told of no more than the names that
were spilled before it, and no run stops with a fault otherwise. -/
theorem improperStops :
    (∀ (steps : List Graph.Step) (c : Coloring),
      let g := Graph.build steps
      (c.violation? g = none ↔ Coloring.Proper g c) ∧
      (∀ fault, c.violation? g = some fault ↔ ∃ x, Coloring.FirstWrong g c x fault) ∧
      ∀ x y color, Coloring.FirstWrong g c x (.clash x y color) → x < y) ∧
    ∀ (t : Target) (p : Program) (flow : ControlFlow) (colorer : Colorer),
      let run := p.allocate t colorer (p.liveness flow)
      let reaches := Reaches t p flow colorer (t.attempts - 1) (Spills.none t.stride) []
      (∀ outcome, run.value = .ok outcome →
        Coloring.Proper outcome.last.graph outcome.last.coloring) ∧
      (∀ tried names last, reaches tried names last → ¬ Coloring.Proper last.graph last.coloring →
        ∃ fault x, Coloring.FirstWrong last.graph last.coloring x fault ∧
          run.value = .error fault ∧
          Notice.events run.notices =
            List.zipWith (fun x a => .spilling x (a.graph.degree x)) names tried) ∧
      ∀ fault, run.value = .error fault → ∃ tried names last x, reaches tried names last ∧
        ¬ Coloring.Proper last.graph last.coloring ∧
        Coloring.FirstWrong last.graph last.coloring x fault := by
  refine ⟨fun steps c => ⟨Coloring.violationNone, fun _ => Coloring.violationFirst,
    fun x y color => Coloring.FirstWrong.clashOrdered (Graph.buildSimple steps)⟩,
    fun t p flow colorer => ⟨fun outcome => answerProper, fun tried names last reached improper => ?_,
      fun fault stopped => ?_⟩⟩
  · obtain ⟨fault, x, first⟩ := Coloring.firstOfImproper improper
    obtain ⟨value, events⟩ := reached.stopped (Coloring.violationFirst.mpr ⟨x, first⟩)
    exact ⟨fault, x, first, value, events⟩
  · obtain ⟨tried, names, last, reached, wrong⟩ := faultSource stopped
    obtain ⟨x, first⟩ := Coloring.violationFirst.mp wrong
    exact ⟨tried, names, last, x, reached, first.improper, first⟩

def carelessColorer : Colorer :=
  ⟨"careless", fun g =>
    if 3 ≤ g.size then Colorer.greedy.color g
    else Coloring.ofColors (g.adjacency.mapValues fun _ _ => 0)⟩

theorem carelessStopped : ∃ (p : Program) (tried : List Attempt) (names : List Name)
    (last : Attempt),
    let t := { Target.standard with registers := 1 }
    let run := p.allocate t carelessColorer (p.liveness p.flow)
    Program.parse "IN a\nIN b\nIN c\nOUT a\nOUT b\nOUT c\n" 0 = .ok p ∧
    Reaches t p p.flow carelessColorer (t.attempts - 1) (Spills.none t.stride) [] tried names last ∧
    ¬ Coloring.Proper last.graph last.coloring ∧
    Coloring.FirstWrong last.graph last.coloring "b" (.clash "b" "c" 0) ∧
    run.value = .error (.clash "b" "c" 0) ∧ Notice.events run.notices = [.spilling "a" 2] ∧
    List.zipWith (fun x a => Notice.spilling x (a.graph.degree x)) names tried =
      [.spilling "a" 2] := by
  have ran : (Program.parse "IN a\nIN b\nIN c\nOUT a\nOUT b\nOUT c\n" 0).toOption.any (fun p =>
      let run := p.allocate { Target.standard with registers := 1 } carelessColorer
        (p.liveness p.flow)
      decide (run.value = .error (.clash "b" "c" 0) ∧
        Notice.events run.notices = [.spilling "a" 2])) = true := by
    decide +kernel
  obtain ⟨p, parsed, ran⟩ := okOf ran
  obtain ⟨value, told⟩ := of_decide_eq_true ran
  obtain ⟨_, stops, source⟩ :=
    improperStops.2 { Target.standard with registers := 1 } p p.flow carelessColorer
  obtain ⟨tried, names, last, _, reached, improper, _⟩ := source _ value
  obtain ⟨fault, x, first, same, events⟩ := stops tried names last reached improper
  cases value.symm.trans same
  refine ⟨p, tried, names, last, parsed, reached, improper, ?_, value, told, events.symm.trans told⟩
  cases first.wrong
  exact first

end Allocation

end Regalloc
