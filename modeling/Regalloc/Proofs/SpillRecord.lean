import Regalloc.Proofs.SpillRun
import Regalloc.Proofs.VertexDeletion

/-! The record of a run of the spill loop, whatever the way of coloring. Each name that is spilled has
the most conflicts at that moment, the next graph is the last one without it, and what the driver is
told agrees with the names, the graphs and the history. -/
namespace Regalloc

namespace NameMap

theorem foldlHighest {l : List (Name × Nat)} (ascending : (l.map Prod.fst).Pairwise (· < ·))
    (best : Option (Name × Nat)) {top : Name × Nat} (before : ∀ b ∈ best, ∀ e ∈ l, b.1 < e.1)
    (found : l.foldl (fun best entry =>
      match best with
      | some top => if entry.2 ≤ top.2 then some top else some entry
      | none => some entry) best = some top) :
    (∀ b ∈ best, b.2 ≤ top.2 ∧ (b.2 = top.2 → top.1 ≤ b.1)) ∧
      ∀ e ∈ l, e.2 ≤ top.2 ∧ (e.2 = top.2 → top.1 ≤ e.1) := by
  -- The names ascend, so in a tie what is kept comes before what is met.
  induction l generalizing best with
  | nil =>
    cases found
    simp
  | cons head l ih =>
    obtain ⟨first, rest⟩ := List.pairwise_cons.mp ascending
    have later : ∀ e ∈ l, head.1 < e.1 := fun e mem => first e.1 (List.mem_map_of_mem mem)
    cases best with
    | none =>
      have result := ih rest (some head) (by simpa using later) found
      simpa using result
    | some b =>
      have below : b.1 < head.1 := before b rfl head List.mem_cons_self
      by_cases low : head.2 ≤ b.2
      · simp only [List.foldl_cons, if_pos low] at found
        obtain ⟨kept, all⟩ := ih rest (some b)
          (fun b' same e mem => before b' same e (List.mem_cons_of_mem _ mem)) found
        have bound := kept b rfl
        refine ⟨kept, fun e mem => ?_⟩
        rcases List.mem_cons.mp mem with rfl | mem
        · refine ⟨Nat.le_trans low bound.1, fun same => ?_⟩
          exact Std.le_trans (bound.2 (by omega)) (Std.le_of_lt below)
        · exact all e mem
      · simp only [List.foldl_cons, if_neg low] at found
        obtain ⟨kept, all⟩ := ih rest (some head) (by simpa using later) found
        have bound := kept head rfl
        refine ⟨fun b' same => ?_, fun e mem => ?_⟩
        · cases same
          exact ⟨by omega, fun same => by omega⟩
        · rcases List.mem_cons.mp mem with rfl | mem
          · exact bound
          · exact all e mem

end NameMap

namespace Graph

variable {g : Graph} {x y : Name}

structure Worst (g : Graph) (x : Name) : Prop where
  vertex : x ∈ g.vertices
  most : ∀ y ∈ g.vertices, g.degree y ≤ g.degree x
  first : ∀ y ∈ g.vertices, g.degree y = g.degree x → x ≤ y

theorem memDegrees {n : Nat} : (x, n) ∈ g.degrees.toList ↔ x ∈ g.vertices ∧ g.degree x = n := by
  rw [NameMap.memToListIff, degrees, NameMap.getMapValues, getAdjacency, degree]
  by_cases vertex : x ∈ g.vertices <;> simp [vertex]

theorem mostConflictedWorst (found : g.mostConflicted? = some x) : g.Worst x := by
  obtain ⟨⟨top, n⟩, highest, rfl⟩ := Option.map_eq_some_iff.mp found
  have inside : (top, n) ∈ g.degrees.toList := by
    simpa using NameMap.foldlMember highest
  obtain ⟨vertex, degree⟩ := memDegrees.mp inside
  obtain ⟨_, all⟩ := NameMap.foldlHighest g.degrees.ascending none (by simp) highest
  refine ⟨vertex, fun y mem => ?_, fun y mem same => ?_⟩
  · rw [degree]
    exact (all (y, g.degree y) (memDegrees.mpr ⟨mem, rfl⟩)).1
  · exact (all (y, g.degree y) (memDegrees.mpr ⟨mem, rfl⟩)).2 (same.trans degree)

theorem Worst.degreeLe (worst : g.Worst x) (y : Name) : g.degree y ≤ g.degree x := by
  by_cases vertex : y ∈ g.vertices
  · exact worst.most y vertex
  · have alone : g.degree y = 0 := by simp [degree, neighbors, getAdjacency, vertex]; rfl
    omega

theorem degreeWithout : (g.without x).degree y ≤ g.degree y :=
  NameSet.sizeLe fun _ mem => (memNeighborsWithout.mp mem).1

end Graph

def Notice.events (notices : List Notice) : List Notice :=
  notices.filter fun
    | .log _ _ => false
    | _ => true

namespace Allocation

variable {t : Target} {p : Program} {flow : ControlFlow} {colorer : Colorer} {s : Spills}
  {more : Nat} {past : List Nat} {a b : Attempt} {tried : List Attempt} {outcome : Outcome}
  {names : List Name} {x : Name}

inductive Sequence : List Name → List Attempt → Prop where
  | last (a : Attempt) : Sequence [] [a]
  | spill {x names a b rest} (worst : a.graph.Worst x) (removed : b.graph = a.graph.without x)
      (tail : Sequence names (b :: rest)) : Sequence (x :: names) (a :: b :: rest)

def conflictCounts (names : List Name) (tried : List Attempt) : List Nat :=
  List.zipWith (fun x a => a.graph.degree x) names tried

theorem Made.removed (made : Made t p flow colorer s past a) {next : List Nat}
    (after : Made t p flow colorer ⟨s.names ++ [x], s.stride⟩ next b) :
    b.graph = a.graph.without x := by
  have keeps (y : Name) : Interference.keeps t (Spills.nameSet ⟨s.names ++ [x], s.stride⟩) y = true ↔
      Interference.keeps t s.nameSet y = true ∧ y ≠ x := by
    simp only [Interference.keepsIff, Spills.memNameSet, List.mem_append, List.mem_singleton]
    tauto
  refine Graph.equalOfMembers (fun y => ?_) fun y z => ?_
  · rw [Graph.memVerticesWithout, after.graphExact.vertices, made.graphExact.vertices, keeps,
      and_assoc]
  · rw [Graph.memNeighborsWithout, after.graphExact.neighbors, made.graphExact.neighbors, keeps,
      keeps, and_and_and_comm]
    simp only [and_assoc]

theorem Run.first (run : Run t p flow colorer more s past tried outcome) :
    ∃ a rest, tried = a :: rest ∧ Made t p flow colorer s past a := by
  cases run with
  | fits made => exact ⟨_, _, rfl, made⟩
  | exhausted made => exact ⟨_, _, rfl, made⟩
  | nothingLeft made => exact ⟨_, _, rfl, made⟩
  | spill made => exact ⟨_, _, rfl, made⟩

theorem Run.sequence (run : Run t p flow colorer more s past tried outcome) :
    ∃ names, outcome.last.spills = ⟨s.names ++ names, s.stride⟩ ∧ Sequence names tried := by
  have none {a : Attempt} {s : Spills} (spills : a.spills = s) :
      a.spills = ⟨s.names ++ [], s.stride⟩ := by rw [spills, List.append_nil]
  induction run with
  | fits made => exact ⟨[], none made.spills, .last _⟩
  | exhausted made => exact ⟨[], none made.spills, .last _⟩
  | nothingLeft made => exact ⟨[], none made.spills, .last _⟩
  | spill made _ found next ih =>
    obtain ⟨names, spills, sequence⟩ := ih
    obtain ⟨b, rest, rfl, after⟩ := next.first
    refine ⟨_ :: names, ?_, .spill (Graph.mostConflictedWorst found) (made.removed after) sequence⟩
    rw [spills, List.append_assoc]
    rfl

theorem Sequence.length (sequence : Sequence names tried) : tried.length = names.length + 1 := by
  induction sequence with
  | last => rfl
  | spill _ _ _ ih => exact congrArg (· + 1) ih

theorem Sequence.bounded (sequence : Sequence names tried) {bound : Nat}
    (low : ∀ a ∈ tried.head?, ∀ x, a.graph.degree x ≤ bound) :
    ∀ n ∈ conflictCounts names tried, n ≤ bound := by
  induction sequence with
  | last => exact fun _ absent => nomatch absent
  | spill worst removed _ ih =>
    intro n mem
    have head := low _ rfl
    rcases List.mem_cons.mp mem with rfl | later
    · exact head _
    · refine ih (fun b same y => ?_) n later
      cases same
      rw [removed]
      exact Nat.le_trans Graph.degreeWithout (head y)

theorem Sequence.descending (sequence : Sequence names tried) :
    (conflictCounts names tried).Pairwise (· ≥ ·) := by
  induction sequence with
  | last => exact .nil
  | spill worst removed tail ih =>
    refine List.pairwise_cons.mpr ⟨tail.bounded fun b same y => ?_, ih⟩
    cases same
    rw [removed]
    exact Nat.le_trans Graph.degreeWithout (worst.degreeLe y)

theorem attemptsRecorded
    (ok : (attempts t colorer p (p.liveness flow) more s past).value = .ok outcome) :
    ∃ tried names, Run t p flow colorer more s past tried outcome ∧
      outcome.last.spills.names = s.names ++ names ∧
      Notice.events (attempts t colorer p (p.liveness flow) more s past).notices =
        List.zipWith (fun x a => .spilling x (a.graph.degree x)) names tried ++
          [doneNotice outcome.last] := by
  fun_induction attempts t colorer p (p.liveness flow) more s past with
  | case1 => cases ok
  | case2 => cases ok
  | case3 more s past graph built coloring clean attempt told fits =>
    cases ok
    exact ⟨[attempt], [], .fits ⟨rfl, built, rfl, rfl⟩ fits, (List.append_nil _).symm, rfl⟩
  | case4 => cases ok
  | case5 s past graph built coloring clean attempt told tight more x found spilled added rest ih =>
    obtain ⟨tried, names, run, spills, events⟩ := ih ok
    unfold Spills.add at added
    split at added <;> try contradiction
    cases added
    refine ⟨attempt :: tried, x :: names,
      .spill ⟨rfl, built, rfl, rfl⟩ (Nat.lt_of_not_le tight) found run, ?_, ?_⟩
    · rw [spills, List.append_assoc]
      rfl
    · simp only [Notice.events, List.filter_append] at events ⊢
      rw [events]
      rfl
  | case6 more s past graph built coloring clean attempt told tight left =>
    cases ok
    have made : Made t p flow colorer s past attempt := ⟨rfl, built, rfl, rfl⟩
    refine ⟨[attempt], [], ?_, (List.append_nil _).symm, rfl⟩
    cases more with
    | zero => exact .exhausted made (Nat.lt_of_not_le tight)
    | succ more =>
      refine .nothingLeft made (Nat.lt_of_not_le tight) ?_
      cases found : graph.mostConflicted? with
      | none => rfl
      | some x => exact (left more x rfl found).elim

theorem spillsRecorded (ok : (p.allocate t colorer (p.liveness flow)).value = .ok outcome) :
    ∃ tried, Run t p flow colorer (t.attempts - 1) (Spills.none t.stride) [] tried outcome ∧
      tried.getLast? = some outcome.last ∧
      (∃ a ∈ tried.head?, p.interference t (p.liveness flow) ∅ = .ok a.graph) ∧
      Sequence outcome.last.spills.names tried ∧
      Notice.events (p.allocate t colorer (p.liveness flow)).notices =
        List.zipWith (fun x a => .spilling x (a.graph.degree x)) outcome.last.spills.names tried ++
          [.doneSpilling outcome.last.spills.size outcome.last.coloring.used] ∧
      (conflictCounts outcome.last.spills.names tried).Pairwise (· ≥ ·) ∧
      outcome.last.history = tried.map (·.coloring.used) ∧
      outcome.last.history.length = outcome.last.spills.size + 1 := by
  obtain ⟨tried, names, run, spills, events⟩ := attemptsRecorded ok
  obtain ⟨spilled, all, sequence⟩ := run.sequence
  have same : spilled = outcome.last.spills.names := by rw [all]; rfl
  rw [same] at sequence
  rw [show names = outcome.last.spills.names from spills.symm] at events
  have history : outcome.last.history = tried.map (·.coloring.used) := run.history
  obtain ⟨a, rest, rfl, made⟩ := run.first
  refine ⟨_, run, run.last, ⟨a, rfl, made.built⟩, sequence, events, sequence.descending, history, ?_⟩
  rw [history, List.length_map, sequence.length]
  rfl

theorem cliqueRecorded : ∃ (p : Program) (tried : List Attempt) (outcome : Outcome),
    Program.parse "IN a\nIN b\nIN c\nOUT a\nOUT b\nOUT c\n" 0 = .ok p ∧
    (p.allocate { Target.standard with registers := 1 } .greedy (p.liveness p.flow)).value =
      .ok outcome ∧
    outcome.last.spills.names = ["a", "b"] ∧ outcome.last.history = [3, 2, 1] ∧
    Sequence ["a", "b"] tried ∧ conflictCounts ["a", "b"] tried = [2, 1] ∧
    Notice.events (p.allocate { Target.standard with registers := 1 } .greedy
      (p.liveness p.flow)).notices = [.spilling "a" 2, .spilling "b" 1, .doneSpilling 2 1] := by
  have ran : (Program.parse "IN a\nIN b\nIN c\nOUT a\nOUT b\nOUT c\n" 0).toOption.any (fun p =>
      (p.allocate { Target.standard with registers := 1 } .greedy
        (p.liveness p.flow)).value.toOption.any fun outcome =>
          decide (outcome.last.spills.names = ["a", "b"] ∧ outcome.last.history = [3, 2, 1] ∧
            Notice.events (p.allocate { Target.standard with registers := 1 } .greedy
              (p.liveness p.flow)).notices =
                [.spilling "a" 2, .spilling "b" 1, .doneSpilling 2 1])) = true := by
    decide +kernel
  obtain ⟨p, parsed, ran⟩ := okOf ran
  obtain ⟨outcome, ok, ran⟩ := okOf ran
  obtain ⟨spills, history, told⟩ := of_decide_eq_true ran
  obtain ⟨tried, _, _, _, sequence, events, _⟩ := spillsRecorded ok
  rw [spills] at sequence events
  refine ⟨p, tried, outcome, parsed, ok, spills, history, sequence, ?_, told⟩
  have both := events.symm.trans told
  cases sequence with
  | spill _ _ tail =>
    cases tail with
    | spill _ _ tail =>
      cases tail
      simp_all [conflictCounts]

end Allocation

end Regalloc
