import Regalloc.Proofs.ColoringBounds

/-! The removal loop and the number of colors that come of it. The degrees that the loop keeps are
those in the graph that remains, so each removal lowers the degree of a neighbor from at least one.
Where every part of the graph has a vertex with fewer than `k` neighbors in it, only such vertices
are removed, and `k` colors are enough. -/
namespace Regalloc

theorem NameSet.sizeWithout {s : NameSet} {x : Name} (mem : x ∈ s) :
    (s.filter (· ≠ x)).size + 1 = s.size := by
  have same : (s.filter (· ≠ x)).toList = s.toList.erase x := by
    rw [s.nodup.erase_eq_filter]
    exact List.filter_congr fun y _ => by by_cases same : y = x <;> simp [same]
  show (s.filter (· ≠ x)).toList.length + 1 = s.toList.length
  rw [same, List.length_erase_add_one mem]

namespace Graph

variable {g : Graph} {x y : Name} {s t : NameSet}

def Degenerate (g : Graph) (k : Nat) : Prop :=
  ∀ s : NameSet, (∃ x, x ∈ s) → (∀ x ∈ s, x ∈ g.vertices) → ∃ x ∈ s, (g.among x s).size < k

theorem amongWithout (rest : ∀ z, z ∈ t ↔ z ≠ x ∧ z ∈ s) :
    g.among y t = (g.among y s).filter (· ≠ x) := by
  ext z
  simp only [memAmong, NameSet.memFilter, rest, decide_eq_true_iff]
  exact (and_congr_right fun _ => and_comm).trans and_assoc.symm

theorem amongJoined (rest : ∀ z, z ∈ t ↔ z ≠ x ∧ z ∈ s) (joined : x ∈ g.neighbors y)
    (mem : x ∈ s) : (g.among y t).size + 1 = (g.among y s).size := by
  rw [amongWithout rest]
  exact NameSet.sizeWithout (memAmong.mpr ⟨joined, mem⟩)

theorem amongApart (rest : ∀ z, z ∈ t ↔ z ≠ x ∧ z ∈ s) (apart : x ∉ g.neighbors y) :
    g.among y t = g.among y s := by
  ext z
  rw [memAmong, memAmong, rest]
  exact and_congr_right fun joined => and_iff_right fun same => apart (same ▸ joined)

end Graph

namespace Simplify

variable {g : Graph} {k : Nat} {removed : List Name} {left : NameMap Nat} {x y : Name}

inductive Removing (g : Graph) (k : Nat) : List Name → NameMap Nat → Prop where
  | start : Removing g k [] g.degrees
  | remove {removed : List Name} {left : NameMap Nat} {x : Name}
      (before : Removing g k removed left) (picked : pick? k left = some x) :
      Removing g k (removed ++ [x]) (remove g x left)

structure Kept (g : Graph) (removed : List Name) (left : NameMap Nat) : Prop where
  remaining : ∀ y, y ∈ left.keys ↔ y ∈ g.vertices ∧ y ∉ removed
  counted : ∀ y d, left.get? y = some d → d = (g.among y left.keys).size

theorem keptStart (simple : g.Simple) : Kept g [] g.degrees where
  remaining y := by simp [Graph.memDegreesKeys]
  counted y d found := by
    have all : g.among y g.degrees.keys = g.neighbors y := by
      ext z
      rw [Graph.memAmong, Graph.memDegreesKeys]
      exact and_iff_left_of_imp (simple.closed y z)
    obtain ⟨neighbors, present, rfl⟩ :=
      Option.map_eq_some_iff.mp (NameMap.getMapValues.symm.trans found)
    rw [all, Graph.neighbors, present]
    rfl

theorem getRemove {d : Nat} (found : (remove g x left).get? y = some d) :
    ∃ old, left.get? y = some old ∧ d = if g.hasEdge x y then old - 1 else old := by
  obtain ⟨old, stays, rfl⟩ := Option.map_eq_some_iff.mp (NameMap.getMapValues.symm.trans found)
  rw [NameMap.getErase] at stays
  split at stays
  · contradiction
  · exact ⟨old, stays, rfl⟩

theorem Kept.lowered (simple : g.Simple) (kept : Kept g removed left) (mem : x ∈ left.keys)
    (edge : g.hasEdge x y = true) {d : Nat} (found : left.get? y = some d) :
    d = (g.among y (remove g x left).keys).size + 1 := by
  have joined : x ∈ g.neighbors y := simple.symmetric x y (of_decide_eq_true edge)
  rw [kept.counted y d found, Graph.amongJoined (fun z => memKeysRemove) joined mem]

theorem Kept.remove (simple : g.Simple) (kept : Kept g removed left) (mem : x ∈ left.keys) :
    Kept g (removed ++ [x]) (remove g x left) where
  remaining y := by
    rw [memKeysRemove, kept.remaining, List.mem_append, List.mem_singleton, not_or]
    exact ⟨fun ⟨apart, vertex, stays⟩ => ⟨vertex, stays, apart⟩,
      fun ⟨vertex, stays, apart⟩ => ⟨apart, vertex, stays⟩⟩
  counted y d found := by
    obtain ⟨old, present, rfl⟩ := getRemove found
    by_cases edge : g.hasEdge x y = true
    · rw [if_pos edge, kept.lowered simple mem edge present, Nat.add_sub_cancel]
    · have apart : x ∉ g.neighbors y := fun joined =>
        edge (decide_eq_true (simple.symmetric y x joined))
      rw [if_neg edge, kept.counted y old present, Graph.amongApart (fun z => memKeysRemove) apart]

theorem Kept.lowers (simple : g.Simple) (kept : Kept g removed left) (mem : x ∈ left.keys)
    (edge : g.hasEdge x y = true) {d : Nat} (found : left.get? y = some d) :
    ∃ e, d = e + 1 ∧ (Simplify.remove g x left).get? y = some e := by
  have joined : y ∈ g.neighbors x := of_decide_eq_true edge
  have apart : y ≠ x := fun same => simple.irreflexive x (same ▸ joined)
  have stays := memKeysRemove (g := g).mpr ⟨apart, NameMap.memKeysIff.mpr ⟨d, found⟩⟩
  obtain ⟨e, after⟩ := NameMap.memKeysIff.mp stays
  have few := (kept.remove simple mem).counted y e after
  exact ⟨e, few ▸ kept.lowered simple mem edge found, after⟩

theorem Removing.kept (simple : g.Simple) (removing : Removing g k removed left) :
    Kept g removed left := by
  induction removing with
  | start => exact keptStart simple
  | remove _ picked ih => exact ih.remove simple (pickMember picked)

theorem removalsPick (picked : pick? k left = some x) :
    removals g k left = x :: removals g k (remove g x left) := by
  rw [removals]
  split
  · rename_i none
    cases none.symm.trans picked
  · rename_i found
    cases found.symm.trans picked
    rfl

theorem Removing.removals (removing : Removing g k removed left) :
    Simplify.removals g k g.degrees = removed ++ Simplify.removals g k left := by
  induction removing with
  | start => rfl
  | remove _ picked ih =>
    rw [ih, removalsPick picked, List.append_assoc]
    rfl

theorem pickFew (few : ∃ y d, left.get? y = some d ∧ d < k) (picked : pick? k left = some x) :
    ∃ d, left.get? x = some d ∧ d < k := by
  unfold pick? at picked
  split at picked
  · rename_i entry found
    cases Option.some.inj picked
    exact ⟨entry.2, NameMap.memToListIff.mp (List.mem_of_find?_eq_some found),
      by simpa using List.find?_some found⟩
  · rename_i none
    obtain ⟨y, d, found, below⟩ := few
    have checked := List.find?_eq_none.mp none (y, d) (NameMap.memToListIff.mpr found)
    exact absurd (decide_eq_true below) checked

theorem Kept.pickFew (kept : Kept g removed left) (degenerate : g.Degenerate k)
    (picked : pick? k left = some x) : (g.among x left.keys).size < k := by
  have vertices : ∀ y ∈ left.keys, y ∈ g.vertices := fun y mem => ((kept.remaining y).mp mem).1
  obtain ⟨y, mem, few⟩ := degenerate left.keys ⟨x, pickMember picked⟩ vertices
  obtain ⟨d, found⟩ := NameMap.memKeysIff.mp mem
  rw [← kept.counted y d found] at few
  obtain ⟨e, present, below⟩ := Simplify.pickFew ⟨y, d, found, few⟩ picked
  rwa [kept.counted x e present] at below

theorem Kept.fewLater (simple : g.Simple) (kept : Kept g removed left) (degenerate : g.Degenerate k)
    (mem : x ∈ removals g k left) : ∃ before later, removals g k left = before ++ x :: later ∧
      (g.among x (NameSet.ofList later)).size < k := by
  fun_induction removals g k left generalizing removed with
  | case1 => contradiction
  | case2 left z picked ih =>
    rcases List.mem_cons.mp mem with rfl | mem
    · -- What leaves after `x` is what remains when `x` leaves, so few of it are neighbors.
      refine ⟨[], _, rfl, Nat.lt_of_le_of_lt (NameSet.sizeLe fun y inside => ?_)
        (kept.pickFew degenerate picked)⟩
      obtain ⟨joined, later⟩ := Graph.memAmong.mp inside
      have stays := ((removalsExact g k _).2 y).mp (NameSet.memOfList.mp later)
      exact Graph.memAmong.mpr ⟨joined, (memKeysRemove.mp stays).2⟩
    · obtain ⟨before, later, order, few⟩ := ih (kept.remove simple (pickMember picked)) mem
      exact ⟨z :: before, later, by rw [order, List.cons_append], few⟩

theorem colorFew (simple : g.Simple) (degenerate : g.Degenerate k) {color : Nat}
    (given : ((Colorer.simplify k).color g).get? x = some color) : color < k := by
  obtain ⟨nodup, members⟩ := removalsExact g k g.degrees
  have vertex := ((Colorer.builtInExact (.simplify k) simple).domain x).mp
    (NameMap.memKeysIff.mpr ⟨color, given⟩)
  obtain ⟨before, later, order, few⟩ := (keptStart simple).fewLater simple degenerate
    ((members x).mpr (Graph.memDegreesKeys.mpr vertex))
  have reversed : (removals g k g.degrees).reverse = later.reverse ++ x :: before.reverse := by
    simp [order]
  have distinct := List.nodup_reverse.mpr nodup
  rw [reversed] at distinct
  obtain ⟨lowest, found, bound⟩ := Graph.colorAt simple distinct
  have same : NameSet.ofList later.reverse = NameSet.ofList later := NameSet.ext fun y => by simp
  rw [← reversed] at found
  rw [same] at bound
  cases Option.some.inj (given.symm.trans found)
  exact Nat.lt_of_le_of_lt bound few

theorem usedFew (simple : g.Simple) (degenerate : g.Degenerate k) :
    ((Colorer.simplify k).color g).used ≤ k := by
  have exact := Colorer.builtInExact (.simplify k) simple
  cases used : ((Colorer.simplify k).color g).used with
  | zero => exact Nat.zero_le k
  | succ top =>
    obtain ⟨x, _, given⟩ := Coloring.topColor exact used
    exact colorFew simple degenerate given

theorem degenerateColored (k : Nat) (steps : List Graph.Step) :
    let g := Graph.build steps
    (∀ removed left, Removing g k removed left →
      removals g k g.degrees = removed ++ removals g k left ∧
      (∀ y, y ∈ left.keys ↔ y ∈ g.vertices ∧ y ∉ removed) ∧
      (∀ y d, left.get? y = some d → d = (g.among y left.keys).size) ∧
      ∀ x, pick? k left = some x → ∀ y d, g.hasEdge x y = true → left.get? y = some d →
        ∃ e, d = e + 1 ∧ (remove g x left).get? y = some e) ∧
    (g.Degenerate k →
      (∀ removed left x, Removing g k removed left → pick? k left = some x →
        (g.among x left.keys).size < k) ∧
      ((Colorer.simplify k).color g).used ≤ k) := by
  intro g
  have simple : g.Simple := Graph.buildSimple steps
  refine ⟨fun removed left removing => ?_, fun degenerate =>
    ⟨fun removed left x removing => (removing.kept simple).pickFew degenerate,
      usedFew simple degenerate⟩⟩
  have kept := removing.kept simple
  exact ⟨removing.removals, kept.remaining, kept.counted,
    fun x picked y d edge => kept.lowers simple (pickMember picked) edge⟩

theorem starDegenerate : (Graph.build Graph.star).Degenerate 2 := by
  intro s filled inside
  by_cases leaf : ∃ x ∈ s, x ≠ "hub"
  · obtain ⟨x, mem, apart⟩ := leaf
    have leaves : ∀ y ∈ (Graph.build Graph.star).vertices.toList, y ≠ "hub" →
        (Graph.build Graph.star).degree y < 2 := by decide +kernel
    exact ⟨x, mem, Nat.lt_of_le_of_lt Graph.amongLeDegree (leaves x (inside x mem) apart)⟩
  · obtain ⟨x, mem⟩ := filled
    have hub : ∀ y ∈ s, y = "hub" := fun y there => by_contra fun apart => leaf ⟨y, there, apart⟩
    refine ⟨x, mem, ?_⟩
    have alone : (Graph.build Graph.star).among x s = ∅ := NameSet.ext fun y => by
      refine iff_of_false (fun joined => ?_) NameSet.notMemEmpty
      obtain ⟨edge, there⟩ := Graph.memAmong.mp joined
      rw [hub x mem, hub y there] at edge
      exact (Graph.buildSimple Graph.star).irreflexive "hub" edge
    rw [alone]
    exact Nat.zero_lt_two

theorem starTwoColored : (Graph.build Graph.star).Degenerate 2 ∧
    Removing (Graph.build Graph.star) 2 [] (Graph.build Graph.star).degrees ∧
    pick? 2 (Graph.build Graph.star).degrees = some "a" ∧
    (Graph.build Graph.star).degrees.get? "hub" = some 3 ∧
    (∃ e, 3 = e + 1 ∧
      (remove (Graph.build Graph.star) "a" (Graph.build Graph.star).degrees).get? "hub" = some e) ∧
    ((Colorer.simplify 2).color (Graph.build Graph.star)).used ≤ 2 := by
  obtain ⟨loop, few⟩ := degenerateColored 2 Graph.star
  obtain ⟨_, _, _, lowers⟩ := loop [] _ .start
  have picked : pick? 2 (Graph.build Graph.star).degrees = some "a" := by decide +kernel
  have counted : (Graph.build Graph.star).degrees.get? "hub" = some 3 := by decide +kernel
  have edge : (Graph.build Graph.star).hasEdge "a" "hub" = true := by decide +kernel
  exact ⟨starDegenerate, .start, picked, counted, lowers "a" picked "hub" 3 edge counted,
    (few starDegenerate).2⟩

end Simplify

end Regalloc
