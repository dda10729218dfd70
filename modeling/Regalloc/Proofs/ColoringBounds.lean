import Mathlib.Data.List.MinMax
import Mathlib.Data.List.Sort
import Regalloc.Proofs.GraphSteps
import Regalloc.Proofs.SpillRun

/-! How many colors are used. Along an order, a vertex gets a color no larger than the number of its
neighbors that come before it, so its degree and its position bound the color. Greedy takes the
vertices by descending degree, where the two bounds together are the strongest. -/
namespace Regalloc

theorem Coloring.topColor {g : Graph} {c : Coloring} {top : Nat} (exact : Exact g c)
    (used : c.used = top + 1) : ∃ x ∈ g.vertices, c.get? x = some top := by
  obtain ⟨x, given⟩ := (exact.range top).mp (used ▸ Nat.lt_succ_self top)
  exact ⟨x, (exact.domain x).mp (NameMap.memKeysIff.mpr ⟨top, given⟩), given⟩

namespace Graph

variable {g : Graph} {x y : Name} {s : NameSet} {before after order : List Name}

def among (g : Graph) (x : Name) (s : NameSet) : NameSet :=
  (g.neighbors x).filter fun y => decide (y ∈ s)

@[simp] theorem memAmong : y ∈ g.among x s ↔ y ∈ g.neighbors x ∧ y ∈ s := by
  simp [among]

theorem amongLeDegree : (g.among x s).size ≤ g.degree x :=
  NameSet.sizeLe fun _ mem => (memAmong.mp mem).1

theorem amongLeLength : (g.among x (NameSet.ofList before)).size ≤ before.length := by
  have inside : (g.among x (NameSet.ofList before)).toList ⊆ before := fun y mem =>
    NameSet.memOfList.mp (memAmong.mp mem).2
  exact (List.subperm_of_subset (NameSet.nodup _) inside).length_le

theorem lowestFreeLe (colors : NameMap Nat) :
    g.lowestFree colors x ≤ (g.among x colors.keys).size := by
  -- Every smaller color is taken, each by another neighbor.
  have taken : List.range (g.lowestFree colors x) ⊆
      (g.neighbors x).toList.filterMap colors.get? := fun b below =>
    List.mem_filterMap.mpr ((lowestFreeSpec g colors x).2 b (List.mem_range.mp below))
  have short := (List.subperm_of_subset List.nodup_range taken).length_le
  have colored : (fun y => (colors.get? y).isSome) = fun y => decide (y ∈ colors.keys) := by
    funext y
    rw [Bool.eq_iff_iff, decide_eq_true_iff, NameMap.memKeysIff, Option.isSome_iff_exists]
  rw [List.length_range, List.length_filterMap_eq_countP, colored, List.countP_eq_length_filter]
    at short
  exact short

theorem colorKept (absent : x ∉ after) (colors : NameMap Nat) :
    (after.foldl (fun colors x => colors.insert x (g.lowestFree colors x)) colors).get? x =
      colors.get? x := by
  induction after generalizing colors with
  | nil => rfl
  | cons y after ih =>
    rw [List.foldl_cons, ih (List.not_mem_of_not_mem_cons absent), NameMap.getInsert,
      if_neg (List.ne_of_not_mem_cons absent)]

theorem colorAt (simple : g.Simple) (nodup : (before ++ x :: after).Nodup) :
    ∃ color, (g.colorInOrder (before ++ x :: after)).get? x = some color ∧
      color ≤ (g.among x (NameSet.ofList before)).size := by
  obtain ⟨first, rest, _⟩ := List.nodup_append.mp nodup
  have keys : (g.colorInOrder before).keys = NameSet.ofList before :=
    NameSet.ext fun y => ((colorInOrderSound simple first).2 y).trans NameSet.memOfList.symm
  refine ⟨g.lowestFree (g.colorInOrder before) x, ?_, keys ▸ lowestFreeLe _⟩
  rw [colorInOrder, List.foldl_append, List.foldl_cons, colorKept (List.nodup_cons.mp rest).1,
    NameMap.getInsert, if_pos rfl]
  rfl

theorem usedInOrder (simple : g.Simple) (nodup : order.Nodup)
    (all : ∀ x, x ∈ order ↔ x ∈ g.vertices) :
    let c := Coloring.ofColors (g.colorInOrder order)
    c.used = 0 ∨ ∃ i x, order[i]? = some x ∧ c.used ≤ min (g.degree x + 1) (i + 1) := by
  intro c
  have exact := Coloring.exactInOrder simple nodup all
  cases used : c.used with
  | zero => exact .inl rfl
  | succ top =>
    obtain ⟨x, vertex, given⟩ := Coloring.topColor exact used
    obtain ⟨before, after, rfl⟩ := List.append_of_mem ((all x).mpr vertex)
    obtain ⟨color, found, few⟩ := colorAt simple nodup
    cases Option.some.inj (given.symm.trans found)
    refine .inr ⟨before.length, x, by simp, Nat.le_min.mpr ⟨?_, ?_⟩⟩
    · exact Nat.succ_le_succ (Nat.le_trans few amongLeDegree)
    · exact Nat.succ_le_succ (Nat.le_trans few amongLeLength)

def degreeSequence (g : Graph) : List Nat :=
  (g.vertices.toList.map g.degree).insertionSort (· ≥ ·)

/-- The largest of the numbers `min (d + 1) i`, where `d` is the `i`-th highest degree. -/
def greedyBound (g : Graph) : Nat :=
  ((g.degreeSequence.zipIdx 1).map fun (d, i) => min (d + 1) i).foldr max 0

theorem leGreedyBound {d i : Nat} (present : g.degreeSequence[i]? = some d) :
    min (d + 1) (i + 1) ≤ g.greedyBound := by
  have listed : (d, 1 + i) ∈ g.degreeSequence.zipIdx 1 :=
    List.mk_add_mem_zipIdx_iff_getElem?.mpr present
  have mem := List.mem_map_of_mem (f := fun (d, i) => min (d + 1) i) listed
  rw [Nat.add_comm i 1]
  exact List.le_max_of_le' 0 mem (Nat.le_refl _)

end Graph

namespace Greedy

variable {g : Graph}

theorem placeDescending (x : Name) {ys : List Name}
    (sorted : ys.Pairwise fun a b => g.degree a ≥ g.degree b) :
    (place g x ys).Pairwise fun a b => g.degree a ≥ g.degree b := by
  induction ys with
  | nil => exact List.pairwise_singleton _ _
  | cons y ys ih =>
    obtain ⟨first, rest⟩ := List.pairwise_cons.mp sorted
    unfold place
    split
    · rename_i before
      have above : g.degree x ≥ g.degree y := by
        rcases of_decide_eq_true before with more | ⟨same, _⟩ <;> omega
      refine List.pairwise_cons.mpr ⟨fun z mem => ?_, sorted⟩
      rcases List.mem_cons.mp mem with rfl | later
      · exact above
      · exact Nat.le_trans (first z later) above
    · rename_i notBefore
      have below : g.degree y ≥ g.degree x := by
        have none := of_decide_eq_false (eq_false_of_ne_true notBefore)
        omega
      refine List.pairwise_cons.mpr ⟨fun z mem => ?_, ih rest⟩
      rcases List.mem_cons.mp ((placePerm g x ys).mem_iff.mp mem) with rfl | later
      · exact below
      · exact first z later

theorem orderDescending (g : Graph) :
    (order g).Pairwise fun a b => g.degree a ≥ g.degree b := by
  unfold order
  induction g.vertices.toList with
  | nil => exact .nil
  | cons x xs ih => exact placeDescending x ih

theorem orderDegrees (g : Graph) : (order g).map g.degree = g.degreeSequence := by
  have perm : ((order g).map g.degree).Perm g.degreeSequence :=
    ((orderPerm g).map _).trans (List.perm_insertionSort _ _).symm
  have sorted : ((order g).map g.degree).Pairwise (· ≥ ·) :=
    List.pairwise_map.mpr (orderDescending g)
  exact perm.eq_of_pairwise' sorted (List.pairwise_insertionSort _ _)

theorem usedLeBound (simple : g.Simple) : (Colorer.greedy.color g).used ≤ g.greedyBound := by
  have perm := orderPerm g
  rcases Graph.usedInOrder simple (perm.nodup_iff.mpr g.vertices.nodup) fun x => perm.mem_iff with
    none | ⟨i, x, present, few⟩
  · exact Nat.le_trans (Nat.le_of_eq none) (Nat.zero_le _)
  · have degree : g.degreeSequence[i]? = some (g.degree x) := by
      rw [← orderDegrees, List.getElem?_map, present]
      rfl
    exact Nat.le_trans few (Graph.leGreedyBound degree)

end Greedy

theorem Coloring.usedLeTop {g : Graph} {c : Coloring} (exact : Exact g c) (filled : 0 < g.size) :
    ∃ x ∈ g.vertices, c.used ≤ g.degree x + 1 := by
  cases used : c.used with
  | zero =>
    obtain ⟨entry, mem⟩ := List.exists_mem_of_length_pos filled
    exact ⟨entry.1, List.mem_map_of_mem mem, Nat.zero_le _⟩
  | succ top =>
    obtain ⟨x, vertex, given⟩ := topColor exact used
    exact ⟨x, vertex, Nat.succ_le_succ (colorLeDegree exact given)⟩

namespace Colorer

variable {colorer : Colorer}

theorem everyGraphColored (builtIn : colorer.BuiltIn) (steps : List Graph.Step) :
    let g := Graph.build steps
    let c := colorer.color g
    c.colors.keys = g.vertices ∧
      (∀ x y, g.hasEdge x y = true →
        ∃ a b, c.get? x = some a ∧ c.get? y = some b ∧ a ≠ b) ∧
      (∀ color, (∃ x, c.get? x = some color) ↔ color < c.used) ∧
      (∀ x color, c.get? x = some color → color ≤ g.degree x) ∧
      (0 < g.size → ∃ x ∈ g.vertices, c.used ≤ g.degree x + 1) ∧
      c.violation? g = none ∧
      (Colorer.greedy.color g).used ≤ g.greedyBound := by
  intro g c
  have simple : g.Simple := Graph.buildSimple steps
  have exact : Coloring.Exact g c := builtInExact builtIn simple
  have proper := Coloring.properOfExact simple exact
  refine ⟨NameSet.ext exact.domain, fun x y edge => ?_, fun color => (exact.range color).symm,
    fun x color => Coloring.colorLeDegree exact, Coloring.usedLeTop exact,
    Coloring.violationNone.mpr proper, Greedy.usedLeBound simple⟩
  have joined : y ∈ g.neighbors x := of_decide_eq_true edge
  obtain ⟨a, colorX⟩ := proper.total x (simple.closed y x (simple.symmetric x y joined))
  obtain ⟨b, colorY⟩ := proper.total y (simple.closed x y joined)
  exact ⟨a, b, colorX, colorY, fun same => proper.proper x y joined (by rw [colorX, colorY, same])⟩

end Colorer

def Graph.star : List Graph.Step := [.edge "hub" "a", .edge "hub" "b", .edge "hub" "c"]

theorem Colorer.starColored : BuiltIn .greedy ∧ (Graph.build Graph.star).greedyBound = 2 ∧
    (Colorer.greedy.color (Graph.build Graph.star)).used ≤ 2 ∧
    (Colorer.greedy.color (Graph.build Graph.star)).colors.keys =
      (Graph.build Graph.star).vertices ∧
    (Colorer.greedy.color (Graph.build Graph.star)).violation? (Graph.build Graph.star) = none := by
  obtain ⟨domain, _, _, _, _, clean, few⟩ := everyGraphColored .greedy Graph.star
  have bound : (Graph.build Graph.star).greedyBound = 2 := by decide +kernel
  exact ⟨.greedy, bound, bound ▸ few, domain, clean⟩

end Regalloc
