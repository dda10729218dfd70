import Mathlib.Data.Finset.Card
import Mathlib.Data.Finset.Range
import Mathlib.Data.List.Nodup
import Regalloc.Coloring.Greedy
import Regalloc.Coloring.Simplify

/-! Both ways of coloring give every vertex a color, never the same to two neighbors, and leave no
gap: a color is taken only where neighbors have all smaller ones already. Hence the colors in use
are exactly the numbers below the count that is reported. -/
namespace Regalloc

theorem countDistinctCard (ns : List Nat) : countDistinct ns = ns.toFinset.card := by
  induction ns with
  | nil => rfl
  | cons n ns ih =>
    unfold countDistinct
    rw [List.toFinset_cons, ih]
    by_cases mem : n ∈ ns
    · rw [if_pos mem, Finset.insert_eq_of_mem (List.mem_toFinset.mpr mem)]
    · rw [if_neg mem, Finset.card_insert_of_notMem fun inside => mem (List.mem_toFinset.mp inside)]

theorem leastMissingSpec (taken : List Nat) :
    leastMissing taken ∉ taken ∧ ∀ b < leastMissing taken, b ∈ taken := by
  unfold leastMissing
  cases found : (List.range (taken.length + 1)).find? (fun n => n ∉ taken) with
  | none =>
    have inside : ∀ n ∈ Finset.range (taken.length + 1), n ∈ taken.toFinset := by
      intro n mem
      have checked := List.find?_eq_none.mp found n (List.mem_range.mpr (Finset.mem_range.mp mem))
      exact List.mem_toFinset.mpr (by simpa using checked)
    have bound := (Finset.card_le_card inside).trans (List.toFinset_card_le taken)
    rw [Finset.card_range] at bound
    omega
  | some n =>
    obtain ⟨missing, _, smaller⟩ := List.find?_range_eq_some.mp found
    exact ⟨by simpa using missing, fun b below => by simpa using smaller b below⟩

namespace NameMap

theorem memKeysErase {β : Type} {m : NameMap β} {x y : Name} :
    y ∈ (m.erase x).keys ↔ y ≠ x ∧ y ∈ m.keys := by
  rw [memKeysIff, memKeysIff, getErase]
  by_cases same : y = x <;> simp [same]

theorem memKeysMapValues {β γ : Type} {m : NameMap β} {f : Name → β → γ} {y : Name} :
    y ∈ (m.mapValues f).keys ↔ y ∈ m.keys := by
  rw [memKeysIff, memKeysIff, getMapValues]
  cases m.get? y <;> simp

theorem foldlHighestSome (l : List (Name × Nat)) (top : Name × Nat) :
    (l.foldl (fun best entry =>
      match best with
      | some top => if entry.2 ≤ top.2 then some top else some entry
      | none => some entry) (some top)).isSome = true := by
  induction l generalizing top with
  | nil => rfl
  | cons head l ih =>
    rw [List.foldl_cons]
    dsimp only
    split
    · exact ih top
    · exact ih head

theorem highestNone {m : NameMap Nat} (absent : m.highest? = none) : m.toList = [] := by
  unfold highest? at absent
  cases entries : m.toList with
  | nil => rfl
  | cons head l =>
    rw [entries, List.foldl_cons, Option.map_eq_none_iff] at absent
    have missing := congrArg Option.isSome absent
    exact absurd ((foldlHighestSome l head).symm.trans missing) (by decide)

end NameMap

namespace Graph

structure Partial (g : Graph) (colors : NameMap Nat) : Prop where
  proper : ∀ x y color, y ∈ g.neighbors x → colors.get? x = some color → colors.get? y ≠ some color
  lowest : ∀ x color, colors.get? x = some color →
    ∀ b < color, ∃ y ∈ g.neighbors x, colors.get? y = some b

theorem lowestFreeSpec (g : Graph) (colors : NameMap Nat) (x : Name) :
    (∀ y ∈ g.neighbors x, colors.get? y ≠ some (g.lowestFree colors x)) ∧
      ∀ b < g.lowestFree colors x, ∃ y ∈ g.neighbors x, colors.get? y = some b := by
  obtain ⟨missing, smaller⟩ := leastMissingSpec ((g.neighbors x).toList.filterMap colors.get?)
  refine ⟨fun y mem same => missing (List.mem_filterMap.mpr ⟨y, mem, same⟩), fun b below => ?_⟩
  exact List.mem_filterMap.mp (smaller b below)

theorem partialInsert {g : Graph} {colors : NameMap Nat} {x : Name} (simple : g.Simple)
    (colored : Partial g colors) (fresh : x ∉ colors.keys) :
    Partial g (colors.insert x (g.lowestFree colors x)) := by
  obtain ⟨free, smaller⟩ := lowestFreeSpec g colors x
  have old : ∀ y b, colors.get? y = some b →
      (colors.insert x (g.lowestFree colors x)).get? y = some b := by
    intro y b found
    have apart : y ≠ x := fun same => fresh (NameMap.memKeysIff.mpr ⟨b, same ▸ found⟩)
    rw [NameMap.getInsert, if_neg apart, found]
  refine ⟨fun u v color joined found clash => ?_, fun u color found b below => ?_⟩
  · rw [NameMap.getInsert] at found clash
    split at found
    · rename_i same
      subst same
      cases Option.some.inj found
      split at clash
      · rename_i loop
        exact simple.irreflexive u (loop ▸ joined)
      · exact free v joined clash
    · split at clash
      · rename_i same
        subst same
        cases Option.some.inj clash
        exact free u (simple.symmetric u v joined) found
      · exact colored.proper u v color joined found clash
  · rw [NameMap.getInsert] at found
    split at found
    · rename_i same
      subst same
      cases Option.some.inj found
      obtain ⟨y, joined, given⟩ := smaller b below
      exact ⟨y, joined, old y b given⟩
    · obtain ⟨y, joined, given⟩ := colored.lowest u color found b below
      exact ⟨y, joined, old y b given⟩

theorem colorFold {g : Graph} {order : List Name} {colors : NameMap Nat} (simple : g.Simple)
    (nodup : order.Nodup) (fresh : ∀ x ∈ order, x ∉ colors.keys) (colored : Partial g colors) :
    let final := order.foldl (fun colors x => colors.insert x (g.lowestFree colors x)) colors
    Partial g final ∧ ∀ x, x ∈ final.keys ↔ x ∈ order ∨ x ∈ colors.keys := by
  induction order generalizing colors with
  | nil => exact ⟨colored, by simp⟩
  | cons x order ih =>
    obtain ⟨unseen, nodup⟩ := List.nodup_cons.mp nodup
    have step := partialInsert simple colored (fresh x List.mem_cons_self)
    have later : ∀ y ∈ order, y ∉ (colors.insert x (g.lowestFree colors x)).keys := by
      intro y mem inside
      rcases NameMap.memKeysInsert.mp inside with same | inside
      · exact unseen (same ▸ mem)
      · exact fresh y (List.mem_cons_of_mem _ mem) inside
    obtain ⟨final, domain⟩ := ih nodup later step
    refine ⟨final, fun y => ?_⟩
    rw [List.foldl_cons, domain, NameMap.memKeysInsert, List.mem_cons]
    exact or_left_comm.trans or_assoc.symm

theorem colorInOrderSound {g : Graph} {order : List Name} (simple : g.Simple)
    (nodup : order.Nodup) :
    Partial g (g.colorInOrder order) ∧ ∀ x, x ∈ (g.colorInOrder order).keys ↔ x ∈ order := by
  have start : Partial g ∅ := ⟨by simp, by simp⟩
  obtain ⟨colored, domain⟩ := colorFold simple nodup (fun x _ => by simp [NameMap.memKeysIff]) start
  refine ⟨colored, fun x => ?_⟩
  rw [colorInOrder, domain]
  simp [NameMap.memKeysIff]

theorem memDegreesKeys {g : Graph} {x : Name} : x ∈ g.degrees.keys ↔ x ∈ g.vertices :=
  NameMap.memKeysMapValues

theorem adjacencyVertices (g : Graph) :
    g.adjacency.toList = g.vertices.toList.map fun x => (x, g.neighbors x) := by
  show _ = (g.adjacency.toList.map Prod.fst).map _
  rw [List.map_map]
  refine (List.map_id _).symm.trans (List.map_congr_left fun entry mem => ?_)
  simp [neighbors, NameMap.memToListIff.mp mem]

theorem vertexOfNeighbor {g : Graph} {x y : Name} (joined : y ∈ g.neighbors x) :
    x ∈ g.vertices := by
  refine NameMap.memKeysIff.mpr ?_
  cases found : g.adjacency.get? x with
  | none => simp [neighbors, found] at joined
  | some neighbors => exact ⟨neighbors, rfl⟩

end Graph

namespace Coloring

structure Exact (g : Graph) (c : Coloring) : Prop where
  domain : ∀ x, x ∈ c.colors.keys ↔ x ∈ g.vertices
  proper : ∀ x y color, y ∈ g.neighbors x → c.get? x = some color → c.get? y ≠ some color
  lowest : ∀ x color, c.get? x = some color →
    ∀ b < color, ∃ y ∈ g.neighbors x, c.get? y = some b
  range : ∀ color, color < c.used ↔ ∃ x, c.get? x = some color

theorem memValues {colors : NameMap Nat} {n : Nat} :
    n ∈ colors.toList.map Prod.snd ↔ ∃ x, colors.get? x = some n := by
  simp [NameMap.memToListIff]

theorem usedOfGapFree {colors : NameMap Nat}
    (gapFree : ∀ x color, colors.get? x = some color → ∀ b < color, ∃ y, colors.get? y = some b)
    (color : Nat) : color < (ofColors colors).used ↔ ∃ x, colors.get? x = some color := by
  show color < countDistinct (colors.toList.map Prod.snd) ↔ _
  rw [countDistinctCard]
  constructor
  · intro below
    by_contra absent
    have inside : (colors.toList.map Prod.snd).toFinset ⊆ Finset.range color := by
      intro n mem
      obtain ⟨x, found⟩ := memValues.mp (List.mem_toFinset.mp mem)
      refine Finset.mem_range.mpr (Nat.lt_of_not_le fun above => ?_)
      rcases Nat.lt_or_eq_of_le above with less | same
      · exact absent (gapFree x n found color less)
      · exact absent ⟨x, same ▸ found⟩
    have bound := Finset.card_le_card inside
    rw [Finset.card_range] at bound
    omega
  · rintro ⟨x, found⟩
    have inside : Finset.range (color + 1) ⊆ (colors.toList.map Prod.snd).toFinset := by
      intro n mem
      refine List.mem_toFinset.mpr (memValues.mpr ?_)
      rcases Nat.lt_or_eq_of_le (Nat.le_of_lt_succ (Finset.mem_range.mp mem)) with less | same
      · exact gapFree x color found n less
      · exact ⟨x, same ▸ found⟩
    have bound := Finset.card_le_card inside
    rwa [Finset.card_range] at bound

theorem exactInOrder {g : Graph} {order : List Name} (simple : g.Simple) (nodup : order.Nodup)
    (all : ∀ x, x ∈ order ↔ x ∈ g.vertices) : Exact g (ofColors (g.colorInOrder order)) := by
  obtain ⟨colored, domain⟩ := Graph.colorInOrderSound simple nodup
  refine ⟨fun x => (domain x).trans (all x), colored.proper, colored.lowest,
    usedOfGapFree fun x color found b below => ?_⟩
  obtain ⟨y, _, given⟩ := colored.lowest x color found b below
  exact ⟨y, given⟩

theorem properOfExact {g : Graph} {c : Coloring} (simple : g.Simple) (exact : Exact g c) :
    Proper g c := by
  have total : ∀ x ∈ g.vertices, ∃ color, c.get? x = some color :=
    fun x mem => NameMap.memKeysIff.mp ((exact.domain x).mpr mem)
  refine ⟨total, fun x y joined same => ?_⟩
  obtain ⟨color, found⟩ := total x (simple.closed y x (simple.symmetric x y joined))
  exact exact.proper x y color joined found (same ▸ found)

def FineAt (g : Graph) (c : Coloring) (x : Name) : Prop :=
  ∃ color, c.get? x = some color ∧ ∀ y ∈ g.neighbors x, c.get? y ≠ some color

theorem violationAtNone {g : Graph} {c : Coloring} {x : Name} :
    c.violationAt x (g.neighbors x) = none ↔ FineAt g c x := by
  unfold violationAt FineAt
  cases c.get? x <;> simp

theorem violationVertices (g : Graph) (c : Coloring) : c.violation? g =
    g.vertices.toList.findSome? fun x => c.violationAt x (g.neighbors x) := by
  rw [violation?, g.adjacencyVertices, List.findSome?_map]
  rfl

theorem violationNone {g : Graph} {c : Coloring} : c.violation? g = none ↔ Proper g c := by
  rw [violationVertices, List.findSome?_eq_none_iff]
  simp only [violationAtNone]
  constructor
  · intro fine
    refine ⟨fun x mem => (fine x mem).imp fun _ both => both.1, fun x y joined same => ?_⟩
    obtain ⟨color, given, differs⟩ := fine x (Graph.vertexOfNeighbor joined)
    exact differs y joined (same ▸ given)
  · intro proper x mem
    obtain ⟨color, given⟩ := proper.total x mem
    exact ⟨color, given, fun y joined same => proper.proper x y joined (given.trans same.symm)⟩

end Coloring

namespace Greedy

theorem placePerm (g : Graph) (x : Name) (ys : List Name) : (place g x ys).Perm (x :: ys) := by
  induction ys with
  | nil => exact List.Perm.refl _
  | cons y ys ih =>
    unfold place
    split
    · exact List.Perm.refl _
    · exact (ih.cons y).trans (List.Perm.swap x y ys)

theorem orderPerm (g : Graph) : (order g).Perm g.vertices.toList := by
  unfold order
  induction g.vertices.toList with
  | nil => exact List.Perm.refl _
  | cons x xs ih => exact (placePerm g x _).trans (ih.cons x)

end Greedy

namespace Simplify

theorem memKeysRemove {g : Graph} {x y : Name} {degrees : NameMap Nat} :
    y ∈ (remove g x degrees).keys ↔ y ≠ x ∧ y ∈ degrees.keys := by
  unfold remove
  rw [NameMap.memKeysMapValues, NameMap.memKeysErase]

theorem pickNone {k : Nat} {degrees : NameMap Nat} (none : pick? k degrees = none) (x : Name) :
    x ∉ degrees.keys := by
  unfold pick? at none
  split at none
  · contradiction
  · have empty := NameMap.highestNone none
    intro mem
    obtain ⟨entry, inside, _⟩ := List.mem_map.mp mem
    rw [empty] at inside
    exact absurd inside List.not_mem_nil

theorem removalsExact (g : Graph) (k : Nat) (degrees : NameMap Nat) :
    (removals g k degrees).Nodup ∧ ∀ x, x ∈ removals g k degrees ↔ x ∈ degrees.keys := by
  fun_induction removals g k degrees with
  | case1 degrees none => exact ⟨List.nodup_nil, fun x => by simp [pickNone none x]⟩
  | case2 degrees x picked ih =>
    refine ⟨List.nodup_cons.mpr ⟨fun mem => ?_, ih.1⟩, fun y => ?_⟩
    · exact (memKeysRemove.mp ((ih.2 x).mp mem)).1 rfl
    · rw [List.mem_cons, ih.2, memKeysRemove]
      by_cases same : y = x
      · simp [same, pickMember picked]
      · simp [same]

end Simplify

namespace Colorer

inductive BuiltIn : Colorer → Prop where
  | greedy : BuiltIn Colorer.greedy
  | simplify (k : Nat) : BuiltIn (Colorer.simplify k)

theorem builtInExact {colorer : Colorer} (builtIn : colorer.BuiltIn) {g : Graph}
    (simple : g.Simple) : Coloring.Exact g (colorer.color g) := by
  cases builtIn with
  | greedy =>
    have perm := Greedy.orderPerm g
    exact Coloring.exactInOrder simple (perm.nodup_iff.mpr g.vertices.nodup) fun x => perm.mem_iff
  | simplify k =>
    obtain ⟨nodup, members⟩ := Simplify.removalsExact g k g.degrees
    refine Coloring.exactInOrder simple (List.nodup_reverse.mpr nodup) fun x => ?_
    rw [List.mem_reverse, members, Graph.memDegreesKeys]

end Colorer

end Regalloc
