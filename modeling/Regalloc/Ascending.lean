/-!
Ascending lists: strictly increasing, so duplicate-free. `insert` keeps a list ascending and adds
one member; two ascending lists with the same members are equal.
-/
namespace Regalloc.Ascending

variable {α : Type} [LT α] [DecidableLT α]

def insert (x : α) : List α → List α
  | [] => [x]
  | y :: ys =>
    if x < y then x :: y :: ys
    else if y < x then y :: insert x ys
    else y :: ys

def ofList (xs : List α) : List α := xs.foldl (fun s x => insert x s) []

variable [LE α] [Std.IsLinearOrder α] [Std.LawfulOrderLT α]

theorem memInsert {x y : α} {s : List α} : y ∈ insert x s ↔ y = x ∨ y ∈ s := by
  induction s with
  | nil => simp [insert]
  | cons z s ih =>
    unfold insert
    split
    · simp
    · rename_i notBelow
      split
      · simp only [List.mem_cons, ih]
        constructor
        · rintro (h | h | h) <;> simp [h]
        · rintro (h | h | h) <;> simp [h]
      · rename_i notAbove
        have same : x = z := Std.le_antisymm (Std.not_lt.mp notAbove) (Std.not_lt.mp notBelow)
        subst same
        simp

theorem ascendingInsert {x : α} {s : List α} (h : s.Pairwise (· < ·)) :
    (insert x s).Pairwise (· < ·) := by
  induction s with
  | nil => simp [insert]
  | cons z s ih =>
    obtain ⟨first, rest⟩ := List.pairwise_cons.mp h
    unfold insert
    split
    · rename_i below
      refine List.pairwise_cons.mpr ⟨?_, h⟩
      intro y mem
      rcases List.mem_cons.mp mem with rfl | mem
      · exact below
      · exact Std.lt_trans below (first y mem)
    · split
      · rename_i above
        refine List.pairwise_cons.mpr ⟨?_, ih rest⟩
        intro y mem
        rcases memInsert.mp mem with rfl | mem
        · exact above
        · exact first y mem
      · exact h

theorem ascendingFoldl {xs s : List α} (h : s.Pairwise (· < ·)) :
    (xs.foldl (fun s x => insert x s) s).Pairwise (· < ·) := by
  induction xs generalizing s with
  | nil => exact h
  | cons x xs ih => exact ih (ascendingInsert h)

theorem memFoldl {xs s : List α} {y : α} :
    y ∈ xs.foldl (fun s x => insert x s) s ↔ y ∈ xs ∨ y ∈ s := by
  induction xs generalizing s with
  | nil => simp
  | cons x xs ih =>
    simp only [List.foldl_cons, ih, memInsert, List.mem_cons]
    constructor
    · rintro (h | h | h) <;> simp [h]
    · rintro ((h | h) | h) <;> simp [h]

theorem ascendingOfList {xs : List α} : (ofList xs).Pairwise (· < ·) :=
  ascendingFoldl List.Pairwise.nil

theorem memOfList {xs : List α} {y : α} : y ∈ ofList xs ↔ y ∈ xs := by
  simp [ofList, memFoldl]

omit [DecidableLT α] in
theorem equalOfMembers {s t : List α} (hs : s.Pairwise (· < ·)) (ht : t.Pairwise (· < ·))
    (same : ∀ x, x ∈ s ↔ x ∈ t) : s = t := by
  induction s generalizing t with
  | nil =>
    cases t with
    | nil => rfl
    | cons y t => exact absurd ((same y).mpr (by simp)) (by simp)
  | cons x s ih =>
    cases t with
    | nil => exact absurd ((same x).mp (by simp)) (by simp)
    | cons y t =>
      obtain ⟨hx, restS⟩ := List.pairwise_cons.mp hs
      obtain ⟨hy, restT⟩ := List.pairwise_cons.mp ht
      have heads : x = y := by
        rcases List.mem_cons.mp ((same x).mp (by simp)) with h | h
        · exact h
        · rcases List.mem_cons.mp ((same y).mpr (by simp)) with h' | h'
          · exact h'.symm
          · exact absurd (Std.lt_trans (hx y h') (hy x h)) Std.lt_irrefl
      subst heads
      refine congrArg _ (ih restS restT ?_)
      intro z
      constructor
      · intro mem
        rcases List.mem_cons.mp ((same z).mp (List.mem_cons_of_mem _ mem)) with h | h
        · exact absurd (h ▸ hx z mem) Std.lt_irrefl
        · exact h
      · intro mem
        rcases List.mem_cons.mp ((same z).mpr (List.mem_cons_of_mem _ mem)) with h | h
        · exact absurd (h ▸ hy z mem) Std.lt_irrefl
        · exact h

end Regalloc.Ascending
