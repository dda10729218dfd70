import Regalloc.NameSet

/-!
Finite maps from register names, kept as association lists with ascending names. A map is
determined by what it answers for each name.
-/
namespace Regalloc

structure NameMap (β : Type) where
  toList : List (Name × β)
  ascending : (toList.map Prod.fst).Pairwise (· < ·)
  deriving DecidableEq, Repr

namespace NameMap

variable {β γ : Type}

def empty : NameMap β := ⟨[], by simp⟩

instance : EmptyCollection (NameMap β) := ⟨empty⟩

instance : Inhabited (NameMap β) := ⟨empty⟩

def size (m : NameMap β) : Nat := m.toList.length

def keys (m : NameMap β) : NameSet := ⟨m.toList.map Prod.fst, m.ascending⟩

def lookup (x : Name) : List (Name × β) → Option β
  | [] => none
  | (y, c) :: rest => if x = y then some c else lookup x rest

def get? (m : NameMap β) (x : Name) : Option β := lookup x m.toList

@[simp] theorem getEmpty {x : Name} : (∅ : NameMap β).get? x = none := rfl

def insertPair (x : Name) (b : β) : List (Name × β) → List (Name × β)
  | [] => [(x, b)]
  | (y, c) :: rest =>
    if x < y then (x, b) :: (y, c) :: rest
    else if y < x then (y, c) :: insertPair x b rest
    else (y, b) :: rest

theorem namesInsertPair {x : Name} {b : β} {l : List (Name × β)} :
    (insertPair x b l).map Prod.fst = Ascending.insert x (l.map Prod.fst) := by
  induction l with
  | nil => rfl
  | cons p l ih =>
    obtain ⟨y, c⟩ := p
    simp only [insertPair, List.map_cons, Ascending.insert]
    split
    · rfl
    · split
      · simp [ih]
      · rfl

theorem lookupInsertPair {x y : Name} {b : β} {l : List (Name × β)} :
    lookup y (insertPair x b l) = if y = x then some b else lookup y l := by
  induction l with
  | nil => rfl
  | cons p l ih =>
    obtain ⟨z, c⟩ := p
    unfold insertPair
    split
    · rfl
    · rename_i notBelow
      split
      · rename_i above
        by_cases h : y = z
        · subst h
          simp [lookup, String.ne_of_lt above]
        · simp [lookup, h, ih]
      · rename_i notAbove
        have same : x = z := Std.le_antisymm (Std.not_lt.mp notAbove) (Std.not_lt.mp notBelow)
        subst same
        by_cases h : y = x <;> simp [lookup, h]

def insert (m : NameMap β) (x : Name) (b : β) : NameMap β :=
  ⟨insertPair x b m.toList, namesInsertPair ▸ Ascending.ascendingInsert m.ascending⟩

@[simp] theorem getInsert {m : NameMap β} {x y : Name} {b : β} :
    (m.insert x b).get? y = if y = x then some b else m.get? y := lookupInsertPair

@[simp] theorem memKeysInsert {m : NameMap β} {x y : Name} {b : β} :
    y ∈ (m.insert x b).keys ↔ y = x ∨ y ∈ m.keys := by
  show y ∈ (insertPair x b m.toList).map Prod.fst ↔ _
  rw [namesInsertPair, Ascending.memInsert]
  rfl

theorem memKeysIff {m : NameMap β} {x : Name} : x ∈ m.keys ↔ ∃ b, m.get? x = some b := by
  show x ∈ m.toList.map Prod.fst ↔ ∃ b, lookup x m.toList = some b
  generalize m.toList = l
  induction l with
  | nil => simp [lookup]
  | cons p l ih => by_cases h : x = p.1 <;> simp [lookup, h, ih]

theorem lookupAbsent {l : List (Name × β)} {x : Name} (h : x ∉ l.map Prod.fst) :
    lookup x l = none := by
  induction l with
  | nil => rfl
  | cons p l ih =>
    simp only [List.map_cons, List.mem_cons, not_or] at h
    simp [lookup, h.1, ih h.2]

theorem lookupPresentIff {l : List (Name × β)} (h : (l.map Prod.fst).Pairwise (· < ·))
    {x : Name} {b : β} : lookup x l = some b ↔ (x, b) ∈ l := by
  induction l with
  | nil => simp [lookup]
  | cons p l ih =>
    obtain ⟨y, c⟩ := p
    obtain ⟨first, rest⟩ := List.pairwise_cons.mp h
    by_cases same : x = y
    · subst same
      have absent : (x, b) ∉ l := fun mem =>
        String.lt_irrefl x (first x (List.mem_map.mpr ⟨(x, b), mem, rfl⟩))
      simp [lookup, absent, eq_comm]
    · simp [lookup, same, ih rest]

theorem memToListIff {m : NameMap β} {x : Name} {b : β} :
    (x, b) ∈ m.toList ↔ m.get? x = some b := (lookupPresentIff m.ascending).symm

theorem equalOfLookup {s t : List (Name × β)} (hs : (s.map Prod.fst).Pairwise (· < ·))
    (ht : (t.map Prod.fst).Pairwise (· < ·)) (same : ∀ x, lookup x s = lookup x t) : s = t := by
  have names : s.map Prod.fst = t.map Prod.fst := by
    refine Ascending.equalOfMembers hs ht fun x => ?_
    have left := memKeysIff (m := ⟨s, hs⟩) (x := x)
    have right := memKeysIff (m := ⟨t, ht⟩) (x := x)
    exact left.trans ((exists_congr fun b => by simp [get?, same]).trans right.symm)
  induction s generalizing t with
  | nil => simpa using names.symm
  | cons p s ih =>
    cases t with
    | nil => simp at names
    | cons q t =>
      obtain ⟨x, b⟩ := p
      obtain ⟨y, c⟩ := q
      simp only [List.map_cons, List.cons.injEq] at names
      obtain ⟨rfl, names⟩ := names
      obtain ⟨firstS, restS⟩ := List.pairwise_cons.mp hs
      obtain ⟨firstT, restT⟩ := List.pairwise_cons.mp ht
      have values : b = c := by simpa [lookup] using same x
      subst values
      have tails : s = t := by
        refine ih restS restT (fun z => ?_) names
        by_cases h : z = x
        · subst h
          have absentS : z ∉ s.map Prod.fst := fun mem => String.lt_irrefl z (firstS z mem)
          have absentT : z ∉ t.map Prod.fst := fun mem => String.lt_irrefl z (firstT z mem)
          rw [lookupAbsent absentS, lookupAbsent absentT]
        · simpa [lookup, h] using same z
      rw [tails]

@[ext] theorem ext {m n : NameMap β} (same : ∀ x, m.get? x = n.get? x) : m = n := by
  cases m
  cases n
  simp only [mk.injEq]
  exact equalOfLookup ‹_› ‹_› same

def ofList (pairs : List (Name × β)) : NameMap β :=
  pairs.foldl (fun m p => m.insert p.1 p.2) ∅

def erase (m : NameMap β) (x : Name) : NameMap β :=
  ⟨m.toList.filter (fun p => decide (p.1 ≠ x)),
    List.Pairwise.sublist (List.filter_sublist.map Prod.fst) m.ascending⟩

@[simp] theorem getErase {m : NameMap β} {x y : Name} :
    (m.erase x).get? y = if y = x then none else m.get? y := by
  show lookup y (m.toList.filter (fun p => decide (p.1 ≠ x))) = if y = x then none else lookup y m.toList
  generalize m.toList = l
  induction l with
  | nil => simp [lookup]
  | cons p l ih => by_cases hx : p.1 = x <;> by_cases hy : y = p.1 <;> simp_all [lookup]

theorem sizeEraseLt {m : NameMap β} {x : Name} (h : x ∈ m.keys) : (m.erase x).size < m.size := by
  obtain ⟨p, mem, rfl⟩ := List.mem_map.mp h
  exact List.length_filter_lt_length_iff_exists.mpr ⟨p, mem, by simp⟩

def mapValues (m : NameMap β) (f : Name → β → γ) : NameMap γ :=
  ⟨m.toList.map (fun p => (p.1, f p.1 p.2)), by
    have names : (m.toList.map (fun p => (p.1, f p.1 p.2))).map Prod.fst = m.toList.map Prod.fst := by
      simp
    exact names ▸ m.ascending⟩

@[simp] theorem getMapValues {m : NameMap β} {f : Name → β → γ} {x : Name} :
    (m.mapValues f).get? x = (m.get? x).map (f x) := by
  show lookup x (m.toList.map (fun p => (p.1, f p.1 p.2))) = (lookup x m.toList).map (f x)
  generalize m.toList = l
  induction l with
  | nil => rfl
  | cons p l ih => by_cases h : x = p.1 <;> simp [lookup, h, ih]

@[simp] theorem sizeMapValues {m : NameMap β} {f : Name → β → γ} :
    (m.mapValues f).size = m.size := List.length_map _

def filterMap (m : NameMap β) (f : β → Option γ) : NameMap γ :=
  ⟨m.toList.filterMap (fun p => (f p.2).map (fun c => (p.1, c))), by
    refine List.Pairwise.sublist ?_ m.ascending
    generalize m.toList = l
    induction l with
    | nil => simp
    | cons p l ih =>
      cases h : f p.2 with
      | none => simpa [h] using ih.cons _
      | some c => simpa [h] using ih⟩

def highest? (m : NameMap Nat) : Option Name :=
  (m.toList.foldl (fun best entry =>
    match best with
    | some top => if entry.2 ≤ top.2 then some top else some entry
    | none => some entry) none).map Prod.fst

theorem foldlMember {l : List (Name × Nat)} {best : Option (Name × Nat)} {entry : Name × Nat}
    (found : l.foldl (fun best entry =>
      match best with
      | some top => if entry.2 ≤ top.2 then some top else some entry
      | none => some entry) best = some entry) : entry ∈ l ∨ best = some entry := by
  induction l generalizing best with
  | nil => exact .inr found
  | cons head l ih =>
    rcases ih found with mem | same
    · exact .inl (List.mem_cons_of_mem _ mem)
    · cases best with
      | none => exact .inl (by simp_all)
      | some top =>
        by_cases h : head.2 ≤ top.2
        · exact .inr (by simpa [h] using same)
        · exact .inl (by simp_all)

theorem highestMember {m : NameMap Nat} {x : Name} (found : m.highest? = some x) : x ∈ m.keys := by
  obtain ⟨entry, top, rfl⟩ := Option.map_eq_some_iff.mp found
  rcases foldlMember top with mem | absurd
  · exact List.mem_map.mpr ⟨entry, mem, rfl⟩
  · cases absurd

end NameMap

end Regalloc
