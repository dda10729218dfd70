import Regalloc.Ascending

/-!
Finite sets of register names, kept as ascending lists. Names are ordered as texts, character by
character. A set is determined by its members.
-/
namespace Regalloc

/-- The name of a register as it is written, such as `R12` or `SP`. -/
abbrev Name := String

structure NameSet where
  toList : List Name
  ascending : toList.Pairwise (· < ·)
  deriving DecidableEq, Repr

namespace NameSet

instance : Membership Name NameSet := ⟨fun s x => x ∈ s.toList⟩

instance (x : Name) (s : NameSet) : Decidable (x ∈ s) := inferInstanceAs (Decidable (x ∈ s.toList))

@[simp] theorem memToList {x : Name} {s : NameSet} : x ∈ s.toList ↔ x ∈ s := Iff.rfl

@[ext] theorem ext {s t : NameSet} (same : ∀ x, x ∈ s ↔ x ∈ t) : s = t := by
  cases s
  cases t
  simp only [mk.injEq]
  exact Ascending.equalOfMembers ‹_› ‹_› same

def empty : NameSet := ⟨[], List.Pairwise.nil⟩

instance : EmptyCollection NameSet := ⟨empty⟩

instance : Inhabited NameSet := ⟨empty⟩

@[simp] theorem notMemEmpty {x : Name} : x ∉ (∅ : NameSet) := List.not_mem_nil

def size (s : NameSet) : Nat := s.toList.length

def insert (s : NameSet) (x : Name) : NameSet :=
  ⟨Ascending.insert x s.toList, Ascending.ascendingInsert s.ascending⟩

@[simp] theorem memInsert {s : NameSet} {x y : Name} : y ∈ s.insert x ↔ y = x ∨ y ∈ s :=
  Ascending.memInsert

def ofList (xs : List Name) : NameSet := ⟨Ascending.ofList xs, Ascending.ascendingOfList⟩

@[simp] theorem memOfList {xs : List Name} {y : Name} : y ∈ ofList xs ↔ y ∈ xs :=
  Ascending.memOfList

def filter (s : NameSet) (p : Name → Bool) : NameSet :=
  ⟨s.toList.filter p, s.ascending.filter p⟩

@[simp] theorem memFilter {s : NameSet} {p : Name → Bool} {x : Name} :
    x ∈ s.filter p ↔ x ∈ s ∧ p x = true := List.mem_filter

def union (s t : NameSet) : NameSet :=
  ⟨s.toList.foldl (fun u x => Ascending.insert x u) t.toList, Ascending.ascendingFoldl t.ascending⟩

@[simp] theorem memUnion {s t : NameSet} {x : Name} : x ∈ s.union t ↔ x ∈ s ∨ x ∈ t :=
  Ascending.memFoldl

def diff (s t : NameSet) : NameSet := s.filter (fun x => decide (x ∉ t))

@[simp] theorem memDiff {s t : NameSet} {x : Name} : x ∈ s.diff t ↔ x ∈ s ∧ x ∉ t := by
  simp [diff]

def unions (ss : List NameSet) : NameSet := ss.foldr union ∅

@[simp] theorem memUnions {ss : List NameSet} {x : Name} : x ∈ unions ss ↔ ∃ s ∈ ss, x ∈ s := by
  induction ss with
  | nil => simp [unions]
  | cons s ss ih => simpa [unions] using or_congr_right ih

theorem nodup (s : NameSet) : s.toList.Nodup :=
  s.ascending.imp String.ne_of_lt

end NameSet

end Regalloc
