import Regalloc.Coloring

/-!
Coloring by removal: vertices leave the graph one at a time, first by name of those with fewer than
`k` neighbors left, or, where there is none, of those with the most. They are colored in reverse.
-/
namespace Regalloc

namespace Simplify

def pick? (k : Nat) (degrees : NameMap Nat) : Option Name :=
  match degrees.toList.find? (fun entry => entry.2 < k) with
  | some entry => some entry.1
  | none => degrees.highest?

theorem pickMember {k : Nat} {degrees : NameMap Nat} {x : Name} (picked : pick? k degrees = some x) :
    x ∈ degrees.keys := by
  unfold pick? at picked
  split at picked
  · rename_i entry found
    cases Option.some.inj picked
    exact List.mem_map.mpr ⟨entry, List.mem_of_find?_eq_some found, rfl⟩
  · exact NameMap.highestMember picked

def remove (g : Graph) (x : Name) (degrees : NameMap Nat) : NameMap Nat :=
  (degrees.erase x).mapValues fun y degree => if g.hasEdge x y then degree - 1 else degree

theorem sizeRemoveLt {g : Graph} {x : Name} {degrees : NameMap Nat} (h : x ∈ degrees.keys) :
    (remove g x degrees).size < degrees.size := by
  simpa [remove] using NameMap.sizeEraseLt h

def removals (g : Graph) (k : Nat) (degrees : NameMap Nat) : List Name :=
  match _ : pick? k degrees with
  | none => []
  | some x => x :: removals g k (remove g x degrees)
termination_by degrees.size
decreasing_by exact sizeRemoveLt (pickMember ‹_›)

end Simplify

def Colorer.simplify (k : Nat) : Colorer :=
  ⟨"simplify", fun g =>
    Coloring.ofColors (g.colorInOrder (Simplify.removals g k g.degrees).reverse)⟩

end Regalloc
