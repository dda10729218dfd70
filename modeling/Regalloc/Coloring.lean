import Regalloc.Graph

/-!
Colorings of a graph and the check that a coloring is proper: every vertex has a color, and no edge
joins two names of one color. A way of coloring is a function of the graph alone.
-/
namespace Regalloc

/-- `used` is what the maker of the coloring gives as the number of colors in use. -/
structure Coloring where
  colors : NameMap Nat
  used : Nat
  deriving DecidableEq, Repr

def countDistinct : List Nat → Nat
  | [] => 0
  | n :: ns => if n ∈ ns then countDistinct ns else countDistinct ns + 1

namespace Coloring

def ofColors (colors : NameMap Nat) : Coloring :=
  ⟨colors, countDistinct (colors.toList.map Prod.snd)⟩

def get? (c : Coloring) (x : Name) : Option Nat := c.colors.get? x

structure Proper (g : Graph) (c : Coloring) : Prop where
  total : ∀ x ∈ g.vertices, ∃ color, c.get? x = some color
  proper : ∀ x y, y ∈ g.neighbors x → c.get? x ≠ c.get? y

def violationAt (c : Coloring) (x : Name) (neighbors : NameSet) : Option Fault :=
  match c.get? x with
  | none => some (.uncolored x)
  | some color =>
    (neighbors.toList.find? (fun y => c.get? y == some color)).map fun y => .clash x y color

def violation? (c : Coloring) (g : Graph) : Option Fault :=
  g.adjacency.toList.findSome? fun (x, neighbors) => c.violationAt x neighbors

end Coloring

structure Colorer where
  name : String
  color : Graph → Coloring

def Colorer.fixed (c : Coloring) : Colorer := ⟨"fixed", fun _ => c⟩

def leastMissing (taken : List Nat) : Nat :=
  ((List.range (taken.length + 1)).find? (fun n => n ∉ taken)).getD 0

def Graph.lowestFree (g : Graph) (colors : NameMap Nat) (x : Name) : Nat :=
  leastMissing ((g.neighbors x).toList.filterMap colors.get?)

def Graph.colorInOrder (g : Graph) (order : List Name) : NameMap Nat :=
  order.foldl (fun colors x => colors.insert x (g.lowestFree colors x)) ∅

end Regalloc
