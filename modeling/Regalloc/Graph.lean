import Regalloc.Fault
import Regalloc.NameMap

/-!
Undirected graphs on names, kept as the neighbors of each vertex. `Simple` says what every graph
built from vertices and edges is: symmetric, without loops, and closed.
-/
namespace Regalloc

structure Graph where
  adjacency : NameMap NameSet
  deriving DecidableEq, Repr

namespace Graph

instance : EmptyCollection Graph := ⟨⟨∅⟩⟩

instance : Inhabited Graph := ⟨∅⟩

def vertices (g : Graph) : NameSet := g.adjacency.keys

def size (g : Graph) : Nat := g.adjacency.size

def neighbors (g : Graph) (x : Name) : NameSet := (g.adjacency.get? x).getD ∅

def degree (g : Graph) (x : Name) : Nat := (g.neighbors x).size

def hasEdge (g : Graph) (x y : Name) : Bool := decide (y ∈ g.neighbors x)

def degreeSum (g : Graph) : Nat :=
  g.adjacency.toList.foldr (fun (_, neighbors) n => neighbors.size + n) 0

def edgeCount (g : Graph) : Nat := g.degreeSum / 2

def addVertex (g : Graph) (x : Name) : Graph := ⟨g.adjacency.insert x (g.neighbors x)⟩

def addNeighbor (g : Graph) (x y : Name) : Graph :=
  ⟨g.adjacency.insert x ((g.neighbors x).insert y)⟩

def addEdge (g : Graph) (x y : Name) : Except Fault Graph :=
  if x = y then .error .selfLoop else .ok ((g.addNeighbor x y).addNeighbor y x)

def degrees (g : Graph) : NameMap Nat := g.adjacency.mapValues fun _ neighbors => neighbors.size

def mostConflicted? (g : Graph) : Option Name := g.degrees.highest?

structure Simple (g : Graph) : Prop where
  symmetric : ∀ x y, y ∈ g.neighbors x → x ∈ g.neighbors y
  irreflexive : ∀ x, x ∉ g.neighbors x
  closed : ∀ x y, y ∈ g.neighbors x → y ∈ g.vertices

@[simp] theorem neighborsEmpty (x : Name) : (∅ : Graph).neighbors x = ∅ := rfl

@[simp] theorem neighborsAddVertex (g : Graph) (x y : Name) :
    (g.addVertex x).neighbors y = g.neighbors y := by
  by_cases h : y = x <;> simp [addVertex, neighbors, h]

@[simp] theorem memNeighborsAddNeighbor {g : Graph} {x y u v : Name} :
    v ∈ (g.addNeighbor x y).neighbors u ↔ (u = x ∧ v = y) ∨ v ∈ g.neighbors u := by
  by_cases h : u = x
  · subst h
    simp [addNeighbor, neighbors]
  · simp [addNeighbor, neighbors, h]

@[simp] theorem memVerticesAddVertex {g : Graph} {x u : Name} :
    u ∈ (g.addVertex x).vertices ↔ u = x ∨ u ∈ g.vertices := NameMap.memKeysInsert

@[simp] theorem memVerticesAddNeighbor {g : Graph} {x y u : Name} :
    u ∈ (g.addNeighbor x y).vertices ↔ u = x ∨ u ∈ g.vertices := NameMap.memKeysInsert

end Graph

end Regalloc
