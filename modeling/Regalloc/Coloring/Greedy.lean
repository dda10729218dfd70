import Regalloc.Coloring

/-! Greedy coloring: vertices of higher degree first, and by name among those of one degree. -/
namespace Regalloc

namespace Greedy

def comesBefore (g : Graph) (x y : Name) : Bool :=
  decide (g.degree y < g.degree x ∨ (g.degree x = g.degree y ∧ x < y))

def place (g : Graph) (x : Name) : List Name → List Name
  | [] => [x]
  | y :: ys => if comesBefore g x y then x :: y :: ys else y :: place g x ys

def order (g : Graph) : List Name := g.vertices.toList.foldr (place g) []

end Greedy

def Colorer.greedy : Colorer :=
  ⟨"greedy", fun g => Coloring.ofColors (g.colorInOrder (Greedy.order g))⟩

end Regalloc
