import Regalloc.Proofs.Interference

/-! Graphs as they are built, by adding vertices and edges one at a time. An edge from a name to
itself is refused, and the graph stays as it was. Whatever the steps, the graph is simple. -/
namespace Regalloc.Graph

inductive Step where
  | vertex (x : Name)
  | edge (x y : Name)
  deriving DecidableEq, Repr

def Step.apply (g : Graph) : Step → Graph
  | vertex x => g.addVertex x
  | edge x y =>
    match g.addEdge x y with
    | .ok next => next
    | .error _ => g

def build (steps : List Step) : Graph := steps.foldl Step.apply ∅

variable {g : Graph}

theorem simpleEmpty : (∅ : Graph).Simple :=
  ⟨fun _ _ joined => absurd joined NameSet.notMemEmpty, fun _ => NameSet.notMemEmpty,
    fun _ _ joined => absurd joined NameSet.notMemEmpty⟩

theorem Simple.addVertex (simple : g.Simple) (x : Name) : (g.addVertex x).Simple where
  symmetric u v joined := by
    rw [neighborsAddVertex] at joined ⊢
    exact simple.symmetric u v joined
  irreflexive u loop := by
    rw [neighborsAddVertex] at loop
    exact simple.irreflexive u loop
  closed u v joined := by
    rw [neighborsAddVertex] at joined
    exact memVerticesAddVertex.mpr (.inr (simple.closed u v joined))

theorem Simple.addEdge (simple : g.Simple) {x y : Name} {next : Graph}
    (ok : g.addEdge x y = .ok next) : next.Simple := by
  obtain ⟨apart, vertices, neighbors⟩ := Interference.addEdgeSource ok
  refine ⟨fun u v joined => ?_, fun u loop => ?_, fun u v joined => ?_⟩
  · rcases (neighbors u v).mp joined with ⟨rfl, rfl⟩ | ⟨rfl, rfl⟩ | old
    · exact (neighbors _ _).mpr (.inr (.inl ⟨rfl, rfl⟩))
    · exact (neighbors _ _).mpr (.inl ⟨rfl, rfl⟩)
    · exact (neighbors _ _).mpr (.inr (.inr (simple.symmetric u v old)))
  · rcases (neighbors u u).mp loop with ⟨rfl, same⟩ | ⟨rfl, same⟩ | old
    · exact apart same
    · exact apart same.symm
    · exact simple.irreflexive u old
  · rcases (neighbors u v).mp joined with ⟨_, rfl⟩ | ⟨_, rfl⟩ | old
    · exact (vertices _).mpr (.inr (.inl rfl))
    · exact (vertices _).mpr (.inl rfl)
    · exact (vertices v).mpr (.inr (.inr (simple.closed u v old)))

theorem Simple.apply (simple : g.Simple) (step : Step) : (step.apply g).Simple := by
  cases step with
  | vertex x => exact simple.addVertex x
  | edge x y =>
    dsimp only [Step.apply]
    split
    · exact simple.addEdge ‹_›
    · exact simple

theorem Simple.foldl (simple : g.Simple) (steps : List Step) :
    (steps.foldl Step.apply g).Simple := by
  induction steps generalizing g with
  | nil => exact simple
  | cons step steps ih => exact ih (simple.apply step)

theorem buildSimple (steps : List Step) : (build steps).Simple := simpleEmpty.foldl steps

end Regalloc.Graph
