import Mathlib.Combinatorics.SimpleGraph.DegreeSum
import Mathlib.Data.Set.Card
import Regalloc.Proofs.Coloring
import Regalloc.Proofs.GraphSteps

/-! What is in a graph that was built by steps: the names and the edges that were added, and no
others. Each edge counts once at either end, so that half of the sum of the degrees is the number of
edges. -/
namespace Regalloc

instance (s : NameSet) : Fintype {x // x ∈ s} := Fintype.subtype s.toList.toFinset (by simp)

namespace Graph

variable {g : Graph} {steps : List Step} {step : Step} {x y : Name}

theorem addEdgeApart (apart : x ≠ y) : g.addEdge x y = .ok ((Step.edge x y).apply g) := by
  simp only [Step.apply, addEdge, if_neg apart]

theorem addEdgeLoop (g : Graph) (x : Name) : g.addEdge x x = .error .selfLoop := if_pos rfl

theorem applyLoop (g : Graph) (x : Name) : (Step.edge x x).apply g = g := by
  simp only [Step.apply, addEdgeLoop]

theorem memNeighborsApply : y ∈ (step.apply g).neighbors x ↔
    (x ≠ y ∧ (step = .edge x y ∨ step = .edge y x)) ∨ y ∈ g.neighbors x := by
  cases step with
  | vertex u => simp [Step.apply]
  | edge u v =>
    by_cases same : u = v
    · subst same
      simp only [applyLoop, Step.edge.injEq]
      grind
    · rw [(Interference.addEdgeSource (addEdgeApart same)).2.2]
      simp only [Step.edge.injEq]
      grind

theorem memVerticesApply : x ∈ (step.apply g).vertices ↔
    (step = .vertex x ∨ ∃ y, x ≠ y ∧ (step = .edge x y ∨ step = .edge y x)) ∨ x ∈ g.vertices := by
  cases step with
  | vertex u => simp [Step.apply, eq_comm]
  | edge u v =>
    by_cases same : u = v
    · subst same
      simp only [applyLoop, Step.edge.injEq]
      grind
    · rw [(Interference.addEdgeSource (addEdgeApart same)).2.1]
      constructor
      · rintro (rfl | rfl | old)
        · exact .inl (.inr ⟨v, same, .inl rfl⟩)
        · exact .inl (.inr ⟨u, Ne.symm same, .inr rfl⟩)
        · exact .inr old
      · rintro ((added | ⟨y, _, added | added⟩) | old)
        · contradiction
        · exact .inl (Step.edge.inj added).1.symm
        · exact .inr (.inl (Step.edge.inj added).2.symm)
        · exact .inr (.inr old)

theorem memNeighborsFoldl : y ∈ (steps.foldl Step.apply g).neighbors x ↔
    (x ≠ y ∧ (.edge x y ∈ steps ∨ .edge y x ∈ steps)) ∨ y ∈ g.neighbors x := by
  induction steps generalizing g with
  | nil => simp
  | cons step steps ih =>
    rw [List.foldl_cons, ih, memNeighborsApply]
    simp only [List.mem_cons]
    grind

theorem memVerticesFoldl : x ∈ (steps.foldl Step.apply g).vertices ↔
    (.vertex x ∈ steps ∨ ∃ y, x ≠ y ∧ (.edge x y ∈ steps ∨ .edge y x ∈ steps)) ∨
      x ∈ g.vertices := by
  induction steps generalizing g with
  | nil => simp
  | cons step steps ih =>
    rw [List.foldl_cons, ih, memVerticesApply]
    simp only [List.mem_cons]
    grind

theorem memNeighborsBuild : y ∈ (build steps).neighbors x ↔
    x ≠ y ∧ (.edge x y ∈ steps ∨ .edge y x ∈ steps) := by
  simp [build, memNeighborsFoldl]

theorem memVerticesBuild : x ∈ (build steps).vertices ↔
    .vertex x ∈ steps ∨ ∃ y, x ≠ y ∧ (.edge x y ∈ steps ∨ .edge y x ∈ steps) := by
  rw [build, memVerticesFoldl, or_iff_left Interference.notMemVerticesEmpty]

theorem buildAppend (steps later : List Step) :
    build (steps ++ later) = later.foldl Step.apply (build steps) := List.foldl_append

def pairs (g : Graph) : Set (Sym2 Name) := {e | ∃ x y, e = s(x, y) ∧ y ∈ g.neighbors x}

def network (g : Graph) (simple : g.Simple) : SimpleGraph {x // x ∈ g.vertices} where
  Adj x y := y.val ∈ g.neighbors x.val
  symm := ⟨fun x y => simple.symmetric x y⟩
  loopless := ⟨fun x => simple.irreflexive x⟩

instance (simple : g.Simple) : DecidableRel (g.network simple).Adj :=
  fun x y => inferInstanceAs (Decidable (y.val ∈ g.neighbors x.val))

theorem degreeSumVertices (g : Graph) : g.degreeSum = (g.vertices.toList.map g.degree).sum := by
  rw [degreeSum, adjacencyVertices, List.foldr_map, List.sum_eq_foldr, List.foldr_map]
  rfl

theorem networkDegree (simple : g.Simple) (v : {x // x ∈ g.vertices}) :
    (g.network simple).degree v = g.degree v := by
  have image : ((g.network simple).neighborFinset v).map (Function.Embedding.subtype _) =
      (g.neighbors v).toList.toFinset := by
    ext y
    simp only [Finset.mem_map, SimpleGraph.mem_neighborFinset, List.mem_toFinset]
    exact ⟨fun ⟨_, joined, same⟩ => same ▸ joined,
      fun joined => ⟨⟨y, simple.closed v y joined⟩, joined, rfl⟩⟩
  rw [← SimpleGraph.card_neighborFinset_eq_degree, ← Finset.card_map, image,
    List.toFinset_card_of_nodup (NameSet.nodup _)]
  rfl

theorem degreeSumTwice (simple : g.Simple) :
    g.degreeSum = 2 * (g.network simple).edgeFinset.card := by
  calc g.degreeSum = ∑ x ∈ g.vertices.toList.toFinset, g.degree x := by
        rw [degreeSumVertices, List.sum_toFinset _ g.vertices.nodup]
    _ = ∑ v : {x // x ∈ g.vertices}, g.degree v := Finset.sum_subtype _ (by simp) _
    _ = ∑ v, (g.network simple).degree v := by simp only [networkDegree]
    _ = 2 * (g.network simple).edgeFinset.card := SimpleGraph.sum_degrees_eq_twice_card_edges _

theorem pairsEdges (simple : g.Simple) :
    g.pairs = Sym2.map Subtype.val '' (g.network simple).edgeSet := by
  ext e
  constructor
  · rintro ⟨x, y, rfl, joined⟩
    exact ⟨s(⟨x, vertexOfNeighbor joined⟩, ⟨y, simple.closed x y joined⟩), joined, rfl⟩
  · rintro ⟨edge, joined, rfl⟩
    obtain ⟨x, y⟩ := edge
    exact ⟨x, y, rfl, joined⟩

theorem edgeCountPairs (simple : g.Simple) :
    2 * g.edgeCount = g.degreeSum ∧ g.pairs.encard = g.edgeCount := by
  have twice := degreeSumTwice simple
  have half : g.edgeCount = (g.network simple).edgeFinset.card := by
    unfold edgeCount
    omega
  refine ⟨by omega, ?_⟩
  rw [half, pairsEdges simple, (Sym2.map.injective Subtype.val_injective).encard_image,
    Set.encard_eq_coe_toFinset_card]
  rfl

theorem degreeJoined (simple : g.Simple) (x : Name) :
    g.degree x = (g.vertices.filter (g.hasEdge x)).size := by
  have same : g.neighbors x = g.vertices.filter (g.hasEdge x) := by
    ext y
    simpa [hasEdge] using simple.closed x y
  rw [degree, same]

theorem hasEdgeIff : g.hasEdge x y = true ↔ y ∈ g.neighbors x := decide_eq_true_iff

theorem builtAsAdded (steps : List Step) :
    let g := build steps
    (∀ x y, g.hasEdge x y = g.hasEdge y x) ∧
    (∀ x, g.hasEdge x x = false) ∧
    (∀ x y, g.hasEdge x y = true → y ∈ g.vertices) ∧
    (∀ x, x ∈ g.vertices ↔
      .vertex x ∈ steps ∨ ∃ y, x ≠ y ∧ (.edge x y ∈ steps ∨ .edge y x ∈ steps)) ∧
    (∀ x y, g.hasEdge x y = true ↔ x ≠ y ∧ (.edge x y ∈ steps ∨ .edge y x ∈ steps)) ∧
    (∀ later x, x ∈ g.vertices → x ∈ (build (steps ++ later)).vertices) ∧
    (∀ later x y, g.hasEdge x y = true → (build (steps ++ later)).hasEdge x y = true) ∧
    (∀ x, g.addEdge x x = .error .selfLoop ∧ build (steps ++ [.edge x x]) = g) ∧
    (∀ x y, x ≠ y → g.addEdge x y = .ok (build (steps ++ [.edge x y]))) ∧
    (∀ x, g.degree x = (g.vertices.filter (g.hasEdge x)).size) ∧
    g.degreeSum = (g.vertices.toList.map g.degree).sum ∧
    2 * g.edgeCount = g.degreeSum ∧
    g.pairs.encard = g.edgeCount := by
  intro g
  have simple : g.Simple := buildSimple steps
  obtain ⟨twice, counted⟩ := edgeCountPairs simple
  refine ⟨fun x y => ?_, fun x => ?_, fun x y edge => simple.closed x y (hasEdgeIff.mp edge),
    fun x => memVerticesBuild, fun x y => hasEdgeIff.trans memNeighborsBuild,
    fun later x vertex => ?_, fun later x y edge => ?_, fun x => ⟨addEdgeLoop g x, ?_⟩,
    fun x y apart => ?_, degreeJoined simple, degreeSumVertices g, twice, counted⟩
  · rw [Bool.eq_iff_iff, hasEdgeIff, hasEdgeIff]
    exact ⟨simple.symmetric x y, simple.symmetric y x⟩
  · exact decide_eq_false (simple.irreflexive x)
  · rw [buildAppend]
    exact memVerticesFoldl.mpr (.inr vertex)
  · rw [buildAppend, hasEdgeIff]
    exact memNeighborsFoldl.mpr (.inr (hasEdgeIff.mp edge))
  · rw [buildAppend]
    exact applyLoop g x
  · rw [buildAppend]
    exact addEdgeApart apart

theorem doubledEdgeCounted :
    let g := build [.edge "a" "b", .edge "a" "a", .vertex "c", .edge "b" "a"]
    g.vertices.toList = ["a", "b", "c"] ∧ g.hasEdge "a" "a" = false ∧ g.edgeCount = 1 ∧
      g.pairs.encard = 1 ∧ (g.vertices.filter (g.hasEdge "b")).size = 1 := by
  intro g
  obtain ⟨_, loopless, _, _, _, _, _, _, _, degrees, _, _, counted⟩ :=
    builtAsAdded [.edge "a" "b", .edge "a" "a", .vertex "c", .edge "b" "a"]
  have one : g.edgeCount = 1 := by decide +kernel
  refine ⟨by decide +kernel, loopless "a", one, ?_, ?_⟩
  · rw [counted, one]
    rfl
  · rw [← degrees "b"]
    decide +kernel

end Graph

end Regalloc
