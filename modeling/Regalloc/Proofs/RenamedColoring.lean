import Regalloc.Proofs.Renaming

/-! The built-in ways of coloring under a renaming that keeps the order of the vertices. Ties are
broken by the order of the names and by nothing else, so each vertex keeps its color. -/
namespace Regalloc

open NameSet (Increasing)

variable {σ : Name ≃ Name}

namespace NameMap

variable {m : NameMap Nat}

theorem foldlRename (entries : List (Name × Nat)) (best : Option (Name × Nat)) :
    (entries.map fun entry => (σ entry.1, entry.2)).foldl (fun best entry =>
      match best with
      | some top => if entry.2 ≤ top.2 then some top else some entry
      | none => some entry) (best.map fun entry => (σ entry.1, entry.2)) =
    (entries.foldl (fun best entry =>
      match best with
      | some top => if entry.2 ≤ top.2 then some top else some entry
      | none => some entry) best).map fun entry => (σ entry.1, entry.2) := by
  induction entries generalizing best with
  | nil => rfl
  | cons entry entries ih =>
    rw [List.map_cons, List.foldl_cons, List.foldl_cons, ← ih]
    cases best with
    | none => rfl
    | some top => by_cases low : entry.2 ≤ top.2 <;> simp [low]

theorem highestRename (increasing : Increasing σ m.keys) :
    (m.mapKeys σ).highest? = m.highest?.map σ := by
  unfold highest?
  rw [toListMapKeys increasing]
  refine (congrArg (Option.map Prod.fst) (foldlRename m.toList none)).trans ?_
  rw [Option.map_map, Option.map_map]
  rfl

end NameMap

namespace Graph

variable {g : Graph} {x y : Name}

def rename (f : Name → Name) (g : Graph) : Graph :=
  ⟨(g.adjacency.mapValues fun _ neighbors => neighbors.map f).mapKeys f⟩

theorem verticesRename : (g.rename σ).vertices = g.vertices.map σ := by
  ext y
  rw [vertices, rename, NameMap.memKeysMap, NameMap.memKeysMapValues, NameSet.memMap]
  rfl

theorem neighborsRename : (g.rename σ).neighbors y = (g.neighbors (σ.symm y)).map σ := by
  unfold neighbors rename
  rw [NameMap.getMapKeys, NameMap.getMapValues]
  cases g.adjacency.get? (σ.symm y) <;> rfl

theorem degreeRename : (g.rename σ).degree (σ x) = g.degree x := by
  simp [degree, neighborsRename]

theorem hasEdgeRename : (g.rename σ).hasEdge (σ x) y = g.hasEdge x (σ.symm y) := by
  simp [hasEdge, neighborsRename]

theorem degreesRename : (g.rename σ).degrees = g.degrees.mapKeys σ := by
  ext1 y
  simp [degrees, rename, Function.comp_def]

theorem mostConflictedRename (increasing : Increasing σ g.vertices) :
    (g.rename σ).mostConflicted? = g.mostConflicted?.map σ := by
  unfold mostConflicted?
  rw [degreesRename]
  exact NameMap.highestRename (increasing.mono fun x mem => memDegreesKeys.mp mem)

theorem lowestFreeRename {colors : NameMap Nat} (increasing : Increasing σ (g.neighbors x)) :
    (g.rename σ).lowestFree (colors.mapKeys σ) (σ x) = g.lowestFree colors x := by
  unfold lowestFree
  rw [neighborsRename, σ.symm_apply_apply, NameSet.toListMap increasing, List.filterMap_map]
  congr 1
  exact List.filterMap_congr fun y _ => by simp

theorem colorInOrderRename {order : List Name} (increasing : ∀ x, Increasing σ (g.neighbors x)) :
    (g.rename σ).colorInOrder (order.map σ) = (g.colorInOrder order).mapKeys σ := by
  have fold (colors : NameMap Nat) :
      (order.map σ).foldl (fun colors x => colors.insert x ((g.rename σ).lowestFree colors x))
          (colors.mapKeys σ) =
        (order.foldl (fun colors x => colors.insert x (g.lowestFree colors x)) colors).mapKeys σ := by
    induction order generalizing colors with
    | nil => rfl
    | cons x order ih =>
      rw [List.map_cons, List.foldl_cons, List.foldl_cons, lowestFreeRename (increasing x),
        NameMap.insertMapKeys, ih]
  exact fold ∅

end Graph

namespace Coloring

variable {c : Coloring} {g : Graph}

def rename (f : Name → Name) (c : Coloring) : Coloring := ⟨c.colors.mapKeys f, c.used⟩

theorem ofColorsRename (colors : NameMap Nat) :
    ofColors (colors.mapKeys σ) = (ofColors colors).rename σ := by
  have values : ((colors.mapKeys σ).toList.map Prod.snd).toFinset =
      (colors.toList.map Prod.snd).toFinset := by
    ext n
    rw [List.mem_toFinset, List.mem_toFinset, memValues, memValues]
    exact ⟨fun ⟨y, found⟩ => ⟨σ.symm y, by simpa using found⟩,
      fun ⟨x, found⟩ => ⟨σ x, by simpa using found⟩⟩
  simp only [ofColors, rename, countDistinctCard, values]

end Coloring

namespace Greedy

variable {g : Graph}

theorem placeRename (increasing : Increasing σ g.vertices) {x : Name} {ys : List Name}
    (vertex : x ∈ g.vertices) (vertices : ∀ y ∈ ys, y ∈ g.vertices) :
    place (g.rename σ) (σ x) (ys.map σ) = (place g x ys).map σ := by
  induction ys with
  | nil => rfl
  | cons y ys ih =>
    have below := increasing.ltIff vertex (vertices y List.mem_cons_self)
    have same : comesBefore (g.rename σ) (σ x) (σ y) = comesBefore g x y := by
      simp [comesBefore, Graph.degreeRename, below]
    rw [List.map_cons, place, place, same, ih fun y mem => vertices y (List.mem_cons_of_mem _ mem)]
    split <;> rfl

theorem orderRename (increasing : Increasing σ g.vertices) :
    order (g.rename σ) = (order g).map σ := by
  unfold order
  rw [Graph.verticesRename, NameSet.toListMap increasing, List.foldr_map]
  have inside : ∀ x ∈ g.vertices.toList, x ∈ g.vertices := fun _ mem => mem
  generalize g.vertices.toList = xs at inside
  induction xs with
  | nil => rfl
  | cons x xs ih =>
    have vertices : ∀ y ∈ xs, y ∈ g.vertices := fun y mem => inside y (List.mem_cons_of_mem _ mem)
    have placed : (xs.foldr (place g) []).Perm xs := by
      clear ih inside vertices
      induction xs with
      | nil => exact .refl _
      | cons x xs ih => exact (placePerm g x _).trans (ih.cons x)
    rw [List.foldr_cons, List.foldr_cons, ih vertices,
      placeRename increasing (inside x List.mem_cons_self) fun y mem =>
        vertices y (placed.mem_iff.mp mem)]

end Greedy

namespace Simplify

variable {g : Graph} {k : Nat} {degrees : NameMap Nat}

theorem pickRename (increasing : Increasing σ degrees.keys) :
    pick? k (degrees.mapKeys σ) = (pick? k degrees).map σ := by
  unfold pick?
  rw [NameMap.toListMapKeys increasing, List.find?_map, NameMap.highestRename increasing]
  simp only [Function.comp_def]
  cases degrees.toList.find? fun entry : Name × Nat => decide (entry.2 < k) <;> rfl

theorem removeRename {x : Name} :
    remove (g.rename σ) (σ x) (degrees.mapKeys σ) = (remove g x degrees).mapKeys σ := by
  ext1 y
  simp only [remove, NameMap.getMapValues, NameMap.eraseMapKeys, NameMap.getMapKeys,
    Graph.hasEdgeRename]

theorem removalsRename (increasing : Increasing σ degrees.keys) :
    removals (g.rename σ) k (degrees.mapKeys σ) = (removals g k degrees).map σ := by
  fun_induction removals g k degrees with
  | case1 degrees none =>
    rw [removals]
    split
    · rfl
    · rename_i picked
      rw [pickRename increasing, none] at picked
      contradiction
  | case2 degrees x picked ih =>
    have rest := ih (increasing.mono fun y mem => (memKeysRemove.mp mem).2)
    rw [removals]
    split
    · rename_i none
      rw [pickRename increasing, picked] at none
      contradiction
    · rename_i y same
      rw [pickRename increasing, picked] at same
      cases Option.some.inj same
      rw [removeRename, rest, List.map_cons]

end Simplify

namespace Colorer

variable {colorer : Colorer} {g : Graph}

theorem builtInRename (builtIn : colorer.BuiltIn) (simple : g.Simple)
    (increasing : Increasing σ g.vertices) :
    colorer.color (g.rename σ) = (colorer.color g).rename σ := by
  have neighbors (x : Name) : Increasing σ (g.neighbors x) := increasing.mono (simple.closed x)
  cases builtIn with
  | greedy =>
    simp only [greedy]
    rw [Greedy.orderRename increasing, Graph.colorInOrderRename neighbors, Coloring.ofColorsRename]
  | simplify k =>
    simp only [simplify]
    rw [Graph.degreesRename,
      Simplify.removalsRename (increasing.mono fun x mem => Graph.memDegreesKeys.mp mem),
      ← List.map_reverse, Graph.colorInOrderRename neighbors, Coloring.ofColorsRename]

end Colorer

end Regalloc
