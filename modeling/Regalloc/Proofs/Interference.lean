import Regalloc.Interference
import Regalloc.Proofs.Liveness

/-! The interference graph holds exactly the kept names and their conflicts. Building it never
faults: a name that is written is never among the names it conflicts with. -/
namespace Regalloc

namespace Graph

variable {g h : Graph} {x : Name}

theorem getAdjacency :
    g.adjacency.get? x = if x ∈ g.vertices then some (g.neighbors x) else none := by
  have keys : x ∈ g.vertices ↔ ∃ neighbors, g.adjacency.get? x = some neighbors :=
    NameMap.memKeysIff
  cases found : g.adjacency.get? x <;> simp [keys, found, neighbors]

theorem equalOfMembers (vertices : ∀ x, x ∈ g.vertices ↔ x ∈ h.vertices)
    (neighbors : ∀ x y, y ∈ g.neighbors x ↔ y ∈ h.neighbors x) : g = h := by
  have same : g.adjacency = h.adjacency := NameMap.ext fun x => by
    rw [getAdjacency, getAdjacency, NameSet.ext (neighbors x)]
    simp [vertices]
  cases g
  cases h
  exact congrArg Graph.mk same

end Graph

namespace Interference

variable {t : Target} {p : Program} {flow : ControlFlow} {l : Liveness} {excluded : NameSet}
  {g : Graph} {x y : Name} {i : Nat}

theorem notMemVerticesEmpty : x ∉ (∅ : Graph).vertices := List.not_mem_nil

theorem foldlVertices {xs : List Name} :
    (x ∈ (xs.foldl Graph.addVertex g).vertices ↔ x ∈ xs ∨ x ∈ g.vertices) ∧
      (y ∈ (xs.foldl Graph.addVertex g).neighbors x ↔ y ∈ g.neighbors x) := by
  induction xs generalizing g with
  | nil => simp
  | cons z xs ih =>
    rw [List.foldl_cons, ih.1, ih.2]
    simp only [Graph.memVerticesAddVertex, Graph.neighborsAddVertex, List.mem_cons]
    exact ⟨or_left_comm.trans or_assoc.symm, trivial⟩

theorem addEdgeSource {next : Graph} {u v : Name} (ok : g.addEdge u v = .ok next) :
    u ≠ v ∧ (∀ x, x ∈ next.vertices ↔ x = u ∨ x = v ∨ x ∈ g.vertices) ∧
      ∀ x y, y ∈ next.neighbors x ↔ (x = u ∧ y = v) ∨ (x = v ∧ y = u) ∨ y ∈ g.neighbors x := by
  unfold Graph.addEdge at ok
  split at ok <;> try contradiction
  rename_i distinct
  cases Except.ok.inj ok
  refine ⟨distinct, fun x => ?_, fun x y => ?_⟩
  · simp only [Graph.memVerticesAddNeighbor]
    exact or_left_comm
  · simp only [Graph.memNeighborsAddNeighbor]
    exact or_left_comm

theorem foldlEdges {edges : List (Name × Name)} (distinct : ∀ e ∈ edges, e.1 ≠ e.2) :
    ∃ built, edges.foldlM (fun g edge => g.addEdge edge.1 edge.2) g = Except.ok built ∧
      (∀ x, x ∈ built.vertices ↔ (∃ e ∈ edges, x = e.1 ∨ x = e.2) ∨ x ∈ g.vertices) ∧
      ∀ x y, y ∈ built.neighbors x ↔ (x, y) ∈ edges ∨ (y, x) ∈ edges ∨ y ∈ g.neighbors x := by
  induction edges generalizing g with
  | nil => exact ⟨g, rfl, by simp, by simp⟩
  | cons edge edges ih =>
    obtain ⟨u, v⟩ := edge
    have apart : u ≠ v := distinct (u, v) List.mem_cons_self
    have step : g.addEdge u v = .ok ((g.addNeighbor u v).addNeighbor v u) := if_neg apart
    obtain ⟨_, vertices, neighbors⟩ := addEdgeSource step
    obtain ⟨built, ok, all, joined⟩ :=
      @ih ((g.addNeighbor u v).addNeighbor v u) fun e mem => distinct e (List.mem_cons_of_mem _ mem)
    refine ⟨built, ?_, fun x => ?_, fun x y => ?_⟩
    · rw [List.foldlM_cons, step]
      exact ok
    · rw [all, vertices]
      simp only [List.mem_cons, exists_eq_or_imp]
      grind
    · rw [joined, neighbors]
      simp only [List.mem_cons, Prod.mk.injEq]
      tauto

structure Conflict (l : Liveness) (i : Nat) (x y : Name) : Prop where
  killed : x ∈ l.kills i
  live : y ∈ l.liveOut i
  kept : y ∉ l.kills i

theorem Conflict.apart (conflict : Conflict l i x y) : x ≠ y :=
  fun same => conflict.kept (same ▸ conflict.killed)

theorem memConflictsAt :
    (x, y) ∈ conflictsAt t l excluded i ↔
      Conflict l i x y ∧ keeps t excluded x = true ∧ keeps t excluded y = true := by
  simp only [conflictsAt, List.mem_flatMap, List.mem_map, NameSet.memToList, NameSet.memFilter,
    NameSet.memDiff, Prod.mk.injEq]
  constructor
  · rintro ⟨u, ⟨killed, keepU⟩, v, ⟨⟨live, notKilled⟩, keepV⟩, rfl, rfl⟩
    exact ⟨⟨killed, live, fun mem => notKilled ⟨mem, keepV⟩⟩, keepU, keepV⟩
  · rintro ⟨⟨killed, live, kept⟩, keepX, keepY⟩
    exact ⟨x, ⟨killed, keepX⟩, y, ⟨⟨live, fun mem => kept mem.1⟩, keepY⟩, rfl, rfl⟩

theorem memConflicts :
    (x, y) ∈ conflicts t p l excluded ↔
      (∃ i < p.size, Conflict l i x y) ∧ keeps t excluded x = true ∧ keeps t excluded y = true := by
  simp only [conflicts, List.mem_flatMap, List.mem_range, memConflictsAt]
  constructor
  · rintro ⟨i, bound, conflict, kept⟩
    exact ⟨⟨i, bound, conflict⟩, kept⟩
  · rintro ⟨⟨i, bound, conflict⟩, kept⟩
    exact ⟨i, bound, conflict, kept⟩

theorem conflictsApart (t : Target) (p : Program) (l : Liveness) (excluded : NameSet)
    (e : Name × Name) (mem : e ∈ conflicts t p l excluded) : e.1 ≠ e.2 := by
  obtain ⟨⟨i, _, conflict⟩, _⟩ := memConflicts.mp (show (e.1, e.2) ∈ _ from mem)
  exact conflict.apart

theorem keepsIff : keeps t excluded x = true ↔ x ∉ excluded ∧ t.isReserved x = false := by
  simp [keeps]

theorem conflictNamed (bound : i < p.size) (conflict : Conflict (p.liveness flow) i x y) :
    x ∈ p.names ∧ y ∈ p.names := by
  have present : p.instructions[i]? = some p.instructions[i] := List.getElem?_eq_getElem bound
  have killed := (Program.killsAt present).mp conflict.killed
  exact ⟨Program.memNames.mpr ⟨_, List.getElem_mem bound, Instruction.registersInNamed killed⟩,
    Program.liveNamed (.inr conflict.live)⟩

structure Exact (t : Target) (p : Program) (l : Liveness) (excluded : NameSet) (g : Graph) :
    Prop where
  vertices : ∀ x, x ∈ g.vertices ↔ x ∈ p.names ∧ keeps t excluded x = true
  neighbors : ∀ x y, y ∈ g.neighbors x ↔
    (∃ i < p.size, Conflict l i x y ∨ Conflict l i y x) ∧
      keeps t excluded x = true ∧ keeps t excluded y = true

theorem Exact.unique {h : Graph} (left : Exact t p l excluded g) (right : Exact t p l excluded h) :
    g = h :=
  Graph.equalOfMembers (fun x => (left.vertices x).trans (right.vertices x).symm)
    fun x y => (left.neighbors x y).trans (right.neighbors x y).symm

end Interference

namespace Program

open Interference

theorem interferenceExact (p : Program) (t : Target) (flow : ControlFlow) (excluded : NameSet) :
    ∃ g, p.interference t (p.liveness flow) excluded = .ok g ∧
      Exact t p (p.liveness flow) excluded g := by
  obtain ⟨g, ok, vertices, neighbors⟩ := foldlEdges
    (g := (Interference.vertices t p excluded).toList.foldl Graph.addVertex ∅)
    (conflictsApart t p (p.liveness flow) excluded)
  refine ⟨g, ok, fun x => ?_, fun x y => ?_⟩
  · have base : x ∈ ((Interference.vertices t p excluded).toList.foldl Graph.addVertex ∅).vertices ↔
        x ∈ p.names ∧ keeps t excluded x = true := by
      rw [(foldlVertices (y := x)).1, NameSet.memToList, or_iff_left notMemVerticesEmpty]
      exact NameSet.memFilter
    rw [vertices, base]
    refine ⟨?_, .inr⟩
    rintro (⟨⟨u, v⟩, mem, same⟩ | kept)
    · obtain ⟨⟨i, bound, conflict⟩, keepU, keepV⟩ := memConflicts.mp mem
      have named := conflictNamed bound conflict
      rcases same with rfl | rfl
      · exact ⟨named.1, keepU⟩
      · exact ⟨named.2, keepV⟩
    · exact kept
  · rw [neighbors, (foldlVertices (x := x)).2, memConflicts, memConflicts]
    simp only [Graph.neighborsEmpty, NameSet.notMemEmpty, or_false]
    constructor
    · rintro (⟨⟨i, bound, conflict⟩, keepX, keepY⟩ | ⟨⟨i, bound, conflict⟩, keepY, keepX⟩)
      · exact ⟨⟨i, bound, .inl conflict⟩, keepX, keepY⟩
      · exact ⟨⟨i, bound, .inr conflict⟩, keepX, keepY⟩
    · rintro ⟨⟨i, bound, conflict | conflict⟩, keepX, keepY⟩
      · exact .inl ⟨⟨i, bound, conflict⟩, keepX, keepY⟩
      · exact .inr ⟨⟨i, bound, conflict⟩, keepY, keepX⟩

theorem interferenceSource {p : Program} {t : Target} {flow : ControlFlow} {excluded : NameSet}
    {g : Graph} (ok : p.interference t (p.liveness flow) excluded = .ok g) :
    Exact t p (p.liveness flow) excluded g := by
  obtain ⟨other, built, exact⟩ := interferenceExact p t flow excluded
  cases Except.ok.inj (ok.symm.trans built)
  exact exact

end Program

end Regalloc
