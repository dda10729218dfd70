import Mathlib.Data.List.Chain
import Mathlib.Logic.Function.Iterate
import Regalloc.Proofs.PathLiveness

/-! How many passes liveness takes. What a path of so many instructions leads to a read of is known
after as many passes, and a shortest such path meets no instruction twice. What is live after an
instruction can be known one pass later, so of `n` instructions pass `n + 2` learns nothing. -/
namespace Regalloc

namespace Liveness

inductive Settles (nodes : List Node) : List Facts → List Facts → Nat → Prop where
  | still {table} (same : sweep nodes table = table) : Settles nodes table table 1
  | again {table final k} (changes : sweep nodes table ≠ table)
      (rest : Settles nodes (sweep nodes table) final k) : Settles nodes table final (k + 1)

variable {nodes : List Node} {table final : List Facts} {i k : Nat} {x : Name}

theorem settleSettles (supported : Supported nodes table)
    (named : Named (NameSet.unions (nodes.map Node.gens)) table) :
    Settles nodes table (settle nodes table).1 (settle nodes table).2 := by
  fun_induction settle nodes table with
  | case1 table swept more final passes settled ih =>
    have rest := ih (sweepSupported supported).1 (sweepNamed (gensNamed nodes) named)
    rw [settled] at rest
    refine .again (fun same => ?_) rest
    have less : room nodes (sweep nodes table) < room nodes table := more
    rw [same] at less
    exact Nat.lt_irrefl _ less
  | case2 table swept full =>
    have same : swept = table := sweepSame supported named full
    rw [same]
    exact .still same

theorem Settles.passesLe (settles : Settles nodes table final k)
    (same : (sweep nodes)^[i + 1] table = (sweep nodes)^[i] table) : k ≤ i + 1 := by
  induction settles generalizing i with
  | still _ => omega
  | again changes _ ih =>
    cases i with
    | zero => exact absurd same changes
    | succ i => exact Nat.succ_le_succ (ih same)

def after (nodes : List Node) (k : Nat) : List Facts := (sweep nodes)^[k] (start nodes)

theorem afterNext (nodes : List Node) (k : Nat) : after nodes (k + 1) = sweep nodes (after nodes k) :=
  Function.iterate_succ_apply' ..

theorem afterSupported (nodes : List Node) (k : Nat) : Supported nodes (after nodes k) := by
  induction k with
  | zero => exact startSupported nodes
  | succ k ih => exact afterNext nodes k ▸ (sweepSupported ih).1

theorem afterGrows (nodes : List Node) (k : Nat) : Grows (after nodes k) (after nodes (k + 1)) :=
  afterNext nodes k ▸ (sweepSupported (afterSupported nodes k)).2.1

theorem afterCovers (nodes : List Node) (k : Nat) {node : Node} (found : nodes[i]? = some node) :
    Facts.Within (transfer node (after nodes k)) (factsAt (after nodes (k + 1)) i) :=
  afterNext nodes k ▸ (sweepSupported (afterSupported nodes k)).2.2 i node found

theorem afterBounded {before later : Nat → Name → Prop}
    (closed : ∀ i node, nodes[i]? = some node → ClosedAt before later i node) (k : Nat) :
    Bounded before later (after nodes k) := by
  induction k with
  | zero => exact startBounded before later nodes
  | succ k ih => exact afterNext nodes k ▸ sweepBounded closed ih

end Liveness

theorem Path.simple {succs : Nat → List Nat} {i j : Nat} {path : List Nat}
    (leads : Path succs i j path) :
    ∃ short, Path succs i j short ∧ short.Nodup ∧ ∀ k ∈ short.dropLast, k ∈ path.dropLast := by
  induction path generalizing i with
  | nil => exact absurd leads.first (by simp)
  | cons a path ih =>
    rcases leads.cases with ⟨rfl, _⟩ | ⟨next, rest, same, edge, beyond⟩
    · exact ⟨_, .single _, List.nodup_singleton _, fun _ absent => nomatch absent⟩
    · obtain ⟨rfl, rfl⟩ := List.cons.inj same
      obtain ⟨short, leads, nodup, inside⟩ := ih beyond
      rw [beyond.dropLastCons]
      by_cases again : a ∈ short
      · -- The path comes back to where it starts, so it can start there.
        obtain ⟨front, back, rfl⟩ := List.append_of_mem again
        obtain ⟨_, last, along⟩ := leads
        refine ⟨a :: back, ⟨rfl, ?_, (List.isChain_append.mp along).2.1⟩, nodup.of_append_right,
          fun k mem => ?_⟩
        · rwa [List.getLast?_append_of_ne_nil _ (by simp)] at last
        · refine List.mem_cons_of_mem _ (inside k ?_)
          rw [List.dropLast_append_of_ne_nil (by simp)]
          exact List.mem_append_right _ mem
      · refine ⟨a :: short, .cons edge leads, List.nodup_cons.mpr ⟨again, nodup⟩, fun k mem => ?_⟩
        rw [leads.dropLastCons] at mem
        rcases List.mem_cons.mp mem with rfl | later
        · exact List.mem_cons_self
        · exact List.mem_cons_of_mem _ (inside k later)

namespace Program

open Liveness (after factsAt)

variable {p : Program} {flow : ControlFlow} {i j k : Nat} {x : Name} {path : List Nat}

theorem knownAfter (flows : p.controlFlow = .ok flow) (leads : Path flow.succsAt i j path)
    (read : p.Reads j x) (unwritten : ∀ k ∈ path.dropLast, ¬ p.Writes k x)
    (length : path.length ≤ k) : x ∈ (factsAt (after (p.nodes flow) k) i).liveIn := by
  induction path generalizing i k with
  | nil => exact absurd leads.first (by simp)
  | cons a path ih =>
    obtain ⟨k, rfl⟩ : ∃ before, k = before + 1 := Nat.exists_eq_add_one.mpr (by simp at length; omega)
    rcases leads.cases with ⟨rfl, _⟩ | ⟨next, rest, same, edge, beyond⟩
    · obtain ⟨inst, present, gen⟩ := read
      refine (Liveness.afterCovers _ k (nodeAt present)).before x (Liveness.memTransferIn.mpr ?_)
      exact .inr (NameSet.memOfList.mpr gen)
    · obtain ⟨rfl, rfl⟩ := List.cons.inj same
      rw [beyond.dropLastCons] at unwritten
      have later := ih beyond (fun k mem => unwritten k (List.mem_cons_of_mem _ mem))
        (Nat.le_of_succ_le_succ length)
      obtain ⟨inst, present, _⟩ := succSource flows edge
      have kept : x ∉ inst.kills := fun killed =>
        unwritten a List.mem_cons_self ((writesAt present).mpr killed)
      refine (Liveness.afterCovers _ k (nodeAt present)).before x (Liveness.memTransferIn.mpr ?_)
      exact .inl ⟨Liveness.memTransferOut.mpr ⟨next, edge, later⟩, fun mem =>
        kept (NameSet.memOfList.mp mem)⟩

theorem lengthLeSize (nodup : path.Nodup)
    (present : ∀ k ∈ path, ∃ inst, p.instructions[k]? = some inst) : path.length ≤ p.size := by
  have inside : path ⊆ List.range p.size := fun k mem => by
    obtain ⟨inst, found⟩ := present k mem
    exact List.mem_range.mpr (List.getElem?_eq_some_iff.mp found).1
  simpa using (List.subperm_of_subset nodup inside).length_le

theorem knownOfNeeded (flows : p.controlFlow = .ok flow) (needed : p.Needed flow i x)
    (enough : p.size ≤ k) : x ∈ (factsAt (after (p.nodes flow) k) i).liveIn := by
  obtain ⟨j, path, leads, read, unwritten⟩ := needed
  obtain ⟨short, leads, nodup, inside⟩ := leads.simple
  obtain ⟨inst, present, gen⟩ := read
  have length := lengthLeSize nodup (pathPresent flows leads ⟨inst, present⟩)
  exact knownAfter flows leads ⟨inst, present, gen⟩ (fun k mem => unwritten k (inside k mem))
    (Nat.le_trans length enough)

theorem lastPass (flows : p.controlFlow = .ok flow) :
    after (p.nodes flow) (p.size + 2) = after (p.nodes flow) (p.size + 1) := by
  refine (Liveness.Grows.antisymm (Liveness.afterGrows _ _) ⟨?_, fun i => ⟨fun x live => ?_,
    fun x live => ?_⟩⟩).symm
  · rw [(Liveness.afterSupported _ _).length, (Liveness.afterSupported _ _).length]
  · have needed := (Liveness.afterBounded neededClosed _).liveIn i x live
    exact knownOfNeeded flows needed (Nat.le_succ _)
  · obtain ⟨next, edge, needed⟩ := (Liveness.afterBounded neededClosed _).liveOut i x live
    obtain ⟨inst, present, _⟩ := succSource flows edge
    have known := knownOfNeeded flows needed (Nat.le_refl _)
    exact (Liveness.afterCovers _ _ (nodeAt present)).after x
      (Liveness.memTransferOut.mpr ⟨next, edge, known⟩)

theorem passesBounded (flows : p.controlFlow = .ok flow) :
    (∀ k, Liveness.Grows (after (p.nodes flow) k) (after (p.nodes flow) (k + 1))) ∧
    Liveness.Settles (p.nodes flow) (Liveness.start (p.nodes flow)) (p.liveness flow).table
      (p.liveness flow).passes ∧
    (p.liveness flow).passes ≤ p.size + 2 := by
  have settles : Liveness.Settles (p.nodes flow) (Liveness.start (p.nodes flow))
      (p.liveness flow).table (p.liveness flow).passes :=
    Liveness.settleSettles (Liveness.startSupported _) (Liveness.startNamed _ _)
  exact ⟨Liveness.afterGrows _, settles, settles.passesLe (lastPass flows)⟩

theorem branchPasses : ∃ p flow, Program.parse "loop: JNEQ x y loop\n" 0 = .ok p ∧
    p.controlFlow = .ok flow ∧ p.size = 1 ∧ (p.liveness flow).passes = 3 ∧
    Liveness.Settles (p.nodes flow) (Liveness.start (p.nodes flow)) (p.liveness flow).table
      (p.liveness flow).passes ∧
    (p.liveness flow).passes ≤ p.size + 2 := by
  have ran : (Program.parse "loop: JNEQ x y loop\n" 0).toOption.any (fun p =>
      p.controlFlow.toOption.any fun flow => decide (
        p.size = 1 ∧ (p.liveness flow).passes = 3)) = true := by
    decide +kernel
  obtain ⟨p, parsed, ran⟩ := Allocation.okOf ran
  obtain ⟨flow, flows, ran⟩ := Allocation.okOf ran
  obtain ⟨size, three⟩ := of_decide_eq_true ran
  obtain ⟨_, settles, bound⟩ := passesBounded flows
  exact ⟨p, flow, parsed, flows, size, three, settles, bound⟩

end Program

end Regalloc
