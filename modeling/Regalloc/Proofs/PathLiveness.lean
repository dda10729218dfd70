import Regalloc.Proofs.LiveTogether

/-! Live names along paths. A name is live before an instruction just when a path leads from there
to an instruction that reads it, and no instruction on the way writes it. So the table of live names
is the least one that satisfies both equations. -/
namespace Regalloc

structure Path (succs : Nat → List Nat) (i j : Nat) (path : List Nat) : Prop where
  first : path.head? = some i
  last : path.getLast? = some j
  along : path.IsChain fun a b => b ∈ succs a

namespace Path

variable {succs : Nat → List Nat} {i j k : Nat} {path : List Nat}

theorem single (i : Nat) : Path succs i i [i] := ⟨rfl, rfl, .singleton i⟩

theorem cons (edge : k ∈ succs i) (path_ : Path succs k j path) : Path succs i j (i :: path) := by
  obtain ⟨first, last, along⟩ := path_
  obtain ⟨rest, rfl⟩ := List.head?_eq_some_iff.mp first
  exact ⟨rfl, by rwa [List.getLast?_cons_cons], .cons_cons edge along⟩

theorem cases (path_ : Path succs i j path) :
    (i = j ∧ path = [i]) ∨ ∃ k rest, path = i :: rest ∧ k ∈ succs i ∧ Path succs k j rest := by
  obtain ⟨first, last, along⟩ := path_
  obtain ⟨rest, rfl⟩ := List.head?_eq_some_iff.mp first
  cases rest with
  | nil => exact .inl ⟨Option.some.inj last, rfl⟩
  | cons k rest =>
    obtain ⟨edge, along⟩ := List.isChain_cons_cons.mp along
    rw [List.getLast?_cons_cons] at last
    exact .inr ⟨k, k :: rest, rfl, edge, rfl, last, along⟩

theorem dropLastCons (path_ : Path succs k j path) : (i :: path).dropLast = i :: path.dropLast := by
  obtain ⟨rest, rfl⟩ := List.head?_eq_some_iff.mp path_.first
  rfl

end Path

namespace Program

variable {p : Program} {flow : ControlFlow} {i j : Nat} {x : Name} {path : List Nat}

def Writes (p : Program) (i : Nat) (x : Name) : Prop := ∃ inst ∈ p.instructions[i]?, x ∈ inst.kills

def Reads (p : Program) (i : Nat) (x : Name) : Prop := ∃ inst ∈ p.instructions[i]?, x ∈ inst.gens

structure Solution (p : Program) (flow : ControlFlow) (before after : Nat → Name → Prop) : Prop where
  liveOut : ∀ i < p.size, ∀ x, after i x ↔ ∃ s ∈ flow.succsAt i, before s x
  liveIn : ∀ i < p.size, ∀ x, before i x ↔ (after i x ∧ ¬ p.Writes i x) ∨ p.Reads i x

theorem writesAt {inst : Instruction} (present : p.instructions[i]? = some inst) :
    p.Writes i x ↔ x ∈ inst.kills := by
  simp [Writes, present]

theorem readsAt {inst : Instruction} (present : p.instructions[i]? = some inst) :
    p.Reads i x ↔ x ∈ inst.gens := by
  simp [Reads, present]

/-- A path leads from `i` to an instruction that reads the name, and none before it writes it. -/
def Needed (p : Program) (flow : ControlFlow) (i : Nat) (x : Name) : Prop :=
  ∃ j path, Path flow.succsAt i j path ∧ p.Reads j x ∧ ∀ k ∈ path.dropLast, ¬ p.Writes k x

theorem neededHere (read : p.Reads i x) : p.Needed flow i x :=
  ⟨i, [i], .single i, read, fun _ absent => nomatch absent⟩

theorem neededBefore (edge : j ∈ flow.succsAt i) (kept : ¬ p.Writes i x)
    (needed : p.Needed flow j x) : p.Needed flow i x := by
  obtain ⟨last, path, leads, read, unwritten⟩ := needed
  refine ⟨last, i :: path, leads.cons edge, read, fun k mem => ?_⟩
  rw [leads.dropLastCons] at mem
  rcases List.mem_cons.mp mem with rfl | later
  · exact kept
  · exact unwritten k later

theorem livenessSolution (p : Program) (flow : ControlFlow) :
    p.Solution flow (fun i x => x ∈ (p.liveness flow).liveIn i)
      fun i x => x ∈ (p.liveness flow).liveOut i := by
  refine ⟨fun i bound x => liveOutIff (List.getElem?_eq_getElem bound), fun i bound x => ?_⟩
  have present := List.getElem?_eq_getElem bound
  rw [writesAt present, readsAt present]
  exact liveInIff present

theorem closedAt {before after : Nat → Name → Prop}
    (outs : ∀ i < p.size, ∀ s ∈ flow.succsAt i, ∀ x, before s x → after i x)
    (ins : ∀ i < p.size, ∀ x, (after i x ∧ ¬ p.Writes i x) ∨ p.Reads i x → before i x) (i : Nat)
    (node : Node) (found : (p.nodes flow)[i]? = some node) :
    Liveness.ClosedAt before after i node := by
  have bound : i < p.size := by
    simpa [nodes, size] using (List.getElem?_eq_some_iff.mp found).1
  have present : p.instructions[i]? = some p.instructions[i] := List.getElem?_eq_getElem bound
  cases Option.some.inj ((nodeAt present).symm.trans found)
  refine ⟨outs i bound, fun x either => ins i bound x ?_⟩
  rwa [writesAt present, readsAt present, ← NameSet.memOfList, ← NameSet.memOfList]

theorem livenessBounded {before after : Nat → Name → Prop}
    (outs : ∀ i < p.size, ∀ s ∈ flow.succsAt i, ∀ x, before s x → after i x)
    (ins : ∀ i < p.size, ∀ x, (after i x ∧ ¬ p.Writes i x) ∨ p.Reads i x → before i x) (i : Nat)
    (x : Name) : (x ∈ (p.liveness flow).liveIn i → before i x) ∧
      (x ∈ (p.liveness flow).liveOut i → after i x) := by
  have bounded := Liveness.settleBounded (closedAt outs ins)
    (Liveness.startBounded before after (p.nodes flow))
  have ins := bounded.liveIn i x
  have outs := bounded.liveOut i x
  rw [← Liveness.liveInFacts] at ins
  rw [← Liveness.liveOutFacts] at outs
  exact ⟨ins, outs⟩

theorem neededClosed (i : Nat) (node : Node) (found : (p.nodes flow)[i]? = some node) :
    Liveness.ClosedAt (p.Needed flow) (fun i x => ∃ s ∈ flow.succsAt i, p.Needed flow s x) i
      node := by
  refine closedAt (fun i _ s next x needed => ⟨s, next, needed⟩) (fun i _ x either => ?_) i node found
  rcases either with ⟨⟨s, next, needed⟩, kept⟩ | read
  · exact neededBefore next kept needed
  · exact neededHere read

theorem neededOfLive (live : x ∈ (p.liveness flow).liveIn i) : p.Needed flow i x := by
  rw [Liveness.liveIn, Liveness.liveInFacts] at live
  exact (Liveness.settleBounded neededClosed (Liveness.startBounded _ _ _)).liveIn i x live

theorem pathPresent (flows : p.controlFlow = .ok flow)
    (leads : Path flow.succsAt i j path) (ends : ∃ inst, p.instructions[j]? = some inst) :
    ∀ k ∈ path, ∃ inst, p.instructions[k]? = some inst := by
  induction path generalizing i with
  | nil => exact fun _ absent => nomatch absent
  | cons a path ih =>
    intro k mem
    rcases leads.cases with ⟨rfl, same⟩ | ⟨next, rest, same, edge, beyond⟩
    · cases same
      exact List.mem_singleton.mp mem ▸ ends
    · obtain ⟨rfl, rfl⟩ := List.cons.inj same
      rcases List.mem_cons.mp mem with rfl | later
      · obtain ⟨inst, present, _⟩ := succSource flows edge
        exact ⟨inst, present⟩
      · exact ih beyond k later

theorem liveOfNeeded (flows : p.controlFlow = .ok flow) (needed : p.Needed flow i x) :
    x ∈ (p.liveness flow).liveIn i := by
  obtain ⟨last, path, leads, read, unwritten⟩ := needed
  -- Back from the instruction that reads the name: each one before it passes the name on.
  induction path generalizing i with
  | nil => exact absurd leads.first (by simp)
  | cons k path ih =>
    rcases leads.cases with ⟨rfl, _⟩ | ⟨next, rest, same, edge, leads⟩
    · obtain ⟨inst, present, gen⟩ := read
      exact (liveInIff present).mpr (.inr gen)
    · obtain ⟨rfl, rfl⟩ := List.cons.inj same
      rw [leads.dropLastCons] at unwritten
      have later := ih leads fun k mem => unwritten k (List.mem_cons_of_mem _ mem)
      obtain ⟨inst, present, _⟩ := succSource flows edge
      refine liveFromNext present edge (fun killed => ?_) later
      exact unwritten k List.mem_cons_self ((writesAt present).mpr killed)

theorem livenessExact (flows : p.controlFlow = .ok flow) :
    (∀ i < p.size, ∀ x,
      (x ∈ (p.liveness flow).liveIn i ↔ ∃ j path, Path flow.succsAt i j path ∧ p.Reads j x ∧
        ∀ k ∈ path.dropLast, ¬ p.Writes k x) ∧
      (x ∈ (p.liveness flow).liveOut i ↔
        ∃ s ∈ flow.succsAt i, x ∈ (p.liveness flow).liveIn s)) ∧
    p.Solution flow (fun i x => x ∈ (p.liveness flow).liveIn i)
      (fun i x => x ∈ (p.liveness flow).liveOut i) ∧
    ∀ before after, p.Solution flow before after → ∀ i x,
      (x ∈ (p.liveness flow).liveIn i → before i x) ∧
        (x ∈ (p.liveness flow).liveOut i → after i x) := by
  have solves := livenessSolution p flow
  refine ⟨fun i bound x => ⟨⟨neededOfLive, liveOfNeeded flows⟩, solves.liveOut i bound x⟩, solves,
    fun before after solution => livenessBounded ?_ ?_⟩
  · exact fun i bound s next x live => (solution.liveOut i bound x).mpr ⟨s, next, live⟩
  · exact fun i bound x either => (solution.liveIn i bound x).mpr either

theorem loopLiveness : ∃ p flow,
    Program.parse "loop: SUBi n n 1\nJNEQ n z loop\nOUT n\n" 0 = .ok p ∧
    p.controlFlow = .ok flow ∧ Path flow.succsAt 1 1 [1, 0, 1] ∧ ¬ p.Writes 0 "z" ∧
    p.Reads 1 "z" ∧ "z" ∈ (p.liveness flow).liveIn 0 ∧ "n" ∈ (p.liveness flow).liveOut 1 := by
  have ran : (Program.parse "loop: SUBi n n 1\nJNEQ n z loop\nOUT n\n" 0).toOption.any (fun p =>
      p.controlFlow.toOption.any fun flow => decide (
        1 < p.size ∧ flow.succsAt 0 = [1] ∧ flow.succsAt 1 = [2, 0] ∧
        (p.instructions[0]?).map Instruction.kills = some ["n"] ∧
        (p.instructions[0]?).map Instruction.gens = some ["n"] ∧
        (p.instructions[1]?).map Instruction.gens = some ["n", "z"])) = true := by
    decide +kernel
  obtain ⟨p, parsed, ran⟩ := Allocation.okOf ran
  obtain ⟨flow, flows, ran⟩ := Allocation.okOf ran
  obtain ⟨size, falls, branches, kills, gens, reads⟩ := of_decide_eq_true ran
  obtain ⟨first, here, kills⟩ := Option.map_eq_some_iff.mp kills
  obtain ⟨second, there, reads⟩ := Option.map_eq_some_iff.mp reads
  rw [here, Option.map_some, Option.some.injEq] at gens
  have down : 1 ∈ flow.succsAt 0 := falls ▸ List.mem_cons_self
  have back : 0 ∈ flow.succsAt 1 := branches ▸ List.mem_cons_of_mem _ List.mem_cons_self
  have kept : ¬ p.Writes 0 "z" := by simp [writesAt here, kills]
  have read : p.Reads 1 "z" := by simp [readsAt there, reads]
  have readSelf : p.Reads 0 "n" := by simp [readsAt here, gens]
  obtain ⟨exact, _⟩ := livenessExact flows
  have liveZ := (exact 0 (by omega) "z").1.mpr
    ⟨1, [0, 1], .cons down (.single 1), read, by simpa using kept⟩
  have liveN := (exact 0 (by omega) "n").1.mpr
    ⟨0, [0], .single 0, readSelf, fun _ absent => nomatch absent⟩
  exact ⟨p, flow, parsed, flows, .cons back (.cons down (.single 1)), kept, read, liveZ,
    (exact 1 size "n").2.mpr ⟨0, back, liveN⟩⟩

end Program

end Regalloc
