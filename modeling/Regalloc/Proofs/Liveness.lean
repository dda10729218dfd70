import Mathlib.Data.List.Perm.Subperm
import Regalloc.Liveness

/-! Live facts solve the liveness equations. Sweeping only adds facts, every fact it adds is
supported by the newest table, and a pass that adds none leaves a table which satisfies both
equations at every instruction. Facts name registers of the program and nothing else. -/
namespace Regalloc

namespace NameSet

theorem sizeLe {s t : NameSet} (inside : ∀ x ∈ s, x ∈ t) : s.size ≤ t.size :=
  (List.subperm_of_subset s.nodup inside).length_le

theorem insideOfSizeLe {s t : NameSet} (inside : ∀ x ∈ s, x ∈ t) (size : t.size ≤ s.size) :
    ∀ x ∈ t, x ∈ s := by
  have perm := (List.subperm_of_subset s.nodup inside).perm_of_length_le size
  exact fun x mem => perm.mem_iff.mpr mem

end NameSet

namespace Facts

structure Within (f g : Facts) : Prop where
  before : ∀ x ∈ f.liveIn, x ∈ g.liveIn
  after : ∀ x ∈ f.liveOut, x ∈ g.liveOut

theorem Within.refl (f : Facts) : Within f f := ⟨fun _ mem => mem, fun _ mem => mem⟩

theorem Within.trans {f g h : Facts} (left : Within f g) (right : Within g h) : Within f h :=
  ⟨fun x mem => right.before x (left.before x mem), fun x mem => right.after x (left.after x mem)⟩

theorem Within.antisymm {f g : Facts} (left : Within f g) (right : Within g f) : f = g := by
  obtain ⟨_, _⟩ := f
  obtain ⟨_, _⟩ := g
  simp only [mk.injEq]
  exact ⟨NameSet.ext fun x => ⟨left.before x, right.before x⟩,
    NameSet.ext fun x => ⟨left.after x, right.after x⟩⟩

theorem countLe {f g : Facts} (within : Within f g) : f.count ≤ g.count :=
  Nat.add_le_add (NameSet.sizeLe within.before) (NameSet.sizeLe within.after)

theorem withinOfCountLe {f g : Facts} (within : Within f g) (count : g.count ≤ f.count) :
    Within g f := by
  have before := NameSet.sizeLe within.before
  have after := NameSet.sizeLe within.after
  simp only [Facts.count] at count
  exact ⟨NameSet.insideOfSizeLe within.before (by omega),
    NameSet.insideOfSizeLe within.after (by omega)⟩

end Facts

namespace Liveness

def factsAt (table : List Facts) (i : Nat) : Facts := (table[i]?).getD ⟨∅, ∅⟩

theorem liveInFacts (table : List Facts) (i : Nat) : liveInAt table i = (factsAt table i).liveIn := by
  unfold liveInAt factsAt
  cases table[i]? <;> rfl

theorem liveOutFacts (table : List Facts) (i : Nat) :
    liveOutAt table i = (factsAt table i).liveOut := by
  unfold liveOutAt factsAt
  cases table[i]? <;> rfl

theorem factsAtSet {table : List Facts} {i j : Nat} {facts : Facts} (bound : i < table.length) :
    factsAt (table.set i facts) j = if i = j then facts else factsAt table j := by
  unfold factsAt
  by_cases same : i = j
  · subst same
    simp [List.getElem?_set_self bound]
  · simp [List.getElem?_set_ne same, same]

structure Grows (s t : List Facts) : Prop where
  length : t.length = s.length
  within : ∀ i, Facts.Within (factsAt s i) (factsAt t i)

theorem Grows.refl (s : List Facts) : Grows s s := ⟨rfl, fun _ => Facts.Within.refl _⟩

theorem Grows.trans {s t u : List Facts} (left : Grows s t) (right : Grows t u) : Grows s u :=
  ⟨right.length.trans left.length, fun i => (left.within i).trans (right.within i)⟩

theorem Grows.tail {f g : Facts} {s t : List Facts} (grows : Grows (f :: s) (g :: t)) :
    Grows s t :=
  ⟨Nat.succ.inj grows.length, fun i => grows.within (i + 1)⟩

theorem Grows.antisymm {s t : List Facts} (left : Grows s t) (right : Grows t s) : s = t := by
  refine List.ext_getElem left.length.symm fun i here there => ?_
  have forth := left.within i
  have back := right.within i
  simp only [factsAt, List.getElem?_eq_getElem here, List.getElem?_eq_getElem there,
    Option.getD_some] at forth back
  exact forth.antisymm back

theorem growsCount {s t : List Facts} (grows : Grows s t) : count s ≤ count t := by
  induction s generalizing t with
  | nil => simp [count]
  | cons f s ih =>
    cases t with
    | nil => exact absurd grows.length (by simp)
    | cons g t =>
      have head := Facts.countLe (grows.within 0)
      have tail := ih grows.tail
      exact Nat.add_le_add head tail

theorem growsBack {s t : List Facts} (grows : Grows s t) (counts : count t ≤ count s) :
    Grows t s := by
  induction s generalizing t with
  | nil =>
    have empty : t = [] := List.length_eq_zero_iff.mp grows.length
    subst empty
    exact Grows.refl []
  | cons f s ih =>
    cases t with
    | nil => exact absurd grows.length (by simp)
    | cons g t =>
      have head := Facts.countLe (grows.within 0)
      have tail := growsCount grows.tail
      have sum : g.count + count t ≤ f.count + count s := counts
      simp only [factsAt, List.getElem?_cons_zero, Option.getD_some] at head
      have rest := ih grows.tail (by omega)
      refine ⟨grows.length.symm, fun i => ?_⟩
      cases i with
      | zero => exact Facts.withinOfCountLe (grows.within 0) (by show g.count ≤ f.count; omega)
      | succ i => exact rest.within i

theorem memTransferOut {node : Node} {table : List Facts} {x : Name} :
    x ∈ (transfer node table).liveOut ↔ ∃ s ∈ node.succs, x ∈ (factsAt table s).liveIn := by
  simp [transfer, liveInFacts]

theorem memTransferIn {node : Node} {table : List Facts} {x : Name} :
    x ∈ (transfer node table).liveIn ↔
      (x ∈ (transfer node table).liveOut ∧ x ∉ node.kills) ∨ x ∈ node.gens := by
  simp [transfer]

theorem transferGrows {node : Node} {s t : List Facts} (grows : Grows s t) :
    Facts.Within (transfer node s) (transfer node t) := by
  have after : ∀ x ∈ (transfer node s).liveOut, x ∈ (transfer node t).liveOut := by
    intro x mem
    obtain ⟨j, next, live⟩ := memTransferOut.mp mem
    exact memTransferOut.mpr ⟨j, next, (grows.within j).before x live⟩
  refine ⟨fun x mem => ?_, after⟩
  rcases memTransferIn.mp mem with ⟨live, kept⟩ | gen
  · exact memTransferIn.mpr (.inl ⟨after x live, kept⟩)
  · exact memTransferIn.mpr (.inr gen)

structure Supported (nodes : List Node) (table : List Facts) : Prop where
  length : table.length = nodes.length
  within : ∀ i node, nodes[i]? = some node → Facts.Within (factsAt table i) (transfer node table)

theorem setGrows {nodes : List Node} {table : List Facts} {i : Nat} {node : Node}
    (supported : Supported nodes table) (present : nodes[i]? = some node) :
    Grows table (table.set i (transfer node table)) := by
  have bound : i < table.length := by
    rw [supported.length]
    exact (List.getElem?_eq_some_iff.mp present).1
  refine ⟨List.length_set, fun j => ?_⟩
  rw [factsAtSet bound]
  split
  · rename_i same
    subst same
    exact supported.within i node present
  · exact Facts.Within.refl _

theorem setSupported {nodes : List Node} {table : List Facts} {i : Nat} {node : Node}
    (supported : Supported nodes table) (present : nodes[i]? = some node) :
    Supported nodes (table.set i (transfer node table)) := by
  have grows := setGrows supported present
  have bound : i < table.length := by
    rw [supported.length]
    exact (List.getElem?_eq_some_iff.mp present).1
  refine ⟨grows.length.trans supported.length, fun j other found => ?_⟩
  rw [factsAtSet bound]
  split
  · rename_i same
    subst same
    cases Option.some.inj (present.symm.trans found)
    exact transferGrows grows
  · exact (supported.within j other found).trans (transferGrows grows)

theorem sweepFrom {all nodes : List Node} {table : List Facts} {k : Nat}
    (tail : ∀ i node, nodes[i]? = some node → all[k + i]? = some node)
    (supported : Supported all table) :
    let swept := (nodes.zipIdx k).foldr (fun (node, i) table => table.set i (transfer node table)) table
    Supported all swept ∧ Grows table swept ∧
      ∀ i node, nodes[i]? = some node →
        Facts.Within (transfer node table) (factsAt swept (k + i)) := by
  induction nodes generalizing k with
  | nil => exact ⟨supported, Grows.refl table, fun _ _ found => by simp at found⟩
  | cons node nodes ih =>
    have rest := @ih (k + 1) (fun i other found => by
      have := tail (i + 1) other found
      rwa [Nat.add_assoc, Nat.add_comm 1])
    obtain ⟨kept, grown, covered⟩ := rest
    have present : all[k]? = some node := tail 0 node rfl
    have last := setGrows kept present
    refine ⟨setSupported kept present, grown.trans last, fun i other found => ?_⟩
    have bound : k < ((nodes.zipIdx (k + 1)).foldr
        (fun (node, i) table => table.set i (transfer node table)) table).length := by
      rw [kept.length]
      exact (List.getElem?_eq_some_iff.mp present).1
    cases i with
    | zero =>
      cases Option.some.inj found
      have here := @transferGrows node _ _ grown
      simpa [List.zipIdx_cons, factsAtSet bound] using here
    | succ i =>
      have later := covered i other found
      have shift : k + 1 + i = k + (i + 1) := by omega
      rw [shift] at later
      exact later.trans (last.within _)

theorem sweepSupported {nodes : List Node} {table : List Facts} (supported : Supported nodes table) :
    Supported nodes (sweep nodes table) ∧ Grows table (sweep nodes table) ∧
      ∀ i node, nodes[i]? = some node →
        Facts.Within (transfer node table) (factsAt (sweep nodes table) i) := by
  have result := @sweepFrom nodes nodes table 0 (by simp) supported
  simpa [sweep] using result

structure Bounded (before after : Nat → Name → Prop) (table : List Facts) : Prop where
  liveIn : ∀ i x, x ∈ (factsAt table i).liveIn → before i x
  liveOut : ∀ i x, x ∈ (factsAt table i).liveOut → after i x

structure ClosedAt (before after : Nat → Name → Prop) (i : Nat) (node : Node) : Prop where
  liveOut : ∀ s ∈ node.succs, ∀ x, before s x → after i x
  liveIn : ∀ x, (after i x ∧ x ∉ node.kills) ∨ x ∈ node.gens → before i x

section Bounded

variable {before after : Nat → Name → Prop} {nodes : List Node} {node : Node} {table : List Facts}
  {i : Nat}

theorem transferBounded (closed : ClosedAt before after i node)
    (bounded : Bounded before after table) :
    (∀ x ∈ (transfer node table).liveIn, before i x) ∧
      ∀ x ∈ (transfer node table).liveOut, after i x := by
  have outs : ∀ x ∈ (transfer node table).liveOut, after i x := by
    intro x mem
    obtain ⟨s, next, live⟩ := memTransferOut.mp mem
    exact closed.liveOut s next x (bounded.liveIn s x live)
  refine ⟨fun x mem => closed.liveIn x ?_, outs⟩
  exact (memTransferIn.mp mem).imp_left (And.imp_left (outs x))

theorem setBounded (closed : ClosedAt before after i node) (bounded : Bounded before after table) :
    Bounded before after (table.set i (transfer node table)) := by
  by_cases bound : i < table.length
  · obtain ⟨ins, outs⟩ := transferBounded closed bounded
    refine ⟨fun j x mem => ?_, fun j x mem => ?_⟩
    · rw [factsAtSet bound] at mem
      split at mem
      · rename_i same
        exact same ▸ ins x mem
      · exact bounded.liveIn j x mem
    · rw [factsAtSet bound] at mem
      split at mem
      · rename_i same
        exact same ▸ outs x mem
      · exact bounded.liveOut j x mem
  · rwa [List.set_eq_of_length_le (by omega)]

theorem sweepBounded (closed : ∀ i node, nodes[i]? = some node → ClosedAt before after i node)
    (bounded : Bounded before after table) : Bounded before after (sweep nodes table) := by
  have all : ∀ entry ∈ nodes.zipIdx, ClosedAt before after entry.2 entry.1 := fun entry mem =>
    closed entry.2 entry.1 (List.mem_zipIdx_iff_getElem?.mp mem)
  unfold sweep
  generalize nodes.zipIdx = entries at all
  induction entries with
  | nil => exact bounded
  | cons entry entries ih =>
    exact setBounded (all entry List.mem_cons_self)
      (ih fun other mem => all other (List.mem_cons_of_mem _ mem))

end Bounded

def Named (names : NameSet) (table : List Facts) : Prop :=
  ∀ i x, x ∈ (factsAt table i).liveIn ∨ x ∈ (factsAt table i).liveOut → x ∈ names

theorem sweepNamed {names : NameSet} {nodes : List Node} {table : List Facts}
    (gens : ∀ node ∈ nodes, ∀ x ∈ node.gens, x ∈ names) (named : Named names table) :
    Named names (sweep nodes table) := by
  have closed : ∀ i node, nodes[i]? = some node →
      ClosedAt (fun _ x => x ∈ names) (fun _ x => x ∈ names) i node := fun i node present =>
    ⟨fun _ _ _ named => named, fun x either =>
      either.elim And.left (gens node (List.mem_of_getElem? present) x)⟩
  have bounded := sweepBounded closed
    ⟨fun i x mem => named i x (.inl mem), fun i x mem => named i x (.inr mem)⟩
  exact fun i x either => either.elim (bounded.liveIn i x) (bounded.liveOut i x)

theorem gensNamed (nodes : List Node) :
    ∀ node ∈ nodes, ∀ x ∈ node.gens, x ∈ NameSet.unions (nodes.map Node.gens) :=
  fun node mem _ gen => NameSet.memUnions.mpr ⟨node.gens, List.mem_map_of_mem mem, gen⟩

theorem countBound {names : NameSet} {table : List Facts} (named : Named names table) :
    count table ≤ 2 * table.length * names.size := by
  induction table with
  | nil => simp [count]
  | cons f table ih =>
    have before : f.liveIn.size ≤ names.size :=
      NameSet.sizeLe fun x mem => named 0 x (.inl mem)
    have after : f.liveOut.size ≤ names.size :=
      NameSet.sizeLe fun x mem => named 0 x (.inr mem)
    have tail := ih fun i => named (i + 1)
    have split : 2 * (table.length + 1) * names.size
        = names.size + names.size + 2 * table.length * names.size := by
      rw [Nat.mul_add, Nat.add_mul]
      omega
    show f.count + count table ≤ 2 * (table.length + 1) * names.size
    simp only [Facts.count]
    omega

structure FixedPoint (nodes : List Node) (table : List Facts) : Prop where
  liveOut : ∀ i node, nodes[i]? = some node →
    ∀ x, x ∈ liveOutAt table i ↔ ∃ s ∈ node.succs, x ∈ liveInAt table s
  liveIn : ∀ i node, nodes[i]? = some node →
    ∀ x, x ∈ liveInAt table i ↔ (x ∈ liveOutAt table i ∧ x ∉ node.kills) ∨ x ∈ node.gens

theorem fixedPointOfStable {nodes : List Node} {table : List Facts}
    (supported : Supported nodes table)
    (covered : ∀ i node, nodes[i]? = some node →
      Facts.Within (transfer node table) (factsAt table i)) : FixedPoint nodes table := by
  have outs : ∀ i node, nodes[i]? = some node → ∀ x, x ∈ liveOutAt table i ↔
      x ∈ (transfer node table).liveOut := by
    intro i node present x
    rw [liveOutFacts]
    exact ⟨(supported.within i node present).after x, (covered i node present).after x⟩
  refine ⟨fun i node present x => ?_, fun i node present x => ?_⟩
  · rw [outs i node present x, memTransferOut]
    simp only [liveInFacts]
  · rw [outs i node present x, ← memTransferIn, liveInFacts]
    exact ⟨(supported.within i node present).before x, (covered i node present).before x⟩

theorem sweepSame {nodes : List Node} {table : List Facts} (supported : Supported nodes table)
    (named : Named (NameSet.unions (nodes.map Node.gens)) table)
    (full : ¬ room nodes (sweep nodes table) < room nodes table) : sweep nodes table = table := by
  obtain ⟨kept, grown, _⟩ := sweepSupported supported
  have boundBefore := countBound named
  have boundAfter := countBound (sweepNamed (gensNamed nodes) named)
  rw [supported.length] at boundBefore
  rw [kept.length] at boundAfter
  refine (grown.antisymm (growsBack grown ?_)).symm
  simp only [room, capacity] at full
  omega

theorem settleFixedPoint {nodes : List Node} {table : List Facts}
    (supported : Supported nodes table)
    (named : Named (NameSet.unions (nodes.map Node.gens)) table) :
    FixedPoint nodes (settle nodes table).1 ∧
      Named (NameSet.unions (nodes.map Node.gens)) (settle nodes table).1 ∧
      (settle nodes table).1.length = nodes.length := by
  -- The last pass adds no fact, so what it computed from the table before it is what it left.
  fun_induction settle nodes table with
  | case1 table swept more final passes settled ih =>
    obtain ⟨kept, _, _⟩ := sweepSupported supported
    have result := ih kept (sweepNamed (gensNamed nodes) named)
    simpa only [settled] using result
  | case2 table swept noMore =>
    have same : swept = table := sweepSame supported named noMore
    have covered : ∀ i node, nodes[i]? = some node →
        Facts.Within (transfer node table) (factsAt swept i) := (sweepSupported supported).2.2
    rw [same] at covered ⊢
    exact ⟨fixedPointOfStable supported covered, named, supported.length⟩

theorem factsAtStart (nodes : List Node) (i : Nat) : factsAt (start nodes) i = ⟨∅, ∅⟩ := by
  unfold factsAt start
  rw [List.getElem?_map]
  cases nodes[i]? <;> rfl

theorem startSupported (nodes : List Node) : Supported nodes (start nodes) := by
  refine ⟨List.length_map _, fun i node _ => ?_⟩
  rw [factsAtStart]
  exact ⟨fun x mem => absurd mem NameSet.notMemEmpty, fun x mem => absurd mem NameSet.notMemEmpty⟩

theorem settleBounded {before after : Nat → Name → Prop} {nodes : List Node}
    {table : List Facts} (closed : ∀ i node, nodes[i]? = some node → ClosedAt before after i node)
    (bounded : Bounded before after table) : Bounded before after (settle nodes table).1 := by
  fun_induction settle nodes table with
  | case1 table swept more final passes settled ih =>
    simpa only [settled] using ih (sweepBounded closed bounded)
  | case2 table swept noMore => exact sweepBounded closed bounded

theorem startBounded (before after : Nat → Name → Prop) (nodes : List Node) :
    Bounded before after (start nodes) := by
  constructor <;> intro i x mem <;> rw [factsAtStart] at mem <;> exact absurd mem NameSet.notMemEmpty

theorem startNamed (names : NameSet) (nodes : List Node) : Named names (start nodes) := by
  intro i x mem
  rw [factsAtStart] at mem
  rcases mem with mem | mem <;> exact absurd mem NameSet.notMemEmpty

end Liveness

namespace Instruction

theorem registersInNamed {inst : Instruction} {wanted : Slot} {x : Name}
    (mem : x ∈ inst.registersIn wanted) : x ∈ inst.registers := by
  simp only [registersIn, slots, List.mem_filterMap] at mem
  obtain ⟨⟨slot, operand⟩, zipped, found⟩ := mem
  split at found <;> try contradiction
  exact List.mem_filterMap.mpr ⟨operand, (List.of_mem_zip zipped).2, found⟩

end Instruction

namespace Program

variable {p : Program} {flow : ControlFlow} {i : Nat} {inst : Instruction} {x : Name}

theorem memNames : x ∈ p.names ↔ ∃ inst ∈ p.instructions, x ∈ inst.registers := by
  simp [names]

theorem nodeAt (present : p.instructions[i]? = some inst) :
    (p.nodes flow)[i]? = some ⟨NameSet.ofList inst.kills, NameSet.ofList inst.gens,
      flow.succsAt i⟩ := by
  simp [nodes, List.getElem?_zipIdx, present]

theorem livenessTable (p : Program) (flow : ControlFlow) : (p.liveness flow).nodes = p.nodes flow ∧
    Liveness.FixedPoint (p.nodes flow) (p.liveness flow).table ∧
    Liveness.Named (NameSet.unions ((p.nodes flow).map Node.gens)) (p.liveness flow).table ∧
    (p.liveness flow).table.length = (p.nodes flow).length :=
  ⟨rfl, Liveness.settleFixedPoint (Liveness.startSupported _) (Liveness.startNamed _ _)⟩

theorem liveOutIff (present : p.instructions[i]? = some inst) :
    x ∈ (p.liveness flow).liveOut i ↔ ∃ s ∈ flow.succsAt i, x ∈ (p.liveness flow).liveIn s :=
  (livenessTable p flow).2.1.liveOut i _ (nodeAt present) x

theorem liveInIff (present : p.instructions[i]? = some inst) :
    x ∈ (p.liveness flow).liveIn i ↔
      (x ∈ (p.liveness flow).liveOut i ∧ x ∉ inst.kills) ∨ x ∈ inst.gens := by
  have solved := (livenessTable p flow).2.1.liveIn i _ (nodeAt present) x
  rwa [NameSet.memOfList, NameSet.memOfList] at solved

theorem liveFromNext {j : Nat} (present : p.instructions[i]? = some inst)
    (edge : j ∈ flow.succsAt i) (kept : x ∉ inst.kills) (live : x ∈ (p.liveness flow).liveIn j) :
    x ∈ (p.liveness flow).liveIn i :=
  (liveInIff present).mpr (.inl ⟨(liveOutIff present).mpr ⟨j, edge, live⟩, kept⟩)

theorem killsAt (present : p.instructions[i]? = some inst) :
    x ∈ (p.liveness flow).kills i ↔ x ∈ inst.kills := by
  simp [Liveness.kills, (livenessTable p flow).1, nodeAt present]

theorem instructionAt (live : x ∈ (p.liveness flow).liveIn i) :
    ∃ inst, p.instructions[i]? = some inst := by
  have bound : i < (p.liveness flow).table.length := by
    refine Nat.lt_of_not_le fun absent => ?_
    simp [Liveness.liveIn, Liveness.liveInAt, List.getElem?_eq_none absent] at live
  have inside : i < p.instructions.length := by
    simpa [(livenessTable p flow).2.2.2, nodes] using bound
  exact ⟨_, List.getElem?_eq_getElem inside⟩

theorem liveNamed (live : x ∈ (p.liveness flow).liveIn i ∨ x ∈ (p.liveness flow).liveOut i) :
    x ∈ p.names := by
  have gen : x ∈ NameSet.unions ((p.nodes flow).map Node.gens) := by
    refine (livenessTable p flow).2.2.1 i x ?_
    rwa [← Liveness.liveInFacts, ← Liveness.liveOutFacts]
  obtain ⟨s, mem, inside⟩ := NameSet.memUnions.mp gen
  obtain ⟨node, nodeMem, rfl⟩ := List.mem_map.mp mem
  obtain ⟨⟨inst, j⟩, at_j, rfl⟩ := List.mem_map.mp nodeMem
  have read : x ∈ inst.gens := by simpa using inside
  exact memNames.mpr ⟨inst, List.fst_mem_of_mem_zipIdx at_j, Instruction.registersInNamed read⟩

end Program

end Regalloc
