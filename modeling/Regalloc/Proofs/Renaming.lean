import Mathlib.Logic.Equiv.Basic
import Regalloc.Proofs.CodeFlow
import Regalloc.Proofs.CompiledCode
import Regalloc.Proofs.SpillRun

/-! Programs that differ in the names of their registers. A renaming is one to one, so it goes
through sets, maps and the live names. Where it keeps the order as well, a renamed list is the list of
the renamed. -/
namespace Regalloc

namespace NameSet

variable {s u : NameSet} {σ : Name ≃ Name} {x : Name}

theorem memRenamed {xs : List Name} : x ∈ xs.map σ ↔ σ.symm x ∈ xs := by
  rw [List.mem_map]
  constructor
  · rintro ⟨y, mem, rfl⟩
    simpa using mem
  · exact fun mem => ⟨_, mem, σ.apply_symm_apply x⟩

def map (s : NameSet) (f : Name → Name) : NameSet := ofList (s.toList.map f)

@[simp] theorem memMap : x ∈ s.map σ ↔ σ.symm x ∈ s := memOfList.trans memRenamed

@[simp] theorem mapId : s.map id = s := by
  ext x
  exact @memMap s (Equiv.refl Name) x

theorem mapOfList {xs : List Name} : (ofList xs).map σ = ofList (xs.map σ) := by
  ext x
  rw [memMap, memOfList, memOfList, memRenamed]

theorem mapUnion : (s.union u).map σ = (s.map σ).union (u.map σ) := by
  ext x
  simp

theorem mapDiff : (s.diff u).map σ = (s.map σ).diff (u.map σ) := by
  ext x
  simp

theorem mapUnions {ss : List NameSet} : (unions ss).map σ = unions (ss.map fun s => s.map σ) := by
  ext x
  simp

@[simp] theorem sizeMap : (s.map σ).size = s.size := by
  have nodup : (s.toList.map σ).Nodup := s.nodup.map σ.injective
  have perm : (s.map σ).toList.Perm (s.toList.map σ) :=
    (List.perm_ext_iff_of_nodup (s.map σ).nodup nodup).mpr fun x => memOfList
  rw [size, size, perm.length_eq, List.length_map]

theorem mapAgree {f g : Name → Name} (same : ∀ x ∈ s, f x = g x) : s.map f = s.map g :=
  congrArg ofList (List.map_congr_left same)

theorem renamingOfList {f : Name → Name} {xs : List Name} (nodup : xs.Nodup)
    (injective : ∀ x ∈ xs, ∀ y ∈ xs, f x = f y → x = y) :
    ∃ σ : Name ≃ Name, ∀ x ∈ xs, σ x = f x := by
  induction xs with
  | nil => exact ⟨Equiv.refl Name, fun _ absent => nomatch absent⟩
  | cons x xs ih =>
    obtain ⟨fresh, rest⟩ := List.nodup_cons.mp nodup
    obtain ⟨σ, agrees⟩ := ih rest fun y memY z memZ =>
      injective y (List.mem_cons_of_mem _ memY) z (List.mem_cons_of_mem _ memZ)
    -- The swap sends `x` where it belongs, and nothing settled before goes to either of the two.
    refine ⟨σ.trans (Equiv.swap (σ x) (f x)), fun y mem => ?_⟩
    rcases List.mem_cons.mp mem with rfl | later
    · exact Equiv.swap_apply_left _ _
    · have other : y ≠ x := fun same => fresh (same ▸ later)
      have image : σ y ≠ f x := fun same =>
        other (injective y mem x List.mem_cons_self ((agrees y later).symm.trans same))
      rw [Equiv.trans_apply, Equiv.swap_apply_of_ne_of_ne (fun same => other (σ.injective same)) image,
        agrees y later]

def Increasing (f : Name → Name) (s : NameSet) : Prop := ∀ x ∈ s, ∀ y ∈ s, x < y → f x < f y

theorem Increasing.mono {f : Name → Name} (increasing : Increasing f s) (inside : ∀ x ∈ u, x ∈ s) :
    Increasing f u :=
  fun x memX y memY => increasing x (inside x memX) y (inside y memY)

theorem Increasing.injective {f : Name → Name} (increasing : Increasing f s) {y : Name}
    (memX : x ∈ s) (memY : y ∈ s) (same : f x = f y) : x = y :=
  Std.le_antisymm
    (Std.not_lt.mp fun below => String.ne_of_lt (increasing y memY x memX below) same.symm)
    (Std.not_lt.mp fun below => String.ne_of_lt (increasing x memX y memY below) same)

theorem Increasing.ltIff {f : Name → Name} (increasing : Increasing f s) {y : Name} (memX : x ∈ s)
    (memY : y ∈ s) : f x < f y ↔ x < y := by
  refine ⟨fun below => ?_, increasing x memX y memY⟩
  by_contra notBelow
  rcases Std.le_iff_lt_or_eq.mp (Std.not_lt.mp notBelow) with above | rfl
  · exact String.lt_irrefl _ (Std.lt_trans below (increasing y memY x memX above))
  · exact String.lt_irrefl _ below

theorem toListMap {f : Name → Name} (increasing : Increasing f s) :
    (s.map f).toList = s.toList.map f := by
  refine Ascending.equalOfMembers (s.map f).ascending ?_ fun x => memOfList
  rw [List.pairwise_map]
  exact s.ascending.imp_of_mem fun memX memY below => increasing _ memX _ memY below

end NameSet

namespace NameMap

variable {β γ : Type} {m : NameMap β} {σ : Name ≃ Name} {x y : Name}

def ofRenamed (f : Name → Name) (entries : List (Name × β)) : NameMap β :=
  entries.foldr (fun entry rest => rest.insert (f entry.1) entry.2) ∅

def mapKeys (m : NameMap β) (f : Name → Name) : NameMap β := ofRenamed f m.toList

@[simp] theorem getMapKeys : (m.mapKeys σ).get? y = m.get? (σ.symm y) := by
  show (ofRenamed σ m.toList).get? y = lookup (σ.symm y) m.toList
  generalize m.toList = entries
  induction entries with
  | nil => rfl
  | cons entry entries ih =>
    simp [ofRenamed, lookup, Equiv.symm_apply_eq, ← ih]

@[simp] theorem memKeysMap : y ∈ (m.mapKeys σ).keys ↔ σ.symm y ∈ m.keys := by
  rw [memKeysIff, memKeysIff, getMapKeys]

theorem insertMapKeys {b : β} : (m.mapKeys σ).insert (σ x) b = (m.insert x b).mapKeys σ := by
  ext1 y
  simp [Equiv.symm_apply_eq]

theorem eraseMapKeys : (m.mapKeys σ).erase (σ x) = (m.erase x).mapKeys σ := by
  ext1 y
  simp [Equiv.symm_apply_eq]

theorem mapKeysFilterMap {f : β → Option γ} :
    (m.mapKeys σ).filterMap f = (m.filterMap f).mapKeys σ := by
  ext1 y
  simp [getFilterMap]

theorem toListMapKeys (increasing : NameSet.Increasing σ m.keys) :
    (m.mapKeys σ).toList = m.toList.map fun entry => (σ entry.1, entry.2) := by
  refine equalOfLookup (m.mapKeys σ).ascending ?_ fun y => ?_
  · have names : (m.toList.map fun entry => (σ entry.1, entry.2)).map Prod.fst =
        m.keys.toList.map σ := by simp [keys]
    rw [names, ← NameSet.toListMap increasing]
    exact (m.keys.map σ).ascending
  · refine getMapKeys.trans ?_
    unfold get?
    generalize m.toList = entries
    induction entries with
    | nil => rfl
    | cons entry entries ih => simp [lookup, Equiv.symm_apply_eq, ih]

end NameMap

namespace Value

def rename (f : Name → Name) : Value → Value
  | register x => register (f x)
  | value => value

@[simp] theorem registerRename {f : Name → Name} {value : Value} :
    (value.rename f).register? = value.register?.map f := by
  cases value <;> rfl

@[simp] theorem labelRename {f : Name → Name} {value : Value} :
    (value.rename f).label? = value.label? := by
  cases value <;> rfl

@[simp] theorem renameId {value : Value} : value.rename id = value := by
  cases value <;> rfl

end Value

namespace Statement

variable {f : Name → Name} {s : Statement}

def rename (f : Name → Name) (s : Statement) : Statement :=
  { s with operands := s.operands.map (Value.rename f) }

def outline (s : Statement) : Statement := { s with comment := none }

theorem registersInRename {wanted : Slot} :
    (s.rename f).registersIn wanted = (s.registersIn wanted).map f := by
  unfold registersIn rename shape
  dsimp only
  rw [List.zip_map_right, List.filterMap_map, List.map_filterMap]
  refine List.filterMap_congr fun entry _ => ?_
  by_cases here : entry.1 = wanted <;> simp [here]

theorem registersRename : (s.rename f).registers = s.registers.map f := by
  unfold registers rename
  dsimp only
  rw [List.filterMap_map, List.map_filterMap]
  exact List.filterMap_congr fun value _ => Value.registerRename

theorem unseenRename (f : Name → Name) : Code.Unseen (rename f) where
  label _ := rfl
  opcode _ := rfl
  destination s := by
    unfold destination? rename
    rw [List.findSome?_map]
    exact congrArg (s.operands.findSome? ·) (funext fun value => Value.labelRename)

theorem unseenOutline : Code.Unseen outline := ⟨fun _ => rfl, fun _ => rfl, fun _ => rfl⟩

end Statement

def Node.rename (f : Name → Name) (node : Node) : Node :=
  ⟨node.kills.map f, node.gens.map f, node.succs⟩

def Facts.rename (f : Name → Name) (facts : Facts) : Facts :=
  ⟨facts.liveIn.map f, facts.liveOut.map f⟩

namespace Liveness

variable {σ : Name ≃ Name} {nodes : List Node} {table : List Facts} {l : Liveness} {i : Nat}

def rename (f : Name → Name) (l : Liveness) : Liveness :=
  ⟨l.nodes.map (Node.rename f), l.table.map (Facts.rename f), l.passes⟩

theorem liveInAtRename : liveInAt (table.map (Facts.rename σ)) i = (liveInAt table i).map σ := by
  unfold liveInAt
  rw [List.getElem?_map]
  cases table[i]? <;> rfl

theorem liveOutAtRename : liveOutAt (table.map (Facts.rename σ)) i = (liveOutAt table i).map σ := by
  unfold liveOutAt
  rw [List.getElem?_map]
  cases table[i]? <;> rfl

theorem transferRename (node : Node) :
    transfer (node.rename σ) (table.map (Facts.rename σ)) = (transfer node table).rename σ := by
  have after : NameSet.unions (node.succs.map (liveInAt (table.map (Facts.rename σ)))) =
      (NameSet.unions (node.succs.map (liveInAt table))).map σ := by
    rw [NameSet.mapUnions, List.map_map]
    exact congrArg NameSet.unions (List.map_congr_left fun s _ => liveInAtRename)
  simp only [transfer, Node.rename, Facts.rename, after, NameSet.mapUnion, NameSet.mapDiff]

theorem sweepRename : sweep (nodes.map (Node.rename σ)) (table.map (Facts.rename σ)) =
    (sweep nodes table).map (Facts.rename σ) := by
  unfold sweep
  rw [List.zipIdx_map, List.foldr_map]
  generalize nodes.zipIdx = entries
  induction entries with
  | nil => rfl
  | cons entry entries ih =>
    rw [List.foldr_cons, List.foldr_cons, ih, List.map_set]
    exact congrArg (List.set _ entry.2) (transferRename entry.1)

theorem countRename : count (table.map (Facts.rename σ)) = count table := by
  have same (facts : Facts) : (facts.rename σ).count = facts.count := by
    simp [Facts.count, Facts.rename]
  simp [count, List.foldr_map, same]

theorem roomRename :
    room (nodes.map (Node.rename σ)) (table.map (Facts.rename σ)) = room nodes table := by
  have gens : NameSet.unions ((nodes.map (Node.rename σ)).map Node.gens) =
      (NameSet.unions (nodes.map Node.gens)).map σ := by
    rw [NameSet.mapUnions, List.map_map, List.map_map]
    rfl
  simp only [room, capacity, countRename, gens, NameSet.sizeMap, List.length_map]

theorem settleRename : settle (nodes.map (Node.rename σ)) (table.map (Facts.rename σ)) =
    ((settle nodes table).1.map (Facts.rename σ), (settle nodes table).2) := by
  fun_induction settle nodes table with
  | case1 table swept more final passes settled ih =>
    rw [settled] at ih
    rw [settle]
    simp only [sweepRename, roomRename]
    rw [if_pos more, ih]
  | case2 table swept noMore =>
    rw [settle]
    simp only [sweepRename, roomRename]
    rw [if_neg noMore]

theorem startRename : start (nodes.map (Node.rename σ)) = (start nodes).map (Facts.rename σ) := by
  rw [start, start, List.map_map, List.map_map]
  rfl

theorem liveInRename : (l.rename σ).liveIn i = (l.liveIn i).map σ := liveInAtRename

theorem liveOutRename : (l.rename σ).liveOut i = (l.liveOut i).map σ := liveOutAtRename

theorem killsRename : (l.rename σ).kills i = (l.kills i).map σ := by
  unfold kills rename
  rw [List.getElem?_map]
  cases l.nodes[i]? <;> rfl

theorem renameId : l.rename id = l := by
  have facts : Facts.rename id = id := by
    funext facts
    simp [Facts.rename]
  have nodes : Node.rename id = id := by
    funext node
    simp [Node.rename]
  simp [rename, facts, nodes]

end Liveness

namespace Program

variable {p q : Program} {σ : Name ≃ Name}

def outline (p : Program) : List Statement := p.code.map Statement.outline

def Renamed (σ : Name → Name) (p q : Program) : Prop := q.outline = p.outline.map (Statement.rename σ)

theorem namesOfOutline (p : Program) :
    p.names = NameSet.ofList (p.outline.flatMap Statement.registers) := by
  rw [names, outline, code, List.map_map, List.flatMap_map]
  exact congrArg _ (List.flatMap_congr fun inst _ => inst.registersStatement)

theorem nodesOfOutline (p : Program) (flow : ControlFlow) :
    p.nodes flow = p.outline.zipIdx.map fun (s, i) =>
      ⟨NameSet.ofList s.kills, NameSet.ofList s.gens, flow.succsAt i⟩ := by
  rw [nodes, outline, code, List.map_map, List.zipIdx_map, List.map_map]
  refine List.map_congr_left fun entry _ => ?_
  simp only [Instruction.kills, Instruction.gens, Instruction.registersInStatement]
  rfl

theorem controlFlowOfOutline (p : Program) :
    p.controlFlow.mapError (List.map Issue.code) = Code.controlFlow p.outline := by
  rw [controlFlowOfCode, outline, Statement.unseenOutline.controlFlow]

namespace Renamed

variable (renamed : Renamed σ p q)
include renamed

theorem size : q.size = p.size := by
  have length := congrArg List.length renamed
  simpa [outline, codeLength] using length

theorem controlFlow : q.controlFlow.mapError (List.map Issue.code) =
    p.controlFlow.mapError (List.map Issue.code) := by
  rw [controlFlowOfOutline, controlFlowOfOutline, renamed,
    (Statement.unseenRename σ).controlFlow]

theorem flows {flow : ControlFlow} (ok : p.controlFlow = .ok flow) : q.controlFlow = .ok flow := by
  have same := renamed.controlFlow
  rw [ok] at same
  cases other : q.controlFlow with
  | error issues =>
    rw [other] at same
    contradiction
  | ok flow' =>
    rw [other] at same
    exact congrArg Except.ok (Except.ok.inj same)

theorem names : q.names = p.names.map σ := by
  rw [namesOfOutline, namesOfOutline, renamed, NameSet.mapOfList, List.flatMap_map, List.map_flatMap]
  exact congrArg _ (List.flatMap_congr fun s _ => Statement.registersRename)

theorem nodes (flow : ControlFlow) : q.nodes flow = (p.nodes flow).map (Node.rename σ) := by
  rw [nodesOfOutline, nodesOfOutline, renamed, List.zipIdx_map, List.map_map, List.map_map]
  refine List.map_congr_left fun entry _ => ?_
  simp only [Function.comp_apply, Prod.map_fst, Prod.map_snd, id, Node.rename, NameSet.mapOfList,
    Statement.kills, Statement.gens, Statement.registersInRename]

theorem liveness (flow : ControlFlow) : q.liveness flow = (p.liveness flow).rename σ := by
  simp only [Program.liveness, Liveness.rename, renamed.nodes, Liveness.startRename,
    Liveness.settleRename]

end Renamed

end Program

end Regalloc
