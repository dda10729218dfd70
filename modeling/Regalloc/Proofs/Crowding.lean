import Regalloc.Proofs.Convergence
import Regalloc.Proofs.Emission
import Regalloc.Proofs.Lines
import Regalloc.Proofs.LiveTogether

/-! A crowd of names: each is loaded from the address that it holds itself, one after the other.
Whatever is written conflicts with all that is still to be read, so a crowd larger than the budget
cannot stay in registers, and a load whose name is in memory takes a second load. -/
namespace Regalloc

namespace Crowd

def loadSelf (x : Name) : Statement := .plain .load [.register x, .register x]

def lines (names : List Name) : List Emitted := names.map fun x => .statement (loadSelf x)

theorem linesReadable {names : List Name} (named : ∀ x ∈ names, Token.NameText x.toList) :
    ∀ e ∈ lines names, e.Readable := by
  intro e mem
  obtain ⟨x, inside, rfl⟩ := List.mem_map.mp mem
  have name := named x inside
  exact Statement.plainReadable (.cons name (.cons name .nil))

theorem linesCode (names : List Name) :
    (lines names).filterMap Emitted.statement? = names.map loadSelf := by
  rw [lines, List.filterMap_map, ← List.filterMap_eq_map]
  rfl

variable {p : Program} {names : List Name} {flow : ControlFlow} {i j : Nat} {x y : Name}
  {inst : Instruction}

theorem registersLoadSelf (load : inst.statement = loadSelf x) :
    inst.opcode = some .load ∧ inst.kills = [x] ∧ inst.gens = [x] := by
  refine ⟨congrArg Statement.opcode load, ?_, ?_⟩
  · exact (inst.registersInStatement .written).trans (congrArg Statement.kills load)
  · exact (inst.registersInStatement .read).trans (congrArg Statement.gens load)

theorem spilledKillLoad {place : Placement} (load : inst.statement = loadSelf x)
    (spilled : x ∈ place.spills.names) : Expansion.spilledKill? place inst = some x := by
  refine Expansion.spilledKillOf ?_ spilled
  rw [(registersLoadSelf load).2.1]
  exact List.mem_singleton.mpr rfl

def isLoad (line : Statement) : Bool :=
  decide (line.opcode = some .load ∧ line.fixed = [none, none])

theorem loadsOfLoad (t : Target) (place : Placement) (live : NameSet)
    (load : inst.statement = loadSelf x) :
    (if x ∈ place.spills.names then 2 else 1) ≤
      (Expansion.statements t place live inst).countP isLoad := by
  obtain ⟨coded, kills, gens⟩ := registersLoadSelf load
  have label : inst.label.map Prod.fst = none := congrArg Statement.label load
  have comment : inst.comment = none := congrArg Statement.comment load
  have core : isLoad (Expansion.core t place (Expansion.scratch t place inst) .load inst) = true := by
    have fixed : (Expansion.core t place (Expansion.scratch t place inst) .load inst).fixed =
        inst.statement.fixed := Expansion.coreFixed _ _ _
    rw [load] at fixed
    exact decide_eq_true ⟨rfl, fixed⟩
  have body : Expansion.statements t place live inst =
      Expansion.decorate none none (Expansion.operation t place .load inst) := by
    rw [Expansion.statementsBody, label, comment, Expansion.body, coded]
  rw [body]
  have inOrder : Expansion.operation t place .load inst = Expansion.loads t place inst ++
      Expansion.core t place (Expansion.scratch t place inst) .load inst ::
        Expansion.stores t place inst := List.append_assoc _ _ _
  rw [inOrder]
  by_cases spilled : x ∈ place.spills.names
  · obtain ⟨offset, found⟩ := Spills.offsetSome.mpr spilled
    have written := spilledKillLoad load spilled
    have read : Expansion.spilledGens place inst = [x] := by
      simp [Expansion.spilledGens, Spills.contains, written, gens, spilled]
    have scratch : Expansion.scratch t place inst = [(x, t.scratchValue)] := by
      simp [Expansion.scratch, written, read]
    have loads : Expansion.loads t place inst = Expansion.load t t.scratchValue offset := by
      simp [Expansion.loads, scratch, gens, found]
    have loaded : ∀ r, isLoad (.plain .load [Expansion.registerValue r,
        Expansion.registerValue t.scratchAddress]) = true := fun _ => rfl
    rw [if_pos spilled, loads, Expansion.load, List.cons_append, List.cons_append, List.nil_append,
      Expansion.decorate, List.countP_cons, List.countP_cons_of_pos (loaded _),
      List.countP_cons_of_pos core]
    omega
  · have loads : Expansion.loads t place inst = [] := by
      simp [Expansion.loads, Expansion.scratch, Expansion.spilledGens, Expansion.spilledKill?,
        Spills.contains, kills, gens, spilled]
    rw [if_neg spilled, loads, List.nil_append, Expansion.decorate, List.countP_cons_of_pos]
    · exact Nat.succ_le_succ (Nat.zero_le _)
    · exact core

theorem unlabelled (names : List Name) :
    (names.map loadSelf).filterMap Statement.label = [] := by
  rw [List.filterMap_map]
  exact List.filterMap_eq_nil_iff.mpr fun _ _ => rfl

theorem linked (crowd : p.code = names.map loadSelf) : Code.Linked p.code := by
  rw [crowd]
  refine ⟨?_, fun s mem text named => ?_⟩
  · rw [unlabelled]
    exact List.nodup_nil
  · obtain ⟨x, _, rfl⟩ := List.mem_map.mp mem
    contradiction

/-- From position `k` on, each name in order is read and written by an instruction that writes nothing
else and goes on to the next. -/
structure Each (p : Program) (flow : ControlFlow) (names : List Name) (k : Nat) : Prop where
  user : ∀ i x, names[i]? = some x →
    ∃ inst, p.instructions[k + i]? = some inst ∧ inst.kills = [x] ∧ x ∈ inst.gens
  next : ∀ i, i + 1 < names.length → k + i + 1 ∈ flow.succsAt (k + i)

namespace Each

variable {k : Nat} (each : Each p flow names k) (nodup : names.Nodup)
include each nodup

theorem liveUpTo {n : Nat} (present : names[i + n]? = some x) :
    x ∈ (p.liveness flow).liveIn (k + i) := by
  -- Back from the user of `x` itself: nobody before it writes `x`, since the names differ.
  induction n generalizing i with
  | zero =>
    obtain ⟨inst, here, _, read⟩ := each.user i x present
    exact (Program.liveInIff here).mpr (.inr read)
  | succ n ih =>
    have bound := (List.getElem?_eq_some_iff.mp present).1
    have inside : i < names.length := by omega
    obtain ⟨inst, here, kills, _⟩ := each.user i _ (List.getElem?_eq_getElem inside)
    have shift : i + 1 + n = i + (n + 1) := by omega
    have later : x ∈ (p.liveness flow).liveIn (k + (i + 1)) := ih (shift ▸ present)
    refine Program.liveFromNext here (each.next i (by omega)) (fun killed => ?_) later
    rw [kills, List.mem_singleton] at killed
    have same : names[i]? = names[i + (n + 1)]? := by
      rw [present, killed, List.getElem?_eq_getElem inside]
    exact absurd ((List.getElem?_inj inside nodup).mp same) (by omega)

theorem conflict (before : i < j) (first : names[i]? = some x) (second : names[j]? = some y) :
    Interference.Conflict (p.liveness flow) (k + i) x y := by
  have bound := (List.getElem?_eq_some_iff.mp second).1
  obtain ⟨inst, here, kills, _⟩ := each.user i x first
  have later : y ∈ (p.liveness flow).liveIn (k + (i + 1)) := by
    refine each.liveUpTo nodup (n := j - (i + 1)) ?_
    rwa [Nat.add_sub_cancel' before]
  refine ⟨?_, ?_, fun killed => ?_⟩
  · rw [Program.killsAt here, kills]
    exact List.mem_singleton.mpr rfl
  · exact (Program.liveOutIff here).mpr ⟨k + i + 1, each.next i (by omega), later⟩
  · rw [Program.killsAt here, kills, List.mem_singleton] at killed
    have same : names[i]? = names[j]? := by rw [first, second, killed]
    exact absurd ((List.getElem?_inj (by omega) nodup).mp same) (by omega)

theorem joined {t : Target} {excluded : NameSet} {g : Graph}
    (exact : Interference.Exact t p (p.liveness flow) excluded g) (apart : x ≠ y)
    (memX : x ∈ names) (memY : y ∈ names) (keepX : Interference.keeps t excluded x = true)
    (keepY : Interference.keeps t excluded y = true) : y ∈ g.neighbors x := by
  obtain ⟨i, atX⟩ := List.mem_iff_getElem?.mp memX
  obtain ⟨j, atY⟩ := List.mem_iff_getElem?.mp memY
  have inside {i : Nat} {x : Name} (present : names[i]? = some x) : k + i < p.size := by
    obtain ⟨inst, here, _⟩ := each.user i x present
    exact (List.getElem?_eq_some_iff.mp here).1
  refine (exact.neighbors x y).mpr ⟨?_, keepX, keepY⟩
  rcases Nat.lt_trichotomy i j with before | rfl | after
  · exact ⟨_, inside atX, .inl (each.conflict nodup before atX atY)⟩
  · exact absurd (Option.some.inj (atX.symm.trans atY)) apart
  · exact ⟨_, inside atY, .inr (each.conflict nodup after atY atX)⟩

theorem spills {t : Target} {colorer : Colorer} {last : Attempt} {registers : NameMap Register}
    (settled : Allocation.Settled t p flow colorer last registers) (builtIn : colorer.BuiltIn)
    (free : ∀ x ∈ names, t.isReserved x = false) (large : t.budget < names.length) :
    ∃ x ∈ names, x ∈ last.spills.names := by
  by_contra none
  have kept : ∀ x ∈ names, x ∉ last.spills.names := fun x mem spilled => none ⟨x, mem, spilled⟩
  have keeps : ∀ x ∈ names, Interference.keeps t last.spills.nameSet x = true := fun x mem =>
    Interference.keepsIff.mpr ⟨fun inside => kept x mem (Spills.memNameSet.mp inside), free x mem⟩
  have apart : ∀ x ∈ NameSet.ofList names, ∀ y ∈ NameSet.ofList names, x ≠ y →
      ∃ r s, registers.get? x = some r ∧ registers.get? y = some s ∧ r ≠ s := by
    intro x memX y memY differ
    have memX := NameSet.memOfList.mp memX
    have memY := NameSet.memOfList.mp memY
    exact settled.neighborsApart builtIn (each.joined nodup settled.graphExact differ memX memY
      (keeps x memX) (keeps y memY))
  have placed : ∀ x ∈ NameSet.ofList names, ∃ r, registers.get? x = some r := by
    intro x mem
    have mem := NameSet.memOfList.mp mem
    obtain ⟨i, here⟩ := List.mem_iff_getElem?.mp mem
    obtain ⟨inst, present, kills, _⟩ := each.user i x here
    have killed : x ∈ inst.kills := kills ▸ List.mem_singleton.mpr rfl
    have named : x ∈ p.names := Program.memNames.mpr
      ⟨inst, List.mem_of_getElem? present, Instruction.registersInNamed killed⟩
    exact NameMap.memKeysIff.mp ((settled.memRegisters builtIn).mpr
      (settled.memVertices.mpr ⟨named, free x mem, kept x mem⟩))
  have fits := Allocation.sizeLeBudget settled apart placed
  have inside : names ⊆ (NameSet.ofList names).toList := fun x mem => NameSet.memOfList.mpr mem
  have whole := (List.subperm_of_subset nodup inside).length_le
  exact absurd (Nat.le_trans whole fits) (Nat.not_le_of_lt large)

end Each

structure Among (p : Program) (names : List Name) (front back : List Statement) : Prop where
  code : p.code = front ++ names.map loadSelf ++ back
  nameless : ∀ s ∈ front ++ back, s.registers = []

theorem alone (crowd : p.code = names.map loadSelf) : Among p names [] [] :=
  ⟨by rw [crowd, List.nil_append, List.append_nil], fun _ absent => nomatch absent⟩

namespace Among

variable {front back : List Statement} (crowd : Among p names front back)
include crowd

theorem loadAt (present : names[i]? = some x) :
    ∃ inst, p.instructions[front.length + i]? = some inst ∧ inst.statement = loadSelf x := by
  have line : p.code[front.length + i]? = some (loadSelf x) := by
    have bound := (List.getElem?_eq_some_iff.mp present).1
    rw [crowd.code, List.append_assoc, List.getElem?_append_right (Nat.le_add_right _ _),
      Nat.add_sub_cancel_left, List.getElem?_append_left (by rwa [List.length_map]),
      List.getElem?_map, present]
    rfl
  rw [Program.codeAt] at line
  exact Option.map_eq_some_iff.mp line

theorem sizeLe : front.length + names.length ≤ p.size := by
  have length := congrArg List.length crowd.code
  rw [Program.codeLength, List.length_append, List.length_append, List.length_map] at length
  omega

theorem nextAt (ok : p.controlFlow = .ok flow) (inside : i + 1 < names.length) :
    front.length + i + 1 ∈ flow.succsAt (front.length + i) := by
  obtain ⟨inst, present, load⟩ :=
    crowd.loadAt (List.getElem?_eq_getElem (Nat.lt_of_succ_lt inside))
  have room := crowd.sizeLe
  rw [Program.succsAtCode ok present, load]
  show front.length + i + 1 ∈ Code.next p.code (front.length + i)
  rw [Code.next, Program.codeLength, if_pos (by omega)]
  exact List.mem_singleton.mpr rfl

theorem namesInside (named : x ∈ p.names) : x ∈ names := by
  obtain ⟨inst, mem, inside⟩ := Program.memNames.mp named
  have whole : inst.statement ∈ p.code := List.mem_map_of_mem mem
  have line : inst.statement ∈ names.map loadSelf := by
    rw [crowd.code, List.append_assoc, List.mem_append, List.mem_append] at whole
    have silent : inst.statement ∉ front ++ back := fun around => by
      rw [inst.registersStatement, crowd.nameless _ around] at inside
      contradiction
    rcases whole with before | own | after
    · exact absurd (List.mem_append_left _ before) silent
    · exact own
    · exact absurd (List.mem_append_right _ after) silent
  obtain ⟨y, member, load⟩ := List.mem_map.mp line
  rw [inst.registersStatement, ← load] at inside
  have pair : x ∈ [y, y] := inside
  rcases List.mem_pair.mp pair with rfl | rfl <;> exact member

theorem namesLe (t : Target) (s : Spills) : Allocation.names t p s ≤ names.length := by
  have inside : (Interference.vertices t p s.nameSet).toList ⊆ names := fun x mem =>
    crowd.namesInside (NameSet.memFilter.mp mem).1
  exact (List.subperm_of_subset (NameSet.nodup _) inside).length_le

variable (ok : p.controlFlow = .ok flow)
include ok

theorem each : Each p flow names front.length where
  user i x present := by
    obtain ⟨inst, here, load⟩ := crowd.loadAt present
    obtain ⟨_, kills, gens⟩ := registersLoadSelf load
    exact ⟨inst, here, kills, gens ▸ List.mem_singleton.mpr rfl⟩
  next i inside := crowd.nextAt ok inside

end Among

theorem namesLe (crowd : p.code = names.map loadSelf) (t : Target) (s : Spills) :
    Allocation.names t p s ≤ names.length := (alone crowd).namesLe t s

theorem spills (crowd : p.code = names.map loadSelf) (ok : p.controlFlow = .ok flow)
    (nodup : names.Nodup) {t : Target} {colorer : Colorer} {last : Attempt}
    {registers : NameMap Register}
    (settled : Allocation.Settled t p flow colorer last registers) (builtIn : colorer.BuiltIn)
    (free : ∀ x ∈ names, t.isReserved x = false) (large : t.budget < names.length) :
    ∃ x ∈ names, x ∈ last.spills.names :=
  ((alone crowd).each ok).spills nodup settled builtIn free large

end Crowd

end Regalloc
