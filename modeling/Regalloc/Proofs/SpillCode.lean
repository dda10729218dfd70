import Regalloc.Proofs.Allocation
import Regalloc.Proofs.Machine

/-! The code for one instruction, run. It reads each name from where it lives, does what the
instruction does, and puts the name that is written where it lives. Nothing else changes but the
scratch registers. -/
namespace Regalloc

/-- The lines stand in the code from position `k` on, whatever their marks. -/
def CodeAt (code : List Statement) (k : Nat) (lines : List Statement) : Prop :=
  ∀ j, j < lines.length → (code[k + j]?).map Statement.unmarked = lines[j]?

namespace CodeAt

variable {code lines others : List Statement} {line : Statement} {k : Nat}

theorem left (stands : CodeAt code k (lines ++ others)) : CodeAt code k lines := by
  intro j bound
  rw [stands j (by simp; omega), List.getElem?_append_left bound]

theorem right (stands : CodeAt code k (lines ++ others)) :
    CodeAt code (k + lines.length) others := by
  intro j bound
  have whole := stands (lines.length + j) (by simp; omega)
  rwa [← Nat.add_assoc, List.getElem?_append_right (Nat.le_add_right _ _),
    Nat.add_sub_cancel_left] at whole

theorem head (stands : CodeAt code k (line :: lines)) :
    (code[k]?).map Statement.unmarked = some line := stands 0 (Nat.succ_pos _)

theorem tail (stands : CodeAt code k (line :: lines)) : CodeAt code (k + 1) lines := by
  intro j bound
  have whole := stands (j + 1) (Nat.succ_lt_succ bound)
  rwa [← Nat.add_assoc, Nat.add_right_comm] at whole

end CodeAt

namespace World

structure Agree (free : Int → Prop) (w w' : World) : Prop where
  input : w'.input = w.input
  output : w'.output = w.output
  memory : ∀ address, free address → w'.memory address = w.memory address

end World

namespace Machine

variable {m : Machine} {op : Opcode} {code : List Statement}

theorem effectFixed (m : Machine) (op : Opcode) {s s' : Statement} (fixed : s'.fixed = s.fixed)
    (reads : List Int) (w : World) : m.effect op s' reads w = m.effect op s reads w := by
  have immediate : s'.immediate = s.immediate := by
    rw [Statement.immediateFixed, fixed, ← Statement.immediateFixed]
  have destination : s'.destination? = s.destination? := by
    rw [Statement.destinationFixed, fixed, ← Statement.destinationFixed]
  cases op with
  | aluImm op => cases op <;> simp [effect, immediate]
  | jump | branch condition => simp [effect, destination]
  | _ => rfl

theorem effectMemory (m : Machine) {op : Opcode} {reads : List Int} {address : Int}
    (kept : op = .store → address ≠ reads.getD 1 0) (s : Statement) (w : World) :
    (m.effect op s reads w).world.memory address = w.memory address := by
  cases op with
  | aluImm op => cases op <;> rfl
  | store => exact w.putOther (kept rfl) _
  | _ => rfl

theorem effectAgrees (m : Machine) (op : Opcode) (s : Statement) (reads : List Int)
    {free : Int → Prop} {w w' : World} (agree : World.Agree free w w')
    (touched : ∀ address ∈ address? op reads, free address) :
    (m.effect op s reads w').result = (m.effect op s reads w).result ∧
      (m.effect op s reads w').control = (m.effect op s reads w).control ∧
      World.Agree free (m.effect op s reads w).world (m.effect op s reads w').world ∧
      ∀ address, ¬ free address →
        (m.effect op s reads w').world.memory address = w'.memory address := by
  have still : ∀ address, ¬ free address →
      (m.effect op s reads w').world.memory address = w'.memory address := by
    refine fun address outside => effectMemory m (fun stores same => outside ?_) s w'
    subst stores
    exact same ▸ touched _ rfl
  cases op with
  | aluImm op => cases op <;> exact ⟨rfl, rfl, agree, still⟩
  | load => exact ⟨congrArg some (agree.memory _ (touched _ rfl)), rfl, agree, still⟩
  | store =>
    refine ⟨rfl, rfl, ⟨agree.input, agree.output, fun address inside => ?_⟩, still⟩
    by_cases same : address = reads.getD 1 0
    · rw [same]
      exact (w'.putSelf _ _).trans (w.putSelf _ _).symm
    · exact ((w'.putOther same _).trans (agree.memory address inside)).trans
        (w.putOther same _).symm
  | input | read =>
    refine ⟨?_, rfl, ⟨?_, agree.output, agree.memory⟩, still⟩
    · simp [effect, agree.input]
    · simp [effect, agree.input]
  | output | print =>
    refine ⟨rfl, rfl, ⟨agree.input, ?_, agree.memory⟩, still⟩
    simp [effect, agree.output]
  | _ => exact ⟨rfl, rfl, agree, still⟩

theorem effectNext (stays : op.leaves = false) (plain : op ≠ .call) (s : Statement)
    (reads : List Int) (w : World) : (m.effect op s reads w).control = .next := by
  cases op with
  | aluImm op => cases op <;> rfl
  | jump | branch _ | ret | stop => contradiction
  | call => exact absurd rfl plain
  | _ => rfl

end Machine

namespace Expansion

variable {t : Target} {place : Placement} {live : NameSet} {inst : Instruction} {x : Name}
  {m : Machine} {code : List Statement} {s : State} {r : Register}

structure Suited (t : Target) (place : Placement) : Prop where
  scratch : t.scratchValue ≠ t.scratchAddress
  stackValue : t.stackPointer ≠ t.scratchValue
  stackAddress : t.stackPointer ≠ t.scratchAddress
  nodup : place.spills.names.Nodup
  stride : 0 < place.spills.stride

def loaded (t : Target) (r : Register) (sp : Int) (offset : Nat) (s : State) : State :=
  ⟨s.position + 2,
    Function.update (Function.update s.registers t.scratchAddress.text (sp + offset)) r.text
      (s.world.memory (sp + offset)), s.world⟩

theorem loadedSelf {sp : Int} {offset : Nat} :
    (loaded t r sp offset s).registers r.text = s.world.memory (sp + offset) :=
  Function.update_self ..

theorem loadedOther {sp : Int} {offset : Nat} {q : Register} (first : q ≠ r)
    (second : q ≠ t.scratchAddress) :
    (loaded t r sp offset s).registers q.text = s.registers q.text := by
  unfold loaded
  dsimp only
  rw [Function.update_of_ne fun same => first (Register.textInjective same),
    Function.update_of_ne fun same => second (Register.textInjective same)]

theorem stepAddress {sp : Int} {offset : Nat} {lines : List Statement}
    (stands : CodeAt code s.position (slotAddress t offset :: lines))
    (stack : s.registers t.stackPointer.text = sp) :
    m.step code s = some ⟨s.position + 1,
      Function.update s.registers t.scratchAddress.text (sp + offset), s.world⟩ := by
  rw [Machine.stepUnmarked stands.head rfl]
  change some (State.mk _ (Function.update _ _ (_ + m.immediate (toString offset))) _) = _
  rw [m.decimal, ← stack]
  rfl

theorem runLoad {sp : Int} {offset : Nat} (stands : CodeAt code s.position (load t r offset))
    (stack : s.registers t.stackPointer.text = sp) : m.Run code 2 s (loaded t r sp offset s) := by
  refine .step (stepAddress stands stack) (.one ?_)
  rw [Machine.stepUnmarked stands.tail.head rfl]
  change some (State.mk _ (Function.update _ _ (s.world.memory
    (Function.update s.registers t.scratchAddress.text _ t.scratchAddress.text))) _) = _
  rw [Function.update_self]
  rfl

theorem runStoreBack (suited : Suited t place) {sp : Int} {offset : Nat}
    (stands : CodeAt code s.position (storeBack t offset))
    (stack : s.registers t.stackPointer.text = sp) :
    m.Run code 2 s ⟨s.position + 2,
      Function.update s.registers t.scratchAddress.text (sp + offset),
      s.world.put (sp + offset) (s.registers t.scratchValue.text)⟩ := by
  have apart : t.scratchValue.text ≠ t.scratchAddress.text :=
    fun same => suited.scratch (Register.textInjective same)
  refine .step (stepAddress stands stack) (.one ?_)
  rw [Machine.stepUnmarked stands.tail.head rfl]
  change some (State.mk (s.position + 2) _ (s.world.put
    (Function.update s.registers t.scratchAddress.text (sp + offset) t.scratchAddress.text)
    (Function.update s.registers t.scratchAddress.text (sp + offset) t.scratchValue.text))) = _
  rw [Function.update_self, Function.update_of_ne apart]
  rfl

def renamed (t : Target) (place : Placement) (scratch : List (Name × Register)) (x : Name) : Name :=
  (register? t place scratch x).elim x Register.text

theorem coreRegistersIn {op : Opcode} (coded : inst.opcode = some op)
    (scratch : List (Name × Register)) (wanted : Slot) :
    (core t place scratch op inst).registersIn wanted =
      (inst.registersIn wanted).map (renamed t place scratch) := by
  have shaped : (core t place scratch op inst).shape = inst.shape := by
    rw [Instruction.shape, coded]
    rfl
  have value : ∀ value : Value, (rename t place scratch value).register? =
      value.register?.map (renamed t place scratch) := fun value => by
    cases value <;> rfl
  unfold Statement.registersIn Instruction.registersIn Instruction.slots
  rw [shaped, core, Statement.plain, List.zip_map_right, List.filterMap_map, List.map_filterMap]
  refine List.filterMap_congr fun entry _ => ?_
  obtain ⟨slot, operand⟩ := entry
  by_cases same : slot = wanted <;> simp [same, value]

theorem spilledGensNodup (place : Placement) (inst : Instruction) :
    (spilledGens place inst).Nodup := by
  refine (gatherFold _ _ ?_).1
  cases (spilledKill? place inst).filter (fun x => x ∈ inst.gens) <;> simp

theorem spilledGensLength (place : Placement) (inst : Instruction) :
    (spilledGens place inst).length ≤ 2 := by
  refine Nat.le_trans ?_ inst.gensLength
  exact (List.subperm_of_subset (spilledGensNodup place inst)
    fun x mem => (spilledGensIff.mp mem).1).length_le

theorem spilledGensCases (place : Placement) (inst : Instruction) :
    spilledGens place inst = [] ∨ (∃ x, spilledGens place inst = [x]) ∨
      ∃ x y, x ≠ y ∧ spilledGens place inst = [x, y] := by
  have length := spilledGensLength place inst
  have nodup := spilledGensNodup place inst
  cases gens : spilledGens place inst with
  | nil => exact .inl rfl
  | cons x rest =>
    rw [gens] at length nodup
    cases rest with
    | nil => exact .inr (.inl ⟨x, rfl⟩)
    | cons y rest =>
      have last : rest = [] := by
        simp only [List.length_cons] at length
        exact List.length_eq_zero_iff.mp (by omega)
      subst last
      exact .inr (.inr ⟨x, y, fun same => by simp [same] at nodup, rfl⟩)

theorem killFirst (found : spilledKill? place inst = some x) (read : x ∈ inst.gens) :
    ∃ rest, spilledGens place inst = x :: rest := by
  have both : (spilledKill? place inst).filter (fun x => x ∈ inst.gens) = some x := by
    simp [found, Option.filter, read]
  have first := (gatherFold (inst.gens.filter place.spills.contains) [x] (List.nodup_singleton x)).2.2
  obtain ⟨rest, split⟩ := first
  refine ⟨rest, ?_⟩
  rw [spilledGens, both]
  exact split.symm

theorem scratchSplit (t : Target) (place : Placement) (inst : Instruction) :
    ∃ more, scratch t place inst =
        (spilledGens place inst).zip [t.scratchValue, t.scratchAddress] ++ more ∧
      (more = [] ∧ (∀ x, spilledKill? place inst = some x → x ∈ inst.gens) ∨
        ∃ x, spilledKill? place inst = some x ∧ x ∉ inst.gens ∧ more = [(x, t.scratchValue)]) := by
  have names : ((spilledGens place inst).zip [t.scratchValue, t.scratchAddress]).map Prod.fst =
      spilledGens place inst := List.map_fst_zip (spilledGensLength place inst)
  unfold scratch
  dsimp only
  cases killed : spilledKill? place inst with
  | none => exact ⟨[], (List.append_nil _).symm, .inl ⟨rfl, fun _ absent => nomatch absent⟩⟩
  | some x =>
    have member : ((spilledGens place inst).zip [t.scratchValue, t.scratchAddress]).any
        (fun entry => entry.1 == x) = true ↔ x ∈ inst.gens := by
      have inside : x ∈ spilledGens place inst ↔ x ∈ inst.gens := by
        rw [spilledGensIff]
        exact and_iff_left (spilledKillIn killed).2
      have listed : x ∈ ((spilledGens place inst).zip [t.scratchValue, t.scratchAddress]).map Prod.fst ↔
          x ∈ inst.gens := by
        rw [names]
        exact inside
      rw [← listed]
      simp
    dsimp only
    by_cases read : x ∈ inst.gens
    · rw [if_pos (member.mpr read)]
      exact ⟨[], (List.append_nil _).symm, .inl ⟨rfl, fun y same => Option.some.inj same ▸ read⟩⟩
    · rw [if_neg fun any => read (member.mp any)]
      exact ⟨_, rfl, .inr ⟨x, rfl, read, rfl⟩⟩

def slot (place : Placement) (x : Name) : Nat := (place.spills.offset? x).getD 0

theorem loadsSplit (t : Target) (place : Placement) (inst : Instruction) :
    loads t place inst = ((spilledGens place inst).zip [t.scratchValue, t.scratchAddress]).flatMap
      fun entry => load t entry.2 (slot place entry.1) := by
  obtain ⟨more, split, rest⟩ := scratchSplit t place inst
  unfold loads
  rw [split, List.flatMap_append]
  refine (congrArg₂ (· ++ ·) (List.flatMap_congr fun (x, r) mem => ?_)
    (List.flatMap_eq_nil_iff.mpr fun (x, r) mem => ?_)).trans (List.append_nil _)
  · obtain ⟨read, spilled⟩ := spilledGensIff.mp (List.of_mem_zip mem).1
    obtain ⟨offset, found⟩ := Spills.offsetSome.mpr spilled
    simp [found, read, slot]
  · rcases rest with ⟨rfl, _⟩ | ⟨y, _, unread, rfl⟩
    · contradiction
    · cases List.mem_singleton.mp mem
      dsimp only
      split
      · exact if_neg unread
      · rfl

theorem scratchSpilled (t : Target) (place : Placement) (inst : Instruction) :
    ∀ entry ∈ scratch t place inst, entry.1 ∈ place.spills.names := by
  obtain ⟨more, split, rest⟩ := scratchSplit t place inst
  intro (x, r) mem
  rw [split] at mem
  rcases List.mem_append.mp mem with read | last
  · exact (spilledGensIff.mp (List.of_mem_zip read).1).2
  · rcases rest with ⟨rfl, _⟩ | ⟨y, killed, _, rfl⟩
    · contradiction
    · cases List.mem_singleton.mp last
      exact (spilledKillIn killed).2

theorem renamedKept (kept : x ∉ place.spills.names) :
    renamed t place (scratch t place inst) x = renamed t place [] x := by
  have none : (scratch t place inst).find? (fun entry => entry.1 == x) = none := by
    refine List.find?_eq_none.mpr fun entry mem same => kept ?_
    exact (beq_iff_eq.mp same) ▸ scratchSpilled t place inst entry mem
  unfold renamed register?
  rw [none]
  rfl

theorem renamedFirst {rest : List (Name × Register)} (split : scratch t place inst = (x, r) :: rest) :
    renamed t place (scratch t place inst) x = r.text := by
  unfold renamed register?
  rw [split, List.find?_cons_of_pos (by simp)]
  rfl

theorem renamedSecond {y : Name} {a : Register} {rest : List (Name × Register)} (apart : x ≠ y)
    (split : scratch t place inst = (y, a) :: (x, r) :: rest) :
    renamed t place (scratch t place inst) x = r.text := by
  unfold renamed register?
  rw [split, List.find?_cons_of_neg (by simpa using Ne.symm apart),
    List.find?_cons_of_pos (by simp)]
  rfl

def held (t : Target) (place : Placement) (sp : Int) (s : State) (x : Name) : Int :=
  if x ∈ place.spills.names then s.world.memory (sp + slot place x)
  else s.registers (renamed t place [] x)

def Housed (t : Target) (place : Placement) (x : Name) : Prop :=
  x ∉ place.spills.names →
    ∃ r, renamed t place [] x = r.text ∧ r ≠ t.scratchValue ∧ r ≠ t.scratchAddress

theorem runLoads (suited : Suited t place) {sp : Int}
    (stands : CodeAt code s.position (loads t place inst))
    (stack : s.registers t.stackPointer.text = sp) (housed : ∀ x ∈ inst.gens, Housed t place x) :
    ∃ registers, m.Run code (loads t place inst).length s
        ⟨s.position + (loads t place inst).length, registers, s.world⟩ ∧
      (∀ r, r ≠ t.scratchValue → r ≠ t.scratchAddress →
        registers r.text = s.registers r.text) ∧
      ∀ x ∈ inst.gens, registers (renamed t place (scratch t place inst) x) = held t place sp s x := by
  have keptRead : ∀ registers : Name → Int,
      (∀ r, r ≠ t.scratchValue → r ≠ t.scratchAddress → registers r.text = s.registers r.text) →
      ∀ x ∈ inst.gens, x ∉ place.spills.names →
        registers (renamed t place (scratch t place inst) x) = held t place sp s x := by
    intro registers frame x read kept
    obtain ⟨r, name, value, address⟩ := housed x read kept
    rw [held, if_neg kept, renamedKept kept, name]
    exact frame r value address
  obtain ⟨more, split, _⟩ := scratchSplit t place inst
  rcases spilledGensCases place inst with gens | ⟨u, gens⟩ | ⟨u, v, apart, gens⟩
  · have none : loads t place inst = [] := by rw [loadsSplit, gens]; rfl
    refine ⟨s.registers, ?_, fun _ _ _ => rfl, fun x read => ?_⟩
    · rw [none]
      exact .refl s
    · refine keptRead s.registers (fun _ _ _ => rfl) x read fun spilled => ?_
      have mem := spilledGensIff.mpr ⟨read, spilled⟩
      rw [gens] at mem
      contradiction
  · have one : loads t place inst = load t t.scratchValue (slot place u) := by
      rw [loadsSplit, gens]
      exact List.flatMap_singleton _ _
    rw [one] at stands ⊢
    rw [gens] at split
    have frame : ∀ r, r ≠ t.scratchValue → r ≠ t.scratchAddress →
        (loaded t t.scratchValue sp (slot place u) s).registers r.text = s.registers r.text :=
      fun r value address => loadedOther value address
    refine ⟨_, runLoad stands stack, frame, fun x read => ?_⟩
    by_cases spilled : x ∈ place.spills.names
    · have mem := spilledGensIff.mpr ⟨read, spilled⟩
      rw [gens, List.mem_singleton] at mem
      subst mem
      rw [renamedFirst split, held, if_pos spilled]
      exact loadedSelf
    · exact keptRead _ frame x read spilled
  · have two : loads t place inst =
        load t t.scratchValue (slot place u) ++ load t t.scratchAddress (slot place v) := by
      rw [loadsSplit, gens]
      simp
    rw [two] at stands ⊢
    rw [gens] at split
    have first := runLoad (m := m) stands.left stack
    have second := runLoad (m := m) (s := loaded t t.scratchValue sp (slot place u) s) stands.right
      ((loadedOther suited.stackValue suited.stackAddress).trans stack)
    have frame : ∀ r, r ≠ t.scratchValue → r ≠ t.scratchAddress →
        (loaded t t.scratchAddress sp (slot place v)
          (loaded t t.scratchValue sp (slot place u) s)).registers r.text = s.registers r.text :=
      fun r value address => (loadedOther address address).trans (loadedOther value address)
    refine ⟨_, first.append second, frame, fun x read => ?_⟩
    by_cases spilled : x ∈ place.spills.names
    · have mem := spilledGensIff.mpr ⟨read, spilled⟩
      rw [gens, List.mem_cons, List.mem_singleton] at mem
      rw [held, if_pos spilled]
      rcases mem with rfl | rfl
      · rw [renamedFirst split]
        exact (loadedOther suited.scratch suited.scratch).trans loadedSelf
      · rw [renamedSecond (Ne.symm apart) split]
        exact loadedSelf
    · exact keptRead _ frame x read spilled

theorem bodyOperation {op : Opcode} (coded : inst.opcode = some op) (plain : op ≠ .call) :
    body t place live inst =
      loads t place inst ++ core t place (scratch t place inst) op inst :: stores t place inst := by
  unfold body
  rw [coded]
  cases op <;> first | exact List.append_assoc .. | exact absurd rfl plain

theorem slotInjective (suited : Suited t place) {y : Name} (spilledX : x ∈ place.spills.names)
    (spilledY : y ∈ place.spills.names) (same : slot place x = slot place y) : x = y := by
  obtain ⟨i, atX⟩ := List.mem_iff_getElem?.mp spilledX
  obtain ⟨j, atY⟩ := List.mem_iff_getElem?.mp spilledY
  rw [slot, slot, Spills.offsetAt suited.nodup atX, Spills.offsetAt suited.nodup atY] at same
  have index : i = j := Nat.eq_of_mul_eq_mul_right suited.stride same
  exact Option.some.inj (atX.symm.trans (index ▸ atY))

theorem renamedKill (killed : spilledKill? place inst = some x) :
    renamed t place (scratch t place inst) x = t.scratchValue.text := by
  obtain ⟨more, split, rest⟩ := scratchSplit t place inst
  by_cases read : x ∈ inst.gens
  · obtain ⟨others, first⟩ := killFirst killed read
    rw [first] at split
    exact renamedFirst split
  · rcases rest with ⟨_, all⟩ | ⟨y, same, _, rfl⟩
    · exact absurd (all x killed) read
    · cases Option.some.inj (killed.symm.trans same)
      have none : ((spilledGens place inst).zip [t.scratchValue, t.scratchAddress]).find?
          (fun entry => entry.1 == x) = none := by
        refine List.find?_eq_none.mpr fun (y, r) mem same => read ?_
        exact (beq_iff_eq.mp same) ▸ (spilledGensIff.mp (List.of_mem_zip mem).1).1
      unfold renamed register?
      rw [split, List.find?_append, none]
      simp

def Free (place : Placement) (sp : Int) (address : Int) : Prop :=
  ∀ x ∈ place.spills.names, address ≠ sp + slot place x

/-- What the code for an instruction does to the state `s`, where the instruction itself has the
result and leaves the world. -/
structure Ran (t : Target) (place : Placement) (inst : Instruction) (sp : Int)
    (result : Option Int) (world : World) (s u : State) : Prop where
  agree : World.Agree (Free place sp) world u.world
  slots : ∀ x ∈ place.spills.names, x ∉ inst.kills →
    u.world.memory (sp + slot place x) = s.world.memory (sp + slot place x)
  registers : ∀ r, r ≠ t.scratchValue → r ≠ t.scratchAddress →
    (∀ x ∈ inst.kills, x ∉ place.spills.names → renamed t place [] x ≠ r.text) →
    u.registers r.text = s.registers r.text
  result : ∀ x ∈ inst.kills, ∀ value ∈ result, held t place sp u x = value

theorem notFree {sp : Int} (spilled : x ∈ place.spills.names) :
    ¬ Free place sp (sp + slot place x) := fun free => free x spilled rfl

end Expansion

theorem Machine.effectResult {m : Machine} {inst : Instruction} {op : Opcode} {x : Name}
    (coded : inst.opcode = some op) (killed : x ∈ inst.kills) (s : Statement) (reads : List Int)
    (w : World) : ∃ value, (m.effect op s reads w).result = some value := by
  have written := Instruction.killWritten coded killed
  cases op with
  | alu op => exact ⟨_, rfl⟩
  | aluImm op => cases op <;> exact ⟨_, rfl⟩
  | load | input | read => exact ⟨_, rfl⟩
  | _ => simp [Opcode.shape] at written

namespace Expansion

variable {t : Target} {place : Placement} {live : NameSet} {inst : Instruction} {m : Machine}
  {code : List Statement} {s : State} {op : Opcode} {sp : Int} {reads : List Int} {w : World}

theorem coreKills (coded : inst.opcode = some op) :
    (core t place (scratch t place inst) op inst).kills =
      inst.kills.map (renamed t place (scratch t place inst)) := by
  rw [Statement.kills, coreRegistersIn coded, ← Instruction.kills]

inductive Finished (t : Target) (place : Placement) (inst : Instruction) (sp : Int) (e : Effect)
    (registers : Name → Int) : State → Prop where
  | kept {i : Nat} (unspilled : ∀ x ∈ inst.kills, x ∉ place.spills.names) :
    Finished t place inst sp e registers
      ⟨i, Machine.write (inst.kills.map (renamed t place [])) e.result registers, e.world⟩
  | stored {i : Nat} {x : Name} {v : Int} (killed : spilledKill? place inst = some x)
      (result : e.result = some v) :
    Finished t place inst sp e registers
      ⟨i, Function.update (Function.update registers t.scratchValue.text v) t.scratchAddress.text
        (sp + slot place x), e.world.put (sp + slot place x) v⟩

theorem storesKept (killed : spilledKill? place inst = none) : stores t place inst = [] := by
  simp [stores, killed]

theorem storesSpilled {x : Name} (killed : spilledKill? place inst = some x) :
    stores t place inst = storeBack t (slot place x) := by
  obtain ⟨offset, found⟩ := Spills.offsetSome.mpr (spilledKillIn killed).2
  simp [stores, killed, slot, found]

section Operation

variable (suited : Suited t place) (coded : inst.opcode = some op) (plain : op ≠ .call)
  (stands : CodeAt code s.position (body t place live inst))
  (stack : s.registers t.stackPointer.text = sp) (housed : ∀ x ∈ inst.gens, Housed t place x)
  (read : inst.gens.map (held t place sp s) = reads)
include suited coded plain stands stack housed read

theorem runOwn : ∃ registers,
    m.Run code (loads t place inst).length s
      ⟨s.position + (loads t place inst).length, registers, s.world⟩ ∧
    (∀ r, r ≠ t.scratchValue → r ≠ t.scratchAddress → registers r.text = s.registers r.text) ∧
    (core t place (scratch t place inst) op inst).gens.map registers = reads ∧
    ∀ i, (m.effect op inst.statement reads s.world).control.go code
        (s.position + (loads t place inst).length) = some i →
      m.Run code ((loads t place inst).length + 1) s
        ⟨i, Machine.write (inst.kills.map (renamed t place (scratch t place inst)))
          (m.effect op inst.statement reads s.world).result registers,
          (m.effect op inst.statement reads s.world).world⟩ := by
  rw [bodyOperation coded plain] at stands
  obtain ⟨registers, run, frame, values⟩ := runLoads (m := m) suited stands.left stack housed
  have gens : (core t place (scratch t place inst) op inst).gens.map registers = reads := by
    rw [Statement.gens, coreRegistersIn coded, List.map_map, ← read]
    exact List.map_congr_left values
  refine ⟨registers, run, frame, gens, fun i goes => run.append (.one ?_)⟩
  rw [Machine.stepUnmarked stands.right.head rfl, gens,
    Machine.effectFixed m op (coreFixed (scratch t place inst) op inst), goes, coreKills coded]
  rfl

theorem runOperation : ∃ registers,
    m.Run code (loads t place inst).length s
      ⟨s.position + (loads t place inst).length, registers, s.world⟩ ∧
    (∀ r, r ≠ t.scratchValue → r ≠ t.scratchAddress → registers r.text = s.registers r.text) ∧
    (core t place (scratch t place inst) op inst).gens.map registers = reads ∧
    ∀ i, (m.effect op inst.statement reads s.world).control.go code
        (s.position + (body t place live inst).length - 1) = some i →
      ∃ u, m.Run code (body t place live inst).length s u ∧ u.position = i ∧
        Finished t place inst sp (m.effect op inst.statement reads s.world) registers u := by
  obtain ⟨registers, run, frame, gens, own⟩ :=
    runOwn (m := m) suited coded plain stands stack housed read
  refine ⟨registers, run, frame, gens, fun i goes => ?_⟩
  rw [bodyOperation coded plain] at stands goes ⊢
  cases killed : spilledKill? place inst with
  | none =>
    have unspilled : ∀ x ∈ inst.kills, x ∉ place.spills.names := fun x mem spilled =>
      List.find?_eq_none.mp killed x mem (by simp [Spills.contains, spilled])
    have names : inst.kills.map (renamed t place (scratch t place inst)) =
        inst.kills.map (renamed t place []) :=
      List.map_congr_left fun x mem => renamedKept (unspilled x mem)
    rw [storesKept killed, List.length_append] at goes ⊢
    exact ⟨_, own i goes, rfl, names ▸ .kept unspilled⟩
  | some x =>
    -- Nothing that writes a name leaves, so the store follows.
    obtain ⟨mem, _⟩ := spilledKillIn killed
    obtain ⟨v, result⟩ := Machine.effectResult (m := m) coded mem inst.statement reads s.world
    have stays : op.leaves = false := eq_false_of_ne_true fun leaves =>
      absurd (killsLeave coded leaves ▸ mem) List.not_mem_nil
    have next := Machine.effectNext (m := m) stays plain inst.statement reads s.world
    have here := own (s.position + (loads t place inst).length + 1) (by rw [next]; rfl)
    rw [result, Instruction.killsOf mem, List.map_singleton, renamedKill killed] at here
    rw [storesSpilled killed] at stands goes ⊢
    have pointer : Function.update registers t.scratchValue.text v t.stackPointer.text = sp := by
      rw [Function.update_of_ne fun same => suited.stackValue (Register.textInjective same),
        frame _ suited.stackValue suited.stackAddress, stack]
    have store := runStoreBack (m := m) suited (s := ⟨s.position + (loads t place inst).length + 1,
      Function.update registers t.scratchValue.text v,
      (m.effect op inst.statement reads s.world).world⟩) stands.right.tail pointer
    dsimp only at store
    rw [Function.update_self] at store
    rw [next] at goes
    cases Option.some.inj goes
    rw [List.length_append]
    exact ⟨_, here.append store, by simp [storeBack, Nat.add_assoc], .stored killed result⟩

end Operation

section Ran

variable {registers : Name → Int} {world after : World} {result : Option Int} {i : Nat}
  (agrees : World.Agree (Free place sp) after world)
  (slots : ∀ x ∈ place.spills.names,
    world.memory (sp + slot place x) = s.world.memory (sp + slot place x))
  (frame : ∀ r, r ≠ t.scratchValue → r ≠ t.scratchAddress →
    registers r.text = s.registers r.text)
include agrees slots frame

theorem ranKept (unspilled : ∀ x ∈ inst.kills, x ∉ place.spills.names) :
    Ran t place inst sp result after s
      ⟨i, Machine.write (inst.kills.map (renamed t place [])) result registers, world⟩ := by
  refine ⟨agrees, fun x spilled _ => slots x spilled, ?_, ?_⟩
  · intro r value address other
    refine (Machine.writeOther ?_ result registers).trans (frame r value address)
    intro mem
    obtain ⟨x, killed, same⟩ := List.mem_map.mp mem
    exact other x killed (unspilled x killed) same
  · intro x mem v same
    rw [held, if_neg (unspilled x mem), show result = some v from same, Instruction.killsOf mem]
    exact Function.update_self ..

theorem ranStored {x : Name} (suited : Suited t place) (killed : spilledKill? place inst = some x)
    (v : Int) :
    Ran t place inst sp (some v) after s
      ⟨i, Function.update (Function.update registers t.scratchValue.text v) t.scratchAddress.text
          (sp + slot place x),
        world.put (sp + slot place x) v⟩ := by
  obtain ⟨mem, spilled⟩ := spilledKillIn killed
  refine ⟨⟨agrees.input, agrees.output, fun address free => ?_⟩, ?_, ?_, ?_⟩
  · exact (world.putOther (free x spilled) v).trans (agrees.memory address free)
  · intro y other unkilled
    have apart : sp + slot place y ≠ sp + slot place x := fun same => by
      have equal := slotInjective suited other spilled (by omega)
      exact unkilled (equal ▸ mem)
    exact (world.putOther apart v).trans (slots y other)
  · intro r value address _
    dsimp only
    rw [Function.update_of_ne fun same => address (Register.textInjective same),
      Function.update_of_ne fun same => value (Register.textInjective same)]
    exact frame r value address
  · intro y written value same
    rw [Instruction.killsOf mem, List.mem_singleton] at written
    subst written
    rw [held, if_pos spilled]
    exact (world.putSelf _ v).trans (Option.some.inj same)

end Ran

theorem runBody (suited : Suited t place) (coded : inst.opcode = some op) (plain : op ≠ .call)
    (stands : CodeAt code s.position (body t place live inst))
    (stack : s.registers t.stackPointer.text = sp)
    (housed : ∀ x, x ∈ inst.gens ∨ x ∈ inst.kills → Housed t place x)
    (read : inst.gens.map (held t place sp s) = reads)
    (agree : World.Agree (Free place sp) w s.world)
    (touched : ∀ address ∈ Machine.address? op reads, Free place sp address) {i : Nat}
    (goes : (m.effect op inst.statement reads w).control.go code
      (s.position + (body t place live inst).length - 1) = some i) :
    ∃ u, m.Run code (body t place live inst).length s u ∧ u.position = i ∧
      Ran t place inst sp (m.effect op inst.statement reads w).result
        (m.effect op inst.statement reads w).world s u := by
  obtain ⟨registers, _, frame, _, runs⟩ := runOperation (m := m) suited coded plain stands stack
    (fun x mem => housed x (.inl mem)) read
  obtain ⟨result, control, agrees, still⟩ :=
    Machine.effectAgrees m op inst.statement reads agree touched
  obtain ⟨u, run, position, finished⟩ := runs i (control ▸ goes)
  have slots := fun x (spilled : x ∈ place.spills.names) => still _ (notFree spilled)
  refine ⟨u, run, position, ?_⟩
  cases finished with
  | kept unspilled =>
    rw [← result]
    exact ranKept agrees slots frame unspilled
  | stored killed stored =>
    rw [← result, stored]
    exact ranStored agrees slots frame suited killed _

theorem haltBody (coded : inst.opcode = some op) (halts : op = .ret ∨ op = .stop)
    (stands : CodeAt code s.position (body t place live inst)) : m.step code s = none := by
  have bare : inst.shape = [] := by
    rw [Instruction.shape, coded]
    rcases halts with rfl | rfl <;> rfl
  have gens : spilledGens place inst = [] := by
    refine List.eq_nil_iff_forall_not_mem.mpr fun x mem => ?_
    have read := (spilledGensIff.mp mem).1
    simp [Instruction.gens, Instruction.registersIn, Instruction.slots, bare] at read
  have plain : op ≠ .call := by rcases halts with rfl | rfl <;> decide
  rw [bodyOperation coded plain, loadsSplit, gens] at stands
  rw [Machine.stepUnmarked stands.head rfl]
  rcases halts with rfl | rfl <;> rfl

end Expansion

end Regalloc
