import Regalloc.Proofs.AcrossCalls
import Regalloc.Proofs.Execution
import Regalloc.Proofs.Simulation

/-! Where the stack pointer stands along a path through compiled code. What is inserted for a call
takes back what it moved, unless control leaves for the callee in between, so the stack pointer is
off by the moves of the program itself and by the registers saved on the way into callees. The slot
of a spilled name is found again just when these cancel. -/
namespace Regalloc

theorem Instruction.killsStatement (inst : Instruction) : inst.kills = inst.statement.kills :=
  inst.registersInStatement .written

theorem Instruction.bareRegistersIn {inst : Instruction} (bare : inst.opcode = none)
    (wanted : Slot) : inst.registersIn wanted = [] := by
  simp [registersIn, slots, shape, bare]

theorem Instruction.registersInShape {inst : Instruction} {wanted : Slot} {x : Name}
    (named : x ∈ inst.registersIn wanted) : ∃ op, inst.opcode = some op ∧ wanted ∈ op.shape := by
  cases coded : inst.opcode with
  | none =>
    rw [bareRegistersIn coded] at named
    contradiction
  | some op =>
    obtain ⟨⟨slot, operand⟩, mem, found⟩ := List.mem_filterMap.mp named
    have inside := (List.of_mem_zip mem).1
    rw [shape, coded] at inside
    dsimp only at found
    split at found
    · rename_i same
      exact ⟨op, rfl, same ▸ inside⟩
    · contradiction

namespace Expansion

variable {t : Target} {place : Placement} {live : NameSet} {inst : Instruction} {op : Opcode}
  {m : Machine} {line : Statement} {r : Register} {rs : List Register}

def lead (t : Target) (place : Placement) (live : NameSet) (inst : Instruction) : List Statement :=
  if inst.opcode = some .call then (saved t place live).flatMap (save t) else loads t place inst

def trail (t : Target) (place : Placement) (live : NameSet) (inst : Instruction) : List Statement :=
  if inst.opcode = some .call then (saved t place live).reverse.flatMap (restore t)
  else stores t place inst

def own (t : Target) (place : Placement) (op : Opcode) (inst : Instruction) : Statement :=
  core t place (if op = .call then [] else scratch t place inst) op inst

theorem bodyParts (coded : inst.opcode = some op) :
    body t place live inst = lead t place live inst ++ own t place op inst :: trail t place live inst := by
  unfold lead trail own
  rw [coded]
  by_cases called : op = .call
  · subst called
    simp only [body, coded, call, if_true, List.append_assoc, List.singleton_append]
  · rw [if_neg called, if_neg fun same => called (Option.some.inj same),
      if_neg fun same => called (Option.some.inj same)]
    exact bodyOperation coded called

structure OwnStack (t : Target) (place : Placement) (insts : List Instruction) : Prop where
  suited : Suited t place
  name : ∀ inst ∈ insts, ∀ x ∈ inst.kills,
    renamed t place (scratch t place inst) x = t.stackPointer.text ↔ x = "SP"
  given : ∀ x r, place.registers.get? x = some r → r ≠ t.stackPointer

section Lines

theorem loadsStill (suited : Suited t place) (mem : line ∈ loads t place inst) :
    t.stackPointer.text ∉ line.kills := by
  rw [loadsSplit] at mem
  obtain ⟨⟨x, r⟩, inside, here⟩ := List.mem_flatMap.mp mem
  have scratched : r = t.scratchValue ∨ r = t.scratchAddress := by
    simpa using (List.of_mem_zip inside).2
  rcases List.mem_pair.mp here with rfl | rfl
  · exact fun killed => suited.stackAddress (Register.textInjective (List.mem_singleton.mp killed))
  · intro killed
    have same := Register.textInjective (List.mem_singleton.mp killed)
    rcases scratched with rfl | rfl
    · exact suited.stackValue same
    · exact suited.stackAddress same

theorem storesStill (suited : Suited t place) (mem : line ∈ stores t place inst) :
    t.stackPointer.text ∉ line.kills := by
  unfold stores at mem
  split at mem
  · rcases List.mem_pair.mp mem with rfl | rfl
    · exact fun killed => suited.stackAddress (Register.textInjective (List.mem_singleton.mp killed))
    · exact List.not_mem_nil
  · contradiction

theorem moveStackMoves {op : Alu} (which : op = .add ∨ op = .sub) :
    (moveStack t op).Moves t.stackPointer.text := by
  refine ⟨?_, rfl, rfl⟩
  rcases which with rfl | rfl
  · exact .inl rfl
  · exact .inr rfl

theorem shiftDown (m : Machine) (t : Target) :
    m.shift t.stackPointer.text (moveStack t .sub) = -t.stride := by
  refine (if_pos List.mem_cons_self).trans ?_
  exact congrArg Int.neg (m.decimal t.stride)

theorem shiftUp (m : Machine) (t : Target) :
    m.shift t.stackPointer.text (moveStack t .add) = t.stride :=
  (if_pos List.mem_cons_self).trans (m.decimal t.stride)

theorem savesMove (mem : line ∈ rs.flatMap (save t)) :
    t.stackPointer.text ∈ line.kills → line.Moves t.stackPointer.text := by
  obtain ⟨r, _, here⟩ := List.mem_flatMap.mp mem
  rcases List.mem_pair.mp here with rfl | rfl
  · exact fun _ => moveStackMoves (.inr rfl)
  · exact fun killed => absurd killed List.not_mem_nil

theorem restoresMove (apart : ∀ r ∈ rs, r ≠ t.stackPointer) (mem : line ∈ rs.flatMap (restore t)) :
    t.stackPointer.text ∈ line.kills → line.Moves t.stackPointer.text := by
  obtain ⟨r, inside, here⟩ := List.mem_flatMap.mp mem
  rcases List.mem_pair.mp here with rfl | rfl
  · intro killed
    exact absurd (Register.textInjective (List.mem_singleton.mp killed)).symm (apart r inside)
  · exact fun _ => moveStackMoves (.inl rfl)

theorem savesShift (m : Machine) (t : Target) (rs : List Register) :
    ((rs.flatMap (save t)).map (m.shift t.stackPointer.text)).sum = -(t.stride * rs.length : Int) := by
  induction rs with
  | nil => simp
  | cons r rs ih =>
    have still : m.shift t.stackPointer.text
        (.plain .store [registerValue r, registerValue t.stackPointer]) = 0 :=
      Machine.shiftOther List.not_mem_nil
    rw [List.flatMap_cons, List.map_append, List.sum_append, ih, save, List.map_cons, List.map_cons,
      List.map_nil, List.sum_cons, List.sum_cons, List.sum_nil, shiftDown, still, List.length_cons,
      Int.natCast_succ, Int.mul_add, Int.mul_one]
    omega

theorem restoresShift (m : Machine) (apart : ∀ r ∈ rs, r ≠ t.stackPointer) :
    ((rs.flatMap (restore t)).map (m.shift t.stackPointer.text)).sum = t.stride * rs.length := by
  induction rs with
  | nil => simp
  | cons r rs ih =>
    have still : m.shift t.stackPointer.text
        (.plain .load [registerValue r, registerValue t.stackPointer]) = 0 := by
      refine Machine.shiftOther fun killed => apart r List.mem_cons_self ?_
      exact (Register.textInjective (List.mem_singleton.mp killed)).symm
    rw [List.flatMap_cons, List.map_append, List.sum_append,
      ih fun r mem => apart r (List.mem_cons_of_mem _ mem), restore, List.map_cons, List.map_cons,
      List.map_nil, List.sum_cons, List.sum_cons, List.sum_nil, still, shiftUp, List.length_cons,
      Int.natCast_succ, Int.mul_add, Int.mul_one]
    omega

end Lines

theorem ownCall (called : inst.opcode = some .call) : (own t place .call inst).kills = [] := by
  rw [own, Statement.kills, coreRegistersIn called, ← Instruction.kills, Program.callKills called]
  rfl

section Own

variable {insts : List Instruction} (stack : OwnStack t place insts) (mem : inst ∈ insts)
  (coded : inst.opcode = some op)
include stack mem coded

theorem ownWrites : t.stackPointer.text ∈ (own t place op inst).kills ↔ "SP" ∈ inst.kills := by
  by_cases called : op = .call
  · subst called
    rw [ownCall coded, Program.callKills coded]
    simp
  · rw [own, if_neg called, Statement.kills, coreRegistersIn coded, ← Instruction.kills, List.mem_map]
    constructor
    · rintro ⟨x, killed, same⟩
      exact (stack.name inst mem x killed).mp same ▸ killed
    · exact fun killed => ⟨"SP", killed, (stack.name inst mem "SP" killed).mpr rfl⟩

theorem ownMoves (moves : inst.statement.Moves "SP") :
    (own t place op inst).Moves t.stackPointer.text := by
  obtain ⟨operation, kills, gens⟩ := moves
  rw [show inst.statement.opcode = some op from coded] at operation
  have plain : op ≠ .call := by
    rintro rfl
    simp at operation
  have killed : "SP" ∈ inst.kills := inst.killsStatement ▸ kills ▸ List.mem_singleton.mpr rfl
  have same := congrArg (fun y => [y]) ((stack.name inst mem "SP" killed).mpr rfl)
  rw [own, if_neg plain]
  refine ⟨operation, ?_, ?_⟩
  · rw [Statement.kills, coreRegistersIn coded, inst.registersInStatement, ← Statement.kills, kills]
    exact same
  · rw [Statement.gens, coreRegistersIn coded, inst.registersInStatement, ← Statement.gens, gens]
    exact same

theorem ownShift (m : Machine) (moves : inst.statement.Moves "SP") :
    m.shift t.stackPointer.text (own t place op inst) = m.shift "SP" inst.statement := by
  have immediate : (own t place op inst).immediate = inst.statement.immediate := by
    rw [Statement.immediateFixed, own, coreFixed, ← Statement.immediateFixed]
  unfold Machine.shift
  rw [(ownMoves stack mem coded moves).kills, moves.kills, if_pos List.mem_cons_self,
    if_pos List.mem_cons_self, immediate, show inst.statement.opcode = some op from coded]
  rfl

end Own

/-- How far the stack pointer has come in the lines for a call, `n` of which are done. -/
def rise (m : Machine) (t : Target) (place : Placement) (live : NameSet) (inst : Instruction)
    (n : Nat) : Int :=
  if inst.opcode = some .call then
    (((body t place live inst).take n).map (m.shift t.stackPointer.text)).sum
  else 0

theorem riseZero : rise m t place live inst 0 = 0 := by
  unfold rise
  split <;> rfl

theorem risePlain (plain : inst.opcode ≠ some .call) (n : Nat) : rise m t place live inst n = 0 :=
  if_neg plain

theorem riseNext (called : inst.opcode = some .call) {n : Nat}
    (found : (body t place live inst)[n]? = some line) :
    rise m t place live inst (n + 1) =
      rise m t place live inst n + m.shift t.stackPointer.text line := by
  unfold rise
  rw [if_pos called, if_pos called, List.take_add_one, found]
  simp

theorem savedApart (given : ∀ x r, place.registers.get? x = some r → r ≠ t.stackPointer) :
    ∀ r ∈ saved t place live, r ≠ t.stackPointer := fun r mem => by
  obtain ⟨x, _, found, _⟩ := savedSource mem
  exact given x r found

theorem aroundStill (suited : Suited t place) (plain : inst.opcode ≠ some .call)
    (mem : line ∈ lead t place live inst ∨ line ∈ trail t place live inst) :
    t.stackPointer.text ∉ line.kills := by
  unfold lead trail at mem
  rw [if_neg plain, if_neg plain] at mem
  exact mem.elim (loadsStill suited) (storesStill suited)

theorem aroundMoves {insts : List Instruction} (stack : OwnStack t place insts)
    (mem : line ∈ lead t place live inst ∨ line ∈ trail t place live inst) :
    t.stackPointer.text ∈ line.kills → line.Moves t.stackPointer.text := by
  by_cases called : inst.opcode = some .call
  · unfold lead trail at mem
    rw [if_pos called, if_pos called] at mem
    rcases mem with front | back
    · exact savesMove front
    · exact restoresMove (fun r mem => savedApart stack.given r (List.mem_reverse.mp mem)) back
  · exact fun killed => absurd killed (aroundStill stack.suited called mem)

theorem leadPlain (plain : inst.opcode ≠ some .call) :
    lead t place live inst = loads t place inst := if_neg plain

theorem leadBare (bare : inst.opcode = none) : lead t place live inst = [] := by
  have unread : spilledGens place inst = [] := by
    refine List.eq_nil_iff_forall_not_mem.mpr fun x mem => ?_
    have read := (spilledGensIff.mp mem).1
    rw [Instruction.gens, Instruction.bareRegistersIn bare] at read
    contradiction
  rw [lead, bare, if_neg (by simp), loadsSplit, unread]
  rfl

theorem leadCall (called : inst.opcode = some .call) :
    lead t place live inst = (saved t place live).flatMap (save t) := if_pos called

theorem trailCall (called : inst.opcode = some .call) :
    trail t place live inst = (saved t place live).reverse.flatMap (restore t) := if_pos called

theorem riseOwn (called : inst.opcode = some .call) :
    rise m t place live inst (lead t place live inst).length =
      -(t.stride * (saved t place live).length : Int) := by
  rw [rise, if_pos called, bodyParts called, List.take_left, leadCall called, savesShift]

theorem riseEnd (given : ∀ x r, place.registers.get? x = some r → r ≠ t.stackPointer)
    (called : inst.opcode = some .call) :
    rise m t place live inst (body t place live inst).length = 0 := by
  have still : m.shift t.stackPointer.text (own t place .call inst) = 0 :=
    Machine.shiftOther (ownCall called ▸ List.not_mem_nil)
  have back := @restoresShift t (saved t place live).reverse m fun r mem =>
    savedApart given r (List.mem_reverse.mp mem)
  rw [rise, if_pos called, List.take_length, bodyParts called, List.map_append, List.sum_append,
    List.map_cons, List.sum_cons, still, leadCall called, savesShift, trailCall called, back,
    List.length_reverse]
  omega

theorem aroundInserted
    (mem : line ∈ lead t place live inst ∨ line ∈ trail t place live inst) : line.Inserted := by
  unfold lead trail at mem
  by_cases called : inst.opcode = some .call
  · rw [if_pos called, if_pos called] at mem
    rcases mem with front | back
    · obtain ⟨r, _, here⟩ := List.mem_flatMap.mp front
      rcases List.mem_pair.mp here with rfl | rfl
      · exact ⟨.inr (.inl rfl), rfl⟩
      · exact ⟨.inr (.inr (.inr rfl)), rfl⟩
    · obtain ⟨r, _, here⟩ := List.mem_flatMap.mp back
      rcases List.mem_pair.mp here with rfl | rfl
      · exact ⟨.inr (.inr (.inl rfl)), rfl⟩
      · exact ⟨.inl rfl, rfl⟩
  · rw [if_neg called, if_neg called] at mem
    rcases mem with front | back
    · rw [loadsSplit] at front
      obtain ⟨entry, _, here⟩ := List.mem_flatMap.mp front
      rcases List.mem_pair.mp here with rfl | rfl
      · exact ⟨.inl rfl, rfl⟩
      · exact ⟨.inr (.inr (.inl rfl)), rfl⟩
    · unfold stores at back
      split at back
      · rcases List.mem_pair.mp back with rfl | rfl
        · exact ⟨.inl rfl, rfl⟩
        · exact ⟨.inr (.inr (.inr rfl)), rfl⟩
      · contradiction

end Expansion

theorem Blocks.located {blocks : List (List Statement)} {k : Nat} (bound : k < blocks.flatten.length) :
    ∃ i block n, blocks[i]? = some block ∧ n < block.length ∧ k = start blocks i + n := by
  induction blocks generalizing k with
  | nil => contradiction
  | cons first blocks ih =>
    rcases Nat.lt_or_ge k first.length with inside | beyond
    · exact ⟨0, first, k, rfl, inside, (Nat.zero_add k).symm⟩
    · rw [List.flatten_cons, List.length_append] at bound
      obtain ⟨i, block, n, present, within, same⟩ := ih (k := k - first.length) (by omega)
      exact ⟨i + 1, block, n, present, within, by rw [startCons]; omega⟩

namespace Program

open Expansion (OwnStack lead trail own rise saved body)

variable {t : Target} {p : Program} {l : Liveness} {place : Placement} {m : Machine}
  {i j n a b : Nat} {inst : Instruction} {x : Name}

def ownAt (p : Program) (t : Target) (l : Liveness) (place : Placement) (i : Nat)
    (inst : Instruction) : Nat :=
  Blocks.start (p.blocks t l place) i + (lead t place (l.liveIn i) inst).length

def own? (p : Program) (t : Target) (l : Liveness) (place : Placement) (k : Nat) :
    Option Instruction :=
  let i := Blocks.blockOf (p.blocks t l place) k
  (p.instructions[i]?).filter fun inst => k == p.ownAt t l place i inst

/-- How far the stack pointer is off for good once control goes from `a` to `b`: by what the
instruction itself makes of it, or by what a call has saved when control leaves for the callee. -/
def drift (p : Program) (t : Target) (l : Liveness) (place : Placement) (m : Machine) (a b : Nat)
    (c : Contents) : Int :=
  match p.own? t l place a with
  | some inst =>
    if inst.opcode = some .call then
      if b = a + 1 then 0
      else -(t.stride *
        (saved t place (l.liveIn (Blocks.blockOf (p.blocks t l place) a))).length : Int)
    else if "SP" ∈ inst.kills then
      (m.execute (p.blocks t l place).flatten [a] c).registers t.stackPointer.text -
        c.registers t.stackPointer.text
    else 0
  | none => 0

def drifted (p : Program) (t : Target) (l : Liveness) (place : Placement) (m : Machine) :
    List Nat → Contents → Int
  | a :: b :: path, c =>
    p.drift t l place m a b c +
      p.drifted t l place m (b :: path) (m.execute (p.blocks t l place).flatten [a] c)
  | _, _ => 0

def riseAt (p : Program) (t : Target) (l : Liveness) (place : Placement) (m : Machine) (k : Nat) :
    Int :=
  let i := Blocks.blockOf (p.blocks t l place) k
  ((p.instructions[i]?).map fun inst =>
    rise m t place (l.liveIn i) inst (k - Blocks.start (p.blocks t l place) i)).getD 0

structure Within (p : Program) (t : Target) (l : Liveness) (place : Placement) (i n : Nat)
    (inst : Instruction) : Prop where
  present : p.instructions[i]? = some inst
  bound : n < (Expansion.statements t place (l.liveIn i) inst).length

theorem withinSource (bound : a < (p.blocks t l place).flatten.length) :
    ∃ i n inst, p.Within t l place i n inst ∧ a = Blocks.start (p.blocks t l place) i + n := by
  obtain ⟨i, block, n, found, within, same⟩ := Blocks.located bound
  have inside : i < p.instructions.length := by
    have length := (List.getElem?_eq_some_iff.mp found).1
    simpa [blocks, Expansion.blocksFrom] using length
  have present := List.getElem?_eq_getElem inside
  cases Option.some.inj ((blockAt present).symm.trans found)
  exact ⟨i, n, _, ⟨present, within⟩, same⟩

namespace Within

variable (within : p.Within t l place i n inst)
include within

theorem blockOf : Blocks.blockOf (p.blocks t l place) (Blocks.start (p.blocks t l place) i + n) = i :=
  Blocks.blockOfAt (blockAt within.present) within.bound

theorem line : ∃ line,
    (p.blocks t l place).flatten[Blocks.start (p.blocks t l place) i + n]? = some line :=
  ⟨_, (Blocks.lineAt (blockAt within.present) within.bound).trans
    (List.getElem?_eq_getElem within.bound)⟩

theorem ownOf : p.own? t l place (Blocks.start (p.blocks t l place) i + n) =
    if n = (lead t place (l.liveIn i) inst).length then some inst else none := by
  simp [own?, ownAt, within.blockOf, within.present, Option.filter]

theorem riseAt : p.riseAt t l place m (Blocks.start (p.blocks t l place) i + n) =
    rise m t place (l.liveIn i) inst n := by
  simp [Program.riseAt, within.blockOf, within.present]

theorem driftPlain (plain : inst.opcode ≠ some .call) (c : Contents) :
    p.drift t l place m (Blocks.start (p.blocks t l place) i + n) b c =
      if n = (lead t place (l.liveIn i) inst).length then
        if "SP" ∈ inst.kills then
          (m.execute (p.blocks t l place).flatten [Blocks.start (p.blocks t l place) i + n]
            c).registers t.stackPointer.text - c.registers t.stackPointer.text
        else 0
      else 0 := by
  unfold drift
  rw [within.ownOf]
  by_cases own : n = (lead t place (l.liveIn i) inst).length
  · simp only [if_pos own, if_neg plain]
  · simp only [if_neg own]

theorem driftCall (called : inst.opcode = some .call) (c : Contents) :
    p.drift t l place m (Blocks.start (p.blocks t l place) i + n) b c =
      if n = (lead t place (l.liveIn i) inst).length then
        if b = Blocks.start (p.blocks t l place) i + n + 1 then 0
        else -(t.stride * (saved t place (l.liveIn i)).length : Int)
      else 0 := by
  unfold drift
  rw [within.ownOf, within.blockOf]
  by_cases own : n = (lead t place (l.liveIn i) inst).length
  · simp only [if_pos own, if_pos called]
  · simp only [if_neg own]

theorem coded {op : Opcode} (coded : inst.opcode = some op) :
    n < (body t place (l.liveIn i) inst).length ∧
      ((p.blocks t l place).flatten[Blocks.start (p.blocks t l place) i + n]?).map
        Statement.unmarked = (body t place (l.liveIn i) inst)[n]? := by
  obtain ⟨stands, length⟩ :=
    bodyAt t l place coded within.present
  have bound := length ▸ within.bound
  exact ⟨bound, stands n bound⟩

end Within

theorem startWithin (readable : p.Readable) (bound : j < p.size) :
    p.Within t l place j 0 p.instructions[j] := by
  have present : p.instructions[j]? = some p.instructions[j] := List.getElem?_eq_getElem bound
  exact ⟨present, (Blocks.standsAt (blocksStand readable (Expansion.allowsAll t place) l)
    (blockAt present) (statementAt present)).positive⟩

theorem riseStart (readable : p.Readable) (bound : j < p.size) :
    p.riseAt t l place m (Blocks.start (p.blocks t l place) j) = 0 := by
  exact (startWithin readable bound).riseAt.trans Expansion.riseZero

theorem startOnce (readable : p.Readable) (bound : j < p.size) (within : p.Within t l place i n inst)
    (same : Blocks.start (p.blocks t l place) j = Blocks.start (p.blocks t l place) i + n) :
    n = 0 := by
  have first : p.Within t l place j 0 p.instructions[j] := startWithin readable bound
  have here := first.blockOf
  rw [Nat.add_zero, same, within.blockOf] at here
  subst here
  omega

section Edge

variable (readable : p.Readable) (within : p.Within t l place i n inst)
include readable within

theorem lineCases {line : Statement}
    (found : (p.blocks t l place).flatten[Blocks.start (p.blocks t l place) i + n]? = some line) :
    (inst.opcode = none ∧ n = (lead t place (l.liveIn i) inst).length ∧ line = inst.statement ∧
      n + 1 = (Expansion.statements t place (l.liveIn i) inst).length) ∨
    ∃ op, inst.opcode = some op ∧
      ((n = (lead t place (l.liveIn i) inst).length ∧ line.unmarked = own t place op inst) ∨
        n ≠ (lead t place (l.liveIn i) inst).length ∧
          (line.unmarked ∈ lead t place (l.liveIn i) inst ∨
            line.unmarked ∈ trail t place (l.liveIn i) inst)) := by
  cases coded : inst.opcode with
  | none =>
    have bare : Expansion.statements t place (l.liveIn i) inst = [inst.statement] :=
      Expansion.statementsBare (readableAt readable (List.mem_of_getElem? within.present)) coded
    have bound := within.bound
    rw [Blocks.lineAt (blockAt within.present) bound, bare] at found
    rw [bare] at bound ⊢
    have first : n = 0 := Nat.lt_one_iff.mp bound
    subst first
    exact .inl ⟨rfl, by rw [Expansion.leadBare coded]; rfl, (Option.some.inj found).symm, rfl⟩
  | some op =>
    obtain ⟨_, here⟩ := within.coded coded
    rw [found, Option.map_some, Expansion.bodyParts coded] at here
    refine .inr ⟨op, rfl, ?_⟩
    rcases Nat.lt_trichotomy n (lead t place (l.liveIn i) inst).length with before | same | after
    · rw [List.getElem?_append_left before] at here
      exact .inr ⟨Nat.ne_of_lt before, .inl (List.mem_of_getElem? here.symm)⟩
    · rw [same, List.getElem?_append_right (Nat.le_refl _), Nat.sub_self] at here
      exact .inl ⟨same, Option.some.inj here⟩
    · obtain ⟨rest, split⟩ := Nat.exists_eq_add_of_lt after
      rw [List.getElem?_append_right (Nat.le_of_lt after), split, Nat.add_assoc,
        Nat.add_sub_cancel_left] at here
      exact .inr ⟨Nat.ne_of_gt after, .inr (List.mem_of_getElem? here.symm)⟩

theorem edgeSource (edge : b ∈ Code.succsAt (p.blocks t l place).flatten
      (Blocks.start (p.blocks t l place) i + n)) :
    (n + 1 < (Expansion.statements t place (l.liveIn i) inst).length ∧
      b = Blocks.start (p.blocks t l place) i + n + 1) ∨
    ∃ j < p.size, b = Blocks.start (p.blocks t l place) j ∧
      (n + 1 = (Expansion.statements t place (l.liveIn i) inst).length ∨
        n = (lead t place (l.liveIn i) inst).length) := by
  have stands := blocksStand readable (Expansion.allowsAll t place) l
  obtain ⟨line, found⟩ := within.line
  rw [Code.succsAtLine found] at edge
  rcases Code.succsCases edge with ⟨rfl, inside⟩ | ⟨text, named, position⟩
  · rcases Nat.lt_or_eq_of_le (Nat.succ_le_of_lt within.bound) with more | last
    · exact .inl ⟨more, rfl⟩
    · have next : Blocks.start (p.blocks t l place) (i + 1) = _ :=
        Blocks.startNext (blockAt within.present)
      have later : Blocks.start (p.blocks t l place) i + n + 1 =
          Blocks.start (p.blocks t l place) (i + 1) := by omega
      refine .inr ⟨i + 1, Nat.lt_of_not_le fun ends => ?_, later, .inl last⟩
      have whole : (p.blocks t l place).length = i + 1 := by
        have here := (List.getElem?_eq_some_iff.mp within.present).1
        have length := stands.length_eq
        rw [codeLength, size] at length
        rw [size] at ends
        omega
      rw [later, ← whole, Blocks.startEnd] at inside
      exact Nat.lt_irrefl _ inside
  · rw [Blocks.positionFlatten stands] at position
    obtain ⟨j, at_, same⟩ := Option.map_eq_some_iff.mp position
    refine .inr ⟨j, codeLength ▸ Code.positionLt at_, same.symm, .inr ?_⟩
    rcases lineCases readable within found with ⟨_, own, _⟩ | ⟨_, _, ⟨own, _⟩ | ⟨_, around⟩⟩
    · exact own
    · exact own
    · have straight := (Expansion.aroundInserted around).straight
      exact absurd (straight.symm.trans named) (by simp)

theorem stackPlain (stack : OwnStack t place p.instructions) (plain : inst.opcode ≠ some .call)
    {line : Statement}
    (found : (p.blocks t l place).flatten[Blocks.start (p.blocks t l place) i + n]? = some line)
    (still : n = (lead t place (l.liveIn i) inst).length → "SP" ∉ inst.kills) :
    t.stackPointer.text ∉ line.kills := by
  rcases lineCases readable within found with
    ⟨bare, _, rfl, _⟩ | ⟨op, coded, ⟨here, line_⟩ | ⟨_, around⟩⟩
  · rw [← inst.killsStatement, Instruction.kills, Instruction.bareRegistersIn bare]
    exact List.not_mem_nil
  · have kept : t.stackPointer.text ∉ line.unmarked.kills := by
      rw [line_, Expansion.ownWrites stack (List.mem_of_getElem? within.present) coded]
      exact still here
    exact kept
  · have kept := Expansion.aroundStill stack.suited plain around
    exact kept

theorem savedNone (called : inst.opcode = some .call)
    (leaves : n = (lead t place (l.liveIn i) inst).length) (bound : j < p.size)
    (falls : Blocks.start (p.blocks t l place) j = Blocks.start (p.blocks t l place) i + n + 1) :
    saved t place (l.liveIn i) = [] := by
  have length := (bodyAt t l place called within.present).2
  rw [Expansion.bodyParts called, List.length_append, List.length_cons, ← leaves] at length
  have last : ¬ n + 1 < (Expansion.statements t place (l.liveIn i) inst).length := fun more =>
    absurd (startOnce readable bound ⟨within.present, more⟩ falls) (Nat.succ_ne_zero n)
  have none : trail t place (l.liveIn i) inst = [] := List.length_eq_zero_iff.mp (by omega)
  rw [Expansion.trailCall called, List.flatMap_eq_nil_iff] at none
  refine List.eq_nil_iff_forall_not_mem.mpr fun r mem => ?_
  exact absurd (none r (List.mem_reverse.mpr mem)) (List.cons_ne_nil _ _)

theorem shiftCall (given : ∀ x r, place.registers.get? x = some r → r ≠ t.stackPointer)
    (called : inst.opcode = some .call) {line : Statement}
    (found : (p.blocks t l place).flatten[Blocks.start (p.blocks t l place) i + n]? = some line)
    (edge : b ∈ Code.succsAt (p.blocks t l place).flatten
      (Blocks.start (p.blocks t l place) i + n)) (c : Contents) :
    m.shift t.stackPointer.text line =
      p.drift t l place m (Blocks.start (p.blocks t l place) i + n) b c +
        p.riseAt t l place m b - rise m t place (l.liveIn i) inst n := by
  obtain ⟨_, here⟩ := within.coded called
  rw [found, Option.map_some] at here
  have next : rise m t place (l.liveIn i) inst (n + 1) =
      rise m t place (l.liveIn i) inst n + m.shift t.stackPointer.text line.unmarked :=
    Expansion.riseNext called here.symm
  rw [show m.shift t.stackPointer.text line = m.shift t.stackPointer.text line.unmarked from rfl]
  rw [within.driftCall called]
  rcases edgeSource readable within edge with ⟨more, rfl⟩ | ⟨j, bound, rfl, last⟩
  · -- Control stays in the block.
    have after : p.Within t l place i (n + 1) inst := ⟨within.present, more⟩
    rw [Nat.add_assoc, after.riseAt, next, if_pos rfl, ite_self]
    omega
  · rw [riseStart readable bound]
    by_cases leaves : n = (lead t place (l.liveIn i) inst).length
    · -- Control leaves from the call itself, and what was saved stays on the stack.
      rw [leaves, Expansion.bodyParts called, List.getElem?_append_right (Nat.le_refl _),
        Nat.sub_self] at here
      have still : m.shift t.stackPointer.text line.unmarked = 0 := by
        rw [Option.some.inj here]
        exact Machine.shiftOther (Expansion.ownCall called ▸ List.not_mem_nil)
      have down : rise m t place (l.liveIn i) inst n =
          -(t.stride * (saved t place (l.liveIn i)).length : Int) :=
        leaves ▸ Expansion.riseOwn called
      rw [if_pos leaves, still, down]
      split
      · rename_i falls
        have none := savedNone readable within called leaves bound falls
        rw [none]
        simp
      · omega
    · have ends := last.resolve_right leaves
      have whole : rise m t place (l.liveIn i) inst _ = 0 := Expansion.riseEnd given called
      rw [← (bodyAt t l place called within.present).2, ← ends,
        next] at whole
      rw [if_neg leaves]
      omega

theorem callMoves (stack : OwnStack t place p.instructions) (called : inst.opcode = some .call)
    {line : Statement}
    (found : (p.blocks t l place).flatten[Blocks.start (p.blocks t l place) i + n]? = some line) :
    t.stackPointer.text ∈ line.kills → line.Moves t.stackPointer.text := by
  intro killed
  rcases lineCases readable within found with
    ⟨bare, _⟩ | ⟨op, coded, ⟨_, line_⟩ | ⟨_, around⟩⟩
  · rw [bare] at called
    contradiction
  · cases Option.some.inj (coded.symm.trans called)
    have none : line.kills = [] := (congrArg Statement.kills line_).trans (Expansion.ownCall called)
    rw [none] at killed
    contradiction
  · obtain ⟨operation, kills, gens⟩ := Expansion.aroundMoves stack around killed
    exact ⟨operation, kills, gens⟩

theorem stackStep (subtracts : m.Subtracts) (stack : OwnStack t place p.instructions)
    (edge : b ∈ Code.succsAt (p.blocks t l place).flatten
      (Blocks.start (p.blocks t l place) i + n)) (c : Contents) :
    (m.execute (p.blocks t l place).flatten [Blocks.start (p.blocks t l place) i + n] c).registers
        t.stackPointer.text =
      c.registers t.stackPointer.text +
        p.drift t l place m (Blocks.start (p.blocks t l place) i + n) b c +
        p.riseAt t l place m b -
        p.riseAt t l place m (Blocks.start (p.blocks t l place) i + n) := by
  obtain ⟨line, found⟩ := within.line
  have does : m.execute (p.blocks t l place).flatten [Blocks.start (p.blocks t l place) i + n] c =
      m.perform line c := by
    rw [Machine.execute, List.filterMap_cons, found]
    rfl
  rw [within.riseAt]
  by_cases called : inst.opcode = some .call
  · have shift := shiftCall (m := m) readable within stack.given called found edge c
    rw [does, Machine.performShift subtracts (callMoves readable within stack called found), shift]
    omega
  · have after : p.riseAt t l place m b = 0 := by
      rcases edgeSource readable within edge with ⟨more, rfl⟩ | ⟨j, bound, rfl, _⟩
      · have next : p.Within t l place i (n + 1) inst := ⟨within.present, more⟩
        exact next.riseAt.trans (Expansion.risePlain called _)
      · exact riseStart readable bound
    rw [Expansion.risePlain called, after, within.driftPlain called]
    by_cases own : n = (lead t place (l.liveIn i) inst).length
    · rw [if_pos own]
      by_cases killed : "SP" ∈ inst.kills
      · rw [if_pos killed]
        omega
      · have kept := stackPlain readable within stack called found fun _ => killed
        rw [if_neg killed, does, Machine.performOther kept]
        omega
    · have kept := stackPlain readable within stack called found fun here => absurd here own
      rw [if_neg own, does, Machine.performOther kept]
      omega

end Edge

theorem stackAlong (readable : p.Readable) (subtracts : m.Subtracts)
    (stack : OwnStack t place p.instructions) {path : List Nat}
    (leads : Path (Code.succsAt (p.blocks t l place).flatten) a b path) (c : Contents) :
    (m.execute (p.blocks t l place).flatten path.dropLast c).registers t.stackPointer.text =
      c.registers t.stackPointer.text + p.drifted t l place m path c +
        p.riseAt t l place m b - p.riseAt t l place m a := by
  induction path generalizing a c with
  | nil => exact absurd leads.first (by simp)
  | cons k path ih =>
    rcases leads.cases with ⟨rfl, same⟩ | ⟨next, rest, same, edge, beyond⟩
    · cases same
      change c.registers t.stackPointer.text = _ + 0 + _ - _
      omega
    · obtain ⟨rfl, rfl⟩ := List.cons.inj same
      have bound : k < (p.blocks t l place).flatten.length := Nat.lt_of_not_le fun ends => by
        rw [Code.succsAt, List.getElem?_eq_none ends] at edge
        contradiction
      obtain ⟨i, n, inst, within, rfl⟩ := withinSource bound
      have first := stackStep readable within subtracts stack edge c
      have later := ih beyond (m.execute (p.blocks t l place).flatten
        [Blocks.start (p.blocks t l place) i + n] c)
      rw [beyond.dropLastCons, ← List.singleton_append, Machine.executeAppend, later, first]
      obtain ⟨others, rfl⟩ := List.head?_eq_some_iff.mp beyond.first
      rw [drifted]
      omega

theorem driftNone (inserted : p.own? t l place a = none) (c : Contents) :
    p.drift t l place m a b c = 0 := by
  rw [drift, inserted]

theorem ownSource (own : p.own? t l place a = some inst) :
    ∃ i, p.instructions[i]? = some inst ∧ a = p.ownAt t l place i inst := by
  obtain ⟨present, here⟩ := Option.filter_eq_some_iff.mp own
  exact ⟨_, present, beq_iff_eq.mp here⟩

theorem driftMoves (subtracts : m.Subtracts) (stack : OwnStack t place p.instructions)
    (own : p.own? t l place a = some inst) (moves : inst.statement.Moves "SP") (c : Contents) :
    p.drift t l place m a b c = m.shift "SP" inst.statement := by
  obtain ⟨i, present, rfl⟩ := ownSource own
  have mem := List.mem_of_getElem? present
  have killed : "SP" ∈ inst.kills :=
    inst.killsStatement ▸ moves.kills ▸ List.mem_singleton.mpr rfl
  obtain ⟨op, coded, _⟩ := Instruction.registersInShape killed
  have plain : inst.opcode ≠ some .call := fun called => by
    rw [callKills called] at killed
    contradiction
  have here : (body t place (l.liveIn i) inst)[(lead t place (l.liveIn i) inst).length]? =
      some (Expansion.own t place op inst) := by
    rw [Expansion.bodyParts coded, List.getElem?_append_right (Nat.le_refl _), Nat.sub_self]
    rfl
  have within : p.Within t l place i (lead t place (l.liveIn i) inst).length inst :=
    ⟨present, (bodyAt t l place coded present).2 ▸
      (List.getElem?_eq_some_iff.mp here).1⟩
  have does := Machine.performShift subtracts
    (fun _ => Expansion.ownMoves stack mem coded moves) c
  rw [ownAt, within.driftPlain plain, if_pos rfl, if_pos killed,
    Machine.executeOne ((within.coded coded).2.trans here), does,
    Expansion.ownShift stack mem coded m moves]
  omega

def StoreBackAt (p : Program) (t : Target) (l : Liveness) (place : Placement) (x : Name) (k : Nat) :
    Prop :=
  ∃ i, ∃ inst ∈ p.instructions[i]?, Expansion.spilledKill? place inst = some x ∧
    k = p.ownAt t l place i inst + 1

def LoadAt (p : Program) (t : Target) (l : Liveness) (place : Placement) (x : Name) (k : Nat) :
    Prop :=
  ∃ i, ∃ inst ∈ p.instructions[i]?, x ∈ inst.gens ∧ x ∈ place.spills.names ∧
    ∃ before r after, Expansion.loads t place inst =
      before ++ Expansion.load t r (Expansion.slot place x) ++ after ∧
      k = Blocks.start (p.blocks t l place) i + before.length

structure Takes (p : Program) (t : Target) (l : Liveness) (place : Placement) (m : Machine)
    (x : Name) (k : Nat) : Prop where
  line : ((p.blocks t l place).flatten[k]?).map Statement.unmarked =
    some (Expansion.slotAddress t (Expansion.slot place x))
  settled : p.riseAt t l place m k = 0

theorem takesPlain {op : Opcode} (present : p.instructions[i]? = some inst)
    (coded : inst.opcode = some op) (plain : op ≠ .call)
    (here : (body t place (l.liveIn i) inst)[n]? =
      some (Expansion.slotAddress t (Expansion.slot place x))) :
    p.Takes t l place m x (Blocks.start (p.blocks t l place) i + n) := by
  have length := (bodyAt t l place coded present).2
  have within : p.Within t l place i n inst :=
    ⟨present, length ▸ (List.getElem?_eq_some_iff.mp here).1⟩
  refine ⟨(within.coded coded).2.trans here, within.riseAt.trans (Expansion.risePlain ?_ n)⟩
  exact fun called => plain (Option.some.inj (coded.symm.trans called))

theorem storeBackTakes {k : Nat} (stores : p.StoreBackAt t l place x k) :
    p.Takes t l place m x k := by
  obtain ⟨i, inst, present, killed, rfl⟩ := stores
  obtain ⟨mem, spilled⟩ := Expansion.spilledKillIn killed
  obtain ⟨op, coded, written⟩ := Instruction.registersInShape mem
  have plain : op ≠ .call := by
    rintro rfl
    simp [Opcode.shape] at written
  obtain ⟨offset, found⟩ := Spills.offsetSome.mpr spilled
  have back : Expansion.stores t place inst = Expansion.storeBack t (Expansion.slot place x) := by
    simp [Expansion.stores, killed, Expansion.slot, found]
  rw [ownAt, Expansion.leadPlain fun called => plain (Option.some.inj (coded.symm.trans called)),
    Nat.add_assoc]
  refine takesPlain present coded plain ?_
  rw [Expansion.bodyOperation coded plain, List.getElem?_append_right (Nat.le_add_right _ _),
    Nat.add_sub_cancel_left, back]
  rfl

theorem loadTakes {k : Nat} (loads : p.LoadAt t l place x k) : p.Takes t l place m x k := by
  obtain ⟨i, inst, present, read, _, before, r, after, split, rfl⟩ := loads
  obtain ⟨op, coded, reads⟩ := Instruction.registersInShape read
  have plain : op ≠ .call := by
    rintro rfl
    simp [Opcode.shape] at reads
  refine takesPlain present coded plain ?_
  rw [Expansion.bodyOperation coded plain, split, List.append_assoc, List.append_assoc,
    List.getElem?_append_right (Nat.le_refl _), Nat.sub_self]
  rfl

theorem Takes.address {k : Nat} (takes : p.Takes t l place m x k) (c : Contents) :
    (m.execute (p.blocks t l place).flatten [k] c).registers t.scratchAddress.text =
      c.registers t.stackPointer.text + Expansion.slot place x := by
  rw [Machine.executeOne takes.line, Expansion.performAddress]
  exact Function.update_self ..

end Program

namespace Allocation.Settled

open Expansion (renamed)

variable {n k : Nat} {p : Program} {flow : ControlFlow} {colorer : Colorer} {last : Attempt}
  {registers : NameMap Register}
  (settled : Settled (Target.limited n k) p flow colorer last registers)
include settled

theorem ownStack (builtIn : colorer.BuiltIn) :
    Expansion.OwnStack (Target.limited n k) ⟨registers, last.spills⟩ p.instructions := by
  have reservedStack : (Target.limited n k).isReserved "SP" = true := rfl
  have scratch : ∀ i ∈ [30, 31], (Register.mk i).text ≠ (Register.mk 29).text := by decide
  refine ⟨settled.suited, fun inst mem x killed => ?_, fun x r found same => ?_⟩
  · have named := Program.memNames.mpr ⟨inst, mem, Instruction.registersInNamed killed⟩
    by_cases spilled : x ∈ last.spills.names
    · rw [Expansion.renamedKill (Expansion.spilledKillOf killed spilled)]
      refine iff_of_false (scratch 30 (.head _)) ?_
      rintro rfl
      exact absurd (reservedStack.symm.trans (settled.spills.named "SP" spilled).2) (by decide)
    · rw [Expansion.renamedKept spilled]
      cases reserved : (Target.limited n k).isReserved x with
      | true =>
        rcases Target.limitedReserved reserved with rfl | rfl | rfl
        · exact iff_of_true rfl rfl
        · exact iff_of_false (scratch 30 (.head _)) (by decide)
        · exact iff_of_false (scratch 31 (.tail _ (.head _))) (by decide)
      | false =>
        obtain ⟨r, _, name, apart, _⟩ := settled.home builtIn named reserved spilled
        rw [name]
        refine iff_of_false (fun same => apart (Register.textInjective same)) ?_
        rintro rfl
        exact absurd (reservedStack.symm.trans reserved) (by decide)
  · exact (settled.registerSource found).2 ("SP", ⟨29⟩) (.head _) same.symm

end Allocation.Settled

namespace Program

variable {p : Program} {colorer : Colorer}

theorem succsAtAll {flow : ControlFlow} (flows : p.controlFlow = .ok flow) :
    flow.succsAt = Code.succsAt p.code := by
  funext i
  cases present : p.instructions[i]? with
  | some inst => rw [succsAtCode flows present, Code.succsAtLine (statementAt present)]
  | none =>
    rw [flowSource flows, succsOfFlow, present, Code.succsAt, codeAt, present]
    rfl

theorem compiledBlocks {source out : String} {file registers attempts : Nat} {c : Compilation}
    (builtIn : colorer.BuiltIn) (parsed : Program.parse source file = .ok p)
    (compiled : (p.compile (Target.limited registers attempts) colorer).value = .ok c)
    (emitted : c.code = some out) (outFile : Nat) :
    ∃ last given q flow, p.controlFlow = .ok c.flow ∧ c.outcome = .allocated last given ∧
      c.liveness = p.liveness c.flow ∧
      Allocation.Settled (Target.limited registers attempts) p c.flow colorer last given ∧
      Program.parse out outFile = .ok q ∧ q.controlFlow = .ok flow ∧
      q.code = (p.blocks (Target.limited registers attempts) c.liveness
        ⟨given, last.spills⟩).flatten ∧
      flow.succsAt = Code.succsAt q.code := by
  obtain ⟨last, given, flows, ok, liveness, outcome, rfl⟩ := compileSource compiled emitted
  have readable := parseReadable parsed
  have settled := Allocation.allocateSource ok
  have allows := Expansion.allowsAll (Target.limited registers attempts) ⟨given, last.spills⟩
  obtain ⟨q, reparsed, code, _⟩ := codeTextParses readable allows
    (fun x named => settled.placed builtIn named)
    (fun x mem => (settled.spills.named x mem).1) (p.liveness c.flow) outFile
  have linked := Blocks.linkedFlatten (blocksStand readable allows (p.liveness c.flow))
    (linkedIff.mp ⟨c.flow, flows⟩)
  rw [← code] at linked
  obtain ⟨flow, controls⟩ := linkedIff.mpr linked
  exact ⟨last, given, q, flow, flows, outcome, liveness, settled, reparsed, controls, liveness ▸ code,
    succsAtAll controls⟩

/-- From a store of a spilled name to a load of it, along any path of the compiled code, the stack
pointer is off by what the program itself makes of it on the way and by what calls have saved when
control left for their callees. The load finds the slot that was stored to just when that cancels. -/
theorem reloadAddress {source out : String} {file registers attempts : Nat} {c : Compilation}
    (builtIn : colorer.BuiltIn) (parsed : Program.parse source file = .ok p)
    (compiled : (p.compile (Target.limited registers attempts) colorer).value = .ok c)
    (emitted : c.code = some out) (outFile : Nat) :
    ∃ q flow place, Program.parse out outFile = .ok q ∧ q.controlFlow = .ok flow ∧
      c.outcome.placement? = some place ∧
      q.code = (p.blocks (Target.limited registers attempts) c.liveness place).flatten ∧
      ∀ m : Machine, m.Subtracts →
        (∀ a b inst contents,
          p.own? (Target.limited registers attempts) c.liveness place a = some inst →
          inst.statement.Moves "SP" →
          p.drift (Target.limited registers attempts) c.liveness place m a b contents =
            m.shift "SP" inst.statement) ∧
        ∀ x k j path, p.StoreBackAt (Target.limited registers attempts) c.liveness place x k →
          p.LoadAt (Target.limited registers attempts) c.liveness place x j →
          Path flow.succsAt k j path → ∀ before : Contents,
            let after := m.execute q.code path.dropLast before
            let drifted := p.drifted (Target.limited registers attempts) c.liveness place m path before
            after.registers "R29" = before.registers "R29" + drifted ∧
            (m.execute q.code [k] before).registers "R31" =
              before.registers "R29" + Expansion.slot place x ∧
            (m.execute q.code [j] after).registers "R31" =
              after.registers "R29" + Expansion.slot place x ∧
            ((m.execute q.code [j] after).registers "R31" =
              (m.execute q.code [k] before).registers "R31" ↔ drifted = 0) := by
  obtain ⟨last, given, q, flow, _, outcome, liveness, settled, reparsed, controls, code, succs⟩ :=
    compiledBlocks builtIn parsed compiled emitted outFile
  have readable := parseReadable parsed
  have stack := settled.ownStack builtIn
  have pointer : (Target.limited registers attempts).stackPointer.text = "R29" :=
    (by decide : (Register.mk 29).text = "R29")
  have scratch : (Target.limited registers attempts).scratchAddress.text = "R31" :=
    (by decide : (Register.mk 31).text = "R31")
  refine ⟨q, flow, ⟨given, last.spills⟩, reparsed, controls, by rw [outcome]; rfl, code,
    fun m subtracts => ?_⟩
  rw [succs, code]
  refine ⟨fun a b inst contents own moves => driftMoves subtracts stack own moves contents, ?_⟩
  intro x k j path stores loads leads before after drifted
  have moved : after.registers "R29" = before.registers "R29" + drifted := by
    have along : after.registers _ = before.registers _ + drifted + _ - _ :=
      stackAlong readable subtracts stack leads before
    rw [(storeBackTakes stores).settled, (loadTakes loads).settled, pointer] at along
    omega
  have first := (storeBackTakes (m := m) stores).address before
  have second := (loadTakes (m := m) loads).address after
  rw [pointer, scratch] at first second
  refine ⟨moved, first, second, ?_⟩
  rw [first, second, moved]
  omega

theorem steadyReload : ∃ p c out q flow place,
    Program.parse "IN a\nSUBi SP SP 4\nADDi SP SP 4\nOUT a\n" 0 = .ok p ∧
    (p.compile (Target.limited 0 100) .greedy).value = .ok c ∧ c.code = some out ∧
    Program.parse out 0 = .ok q ∧ q.controlFlow = .ok flow ∧
    p.StoreBackAt (Target.limited 0 100) c.liveness place "a" 1 ∧
    p.LoadAt (Target.limited 0 100) c.liveness place "a" 5 ∧
    Path flow.succsAt 1 5 [1, 2, 3, 4, 5] ∧
    ∀ before : Contents,
      (Machine.counting.execute q.code [5]
        (Machine.counting.execute q.code [1, 2, 3, 4] before)).registers "R31" =
          (Machine.counting.execute q.code [1] before).registers "R31" := by
  have ran : (Program.parse "IN a\nSUBi SP SP 4\nADDi SP SP 4\nOUT a\n" 0).toOption.any (fun p =>
      (p.compile (Target.limited 0 100) .greedy).value.toOption.any fun c =>
        c.code.isSome && c.outcome.placement?.any fun place =>
          let t := Target.limited 0 100
          let blocks := p.blocks t c.liveness place
          decide ((p.instructions[0]?).map (fun inst =>
              (Expansion.spilledKill? place inst, p.ownAt t c.liveness place 0 inst)) =
                some (some "a", 0) ∧
            (p.instructions[3]?).map (fun inst => (inst.gens, Expansion.loads t place inst)) =
              some (["a"], Expansion.load t ⟨30⟩ (Expansion.slot place "a")) ∧
            "a" ∈ place.spills.names ∧
            Blocks.start blocks 3 = 5 ∧
            List.IsChain (fun i j => j ∈ Code.succsAt blocks.flatten i) [1, 2, 3, 4, 5] ∧
            p.own? t c.liveness place 1 = none ∧ p.own? t c.liveness place 2 = none ∧
            (p.own? t c.liveness place 3).map Instruction.statement =
              some (.plain (.aluImm .sub) [.register "SP", .register "SP", .immediate "4"]) ∧
            (p.own? t c.liveness place 4).map Instruction.statement =
              some (.plain (.aluImm .add) [.register "SP", .register "SP", .immediate "4"]))) =
        true := by
    decide +kernel
  obtain ⟨p, parsed, ran⟩ := Allocation.okOf ran
  obtain ⟨c, compiled, ran⟩ := Allocation.okOf ran
  obtain ⟨some_, ran⟩ := Bool.and_eq_true_iff.mp ran
  obtain ⟨out, emitted⟩ := Option.isSome_iff_exists.mp some_
  obtain ⟨q, flow, place, reparsed, controls, placed, code, law⟩ :=
    reloadAddress .greedy parsed compiled emitted 0
  rw [placed] at ran
  obtain ⟨store, load, spilled, five, along, own1, own2, own3, own4⟩ := of_decide_eq_true ran
  obtain ⟨first, present, store⟩ := Option.map_eq_some_iff.mp store
  obtain ⟨killed, zero⟩ := Prod.mk.inj store
  obtain ⟨last, there, load⟩ := Option.map_eq_some_iff.mp load
  obtain ⟨read, loads⟩ := Prod.mk.inj load
  obtain ⟨down, own3, lower⟩ := Option.map_eq_some_iff.mp own3
  obtain ⟨up, own4, raise⟩ := Option.map_eq_some_iff.mp own4
  have stores : p.StoreBackAt (Target.limited 0 100) c.liveness place "a" 1 :=
    ⟨0, first, present, killed, by rw [zero]⟩
  have loaded : p.LoadAt (Target.limited 0 100) c.liveness place "a" 5 :=
    ⟨3, last, there, by simp [read], spilled, [], ⟨30⟩, [], by simp [loads], five.symm⟩
  have leads : Path flow.succsAt 1 5 [1, 2, 3, 4, 5] := by
    rw [succsAtAll controls, code]
    exact ⟨rfl, rfl, along⟩
  refine ⟨p, c, out, q, flow, place, parsed, compiled, emitted, reparsed, controls, stores, loaded,
    leads, fun before => ?_⟩
  obtain ⟨moves, reload⟩ := law .counting Machine.countingSubtracts
  refine (reload "a" 1 5 _ stores loaded leads before).2.2.2.mpr ?_
  have four : Machine.counting.immediate "4" = 4 := Machine.counting.decimal 4
  have lowered : Machine.counting.shift "SP" down.statement = -4 := by
    rw [lower, ← four]
    exact if_pos List.mem_cons_self
  have raised : Machine.counting.shift "SP" up.statement = 4 := by
    rw [raise, ← four]
    exact if_pos List.mem_cons_self
  simp only [drifted, driftNone own1, driftNone own2,
    moves 3 4 down _ own3 (lower ▸ ⟨.inr rfl, rfl, rfl⟩), lowered,
    moves 4 5 up _ own4 (raise ▸ ⟨.inl rfl, rfl, rfl⟩), raised]
  rfl

/-- The register that a call saves moves the stack pointer, so the callee loads a spilled name from
another address than it was stored to before the call. -/
theorem reloadInCallee : ∃ p c out q flow place,
    Program.parse "IN a\nIN b\nCALL f\nOUT b\nSTOP\nf: OUT a\nRET\n" 0 = .ok p ∧
    (p.compile (Target.limited 1 100) .greedy).value = .ok c ∧ c.code = some out ∧
    Program.parse out 0 = .ok q ∧ q.controlFlow = .ok flow ∧
    c.outcome.placement? = some place ∧
    p.StoreBackAt (Target.limited 1 100) c.liveness place "a" 1 ∧
    p.LoadAt (Target.limited 1 100) c.liveness place "a" 11 ∧
    Path flow.succsAt 1 11 [1, 2, 3, 4, 5, 6, 11] ∧
    (∀ k ∈ [2, 3, 4, 5, 6, 11],
      ¬ p.StoreBackAt (Target.limited 1 100) c.liveness place "a" k) ∧
    ∀ before : Contents,
      let after := Machine.counting.execute q.code [1, 2, 3, 4, 5, 6] before
      after.registers "R29" = before.registers "R29" - 4 ∧
      (Machine.counting.execute q.code [11] after).registers "R31" ≠
        (Machine.counting.execute q.code [1] before).registers "R31" := by
  have ran : (Program.parse "IN a\nIN b\nCALL f\nOUT b\nSTOP\nf: OUT a\nRET\n" 0).toOption.any
      (fun p => (p.compile (Target.limited 1 100) .greedy).value.toOption.any fun c =>
        c.code.isSome && c.outcome.placement?.any fun place =>
          let t := Target.limited 1 100
          let blocks := p.blocks t c.liveness place
          decide ((p.instructions[0]?).map (fun inst =>
              (Expansion.spilledKill? place inst, p.ownAt t c.liveness place 0 inst)) =
                some (some "a", 0) ∧
            (p.instructions[5]?).map (fun inst => (inst.gens, Expansion.loads t place inst)) =
              some (["a"], Expansion.load t ⟨30⟩ (Expansion.slot place "a")) ∧
            "a" ∈ place.spills.names ∧
            (∀ inst ∈ p.instructions.tail, Expansion.spilledKill? place inst = none) ∧
            Blocks.start blocks 5 = 11 ∧
            List.IsChain (fun i j => j ∈ Code.succsAt blocks.flatten i) [1, 2, 3, 4, 5, 6, 11] ∧
            ([1, 2, 3, 4, 5, 6].filterMap fun k => blocks.flatten[k]?).filter
              (fun line => "R29" ∈ line.kills) = [Expansion.moveStack t .sub])) = true := by
    decide +kernel
  obtain ⟨p, parsed, ran⟩ := Allocation.okOf ran
  obtain ⟨c, compiled, ran⟩ := Allocation.okOf ran
  obtain ⟨some_, ran⟩ := Bool.and_eq_true_iff.mp ran
  obtain ⟨out, emitted⟩ := Option.isSome_iff_exists.mp some_
  obtain ⟨last, given, q, flow, _, outcome, _, _, reparsed, controls, code, succs⟩ :=
    compiledBlocks .greedy parsed compiled emitted 0
  rw [outcome] at ran
  obtain ⟨store, load, spilled, others, callee, along, writes⟩ := of_decide_eq_true ran
  obtain ⟨first, present, store⟩ := Option.map_eq_some_iff.mp store
  obtain ⟨killed, zero⟩ := Prod.mk.inj store
  obtain ⟨user, there, load⟩ := Option.map_eq_some_iff.mp load
  obtain ⟨read, loads⟩ := Prod.mk.inj load
  have stores : p.StoreBackAt (Target.limited 1 100) c.liveness ⟨given, last.spills⟩ "a" 1 :=
    ⟨0, first, present, killed, by rw [zero]⟩
  have loaded : p.LoadAt (Target.limited 1 100) c.liveness ⟨given, last.spills⟩ "a" 11 :=
    ⟨5, user, there, by simp [read], spilled, [], ⟨30⟩, [], by simp [loads], callee.symm⟩
  have leads : Path flow.succsAt 1 11 [1, 2, 3, 4, 5, 6, 11] := by
    rw [succs, code]
    exact ⟨rfl, rfl, along⟩
  refine ⟨p, c, out, q, flow, _, parsed, compiled, emitted, reparsed, controls,
    by rw [outcome]; rfl, stores, loaded, leads, ?_, fun before => ?_⟩
  · rintro k later ⟨i, inst, here, again, rfl⟩
    cases i with
    | zero =>
      cases Option.some.inj (present.symm.trans here)
      rw [zero] at later
      contradiction
    | succ i =>
      have none := others inst (List.mem_of_getElem? ((List.getElem?_tail ..).trans here))
      exact absurd (none.symm.trans again) (Option.some_ne_none _).symm
  · have pointer : (Target.limited 1 100).stackPointer.text = "R29" := by decide
    have scratch : (Target.limited 1 100).scratchAddress.text = "R31" := by decide
    have moves : ∀ line ∈ [1, 2, 3, 4, 5, 6].filterMap fun k => q.code[k]?,
        "R29" ∈ line.kills → line.Moves "R29" := by
      intro line mem writer
      rw [code] at mem
      have only := writes ▸ List.mem_filter.mpr ⟨mem, decide_eq_true writer⟩
      rw [List.mem_singleton.mp only, ← pointer]
      exact Expansion.moveStackMoves (.inr rfl)
    have lowered : (Machine.counting.execute q.code [1, 2, 3, 4, 5, 6] before).registers "R29" =
        before.registers "R29" - 4 := by
      have down := Expansion.shiftDown .counting (Target.limited 1 100)
      rw [pointer] at down
      rw [Machine.execute, Machine.performAllShift Machine.countingSubtracts moves,
        Machine.shiftWrites, code, writes, List.map_singleton, down]
      rfl
    have first := (storeBackTakes (m := .counting) stores).address before
    have second := (loadTakes (m := .counting) loaded).address
      (Machine.counting.execute q.code [1, 2, 3, 4, 5, 6] before)
    rw [pointer, scratch, ← code] at first second
    refine ⟨lowered, ?_⟩
    rw [first, second, lowered]
    omega

end Program

end Regalloc
