import Regalloc.Proofs.CompiledCode
import Regalloc.Proofs.SpillCode

/-! Compiled code runs as its source does. For a program without calls that leaves the registers of
the target alone, each step of the source is a block of the code, and between the blocks every live
name has its value where it was placed. -/
namespace Regalloc

def Target.limited (registers attempts : Nat) : Target :=
  { Target.standard with registers, attempts }

structure Program.Tame (p : Program) : Prop where
  calls : ∀ inst ∈ p.instructions, inst.opcode ≠ some .call
  stack : ∀ inst ∈ p.instructions, "SP" ∉ inst.kills
  scratch : ∀ inst ∈ p.instructions, "R30" ∉ inst.registers ∧ "R31" ∉ inst.registers

namespace Target

variable {n k : Nat} {x : Name}

theorem limitedReserved (reserved : (limited n k).isReserved x = true) :
    x = "SP" ∨ x = "R30" ∨ x = "R31" := by
  obtain ⟨r, found⟩ := Option.isSome_iff_exists.mp reserved
  obtain ⟨entry, mem, rfl⟩ := Option.map_eq_some_iff.mp found
  have same := List.find?_some mem
  have inside := List.mem_of_find?_eq_some mem
  rw [← beq_iff_eq.mp same]
  have listed : entry ∈ [("SP", Register.mk 29), ("R30", ⟨30⟩), ("R31", ⟨31⟩)] := inside
  rcases List.mem_cons.mp listed with rfl | listed
  · exact .inl rfl
  · rcases List.mem_cons.mp listed with rfl | listed
    · exact .inr (.inl rfl)
    · exact .inr (.inr (by rw [List.mem_singleton.mp listed]))

end Target

namespace Allocation.Settled

open Expansion (renamed Housed)

variable {n k : Nat} {p : Program} {flow : ControlFlow} {colorer : Colorer} {last : Attempt}
  {registers : NameMap Register} {x : Name}

theorem stackName (place : Placement) :
    renamed (Target.limited n k) place [] "SP" = (Register.mk 29).text := rfl

variable (settled : Settled (Target.limited n k) p flow colorer last registers)
  (builtIn : colorer.BuiltIn)
include settled builtIn

theorem home (named : x ∈ p.names) (free : (Target.limited n k).isReserved x = false)
    (kept : x ∉ last.spills.names) :
    ∃ r, registers.get? x = some r ∧
      renamed (Target.limited n k) ⟨registers, last.spills⟩ [] x = r.text ∧
      r ≠ ⟨29⟩ ∧ r ≠ ⟨30⟩ ∧ r ≠ ⟨31⟩ := by
  obtain ⟨r, found⟩ := NameMap.memKeysIff.mp ((settled.memRegisters builtIn).mpr
    (settled.memVertices.mpr ⟨named, free, kept⟩))
  have apart := (settled.registerSource found).2
  refine ⟨r, found, ?_, ?_, ?_, ?_⟩
  · simp [renamed, Expansion.register?, Target.unbound free, found]
  · exact (apart ("SP", ⟨29⟩) (.head _)).symm
  · exact (apart ("R30", ⟨30⟩) (.tail _ (.head _))).symm
  · exact (apart ("R31", ⟨31⟩) (.tail _ (.tail _ (.head _)))).symm

omit builtIn in
theorem suited : Expansion.Suited (Target.limited n k) ⟨registers, last.spills⟩ where
  scratch := (by decide : Register.mk 30 ≠ ⟨31⟩)
  stackValue := (by decide : Register.mk 29 ≠ ⟨30⟩)
  stackAddress := (by decide : Register.mk 29 ≠ ⟨31⟩)
  nodup := settled.spills.nodup
  stride := by
    rw [settled.spills.stride]
    exact (by decide : 0 < 4)

theorem housed (tame : p.Tame) {inst : Instruction} (mem : inst ∈ p.instructions)
    (named : x ∈ inst.registers) : Housed (Target.limited n k) ⟨registers, last.spills⟩ x := by
  intro kept
  cases reserved : (Target.limited n k).isReserved x with
  | false =>
    obtain ⟨r, _, name, _, value, address⟩ :=
      settled.home builtIn (Program.memNames.mpr ⟨inst, mem, named⟩) reserved kept
    exact ⟨r, name, value, address⟩
  | true =>
    obtain ⟨scratch, other⟩ := tame.scratch inst mem
    rcases Target.limitedReserved reserved with rfl | rfl | rfl
    · exact ⟨⟨29⟩, stackName _, (by decide : Register.mk 29 ≠ ⟨30⟩),
        (by decide : Register.mk 29 ≠ ⟨31⟩)⟩
    · exact absurd named scratch
    · exact absurd named other

end Allocation.Settled

namespace Statement

theorem destinationFits {s : Statement} (readable : s.Readable) {op : Opcode}
    (coded : s.opcode = some op) (jumps : op = .jump ∨ ∃ condition, op = .branch condition) :
    ∃ text, s.destination? = some text := by
  have fits := readable.operands
  rw [coded] at fits
  unfold destination?
  rcases jumps with rfl | ⟨condition, rfl⟩
  · obtain ⟨label, rest, fit, last, same⟩ := List.forall₂_cons_left_iff.mp fits
    rw [same]
    cases label with
    | label text => exact ⟨text, rfl⟩
    | _ => exact fit.elim
  · obtain ⟨left, rest, fitL, two, same⟩ := List.forall₂_cons_left_iff.mp fits
    obtain ⟨right, rest, fitR, one, rfl⟩ := List.forall₂_cons_left_iff.mp two
    obtain ⟨label, rest, fit, none, rfl⟩ := List.forall₂_cons_left_iff.mp one
    rw [same]
    cases left with
    | register x =>
      cases right with
      | register y =>
        cases label with
        | label text => exact ⟨text, rfl⟩
        | _ => exact fit.elim
      | _ => exact fitR.elim
    | _ => exact fitL.elim

end Statement

namespace Machine

variable {m : Machine} {op : Opcode} {src : List Statement} {blocks : List (List Statement)}
  {block : List Statement} {line : Statement} {i : Nat}

theorem goesTogether (linked : Code.Linked src)
    (stands : List.Forall₂ Statement.Stands src blocks) (present : blocks[i]? = some block)
    (source : src[i]? = some line) (readable : line.Readable) (coded : line.opcode = some op)
    (plain : op ≠ .call) (reads : List Int) (w : World) :
    (op = .ret ∨ op = .stop) ∨
      ∃ j, (m.effect op line reads w).control.go src i = some j ∧ j ≤ src.length ∧
        (j < src.length → j ∈ Code.succsOf src i line) ∧
        (m.effect op line reads w).control.go blocks.flatten
          (Blocks.start blocks i + block.length - 1) = some (Blocks.start blocks j) := by
  have bound := (List.getElem?_eq_some_iff.mp source).1
  have positive := (Blocks.standsAt stands present source).positive
  have next : ∀ control, control = Control.next →
      ∃ j, control.go src i = some j ∧ j ≤ src.length ∧ (j < src.length → j ∈ Code.next src i) ∧
        control.go blocks.flatten (Blocks.start blocks i + block.length - 1) =
          some (Blocks.start blocks j) := by
    rintro _ rfl
    refine ⟨i + 1, rfl, bound, fun more => by simp [Code.next, more], ?_⟩
    rw [Control.go, Blocks.startNext present]
    exact congrArg some (by omega)
  have jump : ∀ control, control = Control.jump line.destination? →
      (op = .jump ∨ ∃ condition, op = .branch condition) →
      ∃ j, control.go src i = some j ∧ j ≤ src.length ∧ (j < src.length → j ∈ Code.target src line) ∧
        control.go blocks.flatten (Blocks.start blocks i + block.length - 1) =
          some (Blocks.start blocks j) := by
    rintro _ rfl jumps
    obtain ⟨text, named⟩ := Statement.destinationFits readable coded jumps
    have resolved := linked.resolved line (List.mem_of_getElem? source) text named
    obtain ⟨j, found⟩ := Option.isSome_iff_exists.mp resolved
    refine ⟨j, by simp [Control.go, named, found], Nat.le_of_lt (Code.positionLt found),
      fun _ => by simp [Code.target, named, found], ?_⟩
    simp [Control.go, named, Blocks.positionFlatten stands, found]
  unfold Code.succsOf
  rw [coded]
  cases op with
  | ret => exact .inl (.inl rfl)
  | stop => exact .inl (.inr rfl)
  | call => exact absurd rfl plain
  | jump => exact .inr (jump _ rfl (.inl rfl))
  | branch condition =>
    refine .inr ?_
    have control : (m.effect (.branch condition) line reads w).control =
        if m.holds condition (reads.getD 0 0) (reads.getD 1 0) then .jump line.destination?
        else .next := rfl
    rw [control]
    split
    · obtain ⟨j, here, within, edge, there⟩ := jump _ rfl (.inr ⟨condition, rfl⟩)
      exact ⟨j, here, within, fun more => List.mem_append_right _ (edge more), there⟩
    · obtain ⟨j, here, within, edge, there⟩ := next _ rfl
      exact ⟨j, here, within, fun more => List.mem_append_left _ (edge more), there⟩
  | _ => exact .inr (next _ (effectNext rfl plain line reads w))

end Machine

namespace Program

open Expansion (Free held body)

variable {t : Target} {p : Program} {l : Liveness} {place : Placement} {inst : Instruction}
  {i : Nat}

/-- The code in state `b` stands between two blocks, where the source stands in state `a`: the
worlds agree outside the slots, and the live names have their values where they live. -/
structure Mirrors (t : Target) (p : Program) (l : Liveness) (place : Placement) (sp : Int)
    (a b : State) : Prop where
  bound : a.position ≤ p.size
  position : b.position = Blocks.start (p.blocks t l place) a.position
  stack : a.registers "SP" = sp
  pointer : b.registers t.stackPointer.text = sp
  agree : World.Agree (Free place sp) a.world b.world
  live : ∀ x ∈ l.liveIn a.position, t.isReserved x = false → held t place sp b x = a.registers x

theorem blockAt (present : p.instructions[i]? = some inst) :
    (p.blocks t l place)[i]? = some (Expansion.statements t place (l.liveIn i) inst) := by
  unfold blocks Expansion.blocksFrom
  rw [List.getElem?_map, List.getElem?_zipIdx, present]
  simp

theorem bodyAt (t : Target) (l : Liveness) (place : Placement) {op : Opcode}
    (coded : inst.opcode = some op) (present : p.instructions[i]? = some inst) :
    CodeAt (p.blocks t l place).flatten (Blocks.start (p.blocks t l place) i)
        (body t place (l.liveIn i) inst) ∧
      (Expansion.statements t place (l.liveIn i) inst).length =
        (body t place (l.liveIn i) inst).length := by
  have same := Expansion.statementsUnmarked coded t place (l.liveIn i)
  have length : (Expansion.statements t place (l.liveIn i) inst).length =
      (body t place (l.liveIn i) inst).length := by
    rw [← same, List.length_map]
  refine ⟨fun j bound => ?_, length⟩
  rw [Blocks.lineAt (blockAt present) (length ▸ bound), ← same, List.getElem?_map]

end Program

namespace Allocation.Settled

open Expansion (Free held renamed)
open Program (Mirrors)

variable {n k : Nat} {p : Program} {flow : ControlFlow} {colorer : Colorer} {last : Attempt}
  {registers : NameMap Register} {x : Name} {i j : Nat} {inst : Instruction} {m : Machine}
  {sp : Int} {a b : State}
  (settled : Settled (Target.limited n k) p flow colorer last registers)
  (builtIn : colorer.BuiltIn)
include settled builtIn

theorem killApart (present : p.instructions[i]? = some inst) {y : Name} (killed : y ∈ inst.kills)
    (live : x ∈ (p.liveness flow).liveOut i) (kept : x ∉ inst.kills)
    (freeX : InRegister (Target.limited n k) last.spills x)
    (freeY : InRegister (Target.limited n k) last.spills y) :
    ∃ r s, registers.get? x = some r ∧ registers.get? y = some s ∧ r ≠ s := by
  have conflict : Interference.Conflict (p.liveness flow) i y x :=
    ⟨(Program.killsAt present).mpr killed, live, fun mem => kept ((Program.killsAt present).mp mem)⟩
  have joined : y ∈ last.graph.neighbors x :=
    (settled.graphExact.neighbors x y).mpr
      ⟨⟨i, (List.getElem?_eq_some_iff.mp present).1, .inr conflict⟩, freeX.keeps, freeY.keeps⟩
  exact settled.neighborsApart builtIn joined

omit settled builtIn in
theorem killFree (tame : p.Tame) (mem : inst ∈ p.instructions) (killed : x ∈ inst.kills) :
    (Target.limited n k).isReserved x = false := by
  have named := Instruction.registersInNamed killed
  obtain ⟨scratch, other⟩ := tame.scratch inst mem
  refine Bool.eq_false_iff.mpr fun reserved => ?_
  rcases Target.limitedReserved reserved with rfl | rfl | rfl
  · exact tame.stack inst mem killed
  · exact scratch named
  · exact other named

theorem heldStill (tame : p.Tame) (present : p.instructions[i]? = some inst)
    (live : x ∈ (p.liveness flow).liveOut i) (kept : x ∉ inst.kills)
    (free : (Target.limited n k).isReserved x = false) {result : Option Int} {world : World}
    {u : State}
    (ran : Expansion.Ran (Target.limited n k) ⟨registers, last.spills⟩ inst sp result world b u) :
    held (Target.limited n k) ⟨registers, last.spills⟩ sp u x =
      held (Target.limited n k) ⟨registers, last.spills⟩ sp b x := by
  have mem := List.mem_of_getElem? present
  by_cases spilled : x ∈ last.spills.names
  · rw [held, held, if_pos spilled, if_pos spilled]
    exact ran.slots x spilled kept
  · obtain ⟨r, found, name, _, value, address⟩ :=
      settled.home builtIn (Program.liveNamed (.inr live)) free spilled
    rw [held, held, if_neg spilled, if_neg spilled, name]
    refine ran.registers r value address fun y killed unspilled same => ?_
    have freeY := @killFree n k p y inst tame mem killed
    have namedY := Program.memNames.mpr ⟨inst, mem, Instruction.registersInNamed killed⟩
    obtain ⟨s, foundY, nameY, _⟩ := settled.home builtIn namedY freeY unspilled
    obtain ⟨r', s', atX, atY, apart⟩ := settled.killApart builtIn present killed live kept
      ⟨free, spilled⟩ ⟨freeY, unspilled⟩
    have equal : s = r := Register.textInjective (nameY.symm.trans same)
    cases Option.some.inj (found.symm.trans atX)
    cases Option.some.inj (foundY.symm.trans atY)
    exact apart equal.symm

theorem mirrorsAfter (tame : p.Tame)
    (mirrors : Mirrors (Target.limited n k) p (p.liveness flow) ⟨registers, last.spills⟩ sp a b)
    (present : p.instructions[a.position]? = some inst) {result : Option Int} {world : World}
    {u : State} (within : j ≤ p.size) (edge : j < p.size → j ∈ flow.succsAt a.position)
    (results : ∀ x ∈ inst.kills, ∃ value, result = some value)
    (position : u.position =
      Blocks.start (p.blocks (Target.limited n k) (p.liveness flow) ⟨registers, last.spills⟩) j)
    (ran : Expansion.Ran (Target.limited n k) ⟨registers, last.spills⟩ inst sp result world b u) :
    Mirrors (Target.limited n k) p (p.liveness flow) ⟨registers, last.spills⟩ sp
      ⟨j, Machine.write inst.kills result a.registers, world⟩ u := by
  have mem := List.mem_of_getElem? present
  refine ⟨within, position, ?_, ?_, ran.agree, fun x live free => ?_⟩
  · exact (Machine.writeOther (tame.stack inst mem) result a.registers).trans mirrors.stack
  · refine (ran.registers _ (suited settled).stackValue (suited settled).stackAddress ?_).trans
      mirrors.pointer
    intro x killed kept same
    have named := Program.memNames.mpr ⟨inst, mem, Instruction.registersInNamed killed⟩
    obtain ⟨r, _, name, pointer, _⟩ := settled.home builtIn named (killFree tame mem killed) kept
    exact pointer (Register.textInjective (name.symm.trans same))
  · obtain ⟨next, there⟩ := Program.instructionAt live
    have bound : j < p.size := (List.getElem?_eq_some_iff.mp there).1
    have out := (Program.liveOutIff present).mpr ⟨j, edge bound, live⟩
    by_cases killed : x ∈ inst.kills
    · obtain ⟨value, same⟩ := results x killed
      have one := Instruction.killsOf killed
      rw [ran.result x killed value same, one, same]
      exact (Function.update_self x value a.registers).symm
    · have before := (Program.liveInIff present).mpr (.inl ⟨out, killed⟩)
      rw [settled.heldStill builtIn tame present out killed free ran, mirrors.live x before free]
      exact (Machine.writeOther killed result a.registers).symm

omit builtIn in
theorem heldRead (tame : p.Tame)
    (mirrors : Mirrors (Target.limited n k) p (p.liveness flow) ⟨registers, last.spills⟩ sp a b)
    (present : p.instructions[a.position]? = some inst) :
    inst.gens.map (held (Target.limited n k) ⟨registers, last.spills⟩ sp b) =
      inst.statement.gens.map a.registers := by
  have mem := List.mem_of_getElem? present
  rw [Statement.gens, ← inst.registersInStatement]
  refine List.map_congr_left fun x read => ?_
  cases reserved : (Target.limited n k).isReserved x with
  | false => exact mirrors.live x ((Program.liveInIff present).mpr (.inr read)) reserved
  | true =>
    obtain ⟨scratch, other⟩ := tame.scratch inst mem
    have named := Instruction.registersInNamed read
    rcases Target.limitedReserved reserved with rfl | rfl | rfl
    · have kept : "SP" ∉ last.spills.names := fun spilled =>
        absurd ((settled.spills.named _ spilled).2.symm.trans reserved) Bool.false_ne_true
      rw [held, if_neg kept, stackName, mirrors.stack]
      exact mirrors.pointer
    · exact absurd named scratch
    · exact absurd named other

section Step

variable (readable : p.Readable) (flows : p.controlFlow = .ok flow) (tame : p.Tame) (m : Machine)
  (mirrors : Mirrors (Target.limited n k) p (p.liveness flow) ⟨registers, last.spills⟩ sp a b)
  (present : p.instructions[a.position]? = some inst)
include readable flows tame mirrors present

theorem mirrorsBare (coded : inst.opcode = none) :
    ∃ a' b', m.step p.code a = some a' ∧
      m.Run (p.blocks (Target.limited n k) (p.liveness flow) ⟨registers, last.spills⟩).flatten
        1 b b' ∧
      Mirrors (Target.limited n k) p (p.liveness flow) ⟨registers, last.spills⟩ sp a' b' := by
  have here : m.step p.code a = some { a with position := a.position + 1 } :=
    Machine.stepBare (Program.statementAt present) coded
  have bare := @Expansion.statementsBare (Target.limited n k) ⟨registers, last.spills⟩
    ((p.liveness flow).liveIn a.position) inst
    (Program.readableAt readable (List.mem_of_getElem? present)) coded
  have block := @Program.blockAt (Target.limited n k) p (p.liveness flow)
    ⟨registers, last.spills⟩ inst a.position present
  rw [bare] at block
  have line := Blocks.lineAt block Nat.one_pos
  rw [Nat.add_zero, ← mirrors.position] at line
  have there := Machine.stepBare (m := m) line coded
  have kills : inst.kills = [] := by
    simp [Instruction.kills, Instruction.registersIn, Instruction.slots, Instruction.shape, coded]
  have ran : Expansion.Ran (Target.limited n k) ⟨registers, last.spills⟩ inst sp none a.world b
      { b with position := b.position + 1 } :=
    ⟨mirrors.agree, fun _ _ _ => rfl, fun _ _ _ _ => rfl,
      fun x killed => absurd killed (by simp [kills])⟩
  have within := (List.getElem?_eq_some_iff.mp present).1
  have after := settled.mirrorsAfter builtIn tame mirrors present within (fun more => ?_)
    (fun x killed => absurd killed (by simp [kills])) ?_ ran
  · rw [kills] at after
    exact ⟨_, _, here, .one there, after⟩
  · rw [Program.succsAtCode flows present, Code.succsOf,
      show inst.statement.opcode = none from coded]
    simp [Code.next, Program.codeLength, more]
  · exact (congrArg Nat.succ mirrors.position).trans (Blocks.startNext block).symm

theorem mirrorsCoded {op : Opcode} (coded : inst.opcode = some op)
    (untouched : ∀ address ∈ Machine.touched? p.code a,
      Free ⟨registers, last.spills⟩ sp address) :
    let code := (p.blocks (Target.limited n k) (p.liveness flow) ⟨registers, last.spills⟩).flatten
    (m.step p.code a = none ∧ m.step code b = none) ∨
      ∃ steps a' b', m.step p.code a = some a' ∧ 0 < steps ∧ m.Run code steps b b' ∧
        Mirrors (Target.limited n k) p (p.liveness flow) ⟨registers, last.spills⟩ sp a' b' := by
  intro code
  have allows := Expansion.allowsAll (Target.limited n k) ⟨registers, last.spills⟩
  have stands := Program.blocksStand readable allows (p.liveness flow)
  have linked := Program.linkedIff.mp ⟨flow, flows⟩
  have mem := List.mem_of_getElem? present
  have source := Program.statementAt present
  have block := @Program.blockAt (Target.limited n k) p (p.liveness flow)
    ⟨registers, last.spills⟩ inst a.position present
  have plain : op ≠ .call := fun same => tame.calls inst mem (same ▸ coded)
  obtain ⟨body, length⟩ := Program.bodyAt _ (p.liveness flow) _ coded present
  rw [← mirrors.position] at body
  have step := Machine.stepAt (m := m) source coded
  rcases Machine.goesTogether (m := m) linked stands block source
    (Program.readableAt readable mem) coded plain (inst.statement.gens.map a.registers) a.world
    with halts | ⟨j, here, within, edge, there⟩
  · refine .inl ⟨?_, Expansion.haltBody coded halts body⟩
    rw [step]
    rcases halts with rfl | rfl <;> rfl
  · rw [← mirrors.position, length] at there
    have touched : ∀ address ∈ Machine.address? op (inst.statement.gens.map a.registers),
        Free ⟨registers, last.spills⟩ sp address := fun address same => by
      refine untouched address ?_
      rw [Machine.touched?, source, Option.bind_some,
        show inst.statement.opcode = some op from coded]
      exact same
    obtain ⟨u, run, position, ran⟩ := Expansion.runBody (m := m) (suited settled) coded plain body
      mirrors.pointer (fun x either => settled.housed builtIn tame mem
        (either.elim Instruction.registersInNamed Instruction.registersInNamed))
      (settled.heldRead tame mirrors present) mirrors.agree touched there
    rw [here] at step
    rw [Program.codeLength] at within edge
    have after := settled.mirrorsAfter builtIn tame mirrors present within
      (fun more => Program.succsAtCode flows present ▸ edge more)
      (fun x killed => Machine.effectResult coded killed _ _ _) position ran
    rw [Instruction.kills, inst.registersInStatement] at after
    exact .inr ⟨_, _, u, step, List.length_pos_iff.mpr (Expansion.bodyCoded coded _ _ _).1,
      run, after⟩

end Step

theorem mirrorsStep (readable : p.Readable) (flows : p.controlFlow = .ok flow) (tame : p.Tame)
    (m : Machine)
    (mirrors : Mirrors (Target.limited n k) p (p.liveness flow) ⟨registers, last.spills⟩ sp a b)
    (untouched : ∀ address ∈ Machine.touched? p.code a,
      Free ⟨registers, last.spills⟩ sp address) :
    let code := (p.blocks (Target.limited n k) (p.liveness flow) ⟨registers, last.spills⟩).flatten
    (m.step p.code a = none ∧ m.step code b = none) ∨
      ∃ steps a' b', m.step p.code a = some a' ∧ 0 < steps ∧ m.Run code steps b b' ∧
        Mirrors (Target.limited n k) p (p.liveness flow) ⟨registers, last.spills⟩ sp a' b' := by
  intro code
  cases present : p.instructions[a.position]? with
  | none =>
    have stands := Program.blocksStand readable
      (Expansion.allowsAll (Target.limited n k) ⟨registers, last.spills⟩) (p.liveness flow)
    have ends : a.position = p.size :=
      Nat.le_antisymm mirrors.bound (List.getElem?_eq_none_iff.mp present)
    refine .inl ⟨Machine.stepEnd ?_, Machine.stepEnd ?_⟩
    · rw [Program.codeLength, ends]
    · rw [mirrors.position, ends, ← Program.codeLength, stands.length_eq, Blocks.startEnd]
  | some inst =>
    cases coded : inst.opcode with
    | none =>
      obtain ⟨a', b', here, run, after⟩ :=
        settled.mirrorsBare builtIn readable flows tame m mirrors present coded
      exact .inr ⟨1, a', b', here, Nat.one_pos, run, after⟩
    | some op =>
      exact settled.mirrorsCoded builtIn readable flows tame m mirrors present coded untouched

end Allocation.Settled

namespace Machine

variable {m : Machine} {code : List Statement} {s : State}

theorem advanceHalted (halted : m.step code s = none) : m.advance code s = s := by
  rw [advance, halted]
  rfl

theorem advanceStep {u : State} (step : m.step code s = some u) : m.advance code s = u := by
  rw [advance, step]
  rfl

theorem clockOf (holds : Nat → Nat → Prop) (start : holds 0 0)
    (step : ∀ i time, holds i time → ∃ later > time, holds (i + 1) later) :
    ∃ clock : Nat → Nat, clock 0 = 0 ∧ (∀ i, clock i < clock (i + 1)) ∧
      ∀ i, holds i (clock i) := by
  choose later above after using step
  let times : (i : Nat) → { time // holds i time } := fun i =>
    Nat.rec ⟨0, start⟩ (fun i before => ⟨later i before.1 before.2, after i before.1 before.2⟩) i
  exact ⟨fun i => (times i).1, rfl, fun i => above i (times i).1 (times i).2, fun i => (times i).2⟩

end Machine

theorem Allocation.Settled.mirrorsAdvance {n k : Nat} {p : Program} {flow : ControlFlow}
    {colorer : Colorer} {last : Attempt} {registers : NameMap Register} {sp : Int} {a b : State}
    (settled : Settled (Target.limited n k) p flow colorer last registers)
    (builtIn : colorer.BuiltIn) (readable : p.Readable) (flows : p.controlFlow = .ok flow)
    (tame : p.Tame) (m : Machine)
    (mirrors : Program.Mirrors (Target.limited n k) p (p.liveness flow) ⟨registers, last.spills⟩ sp
      a b)
    (untouched : ∀ address ∈ Machine.touched? p.code a,
      Expansion.Free ⟨registers, last.spills⟩ sp address) :
    let code := (p.blocks (Target.limited n k) (p.liveness flow) ⟨registers, last.spills⟩).flatten
    (m.step p.code a = none ↔ m.step code b = none) ∧
      ∃ steps > 0, Program.Mirrors (Target.limited n k) p (p.liveness flow)
        ⟨registers, last.spills⟩ sp (m.advance p.code a) ((m.advance code)^[steps] b) := by
  intro code
  rcases settled.mirrorsStep builtIn readable flows tame m mirrors untouched with
    ⟨here, there⟩ | ⟨steps, a', b', here, positive, run, after⟩
  · refine ⟨iff_of_true here there, 1, Nat.one_pos, ?_⟩
    rw [Machine.advanceHalted here, Function.iterate_one, Machine.advanceHalted there]
    exact mirrors
  · have moves : ∃ u, m.step code b = some u := by
      cases run with
      | refl => contradiction
      | step first _ => exact ⟨_, first⟩
    obtain ⟨u, there⟩ := moves
    refine ⟨iff_of_false (by simp [here]) (by simp [there]), steps, positive, ?_⟩
    rw [Machine.advanceStep here, run.advances]
    exact after

namespace Program

open Expansion (Free)

/-- Compiled code runs in lock-step with its source: there is a clock by which, at every step of
the source, the code stands at the block of the instruction where the source stands, with the same
input left, the same output, the same memory outside the slots, and the live names in place. It has
halted just when the source has. -/
theorem compiledCodeRuns {p : Program} {colorer : Colorer} {source out : String}
    {file registers attempts : Nat} {c : Compilation} (builtIn : colorer.BuiltIn)
    (parsed : Program.parse source file = .ok p) (tame : p.Tame)
    (compiled : (p.compile (Target.limited registers attempts) colorer).value = .ok c)
    (emitted : c.code = some out)
    (entry : ∀ x ∈ c.liveness.liveIn 0, (Target.limited registers attempts).isReserved x = true)
    (outFile : Nat) :
    ∃ q place, Program.parse out outFile = .ok q ∧ c.outcome.placement? = some place ∧
      ∀ (m : Machine) (world : World) (names machine : Name → Int),
        machine "R29" = names "SP" →
        (∀ i, ∀ address ∈ Machine.touched? p.code ((m.advance p.code)^[i] ⟨0, names, world⟩),
          Free place (names "SP") address) →
        ∃ clock : Nat → Nat, clock 0 = 0 ∧ (∀ i, clock i < clock (i + 1)) ∧
          ∀ i, Mirrors (Target.limited registers attempts) p c.liveness place (names "SP")
              ((m.advance p.code)^[i] ⟨0, names, world⟩)
              ((m.advance q.code)^[clock i] ⟨0, machine, world⟩) ∧
            (m.step p.code ((m.advance p.code)^[i] ⟨0, names, world⟩) = none ↔
              m.step q.code ((m.advance q.code)^[clock i] ⟨0, machine, world⟩) = none) := by
  obtain ⟨last, given, flows, ok, liveness, outcome, rfl⟩ := compileSource compiled emitted
  have readable := parseReadable parsed
  have settled := Allocation.allocateSource ok
  have allows := Expansion.allowsAll (Target.limited registers attempts) ⟨given, last.spills⟩
  obtain ⟨q, reparsed, code, _⟩ := codeTextParses readable allows
    (fun x named => settled.placed builtIn named)
    (fun x mem => (settled.spills.named x mem).1) (p.liveness c.flow) outFile
  refine ⟨q, ⟨given, last.spills⟩, reparsed, by rw [outcome]; rfl, ?_⟩
  intro m world names machine pointer untouched
  rw [liveness] at entry ⊢
  rw [code]
  have name : (Register.mk 29).text = "R29" := by decide
  have start : Mirrors (Target.limited registers attempts) p (p.liveness c.flow)
      ⟨given, last.spills⟩ (names "SP") ⟨0, names, world⟩ ⟨0, machine, world⟩ :=
    ⟨Nat.zero_le _, rfl, rfl, name ▸ pointer, ⟨rfl, rfl, fun _ _ => rfl⟩,
      fun x live free => absurd ((entry x live).symm.trans free) Bool.noConfusion⟩
  obtain ⟨clock, zero, rises, mirrors⟩ := Machine.clockOf (fun i time =>
      Mirrors (Target.limited registers attempts) p (p.liveness c.flow) ⟨given, last.spills⟩
        (names "SP") ((m.advance p.code)^[i] ⟨0, names, world⟩) ((m.advance _)^[time] _))
      start fun i time mirrors => by
    obtain ⟨_, steps, positive, after⟩ :=
      settled.mirrorsAdvance builtIn readable flows tame m mirrors (untouched i)
    refine ⟨steps + time, Nat.lt_add_of_pos_left positive, ?_⟩
    rw [Function.iterate_succ_apply', Function.iterate_add_apply]
    exact after
  refine ⟨clock, zero, rises, fun i => ⟨mirrors i, ?_⟩⟩
  exact (settled.mirrorsAdvance builtIn readable flows tame m (mirrors i) (untouched i)).1

theorem sumCodeRuns : ∃ p c out q place,
    Program.parse "IN a\nIN b\nADD a a b\nOUT a\n" 0 = .ok p ∧
    (p.compile (Target.limited 1 100) .greedy).value = .ok c ∧ c.code = some out ∧
    Program.parse out 0 = .ok q ∧ place.spills.names = ["a"] ∧
    ∀ world : World, ∃ clock : Nat → Nat, ∀ i,
      Mirrors (Target.limited 1 100) p c.liveness place 0
        ((Machine.adding.advance p.code)^[i] ⟨0, fun _ => 0, world⟩)
        ((Machine.adding.advance q.code)^[clock i] ⟨0, fun _ => 0, world⟩) := by
  have ran : (Program.parse "IN a\nIN b\nADD a a b\nOUT a\n" 0).toOption.any (fun p =>
      (p.compile (Target.limited 1 100) .greedy).value.toOption.any fun c =>
        decide (c.code.isSome = true ∧
          c.outcome.placement?.map (fun place => place.spills.names) = some ["a"] ∧
          (∀ x ∈ (c.liveness.liveIn 0).toList, (Target.limited 1 100).isReserved x = true) ∧
          ∀ inst ∈ p.instructions, inst.opcode ≠ some .call ∧ inst.opcode ≠ some .load ∧
            inst.opcode ≠ some .store ∧ "SP" ∉ inst.kills ∧
            "R30" ∉ inst.registers ∧ "R31" ∉ inst.registers)) = true := by
    decide +kernel
  obtain ⟨p, parsed, ran⟩ := Allocation.okOf ran
  obtain ⟨c, compiled, ran⟩ := Allocation.okOf ran
  obtain ⟨some, spilled, entry, all⟩ := of_decide_eq_true ran
  obtain ⟨out, emitted⟩ := Option.isSome_iff_exists.mp some
  have tame : p.Tame := ⟨fun inst mem => (all inst mem).1, fun inst mem => (all inst mem).2.2.2.1,
    fun inst mem => (all inst mem).2.2.2.2⟩
  obtain ⟨q, place, reparsed, placed, runs⟩ :=
    compiledCodeRuns .greedy parsed tame compiled emitted entry 0
  rw [placed] at spilled
  have untouched : ∀ a : State, Machine.touched? p.code a = none := by
    intro a
    unfold Machine.touched?
    cases present : p.code[a.position]? with
    | none => rfl
    | some line =>
      obtain ⟨inst, mem, rfl⟩ := List.mem_map.mp (List.mem_of_getElem? present)
      obtain ⟨_, load, store, _⟩ := all inst mem
      cases coded : inst.statement.opcode with
      | none => simp [coded]
      | some op =>
        cases op with
        | load => exact absurd coded load
        | store => exact absurd coded store
        | _ => simp [coded, Machine.address?]
  refine ⟨p, c, out, q, place, parsed, compiled, emitted, reparsed, Option.some.inj spilled,
    fun world => ?_⟩
  obtain ⟨clock, _, _, mirrors⟩ := runs Machine.adding world (fun _ => 0) (fun _ => 0) rfl
    fun i address touched => absurd ((untouched _).symm.trans touched) (Option.some_ne_none _).symm
  exact ⟨clock, fun i => (mirrors i).1⟩

end Program

end Regalloc
