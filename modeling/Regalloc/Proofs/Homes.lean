import Regalloc.Proofs.CompiledCode
import Regalloc.Proofs.SpillCode

/-! The code for one instruction, by where its names live: in a register of their own or in a cell
above the stack pointer. Any such placement will do, even one that puts two names into one register.
The operation meets the values that the names have at home, what it writes goes home, and nothing
else changes but the two scratch registers and the cell that a store of the source writes. -/
namespace Regalloc

namespace Statement.Readable

variable {s : Statement} {wanted : Slot} {op : Opcode}

theorem registersInLength (readable : s.Readable) (names : wanted = .read ∨ wanted = .written) :
    (s.registersIn wanted).length = s.shape.count wanted := by
  have fits := readable.operands
  unfold registersIn
  rw [← shape] at fits
  generalize s.shape = shape at fits ⊢
  generalize s.operands = operands at fits ⊢
  induction fits with
  | nil => rfl
  | @cons slot value shape operands fits _ ih =>
    rw [List.zip_cons_cons, List.filterMap_cons, List.count_cons]
    by_cases same : slot = wanted
    · obtain ⟨x, rfl⟩ : ∃ x, value = .register x := by
        rcases names with rfl | rfl <;> subst same <;> cases value <;>
          first | exact ⟨_, rfl⟩ | contradiction
      simpa [same, Value.register?] using ih
    · simpa [same] using ih

theorem gensPair (readable : s.Readable) (coded : s.opcode = some op)
    (two : op.shape.count .read = 2) : ∃ x y, s.gens = [x, y] := by
  have length := readable.registersInLength (.inl rfl)
  rw [shape, coded] at length
  exact List.length_eq_two.mp (length.trans two)

end Statement.Readable

/-- Where a name lives: so far above the stack pointer, or in a register. -/
inductive Home where
  | cell (offset : Nat)
  | register (r : Register)

def Home.value (s : State) : Home → Int
  | cell offset => s.world.memory (s.registers "R29" + offset)
  | register r => s.registers r.text

namespace Placement

structure Sound (place : Placement) : Prop where
  nodup : place.spills.names.Nodup
  stride : place.spills.stride = Target.standard.stride
  spilled : ∀ x ∈ place.spills.names, Target.standard.isReserved x = false
  given : ∀ x r, place.registers.get? x = some r → x ∉ place.spills.names ∧
    Target.standard.isReserved x = false ∧ r ≠ ⟨29⟩ ∧ r ≠ ⟨30⟩ ∧ r ≠ ⟨31⟩

inductive LivesIn (place : Placement) : Name → Home → Prop where
  | stack : LivesIn place "SP" (.register ⟨29⟩)
  | spilled {i : Nat} {x : Name} (found : place.spills.names[i]? = some x) :
    LivesIn place x (.cell (i * place.spills.stride))
  | given {x : Name} {r : Register} (found : place.registers.get? x = some r) :
    LivesIn place x (.register r)

end Placement

namespace Expansion

open Placement (Sound LivesIn)

variable {place : Placement} {live : NameSet} {inst : Instruction} {x : Name} {h : Home}
  {r : Register} {s u : State} {op : Opcode} {m : Machine} {home : Name → Home}
  {registers : Name → Int}

theorem soundSuited (sound : place.Sound) : Suited .standard place where
  scratch := (by decide : Register.mk 30 ≠ ⟨31⟩)
  stackValue := (by decide : Register.mk 29 ≠ ⟨30⟩)
  stackAddress := (by decide : Register.mk 29 ≠ ⟨31⟩)
  nodup := sound.nodup
  stride := by
    rw [sound.stride]
    exact (by decide : 0 < 4)

theorem stackText : Target.standard.stackPointer.text = "R29" := by decide

theorem homeCases (sound : place.Sound) (lives : LivesIn place x h) :
    x ∈ place.spills.names ∧ h = .cell (slot place x) ∨
      x ∉ place.spills.names ∧ ∃ r, h = .register r ∧ renamed .standard place [] x = r.text ∧
        r ≠ ⟨30⟩ ∧ r ≠ ⟨31⟩ ∧ (r = ⟨29⟩ → x = "SP") := by
  cases lives with
  | stack =>
    have unspilled : "SP" ∉ place.spills.names := fun spilled =>
      absurd (sound.spilled _ spilled) (by decide)
    exact .inr ⟨unspilled, ⟨29⟩, rfl, rfl, by decide, by decide, fun _ => rfl⟩
  | spilled found =>
    refine .inl ⟨List.mem_of_getElem? found, ?_⟩
    rw [slot, Spills.offsetAt sound.nodup found]
    rfl
  | given found =>
    obtain ⟨unspilled, free, stack, value, address⟩ := sound.given _ _ found
    refine .inr ⟨unspilled, _, rfl, ?_, value, address, fun same => absurd same stack⟩
    simp [renamed, register?, Target.unbound free, found]

theorem homeHoused (sound : place.Sound) (lives : LivesIn place x h) :
    Housed .standard place x := by
  intro kept
  rcases homeCases sound lives with ⟨spilled, _⟩ | ⟨_, r, _, name, value, address, _⟩
  · exact absurd spilled kept
  · exact ⟨r, name, value, address⟩

theorem homeHeld (sound : place.Sound) (lives : LivesIn place x h) (s : State) :
    held .standard place (s.registers "R29") s x = h.value s := by
  rcases homeCases sound lives with ⟨spilled, rfl⟩ | ⟨kept, r, rfl, name, _⟩
  · rw [held, if_pos spilled]
    rfl
  · rw [held, if_neg kept, name]
    rfl

/-- What the code for an instruction makes of a state, where the instruction makes `e` of the values
that its names have there. -/
structure Performed (home : Name → Home) (inst : Instruction) (e : Effect) (s u : State) : Prop where
  written : ∀ x ∈ inst.kills, e.result = some ((home x).value u)
  stack : u.registers "R29" = s.registers "R29"
  registers : ∀ r : Register, r ≠ ⟨30⟩ → r ≠ ⟨31⟩ → (∀ x ∈ inst.kills, home x ≠ .register r) →
    u.registers r.text = s.registers r.text
  stored : inst.opcode = some .store → ∃ x y, inst.gens = [x, y] ∧
    u.world.memory ((home y).value s) = (home x).value s
  memory : ∀ address,
    (∀ x ∈ inst.kills, ∀ offset, home x = .cell offset → address ≠ s.registers "R29" + offset) →
    (inst.opcode = some .store → ∀ y ∈ inst.gens[1]?, address ≠ (home y).value s) →
    u.world.memory address = s.world.memory address
  input : u.world.input = e.world.input
  output : u.world.output = e.world.output

section Finished

variable {e : Effect} (sound : place.Sound)
  (lives : ∀ x ∈ inst.kills, LivesIn place x (home x))
  (frame : ∀ r : Register, r ≠ ⟨30⟩ → r ≠ ⟨31⟩ → registers r.text = s.registers r.text)
  (finished : Finished .standard place inst (s.registers "R29") e registers u)
include sound lives finished

theorem finishedMemory {address : Int}
    (apart : ∀ x ∈ inst.kills, ∀ offset, home x = .cell offset →
      address ≠ s.registers "R29" + offset) :
    u.world.memory address = e.world.memory address := by
  cases finished with
  | kept unspilled => rfl
  | @stored _ x v killed result =>
    obtain ⟨mem, spilled⟩ := spilledKillIn killed
    rcases homeCases sound (lives x mem) with ⟨_, atHome⟩ | ⟨kept, _⟩
    · exact e.world.putOther (apart x mem _ atHome) v
    · exact absurd spilled kept

include frame

theorem finishedRegisters (value : r ≠ ⟨30⟩) (address : r ≠ ⟨31⟩)
    (other : ∀ x ∈ inst.kills, home x ≠ .register r) :
    u.registers r.text = s.registers r.text := by
  cases finished with
  | kept unspilled =>
    refine (Machine.writeOther (fun mem => ?_) e.result registers).trans (frame r value address)
    obtain ⟨x, killed, same⟩ := List.mem_map.mp mem
    rcases homeCases sound (lives x killed) with ⟨spilled, _⟩ | ⟨_, q, atHome, name, _⟩
    · exact unspilled x killed spilled
    · exact other x killed (Register.textInjective (name.symm.trans same) ▸ atHome)
  | stored killed result =>
    refine (Function.update_of_ne (fun same => address (Register.textInjective same)) ..).trans ?_
    refine (Function.update_of_ne (fun same => value (Register.textInjective same)) ..).trans ?_
    exact frame r value address

theorem finishedStack (still : "SP" ∉ inst.kills) : u.registers "R29" = s.registers "R29" := by
  have stack := @finishedRegisters place inst ⟨29⟩ s u home registers e sound lives frame finished
    (by decide) (by decide) fun x killed same => by
      rcases homeCases sound (lives x killed) with ⟨_, atHome⟩ | ⟨_, q, atHome, _, _, _, only⟩
      · exact Home.noConfusion (atHome.symm.trans same)
      · cases atHome.symm.trans same
        exact still (only rfl ▸ killed)
  rwa [show (Register.mk 29).text = "R29" from stackText] at stack

theorem finishedWritten (still : "SP" ∉ inst.kills) (killed : x ∈ inst.kills) {v : Int}
    (result : e.result = some v) : (home x).value u = v := by
  have stack := finishedStack sound lives frame finished still
  have one := Instruction.killsOf killed
  rcases homeCases sound (lives x killed) with ⟨spilled, atHome⟩ | ⟨unspilled, q, atHome, name, _⟩
  · rw [atHome, Home.value, stack]
    cases finished with
    | kept all => exact absurd spilled (all x killed)
    | @stored _ y w written result' =>
      cases Instruction.killsOne killed (spilledKillIn written).1
      cases Option.some.inj (result.symm.trans result')
      exact e.world.putSelf _ _
  · rw [atHome, Home.value]
    cases finished with
    | kept _ =>
      rw [one, result, List.map_singleton, name]
      exact Function.update_self ..
    | stored written _ =>
      cases Instruction.killsOne killed (spilledKillIn written).1
      exact absurd (spilledKillIn written).2 unspilled

end Finished

theorem operationPerformed (sound : place.Sound)
    (lives : ∀ x ∈ inst.registers, LivesIn place x (home x)) (still : "SP" ∉ inst.kills)
    (readable : inst.statement.Readable) (coded : inst.opcode = some op)
    (frame : ∀ r : Register, r ≠ ⟨30⟩ → r ≠ ⟨31⟩ → registers r.text = s.registers r.text)
    (finished : Finished .standard place inst (s.registers "R29")
      (m.effect op inst.statement (inst.gens.map fun x => (home x).value s) s.world) registers u) :
    Performed home inst
      (m.effect op inst.statement (inst.gens.map fun x => (home x).value s) s.world) s u := by
  have lives : ∀ x ∈ inst.kills, LivesIn place x (home x) := fun x killed =>
    lives x (Instruction.registersInNamed killed)
  have world := @finishedMemory place inst s u home registers _ sound lives finished
  have pair : inst.opcode = some .store → ∃ x y, inst.gens = [x, y] := fun stores => by
    rw [Instruction.gens, inst.registersInStatement]
    exact readable.gensPair stores rfl
  refine ⟨fun x killed => ?_, finishedStack sound lives frame finished still,
    fun r => finishedRegisters sound lives frame finished, fun stores => ?_,
    fun address apart target => ?_, ?_, ?_⟩
  · obtain ⟨v, result⟩ := Machine.effectResult (m := m) coded killed inst.statement
      (inst.gens.map fun x => (home x).value s) s.world
    rw [finishedWritten sound lives frame finished still killed result, result]
  · obtain ⟨x, y, gens⟩ := pair stores
    cases Option.some.inj (coded.symm.trans stores)
    refine ⟨x, y, gens, ?_⟩
    have unwritten : ∀ z ∈ inst.kills, ∀ offset, home z = .cell offset →
        (home y).value s ≠ s.registers "R29" + offset := fun z killed =>
      absurd (Instruction.killWritten coded killed) (by decide)
    rw [world unwritten, gens]
    exact s.world.putSelf _ _
  · rw [world apart]
    refine m.effectMemory (fun same => ?_) inst.statement s.world
    subst same
    obtain ⟨x, y, gens⟩ := pair coded
    have apart := target coded y (by rw [gens]; rfl)
    rwa [gens]
  · cases finished <;> rfl
  · cases finished <;> rfl

end Expansion

namespace Program

open Expansion (Performed)

variable {p : Program} {place : Placement} {inst : Instruction}

/-- The code for an instruction other than a call, where every name that it uses has a home. The
operation is reached with the values from the homes of the names that it reads and with nothing else
changed, so it has the effect that the instruction has on these values, a branch among them, and the
code goes on from its last line to where that effect says. -/
theorem operationAtHome {source : String} {file : Nat} (parsed : Program.parse source file = .ok p)
    (mem : inst ∈ p.instructions) (plain : inst.opcode ≠ some .call) (still : "SP" ∉ inst.kills)
    (sound : place.Sound) (home : Name → Home)
    (lives : ∀ x ∈ inst.registers, place.LivesIn x (home x)) (live : NameSet) (m : Machine)
    (code : List Statement) (s : State) :
    let lines := (Expansion.statements .standard place live inst).map Statement.unmarked
    CodeAt code s.position lines →
    (inst.opcode = none → m.step code s = some { s with position := s.position + 1 }) ∧
    ∀ op, inst.opcode = some op →
      let reads := inst.gens.map fun x => (home x).value s
      let e := m.effect op inst.statement reads s.world
      (∃ front line back c, lines = front ++ line :: back ∧ line.opcode = some op ∧
        line.fixed = inst.statement.fixed ∧
        m.Run code front.length s c ∧ c.position = s.position + front.length ∧
        c.world = s.world ∧
        (∀ r : Register, r ≠ ⟨30⟩ → r ≠ ⟨31⟩ → c.registers r.text = s.registers r.text) ∧
        line.gens.map c.registers = reads ∧ m.effect op line reads c.world = e) ∧
      (op.leaves = false → e.control = .next) ∧
      (∀ condition, op = .branch condition → ∃ x y, inst.gens = [x, y] ∧
        e.control = if m.holds condition ((home x).value s) ((home y).value s)
          then .jump inst.statement.destination? else .next) ∧
      ∀ i, e.control.go code (s.position + lines.length - 1) = some i →
        ∃ u, m.Run code lines.length s u ∧ u.position = i ∧ Performed home inst e s u := by
  intro lines stands
  have readable := readableAt (parseReadable parsed) mem
  refine ⟨fun bare => ?_, fun op coded => ?_⟩
  · have one : lines = [inst.statement.unmarked] :=
      congrArg (List.map Statement.unmarked) (Expansion.statementsBare readable bare)
    obtain ⟨line, found, same⟩ := Option.map_eq_some_iff.mp (one ▸ stands).head
    exact Machine.stepBare found ((congrArg Statement.opcode same).trans bare)
  · intro reads e
    have called : op ≠ .call := fun same => plain (same ▸ coded)
    have same : lines = Expansion.body .standard place live inst :=
      Expansion.statementsUnmarked coded .standard place live
    rw [same] at stands ⊢
    have read : inst.gens.map (Expansion.held .standard place (s.registers "R29") s) = reads :=
      List.map_congr_left fun x mem =>
        Expansion.homeHeld sound (lives x (Instruction.registersInNamed mem)) s
    obtain ⟨registers, run, frame, gens, runs⟩ := Expansion.runOperation (m := m)
      (Expansion.soundSuited sound) coded called stands (by rw [Expansion.stackText])
      (fun x mem => Expansion.homeHoused sound (lives x (Instruction.registersInNamed mem))) read
    have fixed :=
      @Expansion.coreFixed .standard place (Expansion.scratch .standard place inst) op inst
    refine ⟨⟨_, _, _, _, Expansion.bodyOperation coded called, rfl, fixed, run, rfl, rfl, frame, gens,
      m.effectFixed op fixed reads s.world⟩, fun stays => Machine.effectNext stays called _ _ _,
      fun condition branches => ?_, fun i goes => ?_⟩
    · subst branches
      obtain ⟨x, y, gens⟩ := readable.gensPair coded rfl
      have pair : inst.gens = [x, y] := (inst.registersInStatement .read).trans gens
      have values : reads = [(home x).value s, (home y).value s] := by
        rw [show reads = inst.gens.map _ from rfl, pair]
        rfl
      refine ⟨x, y, pair, ?_⟩
      rw [show e = m.effect _ _ reads _ from rfl, values]
      rfl
    · obtain ⟨u, run, position, finished⟩ := runs i goes
      exact ⟨u, run, position,
        Expansion.operationPerformed sound lives still readable coded frame finished⟩

def addPlacement : Placement := ⟨∅, ["a", "b"], 4⟩

theorem addSound : addPlacement.Sound where
  nodup := by decide
  stride := rfl
  spilled := by decide
  given _ _ found := nomatch found

theorem addAtHome : ∃ p inst, Program.parse "ADD a b a\n" 0 = .ok p ∧ inst ∈ p.instructions ∧
    inst.kills = ["a"] ∧ inst.gens = ["b", "a"] ∧
    ∀ s : State, s.position = 0 →
      ∃ u, Machine.adding.Run (Expansion.statements .standard addPlacement ∅ inst) 7 s u ∧
        u.position = 7 ∧
        (Home.cell 0).value u = (Home.cell 4).value s + (Home.cell 0).value s ∧
        (∀ r : Register, r ≠ ⟨30⟩ → r ≠ ⟨31⟩ → u.registers r.text = s.registers r.text) ∧
        ∀ address, address ≠ s.registers "R29" → u.world.memory address = s.world.memory address := by
  have ran : (Program.parse "ADD a b a\n" 0).toOption.any (fun p =>
      p.instructions.any fun inst => decide (inst.opcode = some (.alu .add) ∧
        inst.registers = ["a", "b", "a"] ∧ inst.kills = ["a"] ∧ inst.gens = ["b", "a"] ∧
        (Expansion.statements .standard addPlacement ∅ inst).length = 7)) = true := by
    decide +kernel
  obtain ⟨p, parsed, ran⟩ := Allocation.okOf ran
  obtain ⟨inst, mem, ran⟩ := List.any_eq_true.mp ran
  obtain ⟨coded, named, kills, gens, length⟩ := of_decide_eq_true ran
  refine ⟨p, inst, parsed, mem, kills, gens, fun s start => ?_⟩
  have lives : ∀ x ∈ inst.registers,
      addPlacement.LivesIn x (if x = "a" then .cell 0 else .cell 4) := by
    intro x mem
    have either : x = "a" ∨ x = "b" ∨ x = "a" := by simpa [named] using mem
    rcases either with rfl | rfl | rfl
    · exact .spilled (i := 0) rfl
    · exact .spilled (i := 1) rfl
    · exact .spilled (i := 0) rfl
  obtain ⟨_, runs⟩ := operationAtHome parsed mem (by simp [coded]) (by simp [kills]) addSound _ lives
    ∅ .adding (Expansion.statements .standard addPlacement ∅ inst) s (fun j _ => by
      rw [start, Nat.zero_add, List.getElem?_map])
  obtain ⟨_, next, _, ends⟩ := runs _ coded
  rw [List.length_map, length, start] at ends
  obtain ⟨u, run, position, performed⟩ := ends 7 (by rw [next rfl]; rfl)
  refine ⟨u, run, position, ?_, fun r value address => ?_, fun address apart => ?_⟩
  · have sum := Option.some.inj (performed.written "a" (by simp [kills]))
    rw [gens] at sum
    exact sum.symm.trans (congrArg (_ + ·) (Int.add_zero _))
  · refine performed.registers r value address fun x killed => ?_
    split <;> exact Home.noConfusion
  · refine performed.memory address (fun x killed offset same => ?_) fun stores => ?_
    · rw [kills, List.mem_singleton] at killed
      subst killed
      cases same
      simpa using apart
    · exact absurd (coded.symm.trans stores) (by decide)

end Program

end Regalloc
