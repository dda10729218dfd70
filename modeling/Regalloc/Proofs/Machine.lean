import Mathlib.Logic.Function.Iterate
import Regalloc.Proofs.Emission

/-! A machine that runs code. What operations compute is left open, so that what is shown of its
runs holds for every reading of them; `ADDi` adds, and the third operand of a shift is not read. A
call halts the machine, as does a jump that goes nowhere. -/
namespace Regalloc

structure Machine where
  immediate : String → Int
  decimal : ∀ n : Nat, immediate (toString n) = n
  alu : Alu → List Int → Int
  aluImm : Alu → Int → Int → Int
  holds : Condition → Int → Int → Bool

def Machine.adding : Machine where
  immediate text := Nat.ofDigitChars 10 text.toList 0
  decimal n := by
    have digits : (toString n).toList = Nat.toDigits 10 n := String.toList_ofList
    rw [digits, Nat.ofDigitChars_ten_toDigits]
  alu _ reads := reads.foldr Int.add 0
  aluImm _ value immediate := Int.add value immediate
  holds _ _ _ := true

structure World where
  memory : Int → Int
  input : Nat → Int
  output : List Int

def World.put (w : World) (address value : Int) : World :=
  { w with memory := Function.update w.memory address value }

theorem World.putSelf (w : World) (address value : Int) : (w.put address value).memory address = value :=
  Function.update_self ..

theorem World.putOther (w : World) {address other : Int} (apart : other ≠ address) (value : Int) :
    (w.put address value).memory other = w.memory other :=
  Function.update_of_ne apart ..

structure State where
  position : Nat
  registers : Name → Int
  world : World

inductive Control where
  | next
  | jump (label : Option String)
  | halt

structure Effect where
  result : Option Int
  world : World
  control : Control

def Value.immediate? : Value → Option String
  | immediate text => some text
  | _ => none

theorem Value.immediateFixed (value : Value) :
    value.immediate? = value.fixed?.bind Value.immediate? := by
  cases value <;> rfl

namespace Statement

def immediate (s : Statement) : String := (s.operands.findSome? Value.immediate?).getD ""

theorem immediateFixed (s : Statement) : s.immediate =
    (s.fixed.findSome? fun value => value.bind Value.immediate?).getD "" := by
  rw [immediate, fixed, List.findSome?_map]
  exact congrArg (fun f => (s.operands.findSome? f).getD "") (funext Value.immediateFixed)

end Statement

def Control.go (code : List Statement) (i : Nat) : Control → Option Nat
  | next => some (i + 1)
  | jump label => label.bind (Code.position? code)
  | halt => none

namespace Machine

variable {m : Machine} {code : List Statement}

def effect (m : Machine) (op : Opcode) (s : Statement) (reads : List Int) (w : World) : Effect :=
  match op with
  | .alu op => ⟨some (m.alu op reads), w, .next⟩
  | .aluImm .add => ⟨some (reads.getD 0 0 + m.immediate s.immediate), w, .next⟩
  | .aluImm op => ⟨some (m.aluImm op (reads.getD 0 0) (m.immediate s.immediate)), w, .next⟩
  | .load => ⟨some (w.memory (reads.getD 0 0)), w, .next⟩
  | .store => ⟨none, w.put (reads.getD 1 0) (reads.getD 0 0), .next⟩
  | .input | .read => ⟨some (w.input 0), { w with input := fun n => w.input (n + 1) }, .next⟩
  | .output | .print => ⟨none, { w with output := w.output ++ [reads.getD 0 0] }, .next⟩
  | .jump => ⟨none, w, .jump s.destination?⟩
  | .branch condition =>
    ⟨none, w, if m.holds condition (reads.getD 0 0) (reads.getD 1 0) then .jump s.destination?
      else .next⟩
  | .call | .ret | .stop => ⟨none, w, .halt⟩

def address? (op : Opcode) (reads : List Int) : Option Int :=
  match op with
  | .load => some (reads.getD 0 0)
  | .store => some (reads.getD 1 0)
  | _ => none

def write (names : List Name) (result : Option Int) (registers : Name → Int) : Name → Int :=
  match names.head?, result with
  | some x, some value => Function.update registers x value
  | _, _ => registers

def step (m : Machine) (code : List Statement) (s : State) : Option State :=
  match code[s.position]? with
  | none => none
  | some line =>
    match line.opcode with
    | none => some { s with position := s.position + 1 }
    | some op =>
      let e := m.effect op line (line.gens.map s.registers) s.world
      (e.control.go code s.position).map fun i => ⟨i, write line.kills e.result s.registers, e.world⟩

def advance (m : Machine) (code : List Statement) (s : State) : State := (m.step code s).getD s

def touched? (code : List Statement) (s : State) : Option Int :=
  code[s.position]?.bind fun line =>
    line.opcode.bind fun op => address? op (line.gens.map s.registers)

theorem writeOther {names : List Name} {x : Name} (other : x ∉ names) (result : Option Int)
    (registers : Name → Int) : write names result registers x = registers x := by
  unfold write
  cases names with
  | nil => rfl
  | cons y names =>
    have apart : x ≠ y := fun same => other (same ▸ List.mem_cons_self)
    cases result with
    | none => rfl
    | some value => exact Function.update_of_ne apart ..

section Step

variable {s : State} {line : Statement} {op : Opcode}

theorem stepEnd (ends : code.length ≤ s.position) : m.step code s = none := by
  unfold step
  rw [List.getElem?_eq_none ends]

theorem stepAt (found : code[s.position]? = some line) (coded : line.opcode = some op) :
    m.step code s =
      (((m.effect op line (line.gens.map s.registers) s.world).control.go code s.position).map
        fun i => ⟨i, write line.kills (m.effect op line (line.gens.map s.registers) s.world).result
          s.registers, (m.effect op line (line.gens.map s.registers) s.world).world⟩) := by
  unfold step
  rw [found]
  dsimp only
  rw [coded]

theorem stepBare (found : code[s.position]? = some line) (bare : line.opcode = none) :
    m.step code s = some { s with position := s.position + 1 } := by
  unfold step
  rw [found]
  dsimp only
  rw [bare]

theorem stepUnmarked (found : (code[s.position]?).map Statement.unmarked = some line)
    (coded : line.opcode = some op) :
    m.step code s =
      (((m.effect op line (line.gens.map s.registers) s.world).control.go code s.position).map
        fun i => ⟨i, write line.kills (m.effect op line (line.gens.map s.registers) s.world).result
          s.registers, (m.effect op line (line.gens.map s.registers) s.world).world⟩) := by
  obtain ⟨marked, present, rfl⟩ := Option.map_eq_some_iff.mp found
  exact (stepAt present (show marked.opcode = some op from coded)).trans rfl

end Step

inductive Run (m : Machine) (code : List Statement) : Nat → State → State → Prop where
  | refl (s : State) : Run m code 0 s s
  | step {n : Nat} {s u v : State} (first : m.step code s = some u) (rest : Run m code n u v) :
    Run m code (n + 1) s v

theorem Run.one {s u : State} (step : m.step code s = some u) : Run m code 1 s u :=
  .step step (.refl u)

theorem Run.append {n k : Nat} {s u v : State} (left : Run m code n s u) (right : Run m code k u v) :
    Run m code (n + k) s v := by
  induction left with
  | refl s => exact (Nat.zero_add k).symm ▸ right
  | @step n s _ _ first _ ih =>
    rw [Nat.add_right_comm]
    exact .step first (ih right)

theorem Run.advances {n : Nat} {s u : State} (run : Run m code n s u) :
    (m.advance code)^[n] s = u := by
  induction run with
  | refl s => rfl
  | step first _ ih =>
    rw [Function.iterate_succ_apply, advance, first]
    exact ih

end Machine

end Regalloc
