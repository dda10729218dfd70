import Regalloc.NameSet
import Regalloc.Opcode
import Regalloc.Span

/-!
Instructions with their place in the text. Nothing here checks that the operands fit the operation:
roles are given by position, as far as both the shape and the operands reach.
-/
namespace Regalloc

inductive Value where
  | register (name : Name)
  | immediate (text : String)
  | label (text : String)
  deriving DecidableEq, Repr

namespace Value

def text : Value → String
  | register name => name
  | immediate text => text
  | label text => text

def register? : Value → Option Name
  | register name => some name
  | _ => none

def label? : Value → Option String
  | label text => some text
  | _ => none

end Value

structure Operand where
  value : Value
  span : Span
  deriving DecidableEq, Repr

/-- An instruction as read. `line` counts from one, `text` is the line without the blanks around it,
and a line that holds only a label has no `opcode`. -/
structure Instruction where
  line : Nat
  span : Span
  text : String
  label : Option (String × Span)
  opcode : Option Opcode
  operands : List Operand
  comment : Option String
  deriving DecidableEq, Repr

namespace Instruction

def shape (inst : Instruction) : List Slot := (inst.opcode.map Opcode.shape).getD []

def slots (inst : Instruction) : List (Slot × Operand) := inst.shape.zip inst.operands

def registersIn (inst : Instruction) (wanted : Slot) : List Name :=
  inst.slots.filterMap fun (slot, operand) =>
    if slot = wanted then operand.value.register? else none

def kills (inst : Instruction) : List Name := inst.registersIn .written

def gens (inst : Instruction) : List Name := inst.registersIn .read

def registers (inst : Instruction) : List Name :=
  inst.operands.filterMap (fun operand => operand.value.register?)

def destination (inst : Instruction) : Option (String × Span) :=
  inst.operands.findSome? fun operand => operand.value.label?.map fun text => (text, operand.span)

end Instruction

end Regalloc
