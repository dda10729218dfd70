import Regalloc.Instruction

/-!
What a line of code says, without its place in a text: an optional label, an optional operation with
its operands, an optional comment. The parts are written in this order, one space apart.
-/
namespace Regalloc

structure Statement where
  label : Option String
  opcode : Option Opcode
  operands : List Value
  comment : Option String
  deriving DecidableEq, Repr

namespace Statement

def plain (op : Opcode) (operands : List Value) : Statement := ⟨none, some op, operands, none⟩

def operation? (s : Statement) : Option String :=
  s.opcode.map fun op => " ".intercalate (op.mnemonic :: s.operands.map Value.text)

def parts (s : Statement) : List String :=
  (s.label.map (fun label => label ++ ":")).toList ++ s.operation?.toList ++ s.comment.toList

def text (s : Statement) : String := " ".intercalate s.parts

end Statement

def Instruction.statement (inst : Instruction) : Statement :=
  ⟨inst.label.map Prod.fst, inst.opcode, inst.operands.map Operand.value, inst.comment⟩

end Regalloc
