import Regalloc.Instruction

/-!
Programs as lists of lines. An instruction is known by its position among the instructions, never by
its text, since two lines may read the same.
-/
namespace Regalloc

inductive Line where
  | verbatim (text : String)
  | code (inst : Instruction)
  deriving DecidableEq, Repr

def Line.instruction? : Line → Option Instruction
  | verbatim _ => none
  | code inst => some inst

structure Program where
  lines : List Line
  deriving DecidableEq, Repr

namespace Program

def instructions (p : Program) : List Instruction := p.lines.filterMap Line.instruction?

def size (p : Program) : Nat := p.instructions.length

def next? (p : Program) (i : Nat) : Option Nat := if i + 1 < p.size then some (i + 1) else none

def names (p : Program) : NameSet := NameSet.ofList (p.instructions.flatMap Instruction.registers)

end Program

end Regalloc
