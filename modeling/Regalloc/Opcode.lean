/-!
The instruction set: mnemonics and operand shapes. A mnemonic is read back to the operation it
belongs to, and to no other. Operands are written destination first: `OP dst src1 src2`,
`OPi dst src imm`, `LD dst addr`, `ST value addr`, `Jcc left right label`.
-/
namespace Regalloc

inductive Alu where
  | add | sub | or | and | xor | sl | sr | mul | div | mod
  deriving DecidableEq, Repr

namespace Alu

def all : List Alu := [.add, .sub, .or, .and, .xor, .sl, .sr, .mul, .div, .mod]

def mnemonic : Alu → String
  | add => "ADD"
  | sub => "SUB"
  | or => "OR"
  | and => "AND"
  | xor => "XOR"
  | sl => "SL"
  | sr => "SR"
  | mul => "MUL"
  | div => "DIV"
  | mod => "MOD"

def isShift : Alu → Bool
  | sl | sr => true
  | _ => false

end Alu

inductive Condition where
  | less | equal | greater | notEqual | lessEqual | greaterEqual
  deriving DecidableEq, Repr

namespace Condition

def all : List Condition := [.less, .equal, .greater, .notEqual, .lessEqual, .greaterEqual]

def mnemonic : Condition → String
  | less => "JINF"
  | equal => "JEQU"
  | greater => "JSUP"
  | notEqual => "JNEQ"
  | lessEqual => "JIEQ"
  | greaterEqual => "JSEQ"

end Condition

/-- The role of one operand position. `ignored` is a register that is neither read nor written. -/
inductive Slot where
  | written | read | ignored | immediate | label
  deriving DecidableEq, Repr

inductive Opcode where
  | alu (op : Alu)
  | aluImm (op : Alu)
  | load
  | store
  | input
  | read
  | output
  | print
  | jump
  | branch (condition : Condition)
  | call
  | ret
  | stop
  deriving DecidableEq, Repr

namespace Opcode

def all : List Opcode :=
  [.load, .store, .input, .read, .output, .print, .jump, .call, .ret, .stop]
    ++ Condition.all.map .branch ++ Alu.all.map .alu ++ Alu.all.map .aluImm

def mnemonic : Opcode → String
  | alu op => op.mnemonic
  | aluImm op => op.mnemonic ++ "i"
  | load => "LD"
  | store => "ST"
  | input => "IN"
  | read => "READ"
  | output => "OUT"
  | print => "PRINT"
  | jump => "JMP"
  | branch condition => condition.mnemonic
  | call => "CALL"
  | ret => "RET"
  | stop => "STOP"

def ofMnemonic? (text : String) : Option Opcode := all.find? (fun op => op.mnemonic == text)

theorem memAll (op : Opcode) : op ∈ all := by
  rcases op with (_ | _) | (_ | _) | _ | _ | _ | _ | _ | _ | _ | (_ | _) | _ | _ | _ <;> decide

theorem mnemonicsDistinct :
    ∀ op ∈ all, ∀ other ∈ all, op.mnemonic = other.mnemonic → op = other := by decide +kernel

theorem ofMnemonicMnemonic (op : Opcode) : ofMnemonic? op.mnemonic = some op := by
  have present : (ofMnemonic? op.mnemonic).isSome = true :=
    List.find?_isSome.mpr ⟨op, memAll op, beq_self_eq_true _⟩
  obtain ⟨other, found⟩ := Option.isSome_iff_exists.mp present
  have same : other.mnemonic = op.mnemonic := by simpa using List.find?_some found
  rw [found, mnemonicsDistinct other (List.mem_of_find?_eq_some found) op (memAll op) same]

theorem ofMnemonicIff {text : String} {op : Opcode} :
    ofMnemonic? text = some op ↔ op.mnemonic = text := by
  constructor
  · intro found
    simpa using List.find?_some found
  · rintro rfl
    exact ofMnemonicMnemonic op

def shape : Opcode → List Slot
  | alu op => if op.isShift then [.written, .read, .ignored] else [.written, .read, .read]
  | aluImm _ => [.written, .read, .immediate]
  | load => [.written, .read]
  | store => [.read, .read]
  | input | read => [.written]
  | output | print => [.read]
  | jump | call => [.label]
  | branch _ => [.read, .read, .label]
  | ret | stop => []

def arity (op : Opcode) : Nat := op.shape.length

def isTerminal : Opcode → Bool
  | ret | stop => true
  | _ => false

end Opcode

end Regalloc
