import Regalloc.Span

/-!
What can be wrong with a program or with its allocation, and how each cause is worded: a code, a
headline, marks on the text and closing notes.
-/
namespace Regalloc

inductive Issue where
  | unknownToken (span : Span)
  | unknownMnemonic (span : Span) (mnemonic : String)
  | operandCount (span : Span) (mnemonic : String) (expected actual : Nat)
  | notRegister (span : Span)
  | notMnemonic (span : Span)
  | notLabel (span : Span)
  | notImmediate (span : Span)
  | unresolvedLabel (span : Span) (label : String) (line : Nat)
  | duplicateLabel (span : Span) (label : String) (first : Span)
  | allocationFailed (needed budget spilled attempts : Nat)
  deriving DecidableEq, Repr

inductive Emphasis where
  | primary | secondary
  deriving DecidableEq, Repr

structure Mark where
  emphasis : Emphasis
  span : Span
  message : String
  deriving DecidableEq, Repr

namespace Issue

def code : Issue → String
  | unknownToken .. => "EP00"
  | unknownMnemonic .. => "EP01"
  | operandCount .. => "EP02"
  | notRegister .. => "EP03"
  | notMnemonic .. => "EP04"
  | notLabel .. => "EP05"
  | notImmediate .. => "EP06"
  | unresolvedLabel .. => "EC00"
  | duplicateLabel .. => "EC01"
  | allocationFailed .. => "EA00"

def headline : Issue → String
  | unknownToken _ => "unrecognized character"
  | unknownMnemonic _ mnemonic => s!"unknown mnemonic `{mnemonic}`"
  | operandCount _ mnemonic _ _ => s!"wrong number of operands for `{mnemonic}`"
  | notRegister _ => "expected a register"
  | notMnemonic _ => "expected a mnemonic"
  | notLabel _ => "expected a label"
  | notImmediate _ => "expected an immediate value"
  | unresolvedLabel _ label line => s!"unresolved label `{label}` referenced on line {line}"
  | duplicateLabel _ label _ => s!"label `{label}` is defined more than once"
  | allocationFailed _ budget _ _ => s!"allocation failed, more than {budget} registers required"

def marks : Issue → List Mark
  | unknownToken span => [⟨.primary, span, ""⟩]
  | unknownMnemonic span _ => [⟨.primary, span, ""⟩]
  | operandCount span _ expected actual =>
    [⟨.primary, span, s!"expected {expected} operand(s), found {actual}"⟩]
  | notRegister span => [⟨.primary, span, "expected a register name"⟩]
  | notMnemonic span => [⟨.primary, span, ""⟩]
  | notLabel span => [⟨.primary, span, ""⟩]
  | notImmediate span => [⟨.primary, span, ""⟩]
  | unresolvedLabel span label _ => [⟨.primary, span, s!"no instruction is labelled `{label}`"⟩]
  | duplicateLabel span _ first =>
    [⟨.primary, span, ""⟩, ⟨.secondary, first, "previous definition here"⟩]
  | allocationFailed .. => []

def notes : Issue → List String
  | unknownMnemonic .. =>
    ["help: the instruction set is ADD SUB OR AND XOR SL SR MUL DIV MOD (and their `i` forms), LD ST IN READ OUT PRINT JMP JINF JEQU JSUP JNEQ JIEQ JSEQ CALL RET STOP"]
  | notMnemonic _ =>
    ["note: a line is an optional `LABEL:` followed by a mnemonic and its operands"]
  | allocationFailed needed _ spilled attempts =>
    [s!"note: {needed} colors were still needed after spilling {spilled} register(s) in {attempts} iteration(s)",
      "note: no code was emitted"]
  | _ => []

end Issue

end Regalloc
