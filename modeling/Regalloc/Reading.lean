import Regalloc.Issue
import Regalloc.Program
import Regalloc.Token

/-!
From text to program. Every line is read by itself: it becomes a line of the program, or it is left
out and adds its issues. A text with any issue is no program.
-/
namespace Regalloc

namespace Reading

def splitComment (lexemes : List Lexeme) : List Lexeme × Option String :=
  match lexemes.getLast? with
  | some ⟨.comment text, _⟩ => (lexemes.dropLast, some text)
  | _ => (lexemes, none)

def splitLabel : List Lexeme → Option (String × Span) × List Lexeme
  | ⟨.label text, span⟩ :: rest => (some (text, span), rest)
  | lexemes => (none, lexemes)

def operandValue : Slot → Lexeme → Except Issue Value
  | .written, ⟨.name text, _⟩ | .read, ⟨.name text, _⟩ | .ignored, ⟨.name text, _⟩ =>
    .ok (.register text)
  | .immediate, ⟨.name text, _⟩ | .immediate, ⟨.number text, _⟩ => .ok (.immediate text)
  | .label, ⟨.name text, _⟩ => .ok (.label text)
  | .written, ⟨_, span⟩ | .read, ⟨_, span⟩ | .ignored, ⟨_, span⟩ => .error (.notRegister span)
  | .immediate, ⟨_, span⟩ => .error (.notImmediate span)
  | .label, ⟨_, span⟩ => .error (.notLabel span)

def operands : List Slot → List Lexeme → Except Issue (List Operand)
  | slot :: slots, lexeme :: lexemes => do
    let value ← operandValue slot lexeme
    let rest ← operands slots lexemes
    .ok (⟨value, lexeme.span⟩ :: rest)
  | _, _ => .ok []

def body : List Lexeme → Except Issue (Option Opcode × List Operand)
  | [] => .ok (none, [])
  | ⟨.name text, span⟩ :: rest =>
    match Opcode.ofMnemonic? text with
    | none => .error (.unknownMnemonic span text)
    | some op =>
      if rest.length = op.arity then do
        let given ← operands op.shape rest
        .ok (some op, given)
      else
        let whole := rest.foldl (fun s lexeme => s.hull lexeme.span) span
        .error (.operandCount whole op.mnemonic op.arity rest.length)
  | ⟨_, span⟩ :: _ => .error (.notMnemonic span)

def unknowns (lexemes : List Lexeme) : List Issue :=
  lexemes.filterMap fun lexeme =>
    if lexeme.token = .unknown then some (.unknownToken lexeme.span) else none

def instruction (number : Nat) (span : Span) (text : String) (lexemes : List Lexeme) :
    Except (List Issue) Instruction :=
  let (lexemes, comment) := splitComment lexemes
  match unknowns lexemes with
  | [] =>
    let (label, rest) := splitLabel lexemes
    match body rest with
    | .ok (opcode, operands) => .ok ⟨number, span, text, label, opcode, operands, comment⟩
    | .error issue => .error [issue]
  | issues => .error issues

def line (file number offset : Nat) (cs : List Char) : Except (List Issue) Line :=
  let text := Text.trim cs
  if text.isEmpty || text.head? == some '#' then .ok (.verbatim (String.ofList cs))
  else
    let span := ⟨file, offset, offset + Text.byteLength cs⟩
    match instruction number span (String.ofList text) (lex cs offset file) with
    | .ok inst => .ok (.code inst)
    | .error issues => .error issues

end Reading

structure Reading where
  lines : List Line
  issues : List Issue
  deriving DecidableEq, Repr

namespace Reading

def add (r : Reading) : Except (List Issue) Line → Reading
  | .ok line => ⟨line :: r.lines, r.issues⟩
  | .error issues => ⟨r.lines, issues ++ r.issues⟩

def ofPieces (file : Nat) : (number offset : Nat) → List (List Char) → Reading
  | _, _, [] => ⟨[], []⟩
  | number, offset, piece :: pieces =>
    (ofPieces file (number + 1) (offset + Text.byteLength piece) pieces).add
      (line file number offset (Text.chomp piece))

def ofText (text : String) (file : Nat) : Reading := ofPieces file 1 0 (Text.pieces text.toList)

def program (r : Reading) : Program := ⟨r.lines⟩

def result (r : Reading) : Except (List Issue) Program :=
  if r.issues.isEmpty then .ok r.program else .error r.issues

end Reading

def Program.parse (text : String) (file : Nat) : Except (List Issue) Program :=
  (Reading.ofText text file).result

end Regalloc
