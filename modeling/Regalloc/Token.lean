import Regalloc.Span
import Regalloc.Text.Blank

/-!
Lexemes of one line. At each place the longest spelling wins: a name directly followed by a colon is
a label, digits go on as far as they can, and a comment takes the rest of the line. A character that
starts nothing is an `unknown` token by itself. Blanks between lexemes are space, tab, carriage
return, form feed and vertical tab only.
-/
namespace Regalloc

inductive Token where
  | label (text : String)
  | name (text : String)
  | number (text : String)
  | comment (text : String)
  | unknown
  deriving DecidableEq, Repr

structure Lexeme where
  token : Token
  span : Span
  deriving DecidableEq, Repr

namespace Token

def isNameStart (c : Char) : Bool := c.isAlpha || c == '_' || c == '.' || c == '$'

def isNamePart (c : Char) : Bool := isNameStart c || c.isDigit

def isHexDigit (c : Char) : Bool := c.isDigit || ('a' ≤ c && c ≤ 'f') || ('A' ≤ c && c ≤ 'F')

def isSpace (c : Char) : Bool :=
  c == ' ' || c == '\t' || c == '\r' || c == '\x0b' || c == '\x0c'

def digitsLength : List Char → Nat
  | '0' :: 'x' :: cs =>
    match (cs.takeWhile isHexDigit).length with
    | 0 => 1
    | n + 1 => n + 3
  | cs => (cs.takeWhile Char.isDigit).length

def numberLength : List Char → Nat
  | '-' :: cs =>
    match digitsLength cs with
    | 0 => 0
    | n + 1 => n + 2
  | cs => digitsLength cs

def munch (c : Char) (cs : List Char) : Token × Nat :=
  if isNameStart c then
    let part := cs.takeWhile isNamePart
    if cs[part.length]? = some ':' then (.label (String.ofList (c :: part)), part.length + 1)
    else (.name (String.ofList (c :: part)), part.length)
  else if c = '#' then
    let part := cs.takeWhile (fun d => d != '\n')
    (.comment (String.ofList (Text.trimEnd (c :: part))), part.length)
  else
    match numberLength (c :: cs) with
    | 0 => (.unknown, 0)
    | n + 1 => (.number (String.ofList (c :: cs.take n)), n)

end Token

/-- Reads on at byte `start`, where the next `inside` characters belong to a lexeme already read. -/
def lexFrom (file : Nat) : (start inside : Nat) → List Char → List Lexeme
  | _, _, [] => []
  | start, inside + 1, c :: cs => lexFrom file (start + c.utf8Size) inside cs
  | start, 0, c :: cs =>
    if Token.isSpace c then lexFrom file (start + c.utf8Size) 0 cs
    else
      let (token, more) := Token.munch c cs
      ⟨token, file, start, start + Text.byteLength (c :: cs.take more)⟩
        :: lexFrom file (start + c.utf8Size) more cs

def lex (line : List Char) (offset file : Nat) : List Lexeme := lexFrom file offset 0 line

theorem lexFromInside {file start inside : Nat} {cs : List Char} :
    lexFrom file start inside cs =
      lexFrom file (start + Text.byteLength (cs.take inside)) 0 (cs.drop inside) := by
  induction inside generalizing start cs with
  | zero => simp [Text.byteLength]
  | succ inside ih =>
    cases cs with
    | nil => simp [lexFrom]
    | cons c cs => simpa [lexFrom, Text.byteLength, Nat.add_assoc] using @ih (start + c.utf8Size) cs

end Regalloc
