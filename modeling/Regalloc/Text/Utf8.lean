/-!
Reading bytes as UTF-8. A character is a lead byte and the tail bytes it calls for; the first tail
byte has narrower bounds after some leads, so that no character has two spellings and none is a
surrogate or beyond the last code point.
-/
namespace Regalloc.Text

inductive Utf8Error where
  | invalid (length index : Nat)
  | incomplete (index : Nat)
  deriving DecidableEq, Repr

def Utf8Error.message : Utf8Error → String
  | invalid length index => s!"invalid utf-8 sequence of {length} bytes from index {index}"
  | incomplete index => s!"incomplete utf-8 byte sequence from index {index}"

/-- A character of which `read` bytes are read and `owed` are to come, the next one within bounds. -/
structure Begun where
  read : Nat
  owed : Nat
  low : Nat
  high : Nat
  deriving DecidableEq, Repr

def lead? (b : Nat) : Option Begun :=
  if b < 0x80 then some ⟨1, 0, 0, 0⟩
  else if 0xC2 ≤ b ∧ b ≤ 0xDF then some ⟨1, 1, 0x80, 0xBF⟩
  else if b = 0xE0 then some ⟨1, 2, 0xA0, 0xBF⟩
  else if b = 0xED then some ⟨1, 2, 0x80, 0x9F⟩
  else if 0xE1 ≤ b ∧ b ≤ 0xEF then some ⟨1, 2, 0x80, 0xBF⟩
  else if b = 0xF0 then some ⟨1, 3, 0x90, 0xBF⟩
  else if 0xF1 ≤ b ∧ b ≤ 0xF3 then some ⟨1, 3, 0x80, 0xBF⟩
  else if b = 0xF4 then some ⟨1, 3, 0x80, 0x8F⟩
  else none

def fault? : (index : Nat) → (begun : Option Begun) → List UInt8 → Option Utf8Error
  | _, none, [] => none
  | index, some _, [] => some (.incomplete index)
  | index, none, b :: bytes =>
    match lead? b.toNat with
    | none => some (.invalid 1 index)
    | some begun => if begun.owed = 0 then fault? (index + 1) none bytes else fault? index begun bytes
  | index, some begun, b :: bytes =>
    if begun.low ≤ b.toNat ∧ b.toNat ≤ begun.high then
      if begun.owed = 1 then fault? (index + begun.read + 1) none bytes
      else fault? index (some ⟨begun.read + 1, begun.owed - 1, 0x80, 0xBF⟩) bytes
    else some (.invalid begun.read index)

def decode (bytes : ByteArray) : Except Utf8Error String :=
  match fault? 0 none bytes.toList with
  | some fault => .error fault
  | none => .ok ((String.fromUTF8? bytes).getD "")

end Regalloc.Text
