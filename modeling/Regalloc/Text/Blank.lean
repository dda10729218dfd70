/-!
Blanks and ends of lines. A blank is a character with the Unicode property White_Space.
-/
namespace Regalloc.Text

def isBlank (c : Char) : Bool :=
  let n := c.toNat
  (9 ≤ n && n ≤ 13) || n == 0x20 || n == 0x85 || n == 0xA0 || n == 0x1680
    || (0x2000 ≤ n && n ≤ 0x200A) || n == 0x2028 || n == 0x2029 || n == 0x202F || n == 0x205F
    || n == 0x3000

def dropEndWhile (p : Char → Bool) (cs : List Char) : List Char :=
  cs.foldr (fun c rest => if rest.isEmpty && p c then [] else c :: rest) []

theorem dropEndWhileAppend (p : Char → Bool) (cs : List Char) :
    ∃ tail, cs = dropEndWhile p cs ++ tail ∧ ∀ c ∈ tail, p c = true := by
  induction cs with
  | nil => exact ⟨[], by simp [dropEndWhile]⟩
  | cons c cs ih =>
    obtain ⟨tail, split, all⟩ := ih
    have step : dropEndWhile p (c :: cs) =
        if (dropEndWhile p cs).isEmpty && p c then [] else c :: dropEndWhile p cs := rfl
    rw [step]
    split
    · rename_i drop
      simp only [Bool.and_eq_true, List.isEmpty_iff] at drop
      refine ⟨c :: cs, rfl, ?_⟩
      rw [drop.1, List.nil_append] at split
      subst split
      intro d mem
      cases mem with
      | head => exact drop.2
      | tail _ mem => exact all d mem
    · exact ⟨tail, congrArg _ split, all⟩

def trimEnd (cs : List Char) : List Char := dropEndWhile isBlank cs

def trim (cs : List Char) : List Char := trimEnd (cs.dropWhile isBlank)

def byteLength : List Char → Nat
  | [] => 0
  | c :: cs => c.utf8Size + byteLength cs

theorem byteLengthAppend (cs ds : List Char) :
    byteLength (cs ++ ds) = byteLength cs + byteLength ds := by
  induction cs with
  | nil => simp [byteLength]
  | cons c cs ih => simp only [List.cons_append, byteLength, ih, Nat.add_assoc]

def pieces (cs : List Char) : List (List Char) :=
  cs.foldr (fun c rest =>
    if c = '\n' then [c] :: rest
    else match rest with
      | [] => [[c]]
      | piece :: rest => (c :: piece) :: rest) []

theorem flattenPieces (cs : List Char) : (pieces cs).flatten = cs := by
  induction cs with
  | nil => rfl
  | cons c cs ih =>
    change (if c = '\n' then [c] :: pieces cs else match pieces cs with
      | [] => [[c]]
      | piece :: rest => (c :: piece) :: rest).flatten = c :: cs
    split
    · simp [ih]
    · cases h : pieces cs with
      | nil => simpa [h] using ih
      | cons piece rest => simpa [h] using ih

def chomp (piece : List Char) : List Char := dropEndWhile (fun c => c == '\n' || c == '\r') piece

end Regalloc.Text
