import Regalloc.Proofs.Lines

/-! Lexemes and the characters they were read from. The lexemes of a line stand one after the other
at places that hold just their spelling, with nothing but blanks between them. -/
namespace Regalloc

namespace Text

/-- The bytes of `text` from `start` up to `stop` are the characters of `part`. -/
def Slice (text : List Char) (start stop : Nat) (part : List Char) : Prop :=
  ∃ before after, text = before ++ part ++ after ∧ byteLength before = start ∧
    byteLength before + byteLength part = stop

variable {text line part : List Char} {a b c d : Nat}

theorem byteLengthPos {cs : List Char} (nonempty : cs ≠ []) : 0 < byteLength cs := by
  cases cs with
  | nil => contradiction
  | cons c cs => exact Nat.add_pos_left c.utf8Size_pos _

theorem Slice.nonempty (slice : Slice text a b part) : part ≠ [] ↔ a < b := by
  obtain ⟨before, after, _, rfl, rfl⟩ := slice
  refine ⟨fun some => Nat.lt_add_of_pos_right (byteLengthPos some), ?_⟩
  rintro lt rfl
  exact Nat.lt_irrefl _ lt

theorem Slice.le (slice : Slice text a b part) : a ≤ b := by
  obtain ⟨before, after, _, rfl, rfl⟩ := slice
  exact Nat.le_add_right _ _

theorem Slice.stopLe (slice : Slice text a b part) : b ≤ byteLength text := by
  obtain ⟨before, after, rfl, rfl, rfl⟩ := slice
  rw [byteLengthAppend, byteLengthAppend]
  exact Nat.le_add_right _ _

theorem Slice.inside (outer : Slice text a b line) (inner : Slice line c d part) :
    Slice text (a + c) (a + d) part := by
  obtain ⟨before, after, rfl, rfl, _⟩ := outer
  obtain ⟨first, last, rfl, rfl, rfl⟩ := inner
  refine ⟨before ++ first, last ++ after, by simp only [List.append_assoc], ?_, ?_⟩
  · rw [byteLengthAppend]
  · rw [byteLengthAppend, Nat.add_assoc]

theorem prefixOfLe {first second : List Char} (left : first <+: text) (right : second <+: text)
    (le : byteLength first ≤ byteLength second) : first <+: second := by
  rcases List.prefix_or_prefix_of_prefix left right with shorter | ⟨more, rfl⟩
  · exact shorter
  · have none : more = [] := by
      refine Classical.byContradiction fun nonempty => ?_
      have pos := byteLengthPos nonempty
      rw [byteLengthAppend] at le
      omega
    exact ⟨[], by rw [none, List.append_nil, List.append_nil]⟩

theorem Slice.join {other : List Char} (first : Slice text a b part)
    (second : Slice text c d other) (le : a ≤ c) : ∃ whole, Slice text a d whole := by
  obtain ⟨before, after, split, rfl, rfl⟩ := first
  obtain ⟨front, rest, split', rfl, rfl⟩ := second
  have left : before <+: text := ⟨part ++ after, by rw [split, List.append_assoc]⟩
  have right : front <+: text := ⟨other ++ rest, by rw [split', List.append_assoc]⟩
  obtain ⟨between, rfl⟩ := prefixOfLe left right le
  refine ⟨between ++ other, before, rest, by simpa only [List.append_assoc] using split', rfl, ?_⟩
  rw [byteLengthAppend, byteLengthAppend, Nat.add_assoc]

end Text

namespace Token

/-- The characters that a token is read from. A comment is read from all that follows it. -/
def ReadFrom : Token → List Char → Prop
  | label text, cs => cs = text.toList ++ [':']
  | name text, cs => cs = text.toList
  | number text, cs => cs = text.toList
  | comment text, cs => Text.trimEnd cs = text.toList
  | unknown, cs => ∃ c, cs = [c]

theorem digitsWithin (cs : List Char) : digitsLength cs ≤ cs.length := by
  unfold digitsLength
  split
  · rename_i rest
    have within := (List.takeWhile_sublist (l := rest) isHexDigit).length_le
    simp only [List.length_cons]
    split <;> omega
  · exact (List.takeWhile_sublist _).length_le

theorem numberWithin (cs : List Char) : numberLength cs ≤ cs.length := by
  unfold numberLength
  split
  · rename_i rest
    have within := digitsWithin rest
    simp only [List.length_cons]
    split <;> omega
  · exact digitsWithin _

theorem takePart (p : Char → Bool) (cs : List Char) :
    cs.take (cs.takeWhile p).length = cs.takeWhile p :=
  (List.prefix_iff_eq_take.mp (List.takeWhile_prefix p)).symm

theorem munchReadFrom (c : Char) (cs : List Char) :
    (munch c cs).2 ≤ cs.length ∧ (munch c cs).1.ReadFrom (c :: cs.take (munch c cs).2) := by
  have within : ∀ p : Char → Bool, (cs.takeWhile p).length ≤ cs.length :=
    fun p => (List.takeWhile_sublist p).length_le
  unfold munch
  split
  · dsimp only
    split
    · rename_i colon
      have bound := (List.getElem?_eq_some_iff.mp colon).1
      refine ⟨bound, ?_⟩
      simp [ReadFrom, List.take_add_one, takePart, colon]
    · exact ⟨within _, by simp [ReadFrom, takePart]⟩
  · split
    · exact ⟨within _, by simp [ReadFrom, takePart]⟩
    · have bound := numberWithin (c :: cs)
      split
      · exact ⟨Nat.zero_le _, c, rfl⟩
      · rename_i n length
        rw [length, List.length_cons] at bound
        exact ⟨Nat.le_of_succ_le_succ bound, by simp [ReadFrom]⟩

end Token

inductive Lexed (file : Nat) : Nat → List Char → List Lexeme → Prop where
  | done (start : Nat) : Lexed file start [] []
  | blank {c : Char} {cs : List Char} {start : Nat} {lexemes : List Lexeme}
      (space : Token.isSpace c = true) (later : Lexed file (start + c.utf8Size) cs lexemes) :
      Lexed file start (c :: cs) lexemes
  | next {c : Char} {cs rest : List Char} {start : Nat} {token : Token} {lexemes : List Lexeme}
      (solid : Token.isSpace c = false)
      (munched : Token.munch c (cs ++ rest) = (token, cs.length))
      (later : Lexed file (start + Text.byteLength (c :: cs)) rest lexemes) :
      Lexed file start (c :: (cs ++ rest))
        (⟨token, file, start, start + Text.byteLength (c :: cs)⟩ :: lexemes)

theorem lexedFrom (file start : Nat) (cs : List Char) :
    Lexed file start cs (lexFrom file start 0 cs) := by
  induction length : cs.length using Nat.strong_induction_on generalizing start cs with
  | h n ih =>
    cases cs with
    | nil => exact .done start
    | cons c cs =>
      rw [lexFrom]
      split
      · rename_i space
        exact .blank space (ih _ (by simp [← length]) _ _ rfl)
      · rename_i solid
        obtain ⟨within, _⟩ := Token.munchReadFrom c cs
        obtain ⟨part, rest, rfl, size⟩ : ∃ part rest, cs = part ++ rest ∧
            part.length = (Token.munch c cs).2 :=
          ⟨_, _, (List.take_append_drop _ cs).symm, List.length_take_of_le within⟩
        -- The characters inside the lexeme are skipped at once, so that what is left is shorter.
        dsimp only
        rw [lexFromInside, ← size, List.take_left, List.drop_left, Nat.add_assoc]
        exact .next (Bool.eq_false_iff.mpr solid) (Prod.ext rfl size.symm)
          (ih _ (by rw [← length, List.length_cons, List.length_append]; omega) _ _ rfl)

structure Lexeme.Stands (file start : Nat) (line : List Char) (lexeme : Lexeme)
    (a b : Nat) (part : List Char) : Prop where
  place : lexeme.span = ⟨file, start + a, start + b⟩
  slice : Text.Slice line a b part
  nonempty : part ≠ []
  spelling : lexeme.token.ReadFrom part

namespace Lexed

variable {file start : Nat} {cs : List Char} {lexemes : List Lexeme}

theorem munched (lexed : Lexed file start cs lexemes) : ∀ lexeme ∈ lexemes,
    ∃ before c part after, cs = before ++ (c :: part) ++ after ∧
      lexeme.span = ⟨file, start + Text.byteLength before,
        start + (Text.byteLength before + Text.byteLength (c :: part))⟩ ∧
      Token.isSpace c = false ∧ Token.munch c (part ++ after) = (lexeme.token, part.length) := by
  induction lexed with
  | done => exact fun _ absent => nomatch absent
  | @blank c cs start lexemes _ _ ih =>
    intro lexeme mem
    obtain ⟨before, d, part, after, rfl, place, solid, munched⟩ := ih lexeme mem
    exact ⟨c :: before, d, part, after, rfl, by simp [place, Text.byteLength, Nat.add_assoc], solid,
      munched⟩
  | @next c cs rest start token lexemes solid munched _ ih =>
    intro lexeme mem
    rcases List.mem_cons.mp mem with rfl | later
    · exact ⟨[], c, cs, rest, rfl, by simp [Text.byteLength], solid, munched⟩
    · obtain ⟨before, d, part, after, rfl, place, solid, munched⟩ := ih lexeme later
      refine ⟨c :: cs ++ before, d, part, after, by simp, ?_, solid, munched⟩
      simp [place, Text.byteLength, Text.byteLengthAppend, Nat.add_assoc]

theorem stands (lexed : Lexed file start cs lexemes) :
    ∀ lexeme ∈ lexemes, ∃ a b part, lexeme.Stands file start cs a b part := by
  intro lexeme mem
  obtain ⟨before, c, part, after, split, place, _, munched⟩ := lexed.munched lexeme mem
  have spelling := (Token.munchReadFrom c (part ++ after)).2
  rw [munched, List.take_left] at spelling
  exact ⟨_, _, c :: part, place, ⟨before, after, split, rfl, rfl⟩, List.cons_ne_nil c part, spelling⟩

theorem ordered (lexed : Lexed file start cs lexemes) :
    (∀ lexeme ∈ lexemes, start ≤ lexeme.span.start) ∧
      lexemes.Pairwise fun first second => first.span.stop ≤ second.span.start := by
  induction lexed with
  | done => exact ⟨fun _ absent => (nomatch absent), .nil⟩
  | blank _ _ ih => exact ⟨fun lexeme mem => Nat.le_of_add_right_le (ih.1 lexeme mem), ih.2⟩
  | next _ _ _ ih =>
    refine ⟨fun lexeme mem => ?_, List.pairwise_cons.mpr ⟨ih.1, ih.2⟩⟩
    rcases List.mem_cons.mp mem with rfl | later
    · exact Nat.le_refl _
    · exact Nat.le_of_add_right_le (ih.1 lexeme later)

end Lexed

end Regalloc
