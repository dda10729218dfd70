import Regalloc.Proofs.Lexing
import Regalloc.Proofs.Lines

/-! The lexemes of a line tile it. Each one is the longest match at its place, a character that no
pattern matches stands alone, and only blanks are left between them. -/
namespace Regalloc

namespace Token

inductive Match : Option Token → List Char → Prop where
  | blanks {c : Char} {cs : List Char} (all : ∀ d ∈ c :: cs, isSpace d = true) :
      Match none (c :: cs)
  | label {cs : List Char} (name : NameText cs) :
      Match (some (.label (String.ofList cs))) (cs ++ [':'])
  | name {cs : List Char} (name : NameText cs) : Match (some (.name (String.ofList cs))) cs
  | number {cs : List Char} (number : NumberText cs) : Match (some (.number (String.ofList cs))) cs
  | comment {cs : List Char} (line : '\n' ∉ cs) :
      Match (some (.comment (String.ofList (Text.trimEnd ('#' :: cs))))) ('#' :: cs)

/-- The token is what `part` is taken for where the text goes on with `after`: no pattern matches
more, and nothing at all matches where a character is unknown. -/
inductive Munched (after : List Char) : Token → List Char → Prop where
  | known {token : Token} {part : List Char} (fits : Match (some token) part)
      (longest : ∀ more other, more ≠ [] → more <+: after → ¬ Match other (part ++ more)) :
      Munched after token part
  | unknown {c : Char} (unmatched : ∀ more other, more <+: after → ¬ Match other (c :: more)) :
      Munched after .unknown [c]

variable {c : Char} {cs ds rest : List Char}

theorem spaceIff : isSpace c = true ↔ c ∈ [' ', '\t', '\r', '\x0b', '\x0c'] := by
  simp [isSpace, or_assoc]

theorem spaceSize (space : isSpace c = true) : c.utf8Size = 1 := by
  have listed := spaceIff.mp space
  simp only [List.mem_cons, List.not_mem_nil, or_false] at listed
  rcases listed with rfl | rfl | rfl | rfl | rfl <;> decide

theorem takeWhileCovers {p : Char → Bool} (inside : ds <+: cs) (all : ∀ d ∈ ds, p d = true) :
    ds.length ≤ (cs.takeWhile p).length := by
  obtain ⟨rest, rfl⟩ := inside
  simp [List.takeWhile_append_of_pos all]

theorem digitsCover (digits : Digits ds) (inside : ds <+: cs) : ds.length ≤ digitsLength cs := by
  cases digits with
  | decimal c ds all =>
    unfold digitsLength
    split
    · -- The `x` is no digit, so the zero before it is all that is matched.
      rename_i rest
      have short : ds = [] := by
        cases ds with
        | nil => rfl
        | cons d ds =>
          have digit := all d (by simp)
          have letter : d = 'x' := by simp_all
          exact absurd digit (by simp [letter])
      subst short
      split <;> simp
    · exact takeWhileCovers inside all
  | hexadecimal c ds all =>
    obtain ⟨rest, rfl⟩ := inside
    have taken := takeWhileCovers (List.prefix_append (c :: ds) rest) all
    show _ ≤ digitsLength ('0' :: 'x' :: (c :: ds ++ rest))
    simp only [digitsLength, List.length_cons] at taken ⊢
    split <;> omega

theorem numberCover (number : NumberText ds) (inside : ds <+: cs) :
    ds.length ≤ numberLength cs := by
  cases number with
  | plain digits =>
    have covered := digitsCover digits inside
    unfold numberLength
    split
    · cases ds with
      | nil => cases digits
      | cons d ds =>
        have minus : d = '-' := by simp_all
        exact absurd (digitsHead digits) (by simp [minus])
    · exact covered
  | negative digits =>
    rename_i ds
    obtain ⟨rest, rfl⟩ := inside
    have covered := digitsCover digits (List.prefix_append ds rest)
    have positive : ds.length ≠ 0 := by cases digits <;> simp
    simp only [List.cons_append, numberLength, List.length_cons]
    split <;> omega

theorem matchWithin {other : Option Token} (solid : isSpace c = false)
    (matched : Match other (c :: ds)) (inside : ds <+: cs) :
    (munch c cs).1 ≠ .unknown ∧ ds.length ≤ (munch c cs).2 := by
  generalize text : c :: ds = whole at matched
  cases matched with
  | blanks all =>
    obtain ⟨rfl, rfl⟩ := List.cons.inj text
    have space := all c List.mem_cons_self
    exact absurd (space.symm.trans solid) (by decide)
  | label name =>
    obtain ⟨d, part, start, named⟩ := name
    obtain ⟨rfl, same⟩ := List.cons.inj text
    obtain rfl : ds = part ++ [':'] := same
    obtain ⟨rest, rfl⟩ := inside
    rw [List.append_assoc, munchName start named (by simp [isNamePart, isNameStart])]
    simp
  | name name =>
    obtain ⟨d, part, start, named⟩ := name
    obtain ⟨rfl, rfl⟩ := List.cons.inj text
    have taken := takeWhileCovers inside named
    simp only [munch, start, if_true]
    split
    · exact ⟨by simp, Nat.le_succ_of_le taken⟩
    · exact ⟨by simp, taken⟩
  | number number =>
    subst text
    obtain ⟨_, _, same, plain, notHash, _⟩ := numberHead number
    obtain ⟨rfl, rfl⟩ := List.cons.inj same
    have taken := numberCover number (List.prefix_cons_inj c |>.mpr inside)
    rw [List.length_cons] at taken
    simp only [munch, plain, Bool.false_eq_true, if_false, if_neg notHash]
    split
    · omega
    · exact ⟨by simp, by dsimp only; omega⟩
  | comment line =>
    obtain ⟨rfl, rfl⟩ := List.cons.inj text
    have taken := takeWhileCovers (p := fun d => d != '\n') inside fun d mem => by
      simpa using fun same : d = '\n' => line (same ▸ mem)
    have plain : isNameStart '#' = false := by decide
    simpa [munch, plain] using taken

theorem matchOfSpelled {token : Token} (spelled : token.Spelled) (read : token.ReadFrom cs)
    (line : '\n' ∉ cs) : Match (some token) cs := by
  cases token with
  | label text =>
    obtain rfl : cs = text.toList ++ [':'] := read
    simpa using Match.label spelled
  | name text =>
    obtain rfl : cs = text.toList := read
    simpa using Match.name spelled
  | number text =>
    obtain rfl : cs = text.toList := read
    simpa using Match.number spelled
  | comment text =>
    have trimmed : Text.trimEnd cs = text.toList := read
    have spelled : CommentText text.toList := spelled
    obtain ⟨tail, split, _⟩ := Text.dropEndWhileAppend Text.isBlank cs
    generalize kept : text.toList = chars at spelled trimmed
    obtain ⟨chars, _, _⟩ := spelled
    obtain rfl : cs = '#' :: (chars ++ tail) := by
      rw [split, ← List.cons_append]
      exact congrArg (· ++ tail) trimmed
    have whole := Match.comment fun mem => line (List.mem_cons_of_mem _ mem)
    rwa [trimmed, ← kept, String.ofList_toList] at whole
  | unknown => exact spelled.elim

theorem munched {token : Token} (solid : isSpace c = false) (line : '\n' ∉ c :: cs)
    (taken : munch c (cs ++ rest) = (token, cs.length)) : Munched rest token (c :: cs) := by
  have within : ∀ more other, more <+: rest → Match other (c :: (cs ++ more)) →
      token ≠ .unknown ∧ more = [] := by
    intro more other inside matched
    obtain ⟨known, short⟩ :=
      matchWithin solid matched ((List.prefix_append_right_inj cs).mpr inside)
    rw [taken, List.length_append] at short
    rw [taken] at known
    exact ⟨known, List.length_eq_zero_iff.mp (by dsimp only at short; omega)⟩
  have read := (munchReadFrom c (cs ++ rest)).2
  have spelled := munchSpelled c (cs ++ rest)
  rw [taken] at read spelled
  rw [List.take_left] at read
  rcases spelled with same | spelled
  · obtain rfl : token = .unknown := same
    obtain ⟨_, single⟩ := read
    obtain ⟨rfl, rfl⟩ := List.cons.inj single
    exact .unknown fun more other inside matched => (within more other inside matched).1 rfl
  · exact .known (matchOfSpelled spelled read line) fun more other nonempty inside matched =>
      nonempty (within more other inside matched).2

theorem commentLength {text : String} {n : Nat} (line : '\n' ∉ cs)
    (taken : munch c cs = (.comment text, n)) : n = cs.length := by
  have all : cs.takeWhile (fun d => d != '\n') = cs :=
    List.takeWhile_eq_self_iff.mpr fun d mem => by
      simpa using fun same : d = '\n' => line (same ▸ mem)
  have hash : c = '#' := Decidable.byContradiction fun plain =>
    munchComment plain cs text (congrArg Prod.fst taken)
  subst hash
  have plain : isNameStart '#' = false := by decide
  simp only [munch, plain, all, Bool.false_eq_true, if_false, if_true, Prod.mk.injEq] at taken
  exact taken.2.symm

end Token

namespace Lexed

variable {file start : Nat} {cs : List Char} {lexemes : List Lexeme}

theorem covered (lexed : Lexed file start cs lexemes) : ∀ k < Text.byteLength cs,
    (∃ lexeme ∈ lexemes, lexeme.span.start ≤ start + k ∧ start + k < lexeme.span.stop) ∨
      ∃ before c after, cs = before ++ c :: after ∧ Text.byteLength before = k ∧
        Token.isSpace c = true := by
  induction lexed with
  | done => exact fun k below => absurd below (Nat.not_lt_zero k)
  | @blank c cs start lexemes space _ ih =>
    intro k below
    have size := Token.spaceSize space
    cases k with
    | zero => exact .inr ⟨[], c, cs, rfl, rfl, space⟩
    | succ k =>
      rw [Text.byteLength, size] at below
      rcases ih k (by omega) with ⟨lexeme, mem, low, high⟩ | ⟨before, d, after, rfl, rfl, blank⟩
      · exact .inl ⟨lexeme, mem, by omega, by omega⟩
      · exact .inr ⟨c :: before, d, after, rfl, by rw [Text.byteLength, size, Nat.add_comm], blank⟩
  | @next c cs rest start token lexemes _ _ _ ih =>
    intro k below
    by_cases head : k < Text.byteLength (c :: cs)
    · exact .inl ⟨_, List.mem_cons_self, Nat.le_add_right _ _, Nat.add_lt_add_left head start⟩
    · obtain ⟨j, rfl⟩ := Nat.exists_eq_add_of_le (Nat.le_of_not_lt head)
      rw [← List.cons_append, Text.byteLengthAppend] at below
      rcases ih j (by omega) with ⟨lexeme, mem, low, high⟩ | ⟨before, d, after, rfl, rfl, blank⟩
      · exact .inl ⟨lexeme, List.mem_cons_of_mem _ mem, by omega, by omega⟩
      · refine .inr ⟨c :: cs ++ before, d, after, ?_, Text.byteLengthAppend _ _, blank⟩
        simp

theorem commentLast (lexed : Lexed file start cs lexemes) (line : '\n' ∉ cs) :
    ∀ front comment rest text, lexemes = front ++ comment :: rest →
      comment.token = .comment text →
        rest = [] ∧ comment.span.stop = start + Text.byteLength cs := by
  induction lexed with
  | done => exact fun front _ _ _ split => absurd split (by simp)
  | @blank c cs start lexemes space _ ih =>
    intro front comment rest text split same
    obtain ⟨none, stop⟩ := ih (fun mem => line (List.mem_cons_of_mem _ mem)) front comment rest text
      split same
    exact ⟨none, by rw [stop, Text.byteLength, Nat.add_assoc]⟩
  | @next c cs after start token lexemes _ taken later ih =>
    intro front comment rest text split same
    cases front with
    | nil =>
      obtain ⟨rfl, rfl⟩ := List.cons.inj split
      obtain rfl : token = .comment text := same
      have length := Token.commentLength (fun mem => line (List.mem_cons_of_mem _ mem)) taken
      obtain rfl : after = [] := List.length_eq_zero_iff.mp (by simpa using length)
      cases later
      exact ⟨rfl, by simp⟩
    | cons first front =>
      obtain ⟨_, split⟩ := List.cons.inj split
      have rest' : '\n' ∉ after := fun mem =>
        line (List.mem_cons_of_mem _ (List.mem_append_right _ mem))
      obtain ⟨none, stop⟩ := ih rest' front comment rest text split same
      refine ⟨none, ?_⟩
      rw [stop, ← List.cons_append, Text.byteLengthAppend, Nat.add_assoc]

end Lexed

namespace Token

theorem lexemesTile (line : List Char) (offset file : Nat) (oneLine : '\n' ∉ line) :
    let lexemes := lex line offset file
    (∀ lexeme ∈ lexemes, offset ≤ lexeme.span.start ∧ lexeme.span.start < lexeme.span.stop ∧
      lexeme.span.stop ≤ offset + Text.byteLength line) ∧
    lexemes.Pairwise (fun first second => first.span.stop ≤ second.span.start) ∧
    (∀ lexeme ∈ lexemes, ∃ before part after, line = before ++ part ++ after ∧
      lexeme.span = ⟨file, offset + Text.byteLength before,
        offset + (Text.byteLength before + Text.byteLength part)⟩ ∧
      lexeme.token.ReadFrom part ∧ lexeme.token.Munched after part) ∧
    (∀ k < Text.byteLength line,
      (∃ lexeme ∈ lexemes, lexeme.span.start ≤ offset + k ∧ offset + k < lexeme.span.stop) ∨
        ∃ before c after, line = before ++ c :: after ∧ Text.byteLength before = k ∧
          c ∈ [' ', '\t', '\r', '\x0b', '\x0c']) ∧
    ∀ front comment rest text, lexemes = front ++ comment :: rest →
      comment.token = .comment text →
        rest = [] ∧ comment.span.stop = offset + Text.byteLength line := by
  intro lexemes
  have lexed : Lexed file offset line lexemes := lexedFrom file offset line
  refine ⟨fun lexeme mem => ?_, lexed.ordered.2, fun lexeme mem => ?_, fun k below => ?_,
    lexed.commentLast oneLine⟩
  · obtain ⟨a, b, part, stands⟩ := lexed.stands lexeme mem
    have wide := stands.slice.nonempty.mp stands.nonempty
    have inside := stands.slice.stopLe
    rw [stands.place]
    dsimp only
    omega
  · obtain ⟨before, c, part, after, split, place, solid, taken⟩ := lexed.munched lexeme mem
    have read := (munchReadFrom c (part ++ after)).2
    rw [taken, List.take_left] at read
    have inline : '\n' ∉ c :: part := fun feed => oneLine (by rw [split]; simp_all)
    exact ⟨before, c :: part, after, split, place, read, munched solid inline taken⟩
  · simpa only [spaceIff] using lexed.covered k below

theorem brokenHexTiled :
    let line := "l:\tx,-0xg #é ".toList
    '\n' ∉ line ∧
    lex line 10 3 = [⟨.label "l", 3, 10, 12⟩, ⟨.name "x", 3, 13, 14⟩, ⟨.unknown, 3, 14, 15⟩,
      ⟨.number "-0", 3, 15, 17⟩, ⟨.name "xg", 3, 17, 19⟩, ⟨.comment "#é", 3, 20, 24⟩] ∧
    (∃ before after, line = before ++ "-0".toList ++ after ∧
      Munched after (.number "-0") "-0".toList) ∧
    24 = 10 + Text.byteLength line := by
  intro line
  have oneLine : '\n' ∉ line := by decide +kernel
  have read : lex line 10 3 = [⟨.label "l", 3, 10, 12⟩, ⟨.name "x", 3, 13, 14⟩,
      ⟨.unknown, 3, 14, 15⟩, ⟨.number "-0", 3, 15, 17⟩, ⟨.name "xg", 3, 17, 19⟩,
      ⟨.comment "#é", 3, 20, 24⟩] := by decide +kernel
  obtain ⟨_, _, places, _, last⟩ := lexemesTile line 10 3 oneLine
  rw [read] at places last
  obtain ⟨before, part, after, split, _, spelled, munched⟩ :=
    places ⟨.number "-0", 3, 15, 17⟩ (by simp)
  obtain rfl : part = "-0".toList := spelled
  exact ⟨oneLine, read, ⟨before, after, split, munched⟩, (last [_, _, _, _, _] _ [] _ rfl rfl).2⟩

end Token

end Regalloc
