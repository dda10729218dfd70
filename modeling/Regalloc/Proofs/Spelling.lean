import Mathlib.Data.List.TakeWhile
import Regalloc.Token

/-! How tokens are spelled. Every token but an unknown one is read from a spelling of its kind, and
a spelling of its kind is read as that token wherever a space or the end of the text follows. -/
namespace Regalloc

namespace Text

theorem takeWhileStop {p : Char → Bool} {body rest : List Char}
    (inside : ∀ c ∈ body, p c = true) (stop : ∀ c ∈ rest.head?, p c = false) :
    (body ++ rest).takeWhile p = body := by
  rw [List.takeWhile_append_of_pos inside]
  cases rest with
  | nil => simp
  | cons c rest => simp [stop c rfl]

theorem dropEndWhileCons (p : Char → Bool) (c : Char) (cs : List Char) :
    dropEndWhile p (c :: cs) =
      if (dropEndWhile p cs).isEmpty && p c then [] else c :: dropEndWhile p cs := rfl

theorem dropEndWhileAll {p : Char → Bool} {tail : List Char} (all : ∀ c ∈ tail, p c = true) :
    dropEndWhile p tail = [] := by
  induction tail with
  | nil => rfl
  | cons c tail ih =>
    have rest := ih fun d mem => all d (List.mem_cons_of_mem _ mem)
    rw [dropEndWhileCons, rest]
    simp [all c List.mem_cons_self]

theorem dropEndWhileTail {p : Char → Bool} {cs tail : List Char}
    (all : ∀ c ∈ tail, p c = true) : dropEndWhile p (cs ++ tail) = dropEndWhile p cs := by
  induction cs with
  | nil => exact dropEndWhileAll all
  | cons c cs ih => rw [List.cons_append, dropEndWhileCons, dropEndWhileCons, ih]

theorem dropEndWhileKeep {p : Char → Bool} {cs : List Char} {c : Char} (keep : p c = false) :
    dropEndWhile p (cs ++ [c]) = cs ++ [c] := by
  induction cs with
  | nil => simp [dropEndWhile, keep]
  | cons d cs ih => simp [dropEndWhileCons, ih]

theorem dropEndWhileLast {p : Char → Bool} {cs : List Char} {c : Char}
    (last : c ∈ (dropEndWhile p cs).getLast?) : p c = false := by
  induction cs with
  | nil => simp [dropEndWhile] at last
  | cons d cs ih =>
    rw [dropEndWhileCons] at last
    split at last
    · simp at last
    · rename_i keep
      cases rest : dropEndWhile p cs with
      | nil =>
        have same : d = c := by simpa [rest] using last
        simpa [rest, same] using keep
      | cons e es =>
        rw [rest, List.getLast?_cons_cons] at last
        exact ih (rest ▸ last)

theorem dropEndWhileIdem (p : Char → Bool) (cs : List Char) :
    dropEndWhile p (dropEndWhile p cs) = dropEndWhile p cs := by
  rcases List.eq_nil_or_concat (dropEndWhile p cs) with empty | ⟨front, c, split⟩
  · rw [empty]
    rfl
  · rw [split, List.concat_eq_append]
    refine dropEndWhileKeep (@dropEndWhileLast _ cs _ ?_)
    rw [split]
    simp

theorem dropEndWhileMem {p : Char → Bool} {cs : List Char} {c : Char}
    (mem : c ∈ dropEndWhile p cs) : c ∈ cs := by
  obtain ⟨tail, split, _⟩ := dropEndWhileAppend p cs
  rw [split]
  exact List.mem_append_left tail mem

end Text

namespace Token

inductive NameText : List Char → Prop where
  | mk (c : Char) (part : List Char) (start : isNameStart c = true)
      (rest : ∀ d ∈ part, isNamePart d = true) : NameText (c :: part)

theorem nameText {cs : List Char}
    (name : (cs.head?.any isNameStart && cs.tail.all isNamePart) = true) : NameText cs := by
  obtain ⟨start, rest⟩ := Bool.and_eq_true_iff.mp name
  cases cs with
  | nil => contradiction
  | cons c cs => exact .mk c cs start (List.all_eq_true.mp rest)

inductive Digits : List Char → Prop where
  | decimal (c : Char) (cs : List Char) (all : ∀ d ∈ c :: cs, d.isDigit = true) : Digits (c :: cs)
  | hexadecimal (c : Char) (cs : List Char) (all : ∀ d ∈ c :: cs, isHexDigit d = true) :
      Digits ('0' :: 'x' :: c :: cs)

inductive NumberText : List Char → Prop where
  | plain {cs : List Char} (digits : Digits cs) : NumberText cs
  | negative {cs : List Char} (digits : Digits cs) : NumberText ('-' :: cs)

inductive CommentText : List Char → Prop where
  | mk (cs : List Char) (line : '\n' ∉ cs) (trimmed : Text.trimEnd ('#' :: cs) = '#' :: cs) :
      CommentText ('#' :: cs)

def Spelled : Token → Prop
  | label text => NameText text.toList
  | name text => NameText text.toList
  | number text => NumberText text.toList
  | comment text => CommentText text.toList
  | unknown => False

def spelling : Token → List Char
  | label text => text.toList ++ [':']
  | name text => text.toList
  | number text => text.toList
  | comment text => text.toList
  | unknown => []

def Stop (rest : List Char) : Prop := ∀ c ∈ rest.head?, c = ' '

theorem stopBy {rest : List Char} (stop : Stop rest) {p : Char → Bool} (space : p ' ' = false) :
    ∀ c ∈ rest.head?, p c = false := fun c head => stop c head ▸ space

theorem digitsLengthDecimal {c : Char} {cs : List Char}
    (notHex : ∀ rest, c = '0' → cs = 'x' :: rest → False) :
    digitsLength (c :: cs) = ((c :: cs).takeWhile Char.isDigit).length := by
  unfold digitsLength
  split
  · rename_i rest same
    obtain ⟨zero, tail⟩ := List.cons.inj same
    exact absurd (notHex rest zero tail) id
  · rfl

theorem digitsLengthSpelled {cs rest : List Char} (digits : Digits cs) (stop : Stop rest) :
    digitsLength (cs ++ rest) = cs.length := by
  cases digits with
  | decimal c cs all =>
    have notHex : ∀ tail, c = '0' → cs ++ rest = 'x' :: tail → False := by
      intro tail _ same
      cases cs with
      | nil =>
        have head := stop 'x' (by simp only [List.nil_append] at same; simp [same])
        exact absurd head (by decide)
      | cons d cs =>
        have digit := all d (by simp)
        rw [(List.cons.inj same).1] at digit
        exact absurd digit (by decide)
    rw [List.cons_append, digitsLengthDecimal notHex, ← List.cons_append,
      Text.takeWhileStop all (stopBy stop (by decide))]
  | hexadecimal c cs all =>
    have taken : ((c :: cs ++ rest).takeWhile isHexDigit).length = cs.length + 1 := by
      rw [Text.takeWhileStop all (stopBy stop (by decide)), List.length_cons]
    show digitsLength ('0' :: 'x' :: (c :: cs ++ rest)) = cs.length + 3
    simp only [digitsLength, taken]

theorem digitsHead {c : Char} {cs : List Char} (digits : Digits (c :: cs)) : c.isDigit = true := by
  cases digits with
  | decimal _ _ all => exact all c List.mem_cons_self
  | hexadecimal => decide

theorem notSpace {p : Char → Bool} {c : Char} (holds : p c = true)
    (none : [' ', '\t', '\r', '\x0b', '\x0c'].any p = false) : isSpace c = false := by
  refine Bool.eq_false_iff.mpr fun space => ?_
  have member : c ∈ [' ', '\t', '\r', '\x0b', '\x0c'] := by simpa [isSpace, or_assoc] using space
  exact List.any_eq_false.mp none c member holds

theorem nameStartCode {c : Char} (start : isNameStart c = true) :
    c.toNat = 36 ∨ c.toNat = 46 ∨ 65 ≤ c.toNat ∧ c.toNat ≤ 122 := by
  have classes : ((((c.isUpper || c.isLower) || c == '_') || c == '.') || c == '$') = true := start
  simp only [Bool.or_eq_true, beq_iff_eq] at classes
  rcases classes with (((upper | lower) | rfl) | rfl) | rfl
  · have bounds : 'A'.val ≤ c.val ∧ c.val ≤ 'Z'.val := of_decide_eq_true upper
    exact .inr (.inr ⟨bounds.1, Nat.le_trans bounds.2 (by decide)⟩)
  · have bounds : (decide ('a'.val ≤ c.val) && decide (c.val ≤ 'z'.val)) = true := lower
    rw [Bool.and_eq_true, decide_eq_true_eq, decide_eq_true_eq] at bounds
    exact .inr (.inr ⟨Nat.le_trans (by decide) bounds.1, bounds.2⟩)
  · exact .inr (.inr (by decide))
  · exact .inr (.inl (by decide))
  · exact .inl (by decide)

theorem digitPlain {c : Char} (digit : c.isDigit = true) : isNameStart c = false ∧ c ≠ '#' := by
  have low : 48 ≤ c.toNat ∧ c.toNat ≤ 57 := by
    simpa [Char.isDigit_iff_toNat] using Char.isDigit_iff_toNat.mp digit
  refine ⟨Bool.eq_false_iff.mpr fun start => ?_, ?_⟩
  · have code := nameStartCode start
    omega
  · rintro rfl
    exact absurd digit (by decide)

theorem numberHead {cs : List Char} (number : NumberText cs) :
    ∃ c rest, cs = c :: rest ∧ isNameStart c = false ∧ c ≠ '#' ∧ isSpace c = false := by
  cases number with
  | negative digits => exact ⟨'-', _, rfl, by decide, by decide, by decide⟩
  | plain digits =>
    cases cs with
    | nil => cases digits
    | cons c cs =>
      have digit := digitsHead digits
      obtain ⟨plain, notHash⟩ := digitPlain digit
      exact ⟨c, cs, rfl, plain, notHash, notSpace digit (by decide)⟩

theorem numberLengthPlain {c : Char} {cs : List Char} (notMinus : c ≠ '-') :
    numberLength (c :: cs) = digitsLength (c :: cs) := by
  unfold numberLength
  split
  · rename_i same
    exact absurd (List.cons.inj same).1 notMinus
  · rfl

theorem numberLengthSpelled {cs rest : List Char} (number : NumberText cs) (stop : Stop rest) :
    numberLength (cs ++ rest) = cs.length := by
  cases number with
  | plain digits =>
    have length := digitsLengthSpelled digits stop
    cases cs with
    | nil => cases digits
    | cons c cs =>
      have minus : c ≠ '-' := by
        rintro rfl
        exact absurd (digitsHead digits) (by decide)
      rw [List.cons_append, numberLengthPlain minus, ← List.cons_append, length]
  | negative digits =>
    rename_i cs
    have length := digitsLengthSpelled digits stop
    have positive : cs.length ≠ 0 := by cases digits <;> simp
    show numberLength ('-' :: (cs ++ rest)) = cs.length + 1
    simp only [numberLength, length]
    split <;> omega

theorem takeLength {p : Char → Bool} {cs : List Char} {n : Nat}
    (length : (cs.takeWhile p).length = n) : ∀ d ∈ cs.take n, p d = true := by
  intro d mem
  rw [← length, ← List.prefix_iff_eq_take.mp (List.takeWhile_prefix p)] at mem
  exact List.mem_takeWhile_imp mem

theorem digitsTake {cs : List Char} {n : Nat} (length : digitsLength cs = n + 1) :
    Digits (cs.take (n + 1)) := by
  have nonempty : ∀ {p : Char → Bool} {ds : List Char} {m : Nat},
      (ds.takeWhile p).length = m + 1 → ∃ d tail, ds.take (m + 1) = d :: tail := by
    intro p ds m taken
    cases ds with
    | nil => simp at taken
    | cons d ds => exact ⟨d, ds.take m, rfl⟩
  unfold digitsLength at length
  split at length
  · rename_i rest
    split at length
    · cases Nat.succ.inj length
      exact .decimal '0' [] (List.all_eq_true.mp rfl)
    · rename_i m taken
      have same : n = m + 2 := by omega
      subst same
      have all := takeLength taken
      obtain ⟨d, tail, split⟩ := nonempty taken
      rw [split] at all
      show Digits ('0' :: 'x' :: rest.take (m + 1))
      rw [split]
      exact .hexadecimal d tail all
  · have all := takeLength length
    obtain ⟨d, tail, split⟩ := nonempty length
    rw [split] at all ⊢
    exact .decimal d tail all

theorem numberTake {cs : List Char} {n : Nat} (length : numberLength cs = n + 1) :
    NumberText (cs.take (n + 1)) := by
  unfold numberLength at length
  split at length
  · rename_i rest
    split at length
    · contradiction
    · rename_i m digits
      cases Nat.succ.inj length
      exact .negative (digitsTake digits)
  · exact .plain (digitsTake length)

theorem trimEndHash (cs : List Char) :
    ∃ kept, Text.trimEnd ('#' :: cs) = '#' :: kept ∧ ∀ c ∈ kept, c ∈ cs := by
  refine ⟨Text.dropEndWhile Text.isBlank cs, ?_, fun c => Text.dropEndWhileMem⟩
  have hash : Text.isBlank '#' = false := by decide
  rw [Text.trimEnd, Text.dropEndWhileCons, hash, Bool.and_false, if_neg (by decide)]

theorem munchSpelled (c : Char) (cs : List Char) :
    (munch c cs).1 = .unknown ∨ (munch c cs).1.Spelled := by
  unfold munch
  split
  · rename_i start
    have name : NameText (c :: cs.takeWhile isNamePart) :=
      .mk c _ start fun d mem => List.mem_takeWhile_imp mem
    dsimp only
    split
    · exact .inr (by simpa [Spelled] using name)
    · exact .inr (by simpa [Spelled] using name)
  · split
    · rename_i hash
      subst hash
      refine .inr ?_
      obtain ⟨kept, split, inside⟩ := trimEndHash (cs.takeWhile fun d => d != '\n')
      have trimmed : Text.trimEnd ('#' :: kept) = '#' :: kept := by
        rw [← split]
        exact Text.dropEndWhileIdem _ _
      have line : '\n' ∉ kept := fun mem =>
        absurd (List.mem_takeWhile_imp (inside '\n' mem)) (by decide)
      simpa [Spelled, split] using CommentText.mk kept line trimmed
    · split
      · exact .inl rfl
      · rename_i n length
        have number := numberTake length
        exact .inr (by simpa [Spelled] using number)

theorem munchName {c : Char} {part tail : List Char} (start : isNameStart c = true)
    (inside : ∀ d ∈ part, isNamePart d = true) (stop : ∀ d ∈ tail.head?, isNamePart d = false) :
    munch c (part ++ tail) =
      if tail.head? = some ':' then (.label (String.ofList (c :: part)), part.length + 1)
      else (.name (String.ofList (c :: part)), part.length) := by
  have taken := Text.takeWhileStop inside stop
  have after : (part ++ tail)[part.length]? = tail.head? := by
    rw [List.getElem?_append_right (Nat.le_refl _), Nat.sub_self, List.head?_eq_getElem?]
  simp only [munch, start, taken, after, if_true]

theorem munchSpelling {token : Token} (spelled : token.Spelled) {rest : List Char}
    (stop : Stop rest) (last : ∀ text, token = .comment text → rest = []) :
    ∃ c cs, token.spelling = c :: cs ∧ isSpace c = false ∧
      munch c (cs ++ rest) = (token, cs.length) := by
  cases token with
  | label text =>
    obtain ⟨chars, rfl⟩ : ∃ chars, text = String.ofList chars := ⟨_, String.ofList_toList.symm⟩
    simp only [Spelled, String.toList_ofList] at spelled
    obtain ⟨c, part, start, inside⟩ := spelled
    refine ⟨c, part ++ [':'], by simp [spelling], notSpace start (by decide), ?_⟩
    rw [List.append_assoc, munchName start inside fun d head => ?_]
    · simp
    · cases Option.some.inj head
      decide
  | name text =>
    obtain ⟨chars, rfl⟩ : ∃ chars, text = String.ofList chars := ⟨_, String.ofList_toList.symm⟩
    simp only [Spelled, String.toList_ofList] at spelled
    obtain ⟨c, part, start, inside⟩ := spelled
    refine ⟨c, part, by simp [spelling], notSpace start (by decide), ?_⟩
    rw [munchName start inside (stopBy stop (by decide)), if_neg]
    exact fun colon => absurd (stop ':' colon) (by decide)
  | number text =>
    obtain ⟨chars, rfl⟩ : ∃ chars, text = String.ofList chars := ⟨_, String.ofList_toList.symm⟩
    simp only [Spelled, String.toList_ofList] at spelled
    have length := numberLengthSpelled spelled stop
    obtain ⟨c, cs, rfl, plain, notHash, notSpaced⟩ := numberHead spelled
    refine ⟨c, cs, by simp [spelling], notSpaced, ?_⟩
    rw [List.cons_append, List.length_cons] at length
    simp only [munch, plain, notHash, length, List.take_left]
    rfl
  | comment text =>
    obtain ⟨chars, rfl⟩ : ∃ chars, text = String.ofList chars := ⟨_, String.ofList_toList.symm⟩
    simp only [Spelled, String.toList_ofList] at spelled
    obtain ⟨cs, line, trimmed⟩ := spelled
    have none := last _ rfl
    subst none
    have taken : cs.takeWhile (fun d => d != '\n') = cs := by
      have all := @Text.takeWhileStop (fun d => d != '\n') cs []
        (fun d mem => by simpa using fun same : d = '\n' => line (same ▸ mem)) (by simp)
      rwa [List.append_nil] at all
    refine ⟨'#', cs, by simp [spelling], by decide, ?_⟩
    have start : isNameStart '#' = false := by decide
    simp only [munch, List.append_nil, taken, trimmed, start]
    rfl
  | unknown => exact spelled.elim

end Token

theorem lexFromSpelling {token : Token} (spelled : token.Spelled) {rest : List Char}
    (stop : Token.Stop rest) (last : ∀ text, token = .comment text → rest = [])
    (file start : Nat) :
    ∃ span next, lexFrom file start 0 (token.spelling ++ rest) =
      ⟨token, span⟩ :: lexFrom file next 0 rest := by
  obtain ⟨c, cs, split, notSpaced, read⟩ := Token.munchSpelling spelled stop last
  rw [split, List.cons_append, lexFrom, notSpaced, if_neg Bool.false_ne_true, read]
  dsimp only
  rw [lexFromInside, List.drop_left]
  exact ⟨_, _, rfl⟩

end Regalloc
