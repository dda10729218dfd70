import Regalloc.Expansion
import Regalloc.Proofs.Reading

/-! Whole texts, line by line. A text that parses has readable lines only, and readable lines that
are written one below the other parse to just these lines. -/
namespace Regalloc

namespace Token

theorem munchComment {c : Char} (plain : c ≠ '#') (cs : List Char) (text : String) :
    (munch c cs).1 ≠ .comment text := by
  intro same
  unfold munch at same
  split at same
  · dsimp only at same
    split at same <;> contradiction
  · split at same <;> contradiction

theorem spaceBlank {c : Char} (space : isSpace c = true) : Text.isBlank c = true := by
  simp only [isSpace, Bool.or_eq_true, beq_iff_eq] at space
  rcases space with (((rfl | rfl) | rfl) | rfl) | rfl <;> decide

theorem nameStartPlain {c : Char} (start : isNameStart c = true) :
    Text.isBlank c = false ∧ c ≠ '#' := by
  refine ⟨?_, fun same => absurd start (by rw [same]; decide)⟩
  have code := nameStartCode start
  simp only [Text.isBlank, Bool.or_eq_false_iff, Bool.and_eq_false_iff, beq_eq_false_iff_ne,
    decide_eq_false_iff_not, ne_eq]
  omega

end Token

theorem lexFromSpelled (file : Nat) (cs : List Char) (start inside : Nat) :
    ∀ lexeme ∈ lexFrom file start inside cs,
      lexeme.token = .unknown ∨ lexeme.token.Spelled := by
  induction cs generalizing start inside with
  | nil => cases inside <;> exact fun _ absent => nomatch absent
  | cons c cs ih =>
    cases inside with
    | succ inside => exact ih _ _
    | zero =>
      rw [lexFrom]
      split
      · exact ih _ _
      · intro lexeme mem
        rcases List.mem_cons.mp mem with rfl | later
        · exact Token.munchSpelled c cs
        · exact ih _ _ lexeme later

theorem lexFromHead (file : Nat) (cs : List Char) (start : Nat)
    (code : ∃ c ∈ (cs.dropWhile Text.isBlank).head?, c ≠ '#') :
    ∃ lexeme lexemes, lexFrom file start 0 cs = lexeme :: lexemes ∧
      ∀ text, lexeme.token ≠ .comment text := by
  induction cs generalizing start with
  | nil =>
    obtain ⟨c, head, _⟩ := code
    contradiction
  | cons c cs ih =>
    rw [lexFrom]
    split
    · rename_i space
      rw [List.dropWhile_cons, if_pos (Token.spaceBlank space)] at code
      exact ih _ code
    · refine ⟨_, _, rfl, Token.munchComment (fun same => ?_) cs⟩
      subst same
      obtain ⟨d, head, plain⟩ := code
      cases Option.some.inj head
      exact plain rfl

namespace Text

structure OneLine (cs : List Char) : Prop where
  line : '\n' ∉ cs
  kept : ∀ c ∈ cs.getLast?, c ≠ '\r'

theorem chompLine {cs : List Char} (one : OneLine cs) : chomp (cs ++ ['\n']) = cs := by
  rw [chomp, dropEndWhileTail (List.all_eq_true.mp rfl)]
  rcases List.eq_nil_or_concat cs with rfl | ⟨front, c, rfl⟩
  · rfl
  · rw [List.concat_eq_append] at one ⊢
    have notFeed : c ≠ '\n' := fun same => one.line (by simp [same])
    have notReturn : c ≠ '\r' := one.kept c (by simp)
    exact dropEndWhileKeep (by simp [notFeed, notReturn])

theorem piecesFeed (cs : List Char) : pieces ('\n' :: cs) = ['\n'] :: pieces cs := rfl

theorem piecesPlain {c : Char} (plain : c ≠ '\n') (cs : List Char) :
    (pieces cs = [] ∧ pieces (c :: cs) = [[c]]) ∨
      ∃ piece rest, pieces cs = piece :: rest ∧ pieces (c :: cs) = (c :: piece) :: rest := by
  cases found : pieces cs with
  | nil =>
    refine .inl ⟨rfl, ?_⟩
    unfold pieces at found ⊢
    simp only [List.foldr_cons, if_neg plain, found]
  | cons piece rest =>
    refine .inr ⟨piece, rest, rfl, ?_⟩
    unfold pieces at found ⊢
    simp only [List.foldr_cons, if_neg plain, found]

theorem piecesLine {cs : List Char} (line : '\n' ∉ cs) (rest : List Char) :
    pieces (cs ++ '\n' :: rest) = (cs ++ ['\n']) :: pieces rest := by
  induction cs with
  | nil => exact piecesFeed rest
  | cons c cs ih =>
    have tail := ih fun mem => line (List.mem_cons_of_mem _ mem)
    have plain : c ≠ '\n' := fun same => line (same ▸ List.mem_cons_self)
    rw [List.cons_append]
    rcases piecesPlain plain (cs ++ '\n' :: rest) with ⟨none, _⟩ | ⟨piece, others, found, whole⟩
    · exact absurd (tail.symm.trans none) (List.cons_ne_nil _ _)
    · obtain ⟨rfl, rfl⟩ := List.cons.inj (tail.symm.trans found)
      exact whole

theorem piecesInside (cs : List Char) :
    ∀ piece ∈ pieces cs, ∃ body, '\n' ∉ body ∧ (piece = body ∨ piece = body ++ ['\n']) := by
  induction cs with
  | nil => exact fun _ absent => nomatch absent
  | cons c cs ih =>
    intro piece mem
    by_cases feed : c = '\n'
    · rw [feed, piecesFeed] at mem
      rcases List.mem_cons.mp mem with rfl | later
      · exact ⟨[], List.not_mem_nil, .inr rfl⟩
      · exact ih piece later
    · have fresh : '\n' ∉ [c] := fun same => feed (List.mem_singleton.mp same).symm
      rcases piecesPlain feed cs with ⟨_, whole⟩ | ⟨first, rest, found, whole⟩
      · rw [whole] at mem
        exact ⟨[c], fresh, .inl (List.mem_singleton.mp mem)⟩
      · rw [whole] at mem
        rw [found] at ih
        rcases List.mem_cons.mp mem with rfl | later
        · obtain ⟨body, inside, shape⟩ := ih first List.mem_cons_self
          refine ⟨c :: body, List.not_mem_cons_of_ne_of_not_mem (Ne.symm feed) inside, ?_⟩
          rcases shape with rfl | rfl
          · exact .inl rfl
          · exact .inr rfl
        · exact ih piece (List.mem_cons_of_mem _ later)

theorem chompOneLine {cs piece : List Char} (mem : piece ∈ pieces cs) : OneLine (chomp piece) := by
  obtain ⟨body, inside, shape⟩ := piecesInside cs piece mem
  have chomped : chomp piece = dropEndWhile (fun c => c == '\n' || c == '\r') body := by
    rcases shape with rfl | rfl
    · rfl
    · exact dropEndWhileTail (List.all_eq_true.mp rfl)
  refine ⟨fun feed => ?_, fun c last same => ?_⟩
  · rw [chomped] at feed
    exact inside (dropEndWhileMem feed)
  · have plain := dropEndWhileLast last
    rw [same] at plain
    contradiction

def Inline (cs : List Char) : Prop := ∀ c ∈ cs, c ≠ '\n' ∧ c ≠ '\r'

theorem inlineOf {cs : List Char} (plain : cs.all (fun c => c != '\n' && c != '\r') = true) :
    Inline cs := by
  intro c mem
  simpa using List.all_eq_true.mp plain c mem

theorem inlineOneLine {cs : List Char} (inline : Inline cs) : OneLine cs :=
  ⟨fun feed => (inline _ feed).1 rfl, fun c last => (inline c (List.mem_of_getLast? last)).2⟩

theorem inlineAppend {cs ds : List Char} (left : Inline cs) (right : Inline ds) :
    Inline (cs ++ ds) :=
  fun c mem => (List.mem_append.mp mem).elim (left c) (right c)

theorem oneLineSpaced {cs ds : List Char} (left : OneLine cs) (right : OneLine ds)
    (nonempty : ds ≠ []) : OneLine (cs ++ ' ' :: ds) := by
  refine ⟨fun feed => ?_, fun c last => ?_⟩
  · rcases List.mem_append.mp feed with before | after
    · exact left.line before
    · exact right.line ((List.mem_cons.mp after).resolve_left (by decide))
  · refine right.kept c ?_
    rwa [List.getLast?_append_of_ne_nil _ (List.cons_ne_nil _ _),
      List.getLast?_cons_of_ne_nil nonempty] at last

def Verbatim (cs : List Char) : Prop := ∀ c ∈ (cs.dropWhile isBlank).head?, c = '#'

theorem trimHead (cs : List Char) : (trim cs).head? = (cs.dropWhile isBlank).head? := by
  unfold trim trimEnd
  cases rest : cs.dropWhile isBlank with
  | nil => rfl
  | cons c tail =>
    have keep : isBlank c = false := by
      have first := List.head_dropWhile_not isBlank
        (show cs.dropWhile isBlank ≠ [] by simp [rest])
      simpa [rest] using first
    rw [dropEndWhileCons, keep, Bool.and_false, if_neg Bool.false_ne_true]
    rfl

theorem verbatimIff {cs : List Char} :
    ((trim cs).isEmpty || (trim cs).head? == some '#') = true ↔ Verbatim cs := by
  unfold Verbatim
  rw [← trimHead]
  cases trim cs <;> simp

end Text

namespace Token

theorem nameTextInline {cs : List Char} (name : NameText cs) : Text.Inline cs := by
  obtain ⟨c, part, start, rest⟩ := name
  intro d mem
  have plain : isNamePart d = true := by
    rcases List.mem_cons.mp mem with rfl | later
    · simp [isNamePart, start]
    · exact rest d later
  exact ⟨fun same => absurd plain (by rw [same]; decide),
    fun same => absurd plain (by rw [same]; decide)⟩

theorem digitsPlain {cs : List Char} (digits : Digits cs) : ∀ d ∈ cs, isHexDigit d ∨ d = 'x' := by
  cases digits with
  | decimal c cs all => exact fun d mem => .inl (by simp [isHexDigit, all d mem])
  | hexadecimal c cs all =>
    intro d mem
    rcases List.mem_cons.mp mem with rfl | mem
    · exact .inl (by decide)
    · rcases List.mem_cons.mp mem with rfl | mem
      · exact .inr rfl
      · exact .inl (all d mem)

theorem numberTextInline {cs : List Char} (number : NumberText cs) : Text.Inline cs := by
  intro d mem
  have shape : (isHexDigit d ∨ d = 'x') ∨ d = '-' := by
    cases number with
    | plain digits => exact .inl (digitsPlain digits d mem)
    | negative digits =>
      rcases List.mem_cons.mp mem with rfl | mem
      · exact .inr rfl
      · exact .inl (digitsPlain digits d mem)
  constructor
  · rintro rfl
    revert shape
    decide
  · rintro rfl
    revert shape
    decide

theorem commentTextOneLine {cs : List Char} (comment : CommentText cs) : Text.OneLine cs := by
  obtain ⟨cs, line, trimmed⟩ := comment
  refine ⟨fun feed => ?_, fun c last same => ?_⟩
  · exact line ((List.mem_cons.mp feed).resolve_left (by decide))
  · rw [← trimmed] at last
    have keep := Text.dropEndWhileLast last
    rw [same] at keep
    contradiction

theorem spellingOneLine {token : Token} (spelled : token.Spelled) :
    Text.OneLine token.spelling ∧ token.spelling ≠ [] := by
  have stop : Stop [] := fun _ absent => nomatch absent
  obtain ⟨c, cs, split, _⟩ := munchSpelling spelled stop fun _ _ => rfl
  refine ⟨?_, by rw [split]; exact List.cons_ne_nil c cs⟩
  cases token with
  | label text =>
    have one := Text.inlineOneLine (nameTextInline spelled)
    refine ⟨fun feed => ?_, fun d last same => ?_⟩
    · exact one.line ((List.mem_append.mp feed).resolve_right (by decide))
    · rw [spelling, List.getLast?_append_of_ne_nil _ (by decide)] at last
      cases Option.some.inj last
      contradiction
  | name text => exact Text.inlineOneLine (nameTextInline spelled)
  | number text => exact Text.inlineOneLine (numberTextInline spelled)
  | comment text => exact commentTextOneLine spelled
  | unknown => exact spelled.elim

theorem oneLineTokens {token : Token} {tokens : List Token}
    (spelled : ∀ t ∈ token :: tokens, t.Spelled) :
    Text.OneLine (token.spelling ++ tokens.flatMap fun token => ' ' :: token.spelling) := by
  induction tokens generalizing token with
  | nil =>
    rw [List.flatMap_nil, List.append_nil]
    exact (spellingOneLine (spelled token List.mem_cons_self)).1
  | cons second tokens ih =>
    have rest := ih fun t mem => spelled t (List.mem_cons_of_mem _ mem)
    have nonempty := (spellingOneLine (spelled second (by simp))).2
    exact Text.oneLineSpaced (spellingOneLine (spelled token List.mem_cons_self)).1 rest
      fun empty => nonempty (List.append_eq_nil_iff.mp empty).1

end Token

theorem Token.nameTextHead {cs : List Char} (name : Token.NameText cs) :
    ∃ c part, cs = c :: part ∧ Token.isNameStart c = true := by
  obtain ⟨c, part, start, _⟩ := name
  exact ⟨c, part, rfl, start⟩

namespace Statement

variable {s : Statement}

theorem frontOfDropLast {token : Token} (mem : token ∈ s.tokens.dropLast) :
    token ∈ s.label.toList.map Token.label ++ s.bodyTokens := by
  unfold tokens at mem
  cases commented : s.comment with
  | none =>
    rw [commented, Option.toList_none, List.map_nil, List.append_nil] at mem
    exact List.dropLast_subset _ mem
  | some text =>
    rw [commented, Option.toList_some, List.map_singleton, List.dropLast_concat] at mem
    exact mem

variable (readable : s.Readable)
include readable

theorem tokensHead : ∃ token tokens c cs, s.tokens = token :: tokens ∧ token.spelling = c :: cs ∧
    Token.isNameStart c = true := by
  unfold tokens bodyTokens
  cases labelled : s.label with
  | some text =>
    obtain ⟨c, part, split, start⟩ := Token.nameTextHead (readable.label text labelled)
    refine ⟨.label text, _, c, part ++ [':'], rfl, ?_, start⟩
    rw [Token.spelling, split, List.cons_append]
  | none =>
    cases coded : s.opcode with
    | some op =>
      obtain ⟨c, part, split, start⟩ := Token.nameTextHead op.mnemonicText
      exact ⟨.name op.mnemonic, _, c, part, rfl, split, start⟩
    | none =>
      have present := readable.present
      simp [labelled, coded] at present

theorem oneLine : Text.OneLine s.text.toList := by
  obtain ⟨token, tokens, _, _, split, _⟩ := tokensHead readable
  rw [textList split]
  exact Token.oneLineTokens (split ▸ s.tokensSpelled readable)

theorem textCode : ¬ Text.Verbatim s.text.toList := by
  obtain ⟨token, tokens, c, cs, split, spelling, start⟩ := tokensHead readable
  obtain ⟨notBlank, plain⟩ := Token.nameStartPlain start
  intro verbatim
  refine plain (verbatim c ?_)
  rw [textList split, spelling, List.cons_append, List.dropWhile_cons, notBlank,
    if_neg Bool.false_ne_true]
  rfl

theorem lexText (file start : Nat) :
    (lex s.text.toList start file).map Lexeme.token = s.tokens := by
  obtain ⟨token, tokens, _, _, split, _⟩ := tokensHead readable
  rw [lex, textList split, split]
  refine lexSpaced (split ▸ s.tokensSpelled readable) (fun t mem text => ?_) file start
  rw [← split] at mem
  exact s.frontTokens t (frontOfDropLast mem) text

end Statement

def Line.emitted : Line → Emitted
  | verbatim text => .verbatim text
  | code inst => .statement inst.statement

def Emitted.statement? : Emitted → Option Statement
  | verbatim _ => none
  | statement s => some s

def Emitted.Readable : Emitted → Prop
  | verbatim text => Text.OneLine text.toList ∧ Text.Verbatim text.toList
  | statement s => s.Readable

theorem Emitted.oneLine {e : Emitted} (readable : e.Readable) : Text.OneLine e.text.toList := by
  cases e with
  | verbatim text => exact readable.1
  | statement s => exact Statement.oneLine readable

namespace Reading

variable {cs : List Char}

theorem lineVerbatim (verbatim : Text.Verbatim cs) (file number offset : Nat) :
    line file number offset cs = .ok (.verbatim (String.ofList cs)) :=
  if_pos (Text.verbatimIff.mpr verbatim)

theorem lineCode (code : ¬ Text.Verbatim cs) (file number offset : Nat) :
    line file number offset cs =
      match instruction number ⟨file, offset, offset + Text.byteLength cs⟩
        (String.ofList (Text.trim cs)) (lex cs offset file) with
      | .ok inst => .ok (.code inst)
      | .error issues => .error issues :=
  if_neg fun verbatim => code (Text.verbatimIff.mp verbatim)

theorem lineRead {e : Emitted} (readable : e.Readable) (file number offset : Nat) :
    ∃ l, line file number offset e.text.toList = .ok l ∧ l.emitted = e := by
  cases e with
  | verbatim text =>
    exact ⟨_, lineVerbatim readable.2 file number offset,
      congrArg Emitted.verbatim String.ofList_toList⟩
  | statement s =>
    obtain ⟨inst, read, same⟩ := instructionRead readable (Statement.lexText readable file offset)
      number ⟨file, offset, offset + Text.byteLength s.text.toList⟩
      (String.ofList (Text.trim s.text.toList))
    refine ⟨.code inst, ?_, congrArg Emitted.statement same⟩
    exact (lineCode (Statement.textCode readable) file number offset).trans (by rw [read])

theorem lineReadable (one : Text.OneLine cs) {file number offset : Nat} {l : Line}
    (ok : line file number offset cs = .ok l) : l.emitted.Readable := by
  by_cases verbatim : Text.Verbatim cs
  · rw [lineVerbatim verbatim] at ok
    cases ok
    simpa [Line.emitted, Emitted.Readable] using ⟨one, verbatim⟩
  · rw [lineCode verbatim] at ok
    split at ok <;> try contradiction
    rename_i inst read
    cases ok
    have first : ∃ c ∈ (cs.dropWhile Text.isBlank).head?, c ≠ '#' := by
      simpa [Text.Verbatim] using verbatim
    obtain ⟨lexeme, lexemes, split, plain⟩ := lexFromHead file cs offset first
    have spelled := lexFromSpelled file cs offset 0
    rw [lex, split] at read
    rw [split] at spelled
    exact instructionReadable spelled plain read

theorem ofPiecesRead {es : List Emitted} (readable : ∀ e ∈ es, e.Readable) (file number offset : Nat) :
    ∃ lines, ofPieces file number offset (es.map fun e => e.text.toList ++ ['\n']) = ⟨lines, []⟩ ∧
      lines.map Line.emitted = es := by
  induction es generalizing number offset with
  | nil => exact ⟨[], rfl, rfl⟩
  | cons e es ih =>
    have here := readable e List.mem_cons_self
    obtain ⟨l, read, same⟩ := lineRead here file number offset
    obtain ⟨lines, rest, sames⟩ := ih (fun e mem => readable e (List.mem_cons_of_mem _ mem))
      (number + 1) (offset + Text.byteLength (e.text.toList ++ ['\n']))
    refine ⟨l :: lines, ?_, by rw [List.map_cons, same, sames]⟩
    rw [List.map_cons, ofPieces, rest, Text.chompLine (Emitted.oneLine here), read]
    rfl

theorem ofPiecesSource {file number offset : Nat} {pieces : List (List Char)} {l : Line}
    (mem : l ∈ (ofPieces file number offset pieces).lines) :
    ∃ piece ∈ pieces, ∃ number offset, line file number offset (Text.chomp piece) = .ok l := by
  induction pieces generalizing number offset with
  | nil => contradiction
  | cons piece pieces ih =>
    rw [ofPieces] at mem
    have later : l ∈ (ofPieces file (number + 1) (offset + Text.byteLength piece) pieces).lines →
        ∃ other ∈ piece :: pieces, ∃ number offset,
          line file number offset (Text.chomp other) = .ok l := fun mem => by
      obtain ⟨other, inside, found⟩ := ih mem
      exact ⟨other, List.mem_cons_of_mem _ inside, found⟩
    cases read : line file number offset (Text.chomp piece) with
    | error issues =>
      rw [read] at mem
      exact later mem
    | ok here =>
      rw [read] at mem
      rcases List.mem_cons.mp mem with rfl | mem
      · exact ⟨piece, List.mem_cons_self, number, offset, read⟩
      · exact later mem

end Reading

theorem Emitted.unlinesPieces {es : List Emitted} (readable : ∀ e ∈ es, e.Readable) :
    Text.pieces (Emitted.unlines es).toList = es.map fun e => e.text.toList ++ ['\n'] := by
  have whole : (Emitted.unlines es).toList = es.flatMap fun e => e.text.toList ++ ['\n'] := by
    rw [Emitted.unlines, String.toList_join, List.flatMap_map]
    exact List.flatMap_congr fun e _ => String.toList_append
  rw [whole]
  clear whole
  induction es with
  | nil => rfl
  | cons e es ih =>
    have line := (Emitted.oneLine (readable e List.mem_cons_self)).line
    rw [List.flatMap_cons, List.append_assoc, List.singleton_append, Text.piecesLine line,
      List.map_cons, ih fun e mem => readable e (List.mem_cons_of_mem _ mem)]

namespace Program

variable {p : Program} {file : Nat}

def Readable (p : Program) : Prop := ∀ l ∈ p.lines, l.emitted.Readable

theorem parseReadable {text : String} (ok : Program.parse text file = .ok p) : p.Readable := by
  unfold parse Reading.result at ok
  split at ok <;> try contradiction
  cases ok
  intro l mem
  obtain ⟨piece, inside, number, offset, read⟩ := Reading.ofPiecesSource mem
  exact Reading.lineReadable (Text.chompOneLine inside) read

theorem parseUnlines {es : List Emitted} (readable : ∀ e ∈ es, e.Readable) (file : Nat) :
    ∃ q, Program.parse (Emitted.unlines es) file = .ok q ∧ q.lines.map Line.emitted = es := by
  obtain ⟨lines, read, same⟩ := Reading.ofPiecesRead readable file 1 0
  refine ⟨⟨lines⟩, ?_, same⟩
  rw [parse, Reading.ofText, Emitted.unlinesPieces readable, read]
  rfl

theorem statements (p : Program) : p.instructions.map Instruction.statement =
    (p.lines.map Line.emitted).filterMap Emitted.statement? := by
  rw [instructions, List.map_filterMap, List.filterMap_map]
  refine List.filterMap_congr fun l _ => ?_
  cases l <;> rfl

end Program

end Regalloc
