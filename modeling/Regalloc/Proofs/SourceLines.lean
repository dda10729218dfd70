import Regalloc.Proofs.Lines
import Regalloc.Snippet

/-! A text as the list of its lines. Each line is read by itself, with its number and the byte it
starts at, and a text is a program just when every line of it can be read. -/
namespace Regalloc

namespace Text

variable {text line : List Char}

inductive Cut : List Char → List (List Char) → Prop where
  | empty : Cut [] []
  | last {line : List Char} (inside : '\n' ∉ line) (nonempty : line ≠ []) : Cut line [line]
  | ended {line rest : List Char} {others : List (List Char)} (inside : '\n' ∉ line)
      (later : Cut rest others) : Cut (line ++ '\n' :: rest) ((line ++ ['\n']) :: others)

theorem cutPieces (text : List Char) : Cut text (pieces text) := by
  induction text with
  | nil => exact .empty
  | cons c cs ih =>
    by_cases feed : c = '\n'
    · rw [feed, piecesFeed]
      exact .ended List.not_mem_nil ih
    · rcases piecesPlain feed cs with ⟨none, whole⟩ | ⟨piece, others, found, whole⟩
      · rw [none] at ih
        cases ih
        rw [whole]
        exact .last (by simpa using Ne.symm feed) (List.cons_ne_nil c [])
      · rw [found] at ih
        rw [whole]
        cases ih with
        | last inside _ =>
          exact .last (List.not_mem_cons_of_ne_of_not_mem (Ne.symm feed) inside)
            (List.cons_ne_nil c _)
        | ended inside later =>
          exact .ended (List.not_mem_cons_of_ne_of_not_mem (Ne.symm feed) inside) later

def Closed (text : List Char) : Prop := ∀ c ∈ text.getLast?, c = '\n'

theorem closedEnded (line : List Char) : Closed (line ++ ['\n']) := by
  intro c last
  simpa using last.symm

theorem closedAppend {rest : List Char} (front : Closed text) (back : Closed rest) :
    Closed (text ++ rest) := by
  intro c last
  rcases List.eq_nil_or_concat rest with rfl | ⟨others, d, rfl⟩
  · exact front c (by rwa [List.append_nil] at last)
  · rw [List.concat_eq_append] at back last
    rw [List.getLast?_append_of_ne_nil _ (List.concat_ne_nil d others)] at last
    exact back c last

theorem closedTail {rest : List Char} (closed : Closed (text ++ '\n' :: rest)) : Closed rest := by
  intro c last
  refine closed c ?_
  rw [List.getLast?_append_of_ne_nil _ (List.cons_ne_nil _ _),
    List.getLast?_cons_of_ne_nil (by rintro rfl; contradiction)]
  exact last

theorem notClosed (inside : '\n' ∉ line) (nonempty : line ≠ []) : ¬ Closed line := by
  intro closed
  have last := closed _ (List.getLast?_eq_some_getLast nonempty)
  exact inside (last ▸ List.getLast_mem nonempty)

theorem piecesAppend (closed : Closed text) (more : List Char) :
    pieces (text ++ more) = pieces text ++ pieces more := by
  have cut := cutPieces text
  generalize pieces text = found at cut ⊢
  induction cut with
  | empty => rfl
  | last inside nonempty => exact absurd closed (notClosed inside nonempty)
  | ended inside _ ih =>
    rw [List.append_assoc, List.cons_append, piecesLine inside, ih (closedTail closed),
      List.cons_append]

theorem countPieces (closed : Closed text) : (pieces text).length = text.count '\n' := by
  have cut := cutPieces text
  generalize pieces text = found at cut ⊢
  induction cut with
  | empty => rfl
  | last inside nonempty => exact absurd closed (notClosed inside nonempty)
  | ended inside _ ih =>
    rw [List.length_cons, ih (closedTail closed), List.count_append, List.count_cons_self,
      List.count_eq_zero_of_not_mem inside, Nat.zero_add]

theorem chompSplit (inside : '\n' ∉ line) :
    (∃ n, line = chomp line ++ List.replicate n '\r') ∧ chomp (line ++ ['\n']) = chomp line ∧
      OneLine (chomp line) := by
  obtain ⟨tail, split, all⟩ := dropEndWhileAppend (fun c => c == '\n' || c == '\r') line
  refine ⟨⟨tail.length, ?_⟩, dropEndWhileTail (List.all_eq_true.mp rfl), fun feed => ?_, ?_⟩
  · have returns : tail = List.replicate tail.length '\r' := by
      refine List.eq_replicate_of_mem fun c mem => ?_
      have kinds : c = '\n' ∨ c = '\r' := by simpa using all c mem
      refine kinds.resolve_left fun feed => inside ?_
      rw [split]
      exact List.mem_append_right _ (feed ▸ mem)
    rw [← returns]
    exact split
  · exact inside (dropEndWhileMem feed)
  · intro c last same
    have plain := dropEndWhileLast last
    rw [same] at plain
    contradiction

end Text

namespace SourceLine

def ofPieces : (number start : Nat) → List (List Char) → List SourceLine
  | _, _, [] => []
  | number, start, piece :: pieces =>
    ⟨number, start, Text.chomp piece⟩ :: ofPieces (number + 1) (start + Text.byteLength piece) pieces

def ofText (text : List Char) : List SourceLine := ofPieces 1 0 (Text.pieces text)

/-- A line of a text: all before it is ended, and it has the number of line feeds before it, counted
from one. After it stand carriage returns and then a line feed or the end of the text. -/
inductive In (text : List Char) : SourceLine → Prop where
  | mk (before line ending after : List Char) (split : text = before ++ line ++ ending ++ after)
      (opens : Text.Closed before) (single : Text.OneLine line)
      (ends : ∃ n, ending = List.replicate n '\r' ++ ['\n'] ∨
        ending = List.replicate n '\r' ∧ after = []) :
      In text ⟨before.count '\n' + 1, Text.byteLength before, line⟩

theorem ofPiecesIn (before : List Char) {rest text : List Char} {found : List (List Char)}
    (cut : Text.Cut rest found) (split : text = before ++ rest) (opens : Text.Closed before) :
    ∀ line ∈ ofPieces (before.count '\n' + 1) (Text.byteLength before) found, line.In text := by
  -- Each ended line joins `before`, which stays closed, so number and start remain its counts.
  induction cut generalizing before with
  | empty => exact fun _ absent => nomatch absent
  | @last line inside nonempty =>
    obtain ⟨⟨n, returns⟩, _, single⟩ := Text.chompSplit inside
    intro other mem
    cases List.mem_singleton.mp mem
    refine .mk before _ (List.replicate n '\r') [] ?_ opens single ⟨n, .inr ⟨rfl, rfl⟩⟩
    rw [List.append_nil, List.append_assoc, ← returns, split]
  | @ended line rest others inside _ ih =>
    obtain ⟨⟨n, returns⟩, chomped, single⟩ := Text.chompSplit inside
    have closed : Text.Closed (before ++ (line ++ ['\n'])) :=
      Text.closedAppend opens (Text.closedEnded line)
    have number : (before ++ (line ++ ['\n'])).count '\n' = before.count '\n' + 1 := by
      simp [List.count_eq_zero_of_not_mem inside]
    intro other mem
    rcases List.mem_cons.mp mem with rfl | later
    · rw [chomped]
      refine .mk before _ (List.replicate n '\r' ++ ['\n']) rest ?_ opens single ⟨n, .inl rfl⟩
      have ended : line ++ '\n' :: rest =
          Text.chomp line ++ (List.replicate n '\r' ++ ['\n']) ++ rest := by
        rw [← List.append_assoc, ← returns, List.append_assoc, List.singleton_append]
      rw [split, ended]
      simp only [List.append_assoc]
    · rw [← number, ← Text.byteLengthAppend] at later
      exact ih _ (by simp [split]) closed other later

theorem ofTextIn (text : List Char) : ∀ line ∈ ofText text, line.In text :=
  ofPiecesIn [] (Text.cutPieces text) rfl fun _ absent => (nomatch absent)

def lexemes (file : Nat) (line : SourceLine) : List Lexeme := lex line.text line.start file

def read (file : Nat) (line : SourceLine) : Except (List Issue) Line :=
  Reading.line file line.number line.start line.text

def faults (file : Nat) (line : SourceLine) : List Issue :=
  match line.read file with
  | .ok _ => []
  | .error issues => issues

end SourceLine

namespace Reading

theorem ofPiecesLines (file number offset : Nat) (pieces : List (List Char)) :
    ofPieces file number offset pieces =
      ⟨(SourceLine.ofPieces number offset pieces).filterMap fun line => (line.read file).toOption,
        (SourceLine.ofPieces number offset pieces).flatMap (SourceLine.faults file)⟩ := by
  induction pieces generalizing number offset with
  | nil => rfl
  | cons piece pieces ih =>
    rw [ofPieces, ih, SourceLine.ofPieces, List.filterMap_cons, List.flatMap_cons]
    unfold SourceLine.faults SourceLine.read
    cases line file number offset (Text.chomp piece) <;> rfl

end Reading

namespace Program

variable {source : String} {file : Nat} {p : Program} {issues : List Issue}

def faults (source : String) (file : Nat) : List Issue :=
  (SourceLine.ofText source.toList).flatMap (SourceLine.faults file)

def linesRead (source : String) (file : Nat) : List Line :=
  (SourceLine.ofText source.toList).filterMap fun line => (line.read file).toOption

theorem parseSource (source : String) (file : Nat) : Program.parse source file =
    if faults source file = [] then .ok ⟨linesRead source file⟩ else .error (faults source file) := by
  unfold parse Reading.result Reading.ofText
  rw [Reading.ofPiecesLines]
  change (if (faults source file).isEmpty = true then _ else _) = _
  simp only [List.isEmpty_iff]
  rfl

theorem parsedIff : Program.parse source file = .ok p ↔
    faults source file = [] ∧ p.lines = linesRead source file := by
  rw [parseSource]
  split
  · rename_i clean
    rw [Except.ok.injEq, clean]
    exact ⟨fun same => ⟨rfl, same ▸ rfl⟩, fun ⟨_, same⟩ => by rw [← same]⟩
  · rename_i faulty
    exact ⟨fun absent => (nomatch absent), fun ⟨clean, _⟩ => absurd clean faulty⟩

theorem rejectedIff : Program.parse source file = .error issues ↔
    issues = faults source file ∧ issues ≠ [] := by
  rw [parseSource]
  split
  · rename_i clean
    exact ⟨fun absent => (nomatch absent), fun ⟨same, faulty⟩ => absurd (same.trans clean) faulty⟩
  · rename_i faulty
    rw [Except.error.injEq]
    exact ⟨fun same => ⟨same.symm, same ▸ faulty⟩, fun ⟨same, _⟩ => same.symm⟩

theorem instructionLine (parsed : Program.parse source file = .ok p) {inst : Instruction}
    (mem : inst ∈ p.instructions) :
    ∃ line ∈ SourceLine.ofText source.toList, line.read file = .ok (.code inst) := by
  obtain ⟨l, inside, found⟩ := List.mem_filterMap.mp mem
  rw [(parsedIff.mp parsed).2] at inside
  obtain ⟨line, present, read⟩ := List.mem_filterMap.mp inside
  cases l with
  | verbatim text => contradiction
  | code other =>
    cases Option.some.inj found
    cases result : line.read file with
    | error issues => rw [result] at read; contradiction
    | ok l =>
      rw [result] at read
      cases Option.some.inj read
      exact ⟨line, present, result⟩

end Program

end Regalloc
