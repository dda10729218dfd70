import Regalloc.Proofs.Grammar
import Regalloc.Proofs.Lexing
import Regalloc.Proofs.RoundTrip
import Regalloc.Proofs.SourceLines

/-! Reading is local to lines. What a line gives depends on the text before it only through the
number of lines and bytes, so the reading of two texts, one after the other, is the reading of the
first and that of the second with all places moved on. -/
namespace Regalloc

def Lexeme.shift (bytes : Nat) (lexeme : Lexeme) : Lexeme := ⟨lexeme.token, lexeme.span.shift bytes⟩

def Operand.shift (bytes : Nat) (operand : Operand) : Operand :=
  ⟨operand.value, operand.span.shift bytes⟩

def Instruction.shift (lines bytes : Nat) (inst : Instruction) : Instruction where
  line := inst.line + lines
  span := inst.span.shift bytes
  text := inst.text
  label := inst.label.map fun (text, span) => (text, span.shift bytes)
  opcode := inst.opcode
  operands := inst.operands.map (Operand.shift bytes)
  comment := inst.comment

def Line.shift (lines bytes : Nat) : Line → Line
  | verbatim text => verbatim text
  | code inst => code (inst.shift lines bytes)

def Mark.shift (bytes : Nat) (mark : Mark) : Mark :=
  ⟨mark.emphasis, mark.span.shift bytes, mark.message⟩

def Issue.shift (bytes : Nat) : Issue → Issue
  | unknownToken span => unknownToken (span.shift bytes)
  | unknownMnemonic span mnemonic => unknownMnemonic (span.shift bytes) mnemonic
  | operandCount span mnemonic expected actual =>
    operandCount (span.shift bytes) mnemonic expected actual
  | notRegister span => notRegister (span.shift bytes)
  | notMnemonic span => notMnemonic (span.shift bytes)
  | notLabel span => notLabel (span.shift bytes)
  | notImmediate span => notImmediate (span.shift bytes)
  | unresolvedLabel span label line => unresolvedLabel (span.shift bytes) label line
  | duplicateLabel span label first => duplicateLabel (span.shift bytes) label (first.shift bytes)
  | allocationFailed needed budget spilled attempts =>
    allocationFailed needed budget spilled attempts

def SourceLine.shift (lines bytes : Nat) (line : SourceLine) : SourceLine :=
  ⟨line.number + lines, line.start + bytes, line.text⟩

theorem Issue.shiftMessage (bytes : Nat) (issue : Issue) :
    (issue.shift bytes).code = issue.code ∧ (issue.shift bytes).headline = issue.headline ∧
      (issue.shift bytes).marks = issue.marks.map (Mark.shift bytes) ∧
      (issue.shift bytes).notes = issue.notes := by
  cases issue <;> exact ⟨rfl, rfl, rfl, rfl⟩

theorem Span.hullShift (s t : Span) (bytes : Nat) :
    (s.shift bytes).hull (t.shift bytes) = (s.hull t).shift bytes := by
  simp [hull, shift, Nat.add_min_add_right, Nat.add_max_add_right]

theorem lexFromShift (file start inside bytes : Nat) (cs : List Char) :
    lexFrom file (start + bytes) inside cs =
      (lexFrom file start inside cs).map (Lexeme.shift bytes) := by
  induction cs generalizing start inside with
  | nil => cases inside <;> rfl
  | cons c cs ih =>
    have next : start + bytes + c.utf8Size = start + c.utf8Size + bytes := by omega
    cases inside with
    | succ inside => rw [lexFrom, lexFrom, next, ih]
    | zero =>
      rw [lexFrom, lexFrom, next, ih]
      split
      · rfl
      · dsimp only
        rw [ih, List.map_cons, Lexeme.shift, Span.shift, Nat.add_right_comm]

namespace Reading

variable {lexemes : List Lexeme} (bytes : Nat)

theorem splitCommentShift : splitComment (lexemes.map (Lexeme.shift bytes)) =
    ((splitComment lexemes).1.map (Lexeme.shift bytes), (splitComment lexemes).2) := by
  rcases List.eq_nil_or_concat lexemes with rfl | ⟨kept, ⟨token, span⟩, rfl⟩
  · rfl
  · cases token <;> simp [splitComment, Lexeme.shift]

theorem splitLabelShift : splitLabel (lexemes.map (Lexeme.shift bytes)) =
    ((splitLabel lexemes).1.map fun (text, span) => (text, span.shift bytes),
      (splitLabel lexemes).2.map (Lexeme.shift bytes)) := by
  cases lexemes with
  | nil => rfl
  | cons lexeme rest =>
    obtain ⟨token, span⟩ := lexeme
    cases token <;> rfl

theorem unknownsShift : unknowns (lexemes.map (Lexeme.shift bytes)) =
    (unknowns lexemes).map (Issue.shift bytes) := by
  rw [unknowns, unknowns, List.filterMap_map, List.map_filterMap]
  refine List.filterMap_congr fun lexeme _ => ?_
  by_cases unknown : lexeme.token = .unknown <;> simp [Lexeme.shift, Issue.shift, unknown]

theorem operandValueShift (slot : Slot) (lexeme : Lexeme) : operandValue slot (lexeme.shift bytes) =
    (operandValue slot lexeme).mapError (Issue.shift bytes) := by
  obtain ⟨token, span⟩ := lexeme
  cases slot <;> cases token <;> rfl

theorem operandsShift (shape : List Slot) : operands shape (lexemes.map (Lexeme.shift bytes)) =
    ((operands shape lexemes).map (List.map (Operand.shift bytes))).mapError (Issue.shift bytes) := by
  induction shape generalizing lexemes with
  | nil => simp [operands]; rfl
  | cons slot shape ih =>
    cases lexemes with
    | nil => rfl
    | cons lexeme lexemes =>
      simp only [List.map_cons, operands, operandValueShift, ih, bind, Except.bind]
      cases operandValue slot lexeme with
      | error issue => rfl
      | ok value => cases operands shape lexemes <;> rfl

theorem foldlHullShift (span : Span) : (lexemes.map (Lexeme.shift bytes)).foldl
      (fun s lexeme => s.hull lexeme.span) (span.shift bytes) =
    (lexemes.foldl (fun s lexeme => s.hull lexeme.span) span).shift bytes := by
  induction lexemes generalizing span with
  | nil => rfl
  | cons lexeme lexemes ih =>
    rw [List.map_cons, List.foldl_cons, List.foldl_cons, Lexeme.shift, Span.hullShift, ih]

theorem bodyShift : body (lexemes.map (Lexeme.shift bytes)) =
    ((body lexemes).map fun (opcode, given) => (opcode, given.map (Operand.shift bytes))).mapError
      (Issue.shift bytes) := by
  cases lexemes with
  | nil => rfl
  | cons lexeme rest =>
    obtain ⟨token, span⟩ := lexeme
    cases token with
    | name text =>
      simp only [List.map_cons, Lexeme.shift, body]
      cases Opcode.ofMnemonic? text with
      | none => rfl
      | some op =>
        simp only [List.length_map]
        split
        · rw [operandsShift]
          simp only [bind, Except.bind]
          cases operands op.shape rest <;> rfl
        · exact congrArg (fun whole => Except.error (Issue.operandCount whole op.mnemonic op.arity _))
            (foldlHullShift bytes span)
    | _ => rfl

theorem instructionShift (number lines : Nat) (span : Span) (text : String) :
    instruction (number + lines) (span.shift bytes) text (lexemes.map (Lexeme.shift bytes)) =
      ((instruction number span text lexemes).map (Instruction.shift lines bytes)).mapError
        (List.map (Issue.shift bytes)) := by
  simp only [instruction, splitCommentShift, unknownsShift, splitLabelShift, bodyShift]
  cases unknowns (splitComment lexemes).1 with
  | cons issue issues => rfl
  | nil => cases body (splitLabel (splitComment lexemes).1).2 <;> rfl

theorem lineShift (file number offset lines : Nat) (cs : List Char) :
    line file (number + lines) (offset + bytes) cs =
      ((line file number offset cs).map (Line.shift lines bytes)).mapError
        (List.map (Issue.shift bytes)) := by
  by_cases verbatim : Text.Verbatim cs
  · rw [lineVerbatim verbatim, lineVerbatim verbatim]
    rfl
  · have span : (⟨file, offset + bytes, offset + bytes + Text.byteLength cs⟩ : Span) =
        Span.shift ⟨file, offset, offset + Text.byteLength cs⟩ bytes := by
      rw [Span.shift, Nat.add_right_comm]
    rw [lineCode verbatim, lineCode verbatim, lex, lexFromShift, span, instructionShift]
    simp only [lex]
    cases instruction number ⟨file, offset, offset + Text.byteLength cs⟩
      (String.ofList (Text.trim cs)) (lexFrom file offset 0 cs) <;> rfl

end Reading

namespace SourceLine

variable (file lines bytes : Nat)

theorem readShift (line : SourceLine) : (line.shift lines bytes).read file =
    ((line.read file).map (Line.shift lines bytes)).mapError (List.map (Issue.shift bytes)) :=
  Reading.lineShift bytes file line.number line.start lines line.text

theorem faultsShift (line : SourceLine) :
    (line.shift lines bytes).faults file = (line.faults file).map (Issue.shift bytes) := by
  unfold faults
  rw [readShift]
  cases line.read file <;> rfl

theorem ofPiecesShift (number start : Nat) (pieces : List (List Char)) :
    ofPieces (number + lines) (start + bytes) pieces =
      (ofPieces number start pieces).map (shift lines bytes) := by
  induction pieces generalizing number start with
  | nil => rfl
  | cons piece pieces ih =>
    rw [ofPieces, ofPieces, List.map_cons, Nat.add_right_comm, Nat.add_right_comm start, ih]
    rfl

theorem ofPiecesAppend (number start : Nat) (pieces others : List (List Char)) :
    ofPieces number start (pieces ++ others) = ofPieces number start pieces ++
      ofPieces (number + pieces.length) (start + Text.byteLength pieces.flatten) others := by
  induction pieces generalizing number start with
  | nil => rfl
  | cons piece pieces ih =>
    rw [List.cons_append, ofPieces, ofPieces, ih, List.cons_append, List.flatten_cons,
      Text.byteLengthAppend, List.length_cons, Nat.add_assoc, Nat.add_assoc, Nat.add_comm 1]

theorem ofTextAppend {text : List Char} (closed : Text.Closed text) (more : List Char) :
    ofText (text ++ more) =
      ofText text ++ (ofText more).map (shift (text.count '\n') (Text.byteLength text)) := by
  rw [ofText, ofText, ofText, Text.piecesAppend closed, ofPiecesAppend, ← ofPiecesShift,
    Text.countPieces closed, Text.flattenPieces]

def unrecognised (line : SourceLine) : List Lexeme :=
  (line.lexemes file).filter fun lexeme => lexeme.token = .unknown

def WellFormed (line : SourceLine) : Prop :=
  Text.Verbatim line.text ∨ Token.Sentence ((line.lexemes file).map Lexeme.token)

structure Reported (line : SourceLine) (issues : List Issue) : Prop where
  wellFormed : line.WellFormed file → issues = []
  characters : ¬ line.WellFormed file → line.unrecognised file ≠ [] →
    issues = (line.unrecognised file).map fun lexeme => .unknownToken lexeme.span
  other : ¬ line.WellFormed file → line.unrecognised file = [] →
    ∃ issue, issues = [issue] ∧ issue.code ≠ "EP00"
  single : ∀ lexeme ∈ line.unrecognised file, ∃ a c,
    lexeme.Stands file line.start line.text a (a + c.utf8Size) [c]
  apart : (line.unrecognised file).Pairwise fun first second => first.span.stop ≤ second.span.start

variable {file} {line : SourceLine}

theorem unrecognisedUnknowns : Reading.unknowns (line.lexemes file) =
    (line.unrecognised file).map fun lexeme => .unknownToken lexeme.span := by
  unfold Reading.unknowns unrecognised
  induction line.lexemes file with
  | nil => rfl
  | cons lexeme lexemes ih =>
    by_cases unknown : lexeme.token = .unknown <;> simp [unknown, ih]

theorem unrecognisedStands {lexeme : Lexeme} (mem : lexeme ∈ line.unrecognised file) :
    ∃ a c, lexeme.Stands file line.start line.text a (a + c.utf8Size) [c] := by
  obtain ⟨inside, unknown⟩ := List.mem_filter.mp mem
  obtain ⟨a, b, part, stands⟩ := (lexedFrom file line.start line.text).stands lexeme inside
  have spelling := stands.spelling
  rw [of_decide_eq_true unknown] at spelling
  obtain ⟨c, rfl⟩ := spelling
  obtain ⟨before, after, split, start, stop⟩ := stands.slice
  have size : b = a + c.utf8Size := by rw [← stop, start]; rfl
  exact ⟨a, c, size ▸ stands⟩

theorem faultsMalformed (malformed : ¬ line.WellFormed file) :
    Reading.Faults (line.lexemes file) (line.faults file) := by
  obtain ⟨verbatim, sentence⟩ := not_or.mp malformed
  cases result : line.read file with
  | error issues =>
    rw [faults, result]
    exact Reading.lineFaults result
  | ok l =>
    cases l with
    | verbatim text => exact absurd (Reading.verbatimOnly result) verbatim
    | code inst => exact absurd ((Reading.lineTaken verbatim).mp ⟨inst, result⟩) sentence

theorem faultsReported (line : SourceLine) : line.Reported file (line.faults file) where
  wellFormed := by
    intro well
    by_cases verbatim : Text.Verbatim line.text
    · rw [faults, read, Reading.lineVerbatim verbatim]
    · obtain ⟨inst, ok⟩ := (Reading.lineTaken verbatim).mpr (well.resolve_left verbatim)
      rw [faults, read, ok]
  characters := by
    intro malformed some
    have rejected := faultsMalformed malformed
    generalize line.faults file = issues at rejected ⊢
    cases rejected with
    | unknown => exact unrecognisedUnknowns
    | known none => exact absurd (List.map_eq_nil_iff.mp (unrecognisedUnknowns ▸ none)) some
  other := by
    intro malformed none
    have rejected := faultsMalformed malformed
    generalize line.faults file = issues at rejected ⊢
    cases rejected with
    | unknown some => exact absurd (by rw [unrecognisedUnknowns, none]; rfl) some
    | known _ _ fault => exact ⟨_, rfl, fault.otherCode⟩
  single := fun _ => unrecognisedStands
  apart := (lexedFrom file line.start line.text).ordered.2.filter _

end SourceLine

theorem Line.layoutFrom (i k : Nat) (lines : List Line) :
    layout (i + k) lines = (layout i lines).map (Sum.map id (· + k)) := by
  induction lines generalizing i with
  | nil => rfl
  | cons line lines ih =>
    cases line with
    | verbatim text => exact congrArg (List.cons _) (ih i)
    | code inst =>
      have later := ih (i + 1)
      rw [Nat.add_right_comm] at later
      exact congrArg (List.cons _) later

theorem Line.layoutAppend (i : Nat) (lines more : List Line) : layout i (lines ++ more) =
    layout i lines ++ layout (i + (lines.filterMap Line.instruction?).length) more := by
  induction lines generalizing i with
  | nil => rfl
  | cons line lines ih =>
    cases line with
    | verbatim text => exact congrArg (List.cons _) (ih i)
    | code inst =>
      have later := ih (i + 1)
      rw [Nat.add_right_comm, Nat.add_assoc] at later
      exact congrArg (List.cons _) later

theorem Line.layoutShift (lines bytes i : Nat) (all : List Line) :
    layout i (all.map (shift lines bytes)) = layout i all := by
  induction all generalizing i with
  | nil => rfl
  | cons line all ih =>
    cases line with
    | verbatim text => exact congrArg (List.cons _) (ih i)
    | code inst => exact congrArg (List.cons _) (ih (i + 1))

theorem Line.instructionShift (lines bytes : Nat) (line : Line) :
    (line.shift lines bytes).instruction? =
      line.instruction?.map (Instruction.shift lines bytes) := by
  cases line <;> rfl

namespace Program

variable {s t : String} {file : Nat} (closed : Text.Closed s.toList)

def messages (source : String) (file : Nat) : List Issue :=
  match Program.parse source file with
  | .ok _ => []
  | .error issues => issues

theorem messagesFaults (source : String) (file : Nat) : messages source file = faults source file := by
  rw [messages, parseSource]
  split <;> rename_i result <;> split at result <;> try contradiction
  · rename_i clean
    exact clean.symm
  · exact (Except.error.inj result).symm

theorem parsedNone : (∃ p, Program.parse s file = .ok p) ↔ faults s file = [] :=
  ⟨fun ⟨_, ok⟩ => (parsedIff.mp ok).1, fun clean => ⟨⟨linesRead s file⟩, parsedIff.mpr ⟨clean, rfl⟩⟩⟩

include closed

theorem faultsAppend : faults (s ++ t) file = faults s file ++
    (faults t file).map (Issue.shift (Text.byteLength s.toList)) := by
  rw [faults, String.toList_append, SourceLine.ofTextAppend closed, List.flatMap_append,
    List.flatMap_map, faults, faults, List.map_flatMap]
  simp only [SourceLine.faultsShift]

theorem linesReadAppend : linesRead (s ++ t) file = linesRead s file ++
    (linesRead t file).map (Line.shift (s.toList.count '\n') (Text.byteLength s.toList)) := by
  rw [linesRead, String.toList_append, SourceLine.ofTextAppend closed, List.filterMap_append,
    List.filterMap_map, linesRead, linesRead, List.map_filterMap]
  refine congrArg _ (List.filterMap_congr fun line _ => ?_)
  rw [Function.comp_apply, SourceLine.readShift]
  cases line.read file <;> rfl

omit closed

theorem readLineByLine :
    (∀ (s t : String) (file : Nat), Text.Closed s.toList →
      ((∃ r, Program.parse (s ++ t) file = .ok r) ↔
        (∃ p, Program.parse s file = .ok p) ∧ ∃ q, Program.parse t file = .ok q) ∧
      (∀ r, Program.parse (s ++ t) file = .ok r → ∃ p q,
        Program.parse s file = .ok p ∧ Program.parse t file = .ok q ∧
        r.lines = p.lines ++
          q.lines.map (Line.shift (s.toList.count '\n') (Text.byteLength s.toList)) ∧
        r.instructions = p.instructions ++
          q.instructions.map (Instruction.shift (s.toList.count '\n') (Text.byteLength s.toList)) ∧
        Line.layout 0 r.lines =
          Line.layout 0 p.lines ++ (Line.layout 0 q.lines).map (Sum.map id (· + p.size))) ∧
      messages (s ++ t) file =
        messages s file ++ (messages t file).map (Issue.shift (Text.byteLength s.toList))) ∧
    ∀ (source : String) (file : Nat),
      messages source file =
        (SourceLine.ofText source.toList).flatMap (SourceLine.faults file) ∧
      ∀ line ∈ SourceLine.ofText source.toList,
        line.In source.toList ∧ line.Reported file (line.faults file) := by
  refine ⟨fun s t file closed => ⟨?_, fun r parsed => ?_, ?_⟩, fun source file =>
    ⟨messagesFaults source file, fun line mem =>
      ⟨SourceLine.ofTextIn source.toList line mem, line.faultsReported⟩⟩⟩
  · rw [parsedNone, parsedNone, parsedNone, faultsAppend closed, List.append_eq_nil_iff,
      List.map_eq_nil_iff]
  · obtain ⟨clean, whole⟩ := parsedIff.mp parsed
    rw [faultsAppend closed, List.append_eq_nil_iff, List.map_eq_nil_iff] at clean
    rw [linesReadAppend closed] at whole
    refine ⟨⟨linesRead s file⟩, ⟨linesRead t file⟩, parsedIff.mpr ⟨clean.1, rfl⟩,
      parsedIff.mpr ⟨clean.2, rfl⟩, whole, ?_, ?_⟩
    · rw [instructions, whole, List.filterMap_append, List.filterMap_map, instructions,
        instructions, List.map_filterMap]
      exact congrArg _ (List.filterMap_congr fun line _ => Line.instructionShift _ _ line)
    · rw [whole, Line.layoutAppend, Line.layoutShift, Line.layoutFrom]
      rfl
  · rw [messagesFaults, messagesFaults, messagesFaults, faultsAppend closed]

theorem endedTextRead :
    Text.Closed "é a ?\r\n".toList ∧ Text.Closed "a: RET # é\r\n\t\n".toList ∧
      messages ("é a ?\r\n" ++ "RET\nSTOP 1\n") 0 =
        [.unknownToken ⟨0, 0, 2⟩, .unknownToken ⟨0, 5, 6⟩, .operandCount ⟨0, 12, 18⟩ "STOP" 0 1] ∧
      ∃ r, Program.parse ("a: RET # é\r\n\t\n" ++ "JMP a") 0 = .ok r ∧
        Line.layout 0 r.lines = [.inr 0, .inl "\t", .inr 1] := by
  have faulty : Text.Closed "é a ?\r\n".toList := by simp [Text.Closed]
  have clean : Text.Closed "a: RET # é\r\n\t\n".toList := by simp [Text.Closed]
  refine ⟨faulty, clean, ?_, ?_⟩
  · rw [(readLineByLine.1 _ _ 0 faulty).2.2]
    decide +kernel
  · have first : (Program.parse "a: RET # é\r\n\t\n" 0).toOption.any (fun p =>
        p.size = 1 ∧ Line.layout 0 p.lines = [.inr 0, .inl "\t"]) = true := by decide +kernel
    have second : (Program.parse "JMP a" 0).toOption.any (fun q =>
        Line.layout 0 q.lines = [.inr 0]) = true := by decide +kernel
    obtain ⟨p, parsedFirst, ranFirst⟩ := Allocation.okOf first
    obtain ⟨q, parsedSecond, ranSecond⟩ := Allocation.okOf second
    obtain ⟨both, whole, _⟩ := readLineByLine.1 _ "JMP a" 0 clean
    obtain ⟨r, parsed⟩ := both.mpr ⟨⟨p, parsedFirst⟩, q, parsedSecond⟩
    obtain ⟨p', q', again, again', _, _, layout⟩ := whole r parsed
    cases parsedFirst.symm.trans again
    cases parsedSecond.symm.trans again'
    obtain ⟨size, layoutFirst⟩ := of_decide_eq_true ranFirst
    refine ⟨r, parsed, ?_⟩
    rw [layout, layoutFirst, of_decide_eq_true ranSecond, size]
    rfl

end Program

end Regalloc
