import Regalloc.Proofs.Grammar
import Regalloc.Proofs.Lexing
import Regalloc.Proofs.SourceLines

/-! Places in the text. What an instruction or an issue points at are the very characters that it was
read from, all on one line of the text. -/
namespace Regalloc

structure Span.Covers (source : List Char) (file : Nat) (line : SourceLine) (span : Span)
    (part : List Char) : Prop where
  file : span.file = file
  slice : Text.Slice source span.start span.stop part
  nonempty : part ≠ []
  above : line.start ≤ span.start
  below : span.stop ≤ line.start + Text.byteLength line.text

def Instruction.places (inst : Instruction) : List Span :=
  (inst.label.map Prod.snd).toList ++ inst.operands.map Operand.span

structure Instruction.Placed (source : List Char) (file : Nat) (line : SourceLine)
    (inst : Instruction) : Prop where
  number : inst.line = line.number
  span : inst.span = ⟨file, line.start, line.start + Text.byteLength line.text⟩
  text : inst.text = String.ofList (Text.trim line.text)
  label : ∀ text span, inst.label = some (text, span) →
    span.Covers source file line (text.toList ++ [':'])
  operands : ∀ operand ∈ inst.operands,
    operand.span.Covers source file line operand.value.text.toList
  ordered : inst.places.Pairwise fun first second => first.stop ≤ second.start

structure Issue.Placed (source : List Char) (file : Nat) (line : SourceLine) (issue : Issue) :
    Prop where
  marked : issue.marks ≠ []
  marks : ∀ mark ∈ issue.marks, ∃ part, mark.span.Covers source file line part
  count : ∀ span mnemonic expected actual, issue = .operandCount span mnemonic expected actual →
    ∃ label name given comment,
      Reading.Parts (line.lexemes file) label (name :: given) comment ∧
      name.token = .name mnemonic ∧ given.length = actual ∧
      span = ⟨file, name.span.start,
        ((name :: given).getLast (List.cons_ne_nil name given)).span.stop⟩

variable {source : List Char} {file : Nat} {line : SourceLine}

theorem SourceLine.In.slice (within : line.In source) :
    Text.Slice source line.start (line.start + Text.byteLength line.text) line.text := by
  obtain ⟨before, text, ending, after, split, _, _, _⟩ := within
  exact ⟨before, ending ++ after, by rw [split, List.append_assoc _ ending], rfl, rfl⟩

theorem Lexeme.Stands.covers {lexeme : Lexeme} {a b : Nat} {part : List Char}
    (stands : lexeme.Stands file line.start line.text a b part) (within : line.In source) :
    lexeme.span.Covers source file line part := by
  rw [stands.place]
  exact ⟨rfl, within.slice.inside stands.slice, stands.nonempty, Nat.le_add_right _ _,
    Nat.add_le_add_left stands.slice.stopLe _⟩

theorem Span.Covers.join {first second : Span} {part other : List Char}
    (left : first.Covers source file line part) (right : second.Covers source file line other)
    (le : first.stop ≤ second.start) :
    ∃ whole, Span.Covers source file line ⟨file, first.start, second.stop⟩ whole := by
  have proper := left.slice.le
  obtain ⟨whole, slice⟩ := left.slice.join right.slice (proper.trans le)
  have pos := left.slice.nonempty.mp left.nonempty
  have proper' := right.slice.le
  exact ⟨whole, rfl, slice, slice.nonempty.mpr (by omega), left.above, right.below⟩

theorem Span.hullRow {lexemes : List Lexeme} {span : Span} (proper : span.start ≤ span.stop)
    (after : ∀ lexeme ∈ lexemes, span.stop ≤ lexeme.span.start)
    (all : ∀ lexeme ∈ lexemes, lexeme.span.start ≤ lexeme.span.stop)
    (ordered : lexemes.Pairwise fun first second => first.span.stop ≤ second.span.start) :
    lexemes.foldl (fun s lexeme => s.hull lexeme.span) span =
      ⟨span.file, span.start, (lexemes.getLast?.map fun last => last.span.stop).getD span.stop⟩ := by
  induction lexemes generalizing span with
  | nil => rfl
  | cons lexeme lexemes ih =>
    obtain ⟨next, later⟩ := List.pairwise_cons.mp ordered
    have first := after lexeme List.mem_cons_self
    have wide := all lexeme List.mem_cons_self
    have joined : span.hull lexeme.span = ⟨span.file, span.start, lexeme.span.stop⟩ := by
      rw [hull, Nat.min_eq_left (proper.trans first), Nat.max_eq_right (first.trans wide)]
    -- The range up to the first lexeme takes the place of `span`.
    have row := @ih ⟨span.file, span.start, lexeme.span.stop⟩ (by dsimp only; omega) next
      (fun other mem => all other (List.mem_cons_of_mem _ mem)) later
    rw [List.foldl_cons, joined, row]
    cases lexemes <;> rfl

def Lexeme.Gives (lexeme : Lexeme) (operand : Operand) : Prop :=
  operand.span = lexeme.span ∧
    ∀ part, lexeme.token.ReadFrom part → part = operand.value.text.toList

namespace Reading

variable {lexemes : List Lexeme}

theorem operandGiven {slot : Slot} {lexeme : Lexeme} {value : Value}
    (ok : operandValue slot lexeme = .ok value) : lexeme.Gives ⟨value, lexeme.span⟩ := by
  obtain ⟨token, span⟩ := lexeme
  refine ⟨rfl, fun part spelling => ?_⟩
  cases slot <;> cases token <;> cases ok <;> exact spelling

theorem operandsGiven {shape : List Slot} {given : List Operand}
    (source : OperandsFrom shape lexemes given) :
    ∃ used, used.Sublist lexemes ∧ List.Forall₂ Lexeme.Gives used given := by
  induction source with
  | done => exact ⟨[], List.nil_sublist _, .nil⟩
  | @cons slot lexeme value shape lexemes given first next ih =>
    obtain ⟨used, sub, gives⟩ := ih
    exact ⟨lexeme :: used, sub.cons_cons lexeme, .cons (operandGiven first) gives⟩

theorem bodyGiven {opcode : Option Opcode} {given : List Operand}
    (ok : body lexemes = .ok (opcode, given)) :
    ∃ used, used.Sublist lexemes ∧ List.Forall₂ Lexeme.Gives used given := by
  cases bodyIff.mp ok with
  | absent => exact ⟨[], List.nil_sublist _, .nil⟩
  | present op span arity read =>
    obtain ⟨used, sub, gives⟩ := operandsGiven (operandsIff.mp read)
    exact ⟨used, sub.cons _, gives⟩

theorem givenPlaces {given : List Operand} (gives : List.Forall₂ Lexeme.Gives lexemes given) :
    given.map Operand.span = lexemes.map Lexeme.span ∧
      ∀ operand ∈ given, ∃ lexeme ∈ lexemes, lexeme.Gives operand := by
  induction gives with
  | nil => exact ⟨rfl, fun _ absent => (nomatch absent)⟩
  | cons first _ ih =>
    obtain ⟨spans, sources⟩ := ih
    refine ⟨by rw [List.map_cons, List.map_cons, first.1, spans], fun operand mem => ?_⟩
    rcases List.mem_cons.mp mem with rfl | later
    · exact ⟨_, List.mem_cons_self, first⟩
    · obtain ⟨lexeme, inside, same⟩ := sources operand later
      exact ⟨lexeme, List.mem_cons_of_mem _ inside, same⟩

end Reading

namespace SourceLine

theorem lexemeCovers (within : line.In source) {lexeme : Lexeme} (mem : lexeme ∈ line.lexemes file) :
    ∃ part, lexeme.span.Covers source file line part ∧ lexeme.token.ReadFrom part := by
  obtain ⟨a, b, part, stands⟩ := (lexedFrom file line.start line.text).stands lexeme mem
  exact ⟨part, stands.covers within, stands.spelling⟩

theorem lexemesOrdered (file : Nat) (line : SourceLine) : (line.lexemes file).Pairwise
    fun first second => first.span.stop ≤ second.span.start :=
  (lexedFrom file line.start line.text).ordered.2

theorem codePlaced (within : line.In source) {inst : Instruction}
    (ok : line.read file = .ok (.code inst)) : inst.Placed source file line := by
  obtain ⟨label, rest, comment, opcode, given, parts, read, rfl⟩ := Reading.lineParts ok
  obtain ⟨used, sub, gives⟩ := Reading.bodyGiven read
  obtain ⟨spans, sources⟩ := Reading.givenPlaces gives
  have front : (label.toList.map (fun l => (⟨.label l.1, l.2⟩ : Lexeme)) ++ used).Sublist
      (line.lexemes file) := by
    rw [lexemes, parts.whole, List.append_assoc]
    exact (sub.trans (List.sublist_append_left _ _)).append_left _
  refine ⟨rfl, rfl, rfl, fun text span same => ?_, fun operand mem => ?_, ?_⟩
  · obtain rfl : label = some (text, span) := same
    obtain ⟨part, covers, spelling⟩ := lexemeCovers within (front.subset List.mem_cons_self)
    exact spelling ▸ covers
  · obtain ⟨lexeme, inside, place, spelled⟩ := sources operand mem
    obtain ⟨part, covers, spelling⟩ :=
      lexemeCovers within (front.subset (List.mem_append_right _ inside))
    rw [place, ← spelled part spelling]
    exact covers
  · have ordered := (lexemesOrdered file line).sublist front
    rw [Instruction.places, spans]
    cases label <;> simpa [List.pairwise_map] using ordered

theorem lexemePlaced (within : line.In source) {lexeme : Lexeme}
    (mem : lexeme ∈ line.lexemes file) {issue : Issue}
    (marks : issue.marks.map Mark.span = [lexeme.span])
    (other : ∀ span mnemonic expected actual, issue ≠ .operandCount span mnemonic expected actual) :
    issue.Placed source file line where
  marked := by
    intro none
    rw [none] at marks
    contradiction
  marks := by
    intro mark marked
    have same : mark.span ∈ [lexeme.span] := marks ▸ List.mem_map_of_mem marked
    obtain ⟨part, covers, _⟩ := lexemeCovers within mem
    exact ⟨part, List.mem_singleton.mp same ▸ covers⟩
  count := fun span mnemonic expected actual same => absurd same (other span mnemonic expected actual)

theorem countPlaced (within : line.In source) {label comment : Option (String × Span)}
    {given : List Lexeme} {op : Opcode} {span : Span}
    (parts : Reading.Parts (line.lexemes file) label (⟨.name op.mnemonic, span⟩ :: given) comment) :
    Issue.Placed source file line (.operandCount
      (given.foldl (fun s lexeme => s.hull lexeme.span) span) op.mnemonic op.arity given.length) := by
  have sub := parts.sublist
  obtain ⟨after, ordered⟩ := List.pairwise_cons.mp ((lexemesOrdered file line).sublist sub)
  have covered : ∀ lexeme ∈ ⟨.name op.mnemonic, span⟩ :: given,
      ∃ part, lexeme.span.Covers source file line part := fun lexeme mem =>
    (lexemeCovers within (sub.subset mem)).imp fun _ => And.left
  obtain ⟨part, first⟩ := covered _ List.mem_cons_self
  have row := Span.hullRow first.slice.le after (fun lexeme mem =>
    (covered lexeme (List.mem_cons_of_mem _ mem)).choose_spec.slice.le) ordered
  rw [row, first.file]
  have whole : ∃ part, Span.Covers source file line
      ⟨file, span.start, (given.getLast?.map fun last => last.span.stop).getD span.stop⟩ part := by
    cases found : given.getLast? with
    | none => exact ⟨part, rfl, first.slice, first.nonempty, first.above, first.below⟩
    | some last =>
      have inside := List.mem_of_getLast? found
      obtain ⟨_, second⟩ := covered last (List.mem_cons_of_mem _ inside)
      exact first.join second (after last inside)
  refine ⟨List.cons_ne_nil _ _, fun mark mem => ?_, fun other mnemonic expected actual same => ?_⟩
  · cases List.mem_singleton.mp mem
    exact whole
  · cases same
    refine ⟨label, _, given, comment, parts, rfl, rfl, ?_⟩
    rcases List.eq_nil_or_concat given with rfl | ⟨others, last, rfl⟩ <;> simp

theorem faultPlaced (within : line.In source) {label comment : Option (String × Span)}
    {rest : List Lexeme} {issue : Issue}
    (parts : Reading.Parts (line.lexemes file) label rest comment)
    (fault : Reading.Fault rest issue) : issue.Placed source file line := by
  have sub := parts.sublist
  cases fault with
  | notMnemonic lexeme others =>
    exact lexemePlaced within (sub.subset List.mem_cons_self) rfl nofun
  | unknownMnemonic text span others =>
    exact lexemePlaced within (sub.subset List.mem_cons_self) rfl nofun
  | operand mem kind =>
    have inside := sub.subset (List.mem_cons_of_mem _ mem)
    rcases kind with rfl | rfl | rfl <;> exact lexemePlaced within inside rfl nofun
  | @operandCount op span given differ => exact countPlaced within parts

theorem issuePlaced (within : line.In source) {issues : List Issue}
    (failed : line.read file = .error issues) : ∀ issue ∈ issues, issue.Placed source file line := by
  have faults := Reading.lineFaults failed
  cases faults with
  | unknown some =>
    intro issue mem
    obtain ⟨lexeme, inside, found⟩ := List.mem_filterMap.mp mem
    split at found <;> cases found
    exact lexemePlaced within inside rfl nofun
  | known none parts fault =>
    intro issue mem
    cases List.mem_singleton.mp mem
    exact faultPlaced within parts fault

end SourceLine

namespace Program

theorem placesInSource (source : String) (file : Nat) :
    (∀ p, Program.parse source file = .ok p → ∀ inst ∈ p.instructions, ∃ line : SourceLine,
      line.In source.toList ∧ inst.Placed source.toList file line) ∧
    (∀ issues, Program.parse source file = .error issues → ∀ issue ∈ issues, ∃ line : SourceLine,
      line.In source.toList ∧ issue.Placed source.toList file line) := by
  constructor
  · intro p parsed inst mem
    obtain ⟨line, inside, read⟩ := instructionLine parsed mem
    have within := SourceLine.ofTextIn source.toList line inside
    exact ⟨line, within, SourceLine.codePlaced within read⟩
  · intro issues rejected issue mem
    rw [(rejectedIff.mp rejected).1] at mem
    obtain ⟨line, inside, found⟩ := List.mem_flatMap.mp mem
    have within := SourceLine.ofTextIn source.toList line inside
    refine ⟨line, within, ?_⟩
    unfold SourceLine.faults at found
    split at found
    · contradiction
    · rename_i failed
      exact SourceLine.issuePlaced within failed issue found

theorem indentedPlaced :
    (∃ p, Program.parse "# é\r\n\ttop:ADDi a b-4 # é\r\n" 3 = .ok p ∧ p.size = 1 ∧
      ∀ inst ∈ p.instructions, inst.span = ⟨3, 6, 26⟩ ∧ ∃ line : SourceLine,
        line.In "# é\r\n\ttop:ADDi a b-4 # é\r\n".toList ∧
        inst.Placed "# é\r\n\ttop:ADDi a b-4 # é\r\n".toList 3 line) ∧
    Program.parse "é\r\nADD a\tb #" 3 =
      .error [.unknownToken ⟨3, 0, 2⟩, .operandCount ⟨3, 4, 11⟩ "ADD" 3 2] ∧
    ∃ line : SourceLine, line.In "é\r\nADD a\tb #".toList ∧
      Issue.Placed "é\r\nADD a\tb #".toList 3 line (.operandCount ⟨3, 4, 11⟩ "ADD" 3 2) := by
  have ran : (Program.parse "# é\r\n\ttop:ADDi a b-4 # é\r\n" 3).toOption.any (fun p =>
      p.size = 1 ∧ ∀ inst ∈ p.instructions, inst.span = ⟨3, 6, 26⟩) = true := by decide +kernel
  have rejected : Program.parse "é\r\nADD a\tb #" 3 =
      .error [.unknownToken ⟨3, 0, 2⟩, .operandCount ⟨3, 4, 11⟩ "ADD" 3 2] := by decide +kernel
  obtain ⟨p, parsed, ran⟩ := Allocation.okOf ran
  obtain ⟨size, spans⟩ := of_decide_eq_true ran
  refine ⟨⟨p, parsed, size, fun inst mem => ⟨spans inst mem, ?_⟩⟩, rejected, ?_⟩
  · exact (placesInSource _ 3).1 p parsed inst mem
  · exact (placesInSource _ 3).2 _ rejected _ (by simp)

end Program

end Regalloc
