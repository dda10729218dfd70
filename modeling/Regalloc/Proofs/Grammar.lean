import Regalloc.Proofs.Lines
import Regalloc.Proofs.LiveTogether

/-! The grammar of lines. A line of code is accepted just when its tokens are an optional label, an
optional operation with its operands and an optional comment, and not a comment alone. What an
accepted line gives has the shape of its operation. -/
namespace Regalloc

def Slot.Takes : Slot → Token → Prop
  | .immediate, .number _ => True
  | _, .name _ => True
  | _, _ => False

namespace Token

inductive Operation : List Token → Prop where
  | absent : Operation []
  | present (op : Opcode) {given : List Token} (fits : List.Forall₂ Slot.Takes op.shape given) :
      Operation (.name op.mnemonic :: given)

inductive Sentence : List Token → Prop where
  | mk (label : Option String) {operation : List Token} (comment : Option String)
      (well : Operation operation) (present : label.isSome = true ∨ operation ≠ []) :
      Sentence (label.toList.map .label ++ operation ++ comment.toList.map .comment)

def IsWord : Token → Prop
  | name _ | number _ => True
  | _ => False

theorem wordOfTaken {slot : Slot} {token : Token} (fit : slot.Takes token) : token.IsWord := by
  cases token with
  | name text => trivial
  | number text => trivial
  | _ => cases slot <;> exact fit.elim

variable {tokens : List Token}

theorem Operation.words (well : Operation tokens) : ∀ token ∈ tokens, token.IsWord := by
  have taken : ∀ {shape : List Slot} {given : List Token}, List.Forall₂ Slot.Takes shape given →
      ∀ token ∈ given, token.IsWord := by
    intro shape given fits token mem
    induction fits with
    | nil => contradiction
    | cons fit _ ih =>
      rcases List.mem_cons.mp mem with rfl | later
      · exact wordOfTaken fit
      · exact ih later
  cases well with
  | absent => exact fun _ absent => nomatch absent
  | present op fits => exact List.forall_mem_cons.mpr ⟨trivial, taken fits⟩

theorem Sentence.known (sentence : Sentence tokens) : .unknown ∉ tokens := by
  obtain ⟨label, comment, well, _⟩ := sentence
  intro mem
  rcases List.mem_append.mp mem with front | last
  · rcases List.mem_append.mp front with first | inside
    · obtain ⟨_, _, same⟩ := List.mem_map.mp first
      contradiction
    · exact well.words _ inside
  · obtain ⟨_, _, same⟩ := List.mem_map.mp last
    contradiction

end Token

namespace Reading

variable {lexemes : List Lexeme}

theorem operandValueTaken {slot : Slot} {lexeme : Lexeme} :
    (∃ value, operandValue slot lexeme = .ok value) ↔ slot.Takes lexeme.token := by
  obtain ⟨token, span⟩ := lexeme
  cases slot <;> cases token <;> simp [operandValue, Slot.Takes]

theorem operandsTaken {shape : List Slot} (length : lexemes.length = shape.length) :
    (∃ given, operands shape lexemes = .ok given) ↔
      List.Forall₂ Slot.Takes shape (lexemes.map Lexeme.token) := by
  simp only [operandsIff]
  induction shape generalizing lexemes with
  | nil =>
    cases List.length_eq_zero_iff.mp length
    exact ⟨fun _ => .nil, fun _ => ⟨[], .done (.inl rfl)⟩⟩
  | cons slot shape ih =>
    cases lexemes with
    | nil => contradiction
    | cons lexeme lexemes =>
      rw [List.map_cons, List.forall₂_cons, ← operandValueTaken, ← ih (Nat.succ.inj length)]
      constructor
      · rintro ⟨given, source⟩
        cases source with
        | done ended => rcases ended with ended | ended <;> contradiction
        | cons first next => exact ⟨⟨_, first⟩, ⟨_, next⟩⟩
      · rintro ⟨⟨value, first⟩, ⟨rest, next⟩⟩
        exact ⟨_, .cons first next⟩

theorem bodyTaken : (∃ parts, body lexemes = .ok parts) ↔
    Token.Operation (lexemes.map Lexeme.token) := by
  constructor
  · rintro ⟨⟨opcode, given⟩, ok⟩
    cases bodyIff.mp ok with
    | absent => exact .absent
    | present op span arity read => exact .present op ((operandsTaken arity).mp ⟨_, read⟩)
  · intro well
    generalize tokens : lexemes.map Lexeme.token = given at well
    cases well with
    | absent =>
      cases List.map_eq_nil_iff.mp tokens
      exact ⟨_, rfl⟩
    | present op fits =>
      obtain ⟨⟨token, span⟩, rest, rfl, same, rfl⟩ := List.map_eq_cons_iff.mp tokens
      cases same
      have arity : rest.length = op.arity :=
        (List.length_map Lexeme.token).symm.trans fits.length_eq.symm
      obtain ⟨given, read⟩ := (operandsTaken arity).mpr fits
      exact ⟨(some op, given), bodyIff.mpr (.present op span arity read)⟩

structure Parts (lexemes : List Lexeme) (label : Option (String × Span)) (rest : List Lexeme)
    (comment : Option (String × Span)) : Prop where
  whole : lexemes = label.toList.map (fun l => ⟨.label l.1, l.2⟩) ++ rest ++
    comment.toList.map (fun c => ⟨.comment c.1, c.2⟩)
  uncommented : splitComment lexemes =
    (label.toList.map (fun l => ⟨.label l.1, l.2⟩) ++ rest, comment.map Prod.fst)
  unlabelled : splitLabel (label.toList.map (fun l => ⟨.label l.1, l.2⟩) ++ rest) = (label, rest)

theorem parts (lexemes : List Lexeme) : ∃ label rest comment, Parts lexemes label rest comment := by
  obtain ⟨kept, comment, uncommented, split⟩ : ∃ kept, ∃ comment : Option (String × Span),
      splitComment lexemes = (kept, comment.map Prod.fst) ∧
        lexemes = kept ++ comment.toList.map (fun c => ⟨.comment c.1, c.2⟩) := by
    rcases splitCommentSource lexemes with plain | ⟨kept, text, span, split, found⟩
    · exact ⟨lexemes, none, plain, (List.append_nil _).symm⟩
    · exact ⟨kept, some (text, span), found, split⟩
  rcases splitLabelSource kept with plain | ⟨text, span, rest, rfl, found⟩
  · exact ⟨none, kept, comment, split, uncommented, plain⟩
  · exact ⟨some (text, span), rest, comment, split, uncommented, found⟩

section Parts

variable {label comment : Option (String × Span)} {rest : List Lexeme}
  (parts : Parts lexemes label rest comment) {number : Nat} {span : Span} {text : String}
include parts

theorem Parts.sublist : rest.Sublist lexemes := by
  rw [parts.whole]
  exact (List.sublist_append_right _ _).trans (List.sublist_append_left _ _)

theorem Parts.unknowns : unknowns lexemes = unknowns rest ∧
    Reading.unknowns (label.toList.map (fun l => ⟨.label l.1, l.2⟩) ++ rest) = Reading.unknowns rest := by
  have front : Reading.unknowns (label.toList.map (fun l => ⟨.label l.1, l.2⟩) ++ rest) =
      Reading.unknowns rest := by
    cases label <;> simp [Reading.unknowns]
  refine ⟨?_, front⟩
  rw [← front, parts.whole]
  cases comment <;> simp [Reading.unknowns]

theorem Parts.instruction : instruction number span text lexemes =
    match Reading.unknowns lexemes with
    | [] =>
      match body rest with
      | .ok (opcode, operands) =>
        .ok ⟨number, span, text, label, opcode, operands, comment.map Prod.fst⟩
      | .error issue => .error [issue]
    | issues => .error issues := by
  obtain ⟨all, front⟩ := parts.unknowns
  rw [all]
  cases found : Reading.unknowns rest with
  | cons issue issues =>
    rw [found] at front
    simp only [Reading.instruction, parts.uncommented, front]
  | nil =>
    rw [found] at front
    cases read : body rest <;>
      simp only [Reading.instruction, parts.uncommented, parts.unlabelled, front, read]

end Parts

inductive Fault : List Lexeme → Issue → Prop where
  | notMnemonic (lexeme : Lexeme) (rest : List Lexeme) :
      Fault (lexeme :: rest) (.notMnemonic lexeme.span)
  | unknownMnemonic (text : String) (span : Span) (rest : List Lexeme) :
      Fault (⟨.name text, span⟩ :: rest) (.unknownMnemonic span text)
  | operandCount {op : Opcode} (span : Span) {rest : List Lexeme} (differ : rest.length ≠ op.arity) :
      Fault (⟨.name op.mnemonic, span⟩ :: rest)
        (.operandCount (rest.foldl (fun s lexeme => s.hull lexeme.span) span) op.mnemonic op.arity
          rest.length)
  | operand {text : String} {span : Span} {rest : List Lexeme} {lexeme : Lexeme} {issue : Issue}
      (mem : lexeme ∈ rest) (kind : issue = .notRegister lexeme.span ∨
        issue = .notImmediate lexeme.span ∨ issue = .notLabel lexeme.span) :
      Fault (⟨.name text, span⟩ :: rest) issue

theorem Fault.otherCode {issue : Issue} (fault : Fault lexemes issue) : issue.code ≠ "EP00" := by
  cases fault with
  | operand _ kind => rcases kind with rfl | rfl | rfl <;> simp [Issue.code]
  | _ => simp [Issue.code]

theorem operandsFault {shape : List Slot} {issue : Issue}
    (failed : operands shape lexemes = .error issue) : ∃ lexeme ∈ lexemes,
      issue = .notRegister lexeme.span ∨ issue = .notImmediate lexeme.span ∨
        issue = .notLabel lexeme.span := by
  induction shape generalizing lexemes with
  | nil =>
    rw [operands.eq_def] at failed
    contradiction
  | cons slot shape ih =>
    cases lexemes with
    | nil => contradiction
    | cons lexeme lexemes =>
      simp only [operands, bind, Except.bind] at failed
      split at failed
      · rename_i wrong
        cases Except.error.inj failed
        refine ⟨lexeme, List.mem_cons_self, ?_⟩
        obtain ⟨token, span⟩ := lexeme
        cases slot <;> cases token <;> simp only [operandValue] at wrong <;>
          first | contradiction | (cases wrong; simp)
      · split at failed <;> try contradiction
        rename_i wrong
        cases Except.error.inj failed
        obtain ⟨other, mem, kind⟩ := ih wrong
        exact ⟨other, List.mem_cons_of_mem _ mem, kind⟩

theorem bodyFault {issue : Issue} (failed : body lexemes = .error issue) : Fault lexemes issue := by
  unfold body at failed
  split at failed
  · contradiction
  · rename_i text span rest
    split at failed
    · cases Except.error.inj failed
      exact .unknownMnemonic text span rest
    · rename_i op found
      cases Opcode.ofMnemonicIff.mp found
      split at failed
      · simp only [bind, Except.bind] at failed
        split at failed <;> try contradiction
        rename_i wrong
        cases Except.error.inj failed
        obtain ⟨lexeme, mem, kind⟩ := operandsFault wrong
        exact .operand mem kind
      · rename_i differ
        cases Except.error.inj failed
        exact .operandCount span differ
  · rename_i token span rest _
    cases Except.error.inj failed
    exact .notMnemonic ⟨token, span⟩ rest

variable {number : Nat} {span : Span} {text : String}

inductive Faults (lexemes : List Lexeme) : List Issue → Prop where
  | unknown (some : unknowns lexemes ≠ []) : Faults lexemes (unknowns lexemes)
  | known {label comment : Option (String × Span)} {rest : List Lexeme} {issue : Issue}
      (none : unknowns lexemes = []) (parts : Parts lexemes label rest comment)
      (fault : Fault rest issue) : Faults lexemes [issue]

theorem Faults.nonempty {issues : List Issue} (faults : Faults lexemes issues) : issues ≠ [] := by
  cases faults with
  | unknown some => exact some
  | known _ _ _ => exact List.cons_ne_nil _ _

theorem instructionFaults {issues : List Issue}
    (failed : instruction number span text lexemes = .error issues) : Faults lexemes issues := by
  obtain ⟨label, rest, comment, parts⟩ := parts lexemes
  rw [parts.instruction] at failed
  split at failed
  · rename_i none
    split at failed <;> try contradiction
    rename_i wrong
    cases Except.error.inj failed
    exact .known none parts (bodyFault wrong)
  · rename_i some
    cases Except.error.inj failed
    exact .unknown some

theorem lineParts {cs : List Char} {file offset : Nat} {inst : Instruction}
    (ok : line file number offset cs = .ok (.code inst)) :
    ∃ label rest comment opcode given, Parts (lex cs offset file) label rest comment ∧
      body rest = .ok (opcode, given) ∧
      inst = ⟨number, ⟨file, offset, offset + Text.byteLength cs⟩, String.ofList (Text.trim cs),
        label, opcode, given, comment.map Prod.fst⟩ := by
  by_cases verbatim : Text.Verbatim cs
  · rw [lineVerbatim verbatim] at ok
    cases ok
  · rw [lineCode verbatim] at ok
    split at ok <;> cases ok
    rename_i read
    obtain ⟨label, rest, comment, parts⟩ := parts (lex cs offset file)
    rw [parts.instruction] at read
    split at read <;> try contradiction
    split at read <;> cases read
    rename_i opcode given read
    exact ⟨label, rest, comment, opcode, given, parts, read, rfl⟩

theorem lineFaults {cs : List Char} {file offset : Nat} {issues : List Issue}
    (failed : line file number offset cs = .error issues) : Faults (lex cs offset file) issues := by
  by_cases verbatim : Text.Verbatim cs
  · rw [lineVerbatim verbatim] at failed
    contradiction
  · rw [lineCode verbatim] at failed
    split at failed <;> try contradiction
    rename_i found wrong
    cases Except.error.inj failed
    exact instructionFaults wrong

theorem instructionTaken : (∃ inst, instruction number span text lexemes = .ok inst) ↔
    ∃ (label : Option String) (operation : List Token) (comment : Option String),
      Token.Operation operation ∧ lexemes.map Lexeme.token =
        label.toList.map .label ++ operation ++ comment.toList.map .comment := by
  constructor
  · rintro ⟨inst, ok⟩
    obtain ⟨label, rest, comment, parts⟩ := parts lexemes
    rw [parts.instruction] at ok
    split at ok <;> try contradiction
    split at ok <;> try contradiction
    rename_i opcode given read
    refine ⟨label.map Prod.fst, rest.map Lexeme.token, comment.map Prod.fst,
      bodyTaken.mp ⟨_, read⟩, ?_⟩
    rw [parts.whole]
    cases label <;> cases comment <;> simp
  · rintro ⟨label, operation, comment, well, whole⟩
    have words := well.words
    obtain ⟨kept, uncommented, front⟩ := splitCommentRead (fun token mem text same => by
      subst same
      rcases List.mem_append.mp mem with first | inside
      · obtain ⟨_, _, same⟩ := List.mem_map.mp first
        contradiction
      · exact words _ inside) whole
    obtain ⟨found, rest, unlabelled, _, body_⟩ := splitLabelRead (fun token head text same => by
      subst same
      exact words _ (List.mem_of_head? head)) front
    obtain ⟨⟨opcode, given⟩, read⟩ := bodyTaken.mpr (body_ ▸ well)
    have clean : unknowns kept = [] := by
      refine unknownsNone.mpr fun lexeme mem unknown => ?_
      have inside : lexeme.token ∈ kept.map Lexeme.token := List.mem_map_of_mem mem
      rw [front, unknown] at inside
      rcases List.mem_append.mp inside with first | inside
      · obtain ⟨_, _, same⟩ := List.mem_map.mp first
        contradiction
      · exact words _ inside
    exact ⟨⟨number, span, text, found, opcode, given, comment⟩,
      by simp [instruction, uncommented, clean, unlabelled, read]⟩

theorem verbatimOnly {cs : List Char} {file number offset : Nat} {kept : String}
    (ok : line file number offset cs = .ok (.verbatim kept)) : Text.Verbatim cs := by
  refine Classical.byContradiction fun code => ?_
  rw [lineCode code] at ok
  split at ok <;> cases ok

theorem lineTaken {cs : List Char} (code : ¬ Text.Verbatim cs) {file number offset : Nat} :
    (∃ inst, line file number offset cs = .ok (.code inst)) ↔
      Token.Sentence ((lex cs offset file).map Lexeme.token) := by
  have first : ∃ c ∈ (cs.dropWhile Text.isBlank).head?, c ≠ '#' := by
    simpa [Text.Verbatim] using code
  obtain ⟨lexeme, lexemes, split, plain⟩ := lexFromHead file cs offset first
  have read : (∃ inst, line file number offset cs = .ok (.code inst)) ↔
      ∃ inst, instruction number ⟨file, offset, offset + Text.byteLength cs⟩
        (String.ofList (Text.trim cs)) (lex cs offset file) = .ok inst := by
    rw [lineCode code]
    constructor
    · rintro ⟨inst, ok⟩
      split at ok <;> try contradiction
      rename_i found same
      exact ⟨found, same⟩
    · rintro ⟨inst, ok⟩
      exact ⟨inst, by rw [ok]⟩
  rw [read, instructionTaken]
  constructor
  · rintro ⟨label, operation, comment, well, whole⟩
    rw [whole]
    refine .mk label comment well (Classical.byContradiction fun alone => ?_)
    simp only [not_or, Bool.not_eq_true, Option.isSome_eq_false_iff, Option.isNone_iff_eq_none,
      ne_eq, not_not] at alone
    obtain ⟨rfl, rfl⟩ := alone
    rw [lex, split] at whole
    cases comment with
    | none => contradiction
    | some text => exact plain text (List.cons.inj whole).1
  · intro sentence
    generalize (lex cs offset file).map Lexeme.token = tokens at sentence
    obtain ⟨label, comment, well, _⟩ := sentence
    exact ⟨label, _, comment, well, rfl⟩

end Reading

theorem Value.labelOfFits {slot : Slot} {value : Value} (fits : Value.Fits slot value) :
    value.label?.isSome = true ↔ .label = slot := by
  cases slot <;> cases value <;> first | exact fits.elim | simp [Value.label?]

theorem Opcode.labelInShape (op : Opcode) :
    .label ∈ op.shape ↔ op = .jump ∨ op = .call ∨ ∃ condition, op = .branch condition := by
  rcases op with (_ | _) | (_ | _) | _ | _ | _ | _ | _ | _ | _ | (_ | _) | _ | _ | _ <;>
    simp [Opcode.shape, Alu.isShift]

namespace Instruction

structure Shaped (inst : Instruction) : Prop where
  present : inst.label.isSome = true ∨ inst.opcode.isSome = true
  operands : List.Forall₂ Value.Fits inst.shape (inst.operands.map Operand.value)
  kills : inst.kills.length ≤ 1
  gens : inst.gens.length ≤ 2
  destination : inst.destination.isSome = true ↔ inst.opcode = some .jump ∨
    inst.opcode = some .call ∨ ∃ condition, inst.opcode = some (.branch condition)

theorem labelAmong {shape : List Slot} {operands : List Operand}
    (fits : List.Forall₂ Value.Fits shape (operands.map Operand.value)) :
    (operands.findSome? fun operand =>
      operand.value.label?.map fun text => (text, operand.span)).isSome = true ↔ .label ∈ shape := by
  induction operands generalizing shape with
  | nil =>
    cases fits
    simp
  | cons operand operands ih =>
    obtain ⟨slot, shape, fit, rest, rfl⟩ := List.forall₂_cons_right_iff.mp fits
    have label := Value.labelOfFits fit
    rw [List.findSome?_cons, List.mem_cons, ← ih rest, ← label]
    cases operand.value.label? <;> simp

theorem shapedOf {inst : Instruction} (readable : inst.statement.Readable) : inst.Shaped where
  present := by simpa [statement] using readable.present
  operands := readable.operands
  kills := inst.killsLength
  gens := inst.gensLength
  destination := by
    rw [destination, labelAmong readable.operands]
    cases coded : inst.opcode with
    | none => simp [statement, coded]
    | some op => simpa [statement, coded] using op.labelInShape

end Instruction

namespace Reading

theorem parsedShaped {source : String} {file : Nat} {p : Program}
    (parsed : Program.parse source file = .ok p) : ∀ inst ∈ p.instructions, inst.Shaped := by
  intro inst mem
  obtain ⟨l, inside, found⟩ := List.mem_filterMap.mp mem
  cases l with
  | verbatim text => contradiction
  | code other =>
    cases Option.some.inj found
    exact Instruction.shapedOf (Program.parseReadable parsed _ inside)

theorem grammarExact :
    (∀ (cs : List Char) (file number offset : Nat),
      ((∃ text, line file number offset cs = .ok (.verbatim text)) ↔ Text.Verbatim cs) ∧
      (Text.Verbatim cs → line file number offset cs = .ok (.verbatim (String.ofList cs))) ∧
      (¬ Text.Verbatim cs → ((∃ inst, line file number offset cs = .ok (.code inst)) ↔
        .unknown ∉ (lex cs offset file).map Lexeme.token ∧
          Token.Sentence ((lex cs offset file).map Lexeme.token)))) ∧
    ∀ (source : String) (file : Nat) (p : Program), Program.parse source file = .ok p →
      ∀ inst ∈ p.instructions, inst.Shaped := by
  refine ⟨fun cs file number offset => ⟨⟨?_, ?_⟩, ?_, ?_⟩, fun _ _ _ => parsedShaped⟩
  · exact fun ⟨_, kept⟩ => verbatimOnly kept
  · exact fun verbatim => ⟨_, lineVerbatim verbatim file number offset⟩
  · exact fun verbatim => lineVerbatim verbatim file number offset
  · intro code
    rw [lineTaken code]
    exact ⟨fun sentence => ⟨sentence.known, sentence⟩, And.right⟩

theorem branchSentence :
    Text.Verbatim "\u00a0# é".toList ∧
    line 0 1 0 "\u00a0# é".toList = .ok (.verbatim "\u00a0# é") ∧
    ¬ Text.Verbatim "a: JINF b c a# é".toList ∧
    (∃ inst, line 0 1 0 "a: JINF b c a# é".toList = .ok (.code inst)) ∧
    ∃ p, Program.parse "a: JINF b c a# é" 0 = .ok p ∧ p.size = 1 ∧
      ∀ inst ∈ p.instructions, inst.Shaped := by
  have kept : Text.Verbatim "\u00a0# é".toList :=
    Text.verbatimIff.mp (by decide +kernel)
  have code : ¬ Text.Verbatim "a: JINF b c a# é".toList := fun verbatim =>
    absurd (Text.verbatimIff.mpr verbatim) (by decide +kernel)
  have tokens : (lex "a: JINF b c a# é".toList 0 0).map Lexeme.token =
      [.label "a", .name "JINF", .name "b", .name "c", .name "a", .comment "# é"] := by
    decide +kernel
  have fits : List.Forall₂ Slot.Takes (Opcode.branch .less).shape [.name "b", .name "c", .name "a"] :=
    .cons trivial (.cons trivial (.cons trivial .nil))
  have sentence : Token.Sentence ((lex "a: JINF b c a# é".toList 0 0).map Lexeme.token) := by
    rw [tokens]
    exact .mk (some "a") (some "# é") (.present (.branch .less) fits) (.inl rfl)
  have ran : (Program.parse "a: JINF b c a# é" 0).toOption.any (fun p => p.size = 1) = true := by
    decide +kernel
  obtain ⟨p, parsed, size⟩ := Allocation.okOf ran
  exact ⟨kept, (grammarExact.1 _ 0 1 0).2.1 kept, code,
    ((grammarExact.1 _ 0 1 0).2.2 code).mpr ⟨sentence.known, sentence⟩, p, parsed,
    of_decide_eq_true size, grammarExact.2 _ 0 p parsed⟩

end Reading

end Regalloc
