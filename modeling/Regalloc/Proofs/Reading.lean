import Regalloc.Proofs.Printing

/-! Reading against writing. A text that parses has readable lines only, and readable lines that are
written one below the other parse to just these lines. -/
namespace Regalloc

namespace Reading

variable {lexemes : List Lexeme} {s : Statement} {shape : List Slot} {given : List Operand}
  {opcode : Option Opcode}

inductive OperandsFrom : List Slot → List Lexeme → List Operand → Prop where
  | done {shape : List Slot} {lexemes : List Lexeme} (ended : shape = [] ∨ lexemes = []) :
      OperandsFrom shape lexemes []
  | cons {slot : Slot} {lexeme : Lexeme} {value : Value} {shape : List Slot}
      {lexemes : List Lexeme} {given : List Operand}
      (first : operandValue slot lexeme = .ok value) (next : OperandsFrom shape lexemes given) :
      OperandsFrom (slot :: shape) (lexeme :: lexemes) (⟨value, lexeme.span⟩ :: given)

theorem operandsIff : operands shape lexemes = .ok given ↔ OperandsFrom shape lexemes given := by
  constructor
  · intro ok
    induction shape generalizing lexemes given with
    | nil =>
      rw [operands.eq_def] at ok
      cases ok
      exact .done (.inl rfl)
    | cons slot shape ih =>
      cases lexemes with
      | nil =>
        cases ok
        exact .done (.inr rfl)
      | cons lexeme lexemes =>
        simp only [operands, bind, Except.bind] at ok
        split at ok <;> try contradiction
        rename_i value first
        split at ok <;> cases ok
        rename_i rest read
        exact .cons first (ih read)
  · intro source
    induction source with
    | done ended =>
      rw [operands.eq_def]
      rcases ended with rfl | rfl <;> simp
    | cons first next ih => simp [operands, first, ih, bind, Except.bind]

inductive BodyFrom : List Lexeme → Option Opcode → List Operand → Prop where
  | absent : BodyFrom [] none []
  | present (op : Opcode) (span : Span) {rest : List Lexeme} {given : List Operand}
      (arity : rest.length = op.arity) (read : operands op.shape rest = .ok given) :
      BodyFrom (⟨.name op.mnemonic, span⟩ :: rest) (some op) given

theorem bodyIff : body lexemes = .ok (opcode, given) ↔ BodyFrom lexemes opcode given := by
  constructor
  · intro ok
    unfold body at ok
    split at ok <;> try contradiction
    · cases ok
      exact .absent
    · rename_i text span rest
      split at ok <;> try contradiction
      rename_i op found
      split at ok <;> try contradiction
      rename_i arity
      simp only [bind, Except.bind] at ok
      split at ok <;> cases ok
      rename_i read
      cases Opcode.ofMnemonicIff.mp found
      exact .present op span arity read
  · rintro (_ | ⟨op, span, arity, read⟩)
    · rfl
    · simp [body, Opcode.ofMnemonicMnemonic, arity, read, bind, Except.bind]

theorem operandsRead {values : List Value} (fits : List.Forall₂ Value.Fits shape values)
    (spelled : lexemes.map Lexeme.token = values.map Value.token) :
    ∃ given, operands shape lexemes = .ok given ∧ given.map Operand.value = values := by
  induction fits generalizing lexemes with
  | nil => exact ⟨[], operandsIff.mpr (.done (.inl rfl)), rfl⟩
  | @cons slot value shape values fit fits ih =>
    cases lexemes with
    | nil => contradiction
    | cons lexeme lexemes =>
      obtain ⟨token, span⟩ := lexeme
      rw [List.map_cons, List.map_cons] at spelled
      obtain ⟨same, rest⟩ := List.cons.inj spelled
      obtain ⟨given, read, values⟩ := ih rest
      have first := (Value.tokenOfFits fit span).2
      rw [← show token = value.token from same] at first
      exact ⟨⟨value, span⟩ :: given, operandsIff.mpr (.cons first (operandsIff.mp read)),
        by simp [values]⟩

theorem operandsFit (spelled : ∀ lexeme ∈ lexemes, lexeme.token.Spelled)
    (length : lexemes.length = shape.length) (source : OperandsFrom shape lexemes given) :
    List.Forall₂ Value.Fits shape (given.map Operand.value) := by
  induction source with
  | @done shape lexemes ended =>
    have empty : shape = [] := by
      rcases ended with none | rfl
      · exact none
      · exact List.length_eq_zero_iff.mp length.symm
    rw [empty]
    exact .nil
  | cons first next ih =>
    obtain ⟨head, tail⟩ := List.forall_mem_cons.mp spelled
    exact .cons (Value.fitsOfToken head first) (ih tail (Nat.succ.inj length))

theorem bodyRead (readable : s.Readable) (spelled : lexemes.map Lexeme.token = s.bodyTokens) :
    ∃ given, body lexemes = .ok (s.opcode, given) ∧ given.map Operand.value = s.operands := by
  have fits := readable.operands
  unfold Statement.bodyTokens at spelled
  cases coded : s.opcode with
  | none =>
    rw [coded] at spelled fits
    cases List.map_eq_nil_iff.mp spelled
    exact ⟨[], rfl, (List.forall₂_nil_left_iff.mp fits).symm⟩
  | some op =>
    rw [coded] at spelled fits
    cases lexemes with
    | nil => contradiction
    | cons lexeme lexemes =>
      obtain ⟨token, span⟩ := lexeme
      obtain ⟨same, rest⟩ := List.cons.inj spelled
      cases same
      obtain ⟨given, read, values⟩ := operandsRead fits rest
      have arity : lexemes.length = op.arity := by
        have lengths := congrArg List.length rest
        rw [List.length_map, List.length_map] at lengths
        exact lengths.trans fits.length_eq.symm
      exact ⟨given, bodyIff.mpr (.present op span arity read), values⟩

theorem bodyFits (spelled : ∀ lexeme ∈ lexemes, lexeme.token.Spelled)
    (ok : body lexemes = .ok (opcode, given)) :
    List.Forall₂ Value.Fits ((opcode.map Opcode.shape).getD []) (given.map Operand.value) ∧
      (lexemes ≠ [] → opcode.isSome = true) := by
  cases bodyIff.mp ok with
  | absent => exact ⟨.nil, fun nonempty => absurd rfl nonempty⟩
  | present op span arity read =>
    have fits := operandsFit (List.forall_mem_cons.mp spelled).2 arity (operandsIff.mp read)
    exact ⟨fits, fun _ => rfl⟩

theorem splitCommentNone (plain : ∀ lexeme ∈ lexemes, ∀ text, lexeme.token ≠ .comment text) :
    splitComment lexemes = (lexemes, none) := by
  unfold splitComment
  split
  · rename_i text span last
    exact absurd rfl (plain _ (List.mem_of_getLast? last) text)
  · rfl

theorem splitCommentLast (text : String) (span : Span) :
    splitComment (lexemes ++ [⟨.comment text, span⟩]) = (lexemes, some text) := by
  simp [splitComment]

theorem splitCommentSource (lexemes : List Lexeme) :
    splitComment lexemes = (lexemes, none) ∨
      ∃ kept text span, lexemes = kept ++ [⟨.comment text, span⟩] ∧
        splitComment lexemes = (kept, some text) := by
  rcases List.eq_nil_or_concat lexemes with rfl | ⟨kept, ⟨token, span⟩, rfl⟩
  · exact .inl rfl
  · rw [List.concat_eq_append]
    cases token with
    | comment text => exact .inr ⟨kept, text, span, rfl, splitCommentLast text span⟩
    | _ => exact .inl (by simp [splitComment])

theorem splitCommentRead {front : List Token} {comment : Option String}
    (plain : ∀ token ∈ front, ∀ text, token ≠ .comment text)
    (spelled : lexemes.map Lexeme.token = front ++ comment.toList.map Token.comment) :
    ∃ kept, splitComment lexemes = (kept, comment) ∧ kept.map Lexeme.token = front := by
  cases comment with
  | none =>
    rw [Option.toList_none, List.map_nil, List.append_nil] at spelled
    refine ⟨lexemes, splitCommentNone fun lexeme mem => ?_, spelled⟩
    exact plain _ (spelled ▸ List.mem_map_of_mem mem)
  | some text =>
    obtain ⟨kept, last, rfl, front_, back⟩ := List.map_eq_append_iff.mp spelled
    obtain ⟨⟨token, span⟩, tail, rfl, same, empty⟩ := List.map_eq_cons_iff.mp back
    cases List.map_eq_nil_iff.mp empty
    cases same
    exact ⟨kept, splitCommentLast text span, front_⟩

theorem splitLabelRead {label : Option String} {rest : List Token}
    (plain : ∀ token ∈ rest.head?, ∀ text, token ≠ .label text)
    (spelled : lexemes.map Lexeme.token = label.toList.map Token.label ++ rest) :
    ∃ found kept, splitLabel lexemes = (found, kept) ∧ found.map Prod.fst = label ∧
      kept.map Lexeme.token = rest := by
  cases label with
  | none =>
    refine ⟨none, lexemes, ?_, rfl, spelled⟩
    unfold splitLabel
    split
    · rename_i text span tail
      refine absurd rfl (plain (.label text) ?_ text)
      rw [← show _ = rest from spelled]
      rfl
    · rfl
  | some text =>
    obtain ⟨⟨token, span⟩, tail, rfl, same, kept⟩ := List.map_eq_cons_iff.mp spelled
    cases same
    exact ⟨some (text, span), tail, rfl, rfl, kept⟩

theorem unknownsNone : unknowns lexemes = [] ↔ ∀ lexeme ∈ lexemes, lexeme.token ≠ .unknown := by
  simp [unknowns]

theorem splitLabelSource (lexemes : List Lexeme) :
    (splitLabel lexemes = (none, lexemes)) ∨
      ∃ text span kept, lexemes = ⟨.label text, span⟩ :: kept ∧
        splitLabel lexemes = (some (text, span), kept) := by
  unfold splitLabel
  split
  · exact .inr ⟨_, _, _, rfl, rfl⟩
  · exact .inl rfl

theorem instructionRead (readable : s.Readable) (spelled : lexemes.map Lexeme.token = s.tokens)
    (number : Nat) (span : Span) (text : String) :
    ∃ inst, instruction number span text lexemes = .ok inst ∧ inst.statement = s := by
  have known := s.tokensSpelled readable
  obtain ⟨kept, uncommented, rest⟩ :=
    splitCommentRead s.frontTokens spelled
  obtain ⟨label, coded, unlabelled, same, body_⟩ := splitLabelRead s.bodyHead rest
  obtain ⟨given, read, values⟩ := bodyRead readable body_
  have clean : unknowns kept = [] := by
    refine unknownsNone.mpr fun lexeme mem unknown => ?_
    have inside : lexeme.token ∈ s.tokens := by
      rw [Statement.tokens, ← rest]
      exact List.mem_append_left _ (List.mem_map_of_mem mem)
    have none := known _ inside
    rw [unknown] at none
    exact none
  refine ⟨⟨number, span, text, label, s.opcode, given, s.comment⟩, ?_, ?_⟩
  · simp [instruction, uncommented, clean, unlabelled, read]
  · simp [Instruction.statement, same, values]

theorem instructionReadable {lexeme : Lexeme} {inst : Instruction} {number : Nat} {span : Span}
    {text : String}
    (spelled : ∀ l ∈ lexeme :: lexemes, l.token = .unknown ∨ l.token.Spelled)
    (first : ∀ text, lexeme.token ≠ .comment text)
    (ok : instruction number span text (lexeme :: lexemes) = .ok inst) :
    inst.statement.Readable := by
  have commented : ∃ kept comment, splitComment (lexeme :: lexemes) = (kept, comment) ∧
      kept ≠ [] ∧ (∀ l ∈ kept, l ∈ lexeme :: lexemes) ∧
      ∀ text ∈ comment, Token.CommentText text.toList := by
    rcases splitCommentSource (lexeme :: lexemes) with whole | ⟨kept, text, span, split, found⟩
    · exact ⟨_, _, whole, List.cons_ne_nil _ _, fun _ mem => mem, fun _ absent => nomatch absent⟩
    · refine ⟨kept, some text, found, fun empty => ?_, fun l mem => ?_, fun other same => ?_⟩
      · rw [empty] at split
        exact first text (by rw [(List.cons.inj split).1])
      · rw [split]
        exact List.mem_append_left _ mem
      · cases Option.some.inj same
        have last := spelled ⟨.comment text, span⟩ (by rw [split]; simp)
        exact last.resolve_left (fun unknown => nomatch unknown)
  obtain ⟨kept, comment, uncommented, nonempty, inside, comment_⟩ := commented
  simp only [instruction, uncommented] at ok
  split at ok <;> try contradiction
  rename_i clean
  have known : ∀ l ∈ kept, l.token.Spelled := fun l mem =>
    (spelled l (inside l mem)).resolve_left (unknownsNone.mp clean l mem)
  split at ok <;> try contradiction
  rename_i opcode operands read
  cases ok
  rcases splitLabelSource kept with whole | ⟨text, span, rest, split, found⟩
  · rw [whole] at read ⊢
    obtain ⟨fits, coded⟩ := bodyFits known read
    exact ⟨fun _ absent => (nomatch absent), fits, comment_, .inr (coded nonempty)⟩
  · rw [found] at read ⊢
    subst split
    obtain ⟨fits, _⟩ := bodyFits (fun l mem => known l (List.mem_cons_of_mem _ mem)) read
    refine ⟨fun other same => ?_, fits, comment_, .inl rfl⟩
    cases Option.some.inj same
    exact known _ List.mem_cons_self

end Reading

end Regalloc
