import Mathlib.Data.List.Forall2
import Regalloc.Proofs.Spelling
import Regalloc.Reading
import Regalloc.Statement

/-! Statements as lines of text. A readable statement is written as a line that reads back as the
same statement, and every instruction that is read from a line makes a readable statement. -/
namespace Regalloc

namespace Value

def token : Value → Token
  | register name => .name name
  | label text => .name text
  | immediate text =>
    if text.toList.head?.any Token.isNameStart then .name text else .number text

theorem immediateToken (text : String) : (immediate text).token =
    if text.toList.head?.any Token.isNameStart then Token.name text else .number text := rfl

theorem tokenSpelling (value : Value) : value.token.spelling = value.text.toList := by
  cases value with
  | register name => rfl
  | label text => rfl
  | immediate text =>
    rw [immediateToken]
    split <;> rfl

def Fits : Slot → Value → Prop
  | .written, .register name | .read, .register name | .ignored, .register name =>
    Token.NameText name.toList
  | .immediate, .immediate text => Token.NameText text.toList ∨ Token.NumberText text.toList
  | .label, .label text => Token.NameText text.toList
  | _, _ => False

theorem immediateName {text : String} (name : Token.NameText text.toList) :
    (immediate text).token = .name text := by
  rw [immediateToken]
  cases split : text.toList with
  | nil => rw [split] at name; cases name
  | cons c cs =>
    rw [split] at name
    obtain ⟨_, _, start, _⟩ := name
    simp [start]

theorem immediateNumber {text : String} (number : Token.NumberText text.toList) :
    (immediate text).token = .number text := by
  obtain ⟨c, cs, split, plain, _⟩ := Token.numberHead number
  rw [immediateToken, split]
  simp [plain]

theorem tokenOfFits {slot : Slot} {value : Value} (fits : Fits slot value) (span : Span) :
    value.token.Spelled ∧ Reading.operandValue slot ⟨value.token, span⟩ = .ok value := by
  cases value with
  | register name => cases slot <;> first | exact ⟨fits, rfl⟩ | exact fits.elim
  | label text => cases slot <;> first | exact ⟨fits, rfl⟩ | exact fits.elim
  | immediate text =>
    cases slot <;> try exact fits.elim
    rcases fits with name | number
    · rw [immediateName name]
      exact ⟨name, rfl⟩
    · rw [immediateNumber number]
      exact ⟨number, rfl⟩

theorem fitsOfToken {slot : Slot} {lexeme : Lexeme} {value : Value}
    (spelled : lexeme.token.Spelled) (ok : Reading.operandValue slot lexeme = .ok value) :
    Fits slot value := by
  obtain ⟨token, span⟩ := lexeme
  cases slot <;> cases token <;> simp only [Reading.operandValue] at ok <;> try contradiction
  all_goals cases Except.ok.inj ok
  all_goals first | exact spelled | exact .inl spelled | exact .inr spelled

theorem tokenPlain (value : Value) (text : String) : value.token ≠ .comment text := by
  intro same
  cases value with
  | register name => contradiction
  | label other => contradiction
  | immediate other =>
    rw [immediateToken] at same
    split at same <;> contradiction

theorem fitsSpelled {shape : List Slot} {values : List Value}
    (fits : List.Forall₂ Fits shape values) : ∀ value ∈ values, value.token.Spelled := by
  induction fits with
  | nil => exact fun _ absent => nomatch absent
  | cons fit _ ih =>
    intro value mem
    cases mem with
    | head => exact (tokenOfFits fit default).1
    | tail _ mem => exact ih value mem

end Value

theorem Opcode.mnemonicText (op : Opcode) : Token.NameText op.mnemonic.toList := by
  refine Token.nameText ?_
  rcases op with (_ | _) | (_ | _) | _ | _ | _ | _ | _ | _ | _ | (_ | _) | _ | _ | _ <;> decide

namespace Statement

structure Readable (s : Statement) : Prop where
  label : ∀ text ∈ s.label, Token.NameText text.toList
  operands : List.Forall₂ Value.Fits ((s.opcode.map Opcode.shape).getD []) s.operands
  comment : ∀ text ∈ s.comment, Token.CommentText text.toList
  present : s.label.isSome = true ∨ s.opcode.isSome = true

def bodyTokens (s : Statement) : List Token :=
  (s.opcode.map fun op => Token.name op.mnemonic :: s.operands.map Value.token).getD []

def tokens (s : Statement) : List Token :=
  s.label.toList.map Token.label ++ s.bodyTokens ++ s.comment.toList.map Token.comment

theorem spaced (first : String) (rest : List String) :
    (" ".intercalate (first :: rest)).toList
      = first.toList ++ rest.flatMap (fun word => ' ' :: word.toList) := by
  induction rest generalizing first with
  | nil => simp
  | cons second rest ih =>
    rw [String.intercalate_cons_cons, String.toList_append, String.toList_append, ih]
    simp

theorem spacedNested (before after : List String) (first : String) (rest : List String) :
    " ".intercalate (before ++ " ".intercalate (first :: rest) :: after)
      = " ".intercalate (before ++ (first :: rest) ++ after) := by
  have inner : " ".intercalate (" ".intercalate (first :: rest) :: after)
      = " ".intercalate (first :: rest ++ after) := by
    cases after with
    | nil => simp
    | cons next after =>
      rw [String.intercalate_cons_of_ne_nil (by simp),
        String.intercalate_append_of_ne_nil (by simp) (by simp)]
  rw [List.append_assoc]
  cases before with
  | nil => exact inner
  | cons word before =>
    rw [String.intercalate_append_of_ne_nil (by simp) (by simp), inner,
      String.intercalate_append_of_ne_nil (l := word :: before) (m := first :: rest ++ after)
        (by simp) (by simp)]

theorem textTokens (s : Statement) :
    s.text = " ".intercalate (s.tokens.map fun token => String.ofList token.spelling) := by
  have labelWord : ∀ label : String, String.ofList (Token.label label).spelling = label ++ ":" :=
    fun label => by simp [Token.spelling]
  have nameWord : ∀ name : String, String.ofList (Token.name name).spelling = name :=
    fun name => String.ofList_toList
  have commentWord : ∀ comment : String, String.ofList (Token.comment comment).spelling = comment :=
    fun comment => String.ofList_toList
  have valueWord : ∀ value : Value, String.ofList value.token.spelling = value.text :=
    fun value => by rw [Value.tokenSpelling, String.ofList_toList]
  have words : s.tokens.map (fun token => String.ofList token.spelling) =
      (s.label.map (fun label => label ++ ":")).toList
        ++ ((s.opcode.map fun op => op.mnemonic :: s.operands.map Value.text).getD [])
        ++ s.comment.toList := by
    unfold tokens bodyTokens
    cases s.label <;> cases s.opcode <;> cases s.comment <;>
      simp [labelWord, nameWord, commentWord, valueWord, Function.comp_def]
  rw [words]
  unfold text parts operation?
  cases s.opcode with
  | none => simp
  | some op => simpa using spacedNested _ s.comment.toList op.mnemonic (s.operands.map Value.text)

theorem textList {s : Statement} {token : Token} {tokens : List Token}
    (split : s.tokens = token :: tokens) :
    s.text.toList = token.spelling ++ tokens.flatMap fun token => ' ' :: token.spelling := by
  rw [textTokens, split, List.map_cons, spaced, String.toList_ofList]
  simp [List.flatMap_map]

theorem lexSpaced {token : Token} {tokens : List Token}
    (spelled : ∀ t ∈ token :: tokens, t.Spelled)
    (last : ∀ t ∈ (token :: tokens).dropLast, ∀ text, t ≠ .comment text) (file start : Nat) :
    (lexFrom file start 0
      (token.spelling ++ tokens.flatMap fun token => ' ' :: token.spelling)).map Lexeme.token
      = token :: tokens := by
  induction tokens generalizing token start with
  | nil =>
    have stop : Token.Stop [] := fun c head => by simp at head
    obtain ⟨span, next, read⟩ := lexFromSpelling (spelled token List.mem_cons_self) stop
      (fun _ _ => rfl) file start
    rw [List.flatMap_nil, read]
    simp [lexFrom]
  | cons second tokens ih =>
    have stop : Token.Stop ((second :: tokens).flatMap fun token => ' ' :: token.spelling) := by
      intro c head
      simpa using head.symm
    have notLast : ∀ text, token ≠ .comment text := last token (by simp)
    obtain ⟨span, next, read⟩ := lexFromSpelling (spelled token List.mem_cons_self) stop
      (fun text same => absurd same (notLast text)) file start
    have tail := @ih second (fun t mem => spelled t (List.mem_cons_of_mem _ mem))
      (fun t mem => last t (by rw [List.dropLast_cons_cons]; exact List.mem_cons_of_mem _ mem))
      (next + ' '.utf8Size)
    rw [read, List.map_cons, List.flatMap_cons, List.cons_append, lexFrom]
    exact congrArg _ tail

theorem bodyHead (s : Statement) : ∀ token ∈ s.bodyTokens.head?, ∀ text, token ≠ .label text := by
  unfold bodyTokens
  cases s.opcode with
  | none => exact fun _ absent => nomatch absent
  | some op =>
    intro token head text same
    cases head
    contradiction

theorem frontTokens (s : Statement) :
    ∀ token ∈ s.label.toList.map Token.label ++ s.bodyTokens, ∀ text, token ≠ .comment text := by
  intro token mem text same
  subst same
  rcases List.mem_append.mp mem with label | body
  · obtain ⟨_, _, same⟩ := List.mem_map.mp label
    contradiction
  · unfold bodyTokens at body
    cases coded : s.opcode with
    | none => simp [coded] at body
    | some op =>
      simp only [coded, Option.map_some, Option.getD_some, List.mem_cons, List.mem_map] at body
      rcases body with same | ⟨value, _, same⟩
      · contradiction
      · exact value.tokenPlain text same

theorem tokensSpelled (s : Statement) (readable : s.Readable) : ∀ token ∈ s.tokens, token.Spelled := by
  have fits := readable.operands
  intro token mem
  simp only [tokens, List.mem_append, List.mem_map, Option.mem_toList] at mem
  rcases mem with (⟨text, label, rfl⟩ | body) | ⟨text, comment, rfl⟩
  · exact readable.label text label
  · unfold bodyTokens at body
    cases coded : s.opcode with
    | none => simp [coded] at body
    | some op =>
      simp only [coded, Option.map_some, Option.getD_some, List.mem_cons, List.mem_map] at body
      rcases body with rfl | ⟨value, present, rfl⟩
      · exact op.mnemonicText
      · exact Value.fitsSpelled fits value present
  · exact readable.comment text comment

end Statement

end Regalloc
