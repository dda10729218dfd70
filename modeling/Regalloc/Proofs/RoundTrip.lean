import Regalloc.Proofs.CompiledCode
import Regalloc.Proofs.Grammar

/-! Writing a program and reading it back. Where names stand for themselves and nothing is saved,
the code of a program is the program, line by line, with its parts one space apart. It reads back as
the same lines, and it is written the same way again. -/
namespace Regalloc

namespace Expansion

structure Bare (t : Target) (place : Placement) : Prop where
  reserved : t.reserved = []
  registers : place.registers = ∅
  spills : place.spills.names = []

namespace Bare

variable {t : Target} {place : Placement} (bare : Bare t place)
include bare

theorem notSpilled (x : Name) : place.spills.contains x = false := by
  simp [Spills.contains, bare.spills]

theorem registerNone (x : Name) : register? t place [] x = none := by
  unfold register? Target.reservedRegister?
  rw [bare.reserved, bare.registers, bare.notSpilled x]
  rfl

theorem renameSelf (value : Value) : rename t place [] value = value := by
  cases value with
  | register x =>
    rw [rename, bare.registerNone]
    rfl
  | immediate text => rfl
  | label text => rfl

theorem savedNone (live : NameSet) : saved t place live = [] := by
  refine List.eq_nil_iff_forall_not_mem.mpr fun r mem => ?_
  obtain ⟨x, _, given, _⟩ := savedSource mem
  rw [bare.registers] at given
  contradiction

variable (inst : Instruction)

theorem killNone : spilledKill? place inst = none :=
  List.find?_eq_none.mpr fun x _ => by simp [bare.notSpilled x]

theorem scratchNone : scratch t place inst = [] := by
  have gens : spilledGens place inst = [] := by
    refine List.eq_nil_iff_forall_not_mem.mpr fun x mem => ?_
    have spilled := (spilledGensIff.mp mem).2
    rw [bare.spills] at spilled
    contradiction
  simp [scratch, gens, bare.killNone inst]

theorem coreSelf (op : Opcode) :
    core t place [] op inst = .plain op (inst.operands.map Operand.value) := by
  simp only [core, bare.renameSelf]

theorem bodySelf {op : Opcode} (coded : inst.opcode = some op) (live : NameSet) :
    body t place live inst = [.plain op (inst.operands.map Operand.value)] := by
  unfold body
  rw [coded]
  split
  · contradiction
  · rename_i called
    cases Option.some.inj called
    rw [call, bare.savedNone live, bare.coreSelf inst]
    rfl
  · rename_i other _ same
    cases Option.some.inj same
    simp [operation, loads, stores, bare.scratchNone inst, bare.killNone inst, bare.coreSelf inst]

theorem statementsSelf (readable : inst.statement.Readable) (live : NameSet) :
    statements t place live inst = [inst.statement] := by
  cases coded : inst.opcode with
  | none => exact statementsBare readable coded
  | some op =>
    rw [statementsBody, bare.bodySelf inst coded live, decorate, Instruction.statement, coded]
    rfl

omit inst in
theorem linesSelf (l : Liveness) {lines : List Line} (readable : ∀ line ∈ lines, line.emitted.Readable)
    (i : Nat) : Expansion.lines t l place i lines = lines.map Line.emitted := by
  induction lines generalizing i with
  | nil => rfl
  | cons line lines ih =>
    have rest := ih fun other mem => readable other (List.mem_cons_of_mem _ mem)
    cases line with
    | verbatim text => rw [Expansion.lines, rest, List.map_cons, Line.emitted]
    | code inst =>
      have own := readable _ List.mem_cons_self
      rw [Expansion.lines, bare.statementsSelf inst own, rest]
      rfl

end Bare

end Expansion

namespace Reading

theorem ofPiecesNumber {file number offset : Nat} {pieces : List (List Char)}
    (clean : (ofPieces file number offset pieces).issues = []) {k : Nat} {inst : Instruction}
    (here : (ofPieces file number offset pieces).lines[k]? = some (.code inst)) :
    inst.line = number + k := by
  induction pieces generalizing number offset k with
  | nil => contradiction
  | cons piece pieces ih =>
    rw [ofPieces] at clean here
    cases read : line file number offset (Text.chomp piece) with
    | error issues =>
      rw [read] at clean
      exact absurd (List.append_eq_nil_iff.mp clean).1 (lineFaults read).nonempty
    | ok first =>
      rw [read] at clean here
      cases k with
      | zero =>
        cases Option.some.inj here
        obtain ⟨_, _, _, _, _, _, _, rfl⟩ := lineParts read
        rfl
      | succ k =>
        have later := ih clean here
        omega

end Reading

inductive Line.Agrees : Line → Line → Prop where
  | verbatim (text : String) : Agrees (.verbatim text) (.verbatim text)
  | code {inst other : Instruction} (number : other.line = inst.line)
      (statement : other.statement = inst.statement) : Agrees (.code inst) (.code other)

namespace Line

theorem agreesOfEmitted {line other : Line} (same : other.emitted = line.emitted)
    (number : ∀ inst inst', line = .code inst → other = .code inst' → inst'.line = inst.line) :
    line.Agrees other := by
  cases line with
  | verbatim text =>
    cases other with
    | verbatim text' =>
      cases Emitted.verbatim.inj same
      exact .verbatim text
    | code inst => contradiction
  | code inst =>
    cases other with
    | verbatim text => contradiction
    | code inst' => exact .code (number inst inst' rfl rfl) (Emitted.statement.inj same)

/-- The text of each verbatim line, and for other lines the position of their instruction. -/
def layout : (i : Nat) → List Line → List (String ⊕ Nat)
  | _, [] => []
  | i, .verbatim text :: rest => .inl text :: layout i rest
  | i, .code _ :: rest => .inr i :: layout (i + 1) rest

variable {lines others : List Line} (agree : List.Forall₂ Agrees lines others)
include agree

theorem layoutAgrees (i : Nat) : layout i others = layout i lines := by
  induction agree generalizing i with
  | nil => rfl
  | cons head _ ih =>
    cases head with
    | verbatim text => exact congrArg (List.cons _) (ih i)
    | code => exact congrArg (List.cons _) (ih (i + 1))

theorem instructionsAgree :
    List.Forall₂ (fun inst other : Instruction =>
        other.line = inst.line ∧ other.statement = inst.statement)
      (lines.filterMap instruction?) (others.filterMap instruction?) := by
  induction agree with
  | nil => exact .nil
  | cons head _ ih =>
    cases head with
    | verbatim text => exact ih
    | code number statement => exact .cons ⟨number, statement⟩ ih

end Line

namespace Program

variable {p q : Program} {t : Target} {place : Placement} {file : Nat} {source : String}

def Numbered (p : Program) : Prop :=
  ∀ k inst, p.lines[k]? = some (.code inst) → inst.line = k + 1

theorem parseNumbered (parsed : Program.parse source file = .ok p) : p.Numbered := by
  unfold parse Reading.result at parsed
  split at parsed <;> try contradiction
  rename_i clean
  cases parsed
  intro k inst here
  rw [Reading.ofPiecesNumber (List.isEmpty_iff.mp clean) here, Nat.add_comm]

theorem linesAgree (numbered : p.Numbered) (numbered' : q.Numbered)
    (same : q.lines.map Line.emitted = p.lines.map Line.emitted) :
    List.Forall₂ Line.Agrees p.lines q.lines := by
  have lengths : p.lines.length = q.lines.length := by
    simpa using (congrArg List.length same).symm
  refine List.forall₂_iff_get.mpr ⟨lengths, fun k bound bound' => ?_⟩
  have here : p.lines[k]? = some (p.lines.get ⟨k, bound⟩) := List.getElem?_eq_getElem bound
  have here' : q.lines[k]? = some (q.lines.get ⟨k, bound'⟩) := List.getElem?_eq_getElem bound'
  have lines : (q.lines.get ⟨k, bound'⟩).emitted = (p.lines.get ⟨k, bound⟩).emitted := by
    have entries := congrArg (fun es => es[k]?) same
    simpa [here, here'] using entries
  exact Line.agreesOfEmitted lines fun inst other left right =>
    (numbered' k other (right ▸ here')).trans (numbered k inst (left ▸ here)).symm

theorem expandSelf (bare : Expansion.Bare t place) (readable : p.Readable) (l : Liveness) :
    p.expand t l place = p.lines.map Line.emitted := by
  have header : Expansion.header place.spills = [] := by
    simp [Expansion.header, Spills.isEmpty, bare.spills]
  rw [expand, header, List.nil_append, bare.linesSelf l readable]

/-- A program that is written with names that stand for themselves reads back as the same lines, the
instructions with the same numbers and the same parts, and it is written the same way again. -/
theorem writtenReadsBack {flow : ControlFlow} (bare : Expansion.Bare t place)
    (parsed : Program.parse source file = .ok p) (flows : p.controlFlow = .ok flow)
    (outFile : Nat) :
    ∃ q flow', Program.parse (p.codeText t (p.liveness flow) place) outFile = .ok q ∧
      q.controlFlow = .ok flow' ∧
      Line.layout 0 q.lines = Line.layout 0 p.lines ∧
      List.Forall₂ (fun inst other : Instruction =>
          other.line = inst.line ∧ other.statement = inst.statement)
        p.instructions q.instructions ∧
      q.codeText t (q.liveness flow') place = p.codeText t (p.liveness flow) place := by
  have readable := parseReadable parsed
  have emitted : ∀ line ∈ p.lines.map Line.emitted, line.Readable :=
    List.forall_mem_map.mpr readable
  obtain ⟨q, reparsed, same⟩ := parseUnlines emitted outFile
  have agree := linesAgree (parseNumbered parsed) (parseNumbered reparsed) same
  have code : q.code = p.code := by rw [Program.code, Program.code, statements, statements, same]
  obtain ⟨flow', flows'⟩ := linkedIff.mpr (code ▸ linkedIff.mp ⟨flow, flows⟩)
  refine ⟨q, flow', ?_, flows', Line.layoutAgrees agree 0, Line.instructionsAgree agree, ?_⟩
  · rw [codeText, expandSelf bare readable]
    exact reparsed
  · rw [codeText, codeText, expandSelf bare readable, expandSelf bare (parseReadable reparsed), same]

theorem crampedReadsBack : ∃ p flow q,
    Program.parse "top:ADDi a b-4#step\r\n \t\nJMP\ttop # again\n  # end\nRET:" 0 = .ok p ∧
    p.controlFlow = .ok flow ∧
    Program.parse "top: ADDi a b -4 #step\n \t\nJMP top # again\n  # end\nRET:\n" 0 = .ok q ∧
    Line.layout 0 q.lines = [.inr 0, .inl " \t", .inr 1, .inl "  # end", .inr 2] ∧
    List.Forall₂ (fun inst other : Instruction =>
        other.line = inst.line ∧ other.statement = inst.statement)
      p.instructions q.instructions := by
  have bare : Expansion.Bare { Target.standard with reserved := [] } ⟨∅, Spills.none 4⟩ :=
    ⟨rfl, rfl, rfl⟩
  have ran : (Program.parse "top:ADDi a b-4#step\r\n \t\nJMP\ttop # again\n  # end\nRET:" 0).toOption.any
      (fun p => p.controlFlow.toOption.any fun flow => decide
        (p.codeText { Target.standard with reserved := [] } (p.liveness flow) ⟨∅, Spills.none 4⟩ =
            "top: ADDi a b -4 #step\n \t\nJMP top # again\n  # end\nRET:\n" ∧
          Line.layout 0 p.lines = [.inr 0, .inl " \t", .inr 1, .inl "  # end", .inr 2])) = true := by
    decide +kernel
  obtain ⟨p, parsed, ran⟩ := Allocation.okOf ran
  obtain ⟨flow, flows, ran⟩ := Allocation.okOf ran
  obtain ⟨text, layout⟩ := of_decide_eq_true ran
  obtain ⟨q, flow', reparsed, _, layout', instructions, _⟩ := writtenReadsBack bare parsed flows 0
  rw [text] at reparsed
  exact ⟨p, flow, q, parsed, flows, reparsed, layout'.trans layout, instructions⟩

end Program

end Regalloc
