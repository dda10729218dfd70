import Regalloc.Compilation
import Regalloc.Proofs.Allocation
import Regalloc.Proofs.Crowding
import Regalloc.Proofs.Emission
import Regalloc.Proofs.Lines

/-! Compiled code as a program. It parses, its verbatim lines are those of the source below the list
of spilled names, and its blocks have the control flow of the source. -/
namespace Regalloc

def Line.verbatim? : Line → Option String
  | verbatim text => some text
  | code _ => none

def Emitted.verbatim? : Emitted → Option String
  | verbatim text => some text
  | statement _ => none

namespace Expansion

variable {t : Target} {l : Liveness} {place : Placement}

def blocksFrom (t : Target) (l : Liveness) (place : Placement) (i : Nat) (insts : List Instruction) :
    List (List Statement) :=
  (insts.zipIdx i).map fun (inst, j) => statements t place (l.liveIn j) inst

theorem linesStatements (i : Nat) (lines : List Line) :
    (Expansion.lines t l place i lines).filterMap Emitted.statement? =
      (blocksFrom t l place i (lines.filterMap Line.instruction?)).flatten := by
  induction lines generalizing i with
  | nil => rfl
  | cons line lines ih =>
    cases line with
    | verbatim text => exact ih i
    | code inst =>
      have own : ∀ block : List Statement,
          (block.map Emitted.statement).filterMap Emitted.statement? = block := fun block => by
        rw [List.filterMap_map]
        exact List.filterMap_some
      rw [Expansion.lines, List.filterMap_append, own, ih]
      rfl

theorem linesVerbatims (i : Nat) (lines : List Line) :
    (Expansion.lines t l place i lines).filterMap Emitted.verbatim? =
      lines.filterMap Line.verbatim? := by
  induction lines generalizing i with
  | nil => rfl
  | cons line lines ih =>
    cases line with
    | verbatim text =>
      rw [Expansion.lines, List.filterMap_cons, ih]
      rfl
    | code inst =>
      have none : ∀ block : List Statement,
          (block.map Emitted.statement).filterMap Emitted.verbatim? = [] := fun block => by
        rw [List.filterMap_map]
        exact List.filterMap_eq_nil_iff.mpr fun _ _ => rfl
      rw [Expansion.lines, List.filterMap_append, none, ih]
      rfl

theorem headerStatements (spills : Spills) :
    (header spills).filterMap Emitted.statement? = [] := by
  unfold header
  split <;> rfl

theorem headerVerbatims (spills : Spills) :
    (spills.names = [] → (header spills).filterMap Emitted.verbatim? = []) ∧
      (spills.names ≠ [] → ∃ slots,
        (header spills).filterMap Emitted.verbatim? = ["# spilled: " ++ slots]) := by
  unfold header Spills.isEmpty
  constructor
  · intro empty
    simp [empty]
  · intro some
    rw [if_neg (by simpa using some)]
    exact ⟨_, rfl⟩

theorem spacedInline {words : List String} (inline : ∀ word ∈ words, Text.Inline word.toList) :
    Text.Inline (" ".intercalate words).toList := by
  cases words with
  | nil => exact fun _ absent => nomatch absent
  | cons first rest =>
    rw [Statement.spaced]
    refine Text.inlineAppend (inline first List.mem_cons_self) fun c mem => ?_
    obtain ⟨word, inside, place⟩ := List.mem_flatMap.mp mem
    rcases List.mem_cons.mp place with rfl | later
    · decide
    · exact inline word (List.mem_cons_of_mem _ inside) c later

theorem headerReadable {spills : Spills} (named : ∀ x ∈ spills.names, Token.NameText x.toList) :
    ∀ e ∈ header spills, e.Readable := by
  have word : ∀ slot ∈ spills.slots, Text.Inline (s!"{slot.1}@{slot.2}").toList := by
    intro slot mem
    obtain ⟨⟨x, i⟩, inside, rfl⟩ := List.mem_map.mp mem
    have digits := Token.numberTextInline (Token.numberText (i * spills.stride))
    have name := Token.nameTextInline (named x (List.fst_mem_of_mem_zipIdx inside))
    have whole : (s!"{x}@{i * spills.stride}").toList =
        x.toList ++ ['@'] ++ (toString (i * spills.stride)).toList := by
      simp [toString]
    rw [whole]
    exact Text.inlineAppend (Text.inlineAppend name (Text.inlineOf rfl)) digits
  unfold header
  split
  · exact fun _ absent => nomatch absent
  · intro e mem
    cases List.mem_singleton.mp mem
    have slots := @spacedInline (spills.slots.map fun slot => s!"{slot.1}@{slot.2}") fun w mem => by
      obtain ⟨slot, inside, rfl⟩ := List.mem_map.mp mem
      exact word slot inside
    have whole : ∀ text : String, (s!"# spilled: {text}").toList = "# spilled: ".toList ++ text.toList :=
      fun text => by simp [toString]
    refine ⟨?_, ?_⟩
    · rw [whole]
      exact Text.inlineOneLine (Text.inlineAppend (Text.inlineOf (by decide)) slots)
    · rw [whole]
      intro c head
      exact (Option.some.inj head).symm

theorem headerVerbatim (spills : Spills) : ∀ e ∈ header spills, ∃ text, e = .verbatim text := by
  unfold header
  split
  · exact fun _ absent => nomatch absent
  · exact fun e mem => ⟨_, List.mem_singleton.mp mem⟩

end Expansion

namespace Program

open Expansion (Allows Placed Fine)

variable {t : Target} {p q : Program} {flow : ControlFlow} {colorer : Colorer} {last : Attempt}
  {registers : NameMap Register} {place : Placement} {l : Liveness} {allowed : Register → Prop}

def verbatims (p : Program) : List String := p.lines.filterMap Line.verbatim?

def blocks (p : Program) (t : Target) (l : Liveness) (place : Placement) : List (List Statement) :=
  Expansion.blocksFrom t l place 0 p.instructions

theorem verbatimsEmitted (p : Program) :
    p.verbatims = (p.lines.map Line.emitted).filterMap Emitted.verbatim? := by
  rw [verbatims, List.filterMap_map]
  refine List.filterMap_congr fun l _ => ?_
  cases l <;> rfl

theorem expandStatements (p : Program) (t : Target) (l : Liveness) (place : Placement) :
    (p.expand t l place).filterMap Emitted.statement? = (p.blocks t l place).flatten := by
  rw [expand, List.filterMap_append, Expansion.headerStatements, Expansion.linesStatements]
  rfl

theorem expandVerbatims (p : Program) (t : Target) (l : Liveness) (place : Placement) :
    (p.expand t l place).filterMap Emitted.verbatim? =
      (Expansion.header place.spills).filterMap Emitted.verbatim? ++ p.verbatims := by
  rw [expand, List.filterMap_append, Expansion.linesVerbatims]
  rfl

theorem readableAt (readable : p.Readable) {inst : Instruction} (mem : inst ∈ p.instructions) :
    inst.statement.Readable := by
  obtain ⟨line, inside, found⟩ := List.mem_filterMap.mp mem
  have held := readable line inside
  cases line with
  | verbatim text => contradiction
  | code other => exact Option.some.inj found ▸ held

theorem namesReadable (readable : p.Readable) {x : Name} (named : x ∈ p.names) :
    Token.NameText x.toList := by
  obtain ⟨inst, mem, inside⟩ := memNames.mp named
  have fits := (readableAt readable mem).operands
  have operand : Value.register x ∈ inst.statement.operands :=
    Statement.memRegisters.mp (inst.registersStatement ▸ inside)
  exact Value.fitsSpelled fits _ operand

theorem blocksStand (readable : p.Readable) (allows : Allows t place allowed) (l : Liveness) :
    List.Forall₂ Statement.Stands p.code (p.blocks t l place) := by
  have all : ∀ (insts : List Instruction) (i : Nat),
      (∀ inst ∈ insts, inst.statement.Readable) →
      List.Forall₂ Statement.Stands (insts.map Instruction.statement)
        (Expansion.blocksFrom t l place i insts) := by
    intro insts
    induction insts with
    | nil => exact fun i _ => .nil
    | cons inst insts ih =>
      intro i fine
      exact .cons (Expansion.statementsStand allows (fine inst List.mem_cons_self) _)
        (ih (i + 1) fun inst mem => fine inst (List.mem_cons_of_mem _ mem))
  exact all p.instructions 0 fun inst mem => readableAt readable mem

theorem blocksFine (readable : p.Readable) (allows : Allows t place allowed)
    (placed : ∀ x ∈ p.names, Placed t place x) (l : Liveness) :
    ∀ line ∈ (p.blocks t l place).flatten, Fine allowed line := by
  intro line mem
  obtain ⟨block, inside, present⟩ := List.mem_flatten.mp mem
  obtain ⟨⟨inst, i⟩, at_, rfl⟩ := List.mem_map.mp inside
  have here : inst ∈ p.instructions := List.fst_mem_of_mem_zipIdx at_
  exact Expansion.statementsFine allows (readableAt readable here)
    (fun x named => placed x (memNames.mpr ⟨inst, here, named⟩)) _ line present

theorem blocksReadable (readable : p.Readable) (l : Liveness) :
    ∀ line ∈ (p.blocks t l place).flatten, line.Readable := by
  intro line mem
  obtain ⟨block, inside, present⟩ := List.mem_flatten.mp mem
  obtain ⟨⟨inst, i⟩, at_, rfl⟩ := List.mem_map.mp inside
  have here : inst ∈ p.instructions := List.fst_mem_of_mem_zipIdx at_
  exact Expansion.statementsReadable (readableAt readable here) _ line present

theorem expandReadable (readable : p.Readable)
    (lines : ∀ line ∈ (p.blocks t l place).flatten, line.Readable)
    (spilled : ∀ x ∈ place.spills.names, x ∈ p.names) : ∀ e ∈ p.expand t l place, e.Readable := by
  have header := Expansion.headerReadable fun x mem => namesReadable readable (spilled x mem)
  intro e mem
  cases e with
  | statement s =>
    have inside : s ∈ (p.blocks t l place).flatten := by
      rw [← expandStatements]
      exact List.mem_filterMap.mpr ⟨_, mem, rfl⟩
    exact lines s inside
  | verbatim text =>
    have inside : text ∈ (Expansion.header place.spills).filterMap Emitted.verbatim? ++ p.verbatims := by
      rw [← expandVerbatims p t l place]
      exact List.mem_filterMap.mpr ⟨_, mem, rfl⟩
    rcases List.mem_append.mp inside with top | own
    · obtain ⟨e, present, found⟩ := List.mem_filterMap.mp top
      obtain ⟨other, rfl⟩ := Expansion.headerVerbatim _ e present
      cases Option.some.inj found
      exact header _ present
    · obtain ⟨line, present, found⟩ := List.mem_filterMap.mp own
      have held := readable line present
      cases line with
      | verbatim other => exact Option.some.inj found ▸ held
      | code inst => contradiction

theorem codeTextReads (readable : p.Readable)
    (lines : ∀ line ∈ (p.blocks t l place).flatten, line.Readable)
    (spilled : ∀ x ∈ place.spills.names, x ∈ p.names) (file : Nat) :
    ∃ q, Program.parse (p.codeText t l place) file = .ok q ∧
      q.code = (p.blocks t l place).flatten ∧
      q.verbatims = (Expansion.header place.spills).filterMap Emitted.verbatim? ++ p.verbatims := by
  obtain ⟨q, parsed, same⟩ := parseUnlines (expandReadable readable lines spilled) file
  refine ⟨q, parsed, ?_, ?_⟩
  · rw [code, statements, same, expandStatements]
  · rw [verbatimsEmitted, same, expandVerbatims]

theorem codeTextParses (readable : p.Readable) (allows : Allows t place allowed)
    (placed : ∀ x ∈ p.names, Placed t place x) (spilled : ∀ x ∈ place.spills.names, x ∈ p.names)
    (l : Liveness) (file : Nat) :
    ∃ q, Program.parse (p.codeText t l place) file = .ok q ∧
      q.code = (p.blocks t l place).flatten ∧
      q.verbatims = (Expansion.header place.spills).filterMap Emitted.verbatim? ++ p.verbatims :=
  codeTextReads readable (fun line mem => (blocksFine readable allows placed l line mem).readable)
    spilled file

theorem compileSource {c : Compilation} {out : String}
    (compiled : (p.compile t colorer).value = .ok c) (emitted : c.code = some out) :
    ∃ last registers, p.controlFlow = .ok c.flow ∧
      (p.allocate t colorer (p.liveness c.flow)).value = .ok (.allocated last registers) ∧
      c.liveness = p.liveness c.flow ∧ c.outcome = .allocated last registers ∧
      out = p.codeText t (p.liveness c.flow) ⟨registers, last.spills⟩ := by
  unfold compile at compiled
  split at compiled
  · contradiction
  · rename_i flow flows
    dsimp only at compiled
    split at compiled
    · contradiction
    · rename_i notices outcome ran
      cases Except.ok.inj compiled
      cases outcome with
      | failed last budget => contradiction
      | allocated last registers =>
        have value := congrArg Logged.value ran
        exact ⟨last, registers, flows, value, rfl, rfl, (Option.some.inj emitted).symm⟩

theorem compileCode {c : Compilation} (compiled : (p.compile t colorer).value = .ok c) :
    c.code = c.outcome.placement?.map (p.codeText t c.liveness) := by
  unfold compile at compiled
  split at compiled
  · contradiction
  · dsimp only at compiled
    split at compiled
    · contradiction
    · cases Except.ok.inj compiled
      rfl

theorem compileValue {outcome : Outcome} (flows : p.controlFlow = .ok flow)
    (ok : (p.allocate t colorer (p.liveness flow)).value = .ok outcome) :
    (p.compile t colorer).value = .ok ⟨flow, p.liveness flow, outcome,
      outcome.placement?.map (p.codeText t (p.liveness flow))⟩ := by
  unfold compile
  rw [flows]
  dsimp only
  split
  · rename_i ran
    exact absurd ((congrArg Logged.value ran).symm.trans ok) (by simp)
  · rename_i ran
    cases Except.ok.inj ((congrArg Logged.value ran).symm.trans ok)
    rfl

theorem compileAllocated (flows : p.controlFlow = .ok flow)
    (ok : (p.allocate t colorer (p.liveness flow)).value = .ok (.allocated last registers)) :
    ∃ c, (p.compile t colorer).value = .ok c ∧
      c.code = some (p.codeText t (p.liveness flow) ⟨registers, last.spills⟩) :=
  ⟨_, compileValue flows ok, rfl⟩

end Program

namespace Allocation.Settled

variable {t : Target} {p : Program} {flow : ControlFlow} {colorer : Colorer} {last : Attempt}
  {registers : NameMap Register} (settled : Settled t p flow colorer last registers)
include settled

theorem placed (builtIn : colorer.BuiltIn) {x : Name} (named : x ∈ p.names) :
    Expansion.Placed t ⟨registers, last.spills⟩ x := by
  cases reserved : t.isReserved x with
  | true => exact .inl reserved
  | false =>
    by_cases spilled : x ∈ last.spills.names
    · exact .inr (.inr spilled)
    · exact .inr (.inl ((settled.memRegisters builtIn).mpr
        (settled.memVertices.mpr ⟨named, reserved, spilled⟩)))

theorem allows (bound : Nat) (fits : t.registers ≤ bound)
    (own : ∀ r ∈ t.stackPointer :: t.scratchValue :: t.scratchAddress :: t.reserved.map Prod.snd,
      r.index < bound) :
    Expansion.Allows t ⟨registers, last.spills⟩ fun r => r.index < bound where
  stackPointer := own _ (by simp)
  scratchValue := own _ (by simp)
  scratchAddress := own _ (by simp)
  reserved entry mem := by
    refine own _ ?_
    exact List.mem_cons_of_mem _ (List.mem_cons_of_mem _ (List.mem_cons_of_mem _
      (List.mem_map_of_mem mem)))
  given x r found := Nat.lt_of_lt_of_le (settled.registerSource found).1 fits

theorem parses {attempts : Nat} (standard : t = { Target.standard with attempts })
    (builtIn : colorer.BuiltIn) (readable : p.Readable) (file : Nat) :
    Expansion.Allows t ⟨registers, last.spills⟩ (fun r => r.index < 32) ∧
    ∃ q, Program.parse (p.codeText t (p.liveness flow) ⟨registers, last.spills⟩) file = .ok q ∧
      q.code = (p.blocks t (p.liveness flow) ⟨registers, last.spills⟩).flatten ∧
      q.verbatims =
        (Expansion.header last.spills).filterMap Emitted.verbatim? ++ p.verbatims := by
  have own : ∀ r ∈ ([⟨29⟩, ⟨30⟩, ⟨31⟩, ⟨29⟩, ⟨30⟩, ⟨31⟩] : List Register), r.index < 32 := by decide
  subst standard
  have allows := settled.allows 32 (Nat.le_refl 32) own
  exact ⟨allows, Program.codeTextParses readable allows (fun x named => settled.placed builtIn named)
    (fun x mem => (settled.spills.named x mem).1) (p.liveness flow) file⟩

end Allocation.Settled

namespace Program

variable {p : Program} {colorer : Colorer}

/-- Compiled code parses to a program in blocks, one for each instruction of the source, with the
control flow of the source between the blocks. It names the registers of the target only, and its
verbatim lines are those of the source below the list of what is spilled. -/
theorem compiledCodeFlow {source out : String} {file attempts : Nat} {c : Compilation}
    (builtIn : colorer.BuiltIn) (parsed : Program.parse source file = .ok p)
    (compiled : (p.compile { Target.standard with attempts } colorer).value = .ok c)
    (emitted : c.code = some out) (outFile : Nat) :
    ∃ q flow, Program.parse out outFile = .ok q ∧ q.controlFlow = .ok flow ∧
      p.controlFlow = .ok c.flow ∧
      (∀ inst ∈ q.instructions, ∀ x ∈ inst.registers, ∃ i < 32, x = (Register.mk i).text) ∧
      (∃ header, q.verbatims = header ++ p.verbatims ∧
        (c.outcome.last.spills.names = [] → header = []) ∧
        (c.outcome.last.spills.names ≠ [] → ∃ slots, header = ["# spilled: " ++ slots])) ∧
      ∃ blocks, blocks.flatten = q.code ∧ List.Forall₂ Statement.Stands p.code blocks ∧
        Blocks.between blocks flow.edges = c.flow.edges := by
  obtain ⟨last, registers, flows, ok, _, outcome, rfl⟩ := compileSource compiled emitted
  have readable := parseReadable parsed
  have settled := Allocation.allocateSource ok
  have placed : ∀ x ∈ p.names, _ := fun x named => settled.placed builtIn named
  obtain ⟨allows, q, reparsed, code, verbatims⟩ := settled.parses rfl builtIn readable outFile
  have stands := blocksStand readable allows (p.liveness c.flow)
  have linked := Blocks.linkedFlatten stands (linkedIff.mp ⟨c.flow, flows⟩)
  rw [← code] at linked
  obtain ⟨flow, controls⟩ := linkedIff.mpr linked
  refine ⟨q, flow, reparsed, controls, flows, fun inst mem x named => ?_, ⟨_, verbatims, ?_⟩,
    _, code.symm, stands, ?_⟩
  · have line : inst.statement ∈ (p.blocks { Target.standard with attempts }
        (p.liveness c.flow) ⟨registers, last.spills⟩).flatten := by
      rw [← code]
      exact List.mem_map_of_mem mem
    have fine := blocksFine readable allows placed (p.liveness c.flow) _ line
    obtain ⟨r, below, same⟩ := fine.registers x (inst.registersStatement ▸ named)
    exact ⟨r.index, below, same⟩
  · rw [outcome]
    exact Expansion.headerVerbatims last.spills
  · have edges : c.flow.edges = Code.edges p.code := by rw [flowSource flows, edgesOfCode]
    rw [flowSource controls, edgesOfCode, code, edges]
    exact Blocks.betweenEdges stands

theorem loopCodeFlow : ∃ p c out q flow blocks,
    Program.parse "loop: IN a # next\nOUT a\nJMP loop\n" 0 = .ok p ∧
    (p.compile Target.standard .greedy).value = .ok c ∧ c.code = some out ∧
    Program.parse out 0 = .ok q ∧ q.controlFlow = .ok flow ∧ blocks.flatten = q.code ∧
    List.Forall₂ Statement.Stands p.code blocks ∧
    Blocks.between blocks flow.edges = [(0, 1), (1, 2), (2, 0)] := by
  have ran : (Program.parse "loop: IN a # next\nOUT a\nJMP loop\n" 0).toOption.any (fun p =>
      (p.compile Target.standard .greedy).value.toOption.any fun c =>
        c.code.isSome && decide (c.flow.edges = [(0, 1), (1, 2), (2, 0)])) = true := by
    decide +kernel
  obtain ⟨p, parsed, ran⟩ := Allocation.okOf ran
  obtain ⟨c, compiled, ran⟩ := Allocation.okOf ran
  obtain ⟨some, edges⟩ := Bool.and_eq_true_iff.mp ran
  obtain ⟨out, emitted⟩ := Option.isSome_iff_exists.mp some
  obtain ⟨q, flow, reparsed, flows, _, _, _, blocks, flat, stands, between⟩ :=
    compiledCodeFlow .greedy parsed compiled emitted 0
  exact ⟨p, c, out, q, flow, blocks, parsed, compiled, emitted, reparsed, flows, flat, stands,
    between.trans (of_decide_eq_true edges)⟩

end Program

def Statement.repeats (s line : Statement) : Bool :=
  decide (line.opcode = s.opcode ∧ line.fixed = s.fixed)

namespace Crowd

variable {names : List Name}

theorem loadsOfBlocks (t : Target) (l : Liveness) (place : Placement) {insts : List Instruction}
    (i : Nat) (crowd : insts.map Instruction.statement = names.map loadSelf) :
    names.length + names.countP (fun x => decide (x ∈ place.spills.names)) ≤
      (Expansion.blocksFrom t l place i insts).flatten.countP isLoad := by
  induction names generalizing insts i with
  | nil => exact Nat.zero_le _
  | cons x names ih =>
    obtain ⟨inst, rest, rfl, load, tail⟩ := List.map_eq_cons_iff.mp crowd
    have later := ih (i + 1) tail
    have block := loadsOfLoad t place (l.liveIn i) load
    have split : Expansion.blocksFrom t l place i (inst :: rest) =
        Expansion.statements t place (l.liveIn i) inst ::
          Expansion.blocksFrom t l place (i + 1) rest := rfl
    rw [split, List.flatten_cons, List.countP_append, List.countP_cons, List.length_cons]
    by_cases spilled : x ∈ place.spills.names
    · rw [if_pos spilled] at block
      rw [if_pos (decide_eq_true spilled)]
      omega
    · rw [if_neg spilled] at block
      rw [if_neg (by simpa using spilled)]
      omega

theorem loadsOnce {blocks : List (List Statement)}
    (once : List.Forall₂ (fun s block => block.countP s.repeats = 1) (names.map loadSelf) blocks) :
    blocks.flatten.countP isLoad = names.length := by
  induction names generalizing blocks with
  | nil =>
    cases once
    rfl
  | cons x names ih =>
    cases once with
    | @cons _ block _ blocks head tail =>
      have first : block.countP isLoad = 1 := head
      rw [List.flatten_cons, List.countP_append, first, ih tail, List.length_cons, Nat.add_comm]

def thirty : List Name :=
  ["A", "B", "C", "D", "E", "F", "G", "H", "I", "J", "K", "L", "M", "N", "O", "P", "Q", "R", "S",
    "T", "U", "V", "W", "X", "Y", "Z", "a", "b", "c", "d"]

theorem thirtyLoadsTwice : ∃ p c out q,
    Program.parse (Emitted.unlines (lines thirty)) 0 = .ok p ∧
    (p.compile Target.standard .greedy).value = .ok c ∧ c.code = some out ∧
    Program.parse out 0 = .ok q ∧
    ¬ ∃ blocks, blocks.flatten = q.code ∧
      List.Forall₂ (fun s block => block.countP s.repeats = 1) p.code blocks := by
  have letter : ∀ x ∈ thirty, (x.toList.head?.any Token.isNameStart &&
      x.toList.tail.all Token.isNamePart) = true := by decide
  have named : ∀ x ∈ thirty, Token.NameText x.toList := fun x mem => Token.nameText (letter x mem)
  obtain ⟨p, parsed, same⟩ := Program.parseUnlines (linesReadable named) 0
  have crowd : p.code = thirty.map loadSelf := by
    rw [Program.code, Program.statements, same, linesCode]
  obtain ⟨flow, flows⟩ := Program.linkedIff.mpr (linked crowd)
  have room : Allocation.names Target.standard p (Spills.none 4) ≤ 29 + 99 :=
    Nat.le_trans (namesLe crowd _ _) (by decide)
  obtain ⟨last, registers, ok⟩ := Allocation.allocateSucceeds flow .greedy room
  obtain ⟨c, compiled, emitted⟩ := Program.compileAllocated flows ok
  have settled := Allocation.allocateSource ok
  have readable := Program.parseReadable parsed
  obtain ⟨_, q, reparsed, code, _⟩ := settled.parses rfl .greedy readable 0
  refine ⟨p, c, _, q, parsed, compiled, emitted, reparsed, ?_⟩
  rintro ⟨blocks, flat, once⟩
  obtain ⟨x, mem, spilled⟩ := spills crowd flows (by decide) settled .greedy (by decide) (by decide)
  have total := loadsOfBlocks Target.standard (p.liveness flow) ⟨registers, last.spills⟩ 0 crowd
  have more : 0 < thirty.countP (fun x => decide (x ∈ last.spills.names)) :=
    List.countP_pos_iff.mpr ⟨x, mem, decide_eq_true spilled⟩
  have exact := loadsOnce (crowd ▸ once)
  rw [flat, code] at exact
  change _ ≤ (p.blocks Target.standard (p.liveness flow) _).flatten.countP isLoad at total
  rw [exact] at total
  exact absurd total (Nat.not_le_of_lt (Nat.lt_add_of_pos_right more))

end Crowd

end Regalloc
