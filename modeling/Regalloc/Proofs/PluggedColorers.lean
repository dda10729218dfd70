import Regalloc.Proofs.AttemptCap
import Regalloc.Proofs.Simulation

/-! Colorers that are plugged in. One that keeps the contract always gets an answer, and each vertex
gets the register that its color stands for. But a color stands for a register only below the
budget, while success is judged by how many colors there are. So a coloring with gaps can leave
names without a register, and the code names exactly these as they were. -/
namespace Regalloc

def Coloring.GapFree (c : Coloring) : Prop :=
  ∀ x color, c.get? x = some color → ∀ b < color, ∃ y, c.get? y = some b

namespace Colorer

variable {colorer : Colorer}

structure Honest (colorer : Colorer) : Prop where
  proper : ∀ g : Graph, g.Simple → Coloring.Proper g (colorer.color g)
  counted : ∀ g : Graph, g.Simple →
    (colorer.color g).used = countDistinct ((colorer.color g).colors.toList.map Prod.snd)

theorem Honest.passes (honest : colorer.Honest) (t : Target) (p : Program) (flow : ControlFlow) :
    colorer.Passes t p (p.liveness flow) := fun _ g built =>
  Coloring.violationNone.mpr
    (honest.proper g (Interference.exactSimple (Program.interferenceSource built)))

theorem builtInHonest (builtIn : colorer.BuiltIn) : colorer.Honest where
  proper _ simple := Coloring.properOfExact simple (builtInExact builtIn simple)
  counted _ _ := by cases builtIn <;> rfl

def spread (colorer : Colorer) : Colorer :=
  ⟨"spread", fun g =>
    Coloring.ofColors ((colorer.color g).colors.mapValues fun _ color => 100 * color)⟩

theorem spreadGet (g : Graph) (x : Name) :
    ((spread colorer).color g).get? x = ((colorer.color g).get? x).map (100 * ·) :=
  NameMap.getMapValues

theorem spreadHonest (honest : colorer.Honest) : (spread colorer).Honest where
  proper g simple := by
    have proper := honest.proper g simple
    have apart : Function.Injective (Option.map (100 * · : Nat → Nat)) :=
      Option.map_injective fun _ _ same => Nat.eq_of_mul_eq_mul_left (by decide) same
    refine ⟨fun x vertex => ?_, fun x y joined same => ?_⟩
    · obtain ⟨color, given⟩ := proper.total x vertex
      exact ⟨100 * color, by rw [spreadGet, given]; rfl⟩
    · rw [spreadGet, spreadGet] at same
      exact proper.proper x y joined (apart same)
  counted _ _ := rfl

end Colorer

def Attempt.stranded (last : Attempt) (t : Target) : NameSet :=
  last.graph.vertices.filter fun x =>
    (last.coloring.get? x).any fun color => decide (t.budget ≤ color)

namespace Expansion

variable {t : Target} {place : Placement} {live : NameSet} {inst : Instruction} {x : Name}
  {scratch : List (Name × Register)}

theorem registerUnplaced (absent : ∀ entry ∈ scratch, entry.1 ≠ x) (unplaced : ¬ Placed t place x) :
    register? t place scratch x = none := by
  obtain ⟨unreserved, unplaced⟩ := not_or.mp unplaced
  obtain ⟨ungiven, unspilled⟩ := not_or.mp unplaced
  have none : scratch.find? (fun entry => entry.1 == x) = none :=
    List.find?_eq_none.mpr fun entry mem same => absent entry mem (beq_iff_eq.mp same)
  have given : place.registers.get? x = .none :=
    Option.eq_none_iff_forall_ne_some.mpr fun r found => ungiven (NameMap.memKeysIff.mpr ⟨r, found⟩)
  unfold register?
  rw [none, Target.unbound (eq_false_of_ne_true unreserved), given, Spills.contains,
    decide_eq_false unspilled]
  rfl

theorem coreKeeps (absent : ∀ entry ∈ scratch, entry.1 ≠ x) (unplaced : ¬ Placed t place x)
    (named : x ∈ inst.registers) (op : Opcode) : x ∈ (core t place scratch op inst).registers := by
  have own : Value.register x ∈ inst.statement.operands :=
    Statement.memRegisters.mp (inst.registersStatement ▸ named)
  obtain ⟨operand, present, value⟩ := List.mem_map.mp own
  refine Statement.memRegisters.mpr (List.mem_map.mpr ⟨operand, present, ?_⟩)
  rw [value, rename, registerUnplaced absent unplaced]
  rfl

theorem decorateKeeps {label comment : Option String} {lines : List Statement} {line : Statement}
    (mem : line ∈ lines) :
    ∃ marked ∈ decorate label comment lines, marked.operands = line.operands := by
  cases lines with
  | nil => contradiction
  | cons first rest =>
    rcases List.mem_cons.mp mem with rfl | later
    · exact ⟨_, List.mem_cons_self, rfl⟩
    · exact ⟨line, List.mem_cons_of_mem _ later, rfl⟩

theorem statementsKeep (unplaced : ¬ Placed t place x) (named : x ∈ inst.registers)
    (coded : inst.opcode ≠ none) : ∃ line ∈ statements t place live inst, x ∈ line.registers := by
  obtain ⟨op, coded⟩ := Option.ne_none_iff_exists'.mp coded
  have own : ∃ line ∈ body t place live inst, x ∈ line.registers := by
    by_cases called : op = .call
    · subst called
      have unseen : ∀ entry ∈ ([] : List (Name × Register)), entry.1 ≠ x := fun _ mem => nomatch mem
      refine ⟨_, ?_, coreKeeps unseen unplaced named .call⟩
      simp [body, coded, call]
    · -- The scratch registers stand for spilled names, and a spilled name has a place.
      have unseen : ∀ entry ∈ scratch t place inst, entry.1 ≠ x := fun entry mem same =>
        unplaced (.inr (.inr (same ▸ scratchSpilled t place inst entry mem)))
      refine ⟨_, ?_, coreKeeps unseen unplaced named op⟩
      exact bodyOperation coded called ▸ List.mem_append_right _ List.mem_cons_self
  obtain ⟨line, mem, held⟩ := own
  obtain ⟨marked, inside, same⟩ := decorateKeeps mem
  exact ⟨marked, inside, Statement.memRegisters.mpr (same ▸ Statement.memRegisters.mp held)⟩

end Expansion

theorem Program.memExpand {p : Program} {t : Target} {l : Liveness} {place : Placement}
    {line : Statement} : Emitted.statement line ∈ p.expand t l place ↔
      ∃ i inst, p.instructions[i]? = some inst ∧
        line ∈ Expansion.statements t place (l.liveIn i) inst := by
  have flat : Emitted.statement line ∈ p.expand t l place ↔ line ∈ (p.blocks t l place).flatten := by
    rw [← expandStatements, List.mem_filterMap]
    refine ⟨fun mem => ⟨_, mem, rfl⟩, fun ⟨e, mem, found⟩ => ?_⟩
    cases e with
    | verbatim text => contradiction
    | statement other => exact Option.some.inj found ▸ mem
  rw [flat, List.mem_flatten]
  constructor
  · rintro ⟨block, inside, mem⟩
    obtain ⟨⟨inst, i⟩, present, rfl⟩ := List.mem_map.mp inside
    exact ⟨i, inst, List.mk_mem_zipIdx_iff_getElem?.mp present, mem⟩
  · rintro ⟨i, inst, present, mem⟩
    exact ⟨_, List.mem_of_getElem? (blockAt present), mem⟩

namespace Allocation

variable {t : Target} {p : Program} {flow : ControlFlow} {colorer : Colorer} {last : Attempt}
  {registers : NameMap Register} {x y : Name}

namespace Settled

variable (settled : Settled t p flow colorer last registers)
include settled

theorem colorsRegister (vertex : x ∈ last.graph.vertices) :
    ∃ color, last.coloring.get? x = some color ∧ registers.get? x = t.register? color := by
  obtain ⟨color, given⟩ := settled.proper.total x vertex
  refine ⟨color, given, ?_⟩
  rw [settled.registers, Allocation.registers, NameMap.getFilterMap]
  exact congrArg (·.bind t.register?) given

theorem memStranded :
    x ∈ last.stranded t ↔ x ∈ last.graph.vertices ∧ registers.get? x = none := by
  rw [Attempt.stranded, NameSet.memFilter]
  refine and_congr_right fun vertex => ?_
  obtain ⟨color, given, found⟩ := settled.colorsRegister vertex
  rw [given, found, Option.any_some, decide_eq_true_iff, ← Nat.not_lt, ← Target.registerSome,
    ← Option.isSome_iff_exists, Bool.not_eq_true, Option.isSome_eq_false_iff,
    Option.isNone_iff_eq_none]

theorem placedOrStranded (named : x ∈ p.names) :
    Expansion.Placed t ⟨registers, last.spills⟩ x ∨ x ∈ last.stranded t := by
  cases reserved : t.isReserved x with
  | true => exact .inl (.inl reserved)
  | false =>
    by_cases spilled : x ∈ last.spills.names
    · exact .inl (.inr (.inr spilled))
    · have vertex := settled.memVertices.mpr ⟨named, reserved, spilled⟩
      cases found : registers.get? x with
      | some r => exact .inl (.inr (.inl (NameMap.memKeysIff.mpr ⟨r, found⟩)))
      | none => exact .inr (settled.memStranded.mpr ⟨vertex, found⟩)

theorem strandedUnplaced (stranded : x ∈ last.stranded t) :
    ¬ Expansion.Placed t ⟨registers, last.spills⟩ x := by
  obtain ⟨vertex, missing⟩ := settled.memStranded.mp stranded
  obtain ⟨_, unreserved, unspilled⟩ := settled.memVertices.mp vertex
  rintro (reserved | given | spilled)
  · exact absurd (unreserved.symm.trans reserved) Bool.false_ne_true
  · obtain ⟨r, found⟩ := NameMap.memKeysIff.mp given
    cases missing.symm.trans found
  · exact unspilled spilled

theorem codeNames {line : Statement} (l : Liveness)
    (mem : .statement line ∈ p.expand t l ⟨registers, last.spills⟩) (named : x ∈ line.registers) :
    (∃ r : Register, x = r.text) ∨ x ∈ last.stranded t := by
  obtain ⟨i, inst, present, inside⟩ := Program.memExpand.mp mem
  rcases Expansion.statementsNames (Expansion.allowsAll t _) _ line inside x named with
    ⟨r, _, same⟩ | ⟨own, unplaced⟩
  · exact .inl ⟨r, same⟩
  · exact .inr ((settled.placedOrStranded (Program.memNames.mpr
      ⟨inst, List.mem_of_getElem? present, own⟩)).resolve_left unplaced)

theorem codeKeeps {inst : Instruction} (l : Liveness) (stranded : x ∈ last.stranded t)
    (present : inst ∈ p.instructions) (coded : inst.opcode ≠ none) (named : x ∈ inst.registers) :
    ∃ line, .statement line ∈ p.expand t l ⟨registers, last.spills⟩ ∧ x ∈ line.registers := by
  obtain ⟨i, at_⟩ := List.mem_iff_getElem?.mp present
  obtain ⟨line, inside, held⟩ :=
    Expansion.statementsKeep (settled.strandedUnplaced stranded) named coded
  exact ⟨line, Program.memExpand.mpr ⟨i, inst, at_, inside⟩, held⟩

theorem strandedNone (honest : colorer.Honest) (gapFree : last.coloring.GapFree) :
    last.stranded t = ∅ := by
  have counted := honest.counted last.graph (Interference.exactSimple settled.graphExact)
  rw [← settled.coloring] at counted
  refine NameSet.ext fun x => iff_of_false (fun stranded => ?_) NameSet.notMemEmpty
  obtain ⟨vertex, missing⟩ := settled.memStranded.mp stranded
  obtain ⟨color, given, found⟩ := settled.colorsRegister vertex
  have below : color < last.coloring.used :=
    counted ▸ (Coloring.usedOfGapFree gapFree color).mpr ⟨x, given⟩
  obtain ⟨r, bound⟩ := Target.registerSome.mpr (Nat.lt_of_lt_of_le below settled.fits)
  cases missing.symm.trans (found.trans bound)

end Settled

/-- An honest colorer always gets an answer. On success each vertex has the register of its color,
and the code names registers and the vertices whose color is beyond the last register, all of these
and no others. A coloring without gaps has no such vertices. -/
theorem strandedExactly (honest : colorer.Honest) (t : Target) (p : Program) (flow : ControlFlow) :
    ∃ outcome, (p.allocate t colorer (p.liveness flow)).value = .ok outcome ∧
      ∀ last registers, outcome = .allocated last registers →
        let code := p.expand t (p.liveness flow) ⟨registers, last.spills⟩
        (∀ x ∈ last.graph.vertices, ∃ color, last.coloring.get? x = some color ∧
          registers.get? x = t.register? color) ∧
        (∀ x, x ∈ last.stranded t ↔ x ∈ last.graph.vertices ∧ registers.get? x = none) ∧
        (∀ x y r s, last.graph.hasEdge x y = true → registers.get? x = some r →
          registers.get? y = some s → r ≠ s) ∧
        (∀ line, .statement line ∈ code → ∀ x ∈ line.registers,
          (∃ r : Register, x = r.text) ∨ x ∈ last.stranded t) ∧
        (∀ x ∈ last.stranded t, ∀ inst ∈ p.instructions, inst.opcode ≠ none →
          x ∈ inst.registers → ∃ line, .statement line ∈ code ∧ x ∈ line.registers) ∧
        (last.coloring.GapFree → last.stranded t = ∅) := by
  obtain ⟨outcome, ok⟩ :=
    attemptsReturn (honest.passes t p flow) (t.attempts - 1) (Spills.none t.stride) []
  refine ⟨outcome, ok, fun last registers done => ?_⟩
  have settled := allocateSource (show (p.allocate t colorer (p.liveness flow)).value =
    .ok (.allocated last registers) from done ▸ ok)
  exact ⟨fun x => settled.colorsRegister, fun x => settled.memStranded,
    fun x y r s edge => settled.registersApart (of_decide_eq_true edge),
    fun line mem x => settled.codeNames _ mem,
    fun x stranded inst => settled.codeKeeps _ stranded, settled.strandedNone honest⟩

theorem pairStranded : (Colorer.spread .greedy).Honest ∧ ∃ p last registers,
    Program.parse "IN a\nIN b\nADD a a b\nOUT a\n" 0 = .ok p ∧
    (p.allocate Target.standard (.spread .greedy) (p.liveness p.flow)).value =
      .ok (.allocated last registers) ∧
    last.stranded Target.standard = NameSet.ofList ["b"] ∧ registers.get? "b" = none ∧
    (∃ line, .statement line ∈
      p.expand Target.standard (p.liveness p.flow) ⟨registers, last.spills⟩ ∧ "b" ∈ line.registers) ∧
    ∀ line, .statement line ∈
      p.expand Target.standard (p.liveness p.flow) ⟨registers, last.spills⟩ →
      ∀ x ∈ line.registers, (∃ r : Register, x = r.text) ∨ x = "b" := by
  have honest := Colorer.spreadHonest (Colorer.builtInHonest .greedy)
  have ran : (Program.parse "IN a\nIN b\nADD a a b\nOUT a\n" 0).toOption.any (fun p =>
      p.instructions.any (fun inst => inst.opcode.isSome && decide ("b" ∈ inst.registers)) &&
      (p.allocate Target.standard (.spread .greedy) (p.liveness p.flow)).value.toOption.any
        fun outcome => outcome.placement?.isSome &&
          decide (outcome.last.stranded Target.standard = NameSet.ofList ["b"])) = true := by
    decide +kernel
  obtain ⟨p, parsed, ran⟩ := okOf ran
  obtain ⟨ranLines, ran⟩ := Bool.and_eq_true_iff.mp ran
  obtain ⟨inst, present, ranLine⟩ := List.any_eq_true.mp ranLines
  obtain ⟨coded, named⟩ := Bool.and_eq_true_iff.mp ranLine
  obtain ⟨outcome, ok, ran⟩ := okOf ran
  cases outcome with
  | failed last budget => cases ran
  | allocated last registers =>
    have stranded : last.stranded Target.standard = NameSet.ofList ["b"] := of_decide_eq_true ran
    have here : "b" ∈ last.stranded Target.standard := by simp [stranded]
    obtain ⟨other, same, all⟩ := strandedExactly honest Target.standard p p.flow
    cases Except.ok.inj (ok.symm.trans same)
    obtain ⟨_, members, _, only, kept, _⟩ := all last registers rfl
    refine ⟨honest, p, last, registers, parsed, ok, stranded, ((members "b").mp here).2,
      kept "b" here inst present (Option.isSome_iff_ne_none.mp coded) (of_decide_eq_true named),
      fun line mem x held => (only line mem x held).imp_right fun left => ?_⟩
    simpa [stranded] using left

theorem spreadLeavesName : (Colorer.spread .greedy).Honest ∧ ∃ p last registers,
    Program.parse "IN a\nIN b\nADD a a b\nOUT a\n" 0 = .ok p ∧
    (p.allocate Target.standard (.spread .greedy) (p.liveness p.flow)).value =
      .ok (.allocated last registers) ∧
    ¬ (∀ x ∈ last.graph.vertices, ∃ r, registers.get? x = some r) ∧
    p.codeText Target.standard (p.liveness p.flow) ⟨registers, last.spills⟩ =
      "IN R0\nIN b\nADD R0 R0 b\nOUT R0\n" := by
  have ran : (Program.parse "IN a\nIN b\nADD a a b\nOUT a\n" 0).toOption.any (fun p =>
      (p.allocate Target.standard (.spread .greedy) (p.liveness p.flow)).value.toOption.any
        fun outcome => decide ("b" ∈ outcome.last.graph.vertices) &&
          outcome.placement?.any fun place => decide (place.registers.get? "b" = none) &&
            decide (p.codeText Target.standard (p.liveness p.flow) place =
              "IN R0\nIN b\nADD R0 R0 b\nOUT R0\n")) = true := by
    decide +kernel
  obtain ⟨p, parsed, ran⟩ := okOf ran
  obtain ⟨outcome, ok, ran⟩ := okOf ran
  obtain ⟨vertex, ran⟩ := Bool.and_eq_true_iff.mp ran
  cases outcome with
  | failed last budget => cases ran
  | allocated last registers =>
    obtain ⟨missing, text⟩ := Bool.and_eq_true_iff.mp ran
    refine ⟨Colorer.spreadHonest (Colorer.builtInHonest .greedy), p, last, registers, parsed, ok,
      fun all => ?_, of_decide_eq_true text⟩
    obtain ⟨r, found⟩ := all "b" (of_decide_eq_true vertex)
    cases (of_decide_eq_true missing).symm.trans found

end Allocation

end Regalloc
