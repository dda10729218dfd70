import Regalloc.Proofs.NameOrder

/-! Layout does not matter. An instruction is known by its position among the instructions, so blank
lines, comments, spacing and line ends change nothing in a run but the comments and the verbatim
lines of the code. -/
namespace Regalloc

namespace Statement

theorem renameNone (s : Statement) : s.rename (Equiv.refl Name) = s := by
  have values : Value.rename (Equiv.refl Name) = id := funext fun value => Value.renameId
  rw [rename, values, List.map_id]

end Statement

namespace Expansion

variable {t : Target} {l : Liveness} {place : Placement} {live : NameSet} {inst other : Instruction}

theorem bodyAlike (same : other.statement.outline = inst.statement.outline) :
    body t place live other = body t place live inst := by
  have renamed : inst.Renamed (Equiv.refl Name) other :=
    Instruction.renamedOf (same.trans (Statement.renameNone _).symm)
  have registers : place.registers.mapKeys (Equiv.refl Name) = place.registers := by
    ext1 x
    exact NameMap.getMapKeys
  have spills : place.spills.rename (Equiv.refl Name) = place.spills := by
    simp [Spills.rename]
  have names : live.map (Equiv.refl Name) = live := NameSet.mapId
  have block : body t (place.rename (Equiv.refl Name)) (live.map (Equiv.refl Name)) other =
      body t place live inst := bodyRename renamed fun x _ => ⟨rfl, .inr rfl⟩
  rwa [Placement.rename, registers, spills, names] at block

theorem decorateOutline {label comment other : Option String} {lines : List Statement}
    (nonempty : lines ≠ []) : (decorate label comment lines).map Statement.outline =
      (decorate label other lines).map Statement.outline := by
  cases lines with
  | nil => exact absurd rfl nonempty
  | cons first rest => rfl

theorem statementsOutline (readable : inst.statement.Readable) (readable' : other.statement.Readable)
    (same : other.statement.outline = inst.statement.outline) :
    (statements t place live other).map Statement.outline =
      (statements t place live inst).map Statement.outline := by
  have opcode : other.opcode = inst.opcode := congrArg Statement.opcode same
  cases coded : inst.opcode with
  | none =>
    rw [statementsBare readable coded, statementsBare readable' (opcode.trans coded)]
    exact congrArg (fun s => [s]) same
  | some op =>
    have label : other.label.map Prod.fst = inst.label.map Prod.fst := congrArg Statement.label same
    rw [statementsBody, statementsBody, bodyAlike same, label]
    exact decorateOutline (bodyCoded coded t place live).1

theorem blocksOutline {insts others : List Instruction}
    (readable : ∀ inst ∈ insts, inst.statement.Readable)
    (readable' : ∀ inst ∈ others, inst.statement.Readable)
    (same : (others.map Instruction.statement).map Statement.outline =
      (insts.map Instruction.statement).map Statement.outline) (i : Nat) :
    (blocksFrom t l place i others).flatten.map Statement.outline =
      (blocksFrom t l place i insts).flatten.map Statement.outline := by
  induction insts generalizing others i with
  | nil =>
    rw [List.map_map] at same
    rw [List.map_eq_nil_iff.mp same]
  | cons inst insts ih =>
    rw [List.map_map, List.map_cons, List.map_cons] at same
    obtain ⟨other, rest, rfl, head, tail⟩ := List.map_eq_cons_iff.mp same
    have later := ih (fun inst mem => readable inst (List.mem_cons_of_mem _ mem))
      (fun inst mem => readable' inst (List.mem_cons_of_mem _ mem))
      ((List.map_map ..).trans tail) (i + 1)
    have block : (statements t place (l.liveIn i) other).map Statement.outline =
        (statements t place (l.liveIn i) inst).map Statement.outline :=
      statementsOutline (readable inst List.mem_cons_self) (readable' other List.mem_cons_self) head
    simp only [blocksFrom, List.zipIdx_cons, List.map_cons, List.flatten_cons,
      List.map_append] at later ⊢
    rw [block, later]

end Expansion

namespace Allocation

theorem attemptsAlike {t : Target} {colorer : Colorer} {p q : Program} {l : Liveness}
    (same : ∀ excluded, q.interference t l excluded = p.interference t l excluded) (more : Nat)
    (s : Spills) (past : List Nat) :
    attempts t colorer q l more s past = attempts t colorer p l more s past := by
  induction more generalizing s past with
  | zero => rw [attempts.eq_def, attempts.eq_def t colorer p, same]
  | succ more ih =>
    rw [attempts.eq_def, attempts.eq_def t colorer p, same]
    cases p.interference t l s.nameSet with
    | error fault => rfl
    | ok graph =>
      dsimp only
      cases graph.mostConflicted? with
      | none => rfl
      | some x => simp only [ih]

end Allocation

namespace Program

variable {t : Target} {colorer : Colorer} {p q : Program} {flow : ControlFlow}

section Alike

variable (same : q.outline = p.outline)
include same

theorem renamedNone : p.Renamed (Equiv.refl Name) q := by
  have none : Statement.rename (Equiv.refl Name) = id := funext Statement.renameNone
  rw [Renamed, none, List.map_id, same]

theorem livenessAlike : q.liveness flow = p.liveness flow :=
  ((renamedNone same).liveness flow).trans Liveness.renameId

theorem interferenceAlike (l : Liveness) (excluded : NameSet) :
    q.interference t l excluded = p.interference t l excluded := by
  have names : q.names = p.names := (renamedNone same).names.trans NameSet.mapId
  simp only [interference, Interference.vertices, Interference.conflicts, names,
    (renamedNone same).size]

theorem allocateAlike (l : Liveness) : q.allocate t colorer l = p.allocate t colorer l := by
  simp only [allocate, Allocation.attemptsAlike (interferenceAlike same l)]

theorem controlFlowAlike : q.controlFlow.mapError (List.map Issue.code) =
    p.controlFlow.mapError (List.map Issue.code) := (renamedNone same).controlFlow

theorem issuesAlike {found : List Issue} (flows : p.controlFlow = .error found) :
    ∃ found', q.controlFlow = .error found' ∧ found'.map Issue.code = found.map Issue.code := by
  have codes := controlFlowAlike same
  rw [flows] at codes
  cases flows' : q.controlFlow with
  | error found' =>
    rw [flows'] at codes
    exact ⟨found', rfl, Except.error.inj codes⟩
  | ok flow =>
    rw [flows'] at codes
    contradiction

theorem compileIssuesAlike (t : Target) (colorer : Colorer) {found : List Issue}
    (flows : p.controlFlow = .error found) :
    (q.compile t colorer).notices = (p.compile t colorer).notices ∧
      (p.compile t colorer).value = .error (.issues found) ∧
      ∃ found', (q.compile t colorer).value = .error (.issues found') ∧
        found'.map Issue.code = found.map Issue.code := by
  obtain ⟨found', flows', codes⟩ := issuesAlike same flows
  refine ⟨?_, ?_, found', ?_, codes⟩ <;> simp only [compile, Notice.controlFlow, flows, flows']

theorem compileFlowAlike (t : Target) (colorer : Colorer) (flows : p.controlFlow = .ok flow) :
    (q.compile t colorer).notices = (p.compile t colorer).notices ∧
      (q.compile t colorer).value = (p.compile t colorer).value.map fun c =>
        { c with code := c.outcome.placement?.map (q.codeText t c.liveness) } := by
  have flows' : q.controlFlow = .ok flow := (renamedNone same).flows flows
  have size := (renamedNone same).size
  simp only [compile, Notice.controlFlow, flows, flows', size, livenessAlike same,
    allocateAlike same]
  cases p.allocate t colorer (p.liveness flow) with
  | mk notices value => cases value <;> exact ⟨rfl, rfl⟩

end Alike

theorem codeTextAlike {source other : String} {file file' : Nat}
    (parsed : Program.parse source file = .ok p) (parsed' : Program.parse other file' = .ok q)
    (same : q.outline = p.outline) {place : Placement}
    (spilled : ∀ x ∈ place.spills.names, x ∈ p.names) (l : Liveness) (out out' : Nat) :
    ∃ r r', Program.parse (p.codeText t l place) out = .ok r ∧
      Program.parse (q.codeText t l place) out' = .ok r' ∧ r'.outline = r.outline := by
  have readable := parseReadable parsed
  have readable' := parseReadable parsed'
  have names : q.names = p.names := (renamedNone same).names.trans NameSet.mapId
  obtain ⟨r, read, code, _⟩ := codeTextReads readable (blocksReadable readable l) spilled out
  obtain ⟨r', read', code', _⟩ :=
    codeTextReads readable' (blocksReadable readable' l) (names ▸ spilled) out'
  refine ⟨r, r', read, read', ?_⟩
  rw [outline, outline, code, code']
  exact Expansion.blocksOutline (fun inst mem => readableAt readable mem)
    (fun inst mem => readableAt readable' mem) same 0

theorem compiledAlike {source other : String} {file file' : Nat} {c : Compilation} {out : String}
    (parsed : Program.parse source file = .ok p) (parsed' : Program.parse other file' = .ok q)
    (same : q.outline = p.outline) (ok : (p.compile t colorer).value = .ok c)
    (emitted : c.code = some out) :
    ∃ out', c.outcome.placement?.map (q.codeText t c.liveness) = some out' ∧
      ∀ outFile outFile', ∃ r r', Program.parse out outFile = .ok r ∧
        Program.parse out' outFile' = .ok r' ∧ r'.outline = r.outline := by
  obtain ⟨last, registers, _, allocated, live, outcome, rfl⟩ := compileSource ok emitted
  have settled := Allocation.allocateSource allocated
  refine ⟨q.codeText t (p.liveness c.flow) ⟨registers, last.spills⟩, ?_, fun out out' => ?_⟩
  · rw [live, outcome]
    rfl
  · exact codeTextAlike parsed parsed' same (fun x mem => (settled.spills.named x mem).1)
      (p.liveness c.flow) out out'

theorem layoutDoesNotMatter {source other : String} {file file' : Nat}
    (parsed : Program.parse source file = .ok p) (parsed' : Program.parse other file' = .ok q)
    (same : q.outline = p.outline) (t : Target) (colorer : Colorer) :
    q.controlFlow.mapError (List.map Issue.code) = p.controlFlow.mapError (List.map Issue.code) ∧
    (q.compile t colorer).notices = (p.compile t colorer).notices ∧
    (∀ found, (p.compile t colorer).value = .error (.issues found) →
      ∃ found', (q.compile t colorer).value = .error (.issues found') ∧
        found'.map Issue.code = found.map Issue.code) ∧
    (∀ fault, (p.compile t colorer).value = .error (.fault fault) →
      (q.compile t colorer).value = .error (.fault fault)) ∧
    (∀ flow, p.controlFlow = .ok flow → q.controlFlow = .ok flow ∧
      q.liveness flow = p.liveness flow ∧
      ∀ excluded, q.interference t (q.liveness flow) excluded =
        p.interference t (p.liveness flow) excluded) ∧
    ∀ c, (p.compile t colorer).value = .ok c → ∃ c', (q.compile t colorer).value = .ok c' ∧
      c'.flow = c.flow ∧ c'.liveness = c.liveness ∧ c'.outcome = c.outcome ∧
      (c.code = none → c'.code = none) ∧
      ∀ out, c.code = some out → ∃ out', c'.code = some out' ∧ ∀ outFile outFile', ∃ r r',
        Program.parse out outFile = .ok r ∧ Program.parse out' outFile' = .ok r' ∧
        r'.outline = r.outline := by
  refine ⟨controlFlowAlike same, ?_⟩
  cases flows : p.controlFlow with
  | error found =>
    obtain ⟨told, failed, others⟩ := compileIssuesAlike same t colorer flows
    refine ⟨told, fun found' failed' => ?_, fun fault failed' => ?_, fun flow ok => (nomatch ok),
      fun c ok => ?_⟩
    · rw [failed] at failed'
      cases failed'
      exact others
    · rw [failed] at failed'
      cases failed'
    · rw [failed] at ok
      cases ok
  | ok flow =>
    obtain ⟨told, value⟩ := compileFlowAlike same t colorer flows
    refine ⟨told, fun found failed => ?_, fun fault failed => ?_, fun flow' ok => ?_, fun c ok => ?_⟩
    · rw [value, failed]
      exact ⟨found, rfl, rfl⟩
    · rw [value, failed]
      rfl
    · cases ok
      refine ⟨(renamedNone same).flows flows, livenessAlike same, fun excluded => ?_⟩
      rw [livenessAlike same, interferenceAlike same]
    · rw [value, ok]
      refine ⟨_, rfl, rfl, rfl, rfl, fun failed => ?_, fun out emitted => ?_⟩
      · rw [compileCode ok, Option.map_eq_none_iff] at failed
        simp [failed]
      · exact compiledAlike parsed parsed' same ok emitted

theorem loopLayout : ∃ p q c c' out out' r r',
    Program.parse "l: IN a\nOUT a\nJMP l\n" 0 = .ok p ∧
    Program.parse "# loop\r\n\r\nl:  IN a # first\r\n OUT a\r\nJMP l" 1 = .ok q ∧
    q.outline = p.outline ∧ q.code ≠ p.code ∧
    (p.compile Target.standard .greedy).value = .ok c ∧ c.code = some out ∧
    (q.compile Target.standard .greedy).value = .ok c' ∧ c'.code = some out' ∧
    c'.outcome = c.outcome ∧ Program.parse out 0 = .ok r ∧ Program.parse out' 0 = .ok r' ∧
    r'.outline = r.outline := by
  have ran : (Program.parse "l: IN a\nOUT a\nJMP l\n" 0).toOption.any (fun p =>
      (p.compile Target.standard .greedy).value.toOption.any (fun c => c.code.isSome) &&
      (Program.parse "# loop\r\n\r\nl:  IN a # first\r\n OUT a\r\nJMP l" 1).toOption.any fun q =>
        decide (q.outline = p.outline ∧ q.code ≠ p.code)) = true := by decide +kernel
  obtain ⟨p, parsed, ran⟩ := Allocation.okOf ran
  obtain ⟨ran, ran'⟩ := Bool.and_eq_true_iff.mp ran
  obtain ⟨c, compiled, some⟩ := Allocation.okOf ran
  obtain ⟨out, emitted⟩ := Option.isSome_iff_exists.mp some
  obtain ⟨q, parsed', ran'⟩ := Allocation.okOf ran'
  obtain ⟨same, apart⟩ := of_decide_eq_true ran'
  obtain ⟨_, _, _, _, _, compiles⟩ := layoutDoesNotMatter parsed parsed' same Target.standard .greedy
  obtain ⟨c', compiled', _, _, outcome, _, codes⟩ := compiles c compiled
  obtain ⟨out', emitted', texts⟩ := codes out emitted
  obtain ⟨r, r', read, read', alike⟩ := texts 0 0
  exact ⟨p, q, c, c', out, out', r, r', parsed, parsed', same, apart, compiled, emitted, compiled',
    emitted', outcome, read, read', alike⟩

end Program

end Regalloc
