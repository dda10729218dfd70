import Regalloc.Proofs.RenamedCode

/-! Names matter through their order alone. A program whose registers are renamed without changing the
order of those that are not reserved is compiled in the same way, attempt by attempt, to the same
code. Only the list of what is spilled tells the names. -/
namespace Regalloc

open NameSet (Increasing)

variable {t : Target} {p q : Program} {σ : Name ≃ Name} {ρ : Name → Name}

namespace Statement

theorem renameAgree {s : Statement} (same : ∀ x ∈ s.registers, σ x = ρ x) :
    s.rename σ = s.rename ρ := by
  have operands : s.operands.map (Value.rename σ) = s.operands.map (Value.rename ρ) := by
    refine List.map_congr_left fun value mem => ?_
    cases value with
    | register x => exact congrArg Value.register (same x (memRegisters.mpr mem))
    | immediate text => rfl
    | label text => rfl
  rw [rename, rename, operands]

end Statement

def Emitted.rename (f : Name → Name) : Emitted → Emitted
  | verbatim text => verbatim text
  | statement s => statement (s.rename f)

namespace Instruction

variable {inst other : Instruction} {f : Name → Name}

theorem renamedOf (same : other.statement.outline = inst.statement.outline.rename f) :
    inst.Renamed f other where
  opcode := congrArg Statement.opcode same
  operands := (congrArg Statement.operands same).trans (by
    simp [Statement.outline, Statement.rename, statement, Function.comp_def])

end Instruction

namespace Program

def ReadsRenamed (f : Name → Name) (p q : Program) : Prop :=
  q.lines.map Line.emitted = p.lines.map fun line => line.emitted.rename f

namespace ReadsRenamed

theorem renamed (reads : p.ReadsRenamed ρ q) : p.Renamed ρ q := by
  have own (e : Emitted) : (e.rename ρ).statement? = e.statement?.map (Statement.rename ρ) := by
    cases e <;> rfl
  have code : q.code = p.code.map (Statement.rename ρ) := by
    rw [Program.code, statements, reads, Program.code, statements, List.filterMap_map,
      List.filterMap_map, List.map_filterMap]
    exact List.filterMap_congr fun line _ => own line.emitted
  rw [Renamed, outline, outline, code, List.map_map, List.map_map]
  rfl

theorem agree (reads : p.ReadsRenamed ρ q) (same : ∀ x ∈ p.names, σ x = ρ x) :
    p.ReadsRenamed σ q := by
  refine Eq.trans reads (List.map_congr_left fun line mem => ?_)
  cases line with
  | verbatim text => rfl
  | code inst =>
    refine congrArg Emitted.statement (Statement.renameAgree fun x named => same x ?_).symm
    exact memNames.mpr ⟨inst, List.mem_filterMap.mpr ⟨_, mem, rfl⟩, inst.registersStatement ▸ named⟩

end ReadsRenamed

namespace Ordered

theorem injective (ordered : p.Ordered t ρ) {x y : Name} (memX : x ∈ p.names) (memY : y ∈ p.names)
    (same : ρ x = ρ y) : x = y := by
  have own {z : Name} (mem : z ∈ p.names) (free : t.isReserved z = false) : z ∈ p.ownNames t :=
    NameSet.memFilter.mpr ⟨mem, by simp [free]⟩
  have apart {y z : Name} (memY : y ∈ p.names) (memZ : z ∈ p.names) (fixed : t.isReserved y = true)
      (free : t.isReserved z = false) : ρ y ≠ ρ z := fun same => by
    have kept := ordered.free z memZ free
    rw [← same, ordered.fixed y memY fixed, fixed] at kept
    contradiction
  cases reservedX : t.isReserved x <;> cases reservedY : t.isReserved y
  · exact ordered.increasing.injective (own memX reservedX) (own memY reservedY) same
  · exact absurd same.symm (apart memY memX reservedY reservedX)
  · exact absurd same (apart memX memY reservedX reservedY)
  · rw [← ordered.fixed x memX reservedX, same, ordered.fixed y memY reservedY]

theorem agree (ordered : p.Ordered t ρ) (same : ∀ x ∈ p.names, σ x = ρ x) : p.Ordered t σ where
  fixed x named reserved := (same x named).trans (ordered.fixed x named reserved)
  free x named free := same x named ▸ ordered.free x named free
  increasing x memX y memY below := by
    rw [same x (NameSet.memFilter.mp memX).1, same y (NameSet.memFilter.mp memY).1]
    exact ordered.increasing x memX y memY below

theorem extend (ordered : p.Ordered t ρ) : ∃ σ : Name ≃ Name, ∀ x ∈ p.names, σ x = ρ x :=
  NameSet.renamingOfList p.names.nodup fun _ memX _ memY => ordered.injective memX memY

end Ordered

theorem allocateRename {colorer : Colorer} (builtIn : colorer.BuiltIn) (renamed : p.Renamed σ q)
    (ordered : p.Ordered t σ) (flow : ControlFlow) :
    (q.allocate t colorer (q.liveness flow)).value =
      (p.allocate t colorer (p.liveness flow)).value.map (Outcome.rename σ) :=
  Allocation.attemptsRename builtIn renamed ordered flow _ (Spills.none t.stride) []

end Program

namespace Program

theorem liveAgree {flow : ControlFlow} (same : ∀ x ∈ p.names, σ x = ρ x) (i : Nat) :
    ((p.liveness flow).rename σ).liveIn i = ((p.liveness flow).liveIn i).map ρ ∧
      ((p.liveness flow).rename σ).liveOut i = ((p.liveness flow).liveOut i).map ρ := by
  rw [Liveness.liveInRename, Liveness.liveOutRename]
  exact ⟨NameSet.mapAgree fun x mem => same x (liveNamed (.inl mem)),
    NameSet.mapAgree fun x mem => same x (liveNamed (.inr mem))⟩

end Program

theorem Spills.slotsRename (s : Spills) : (s.rename ρ).slots = s.slots.map (Prod.map ρ id) := by
  rw [slots, slots, rename, List.zipIdx_map, List.map_map, List.map_map]
  rfl

namespace Allocation.Settled

variable {flow : ControlFlow} {colorer : Colorer} {last : Attempt} {registers : NameMap Register}
  (settled : Settled t p flow colorer last registers) (same : ∀ x ∈ p.names, σ x = ρ x)
include settled same

theorem vertexAgree {x : Name} (mem : x ∈ last.graph.vertices) : σ x = ρ x :=
  same x (settled.memVertices.mp mem).1

theorem verticesAgree : (last.rename σ).graph.vertices = last.graph.vertices.map ρ :=
  Graph.verticesRename.trans (NameSet.mapAgree fun _ mem => settled.vertexAgree same mem)

theorem neighborsAgree {x : Name} (named : x ∈ p.names) :
    (last.rename σ).graph.neighbors (ρ x) = (last.graph.neighbors x).map ρ := by
  rw [← same x named]
  refine Graph.neighborsRename.trans ?_
  rw [σ.symm_apply_apply]
  have simple := Interference.exactSimple settled.graphExact
  exact NameSet.mapAgree fun y joined => settled.vertexAgree same (simple.closed x y joined)

theorem slotsAgree : (last.rename σ).spills.slots = last.spills.slots.map (Prod.map ρ id) := by
  have names : last.spills.names.map σ = last.spills.names.map ρ :=
    List.map_congr_left fun x mem => same x (settled.spills.named x mem).1
  rw [← Spills.slotsRename, Attempt.rename, Spills.rename, Spills.rename, names]

theorem registersAgree (builtIn : colorer.BuiltIn) :
    (registers.mapKeys σ).keys = registers.keys.map ρ := by
  rw [← NameSet.mapAgree fun x mem =>
    settled.vertexAgree same ((settled.memRegisters builtIn).mp mem)]
  exact NameSet.ext fun x => by simp

end Allocation.Settled

namespace Expansion

variable {l : Liveness} {place : Placement}

theorem linesRename {before after : List Line}
    (reads : after.map Line.emitted = before.map fun line => line.emitted.rename σ)
    (steady : ∀ inst, Line.code inst ∈ before → ∀ x ∈ inst.registers, Steady t place σ x) (i : Nat) :
    lines t (l.rename σ) (place.rename σ) i after = lines t l place i before := by
  induction before generalizing after i with
  | nil =>
    rw [List.map_eq_nil_iff.mp reads]
    rfl
  | cons line before ih =>
    obtain ⟨other, rest, rfl, head, tail⟩ := List.map_eq_cons_iff.mp reads
    have later := ih tail fun inst mem => steady inst (List.mem_cons_of_mem _ mem)
    cases line with
    | verbatim text =>
      cases other with
      | code inst => contradiction
      | verbatim text' =>
        cases head
        rw [lines, lines, later]
    | code inst =>
      cases other with
      | verbatim text => contradiction
      | code inst' =>
        have same : inst'.statement = inst.statement.rename σ := Emitted.statement.inj head
        have renamed : inst.Renamed σ inst' :=
          Instruction.renamedOf (congrArg Statement.outline same)
        have label : inst'.label.map Prod.fst = inst.label.map Prod.fst :=
          congrArg Statement.label same
        have comment : inst'.comment = inst.comment := congrArg Statement.comment same
        rw [lines, lines, later, statementsBody, statementsBody, label, comment,
          Liveness.liveInRename, bodyRename renamed (steady inst List.mem_cons_self)]

end Expansion

namespace Program

variable {colorer : Colorer} {c : Compilation} {out : String}

/-- A renaming that leaves reserved names alone and keeps the order of the others goes through the
whole run. What is in registers or slots stays there, and only the list of what is spilled shows. -/
theorem namesMatterByOrder (builtIn : colorer.BuiltIn)
    (compiled : (p.compile t colorer).value = .ok c) (emitted : c.code = some out)
    (ordered : p.Ordered t ρ) (reads : p.ReadsRenamed ρ q) :
    ∃ last registers c' last' registers' body,
      (q.compile t colorer).value = .ok c' ∧ c.outcome = .allocated last registers ∧
      c'.outcome = .allocated last' registers' ∧ c'.flow = c.flow ∧
      c'.liveness.passes = c.liveness.passes ∧
      (∀ i, c'.liveness.liveIn i = (c.liveness.liveIn i).map ρ ∧
        c'.liveness.liveOut i = (c.liveness.liveOut i).map ρ) ∧
      last'.graph.vertices = last.graph.vertices.map ρ ∧
      (∀ x ∈ p.names, last'.graph.neighbors (ρ x) = (last.graph.neighbors x).map ρ) ∧
      last'.history = last.history ∧
      last'.spills.slots = last.spills.slots.map (Prod.map ρ id) ∧
      registers'.keys = registers.keys.map ρ ∧
      (∀ x ∈ p.names, registers'.get? (ρ x) = registers.get? x) ∧
      out = Emitted.unlines (Expansion.header last.spills ++ body) ∧
      c'.code = some (Emitted.unlines (Expansion.header last'.spills ++ body)) := by
  obtain ⟨σ, same⟩ := ordered.extend
  have kept := ordered.agree same
  have read := reads.agree same
  have renamed := read.renamed
  obtain ⟨last, registers, flows, ok, live, outcome, rfl⟩ := compileSource compiled emitted
  have settled := Allocation.allocateSource ok
  have allocated := allocateRename builtIn renamed kept c.flow
  rw [ok] at allocated
  have steady : ∀ inst, Line.code inst ∈ p.lines → ∀ x ∈ inst.registers,
      Expansion.Steady t ⟨registers, last.spills⟩ σ x := fun inst mem x named => by
    have inside : x ∈ p.names :=
      memNames.mpr ⟨inst, List.mem_filterMap.mpr ⟨_, mem, rfl⟩, named⟩
    exact ⟨kept.reserved inside, .inl (settled.placed builtIn inside)⟩
  have lines := Expansion.linesRename (l := p.liveness c.flow) read steady 0
  refine ⟨last, registers, _, last.rename σ, registers.mapKeys σ,
    Expansion.lines t (p.liveness c.flow) ⟨registers, last.spills⟩ 0 p.lines,
    compileValue (renamed.flows flows) allocated, outcome, rfl, rfl, ?_, fun i => ?_,
    settled.verticesAgree same, fun x => settled.neighborsAgree same, rfl, settled.slotsAgree same,
    settled.registersAgree same builtIn, fun x named => ?_, rfl, ?_⟩
  · rw [live, renamed.liveness]
    rfl
  · dsimp only
    rw [live, renamed.liveness]
    exact liveAgree same i
  · rw [← same x named]
    simp
  · dsimp only [Outcome.rename, Outcome.placement?, Option.map_some]
    rw [codeText, expand, renamed.liveness]
    exact congrArg (fun body => some (Emitted.unlines (_ ++ body))) lines

theorem pairRenamed : ∃ p q c c' out,
    Program.parse "IN a # one\nIN b\nADD a a b\nOUT a\n" 0 = .ok p ∧
    Program.parse "IN p # one\nIN q\nADD p p q\nOUT p\n" 0 = .ok q ∧
    (p.compile { Target.standard with registers := 1 } .greedy).value = .ok c ∧ c.code = some out ∧
    c.outcome.last.spills.slots = [("a", 0)] ∧
    (q.compile { Target.standard with registers := 1 } .greedy).value = .ok c' ∧
    c'.outcome.last.spills.slots = [("p", 0)] ∧ c'.outcome.last.history = c.outcome.last.history := by
  let ρ : Name → Name := fun x => if x = "a" then "p" else "q"
  have ran : (Program.parse "IN a # one\nIN b\nADD a a b\nOUT a\n" 0).toOption.any (fun p =>
      decide (p.names.toList = ["a", "b"]) &&
      (Program.parse "IN p # one\nIN q\nADD p p q\nOUT p\n" 0).toOption.any (fun q =>
        decide (q.lines.map Line.emitted = p.lines.map fun line => line.emitted.rename ρ)) &&
      (p.compile { Target.standard with registers := 1 } .greedy).value.toOption.any fun c =>
        c.code.isSome && decide (c.outcome.last.spills.slots = [("a", 0)])) = true := by
    decide +kernel
  obtain ⟨p, parsed, ran⟩ := Allocation.okOf ran
  obtain ⟨both, ran⟩ := Bool.and_eq_true_iff.mp ran
  obtain ⟨named, ran'⟩ := Bool.and_eq_true_iff.mp both
  obtain ⟨q, reparsed, reads⟩ := Allocation.okOf ran'
  obtain ⟨c, compiled, ran⟩ := Allocation.okOf ran
  obtain ⟨some, slots⟩ := Bool.and_eq_true_iff.mp ran
  obtain ⟨out, emitted⟩ := Option.isSome_iff_exists.mp some
  have names : ∀ x, x ∈ p.names ↔ x ∈ ["a", "b"] := fun x => of_decide_eq_true named ▸ Iff.rfl
  have free : ∀ x ∈ ["a", "b"], Target.isReserved { Target.standard with registers := 1 } x = false ∧
      Target.isReserved { Target.standard with registers := 1 } (ρ x) = false := by decide
  have ordered : p.Ordered { Target.standard with registers := 1 } ρ := by
    refine ⟨fun x mem reserved => ?_, fun x mem _ => (free x ((names x).mp mem)).2,
      fun x memX y memY => ?_⟩
    · rw [(free x ((names x).mp mem)).1] at reserved
      contradiction
    · have order : ∀ x ∈ ["a", "b"], ∀ y ∈ ["a", "b"], x < y → ρ x < ρ y := by decide
      exact order x ((names x).mp (NameSet.memFilter.mp memX).1) y
        ((names y).mp (NameSet.memFilter.mp memY).1)
  have reads := of_decide_eq_true reads
  have slots := of_decide_eq_true slots
  obtain ⟨last, registers, c', last', registers', _, compiled', outcome, outcome', _, _, _, _, _,
    history, slots', _⟩ :=
    namesMatterByOrder .greedy compiled emitted ordered reads
  rw [outcome] at slots
  refine ⟨p, q, c, c', out, parsed, reparsed, compiled, emitted, ?_, compiled', ?_, ?_⟩
  · rw [outcome]
    exact slots
  · rw [outcome']
    exact slots'.trans (congrArg (List.map (Prod.map ρ id)) slots)
  · rw [outcome, outcome']
    exact history

end Program

end Regalloc
