import Regalloc.Proofs.CompiledCode
import Regalloc.Proofs.PathLiveness

/-! Names that are live across a call. A call saves the registers of the caller-saved range, so a
name that is live after it survives there. Outside that range nothing is saved, and a name that is
only written in the callee may be given the same register, yet not before both names have neighbors
in every register below. -/
namespace Regalloc

namespace Target

variable {t : Target} {color other : Nat} {r s : Register}

theorem allocatableAscending (t : Target) :
    t.allocatable.Pairwise fun r s => r.index < s.index := by
  unfold allocatable
  refine List.Pairwise.filter _ (List.pairwise_map.mpr ?_)
  exact List.pairwise_lt_range

theorem registerBelow (left : t.register? color = some r) (right : t.register? other = some s)
    (below : s.index < r.index) : other < color := by
  refine Nat.lt_of_not_le fun above => ?_
  rcases Nat.lt_or_eq_of_le above with less | rfl
  · obtain ⟨boundL, rfl⟩ := List.getElem?_eq_some_iff.mp left
    obtain ⟨boundR, rfl⟩ := List.getElem?_eq_some_iff.mp right
    have ordered := List.pairwise_iff_getElem.mp t.allocatableAscending color other boundL boundR less
    exact Nat.lt_asymm ordered below
  · cases Option.some.inj (left.symm.trans right)
    exact Nat.lt_irrefl _ below

theorem standardAllocatable : r ∈ standard.allocatable ↔ r.index < 29 := by
  have all : standard.allocatable = (List.range 29).map Register.mk := by decide
  rw [all, List.mem_map]
  refine ⟨?_, fun below => ⟨r.index, List.mem_range.mpr below, rfl⟩⟩
  rintro ⟨index, mem, rfl⟩
  exact List.mem_range.mp mem

end Target

namespace Expansion

variable {t : Target} {place : Placement} {live : NameSet} {r : Register}

theorem memSaved : r ∈ saved t place live ↔
    ∃ x ∈ live, place.registers.get? x = some r ∧ t.isCallerSaved r = true := by
  refine ⟨savedSource, ?_⟩
  rintro ⟨x, mem, given, kept⟩
  refine List.mem_map.mpr ⟨r.index, Ascending.memOfList.mpr (List.mem_map_of_mem ?_), rfl⟩
  exact List.mem_filter.mpr ⟨List.mem_filterMap.mpr ⟨x, mem, given⟩, kept⟩

end Expansion

namespace Allocation.Settled

variable {t : Target} {p : Program} {flow : ControlFlow} {colorer : Colorer} {last : Attempt}
  {registers : NameMap Register} {x : Name} {r s : Register}
  (settled : Settled t p flow colorer last registers) (builtIn : colorer.BuiltIn)
include settled builtIn

theorem neighborBelow (given : registers.get? x = some r) (free : s ∈ t.allocatable)
    (below : s.index < r.index) :
    ∃ y, last.graph.hasEdge x y = true ∧ registers.get? y = some s := by
  obtain ⟨color, colored, bound⟩ := settled.getRegister.mp given
  obtain ⟨other, bound_⟩ := List.mem_iff_getElem?.mp free
  obtain ⟨y, joined, taken⟩ := (settled.coloringExact builtIn).lowest x color colored other
    (Target.registerBelow bound bound_ below)
  exact ⟨y, decide_eq_true joined, settled.getRegister.mpr ⟨other, taken, bound_⟩⟩

theorem firstTaken (vertex : x ∈ last.graph.vertices) (first : t.register? 0 = some r) :
    ∃ y ∈ last.graph.vertices, registers.get? y = some r := by
  have exact := settled.coloringExact builtIn
  obtain ⟨color, given⟩ := NameMap.memKeysIff.mp ((exact.domain x).mpr vertex)
  have used : 0 < last.coloring.used := Nat.zero_lt_of_lt ((exact.range color).mpr ⟨x, given⟩)
  obtain ⟨y, lowest⟩ := (exact.range 0).mp used
  exact ⟨y, (exact.domain y).mp (NameMap.memKeysIff.mpr ⟨0, lowest⟩),
    settled.getRegister.mpr ⟨0, lowest, first⟩⟩

theorem sharedUnjoined {y : Name} (left : registers.get? x = some r)
    (right : registers.get? y = some r) : last.graph.hasEdge x y = false := by
  refine decide_eq_false fun joined => ?_
  obtain ⟨q, s, atX, atY, apart⟩ := settled.neighborsApart builtIn joined
  cases Option.some.inj (left.symm.trans atX)
  cases Option.some.inj (right.symm.trans atY)
  exact apart rfl

end Allocation.Settled

namespace Program

variable {p : Program} {flow : ControlFlow} {i j entry : Nat} {inst : Instruction} {x y : Name}
  {path : List Nat}

def callee? (p : Program) (inst : Instruction) : Option Nat :=
  inst.statement.destination?.bind (Code.position? p.code)

def Returns (p : Program) (flow : ControlFlow) (entry : Nat) (path : List Nat) : Prop :=
  ∃ j, Path flow.succsAt entry j path ∧ ∃ inst ∈ p.instructions[j]?, inst.opcode = some .ret

structure Clobbers (p : Program) (flow : ControlFlow) (registers : NameMap Register)
    (call : Instruction) (r : Register) (y : Name) : Prop where
  given : registers.get? y = some r
  written : ∃ entry ∈ p.callee? call, ∃ path, p.Returns flow entry path ∧ ∃ j ∈ path, p.Writes j y

theorem callKills (called : inst.opcode = some .call) : inst.kills = [] := by
  refine List.eq_nil_iff_forall_not_mem.mpr fun x killed => ?_
  have written := Instruction.killWritten called killed
  simp [Opcode.shape] at written

theorem liveBeforeCall (flows : p.controlFlow = .ok flow)
    (present : p.instructions[i]? = some inst) (called : inst.opcode = some .call)
    (more : i + 1 < p.size) (live : x ∈ (p.liveness flow).liveIn (i + 1)) :
    x ∈ (p.liveness flow).liveIn i := by
  have edge : i + 1 ∈ flow.succsAt i := by
    rw [succsAtCode flows present, Code.succsOf,
      show inst.statement.opcode = some .call from called]
    refine List.mem_append_right _ ?_
    simp [Code.next, codeLength, more]
  exact liveFromNext present edge (callKills called ▸ List.not_mem_nil) live

theorem calleeEdge (flows : p.controlFlow = .ok flow) (present : p.instructions[i]? = some inst)
    (called : inst.opcode = some .call) (callee : j ∈ p.callee? inst) : j ∈ flow.succsAt i := by
  rw [succsAtCode flows present, Code.succsOf,
    show inst.statement.opcode = some .call from called]
  exact List.mem_append_left _ (Option.mem_toList.mpr callee)

def crowdedCallee : String :=
  "IN x\nCALL f\nOUT x\nSTOP\nf: IN y\nLD A A\nLD B B\nLD C C\nLD D D\nLD E E\nLD F F\nLD G G\n" ++
    "LD H H\nLD I I\nLD J J\nLD K K\nLD L L\nLD M M\nLD N N\nLD O O\nLD P P\nRET\n"

theorem crowdedCalleeRuns : ∃ p c out last registers inst,
    Program.parse crowdedCallee 0 = .ok p ∧
    (p.compile Target.standard .greedy).value = .ok c ∧ c.code = some out ∧
    c.outcome = .allocated last registers ∧ p.instructions[1]? = some inst ∧
    inst.opcode = some .call ∧ 2 < p.size ∧ "x" ∈ c.liveness.liveIn 2 ∧
    registers.get? "x" = some ⟨16⟩ ∧ p.Clobbers c.flow registers inst ⟨16⟩ "y" := by
  have ran : (Program.parse crowdedCallee 0).toOption.any (fun p =>
      (p.compile Target.standard .greedy).value.toOption.any fun c =>
        c.code.isSome && decide (2 < p.size ∧
          (p.instructions[1]?).map (fun inst => (inst.opcode, p.callee? inst)) =
            some (some .call, some 4) ∧
          (p.instructions[4]?).map Instruction.kills = some ["y"] ∧
          (p.instructions[21]?).map Instruction.opcode = some (some .ret) ∧
          List.IsChain (fun i j => j ∈ c.flow.succsAt i) (List.range' 4 18) ∧
          "x" ∈ c.liveness.liveIn 2 ∧
          c.outcome.placement?.map (fun place => (place.registers.get? "x",
            place.registers.get? "y")) = some (some ⟨16⟩, some ⟨16⟩))) = true := by
    decide +kernel
  obtain ⟨p, parsed, ran⟩ := Allocation.okOf ran
  obtain ⟨c, compiled, ran⟩ := Allocation.okOf ran
  obtain ⟨some_, ran⟩ := Bool.and_eq_true_iff.mp ran
  obtain ⟨out, emitted⟩ := Option.isSome_iff_exists.mp some_
  obtain ⟨more, call, kills, ret, along, live, placed⟩ := of_decide_eq_true ran
  obtain ⟨last, registers, _, _, _, outcome, _⟩ := compileSource compiled emitted
  obtain ⟨inst, present, call⟩ := Option.map_eq_some_iff.mp call
  obtain ⟨called, entry⟩ := Prod.mk.inj call
  obtain ⟨first, written, kills⟩ := Option.map_eq_some_iff.mp kills
  obtain ⟨final, ends, ret⟩ := Option.map_eq_some_iff.mp ret
  rw [outcome] at placed
  obtain ⟨givenX, givenY⟩ := Prod.mk.inj (Option.some.inj placed)
  have leads : Path c.flow.succsAt 4 21 (List.range' 4 18) := ⟨rfl, rfl, along⟩
  exact ⟨p, c, out, last, registers, inst, parsed, compiled, emitted, outcome, present, called,
    more, live, givenX, givenY, 4, entry, _, ⟨21, leads, final, ends, ret⟩, 4,
    by decide, (writesAt written).mpr (by simp [kills])⟩

end Program

end Regalloc
