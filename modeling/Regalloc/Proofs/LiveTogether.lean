import Regalloc.Proofs.Allocation

/-! Names that are live at the same time. Edges join a written name only with what is live right
after it, yet where nothing is live on entry every two names that are ever live together are
joined: the path that reaches the point passes the last definition of one of them. -/
namespace Regalloc

namespace Opcode

theorem writesOne (op : Opcode) : op.shape.count .written ≤ 1 := by
  rcases op with (_ | _) | (_ | _) | _ | _ | _ | _ | _ | _ | _ | (_ | _) | _ | _ | _ <;> decide

theorem readsTwo (op : Opcode) : op.shape.count .read ≤ 2 := by
  rcases op with (_ | _) | (_ | _) | _ | _ | _ | _ | _ | _ | _ | (_ | _) | _ | _ | _ <;> decide

end Opcode

namespace Instruction

variable {inst : Instruction} {x y : Name}

theorem registersInLength (inst : Instruction) (wanted : Slot) :
    (inst.registersIn wanted).length ≤ inst.shape.count wanted := by
  unfold registersIn slots
  generalize inst.operands = operands
  induction inst.shape generalizing operands with
  | nil => exact Nat.zero_le _
  | cons slot shape ih =>
    cases operands with
    | nil => exact Nat.zero_le _
    | cons operand operands =>
      have rest := ih operands
      rw [List.zip_cons_cons, List.filterMap_cons, List.count_cons]
      dsimp only at rest ⊢
      by_cases same : slot = wanted
      · rw [if_pos same, if_pos (beq_iff_eq.mpr same)]
        split
        · omega
        · rw [List.length_cons]
          omega
      · rw [if_neg same]
        dsimp only
        omega

theorem killsLength (inst : Instruction) : inst.kills.length ≤ 1 := by
  refine Nat.le_trans (inst.registersInLength .written) ?_
  unfold shape
  cases inst.opcode with
  | none => exact Nat.zero_le _
  | some op => exact op.writesOne

theorem gensLength (inst : Instruction) : inst.gens.length ≤ 2 := by
  refine Nat.le_trans (inst.registersInLength .read) ?_
  unfold shape
  cases inst.opcode with
  | none => exact Nat.zero_le _
  | some op => exact op.readsTwo

theorem killWritten {op : Opcode} (coded : inst.opcode = some op) (killed : x ∈ inst.kills) :
    Slot.written ∈ op.shape := by
  obtain ⟨⟨slot, operand⟩, mem, found⟩ := List.mem_filterMap.mp killed
  have inside := (List.of_mem_zip mem).1
  rw [shape, coded] at inside
  dsimp only at found
  split at found
  · rename_i same
    exact same ▸ inside
  · contradiction

theorem killsCases (inst : Instruction) : inst.kills = [] ∨ ∃ x, inst.kills = [x] := by
  have length := inst.killsLength
  cases kills : inst.kills with
  | nil => exact .inl rfl
  | cons x rest =>
    rw [kills, List.length_cons] at length
    have last : rest = [] := List.length_eq_zero_iff.mp (by omega)
    exact .inr ⟨x, by rw [last]⟩

theorem killsOf (killed : x ∈ inst.kills) : inst.kills = [x] := by
  rcases inst.killsCases with none | ⟨y, one⟩
  · rw [none] at killed
    contradiction
  · rw [one, List.mem_singleton] at killed
    rw [one, killed]

theorem killsOne (left : x ∈ inst.kills) (right : y ∈ inst.kills) : x = y := by
  rw [killsOf right] at left
  exact List.mem_singleton.mp left

end Instruction

namespace Program

variable {p : Program} {flow : ControlFlow} {i j : Nat}

theorem flowSource (ok : p.controlFlow = .ok flow) : flow = p.flow := by
  unfold controlFlow at ok
  split at ok
  · exact (Except.ok.inj ok).symm
  · contradiction

theorem succsOfFlow : p.flow.succsAt i = ((p.instructions[i]?).map (p.succsOf i)).getD [] := by
  unfold ControlFlow.succsAt flow
  cases found : p.instructions[i]? <;> simp [List.getElem?_zipIdx, found]

theorem succSource (ok : p.controlFlow = .ok flow) (next : j ∈ flow.succsAt i) :
    ∃ inst, p.instructions[i]? = some inst ∧ j ∈ p.succsOf i inst := by
  rw [flowSource ok, succsOfFlow] at next
  cases found : p.instructions[i]? with
  | none => simp [found] at next
  | some inst => exact ⟨inst, rfl, by simpa [found] using next⟩

end Program

inductive ControlFlow.Reachable (flow : ControlFlow) : Nat → Prop where
  | start : Reachable flow 0
  | step {i j : Nat} (before : Reachable flow i) (next : j ∈ flow.succsAt i) : Reachable flow j

namespace Interference

variable {p : Program} {flow : ControlFlow} {i j : Nat} {x y : Name}

theorem liveBefore {inst : Instruction} (present : p.instructions[i]? = some inst)
    (next : j ∈ flow.succsAt i) (apart : x ≠ y) (liveX : x ∈ (p.liveness flow).liveIn j)
    (liveY : y ∈ (p.liveness flow).liveIn j) :
    (x ∈ (p.liveness flow).liveIn i ∧ y ∈ (p.liveness flow).liveIn i) ∨
      Conflict (p.liveness flow) i x y ∨ Conflict (p.liveness flow) i y x := by
  have outX := (Program.liveOutIff present).mpr ⟨j, next, liveX⟩
  have outY := (Program.liveOutIff present).mpr ⟨j, next, liveY⟩
  by_cases killX : x ∈ inst.kills
  · have keptY : y ∉ inst.kills := fun killY => apart (Instruction.killsOne killX killY)
    exact .inr (.inl ⟨(Program.killsAt present).mpr killX, outY,
      fun mem => keptY ((Program.killsAt present).mp mem)⟩)
  · by_cases killY : y ∈ inst.kills
    · exact .inr (.inr ⟨(Program.killsAt present).mpr killY, outX,
        fun mem => killX ((Program.killsAt present).mp mem)⟩)
    · exact .inl ⟨(Program.liveInIff present).mpr (.inl ⟨outX, killX⟩),
        (Program.liveInIff present).mpr (.inl ⟨outY, killY⟩)⟩

theorem liveTogether {t : Target} (flows : p.controlFlow = .ok flow)
    (entry : ∀ x ∈ (p.liveness flow).liveIn 0, t.isReserved x = true) (reach : flow.Reachable i)
    (apart : x ≠ y) (freeX : t.isReserved x = false)
    (liveX : x ∈ (p.liveness flow).liveIn i) (liveY : y ∈ (p.liveness flow).liveIn i) :
    ∃ j < p.size, Conflict (p.liveness flow) j x y ∨ Conflict (p.liveness flow) j y x := by
  -- Going back along the path, both names stay live until one of them is written.
  induction reach with
  | start => exact absurd (entry x liveX) (by simp [freeX])
  | @step j k before next ih =>
    obtain ⟨inst, present, _⟩ := Program.succSource flows next
    rcases liveBefore present next apart liveX liveY with earlier | conflict
    · exact ih earlier.1 earlier.2
    · exact ⟨j, (List.getElem?_eq_some_iff.mp present).1, conflict⟩

end Interference

namespace Allocation

variable {t : Target} {p : Program} {flow : ControlFlow} {colorer : Colorer} {last : Attempt}
  {registers : NameMap Register} {i : Nat} {x y : Name}

structure InRegister (t : Target) (spills : Spills) (x : Name) : Prop where
  free : t.isReserved x = false
  kept : x ∉ spills.names

theorem InRegister.keeps {spills : Spills} (held : InRegister t spills x) :
    Interference.keeps t spills.nameSet x = true :=
  Interference.keepsIff.mpr ⟨fun mem => held.kept (Spills.memNameSet.mp mem), held.free⟩

namespace Settled

variable (settled : Settled t p flow colorer last registers) (flows : p.controlFlow = .ok flow)
  (entry : ∀ x ∈ (p.liveness flow).liveIn 0, t.isReserved x = true)
include settled flows entry

theorem liveJoined (reach : flow.Reachable i) (apart : x ≠ y)
    (heldX : InRegister t last.spills x) (heldY : InRegister t last.spills y)
    (liveX : x ∈ (p.liveness flow).liveIn i) (liveY : y ∈ (p.liveness flow).liveIn i) :
    y ∈ last.graph.neighbors x := by
  have conflict := Interference.liveTogether flows entry reach apart heldX.free liveX liveY
  exact (settled.graphExact.neighbors x y).mpr ⟨conflict, heldX.keeps, heldY.keeps⟩

end Settled

theorem memAllocatable (settled : Settled t p flow colorer last registers) {r : Register}
    (found : registers.get? x = some r) : r ∈ t.allocatable := by
  obtain ⟨_, _, bound⟩ := settled.getRegister.mp found
  exact List.mem_of_getElem? bound

def inRegisters (t : Target) (spills : Spills) (live : NameSet) : NameSet :=
  live.filter fun x => !t.isReserved x && !spills.contains x

theorem memInRegisters {spills : Spills} {live : NameSet} :
    x ∈ inRegisters t spills live ↔ x ∈ live ∧ InRegister t spills x := by
  simp only [inRegisters, NameSet.memFilter, Spills.contains, Bool.and_eq_true,
    Bool.not_eq_true', decide_eq_false_iff_not]
  exact and_congr_right fun _ => ⟨fun both => ⟨both.1, both.2⟩, fun held => ⟨held.free, held.kept⟩⟩

theorem sizeLeBudget (settled : Settled t p flow colorer last registers) {live : NameSet}
    (apart : ∀ x ∈ live, ∀ y ∈ live, x ≠ y →
      ∃ r s, registers.get? x = some r ∧ registers.get? y = some s ∧ r ≠ s)
    (placed : ∀ x ∈ live, ∃ r, registers.get? x = some r) : live.size ≤ t.budget := by
  have distinct : (live.toList.map registers.get?).Nodup := by
    refine List.Nodup.map_on (fun x memX y memY same => ?_) live.nodup
    by_contra differ
    obtain ⟨r, s, atX, atY, unequal⟩ := apart x memX y memY differ
    exact unequal (Option.some.inj (atX.symm.trans (same.trans atY)))
  have inside : live.toList.map registers.get? ⊆ t.allocatable.map some := by
    intro found mem
    obtain ⟨x, memX, rfl⟩ := List.mem_map.mp mem
    obtain ⟨r, atX⟩ := placed x memX
    exact List.mem_map.mpr ⟨r, memAllocatable settled atX, atX.symm⟩
  have bound := (List.subperm_of_subset distinct inside).length_le
  rwa [List.length_map, List.length_map] at bound

theorem liveNamesApart (builtIn : colorer.BuiltIn) (flows : p.controlFlow = .ok flow)
    (entry : ∀ x ∈ (p.liveness flow).liveIn 0, t.isReserved x = true)
    (ok : (p.allocate t colorer (p.liveness flow)).value = .ok (.allocated last registers))
    (reach : flow.Reachable i) :
    (∀ x y, x ∈ (p.liveness flow).liveIn i → y ∈ (p.liveness flow).liveIn i → x ≠ y →
      InRegister t last.spills x → InRegister t last.spills y →
      last.graph.hasEdge x y = true ∧
        ∃ r s, registers.get? x = some r ∧ registers.get? y = some s ∧ r ≠ s) ∧
    (inRegisters t last.spills ((p.liveness flow).liveIn i)).size ≤ t.budget := by
  have settled := allocateSource ok
  have joined : ∀ x y, x ∈ (p.liveness flow).liveIn i → y ∈ (p.liveness flow).liveIn i → x ≠ y →
      InRegister t last.spills x → InRegister t last.spills y → y ∈ last.graph.neighbors x :=
    fun x y liveX liveY apart heldX heldY =>
      settled.liveJoined flows entry reach apart heldX heldY liveX liveY
  refine ⟨fun x y liveX liveY apart heldX heldY => ?_, sizeLeBudget settled ?_ ?_⟩
  · have edge := joined x y liveX liveY apart heldX heldY
    exact ⟨decide_eq_true edge, settled.neighborsApart builtIn edge⟩
  · intro x memX y memY apart
    obtain ⟨liveX, heldX⟩ := memInRegisters.mp memX
    obtain ⟨liveY, heldY⟩ := memInRegisters.mp memY
    exact settled.neighborsApart builtIn (joined x y liveX liveY apart heldX heldY)
  · intro x mem
    obtain ⟨live, held⟩ := memInRegisters.mp mem
    refine NameMap.memKeysIff.mp ((settled.memRegisters builtIn).mpr (settled.memVertices.mpr ?_))
    exact ⟨Program.liveNamed (.inl live), held.free, held.kept⟩

theorem pairApart : ∃ p flow last registers,
    Program.parse "IN a\nIN b\nADD a a b\nOUT a\n" 0 = .ok p ∧ p.controlFlow = .ok flow ∧
    (p.allocate Target.standard .greedy (p.liveness flow)).value =
      .ok (.allocated last registers) ∧
    (∀ x ∈ (p.liveness flow).liveIn 0, Target.standard.isReserved x = true) ∧ flow.Reachable 2 ∧
    "a" ∈ (p.liveness flow).liveIn 2 ∧ "b" ∈ (p.liveness flow).liveIn 2 ∧
    last.graph.hasEdge "a" "b" = true ∧
    ∃ r s, registers.get? "a" = some r ∧ registers.get? "b" = some s ∧ r ≠ s := by
  have ran : (Program.parse "IN a\nIN b\nADD a a b\nOUT a\n" 0).toOption.any (fun p =>
      p.controlFlow.toOption.any fun flow =>
        (p.allocate Target.standard .greedy (p.liveness flow)).value.toOption.any fun outcome =>
          outcome.placement?.isSome && decide (
            (∀ x ∈ ((p.liveness flow).liveIn 0).toList, Target.standard.isReserved x = true) ∧
            1 ∈ flow.succsAt 0 ∧ 2 ∈ flow.succsAt 1 ∧ outcome.last.spills.names = [] ∧
            "a" ∈ (p.liveness flow).liveIn 2 ∧ "b" ∈ (p.liveness flow).liveIn 2)) = true := by
    decide +kernel
  obtain ⟨p, parsed, ran⟩ := okOf ran
  obtain ⟨flow, flows, ran⟩ := okOf ran
  obtain ⟨outcome, ok, ran⟩ := okOf ran
  cases outcome with
  | failed last budget => contradiction
  | allocated last registers =>
    obtain ⟨entry, first, second, kept, liveA, liveB⟩ :=
      of_decide_eq_true (Bool.and_eq_true_iff.mp ran).2
    have reach : flow.Reachable 2 := .step (.step .start first) second
    have held : ∀ x, Target.standard.isReserved x = false → InRegister Target.standard last.spills x :=
      fun x free => ⟨free, kept ▸ List.not_mem_nil⟩
    have apart := (liveNamesApart .greedy flows entry ok reach).1 "a" "b" liveA liveB (by decide)
      (held "a" (by decide)) (held "b" (by decide))
    exact ⟨p, flow, last, registers, parsed, flows, ok, entry, reach, liveA, liveB, apart⟩

end Allocation

end Regalloc
