import Regalloc.Proofs.StackPointer

/-! A crowd of names in a routine. All of them are live at the call, so where a name of the crowd is
spilled the call saves registers, and the routine writes the spilled names before it returns. -/
namespace Regalloc

namespace Crowd

variable {p : Program} {names : List Name} {flow : ControlFlow} {x : Name}

def entrance : List Statement :=
  [.plain .call [.label "f"], .plain .stop [], ⟨some "f", none, [], none⟩]

def routine (names : List Name) : List Statement :=
  entrance ++ names.map loadSelf ++ [.plain .ret []]

theorem routineReadable (named : ∀ x ∈ names, Token.NameText x.toList) :
    ∀ e ∈ (routine names).map Emitted.statement, e.Readable := by
  have label : Token.NameText "f".toList := Token.nameText (by decide)
  intro e mem
  obtain ⟨s, inside, rfl⟩ := List.mem_map.mp mem
  rw [routine, List.append_assoc, List.mem_append, List.mem_append] at inside
  rcases inside with front | own | back
  · rcases List.mem_cons.mp front with rfl | front
    · exact Statement.plainReadable (.cons label .nil)
    · rcases List.mem_pair.mp front with rfl | rfl
      · exact Statement.plainReadable .nil
      · exact ⟨fun text same => Option.some.inj same ▸ label, .nil, fun _ absent => (nomatch absent),
          .inl rfl⟩
  · obtain ⟨x, inside, rfl⟩ := List.mem_map.mp own
    exact linesReadable named _ (List.mem_map_of_mem inside)
  · exact List.mem_singleton.mp back ▸ Statement.plainReadable .nil

section Routine

variable (crowd : p.code = routine names)
include crowd

theorem routineAmong : Among p names entrance [.plain .ret []] := ⟨crowd, by decide⟩

theorem routineEntrance : Code.position? p.code "f" = some 2 := by
  rw [crowd]
  rfl

theorem routineLinked : Code.Linked p.code := by
  refine ⟨?_, fun s mem text named => ?_⟩
  · rw [crowd, routine, List.filterMap_append, List.filterMap_append, unlabelled]
    decide
  · rw [crowd, routine, List.append_assoc, List.mem_append, List.mem_append] at mem
    rcases mem with front | own | back
    · rcases List.mem_cons.mp front with rfl | front
      · cases Option.some.inj (show some "f" = some text from named)
        rw [routineEntrance crowd]
        rfl
      · rcases List.mem_pair.mp front with rfl | rfl <;> contradiction
    · obtain ⟨x, _, rfl⟩ := List.mem_map.mp own
      contradiction
    · cases List.mem_singleton.mp back
      contradiction

theorem routineCall : ∃ call, p.instructions[0]? = some call ∧ call.opcode = some .call ∧
    2 ∈ p.callee? call := by
  have line : p.code[0]? = some (.plain .call [.label "f"]) := by rw [crowd]; rfl
  rw [Program.codeAt] at line
  obtain ⟨call, present, same⟩ := Option.map_eq_some_iff.mp line
  refine ⟨call, present, congrArg Statement.opcode same, ?_⟩
  rw [Program.callee?, same]
  exact routineEntrance crowd

theorem routineSize : p.size = names.length + 4 := by
  rw [← Program.codeLength, crowd, routine]
  simp [entrance]

theorem routineLabel : ∃ inst, p.instructions[2]? = some inst ∧
    inst.statement = ⟨some "f", none, [], none⟩ := by
  have line : p.code[2]? = some ⟨some "f", none, [], none⟩ := by rw [crowd]; rfl
  rw [Program.codeAt] at line
  exact Option.map_eq_some_iff.mp line

theorem routineLine {k : Nat} (inside : k < names.length + 1) :
    ∃ inst, p.instructions[2 + k]? = some inst ∧
      (inst.statement = ⟨some "f", none, [], none⟩ ∨
        ∃ x ∈ names, inst.statement = loadSelf x) := by
  cases k with
  | zero =>
    obtain ⟨inst, present, label⟩ := routineLabel crowd
    exact ⟨inst, present, .inl label⟩
  | succ k =>
    have bound : k < names.length := Nat.lt_of_succ_lt_succ inside
    obtain ⟨inst, present, load⟩ := (routineAmong crowd).loadAt (List.getElem?_eq_getElem bound)
    have same : 2 + (k + 1) = entrance.length + k := by rw [Nat.add_comm k, ← Nat.add_assoc]; rfl
    exact ⟨inst, same ▸ present, .inr ⟨_, List.getElem_mem bound, load⟩⟩

theorem routineReturn : ∃ inst, p.instructions[2 + (names.length + 1)]? = some inst ∧
    inst.statement = .plain .ret [] := by
  have index : 2 + (names.length + 1) = (entrance ++ names.map loadSelf).length := by
    rw [List.length_append, List.length_map, entrance]
    simp only [List.length_cons, List.length_nil]
    omega
  have line : p.code[2 + (names.length + 1)]? = some (.plain .ret []) := by
    rw [index, crowd, routine]
    exact List.getElem?_concat_length
  rw [Program.codeAt] at line
  exact Option.map_eq_some_iff.mp line

theorem routineNext (ok : p.controlFlow = .ok flow) {k : Nat} (inside : k < names.length + 1) :
    2 + k + 1 ∈ flow.succsAt (2 + k) := by
  obtain ⟨inst, present, line⟩ := routineLine crowd inside
  have next : 2 + k + 1 ∈ Code.next p.code (2 + k) := by
    rw [Code.next, Program.codeLength, routineSize crowd, if_pos (by omega)]
    exact List.mem_singleton.mpr rfl
  rw [Program.succsAtCode ok present]
  rcases line with label | ⟨x, _, load⟩
  · rw [label]
    exact next
  · rw [load]
    exact next

theorem routineReturns (ok : p.controlFlow = .ok flow) :
    p.Returns flow 2 (List.range' 2 (names.length + 2)) := by
  obtain ⟨ret, present, line⟩ := routineReturn crowd
  exact ⟨_, Path.range _ fun k inside => routineNext crowd ok inside, ret, present,
    congrArg Statement.opcode line⟩

theorem routineCalm (free : ∀ x ∈ names, x ≠ "SP") :
    ∀ j ∈ List.range' 2 (names.length + 2), ∀ inst ∈ p.instructions[j]?,
      "SP" ∉ inst.kills ∧ inst.opcode ≠ some .call := by
  intro j mem inst found
  obtain ⟨low, high⟩ := List.mem_range'_1.mp mem
  obtain ⟨k, rfl⟩ := Nat.exists_eq_add_of_le low
  rcases Nat.lt_or_ge k (names.length + 1) with inside | last
  · obtain ⟨other, present, line⟩ := routineLine crowd inside
    cases Option.some.inj (present.symm.trans found)
    rw [inst.killsStatement]
    rcases line with label | ⟨x, inside, load⟩
    · rw [label, show inst.opcode = none from congrArg Statement.opcode label]
      decide
    · rw [load, show inst.opcode = some .load from congrArg Statement.opcode load]
      refine ⟨fun killed => ?_, by decide⟩
      exact free x inside (List.mem_singleton.mp killed).symm
  · obtain ⟨other, present, ret⟩ := routineReturn crowd
    have same : k = names.length + 1 := by omega
    subst same
    cases Option.some.inj (present.symm.trans found)
    rw [inst.killsStatement, ret, show inst.opcode = some .ret from congrArg Statement.opcode ret]
    decide

theorem routineLive (ok : p.controlFlow = .ok flow) (nodup : names.Nodup) (mem : x ∈ names) :
    x ∈ (p.liveness flow).liveIn 0 := by
  obtain ⟨i, found⟩ := List.mem_iff_getElem?.mp mem
  have loaded : x ∈ (p.liveness flow).liveIn 3 :=
    ((routineAmong crowd).each ok).liveUpTo nodup (i := 0) (n := i) (by rwa [Nat.zero_add])
  obtain ⟨label, there, line⟩ := routineLabel crowd
  have entered : x ∈ (p.liveness flow).liveIn 2 := by
    refine Program.liveFromNext there (routineNext crowd ok (k := 0) (Nat.succ_pos _)) ?_ loaded
    rw [label.killsStatement, line]
    exact List.not_mem_nil
  obtain ⟨call, present, called, callee⟩ := routineCall crowd
  exact Program.liveFromNext present (Program.calleeEdge ok present called callee)
    (Program.callKills called ▸ List.not_mem_nil) entered

section Settled

variable {colorer : Colorer} {last : Attempt} {registers : NameMap Register}
  (settled : Allocation.Settled .standard p flow colorer last registers)
include settled

theorem routineSaved (ok : p.controlFlow = .ok flow) (nodup : names.Nodup)
    (builtIn : colorer.BuiltIn) (left : 0 < Allocation.names .standard p last.spills) :
    ⟨0⟩ ∈ Expansion.saved .standard ⟨registers, last.spills⟩ ((p.liveness flow).liveIn 0) := by
  obtain ⟨x, mem⟩ := List.exists_mem_of_length_pos left
  have vertex := (settled.graphExact.vertices x).mpr (NameSet.memFilter.mp mem)
  have first : Target.standard.register? 0 = some ⟨0⟩ := by decide
  obtain ⟨y, other, given⟩ := settled.firstTaken builtIn vertex first
  have inside := (routineAmong crowd).namesInside (settled.memVertices.mp other).1
  exact Expansion.memSaved.mpr ⟨y, routineLive crowd ok nodup inside, given, by decide⟩

theorem routineWrites (more : last.spills.names ≠ []) :
    ∃ x ∈ last.spills.names, Expansion.slot ⟨registers, last.spills⟩ x = 0 ∧
      ∃ j ∈ List.range' 2 (names.length + 2), ∃ inst ∈ p.instructions[j]?,
        Expansion.spilledKill? ⟨registers, last.spills⟩ inst = some x := by
  obtain ⟨x, rest, shape⟩ := List.exists_cons_of_ne_nil more
  have first : last.spills.names[0]? = some x := by rw [shape]; rfl
  have mem := List.mem_of_getElem? first
  have inside := (routineAmong crowd).namesInside (settled.spills.named x mem).1
  obtain ⟨i, found⟩ := List.mem_iff_getElem?.mp inside
  have bound := (List.getElem?_eq_some_iff.mp found).1
  obtain ⟨inst, present, load⟩ := (routineAmong crowd).loadAt found
  have position : entrance.length + i ∈ List.range' 2 (names.length + 2) := by
    rw [List.mem_range'_1, show entrance.length = 3 from rfl]
    omega
  refine ⟨x, mem, ?_, _, position, inst, present, spilledKillLoad load mem⟩
  rw [Expansion.slot, Spills.offsetAt settled.spills.nodup first, Nat.zero_mul]
  rfl

end Settled

end Routine

theorem thirtyNamed : ∀ x ∈ thirty, Token.NameText x.toList := by
  have letter : ∀ x ∈ thirty, (x.toList.head?.any Token.isNameStart &&
      x.toList.tail.all Token.isNamePart) = true := by decide
  exact fun x mem => Token.nameText (letter x mem)

def thirtyRoutine : String := Emitted.unlines ((routine thirty).map .statement)

theorem thirtyRoutineRuns : ∃ p c out last registers,
    Program.parse thirtyRoutine 0 = .ok p ∧
    (p.compile Target.standard .greedy).value = .ok c ∧ c.code = some out ∧
    c.outcome = .allocated last registers ∧ p.code = routine thirty ∧
    p.Returns c.flow 2 (List.range' 2 32) ∧
    ⟨0⟩ ∈ Expansion.saved .standard ⟨registers, last.spills⟩ (c.liveness.liveIn 0) ∧
    ∃ x ∈ last.spills.names, Expansion.slot ⟨registers, last.spills⟩ x = 0 ∧
      ∃ j ∈ List.range' 2 32, ∃ inst ∈ p.instructions[j]?,
        Expansion.spilledKill? ⟨registers, last.spills⟩ inst = some x := by
  obtain ⟨p, parsed, same⟩ := Program.parseUnlines (routineReadable thirtyNamed) 0
  have crowd : p.code = routine thirty := by
    rw [Program.code, Program.statements, same, List.filterMap_map]
    exact List.filterMap_some
  obtain ⟨flow, flows⟩ := Program.linkedIff.mpr (routineLinked crowd)
  have room : Allocation.names Target.standard p (Spills.none 4) ≤ 29 + 99 :=
    Nat.le_trans ((routineAmong crowd).namesLe _ _) (by decide)
  obtain ⟨last, registers, ok⟩ := Allocation.allocateSucceeds flow .greedy room
  obtain ⟨c, compiled, emitted⟩ := Program.compileAllocated flows ok
  obtain ⟨last, registers, flows, ok, liveness, outcome, _⟩ :=
    Program.compileSource compiled emitted
  have settled := Allocation.allocateSource ok
  obtain ⟨x, _, spilled⟩ := ((routineAmong crowd).each flows).spills (by decide) settled .greedy
    (by decide) (by decide)
  have more := List.ne_nil_of_mem spilled
  have left : 0 < Allocation.names .standard p last.spills := by
    rcases Allocation.allocateLeaves .greedy ok with none | left
    · rw [none] at more
      exact absurd rfl more
    · exact Nat.lt_of_lt_of_le (by decide) left
  refine ⟨p, c, _, last, registers, parsed, compiled, emitted, outcome, crowd,
    routineReturns crowd flows, ?_, routineWrites crowd settled more⟩
  rw [liveness]
  exact routineSaved crowd settled flows (by decide) .greedy left

end Crowd

end Regalloc

