import Regalloc.Proofs.Code

/-! Control flow as a function of the code. Spans, texts and lines only decide where an issue points
at, and of a statement only its label, its operation and the label it names count. -/
namespace Regalloc

namespace Code

variable {code : List Statement} {f : Statement → Statement}

def definitions (code : List Statement) : List (String × Nat) :=
  code.zipIdx.filterMap fun (s, i) => s.label.map fun text => (text, i)

def issueCodes (code : List Statement) : List String :=
  (definitions code).filterMap (fun d =>
    (position? code d.1).bind fun first => if first = d.2 then none else some "EC01") ++
  code.filterMap fun s => s.destination?.bind fun text =>
    if (position? code text).isNone then some "EC00" else none

def flow (code : List Statement) : ControlFlow :=
  ⟨code.zipIdx.map fun (s, i) => succsOf code i s,
    (definitions code).filter fun d => position? code d.1 == some d.2⟩

def controlFlow (code : List Statement) : Except (List String) ControlFlow :=
  match issueCodes code with
  | [] => .ok (flow code)
  | codes => .error codes

structure Unseen (f : Statement → Statement) : Prop where
  label : ∀ s, (f s).label = s.label
  opcode : ∀ s, (f s).opcode = s.opcode
  destination : ∀ s, (f s).destination? = s.destination?

namespace Unseen

variable (unseen : Unseen f)
include unseen

theorem position (text : String) : position? (code.map f) text = position? code text := by
  simp [position?, List.findIdx?_map, Function.comp_def, unseen.label]

theorem succs (i : Nat) (s : Statement) : succsOf (code.map f) i (f s) = succsOf code i s := by
  have lines : next (code.map f) i = next code i := by simp [next]
  have target : target (code.map f) (f s) = target code s := by
    rw [Code.target, Code.target, unseen.destination]
    exact congrArg (fun look => (s.destination?.bind look).toList) (funext unseen.position)
  simp only [succsOf, unseen.opcode, lines, target]

theorem definitions : definitions (code.map f) = definitions code := by
  simp [Code.definitions, List.zipIdx_map, List.filterMap_map, unseen.label]

theorem controlFlow : controlFlow (code.map f) = controlFlow code := by
  have codes : issueCodes (code.map f) = issueCodes code := by
    simp [issueCodes, List.filterMap_map, unseen.destination, unseen.position, unseen.definitions]
  have flow : flow (code.map f) = flow code := by
    simp [Code.flow, List.zipIdx_map, Function.comp_def, unseen.succs, unseen.position,
      unseen.definitions]
  rw [Code.controlFlow, Code.controlFlow, codes, flow]

end Unseen

end Code

namespace Program

variable {p : Program}

theorem definitionsOfCode (k : Nat) (insts : List Instruction) :
    (definitionsFrom k insts).map (fun d => (d.text, d.position)) =
      ((insts.map Instruction.statement).zipIdx k).filterMap fun (s, i) =>
        s.label.map fun text => (text, i) := by
  induction insts generalizing k with
  | nil => rfl
  | cons inst insts ih =>
    rw [definitionsFromCons, List.map_append, ih, List.map_cons, List.zipIdx_cons,
      List.filterMap_cons]
    cases labelled : inst.label <;> simp [Instruction.statement, labelled]

theorem definitionsCode : p.definitions.map (fun d => (d.text, d.position)) =
    Code.definitions p.code := definitionsOfCode 0 p.instructions

theorem firstPosition {d : Definition} (mem : d ∈ p.definitions) :
    p.firstDefinition? d.text = some d ↔ Code.position? p.code d.text = some d.position := by
  rw [← definitionPosition, Option.map_eq_some_iff]
  refine ⟨fun first => ⟨d, first, rfl⟩, fun ⟨first, found, same⟩ => ?_⟩
  rw [found]
  have ordered := (definitionsOrdered 0 p.instructions).1
  have inside : first ∈ p.definitions := List.mem_of_find?_eq_some found
  have distinct : (p.definitions.map Definition.position).Nodup := by
    rw [List.Nodup, List.pairwise_map]
    exact ordered.imp Nat.ne_of_lt
  exact congrArg some (List.inj_on_of_nodup_map distinct inside mem same)

theorem succsOfAll (p : Program) : p.instructions.zipIdx.map (fun (inst, i) => p.succsOf i inst) =
    p.code.zipIdx.map fun (s, i) => Code.succsOf p.code i s := by
  rw [code, List.zipIdx_map, List.map_map]
  exact List.map_congr_left fun entry _ => succsOfCode p entry.2 entry.1

theorem flowOfCode (p : Program) : p.flow = Code.flow p.code := by
  have labels : (p.definitions.filter fun d => p.firstDefinition? d.text == some d).map
      (fun d => (d.text, d.position)) =
        (Code.definitions p.code).filter fun d => Code.position? p.code d.1 == some d.2 := by
    rw [← definitionsCode, List.filter_map]
    refine congrArg _ (List.filter_congr fun d mem => ?_)
    exact Bool.eq_iff_iff.mpr (by simpa using firstPosition mem)
  rw [flow, Code.flow, succsOfAll, labels]

theorem issuesOfCode (p : Program) :
    (p.duplicateLabels ++ p.unresolvedLabels).map Issue.code = Code.issueCodes p.code := by
  have duplicates : p.duplicateLabels.map Issue.code =
      (Code.definitions p.code).filterMap fun d =>
        (Code.position? p.code d.1).bind fun first => if first = d.2 then none else some "EC01" := by
    rw [duplicateLabels, List.map_filterMap, ← definitionsCode, List.filterMap_map]
    refine List.filterMap_congr fun d _ => ?_
    simp only [Function.comp_apply, ← definitionPosition]
    cases p.firstDefinition? d.text with
    | none => rfl
    | some first => by_cases same : first.position = d.position <;> simp [same, Issue.code]
  have unresolved : p.unresolvedLabels.map Issue.code = p.code.filterMap fun s =>
      s.destination?.bind fun text =>
        if (Code.position? p.code text).isNone then some "EC00" else none := by
    rw [unresolvedLabels, List.map_filterMap, code, List.filterMap_map]
    refine List.filterMap_congr fun inst _ => ?_
    simp only [Function.comp_apply, ← inst.destinationStatement]
    change _ = (inst.destination.map Prod.fst).bind fun text =>
      if (Code.position? p.code text).isNone then some "EC00" else none
    cases inst.destination with
    | none => rfl
    | some label =>
      simp only [← definitionPosition, Option.isNone_map, Option.map_some, Option.bind_some]
      split <;> rfl
  rw [List.map_append, duplicates, unresolved, Code.issueCodes]

theorem controlFlowOfCode (p : Program) :
    p.controlFlow.mapError (List.map Issue.code) = Code.controlFlow p.code := by
  rw [controlFlow, Code.controlFlow, ← issuesOfCode, ← flowOfCode]
  cases p.duplicateLabels ++ p.unresolvedLabels <;> rfl

end Program

end Regalloc
