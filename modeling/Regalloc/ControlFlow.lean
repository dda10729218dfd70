import Regalloc.Issue
import Regalloc.Program

/-!
Where control can go from each instruction. A label means the first instruction that carries it; a
label carried twice and a label that is named but not carried are issues, and then there is no flow.
-/
namespace Regalloc

structure Definition where
  text : String
  span : Span
  position : Nat
  deriving DecidableEq, Repr

/-- `succs` has one list for each instruction. `labels` are the labels with their positions, in the
order of the program. -/
structure ControlFlow where
  succs : List (List Nat)
  labels : List (String × Nat)
  deriving DecidableEq, Repr

namespace Program

def definitions (p : Program) : List Definition :=
  p.instructions.zipIdx.filterMap fun (inst, i) => inst.label.map fun (text, span) => ⟨text, span, i⟩

def firstDefinition? (p : Program) (text : String) : Option Definition :=
  p.definitions.find? (fun d => d.text == text)

def duplicateLabels (p : Program) : List Issue :=
  p.definitions.filterMap fun d =>
    match p.firstDefinition? d.text with
    | some first =>
      if first.position = d.position then none else some (.duplicateLabel d.span d.text first.span)
    | none => none

def unresolvedLabels (p : Program) : List Issue :=
  p.instructions.filterMap fun inst =>
    match inst.destination with
    | some (text, span) =>
      if (p.firstDefinition? text).isNone then some (.unresolvedLabel span text inst.line) else none
    | none => none

def succsOf (p : Program) (i : Nat) (inst : Instruction) : List Nat :=
  let next := (p.next? i).toList
  let target := (inst.destination.bind fun (text, _) =>
    (p.firstDefinition? text).map Definition.position).toList
  match inst.opcode with
  | some .ret | some .stop => []
  | some .jump => target
  | some .call => target ++ next
  | some (.branch _) => next ++ target
  | _ => next

def flow (p : Program) : ControlFlow :=
  let firsts := p.definitions.filter fun d => p.firstDefinition? d.text == some d
  ⟨p.instructions.zipIdx.map (fun (inst, i) => p.succsOf i inst),
    firsts.map (fun d => (d.text, d.position))⟩

def controlFlow (p : Program) : Except (List Issue) ControlFlow :=
  match p.duplicateLabels ++ p.unresolvedLabels with
  | [] => .ok p.flow
  | issues => .error issues

end Program

namespace ControlFlow

def succsAt (flow : ControlFlow) (i : Nat) : List Nat := (flow.succs[i]?).getD []

def edges (flow : ControlFlow) : List (Nat × Nat) :=
  flow.succs.zipIdx.flatMap fun (succs, i) => succs.map fun j => (i, j)

def predsAt (flow : ControlFlow) (j : Nat) : List Nat :=
  flow.edges.filterMap fun (i, k) => if k = j then some i else none

def resolve? (flow : ControlFlow) (label : String) : Option Nat :=
  (flow.labels.find? (fun entry => entry.1 == label)).map Prod.snd

def labelOf? (flow : ControlFlow) (i : Nat) : Option String :=
  (flow.labels.find? (fun entry => entry.2 == i)).map Prod.fst

end ControlFlow

end Regalloc
