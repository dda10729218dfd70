import Regalloc.Compilation
import Regalloc.Text.Pad

/-! The readable account of a compilation: one section for each thing that was found out. -/
namespace Regalloc.Report

def positionText (i : Nat) : String := s!"#{i}"

def destinationText (flow : ControlFlow) (i : Nat) : String :=
  match flow.labelOf? i with
  | some label => s!"{positionText i} ({label})"
  | none => positionText i

def setText (s : NameSet) : String := "\x7b" ++ ", ".intercalate s.toList ++ "\x7d"

def nameColumn (x : Name) : String := Text.padLeft 8 x

def controlFlow (p : Program) (flow : ControlFlow) : List String :=
  "control flow" :: p.instructions.zipIdx.map fun (inst, i) =>
    let position := Text.padLeft 5 (positionText i)
    let text := Text.padRight 24 inst.text
    let succs := ", ".intercalate ((flow.succsAt i).map (destinationText flow))
    s!"  {position}  {text} -> {succs}"

def liveness (l : Liveness) : List String :=
  let facts := l.table.zipIdx.map fun (facts, i) =>
    let position := Text.padLeft 5 (positionText i)
    s!"  {position}  in {setText facts.liveIn}  out {setText facts.liveOut}"
  "liveness" :: facts ++ [s!"  fixed point after {l.passes} passes"]

def interference (g : Graph) : List String :=
  let vertices := g.adjacency.toList.map fun (x, neighbors) =>
    s!"  {nameColumn x}: " ++ " ".intercalate neighbors.toList
  "interference" :: s!"  {g.size} names, {g.edgeCount} edges" :: vertices

def coloring (t : Target) (strategy : String) (last : Attempt) : List String :=
  let history := " -> ".intercalate (last.history.map toString)
  ["coloring",
    s!"  {last.coloring.used} colors used of {t.budget} ({strategy}), {last.history.length} attempt(s): {history}"]

def spills (s : Spills) : List String :=
  "spills" ::
    if s.isEmpty then ["  none"]
    else s.slots.map fun (x, offset) => s!"  {nameColumn x} at SP+{offset}"

def registers (t : Target) (outcome : Outcome) : List String :=
  let names := match outcome with
    | .allocated _ registers => registers.toList.map fun (x, r) => s!"  {nameColumn x} -> {r.text}"
    | .failed last _ =>
      last.coloring.colors.toList.map fun (x, color) => s!"  {nameColumn x} -> color {color}"
  "registers" :: names ++ t.reserved.map fun (x, r) => s!"  {nameColumn x} -> {r.text} (reserved)"

def lines (p : Program) (t : Target) (strategy : String) (c : Compilation) : List String :=
  controlFlow p c.flow ++ liveness c.liveness ++ interference c.outcome.last.graph
    ++ coloring t strategy c.outcome.last ++ spills c.outcome.last.spills ++ registers t c.outcome

def text (p : Program) (t : Target) (strategy : String) (c : Compilation) : String :=
  String.join ((lines p t strategy c).map (fun line => line ++ "\n"))

end Regalloc.Report
