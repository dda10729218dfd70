import Regalloc.Expansion

/-!
The whole way from a program to allocated code. Issues of the control flow end it; an allocation that
does not fit is told as an issue and yields no code.
-/
namespace Regalloc

structure Compilation where
  flow : ControlFlow
  liveness : Liveness
  outcome : Outcome
  code : Option String
  deriving DecidableEq, Repr

inductive Obstacle where
  | issues (found : List Issue)
  | fault (fault : Fault)
  deriving DecidableEq, Repr

namespace Outcome

def report : Outcome → List Notice
  | allocated last registers =>
    [.log .info s!"allocated {registers.size} names with {last.coloring.used} colors, {last.spills.size} spilled",
      .log .debug "rewriting"]
  | failed last budget =>
    let attempts := last.history.length
    [.log .debug s!"allocation failed after {attempts} iterations",
      .issues [.allocationFailed last.coloring.used budget last.spills.size attempts]]

end Outcome

def Program.compile (p : Program) (t : Target) (colorer : Colorer) :
    Logged (Except Obstacle Compilation) :=
  match p.controlFlow with
  | .error found => ⟨Notice.controlFlow p, .error (.issues found)⟩
  | .ok flow =>
    let l := p.liveness flow
    let before := Notice.controlFlow p ++ Notice.liveness l
    match p.allocate t colorer l with
    | ⟨notices, .error fault⟩ => ⟨before ++ notices, .error (.fault fault)⟩
    | ⟨notices, .ok outcome⟩ =>
      ⟨before ++ notices ++ outcome.report,
        .ok ⟨flow, l, outcome, outcome.placement?.map (p.codeText t l)⟩⟩

end Regalloc
