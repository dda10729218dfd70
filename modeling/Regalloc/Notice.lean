import Regalloc.Interference
import Regalloc.Issue
import Regalloc.Reading
import Regalloc.Spills

/-!
What a run tells while it works, in order: log records, spills as they happen, and issues.
-/
namespace Regalloc

inductive Level where
  | error | warn | info | debug | trace
  deriving DecidableEq, Repr

namespace Level

def text : Level → String
  | error => "ERROR"
  | warn => "WARN"
  | info => "INFO"
  | debug => "DEBUG"
  | trace => "TRACE"

def detail : Level → Nat
  | error => 1
  | warn => 2
  | info => 3
  | debug => 4
  | trace => 5

end Level

inductive Notice where
  | log (level : Level) (message : String)
  | spilling (name : Name) (conflicts : Nat)
  | doneSpilling (spilled colors : Nat)
  | issues (found : List Issue)
  deriving DecidableEq, Repr

structure Logged (α : Type) where
  notices : List Notice
  value : α

namespace Notice

def reading (r : Reading) : List Notice :=
  [log .debug "parsing", log .trace s!"done parsing {r.program.size} instructions"]

def controlFlow (p : Program) : List Notice :=
  log .debug "building control flow graph" ::
    match p.controlFlow with
    | .ok flow =>
      let labels := flow.labels.length
      [log .trace s!"{p.size} instructions, {labels} labels"]
    | .error _ => []

def liveness (l : Liveness) : List Notice :=
  [log .debug "computing liveness",
    log .trace s!"liveness reached a fixed point after {l.passes} passes"]

def interference (g : Graph) : Notice :=
  log .trace s!"interference graph has {g.size} vertices and {g.edgeCount} edges"

end Notice

end Regalloc
