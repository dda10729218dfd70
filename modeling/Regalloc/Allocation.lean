import Regalloc.Coloring
import Regalloc.Notice
import Regalloc.Spills

/-!
Allocation by coloring. While a coloring needs more colors than there are registers, the name with
the most conflicts is moved to memory and the rest is colored again. A coloring that is not proper
stops the run before anything more is spilled.
-/
namespace Regalloc

structure Attempt where
  graph : Graph
  coloring : Coloring
  spills : Spills
  history : List Nat
  deriving DecidableEq, Repr

structure Placement where
  registers : NameMap Register
  spills : Spills
  deriving DecidableEq, Repr

inductive Outcome where
  | allocated (last : Attempt) (registers : NameMap Register)
  | failed (last : Attempt) (budget : Nat)
  deriving DecidableEq, Repr

namespace Outcome

def last : Outcome → Attempt
  | allocated last _ => last
  | failed last _ => last

def placement? : Outcome → Option Placement
  | allocated last registers => some ⟨registers, last.spills⟩
  | failed _ _ => none

end Outcome

namespace Allocation

def registers (t : Target) (c : Coloring) : NameMap Register := c.colors.filterMap t.register?

def attemptNotice (last : Attempt) : Notice :=
  .log .trace s!"attempt {last.history.length}: {last.coloring.used} colors for {last.graph.size} names"

def spillNotices (name : Name) (offset conflicts : Nat) : List Notice :=
  [.spilling name conflicts,
    .log .trace s!"spilling {name} to offset {offset} ({conflicts} conflicts)"]

def doneNotice (last : Attempt) : Notice := .doneSpilling last.spills.size last.coloring.used

/-- Colors what is not spilled, and goes on for at most `more` further attempts. -/
def attempts (t : Target) (colorer : Colorer) (p : Program) (l : Liveness) (more : Nat)
    (spills : Spills) (history : List Nat) : Logged (Except Fault Outcome) :=
  match p.interference t l spills.nameSet with
  | .error fault => ⟨[], .error fault⟩
  | .ok graph =>
    let coloring := colorer.color graph
    match coloring.violation? graph with
    | some fault => ⟨[.interference graph], .error fault⟩
    | none =>
      let last := ⟨graph, coloring, spills, history ++ [coloring.used]⟩
      let told := [.interference graph, attemptNotice last]
      if coloring.used ≤ t.budget then
        ⟨told ++ [doneNotice last], .ok (.allocated last (registers t coloring))⟩
      else
        match more, graph.mostConflicted? with
        | more + 1, some name =>
          match spills.add name with
          | .error fault => ⟨told ++ [.spilling name (graph.degree name)], .error fault⟩
          | .ok spilled =>
            let rest := attempts t colorer p l more spilled last.history
            ⟨told ++ spillNotices name (spills.size * spills.stride) (graph.degree name) ++ rest.notices,
              rest.value⟩
        | _, _ => ⟨told ++ [doneNotice last], .ok (.failed last t.budget)⟩

end Allocation

def Program.allocate (p : Program) (t : Target) (colorer : Colorer) (l : Liveness) :
    Logged (Except Fault Outcome) :=
  let run := Allocation.attempts t colorer p l (t.attempts - 1) (Spills.none t.stride) []
  ⟨.log .debug s!"allocating registers ({colorer.name} colorer)" :: run.notices, run.value⟩

end Regalloc
