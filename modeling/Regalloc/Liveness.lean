import Regalloc.ControlFlow

/-!
Live names. Passes over the program, last instruction first, recompute what is live before and after
each instruction from the newest facts, starting from none. Facts only grow, so a pass that adds none
leaves the table as it is, and it is the last.
-/
namespace Regalloc

structure Node where
  kills : NameSet
  gens : NameSet
  succs : List Nat
  deriving DecidableEq, Repr

structure Facts where
  liveIn : NameSet
  liveOut : NameSet
  deriving DecidableEq, Repr

def Facts.count (f : Facts) : Nat := f.liveIn.size + f.liveOut.size

def Program.nodes (p : Program) (flow : ControlFlow) : List Node :=
  p.instructions.zipIdx.map fun (inst, i) =>
    ⟨NameSet.ofList inst.kills, NameSet.ofList inst.gens, flow.succsAt i⟩

namespace Liveness

def liveInAt (table : List Facts) (i : Nat) : NameSet := ((table[i]?).map Facts.liveIn).getD ∅

def liveOutAt (table : List Facts) (i : Nat) : NameSet := ((table[i]?).map Facts.liveOut).getD ∅

def transfer (node : Node) (table : List Facts) : Facts :=
  let after := NameSet.unions (node.succs.map (liveInAt table))
  ⟨(after.diff node.kills).union node.gens, after⟩

def sweep (nodes : List Node) (table : List Facts) : List Facts :=
  nodes.zipIdx.foldr (fun (node, i) table => table.set i (transfer node table)) table

def count (table : List Facts) : Nat := table.foldr (fun facts n => facts.count + n) 0

def capacity (nodes : List Node) : Nat :=
  2 * nodes.length * (NameSet.unions (nodes.map Node.gens)).size

def room (nodes : List Node) (table : List Facts) : Nat := capacity nodes - count table

/-- Sweeps until a pass adds no fact, and counts the passes, that last one included. -/
def settle (nodes : List Node) (table : List Facts) : List Facts × Nat :=
  let swept := sweep nodes table
  if room nodes swept < room nodes table then
    let (final, passes) := settle nodes swept
    (final, passes + 1)
  else (swept, 1)
termination_by room nodes table

def start (nodes : List Node) : List Facts := nodes.map fun _ => ⟨∅, ∅⟩

end Liveness

structure Liveness where
  nodes : List Node
  table : List Facts
  passes : Nat
  deriving DecidableEq, Repr

namespace Liveness

def kills (l : Liveness) (i : Nat) : NameSet := ((l.nodes[i]?).map Node.kills).getD ∅

def gens (l : Liveness) (i : Nat) : NameSet := ((l.nodes[i]?).map Node.gens).getD ∅

def liveIn (l : Liveness) (i : Nat) : NameSet := liveInAt l.table i

def liveOut (l : Liveness) (i : Nat) : NameSet := liveOutAt l.table i

end Liveness

def Program.liveness (p : Program) (flow : ControlFlow) : Liveness :=
  let nodes := p.nodes flow
  let (table, passes) := Liveness.settle nodes (Liveness.start nodes)
  ⟨nodes, table, passes⟩

end Regalloc
