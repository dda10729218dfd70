import Regalloc.Graph
import Regalloc.Liveness
import Regalloc.Target

/-!
Interference: a name that is written conflicts with every other name that is live afterwards.
Reserved names and names in `excluded` take no part.
-/
namespace Regalloc.Interference

def keeps (t : Target) (excluded : NameSet) (x : Name) : Bool :=
  decide (x ∉ excluded) && !t.isReserved x

def vertices (t : Target) (p : Program) (excluded : NameSet) : NameSet :=
  p.names.filter (keeps t excluded)

def conflictsAt (t : Target) (l : Liveness) (excluded : NameSet) (i : Nat) : List (Name × Name) :=
  let kills := (l.kills i).filter (keeps t excluded)
  let live := ((l.liveOut i).diff kills).filter (keeps t excluded)
  kills.toList.flatMap fun x => live.toList.map fun y => (x, y)

def conflicts (t : Target) (p : Program) (l : Liveness) (excluded : NameSet) : List (Name × Name) :=
  (List.range p.size).flatMap (conflictsAt t l excluded)

def graphOf (vertices : List Name) (edges : List (Name × Name)) : Except Fault Graph :=
  edges.foldlM (fun g edge => g.addEdge edge.1 edge.2) (vertices.foldl Graph.addVertex ∅)

end Interference

def Program.interference (p : Program) (t : Target) (l : Liveness) (excluded : NameSet) :
    Except Fault Graph :=
  Interference.graphOf (Interference.vertices t p excluded).toList
    (Interference.conflicts t p l excluded)

end Regalloc
