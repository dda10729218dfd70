import Regalloc.Fault

/-!
Names that live in memory. Slots are handed out in the order of spilling, one stride apart, counted
from the stack pointer, and no name gets two. An offset is a number without an upper bound: that the
product of its place and the stride may not fit a machine word is left out.
-/
namespace Regalloc

structure Spills where
  names : List Name
  stride : Nat
  deriving DecidableEq, Repr

namespace Spills

def none (stride : Nat) : Spills := ⟨[], stride⟩

def size (s : Spills) : Nat := s.names.length

def isEmpty (s : Spills) : Bool := s.names.isEmpty

def contains (s : Spills) (x : Name) : Bool := decide (x ∈ s.names)

def slots (s : Spills) : List (Name × Nat) := s.names.zipIdx.map fun (x, i) => (x, i * s.stride)

def offset? (s : Spills) (x : Name) : Option Nat := (s.names.idxOf? x).map (fun i => i * s.stride)

def nameSet (s : Spills) : NameSet := NameSet.ofList s.names

def add (s : Spills) (x : Name) : Except Fault Spills :=
  if s.contains x then .error (.spilledTwice x) else .ok ⟨s.names ++ [x], s.stride⟩

end Spills

end Regalloc
