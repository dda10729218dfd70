import Regalloc.NameSet

/-!
Broken internal agreements. None of them is the fault of the program text that is being allocated:
each one means that a part of the allocator was used against its rules.
-/
namespace Regalloc

inductive Fault where
  | selfLoop
  | filesDiffer
  | spilledTwice (name : Name)
  | uncolored (name : Name)
  | clash (name other : Name) (color : Nat)
  deriving DecidableEq, Repr

def Fault.message : Fault → String
  | selfLoop => "assertion `left != right` failed: interference graphs have no self-loops"
  | filesDiffer => "assertion `left == right` failed"
  | spilledTwice name => s!"{name} spilled twice"
  | uncolored name => s!"inconsistency: {name} was never colored"
  | clash name other color =>
    s!"inconsistency: both {name} and {other} were colored the same, but they interfere (on {color})"

end Regalloc
