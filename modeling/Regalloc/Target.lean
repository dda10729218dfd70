import Regalloc.NameSet

/-!
The machine that registers are allocated for. A color stands for a register that no reserved name is
bound to, counted from the lowest.
-/
namespace Regalloc

structure Register where
  index : Nat
  deriving DecidableEq, Repr, Inhabited

def Register.text (r : Register) : String := s!"R{r.index}"

structure Target where
  registers : Nat
  /-- Names that never take part in coloring, with the registers they are bound to. -/
  reserved : List (Name × Register)
  stackPointer : Register
  scratchValue : Register
  scratchAddress : Register
  /-- The first and the last register that a caller preserves around a call. -/
  callerSaved : Nat × Nat
  stride : Nat
  /-- Coloring is given up after this many attempts, though one is always made. -/
  attempts : Nat
  deriving DecidableEq, Repr

namespace Target

def standard : Target where
  registers := 32
  reserved := [("SP", ⟨29⟩), ("R30", ⟨30⟩), ("R31", ⟨31⟩)]
  stackPointer := ⟨29⟩
  scratchValue := ⟨30⟩
  scratchAddress := ⟨31⟩
  callerSaved := (0, 15)
  stride := 4
  attempts := 100

def reservedRegister? (t : Target) (name : Name) : Option Register :=
  (t.reserved.find? (fun entry => entry.1 == name)).map Prod.snd

def isReserved (t : Target) (name : Name) : Bool := (t.reservedRegister? name).isSome

def allocatable (t : Target) : List Register :=
  ((List.range t.registers).map Register.mk).filter fun r => t.reserved.all fun entry => entry.2 != r

def budget (t : Target) : Nat := t.allocatable.length

def register? (t : Target) (color : Nat) : Option Register := t.allocatable[color]?

def isCallerSaved (t : Target) (r : Register) : Bool :=
  decide (t.callerSaved.1 ≤ r.index ∧ r.index ≤ t.callerSaved.2)

end Target

end Regalloc
