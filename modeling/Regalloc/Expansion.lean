import Regalloc.Allocation
import Regalloc.Statement

/-!
Allocated code. Each instruction becomes the same operation on machine registers. Around it stand
the loads and the store of its spilled names, or, for a call, the saves and restores of the
caller-saved registers that are live. Its label and comment go to the first line.
-/
namespace Regalloc

namespace Expansion

def registerValue (r : Register) : Value := .register r.text

def slotAddress (t : Target) (offset : Nat) : Statement :=
  .plain (.aluImm .add)
    [registerValue t.scratchAddress, registerValue t.stackPointer, .immediate (toString offset)]

def load (t : Target) (r : Register) (offset : Nat) : List Statement :=
  [slotAddress t offset, .plain .load [registerValue r, registerValue t.scratchAddress]]

def storeBack (t : Target) (offset : Nat) : List Statement :=
  [slotAddress t offset,
    .plain .store [registerValue t.scratchValue, registerValue t.scratchAddress]]

def moveStack (t : Target) (op : Alu) : Statement :=
  .plain (.aluImm op)
    [registerValue t.stackPointer, registerValue t.stackPointer, .immediate (toString t.stride)]

def save (t : Target) (r : Register) : List Statement :=
  [moveStack t .sub, .plain .store [registerValue r, registerValue t.stackPointer]]

def restore (t : Target) (r : Register) : List Statement :=
  [.plain .load [registerValue r, registerValue t.stackPointer], moveStack t .add]

def saved (t : Target) (place : Placement) (live : NameSet) : List Register :=
  let inUse := (live.toList.filterMap place.registers.get?).filter t.isCallerSaved
  (Ascending.ofList (inUse.map Register.index)).map Register.mk

def spilledKill? (place : Placement) (inst : Instruction) : Option Name :=
  inst.kills.find? place.spills.contains

/-- The spilled names that an instruction reads, each once. One that it also writes comes first. -/
def spilledGens (place : Placement) (inst : Instruction) : List Name :=
  let both := ((spilledKill? place inst).filter (fun x => x ∈ inst.gens)).toList
  (inst.gens.filter place.spills.contains).foldl
    (fun names x => if x ∈ names then names else names ++ [x]) both

/-- The scratch registers that stand in for spilled names: the value register for the first name
read, the address register for the second, and the value register for a name only written. -/
def scratch (t : Target) (place : Placement) (inst : Instruction) : List (Name × Register) :=
  let gens := (spilledGens place inst).zip [t.scratchValue, t.scratchAddress]
  match spilledKill? place inst with
  | some x => if gens.any (fun entry => entry.1 == x) then gens else gens ++ [(x, t.scratchValue)]
  | none => gens

/-- The register that stands for a name. A spilled name that is neither read nor written gets the
scratch address register. -/
def register? (t : Target) (place : Placement) (scratch : List (Name × Register)) (x : Name) :
    Option Register :=
  ((scratch.find? (fun entry => entry.1 == x)).map Prod.snd)
    <|> t.reservedRegister? x
    <|> place.registers.get? x
    <|> if place.spills.contains x then some t.scratchAddress else none

def rename (t : Target) (place : Placement) (scratch : List (Name × Register)) : Value → Value
  | .register x => .register ((register? t place scratch x).elim x Register.text)
  | value => value

def core (t : Target) (place : Placement) (scratch : List (Name × Register)) (op : Opcode)
    (inst : Instruction) : Statement :=
  .plain op (inst.operands.map fun operand => rename t place scratch operand.value)

def call (t : Target) (place : Placement) (live : NameSet) (inst : Instruction) : List Statement :=
  let registers := saved t place live
  registers.flatMap (save t) ++ [core t place [] .call inst] ++ registers.reverse.flatMap (restore t)

def loads (t : Target) (place : Placement) (inst : Instruction) : List Statement :=
  (scratch t place inst).flatMap fun (x, r) =>
    match place.spills.offset? x with
    | some offset => if x ∈ inst.gens then load t r offset else []
    | none => []

def stores (t : Target) (place : Placement) (inst : Instruction) : List Statement :=
  match (spilledKill? place inst).bind place.spills.offset? with
  | some offset => storeBack t offset
  | none => []

def operation (t : Target) (place : Placement) (op : Opcode) (inst : Instruction) : List Statement :=
  loads t place inst ++ [core t place (scratch t place inst) op inst] ++ stores t place inst

def decorate (label comment : Option String) : List Statement → List Statement
  | first :: rest => { first with label, comment } :: rest
  | [] => if label.isNone && comment.isNone then [] else [⟨label, none, [], comment⟩]

def statements (t : Target) (place : Placement) (live : NameSet) (inst : Instruction) :
    List Statement :=
  decorate (inst.label.map Prod.fst) inst.comment
    (match inst.opcode with
      | none => []
      | some .call => call t place live inst
      | some op => operation t place op inst)

end Expansion

inductive Emitted where
  | verbatim (text : String)
  | statement (s : Statement)
  deriving DecidableEq, Repr

namespace Emitted

def text : Emitted → String
  | verbatim text => text
  | statement s => s.text

def unlines (lines : List Emitted) : String :=
  String.join (lines.map (fun line => line.text ++ "\n"))

end Emitted

namespace Expansion

def header (spills : Spills) : List Emitted :=
  if spills.isEmpty then []
  else
    let slots := " ".intercalate (spills.slots.map fun (x, offset) => s!"{x}@{offset}")
    [.verbatim s!"# spilled: {slots}"]

def lines (t : Target) (l : Liveness) (place : Placement) : (i : Nat) → List Line → List Emitted
  | _, [] => []
  | i, .verbatim text :: rest => .verbatim text :: lines t l place i rest
  | i, .code inst :: rest =>
    (statements t place (l.liveIn i) inst).map .statement ++ lines t l place (i + 1) rest

end Expansion

def Program.expand (p : Program) (t : Target) (l : Liveness) (place : Placement) : List Emitted :=
  Expansion.header place.spills ++ Expansion.lines t l place 0 p.lines

def Program.codeText (p : Program) (t : Target) (l : Liveness) (place : Placement) : String :=
  Emitted.unlines (p.expand t l place)

end Regalloc
