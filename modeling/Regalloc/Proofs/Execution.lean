import Mathlib.Algebra.Ring.Int.Defs
import Mathlib.Data.List.Chain
import Regalloc.Proofs.PathLiveness
import Regalloc.Proofs.SpillCode

/-! Lines of code performed one after the other, wherever control stands: what a path through the
code does, calls and returns among it. A register that is only ever moved by immediates is at the
end where it was at the start plus all the moves, and memory is as it was but where the path
stores. -/
namespace Regalloc

def Code.succsAt (code : List Statement) (k : Nat) : List Nat :=
  ((code[k]?).map (Code.succsOf code k)).getD []

theorem Code.succsAtLine {code : List Statement} {k : Nat} {line : Statement}
    (found : code[k]? = some line) : Code.succsAt code k = Code.succsOf code k line := by
  rw [succsAt, found]
  rfl

namespace Path

variable {succs : Nat → List Nat} {i j k : Nat} {path : List Nat}

theorem append {others : List Nat} {k' : Nat} (path_ : Path succs i j path) (edge : k ∈ succs j)
    (rest : Path succs k k' others) : Path succs i k' (path ++ others) := by
  obtain ⟨first, last, along⟩ := path_
  refine ⟨?_, ?_, List.isChain_append.mpr ⟨along, rest.along, fun a final b next => ?_⟩⟩
  · rw [List.head?_append, first]
    rfl
  · rw [List.getLast?_append, rest.last]
    rfl
  · cases Option.some.inj (last.symm.trans final)
    cases Option.some.inj (rest.first.symm.trans next)
    exact edge

theorem range (n : Nat) (next : ∀ k < n, i + k + 1 ∈ succs (i + k)) :
    Path succs i (i + n) (List.range' i (n + 1)) := by
  induction n generalizing i with
  | zero => exact single i
  | succ n ih =>
    rw [List.range'_succ]
    have rest := ih (fun k below => by
      have edge := next (k + 1) (Nat.succ_lt_succ below)
      rwa [← Nat.add_assoc, Nat.add_right_comm i k 1] at edge)
    rw [Nat.add_assoc, Nat.add_comm 1 n] at rest
    exact rest.cons (next 0 (Nat.succ_pos n))

end Path

structure Contents where
  registers : Name → Int
  world : World

def State.contents (s : State) : Contents := ⟨s.registers, s.world⟩

structure Statement.Moves (x : Name) (line : Statement) : Prop where
  operation : line.opcode = some (.aluImm .add) ∨ line.opcode = some (.aluImm .sub)
  kills : line.kills = [x]
  gens : line.gens = [x]

namespace Machine

variable {m : Machine} {code lines : List Statement} {line : Statement} {c : Contents} {x : Name}
  {k : Nat} {path : List Nat}

def Subtracts (m : Machine) : Prop :=
  ∀ value immediate, m.aluImm .sub value immediate = value - immediate

def counting : Machine :=
  { Machine.adding with
    aluImm := fun op value immediate =>
      if op = .sub then Int.sub value immediate else Int.add value immediate }

theorem countingSubtracts : counting.Subtracts := fun _ _ => rfl

def perform (m : Machine) (line : Statement) (c : Contents) : Contents :=
  match line.opcode with
  | none => c
  | some op =>
    let e := m.effect op line (line.gens.map c.registers) c.world
    ⟨write line.kills e.result c.registers, e.world⟩

def performAll (m : Machine) (lines : List Statement) (c : Contents) : Contents :=
  lines.foldl (fun c line => m.perform line c) c

def execute (m : Machine) (code : List Statement) (path : List Nat) (c : Contents) : Contents :=
  m.performAll (path.filterMap fun k => code[k]?) c

theorem performAllAppend (lines others : List Statement) (c : Contents) :
    m.performAll (lines ++ others) c = m.performAll others (m.performAll lines c) :=
  List.foldl_append

theorem executeAppend (path others : List Nat) (c : Contents) :
    m.execute code (path ++ others) c = m.execute code others (m.execute code path c) := by
  rw [execute, List.filterMap_append, performAllAppend]
  rfl

theorem executeCons (found : (code[k]?).map Statement.unmarked = some line) (path : List Nat)
    (c : Contents) : m.execute code (k :: path) c = m.execute code path (m.perform line c) := by
  obtain ⟨marked, present, rfl⟩ := Option.map_eq_some_iff.mp found
  rw [execute, List.filterMap_cons, present]
  rfl

theorem executeOne (found : (code[k]?).map Statement.unmarked = some line) (c : Contents) :
    m.execute code [k] c = m.perform line c := executeCons found [] c

theorem executeLines (stands : CodeAt code k lines) (c : Contents) :
    m.execute code (List.range' k lines.length) c = m.performAll lines c := by
  induction lines generalizing k c with
  | nil => rfl
  | cons line lines ih =>
    rw [List.length_cons, List.range'_succ, executeCons stands.head, ih stands.tail]
    rfl

section Run

variable {s u : State}

theorem stepPerforms (found : code[s.position]? = some line) (step : m.step code s = some u) :
    u.contents = m.perform line s.contents ∧
      (u.position < code.length → u.position ∈ Code.succsAt code s.position) := by
  rw [Code.succsAtLine found]
  unfold Code.succsOf perform
  cases coded : line.opcode with
  | none =>
    rw [stepBare found coded] at step
    cases Option.some.inj step
    exact ⟨rfl, fun within => by simpa [Code.next] using within⟩
  | some op =>
    rw [stepAt found coded] at step
    obtain ⟨i, goes, rfl⟩ := Option.map_eq_some_iff.mp step
    refine ⟨rfl, fun within => ?_⟩
    dsimp only at within ⊢
    have next : ∀ control, control = Control.next → control.go code s.position = some i →
        i ∈ Code.next code s.position := by
      rintro _ rfl here
      cases Option.some.inj here
      simp [Code.next, within]
    have jump : ∀ control, control = Control.jump line.destination? →
        control.go code s.position = some i → i ∈ Code.target code line := by
      rintro _ rfl here
      exact Option.mem_toList.mpr here
    cases op with
    | jump => exact jump _ rfl goes
    | branch condition =>
      have control : (m.effect (.branch condition) line (line.gens.map s.registers) s.world).control =
          if m.holds condition ((line.gens.map s.registers).getD 0 0)
              ((line.gens.map s.registers).getD 1 0) then .jump line.destination? else .next := rfl
      rw [control] at goes
      split at goes
      · exact List.mem_append_right _ (jump _ rfl goes)
      · exact List.mem_append_left _ (next _ rfl goes)
    | call | ret | stop => contradiction
    | _ => exact next _ (effectNext rfl (by simp) _ _ _) goes

theorem runLines (stands : CodeAt code s.position lines)
    (inserted : ∀ line ∈ lines, line.Inserted) :
    ∃ u, m.Run code lines.length s u ∧ u.position = s.position + lines.length ∧
      u.contents = m.performAll lines s.contents := by
  induction lines generalizing s with
  | nil => exact ⟨s, .refl s, rfl, rfl⟩
  | cons line lines ih =>
    obtain ⟨v, step, position, contents⟩ : ∃ v, m.step code s = some v ∧
        v.position = s.position + 1 ∧ v.contents = m.perform line s.contents := by
      obtain ⟨op, coded, stays, plain⟩ :
          ∃ op, line.opcode = some op ∧ op.leaves = false ∧ op ≠ .call := by
        rcases (inserted line List.mem_cons_self).operation with op | op | op | op <;>
          exact ⟨_, op, rfl, by simp⟩
      have step := stepUnmarked (m := m) stands.head coded
      rw [effectNext stays plain] at step
      refine ⟨_, step, rfl, ?_⟩
      unfold perform
      rw [coded]
      rfl
    obtain ⟨u, run, ends, performed⟩ := ih (s := v) (position ▸ stands.tail)
      fun line mem => inserted line (List.mem_cons_of_mem _ mem)
    refine ⟨u, .step step run, ?_, ?_⟩
    · rw [ends, position, List.length_cons]
      omega
    · rw [performed, contents]
      rfl

theorem stepInside (step : m.step code s = some u) : s.position < code.length := by
  refine Nat.lt_of_not_le fun ends => ?_
  rw [stepEnd ends] at step
  contradiction

theorem Run.executes {n : Nat} (run : m.Run code n s u) (within : u.position < code.length) :
    ∃ path, path.length = n + 1 ∧ Path (Code.succsAt code) s.position u.position path ∧
      u.contents = m.execute code path.dropLast s.contents := by
  induction run with
  | refl s => exact ⟨[s.position], rfl, .single _, rfl⟩
  | @step n s v u first rest ih =>
    obtain ⟨path, length, leads, contents⟩ := ih within
    have inside : v.position < code.length := by
      cases rest with
      | refl => exact within
      | step second _ => exact stepInside second
    have found := List.getElem?_eq_getElem (stepInside first)
    obtain ⟨does, edge⟩ := stepPerforms found first
    refine ⟨s.position :: path, by rw [List.length_cons, length], leads.cons (edge inside), ?_⟩
    rw [leads.dropLastCons, executeCons (by rw [found]; rfl), contents, does]
    rfl

end Run

theorem performCall (called : line.opcode = some .call) (c : Contents) : m.perform line c = c := by
  unfold perform
  rw [called]
  change Contents.mk (write line.kills none c.registers) c.world = c
  unfold write
  cases line.kills.head? <;> rfl

theorem performOther (kept : x ∉ line.kills) (c : Contents) :
    (m.perform line c).registers x = c.registers x := by
  unfold perform
  cases line.opcode with
  | none => rfl
  | some op => exact writeOther kept _ _

theorem performAllOther (kept : ∀ line ∈ lines, x ∉ line.kills) (c : Contents) :
    (m.performAll lines c).registers x = c.registers x := by
  induction lines generalizing c with
  | nil => rfl
  | cons line lines ih =>
    have rest := ih (fun line mem => kept line (List.mem_cons_of_mem _ mem)) (m.perform line c)
    exact rest.trans (performOther (kept line List.mem_cons_self) c)

theorem executeOther (kept : ∀ k ∈ path, ∀ line ∈ code[k]?, x ∉ line.kills) (c : Contents) :
    (m.execute code path c).registers x = c.registers x := by
  refine performAllOther (fun line mem => ?_) c
  obtain ⟨k, here, found⟩ := List.mem_filterMap.mp mem
  exact kept k here line found

section Shift

def shift (m : Machine) (x : Name) (line : Statement) : Int :=
  if x ∈ line.kills then
    match line.opcode with
    | some (.aluImm .add) => m.immediate line.immediate
    | some (.aluImm .sub) => -m.immediate line.immediate
    | _ => 0
  else 0

theorem shiftOther (kept : x ∉ line.kills) : m.shift x line = 0 := if_neg kept

theorem performShift (subtracts : m.Subtracts) (moves : x ∈ line.kills → line.Moves x)
    (c : Contents) : (m.perform line c).registers x = c.registers x + m.shift x line := by
  by_cases killed : x ∈ line.kills
  · obtain ⟨operation, kills, gens⟩ := moves killed
    unfold perform shift
    rw [if_pos killed, kills, gens]
    rcases operation with op | op
    · rw [op]
      exact Function.update_self ..
    · rw [op]
      exact (Function.update_self ..).trans ((subtracts ..).trans Int.sub_eq_add_neg)
  · rw [performOther killed, shiftOther killed, Int.add_zero]

theorem performAllShift (subtracts : m.Subtracts)
    (moves : ∀ line ∈ lines, x ∈ line.kills → line.Moves x) (c : Contents) :
    (m.performAll lines c).registers x = c.registers x + (lines.map (m.shift x)).sum := by
  induction lines generalizing c with
  | nil => exact (Int.add_zero _).symm
  | cons line lines ih =>
    have first := performShift subtracts (moves line List.mem_cons_self) c
    have rest := ih (fun line mem => moves line (List.mem_cons_of_mem _ mem)) (m.perform line c)
    rw [List.map_cons, List.sum_cons, ← Int.add_assoc, ← first]
    exact rest

theorem shiftWrites (lines : List Statement) : (lines.map (m.shift x)).sum =
    ((lines.filter fun line => x ∈ line.kills).map (m.shift x)).sum := by
  induction lines with
  | nil => rfl
  | cons line lines ih =>
    rw [List.map_cons, List.sum_cons, ih]
    by_cases killed : x ∈ line.kills
    · rw [List.filter_cons_of_pos (by simpa using killed), List.map_cons, List.sum_cons]
    · rw [List.filter_cons_of_neg (by simpa using killed), shiftOther killed, Int.zero_add]

end Shift

section Stores

def storesTo? (line : Statement) (c : Contents) : Option Int :=
  match line.opcode with
  | some .store => some ((line.gens.map c.registers).getD 1 0)
  | _ => none

/-- The stores along a path: where each line stands and the address that it stores to. -/
def stored (m : Machine) (code : List Statement) : List Nat → Contents → List (Nat × Int)
  | [], _ => []
  | k :: path, c =>
    ((code[k]?).bind fun line => (storesTo? line c).map fun address => (k, address)).toList ++
      stored m code path (m.execute code [k] c)

theorem storedAppend (path others : List Nat) (c : Contents) :
    m.stored code (path ++ others) c =
      m.stored code path c ++ m.stored code others (m.execute code path c) := by
  induction path generalizing c with
  | nil => rfl
  | cons k path ih =>
    rw [List.cons_append, stored, ih, ← executeAppend, stored, List.append_assoc]
    rfl

theorem storedCons (found : (code[k]?).map Statement.unmarked = some line) (path : List Nat)
    (c : Contents) :
    m.stored code (k :: path) c =
      ((storesTo? line c).map fun address => (k, address)).toList ++
        m.stored code path (m.perform line c) := by
  rw [stored, executeCons found]
  obtain ⟨marked, present, rfl⟩ := Option.map_eq_some_iff.mp found
  rw [present]
  rfl

theorem storedQuiet (stands : CodeAt code k lines) (quiet : ∀ line ∈ lines, line.opcode ≠ some .store)
    (c : Contents) : m.stored code (List.range' k lines.length) c = [] := by
  induction lines generalizing k c with
  | nil => rfl
  | cons line lines ih =>
    have none : storesTo? line c = none := by
      unfold storesTo?
      split
      · exact absurd (by assumption) (quiet line List.mem_cons_self)
      · rfl
    rw [List.length_cons, List.range'_succ, storedCons stands.head, none,
      ih stands.tail fun line mem => quiet line (List.mem_cons_of_mem _ mem)]
    rfl

theorem performMemory {address : Int} (kept : storesTo? line c ≠ some address) :
    (m.perform line c).world.memory address = c.world.memory address := by
  unfold storesTo? at kept
  unfold perform
  cases coded : line.opcode with
  | none => rfl
  | some op =>
    refine m.effectMemory (fun stores same => kept ?_) line c.world
    rw [coded, stores, same]

theorem executeMemory {address : Int} (path : List Nat) (c : Contents)
    (kept : ∀ k, (k, address) ∉ m.stored code path c) :
    (m.execute code path c).world.memory address = c.world.memory address := by
  induction path generalizing c with
  | nil => rfl
  | cons k path ih =>
    unfold stored at kept
    have later := ih (m.execute code [k] c) fun l mem => kept l (List.mem_append_right _ mem)
    rw [← executeAppend, List.singleton_append] at later
    rw [later]
    cases present : code[k]? with
    | none => simp [execute, present, performAll]
    | some line =>
      have unmarked : (code[k]?).map Statement.unmarked = some line.unmarked := by rw [present]; rfl
      rw [executeCons unmarked]
      refine performMemory fun same => kept k (List.mem_append_left _ ?_)
      rw [present]
      have same : storesTo? line c = some address := same
      simp [same]

end Stores

end Machine

namespace Expansion

variable {t : Target} {m : Machine} {r a : Register}

theorem performAddress (m : Machine) (t : Target) (offset : Nat) (c : Contents) :
    m.perform (slotAddress t offset) c =
      ⟨Function.update c.registers t.scratchAddress.text (c.registers t.stackPointer.text + offset),
        c.world⟩ := by
  change Contents.mk (Function.update c.registers t.scratchAddress.text
    (c.registers t.stackPointer.text + m.immediate (toString offset))) c.world = _
  rw [m.decimal]

theorem performLoad (m : Machine) (r a : Register) (c : Contents) :
    m.perform (.plain .load [registerValue r, registerValue a]) c =
      ⟨Function.update c.registers r.text (c.world.memory (c.registers a.text)), c.world⟩ := rfl

theorem performStore (m : Machine) (r a : Register) (c : Contents) :
    m.perform (.plain .store [registerValue r, registerValue a]) c =
      ⟨c.registers, c.world.put (c.registers a.text) (c.registers r.text)⟩ := rfl

theorem storesToStore (r a : Register) (c : Contents) :
    Machine.storesTo? (.plain .store [registerValue r, registerValue a]) c =
      some (c.registers a.text) := rfl

theorem performDown (subtracts : m.Subtracts) (t : Target) (c : Contents) :
    m.perform (moveStack t .sub) c =
      ⟨Function.update c.registers t.stackPointer.text (c.registers t.stackPointer.text - t.stride),
        c.world⟩ := by
  change Contents.mk (Function.update c.registers t.stackPointer.text
    (m.aluImm .sub (c.registers t.stackPointer.text) (m.immediate (toString t.stride)))) c.world = _
  rw [subtracts, m.decimal]

theorem performUp (m : Machine) (t : Target) (c : Contents) :
    m.perform (moveStack t .add) c =
      ⟨Function.update c.registers t.stackPointer.text (c.registers t.stackPointer.text + t.stride),
        c.world⟩ := by
  change Contents.mk (Function.update c.registers t.stackPointer.text
    (c.registers t.stackPointer.text + m.immediate (toString t.stride))) c.world = _
  rw [m.decimal]

end Expansion

end Regalloc
