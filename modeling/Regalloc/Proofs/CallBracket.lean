import Mathlib.Tactic.Ring
import Regalloc.Proofs.StackPointer

/-! The saves and restores around a call. Every save goes below the one before, and the restores
take the registers back in the opposite order, so each meets its own cell. What the callee does in
between is left open: only the stack pointer and the cells have to be as the saves left them. -/
namespace Regalloc

namespace Expansion

variable {t : Target} {place : Placement} {live : NameSet} {inst : Instruction} {m : Machine}
  {r : Register} {rs : List Register} {c d e : Contents} {sp : Int} {n a b : Nat}

/-- Where the register at position `a` of `n` that are saved stands, with the stack pointer below. -/
def cell (t : Target) (sp : Int) (n a : Nat) : Int := sp + t.stride * (n - 1 - a : Int)

theorem cellBelow (t : Target) (sp : Int) (n a : Nat) :
    cell t (sp - t.stride * n) n a = sp - t.stride * (a + 1) := by
  unfold cell
  ring

theorem cellSucc (t : Target) (sp : Int) (n a : Nat) : cell t sp (n + 1) (a + 1) = cell t sp n a := by
  unfold cell
  push_cast
  ring

theorem cellInjective (stride : 0 < t.stride) : Function.Injective (cell t sp n) := by
  intro a b same
  have scaled : (t.stride : Int) * (n - 1 - a) = t.stride * (n - 1 - b) := Int.add_left_cancel same
  have equal := Int.eq_of_mul_eq_mul_left (by omega) scaled
  omega

def Uncelled (t : Target) (rs : List Register) (d : Contents) (address : Int) : Prop :=
  ∀ a < rs.length, address ≠ cell t (d.registers t.stackPointer.text) rs.length a

structure SavedIn (t : Target) (rs : List Register) (c d : Contents) : Prop where
  stack : d.registers t.stackPointer.text = c.registers t.stackPointer.text - t.stride * rs.length
  kept : ∀ x, x ≠ t.stackPointer.text → d.registers x = c.registers x
  cells : ∀ (a : Nat) (r : Register), rs[a]? = some r →
    d.world.memory (cell t (d.registers t.stackPointer.text) rs.length a) = c.registers r.text
  others : World.Agree (Uncelled t rs d) c.world d.world

theorem SavedIn.below (saved : SavedIn t rs c d) (a : Nat) :
    cell t (d.registers t.stackPointer.text) rs.length a =
      c.registers t.stackPointer.text - t.stride * (a + 1) := by
  rw [saved.stack, cellBelow]

theorem SavedIn.above (stride : 0 < t.stride) (saved : SavedIn t rs c d) {address : Int}
    (high : c.registers t.stackPointer.text ≤ address) : Uncelled t rs d address := by
  intro a _ same
  have positive : (0 : Int) < t.stride * (a + 1) := Int.mul_pos (by omega) (by omega)
  rw [saved.below] at same
  omega

theorem performSave (subtracts : m.Subtracts) (apart : r ≠ t.stackPointer) (c : Contents) :
    SavedIn t [r] c (m.performAll (save t r) c) := by
  have other : r.text ≠ t.stackPointer.text := fun same => apart (Register.textInjective same)
  have after : m.performAll (save t r) c =
      m.perform (.plain .store [registerValue r, registerValue t.stackPointer])
        (m.perform (moveStack t .sub) c) := rfl
  rw [after, performDown subtracts, performStore]
  dsimp only
  rw [Function.update_self, Function.update_of_ne other]
  have low : cell t (c.registers t.stackPointer.text - t.stride) 1 0 =
      c.registers t.stackPointer.text - t.stride := by simp [cell]
  refine ⟨?_, fun x differs => Function.update_of_ne differs .., fun a q found => ?_,
    ⟨rfl, rfl, fun address free => ?_⟩⟩
  · simp
  · cases a with
    | zero =>
      cases Option.some.inj found
      dsimp only
      rw [List.length_singleton, Function.update_self, low]
      exact c.world.putSelf _ _
    | succ a => contradiction
  · have apart := free 0 Nat.one_pos
    dsimp only at apart
    rw [List.length_singleton, Function.update_self, low] at apart
    exact c.world.putOther apart _

theorem SavedIn.cons (stride : 0 < t.stride) (first : SavedIn t [r] c d) (rest : SavedIn t rs d e)
    (apart : ∀ r ∈ rs, r ≠ t.stackPointer) : SavedIn t (r :: rs) c e := by
  have step := first.stack
  rw [List.length_singleton, Int.natCast_one, Int.mul_one] at step
  have highest : cell t (e.registers t.stackPointer.text) (rs.length + 1) 0 =
      d.registers t.stackPointer.text := by
    rw [cell, rest.stack]
    push_cast
    ring
  have here : cell t (d.registers t.stackPointer.text) [r].length 0 =
      d.registers t.stackPointer.text := by simp [cell]
  refine ⟨?_, fun x other => (rest.kept x other).trans (first.kept x other), fun a q found => ?_,
    ⟨rest.others.input.trans first.others.input, rest.others.output.trans first.others.output,
      fun address free => ?_⟩⟩
  · rw [rest.stack, step, List.length_cons]
    push_cast
    ring
  · rw [List.length_cons]
    cases a with
    | zero =>
      cases Option.some.inj found
      have own := first.cells 0 r rfl
      rw [here] at own
      rw [highest, rest.others.memory _ (rest.above stride (Int.le_refl _)), own]
    | succ a =>
      have mem : q ∈ rs := List.mem_of_getElem? found
      rw [cellSucc, rest.cells a q found]
      exact first.kept _ fun equal => apart q mem (Register.textInjective equal)
  · unfold Uncelled at free
    rw [List.length_cons] at free
    have later : Uncelled t rs e address := fun a below =>
      cellSucc t _ _ a ▸ free (a + 1) (Nat.succ_lt_succ below)
    have own : Uncelled t [r] d address := by
      intro a below
      cases Nat.lt_one_iff.mp below
      rw [here, ← highest]
      exact free 0 (Nat.succ_pos _)
    exact (rest.others.memory address later).trans (first.others.memory address own)

theorem performSaves (subtracts : m.Subtracts) (stride : 0 < t.stride)
    (apart : ∀ r ∈ rs, r ≠ t.stackPointer) (c : Contents) :
    SavedIn t rs c (m.performAll (rs.flatMap (save t)) c) := by
  induction rs generalizing c with
  | nil =>
    refine ⟨?_, fun _ _ => rfl, fun _ _ absent => (nomatch absent), ⟨rfl, rfl, fun _ _ => rfl⟩⟩
    simp [Machine.performAll]
  | cons r rs ih =>
    -- The first register saved stands highest: the later saves write below it.
    have others : ∀ r ∈ rs, r ≠ t.stackPointer := fun r mem => apart r (List.mem_cons_of_mem _ mem)
    rw [List.flatMap_cons, Machine.performAllAppend]
    exact (performSave subtracts (apart r List.mem_cons_self) c).cons stride (ih others _) others

structure RestoredFrom (t : Target) (rs : List Register) (c d : Contents) : Prop where
  stack : d.registers t.stackPointer.text = c.registers t.stackPointer.text + t.stride * rs.length
  loaded : ∀ (b : Nat) (r : Register), rs[b]? = some r →
    d.registers r.text = c.world.memory (c.registers t.stackPointer.text + t.stride * b)
  kept : ∀ x, x ≠ t.stackPointer.text → (∀ r ∈ rs, x ≠ r.text) → d.registers x = c.registers x
  world : d.world = c.world

theorem performRestore (m : Machine) (apart : r ≠ t.stackPointer) (c : Contents) :
    m.performAll (restore t r) c =
      ⟨Function.update (Function.update c.registers r.text
          (c.world.memory (c.registers t.stackPointer.text))) t.stackPointer.text
        (c.registers t.stackPointer.text + t.stride), c.world⟩ := by
  have other : t.stackPointer.text ≠ r.text := fun same => apart (Register.textInjective same).symm
  have after : m.performAll (restore t r) c = m.perform (moveStack t .add)
    (m.perform (.plain .load [registerValue r, registerValue t.stackPointer]) c) := rfl
  rw [after, performLoad, performUp]
  dsimp only
  rw [Function.update_of_ne other]

theorem performRestores (m : Machine) (apart : ∀ r ∈ rs, r ≠ t.stackPointer) (nodup : rs.Nodup)
    (c : Contents) : RestoredFrom t rs c (m.performAll (rs.flatMap (restore t)) c) := by
  induction rs generalizing c with
  | nil =>
    refine ⟨?_, fun _ _ absent => (nomatch absent), fun _ _ _ => rfl, rfl⟩
    simp [Machine.performAll]
  | cons r rs ih =>
    obtain ⟨fresh, distinct⟩ := List.nodup_cons.mp nodup
    have other : r.text ≠ t.stackPointer.text := fun same =>
      apart r List.mem_cons_self (Register.textInjective same)
    have unread : ∀ q ∈ rs, r.text ≠ q.text := fun q mem same =>
      fresh (Register.textInjective same ▸ mem)
    -- What the first restore loads stays: the others load other registers.
    obtain ⟨stack, loaded, kept, world⟩ := ih (fun r mem => apart r (List.mem_cons_of_mem _ mem))
      distinct (m.performAll (restore t r) c)
    rw [List.flatMap_cons, Machine.performAllAppend]
    rw [performRestore m (apart r List.mem_cons_self)] at stack loaded kept world ⊢
    dsimp only at stack loaded kept world
    rw [Function.update_self] at stack loaded
    refine ⟨?_, fun b q found => ?_, fun x differs absent => ?_, world⟩
    · rw [stack, List.length_cons, Int.natCast_succ, Int.mul_add]
      omega
    · cases b with
      | zero =>
        cases Option.some.inj found
        rw [kept _ other unread, Function.update_of_ne other, Function.update_self]
        simp
      | succ b =>
        rw [loaded b q found, Int.natCast_succ, Int.mul_add, Int.mul_one, Int.add_assoc,
          Int.add_comm (t.stride : Int)]
    · rw [kept x differs fun q mem => absent q (List.mem_cons_of_mem _ mem),
        Function.update_of_ne differs, Function.update_of_ne (absent r List.mem_cons_self)]

theorem RestoredFrom.found (restored : RestoredFrom t rs.reverse c d) (present : rs[a]? = some r) :
    d.registers r.text =
      c.world.memory (cell t (c.registers t.stackPointer.text) rs.length a) := by
  have bound := (List.getElem?_eq_some_iff.mp present).1
  have reversed : rs.reverse[rs.length - 1 - a]? = some r := by
    rw [List.getElem?_reverse (by omega), ← present]
    congr 1
    omega
  rw [restored.loaded _ r reversed, cell]
  congr 3
  omega

theorem savedNodup (t : Target) (place : Placement) (live : NameSet) :
    (saved t place live).Nodup := by
  refine List.Nodup.map (fun r s same => (Register.mk.injEq ..).mp same) ?_
  exact Ascending.ascendingOfList.imp Nat.ne_of_lt

structure Spares (t : Target) (n : Nat) (c d : Contents) : Prop where
  stack : d.registers t.stackPointer.text = c.registers t.stackPointer.text
  cells : ∀ a < n, d.world.memory (cell t (c.registers t.stackPointer.text) n a) =
    c.world.memory (cell t (c.registers t.stackPointer.text) n a)

/-- What saves, a callee and restores make of the contents `before`, when the callee returns with
`returned`. -/
structure Bracketed (t : Target) (rs : List Register) (before returned after : Contents) : Prop where
  stack : after.registers t.stackPointer.text = before.registers t.stackPointer.text
  saved : ∀ r ∈ rs, after.registers r.text = before.registers r.text
  others : ∀ x, x ≠ t.stackPointer.text → (∀ r ∈ rs, x ≠ r.text) →
    after.registers x = returned.registers x
  world : after.world = returned.world

theorem SavedIn.bracketed (saved : SavedIn t rs c d) (spares : Spares t rs.length d e)
    {after : Contents} (restored : RestoredFrom t rs.reverse e after) :
    Bracketed t rs c e after := by
  refine ⟨?_, fun r mem => ?_, fun x apart absent =>
    restored.kept x apart fun r mem => absent r (List.mem_reverse.mp mem), restored.world⟩
  · rw [restored.stack, spares.stack, saved.stack, List.length_reverse]
    omega
  · obtain ⟨a, present⟩ := List.mem_iff_getElem?.mp mem
    have bound := (List.getElem?_eq_some_iff.mp present).1
    rw [restored.found present, spares.stack, spares.cells a bound, saved.cells a r present]

/-- A call keeps the caller-saved registers of the names that are live before it. The saves put each
into a cell of its own, the first just below the stack pointer, and change nothing else, and the
restores take all of them and the stack pointer back after every callee that spares them. -/
theorem callBracket (subtracts : m.Subtracts) (stride : 0 < t.stride)
    (called : inst.opcode = some .call)
    (given : ∀ x r, place.registers.get? x = some r → r ≠ t.stackPointer) (l : Liveness) (i : Nat) :
    let rs := saved t place (l.liveIn i)
    let front := lead t place (l.liveIn i) inst
    let back := trail t place (l.liveIn i) inst
    let line := own t place .call inst
    rs.Nodup ∧
    (∀ r, r ∈ rs ↔
      ∃ x ∈ l.liveIn i, place.registers.get? x = some r ∧ t.isCallerSaved r = true) ∧
    (statements t place (l.liveIn i) inst).map Statement.unmarked = front ++ line :: back ∧
    line.opcode = some .call ∧ line.fixed = inst.statement.fixed ∧
    ∀ code s, CodeAt code s.position (front ++ line :: back) →
      ∃ u, m.Run code front.length s u ∧ u.position = s.position + front.length ∧
        SavedIn t rs s.contents u.contents ∧
        Function.Injective (cell t (u.registers t.stackPointer.text) rs.length) ∧
        (∀ a, cell t (u.registers t.stackPointer.text) rs.length a =
          s.registers t.stackPointer.text - t.stride * (a + 1)) ∧
        ∀ v, v.position = u.position + 1 → Spares t rs.length u.contents v.contents →
          ∃ w, m.Run code back.length v w ∧ w.position = v.position + back.length ∧
            Bracketed t rs s.contents v.contents w.contents := by
  intro rs front back line
  have apart : ∀ r ∈ rs, r ≠ t.stackPointer := savedApart given
  refine ⟨savedNodup t place _, fun r => memSaved, ?_, rfl, coreFixed _ _ _, ?_⟩
  · rw [statementsUnmarked called, bodyParts called]
  intro code s stands
  obtain ⟨u, run, enters, entered⟩ := Machine.runLines (m := m) stands.left fun line mem =>
    aroundInserted (.inl mem)
  have pushes := performSaves subtracts stride apart s.contents
  rw [← leadCall called, ← entered] at pushes
  refine ⟨u, run, enters, pushes, cellInjective stride, pushes.below, fun v after spares => ?_⟩
  have rest : CodeAt code v.position back := by
    rw [after, enters]
    exact stands.right.tail
  obtain ⟨w, run, leaves, left⟩ := Machine.runLines (m := m) rest fun line mem =>
    aroundInserted (.inr mem)
  have pops := performRestores m (fun r mem => apart r (List.mem_reverse.mp mem))
    (List.nodup_reverse.mpr (savedNodup t place _)) v.contents
  rw [← trailCall called, ← left] at pops
  exact ⟨w, run, leaves, pushes.bracketed spares pops⟩

def sharedCall : Instruction :=
  ⟨1, default, "CALL f", none, some .call, [⟨.label "f", default⟩], none⟩

def sharedPlacement : Placement :=
  ⟨⟨[("a", ⟨3⟩), ("b", ⟨1⟩), ("c", ⟨20⟩), ("d", ⟨3⟩)], by decide⟩, .none 4⟩

def sharedLiveness : Liveness := ⟨[], [⟨NameSet.ofList ["a", "b", "c", "d"], ∅⟩], 0⟩

theorem sharedGiven {x : Name} (found : sharedPlacement.registers.get? x = some r) :
    r ≠ Target.standard.stackPointer := by
  rintro rfl
  simp only [sharedPlacement, NameMap.get?, NameMap.lookup, Target.standard] at found
  grind

theorem sharedSaved :
    saved .standard sharedPlacement (sharedLiveness.liveIn 0) = [⟨1⟩, ⟨3⟩] := by decide +kernel

theorem sharedBracket :
    let rs := saved .standard sharedPlacement (sharedLiveness.liveIn 0)
    let code := statements .standard sharedPlacement (sharedLiveness.liveIn 0) sharedCall
    rs = [⟨1⟩, ⟨3⟩] ∧ ∀ s : State, s.position = 0 →
      ∃ u, Machine.counting.Run code 4 s u ∧ u.position = 4 ∧
        SavedIn .standard rs s.contents u.contents ∧
        ∀ v, v.position = 5 → Spares .standard 2 u.contents v.contents →
          ∃ w, Machine.counting.Run code 4 v w ∧ w.position = 9 ∧
            Bracketed .standard rs s.contents v.contents w.contents := by
  intro rs code
  obtain ⟨_, _, lines, _, _, runs⟩ := @callBracket .standard sharedPlacement sharedCall .counting
    Machine.countingSubtracts (by decide) rfl (fun _ _ => sharedGiven) sharedLiveness 0
  refine ⟨sharedSaved, fun s start => ?_⟩
  have stands : CodeAt code s.position (code.map Statement.unmarked) := fun j _ => by
    rw [start, Nat.zero_add, List.getElem?_map]
  obtain ⟨u, run, enters, pushes, _, _, back⟩ := runs code s (lines ▸ stands)
  have entering :
      (lead .standard sharedPlacement (sharedLiveness.liveIn 0) sharedCall).length = 4 := by
    rw [leadCall rfl, sharedSaved]
    rfl
  have leaving :
      (trail .standard sharedPlacement (sharedLiveness.liveIn 0) sharedCall).length = 4 := by
    rw [trailCall rfl, sharedSaved]
    rfl
  rw [entering, start] at enters
  refine ⟨u, entering ▸ run, enters, pushes, fun v after spares => ?_⟩
  obtain ⟨w, run, leaves, bracketed⟩ := back v (by rw [after, enters]) (by rwa [sharedSaved])
  rw [leaving, after] at leaves
  exact ⟨w, leaving ▸ run, leaves, bracketed⟩

end Expansion

end Regalloc
