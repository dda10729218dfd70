import Regalloc.Proofs.CallBracket
import Regalloc.Proofs.CrowdedRoutine

/-! The cells in which a call keeps registers, and the slots of spilled names in its callee. Both are
counted up from the stack pointer with which the callee runs, so a slot is one of those cells when
its offset is small enough, and then a store to it is what the caller gets back. -/
namespace Regalloc

namespace Expansion

variable {t : Target} {place : Placement}

theorem slotInCells (suited : Suited t place) (stride : place.spills.stride = t.stride) {x : Name}
    (spilled : x ∈ place.spills.names) (sp : Int) (n : Nat) :
    (∃ a < n, sp + slot place x = cell t sp n a) ↔ slot place x < t.stride * n := by
  obtain ⟨i, present⟩ := List.mem_iff_getElem?.mp spilled
  have offset : slot place x = i * t.stride := by
    rw [slot, Spills.offsetAt suited.nodup present, stride]
    rfl
  have positive : 0 < t.stride := stride ▸ suited.stride
  rw [offset, Nat.mul_comm, Nat.mul_lt_mul_left positive]
  constructor
  · rintro ⟨a, below, same⟩
    have equal : (t.stride : Int) * i = t.stride * (n - 1 - a : Int) := by
      rw [cell] at same
      push_cast at same
      omega
    have index := Int.eq_of_mul_eq_mul_left (by omega) equal
    omega
  · intro below
    refine ⟨n - 1 - i, by omega, ?_⟩
    have index : ((n : Int) - 1 - ((n - 1 - i : Nat) : Int)) = i := by omega
    rw [cell, index, Nat.mul_comm]
    push_cast
    rw [Int.mul_comm]

end Expansion

namespace Program

open Expansion (OwnStack lead trail own saved slot loads stores body)

variable {t : Target} {p : Program} {l : Liveness} {place : Placement} {m : Machine} {i j : Nat}
  {inst : Instruction} {x : Name} {op : Opcode} {path : List Nat}

def span (p : Program) (t : Target) (l : Liveness) (place : Placement) (i : Nat) : List Nat :=
  List.range' (Blocks.start (p.blocks t l place) i)
    (Blocks.start (p.blocks t l place) (i + 1) - Blocks.start (p.blocks t l place) i)

def route (p : Program) (t : Target) (l : Liveness) (place : Placement) (path : List Nat) : List Nat :=
  path.flatMap (p.span t l place)

theorem spanAt (present : p.instructions[i]? = some inst) :
    p.span t l place i = List.range' (Blocks.start (p.blocks t l place) i)
      (Expansion.statements t place (l.liveIn i) inst).length := by
  rw [span, Blocks.startNext (blockAt present), Nat.add_sub_cancel_left]

structure Level (p : Program) (i : Nat) (inst : Instruction) : Prop where
  present : p.instructions[i]? = some inst
  plain : inst.opcode ≠ some .call
  still : "SP" ∉ inst.kills

theorem spanStack (readable : p.Readable) (stack : OwnStack t place p.instructions)
    (level : p.Level i inst) (c : Contents) :
    (m.execute (p.blocks t l place).flatten (p.span t l place i) c).registers t.stackPointer.text =
      c.registers t.stackPointer.text := by
  refine Machine.executeOther (fun k mem line found => ?_) c
  rw [spanAt level.present, List.mem_range'_1] at mem
  obtain ⟨n, rfl⟩ := Nat.exists_eq_add_of_le mem.1
  exact stackPlain readable ⟨level.present, by omega⟩ stack level.plain found fun _ => level.still

theorem storedBack {code : List Statement} {k : Nat}
    (spilled : Expansion.spilledKill? place inst = some x) (stands : CodeAt code k (stores t place inst)) (c : Contents) :
    m.stored code (List.range' k (stores t place inst).length) c =
      [(k + 1, c.registers t.stackPointer.text + slot place x)] := by
  obtain ⟨offset, found⟩ := Spills.offsetSome.mpr (Expansion.spilledKillIn spilled).2
  have back : stores t place inst = Expansion.storeBack t (slot place x) := by
    simp [stores, spilled, slot, found]
  rw [back] at stands ⊢
  rw [Expansion.storeBack, List.length_cons, List.length_singleton, List.range'_succ,
    Machine.storedCons stands.head, List.range'_succ, Machine.storedCons stands.tail.head,
    Expansion.performAddress, Expansion.storesToStore]
  dsimp only
  rw [Function.update_self]
  rfl

theorem spanStores (stack : OwnStack t place p.instructions) (level : p.Level i inst)
    (coded : inst.opcode = some op) (c : Contents) :
    m.stored (p.blocks t l place).flatten (p.span t l place i) c =
      ((Machine.storesTo? (own t place op inst) (m.performAll (loads t place inst) c)).map
        fun address => (p.ownAt t l place i inst, address)).toList ++
      ((Expansion.spilledKill? place inst).map fun x =>
        (p.ownAt t l place i inst + 2,
          c.registers t.stackPointer.text + slot place x)).toList := by
  have plain : op ≠ .call := fun same => level.plain (same ▸ coded)
  have parts : body t place (l.liveIn i) inst =
      loads t place inst ++ own t place op inst :: stores t place inst := by
    rw [own, if_neg plain]
    exact Expansion.bodyOperation coded plain
  obtain ⟨stands, length⟩ :=
    bodyAt t l place coded level.present
  rw [parts] at stands length
  have quiet : ∀ line ∈ loads t place inst, line.opcode ≠ some .store := fun line mem => by
    rw [Expansion.loadsSplit] at mem
    obtain ⟨entry, _, here⟩ := List.mem_flatMap.mp mem
    rcases List.mem_pair.mp here with rfl | rfl <;>
      exact fun same => absurd (Option.some.inj same) (by decide)
  have mem := List.mem_of_getElem? level.present
  have still : t.stackPointer.text ∉ (own t place op inst).kills := fun killed =>
    level.still ((Expansion.ownWrites stack mem coded).mp killed)
  have pointer : (m.perform (own t place op inst) (m.performAll (loads t place inst) c)).registers
      t.stackPointer.text = c.registers t.stackPointer.text := by
    rw [Machine.performOther still,
      Machine.performAllOther fun line mem => Expansion.loadsStill stack.suited mem]
  rw [ownAt, Expansion.leadPlain level.plain, spanAt level.present, length, List.length_append,
    List.length_cons, ← List.range'_append_1, Machine.storedAppend,
    Machine.storedQuiet stands.left quiet, List.nil_append, Machine.executeLines stands.left, List.range'_succ,
    Machine.storedCons stands.right.head]
  refine congrArg₂ (· ++ ·) rfl ?_
  cases killed : Expansion.spilledKill? place inst with
  | none =>
    have empty : stores t place inst = [] := by simp [stores, killed]
    rw [empty]
    rfl
  | some x =>
    rw [storedBack killed stands.right.tail, pointer]
    rfl

theorem spanBare (readable : p.Readable) (level : p.Level i inst) (bare : inst.opcode = none)
    (c : Contents) : m.stored (p.blocks t l place).flatten (p.span t l place i) c = [] := by
  have block : Expansion.statements t place (l.liveIn i) inst = [inst.statement] :=
    Expansion.statementsBare (readableAt readable (List.mem_of_getElem? level.present)) bare
  have found : (p.blocks t l place).flatten[Blocks.start (p.blocks t l place) i + 0]? = _ :=
    Blocks.lineAt (blockAt level.present) (by rw [block]; exact Nat.one_pos)
  rw [block, Nat.add_zero] at found
  have none : Machine.storesTo? inst.statement.unmarked c = none := by
    rw [Machine.storesTo?, show inst.statement.unmarked.opcode = none from bare]
  rw [spanAt level.present, block, List.length_singleton, List.range'_one,
    Machine.storedCons (by rw [found]; rfl), none]
  rfl

structure SpanStores (p : Program) (t : Target) (l : Liveness) (place : Placement) (i : Nat)
    (inst : Instruction) (sp : Int) (stores : List (Nat × Int)) : Prop where
  back : ∀ x, Expansion.spilledKill? place inst = some x →
    (p.ownAt t l place i inst + 2, sp + slot place x) ∈ stores
  only : ∀ e ∈ stores, (inst.opcode = some .store ∧ e.1 = p.ownAt t l place i inst) ∨
    ∃ x, Expansion.spilledKill? place inst = some x ∧
      e = (p.ownAt t l place i inst + 2, sp + slot place x)

theorem spanStoresSource (readable : p.Readable) (stack : OwnStack t place p.instructions)
    (level : p.Level i inst) (c : Contents) :
    p.SpanStores t l place i inst (c.registers t.stackPointer.text)
      (m.stored (p.blocks t l place).flatten (p.span t l place i) c) := by
  cases coded : inst.opcode with
  | none =>
    rw [spanBare readable level coded]
    refine ⟨fun x killed => ?_, fun _ absent => nomatch absent⟩
    have named := (Expansion.spilledKillIn killed).1
    rw [Instruction.kills, Instruction.bareRegistersIn coded] at named
    contradiction
  | some op =>
    rw [spanStores stack level coded]
    refine ⟨fun x killed => ?_, fun e mem => ?_⟩
    · rw [killed]
      exact List.mem_append_right _ (List.mem_singleton.mpr rfl)
    · rcases List.mem_append.mp mem with first | last
      · obtain ⟨address, stores, rfl⟩ := Option.map_eq_some_iff.mp (Option.mem_toList.mp first)
        refine .inl ⟨?_, rfl⟩
        unfold Machine.storesTo? at stores
        split at stores
        · rename_i same
          exact coded.trans same
        · contradiction
      · obtain ⟨x, killed, rfl⟩ := Option.map_eq_some_iff.mp (Option.mem_toList.mp last)
        exact .inr ⟨x, killed, rfl⟩

structure RouteStores (p : Program) (t : Target) (l : Liveness) (place : Placement)
    (path : List Nat) (sp : Int) (stores : List (Nat × Int)) : Prop where
  back : ∀ j ∈ path, ∀ inst ∈ p.instructions[j]?, ∀ x,
    Expansion.spilledKill? place inst = some x →
      (p.ownAt t l place j inst + 2, sp + slot place x) ∈ stores
  only : ∀ e ∈ stores, ∃ j ∈ path, ∃ inst ∈ p.instructions[j]?,
    (inst.opcode = some .store ∧ e.1 = p.ownAt t l place j inst) ∨
    ∃ x, Expansion.spilledKill? place inst = some x ∧
      e = (p.ownAt t l place j inst + 2, sp + slot place x)

theorem routeLevel (readable : p.Readable) (stack : OwnStack t place p.instructions)
    (level : ∀ j ∈ path, ∃ inst, p.Level j inst) (c : Contents) :
    (m.execute (p.blocks t l place).flatten (p.route t l place path) c).registers
        t.stackPointer.text = c.registers t.stackPointer.text ∧
      p.RouteStores t l place path (c.registers t.stackPointer.text)
        (m.stored (p.blocks t l place).flatten (p.route t l place path) c) := by
  induction path generalizing c with
  | nil => exact ⟨rfl, fun _ absent => (nomatch absent), fun _ absent => nomatch absent⟩
  | cons i path ih =>
    -- The lines for `i` leave the stack pointer, so the rest of the path counts slots from there too.
    obtain ⟨inst, first⟩ := level i List.mem_cons_self
    obtain ⟨pointer, back, only⟩ := ih (fun j mem => level j (List.mem_cons_of_mem _ mem))
      (m.execute (p.blocks t l place).flatten (p.span t l place i) c)
    have here := spanStoresSource (l := l) (m := m) readable stack first c
    rw [spanStack readable stack first] at pointer back only
    rw [route, List.flatMap_cons, Machine.executeAppend, Machine.storedAppend]
    refine ⟨pointer, fun j mem other found x killed => ?_, fun e mem => ?_⟩
    · rcases List.mem_cons.mp mem with rfl | later
      · cases Option.some.inj (first.present.symm.trans found)
        exact List.mem_append_left _ (here.back x killed)
      · exact List.mem_append_right _ (back j later other found x killed)
    · rcases List.mem_append.mp mem with own | later
      · exact ⟨i, List.mem_cons_self, inst, first.present, here.only e own⟩
      · obtain ⟨j, inside, rest⟩ := only e later
        exact ⟨j, List.mem_cons_of_mem _ inside, rest⟩

theorem succsStays {code : List Statement} {k : Nat} {s : Statement} (coded : s.opcode = some op)
    (stays : op.leaves = false) (plain : op ≠ .call) : Code.succsOf code k s = Code.next code k := by
  unfold Code.succsOf
  rw [coded]
  cases op with
  | jump | branch _ | ret | stop => contradiction
  | call => exact absurd rfl plain
  | _ => rfl

theorem Within.ends {n : Nat} (within : p.Within t l place i n inst) :
    Blocks.start (p.blocks t l place) i + (Expansion.statements t place (l.liveIn i) inst).length ≤
      (p.blocks t l place).flatten.length :=
  Blocks.endLe (blockAt within.present)

theorem ownStays (level : p.Level i inst) (coded : inst.opcode = some op)
    (more : (lead t place (l.liveIn i) inst).length + 1 <
      (Expansion.statements t place (l.liveIn i) inst).length) : op.leaves = false := by
  cases leaves : op.leaves with
  | false => rfl
  | true =>
    have length := (bodyAt t l place coded level.present).2
    have none : trail t place (l.liveIn i) inst = [] := by
      rw [trail, if_neg level.plain]
      exact Expansion.storesLeave coded leaves
    rw [Expansion.bodyParts coded, none, List.length_append, List.length_singleton] at length
    omega

section Flow

variable {flow : ControlFlow} {n k : Nat} {line : Statement} (readable : p.Readable)
include readable

theorem startInside (bound : i < p.size) :
    Blocks.start (p.blocks t l place) i < (p.blocks t l place).flatten.length := by
  have first : p.Within t l place i 0 p.instructions[i] := startWithin readable bound
  exact Nat.lt_of_lt_of_le (Nat.lt_add_of_pos_right first.bound) first.ends

theorem flowInside (level : p.Level i inst)
    (more : n + 1 < (Expansion.statements t place (l.liveIn i) inst).length) :
    Blocks.start (p.blocks t l place) i + n + 1 ∈
      Code.succsAt (p.blocks t l place).flatten (Blocks.start (p.blocks t l place) i + n) := by
  have within : p.Within t l place i n inst := ⟨level.present, Nat.lt_of_succ_lt more⟩
  have whole := within.ends
  obtain ⟨line, found⟩ := within.line
  have next : Blocks.start (p.blocks t l place) i + n + 1 ∈
      Code.next (p.blocks t l place).flatten (Blocks.start (p.blocks t l place) i + n) := by
    rw [Code.next, if_pos (by omega)]
    exact List.mem_singleton.mpr rfl
  rw [Code.succsAtLine found]
  rcases lineCases readable within found with
    ⟨_, _, _, last⟩ | ⟨op, coded, ⟨here, line_⟩ | ⟨_, around⟩⟩
  · omega
  · have line_ : line.opcode = some op := congrArg Statement.opcode line_
    rw [succsStays line_ (ownStays level coded (here ▸ more)) fun same =>
      level.plain (same ▸ coded)]
    exact next
  · have same : Code.succsOf _ _ line = _ :=
      Statement.succsInserted (Expansion.aroundInserted around) (p.blocks t l place).flatten
        (Blocks.start (p.blocks t l place) i + n)
    rw [same]
    exact next

theorem ownTarget (own_ : line.unmarked = own t place op inst)
    (edge : j ∈ Code.target p.code inst.statement) : Blocks.start (p.blocks t l place) j ∈
      Code.target (p.blocks t l place).flatten line := by
  have stands := blocksStand readable (Expansion.allowsAll t place) l
  have fixed : line.fixed = inst.statement.fixed :=
    (congrArg Statement.fixed own_).trans (Expansion.coreFixed _ op inst)
  obtain ⟨text, named, found⟩ := Option.bind_eq_some_iff.mp (Option.mem_toList.mp edge)
  rw [Code.target, Statement.destinationFixed, fixed, ← Statement.destinationFixed, named,
    Option.bind_some, Blocks.positionFlatten stands, found]
  exact List.mem_singleton.mpr rfl

theorem callFlow (present : p.instructions[i]? = some inst) (called : inst.opcode = some .call)
    (callee : j ∈ p.callee? inst) : Blocks.start (p.blocks t l place) j ∈
      Code.succsAt (p.blocks t l place).flatten (p.ownAt t l place i inst) := by
  have here : (body t place (l.liveIn i) inst)[(lead t place (l.liveIn i) inst).length]? =
      some (own t place .call inst) := by
    rw [Expansion.bodyParts called, List.getElem?_append_right (Nat.le_refl _), Nat.sub_self]
    rfl
  obtain ⟨stands, _⟩ := bodyAt t l place called present
  obtain ⟨line, found, line_⟩ := Option.map_eq_some_iff.mp
    ((stands _ (List.getElem?_eq_some_iff.mp here).1).trans here)
  have opcode : line.opcode = some .call := congrArg Statement.opcode line_
  rw [ownAt, Code.succsAtLine found, Code.succsOf, opcode]
  exact List.mem_append_left _ (ownTarget readable line_ (Option.mem_toList.mpr callee))

theorem nextOver (present : p.instructions[i]? = some inst) (edge : j ∈ Code.next p.code i)
    (last : n + 1 = (Expansion.statements t place (l.liveIn i) inst).length) :
    Blocks.start (p.blocks t l place) j ∈
      Code.next (p.blocks t l place).flatten (Blocks.start (p.blocks t l place) i + n) := by
  unfold Code.next at edge ⊢
  rw [codeLength] at edge
  split at edge
  · rename_i more
    cases List.mem_singleton.mp edge
    have after : Blocks.start (p.blocks t l place) (i + 1) = _ := Blocks.startNext (blockAt present)
    have inside : Blocks.start (p.blocks t l place) (i + 1) < _ := startInside readable more
    rw [if_pos (by omega), after]
    exact List.mem_singleton.mpr (by omega)
  · contradiction

theorem flowOver (level : p.Level i inst) (edge : j ∈ Code.succsOf p.code i inst.statement)
    (last : n + 1 = (Expansion.statements t place (l.liveIn i) inst).length) :
    Blocks.start (p.blocks t l place) j ∈
      Code.succsAt (p.blocks t l place).flatten (Blocks.start (p.blocks t l place) i + n) := by
  have within : p.Within t l place i n inst := ⟨level.present, by omega⟩
  obtain ⟨line, found⟩ := within.line
  have next : j ∈ Code.next p.code i → Blocks.start (p.blocks t l place) j ∈
      Code.next (p.blocks t l place).flatten (Blocks.start (p.blocks t l place) i + n) := fun mem =>
    nextOver readable level.present mem last
  rw [Code.succsAtLine found]
  rcases lineCases readable within found with
    ⟨bare, _, rfl, _⟩ | ⟨op, coded, ⟨_, line_⟩ | ⟨apart, around⟩⟩
  · have opcode : inst.statement.opcode = none := bare
    unfold Code.succsOf at edge ⊢
    rw [opcode] at edge ⊢
    exact next edge
  · have target : j ∈ Code.target p.code inst.statement → Blocks.start (p.blocks t l place) j ∈
        Code.target (p.blocks t l place).flatten line := fun mem => ownTarget readable line_ mem
    have opcode : line.opcode = some op := congrArg Statement.opcode line_
    unfold Code.succsOf at edge ⊢
    rw [opcode]
    rw [show inst.statement.opcode = some op from coded] at edge
    cases op with
    | ret | stop => contradiction
    | jump => exact target edge
    | call => exact absurd coded level.plain
    | branch condition =>
      exact List.mem_append.mpr ((List.mem_append.mp edge).imp next target)
    | _ => exact next edge
  · have same : Code.succsOf _ _ line = _ :=
      Statement.succsInserted (Expansion.aroundInserted around) (p.blocks t l place).flatten
        (Blocks.start (p.blocks t l place) i + n)
    have length := (bodyAt t l place coded level.present).2
    rw [Expansion.bodyParts coded, List.length_append, List.length_cons] at length
    have more : (lead t place (l.liveIn i) inst).length + 1 <
        (Expansion.statements t place (l.liveIn i) inst).length := by omega
    have opcode : inst.statement.opcode = some op := coded
    rw [succsStays opcode (ownStays level coded more) fun same => level.plain (same ▸ coded)] at edge
    rw [same]
    exact next edge

variable (t l place) in
theorem lastLine (level : p.Level i inst) :
    ∃ n, n + 1 = (Expansion.statements t place (l.liveIn i) inst).length ∧
      Blocks.start (p.blocks t l place) (i + 1) - 1 = Blocks.start (p.blocks t l place) i + n := by
  have after : Blocks.start (p.blocks t l place) (i + 1) = _ :=
    Blocks.startNext (blockAt level.present)
  have bound : i < p.size := (List.getElem?_eq_some_iff.mp level.present).1
  have first : p.Within t l place i 0 p.instructions[i] := startWithin readable bound
  cases Option.some.inj (first.present.symm.trans level.present)
  have positive := first.bound
  exact ⟨_, Nat.sub_add_cancel positive, by omega⟩

theorem spanFlow (level : p.Level i inst) :
    Path (Code.succsAt (p.blocks t l place).flatten) (Blocks.start (p.blocks t l place) i)
      (Blocks.start (p.blocks t l place) (i + 1) - 1) (p.span t l place i) := by
  obtain ⟨n, length, last⟩ := lastLine t l place readable level
  rw [spanAt level.present, last, ← length]
  exact Path.range n fun k below => flowInside readable level (by omega)

theorem routeFlow (level : ∀ j ∈ path, ∃ inst, p.Level j inst)
    (leads : Path (Code.succsAt p.code) i j path) :
    Path (Code.succsAt (p.blocks t l place).flatten) (Blocks.start (p.blocks t l place) i)
      (Blocks.start (p.blocks t l place) (j + 1) - 1) (p.route t l place path) := by
  induction path generalizing i with
  | nil => exact absurd leads.first (by simp)
  | cons k path ih =>
    obtain ⟨inst, first⟩ := level k List.mem_cons_self
    have span : Path _ _ _ (p.span t l place k) := spanFlow readable first
    rcases leads.cases with ⟨rfl, same⟩ | ⟨next, rest, same, edge, beyond⟩
    · cases same
      rw [route, List.flatMap_singleton]
      exact span
    · obtain ⟨rfl, rfl⟩ := List.cons.inj same
      have later := ih (fun j mem => level j (List.mem_cons_of_mem _ mem)) beyond
      rw [route, List.flatMap_cons]
      refine span.append ?_ later
      obtain ⟨n, length, last⟩ := lastLine t l place readable first
      rw [Code.succsAtLine (statementAt first.present)] at edge
      rw [last]
      exact flowOver readable first edge length

end Flow

theorem levelAlong {flow : ControlFlow} {entry : Nat} (flows : p.controlFlow = .ok flow)
    (returns : p.Returns flow entry path)
    (calm : ∀ j ∈ path, ∀ inst ∈ p.instructions[j]?, "SP" ∉ inst.kills ∧ inst.opcode ≠ some .call) :
    ∀ j ∈ path, ∃ inst, p.Level j inst := by
  obtain ⟨final, leads, ret, ends, _⟩ := returns
  intro j mem
  obtain ⟨inst, found⟩ := pathPresent flows leads ⟨ret, ends⟩ j mem
  exact ⟨inst, found, (calm j mem inst found).2, (calm j mem inst found).1⟩

def entering (p : Program) (t : Target) (l : Liveness) (place : Placement) (i : Nat)
    (inst : Instruction) : List Nat :=
  List.range' (Blocks.start (p.blocks t l place) i) ((lead t place (l.liveIn i) inst).length + 1)

def leaving (p : Program) (t : Target) (l : Liveness) (place : Placement) (i : Nat)
    (inst : Instruction) : List Nat :=
  List.range' (p.ownAt t l place i inst + 1) (trail t place (l.liveIn i) inst).length

theorem performsEntering (present : p.instructions[i]? = some inst)
    (called : inst.opcode = some .call) (c : Contents) :
    m.execute (p.blocks t l place).flatten (p.entering t l place i inst) c =
      m.performAll ((saved t place (l.liveIn i)).flatMap (Expansion.save t)) c := by
  have stands := (bodyAt t l place called present).1
  rw [Expansion.bodyParts called, ← List.singleton_append, ← List.append_assoc] at stands
  have lines := Machine.executeLines (m := m) stands.left c
  have same : m.performAll [own t place .call inst]
      (m.performAll (lead t place (l.liveIn i) inst) c) =
        m.performAll (lead t place (l.liveIn i) inst) c :=
    @Machine.performCall m (own t place .call inst) rfl _
  rw [List.length_append, List.length_singleton, Machine.performAllAppend, same,
    Expansion.leadCall called] at lines
  rw [entering, Expansion.leadCall called, lines]

theorem performsLeaving (present : p.instructions[i]? = some inst)
    (called : inst.opcode = some .call) (c : Contents) :
    m.execute (p.blocks t l place).flatten (p.leaving t l place i inst) c =
      m.performAll ((saved t place (l.liveIn i)).reverse.flatMap (Expansion.restore t)) c := by
  have stands := (bodyAt t l place called present).1
  rw [Expansion.bodyParts called, ← List.singleton_append, ← List.append_assoc] at stands
  have rest := stands.right
  rw [List.length_append, List.length_singleton, ← Nat.add_assoc] at rest
  have lines := Machine.executeLines (m := m) rest c
  rw [leaving, ownAt, lines, Expansion.trailCall called]

/-- What becomes of the registers that a call saves, from before the call over a path through its
callee to after the call. -/
structure CallRun (p : Program) (t : Target) (l : Liveness) (place : Placement)
    (saved : List Register) (path : List Nat) (stores : List (Nat × Int))
    (before entered returned after : Contents) : Prop where
  entry : entered.registers t.stackPointer.text =
    before.registers t.stackPointer.text - t.stride * saved.length
  saves : ∀ a r, saved[a]? = some r → entered.world.memory
    (Expansion.cell t (entered.registers t.stackPointer.text) saved.length a) =
      before.registers r.text
  stored : p.RouteStores t l place path (entered.registers t.stackPointer.text) stores
  shared : ∀ x ∈ place.spills.names,
    (∃ a < saved.length, entered.registers t.stackPointer.text + slot place x =
      Expansion.cell t (entered.registers t.stackPointer.text) saved.length a) ↔
        slot place x < t.stride * saved.length
  back : after.registers t.stackPointer.text = before.registers t.stackPointer.text
  restores : ∀ a r, saved[a]? = some r → after.registers r.text = returned.world.memory
    (Expansion.cell t (entered.registers t.stackPointer.text) saved.length a)
  kept : ∀ a r, saved[a]? = some r →
    (∀ k, (k, Expansion.cell t (entered.registers t.stackPointer.text) saved.length a) ∉ stores) →
      after.registers r.text = before.registers r.text

theorem callRun (readable : p.Readable) (subtracts : m.Subtracts)
    (stack : OwnStack t place p.instructions) (stride : place.spills.stride = t.stride)
    (present : p.instructions[i]? = some inst) (called : inst.opcode = some .call)
    (level : ∀ j ∈ path, ∃ other, p.Level j other) (before : Contents) :
    let code := (p.blocks t l place).flatten
    let entered := m.execute code (p.entering t l place i inst) before
    let returned := m.execute code (p.route t l place path) entered
    p.CallRun t l place (saved t place (l.liveIn i)) path
      (m.stored code (p.route t l place path) entered) before entered returned
      (m.execute code (p.leaving t l place i inst) returned) := by
  intro code entered returned
  have apart := @Expansion.savedApart t place (l.liveIn i) stack.given
  have positive : 0 < t.stride := stride ▸ stack.suited.stride
  have saves := Expansion.performSaves subtracts positive apart before
  rw [← performsEntering present called] at saves
  obtain ⟨pointer, stored⟩ := routeLevel (m := m) (l := l) readable stack level entered
  have restores := Expansion.performRestores m
    (fun r mem => apart r (List.mem_reverse.mp mem))
    (List.nodup_reverse.mpr (Expansion.savedNodup t place (l.liveIn i))) returned
  rw [← performsLeaving present called] at restores
  have stands : returned.registers t.stackPointer.text = entered.registers t.stackPointer.text :=
    pointer
  have loaded : ∀ a r, (saved t place (l.liveIn i))[a]? = some r →
      (m.execute code (p.leaving t l place i inst) returned).registers r.text =
        returned.world.memory (Expansion.cell t (entered.registers t.stackPointer.text)
          (saved t place (l.liveIn i)).length a) := fun a r present => by
    rw [restores.found present, stands]
  refine ⟨saves.stack, saves.cells, stored, fun x spilled =>
    Expansion.slotInCells stack.suited stride spilled _ _, ?_, loaded, fun a r found unhit => ?_⟩
  · have up := restores.stack
    have down : entered.registers t.stackPointer.text = _ := saves.stack
    rw [stands, List.length_reverse, down] at up
    exact up.trans (by omega)
  · rw [loaded a r found, Machine.executeMemory _ _ unhit]
    exact saves.cells a r found

end Program

namespace Program

variable {p : Program} {colorer : Colorer}

/-- Control goes from a call along the lines for a path through its callee. The cells of the saved
registers are the lowest that the callee can address, and the slots of spilled names are counted
from there too: a slot is one of the cells just when its offset is below four times their number.
After the call each saved register has what its cell holds by then, which is what was saved there
unless the path stores to that cell. -/
theorem savedOverCall {source out : String} {file : Nat} {c : Compilation} (builtIn : colorer.BuiltIn)
    (parsed : Program.parse source file = .ok p)
    (compiled : (p.compile Target.standard colorer).value = .ok c) (emitted : c.code = some out)
    (outFile : Nat) :
    ∃ q flow place, Program.parse out outFile = .ok q ∧ q.controlFlow = .ok flow ∧
      c.outcome.placement? = some place ∧
      ∀ i call entry path, p.instructions[i]? = some call → call.opcode = some .call →
        entry ∈ p.callee? call → p.Returns c.flow entry path →
        (∀ j ∈ path, ∀ inst ∈ p.instructions[j]?,
          "SP" ∉ inst.kills ∧ inst.opcode ≠ some .call) →
        let route := p.route .standard c.liveness place path
        (∃ k, Path flow.succsAt (p.ownAt .standard c.liveness place i call) k
          (p.ownAt .standard c.liveness place i call :: route)) ∧
        ∀ m : Machine, m.Subtracts → ∀ before : Contents,
          let entered := m.execute q.code (p.entering .standard c.liveness place i call) before
          let returned := m.execute q.code route entered
          p.CallRun .standard c.liveness place
            (Expansion.saved .standard place (c.liveness.liveIn i)) path
            (m.stored q.code route entered) before entered returned
            (m.execute q.code (p.leaving .standard c.liveness place i call) returned) := by
  obtain ⟨last, given, q, flow, flows, outcome, _, settled, reparsed, controls, code, succs⟩ :=
    compiledBlocks builtIn parsed compiled emitted outFile
  have readable := parseReadable parsed
  refine ⟨q, flow, ⟨given, last.spills⟩, reparsed, controls, by rw [outcome]; rfl, ?_⟩
  intro i call entry path present called callee returns calm route
  have level := levelAlong flows returns calm
  obtain ⟨final, leads, _⟩ := returns
  rw [succsAtAll flows] at leads
  rw [succs, code]
  exact ⟨⟨_, .cons (callFlow readable present called callee) (routeFlow readable level leads)⟩,
    fun m subtracts before => callRun readable subtracts (settled.ownStack builtIn)
      settled.spills.stride present called level before⟩

theorem thirtySavedOverCall : ∃ p c out q flow place call,
    Program.parse Crowd.thirtyRoutine 0 = .ok p ∧
    (p.compile Target.standard .greedy).value = .ok c ∧ c.code = some out ∧
    Program.parse out 0 = .ok q ∧ q.controlFlow = .ok flow ∧
    c.outcome.placement? = some place ∧ p.instructions[0]? = some call ∧
    ∃ saved : List Register, ⟨0⟩ ∈ saved ∧
      let route := p.route .standard c.liveness place (List.range' 2 32)
      (∃ k, Path flow.succsAt (p.ownAt .standard c.liveness place 0 call) k
        (p.ownAt .standard c.liveness place 0 call :: route)) ∧
      ∀ before : Contents,
        let entered :=
          Machine.counting.execute q.code (p.entering .standard c.liveness place 0 call) before
        let returned := Machine.counting.execute q.code route entered
        p.CallRun .standard c.liveness place saved (List.range' 2 32)
          (Machine.counting.stored q.code route entered) before entered returned
          (Machine.counting.execute q.code (p.leaving .standard c.liveness place 0 call) returned) := by
  obtain ⟨p, c, out, last, registers, parsed, compiled, emitted, outcome, crowd, returns, saved, _⟩ :=
    Crowd.thirtyRoutineRuns
  obtain ⟨q, flow, place, reparsed, controls, placed, law⟩ :=
    savedOverCall .greedy parsed compiled emitted 0
  obtain ⟨call, present, called, callee⟩ := Crowd.routineCall crowd
  rw [outcome] at placed
  cases Option.some.inj placed
  have calm := Crowd.routineCalm crowd (by decide)
  obtain ⟨leads, runs⟩ := law 0 call 2 _ present called callee returns calm
  exact ⟨p, c, out, q, flow, _, call, parsed, compiled, emitted, reparsed, controls,
    by rw [outcome]; rfl, present, _, saved, leads, runs .counting Machine.countingSubtracts⟩

/-- A routine in which a name is spilled. The first spilled name has its slot at the stack pointer
with which the routine runs, where the call has saved a register, and the routine stores to it. -/
theorem storesOverSaved : ∃ p c out q place call x j inst,
    Program.parse Crowd.thirtyRoutine 0 = .ok p ∧
    (p.compile Target.standard .greedy).value = .ok c ∧ c.code = some out ∧
    Program.parse out 0 = .ok q ∧ c.outcome.placement? = some place ∧
    p.instructions[0]? = some call ∧ call.opcode = some .call ∧ 2 ∈ p.callee? call ∧
    p.Returns c.flow 2 (List.range' 2 32) ∧
    (∀ j ∈ List.range' 2 32, ∀ inst ∈ p.instructions[j]?,
      "SP" ∉ inst.kills ∧ inst.opcode ≠ some .call) ∧
    j ∈ List.range' 2 32 ∧ p.instructions[j]? = some inst ∧
    Expansion.spilledKill? place inst = some x ∧
    ∀ before : Contents,
      let saved := Expansion.saved .standard place (c.liveness.liveIn 0)
      let entered :=
        Machine.counting.execute q.code (p.entering .standard c.liveness place 0 call) before
      let stack := entered.registers "R29"
      (p.ownAt .standard c.liveness place j inst + 2, stack + Expansion.slot place x) ∈
        Machine.counting.stored q.code (p.route .standard c.liveness place (List.range' 2 32))
          entered ∧
      (∃ r ∈ saved, entered.world.memory (stack + Expansion.slot place x) = before.registers r.text) ∧
      ¬ ∀ a < saved.length, stack + Expansion.slot place x ≠ stack + 4 * a := by
  obtain ⟨p, c, out, last, registers, parsed, compiled, emitted, outcome, crowd, returns, saved,
    x, spilled, zero, j, mem, inst, found, killed⟩ := Crowd.thirtyRoutineRuns
  obtain ⟨call, present, called, callee⟩ := Crowd.routineCall crowd
  obtain ⟨last', given', q, flow, flows, outcome', _, settled, reparsed, _, code, _⟩ :=
    compiledBlocks .greedy parsed compiled emitted 0
  obtain ⟨rfl, rfl⟩ := Outcome.allocated.inj (outcome.symm.trans outcome')
  have calm := Crowd.routineCalm crowd (by decide)
  refine ⟨p, c, out, q, ⟨registers, last.spills⟩, call, x, j, inst, parsed, compiled, emitted,
    reparsed, by rw [outcome]; rfl, present, called, callee, returns, calm, mem, found, killed, ?_⟩
  intro before cells entered stack
  have level := levelAlong flows returns calm
  have run := callRun (l := c.liveness) (parseReadable parsed) Machine.countingSubtracts
    (settled.ownStack .greedy) settled.spills.stride present called level before
  rw [← code] at run
  have positive : 0 < cells.length := List.length_pos_of_mem saved
  obtain ⟨a, below, same⟩ := (run.shared x spilled).mpr (by
    rw [zero]
    exact Nat.mul_pos (by decide) positive)
  refine ⟨run.stored.back j mem inst found x killed, ⟨cells[a], List.getElem_mem below, ?_⟩,
    fun apart => apart 0 positive (by rw [zero]; rfl)⟩
  have cell := run.saves a cells[a] (List.getElem?_eq_getElem below)
  rw [← same] at cell
  exact cell

end Program

end Regalloc
