import Regalloc.Expansion
import Regalloc.Proofs.Blocks
import Regalloc.Proofs.Printing

/-! The code for one instruction. It is a block that stands for the instruction, it can be read
back, and it names machine registers only. -/
namespace Regalloc

theorem Register.textDigits (r : Register) : r.text.toList = 'R' :: Nat.toDigits 10 r.index := by
  simp [Register.text, toString, Nat.toList_repr]

theorem Register.textInjective {r s : Register} (same : r.text = s.text) : r = s := by
  have digits := congrArg String.toList same
  rw [r.textDigits, s.textDigits] at digits
  have index := congrArg (fun cs => Nat.ofDigitChars 10 cs 0) (List.cons.inj digits).2
  simp only [Nat.ofDigitChars_ten_toDigits] at index
  cases r
  exact congrArg Register.mk index

theorem Register.nameText (r : Register) : Token.NameText r.text.toList := by
  rw [r.textDigits]
  refine .mk 'R' _ (by decide) fun d mem => ?_
  have digit := Nat.isDigit_of_mem_toDigits (by decide) (by decide) mem
  simp [Token.isNamePart, digit]

theorem Token.numberText (n : Nat) : Token.NumberText (toString n).toList := by
  have digits : (toString n).toList = Nat.toDigits 10 n := Nat.toList_repr
  rw [digits]
  cases shown : Nat.toDigits 10 n with
  | nil => exact absurd shown Nat.toDigits_ne_nil
  | cons c cs =>
    refine .plain (.decimal c cs fun d mem => ?_)
    rw [← shown] at mem
    exact Nat.isDigit_of_mem_toDigits (by decide) (by decide) mem

namespace Statement

def registers (s : Statement) : List Name := s.operands.filterMap Value.register?

def unmarked (s : Statement) : Statement := { s with label := none, comment := none }

theorem memRegisters {s : Statement} {x : Name} :
    x ∈ s.registers ↔ Value.register x ∈ s.operands := by
  unfold registers
  rw [List.mem_filterMap]
  constructor
  · rintro ⟨value, mem, found⟩
    cases value with
    | register y => exact Option.some.inj found ▸ mem
    | immediate text => contradiction
    | label text => contradiction
  · exact fun mem => ⟨_, mem, rfl⟩

structure Added (allowed : Register → Prop) (s : Statement) : Prop where
  inserted : s.Inserted
  unmarked : s.unmarked = s
  readable : s.Readable
  registers : ∀ x ∈ s.registers, ∃ r, allowed r ∧ x = r.text

variable {allowed : Register → Prop} {r a : Register}

open Expansion (registerValue)

theorem plainReadable {op : Opcode} {operands : List Value}
    (fits : List.Forall₂ Value.Fits op.shape operands) : (plain op operands).Readable :=
  ⟨fun _ absent => (nomatch absent), fits, fun _ absent => (nomatch absent), .inr rfl⟩

theorem pairRegisters (first : allowed r) (second : allowed a) (op : Opcode) {values : List Value}
    (bare : values.filterMap Value.register? = []) :
    ∀ x ∈ (plain op (registerValue r :: registerValue a :: values)).registers,
      ∃ r, allowed r ∧ x = r.text := by
  intro x mem
  have named : x = r.text ∨ x = a.text := by
    simpa [registers, plain, registerValue, Value.register?, bare] using mem
  rcases named with rfl | rfl
  · exact ⟨r, first, rfl⟩
  · exact ⟨a, second, rfl⟩

theorem addedMove (op : Alu) (which : op = .add ∨ op = .sub) (first : allowed r)
    (second : allowed a) (n : Nat) :
    Added allowed
      (plain (.aluImm op) [registerValue r, registerValue a, .immediate (toString n)]) := by
  refine ⟨⟨?_, rfl⟩, rfl, plainReadable ?_, pairRegisters first second _ rfl⟩
  · rcases which with rfl | rfl
    · exact .inl rfl
    · exact .inr (.inl rfl)
  · exact .cons r.nameText (.cons a.nameText (.cons (.inr (Token.numberText n)) .nil))

theorem addedLoad (first : allowed r) (second : allowed a) :
    Added allowed (plain .load [registerValue r, registerValue a]) :=
  ⟨⟨.inr (.inr (.inl rfl)), rfl⟩, rfl, plainReadable (.cons r.nameText (.cons a.nameText .nil)),
    pairRegisters first second _ rfl⟩

theorem addedStore (first : allowed r) (second : allowed a) :
    Added allowed (plain .store [registerValue r, registerValue a]) :=
  ⟨⟨.inr (.inr (.inr rfl)), rfl⟩, rfl, plainReadable (.cons r.nameText (.cons a.nameText .nil)),
    pairRegisters first second _ rfl⟩

end Statement

theorem Instruction.registersStatement (inst : Instruction) :
    inst.registers = inst.statement.registers := by
  rw [Statement.registers, Instruction.statement, List.filterMap_map]
  rfl

namespace Expansion

open Statement (Added)

variable {t : Target} {place : Placement} {live : NameSet} {inst : Instruction}
  {allowed : Register → Prop} {x : Name}

structure Allows (t : Target) (place : Placement) (allowed : Register → Prop) : Prop where
  stackPointer : allowed t.stackPointer
  scratchValue : allowed t.scratchValue
  scratchAddress : allowed t.scratchAddress
  reserved : ∀ entry ∈ t.reserved, allowed entry.2
  given : ∀ x r, place.registers.get? x = some r → allowed r

theorem allowsAll (t : Target) (place : Placement) : Allows t place fun _ => True :=
  ⟨trivial, trivial, trivial, fun _ _ => trivial, fun _ _ _ => trivial⟩

def Placed (t : Target) (place : Placement) (x : Name) : Prop :=
  t.isReserved x = true ∨ x ∈ place.registers.keys ∨ x ∈ place.spills.names

theorem savedSource {r : Register} (mem : r ∈ saved t place live) :
    ∃ x ∈ live, place.registers.get? x = some r ∧ t.isCallerSaved r = true := by
  unfold saved at mem
  obtain ⟨n, inside, rfl⟩ := List.mem_map.mp mem
  obtain ⟨r, kept, rfl⟩ := List.mem_map.mp (Ascending.memOfList.mp inside)
  obtain ⟨inUse, caller⟩ := List.mem_filter.mp kept
  obtain ⟨x, live, found⟩ := List.mem_filterMap.mp inUse
  exact ⟨x, live, found, caller⟩

theorem gatherFold (xs names : List Name) (nodup : names.Nodup) :
    let gathered := xs.foldl (fun names x => if x ∈ names then names else names ++ [x]) names
    gathered.Nodup ∧ (∀ x, x ∈ gathered ↔ x ∈ names ∨ x ∈ xs) ∧ names <+: gathered := by
  induction xs generalizing names with
  | nil => exact ⟨nodup, fun x => by simp, List.prefix_rfl⟩
  | cons y xs ih =>
    rw [List.foldl_cons]
    by_cases old : y ∈ names
    · rw [if_pos old]
      obtain ⟨distinct, members, first⟩ := ih names nodup
      refine ⟨distinct, fun x => (members x).trans ⟨fun mem => ?_, fun mem => ?_⟩, first⟩
      · exact mem.imp_right (List.mem_cons_of_mem y)
      · rcases mem with before | here
        · exact .inl before
        · exact (List.mem_cons.mp here).imp_left fun same : x = y => same ▸ old
    · rw [if_neg old]
      have longer : (names ++ [y]).Nodup := by
        refine List.nodup_append.mpr ⟨nodup, List.nodup_singleton y, fun x mem z last same => ?_⟩
        exact old (List.mem_singleton.mp last ▸ same ▸ mem)
      obtain ⟨distinct, members, first⟩ := ih (names ++ [y]) longer
      refine ⟨distinct, fun x => ?_, (List.prefix_append names [y]).trans first⟩
      rw [members, List.mem_append, List.mem_singleton, List.mem_cons, or_assoc]

theorem spilledKillIn (found : spilledKill? place inst = some x) :
    x ∈ inst.kills ∧ x ∈ place.spills.names := by
  unfold spilledKill? at found
  have spilled := List.find?_some found
  exact ⟨List.mem_of_find?_eq_some found, of_decide_eq_true spilled⟩

theorem spilledKillOf (killed : x ∈ inst.kills) (spilled : x ∈ place.spills.names) :
    spilledKill? place inst = some x := by
  rw [spilledKill?, Instruction.killsOf killed, List.find?_cons_of_pos]
  exact decide_eq_true spilled

theorem spilledGensIff : x ∈ spilledGens place inst ↔ x ∈ inst.gens ∧ x ∈ place.spills.names := by
  have nodup : ((spilledKill? place inst).filter (fun x => x ∈ inst.gens)).toList.Nodup := by
    cases (spilledKill? place inst).filter (fun x => x ∈ inst.gens) <;> simp
  unfold spilledGens
  rw [(gatherFold _ _ nodup).2.1]
  simp only [Option.mem_toList, Option.filter_eq_some_iff, List.mem_filter,
    decide_eq_true_eq, Spills.contains]
  exact ⟨fun either => either.elim (fun both => ⟨both.2, (spilledKillIn both.1).2⟩) id, .inr⟩

theorem scratchRegisters (t : Target) (place : Placement) (inst : Instruction) :
    ∀ entry ∈ scratch t place inst, entry.2 = t.scratchValue ∨ entry.2 = t.scratchAddress := by
  have zipped : ∀ entry ∈ (spilledGens place inst).zip [t.scratchValue, t.scratchAddress],
      entry.2 = t.scratchValue ∨ entry.2 = t.scratchAddress := fun entry mem => by
    simpa using (List.of_mem_zip mem).2
  intro entry mem
  unfold scratch at mem
  dsimp only at mem
  split at mem
  · split at mem
    · exact zipped entry mem
    · rcases List.mem_append.mp mem with before | last
      · exact zipped entry before
      · exact .inl (List.mem_singleton.mp last ▸ rfl)
  · exact zipped entry mem

theorem registerPlaced (scratch : List (Name × Register)) (placed : Placed t place x) :
    ∃ r, register? t place scratch x = some r := by
  unfold register?
  cases scratch.find? (fun entry => entry.1 == x) with
  | some entry => exact ⟨entry.2, rfl⟩
  | none =>
    cases reserved : t.reservedRegister? x with
    | some r => exact ⟨r, rfl⟩
    | none =>
      cases given : place.registers.get? x with
      | some r => exact ⟨r, rfl⟩
      | none =>
        have spilled : x ∈ place.spills.names := by
          rcases placed with free | given_ | spilled
          · rw [Target.isReserved, reserved] at free
            contradiction
          · obtain ⟨r, found⟩ := NameMap.memKeysIff.mp given_
            rw [given] at found
            contradiction
          · exact spilled
        exact ⟨t.scratchAddress, by simp [Spills.contains, spilled]⟩

theorem registerSource (allows : Allows t place allowed) {scratch : List (Name × Register)}
    (scratched : ∀ entry ∈ scratch, entry.2 = t.scratchValue ∨ entry.2 = t.scratchAddress)
    {r : Register} (found : register? t place scratch x = some r) : allowed r := by
  unfold register? at found
  cases own : scratch.find? (fun entry => entry.1 == x) with
  | some entry =>
    rw [own] at found
    cases Option.some.inj found
    rcases scratched entry (List.mem_of_find?_eq_some own) with same | same
    · exact same ▸ allows.scratchValue
    · exact same ▸ allows.scratchAddress
  | none =>
    rw [own] at found
    cases reserved : t.reservedRegister? x with
    | some bound =>
      rw [reserved] at found
      cases Option.some.inj found
      obtain ⟨entry, inside, same⟩ := Option.map_eq_some_iff.mp reserved
      exact same ▸ allows.reserved entry (List.mem_of_find?_eq_some inside)
    | none =>
      rw [reserved] at found
      cases given : place.registers.get? x with
      | some held =>
        rw [given] at found
        cases Option.some.inj found
        exact allows.given x r given
      | none =>
        rw [given] at found
        obtain ⟨_, same⟩ := Option.ite_none_right_eq_some.mp found
        exact Option.some.inj same ▸ allows.scratchAddress

theorem renameFits {scratch : List (Name × Register)} {slot : Slot} {value : Value}
    (fits : Value.Fits slot value) : Value.Fits slot (rename t place scratch value) := by
  cases value with
  | immediate text => exact fits
  | label text => exact fits
  | register x =>
    rw [rename]
    cases register? t place scratch x with
    | none => exact fits
    | some r => cases slot <;> first | exact r.nameText | exact fits.elim

theorem renameFixed (scratch : List (Name × Register)) (value : Value) :
    (rename t place scratch value).fixed? = value.fixed? := by
  cases value <;> rfl

theorem coreFixed (scratch : List (Name × Register)) (op : Opcode) (inst : Instruction) :
    (core t place scratch op inst).fixed = inst.statement.fixed := by
  unfold Statement.fixed core Statement.plain Instruction.statement
  simp [renameFixed]

theorem coreReadable {op : Opcode} (coded : inst.opcode = some op)
    (readable : inst.statement.Readable) (scratch : List (Name × Register)) :
    (core t place scratch op inst).Readable := by
  have fits := readable.operands
  rw [show inst.statement.opcode = some op from coded] at fits
  refine Statement.plainReadable ?_
  have renamed : inst.operands.map (fun operand => rename t place scratch operand.value) =
      inst.statement.operands.map (rename t place scratch) := by
    rw [Instruction.statement, List.map_map]
    rfl
  rw [renamed]
  exact List.forall₂_map_right_iff.mpr (fits.imp fun slot value => renameFits)

theorem coreNames (allows : Allows t place allowed) {scratch : List (Name × Register)}
    (scratched : ∀ entry ∈ scratch, entry.2 = t.scratchValue ∨ entry.2 = t.scratchAddress)
    (op : Opcode) : ∀ x ∈ (core t place scratch op inst).registers,
      (∃ r, allowed r ∧ x = r.text) ∨ (x ∈ inst.registers ∧ ¬ Placed t place x) := by
  intro x mem
  obtain ⟨operand, present, same⟩ := List.mem_map.mp (Statement.memRegisters.mp mem)
  cases named : operand.value with
  | immediate text => rw [named] at same; contradiction
  | label text => rw [named] at same; contradiction
  | register y =>
    rw [named, rename] at same
    cases found : register? t place scratch y with
    | some r =>
      rw [found] at same
      exact .inl ⟨r, registerSource allows scratched found, (Value.register.inj same).symm⟩
    | none =>
      rw [found] at same
      cases Value.register.inj same
      refine .inr ⟨List.mem_filterMap.mpr ⟨operand, present, by rw [named]; rfl⟩, fun placed => ?_⟩
      obtain ⟨r, other⟩ := registerPlaced scratch placed
      cases found.symm.trans other

theorem addedLoads (allows : Allows t place allowed) {r : Register} (fine : allowed r)
    (offset : Nat) : ∀ line ∈ load t r offset, Added allowed line := by
  intro line mem
  rcases List.mem_cons.mp mem with rfl | last
  · exact Statement.addedMove .add (.inl rfl) allows.scratchAddress allows.stackPointer offset
  · exact List.mem_singleton.mp last ▸ Statement.addedLoad fine allows.scratchAddress

theorem addedStoreBack (allows : Allows t place allowed) (offset : Nat) :
    ∀ line ∈ storeBack t offset, Added allowed line := by
  intro line mem
  rcases List.mem_cons.mp mem with rfl | last
  · exact Statement.addedMove .add (.inl rfl) allows.scratchAddress allows.stackPointer offset
  · exact List.mem_singleton.mp last ▸
      Statement.addedStore allows.scratchValue allows.scratchAddress

theorem addedSave (allows : Allows t place allowed) {r : Register} (fine : allowed r) :
    ∀ line ∈ save t r, Added allowed line := by
  intro line mem
  rcases List.mem_cons.mp mem with rfl | last
  · exact Statement.addedMove .sub (.inr rfl) allows.stackPointer allows.stackPointer t.stride
  · exact List.mem_singleton.mp last ▸ Statement.addedStore fine allows.stackPointer

theorem addedRestore (allows : Allows t place allowed) {r : Register} (fine : allowed r) :
    ∀ line ∈ restore t r, Added allowed line := by
  intro line mem
  rcases List.mem_cons.mp mem with rfl | last
  · exact Statement.addedLoad fine allows.stackPointer
  · exact List.mem_singleton.mp last ▸
      Statement.addedMove .add (.inl rfl) allows.stackPointer allows.stackPointer t.stride

theorem killsLeave {op : Opcode} (coded : inst.opcode = some op) (leaves : op.leaves = true) :
    inst.kills = [] := by
  have unwritten : Slot.written ∉ op.shape := by
    cases op <;> first | contradiction | simp [Opcode.shape]
  exact List.eq_nil_iff_forall_not_mem.mpr fun _ killed =>
    unwritten (Instruction.killWritten coded killed)

theorem storesLeave {op : Opcode} (coded : inst.opcode = some op) (leaves : op.leaves = true) :
    stores t place inst = [] := by
  simp [stores, spilledKill?, killsLeave coded leaves]

def body (t : Target) (place : Placement) (live : NameSet) (inst : Instruction) : List Statement :=
  match inst.opcode with
  | none => []
  | some .call => call t place live inst
  | some op => operation t place op inst

theorem statementsBody (t : Target) (place : Placement) (live : NameSet) (inst : Instruction) :
    statements t place live inst =
      decorate (inst.label.map Prod.fst) inst.comment (body t place live inst) := rfl

theorem bodyAround (allows : Allows t place allowed) {op : Opcode} (coded : inst.opcode = some op)
    (live : NameSet) :
    ∃ before after scratch,
      body t place live inst = before ++ core t place scratch op inst :: after ∧
      (∀ entry ∈ scratch, entry.2 = t.scratchValue ∨ entry.2 = t.scratchAddress) ∧
      (∀ line ∈ before ++ after, Added allowed line) ∧ (after = [] ∨ op.leaves = false) := by
  by_cases called : op = .call
  · subst called
    refine ⟨(saved t place live).flatMap (save t), (saved t place live).reverse.flatMap (restore t),
      [], ?_, fun _ absent => (nomatch absent), fun line mem => ?_, .inr rfl⟩
    · simp only [body, coded, call, List.append_assoc, List.singleton_append]
    · have given : ∀ r ∈ saved t place live, allowed r := fun r mem => by
        obtain ⟨x, _, found, _⟩ := savedSource mem
        exact allows.given x r found
      rcases List.mem_append.mp mem with before | after
      · obtain ⟨r, inside, line⟩ := List.mem_flatMap.mp before
        exact addedSave allows (given r inside) _ line
      · obtain ⟨r, inside, line⟩ := List.mem_flatMap.mp after
        exact addedRestore allows (given r (List.mem_reverse.mp inside)) _ line
  · have split : body t place live inst = operation t place op inst := by
      unfold body
      rw [coded]
      cases op <;> first | rfl | exact absurd rfl called
    refine ⟨loads t place inst, stores t place inst, scratch t place inst, ?_,
      scratchRegisters t place inst, fun line mem => ?_, ?_⟩
    · rw [split, operation, List.append_assoc, List.singleton_append]
    · rcases List.mem_append.mp mem with before | after
      · obtain ⟨⟨x, r⟩, entry, line⟩ := List.mem_flatMap.mp before
        have fine : allowed r := by
          rcases scratchRegisters t place inst _ entry with same | same
          · exact (show r = t.scratchValue from same) ▸ allows.scratchValue
          · exact (show r = t.scratchAddress from same) ▸ allows.scratchAddress
        dsimp only at line
        split at line
        · split at line
          · exact addedLoads allows fine _ _ line
          · contradiction
        · contradiction
      · unfold stores at after
        split at after
        · exact addedStoreBack allows _ _ after
        · contradiction
    · cases leaves : op.leaves with
      | false => exact .inr rfl
      | true => exact .inl (storesLeave coded leaves)

section Decorate

variable {label comment : Option String} {lines : List Statement}

theorem decorateUnmarked (nonempty : lines ≠ []) (plain : ∀ line ∈ lines, line.unmarked = line) :
    (decorate label comment lines).map Statement.unmarked = lines := by
  cases lines with
  | nil => exact absurd rfl nonempty
  | cons first rest =>
    have same : rest.map Statement.unmarked = rest :=
      (List.map_congr_left fun line mem => plain line (List.mem_cons_of_mem _ mem)).trans
        (List.map_id rest)
    rw [decorate, List.map_cons, same]
    exact congrArg (· :: rest) (plain first List.mem_cons_self)

theorem decorateMarks (nonempty : lines ≠ []) (plain : ∀ line ∈ lines, line.unmarked = line) :
    ∃ first rest, decorate label comment lines = first :: rest ∧ first.label = label ∧
      first.comment = comment ∧ ∀ line ∈ rest, line.label = none ∧ line.comment = none := by
  cases lines with
  | nil => exact absurd rfl nonempty
  | cons first rest =>
    refine ⟨{ first with label, comment }, rest, rfl, rfl, rfl, fun line mem => ?_⟩
    rw [← plain line (List.mem_cons_of_mem _ mem)]
    exact ⟨rfl, rfl⟩

theorem decorateAll {holds : Statement → Prop} (nonempty : lines ≠ [])
    (all : ∀ line ∈ lines, holds line)
    (marked : ∀ line ∈ lines, holds line → holds { line with label, comment }) :
    ∀ line ∈ decorate label comment lines, holds line := by
  cases lines with
  | nil => exact absurd rfl nonempty
  | cons first rest =>
    intro line mem
    rcases List.mem_cons.mp mem with rfl | later
    · exact marked first List.mem_cons_self (all first List.mem_cons_self)
    · exact all line (List.mem_cons_of_mem _ later)

end Decorate

theorem statementsBare (readable : inst.statement.Readable) (coded : inst.opcode = none) :
    statements t place live inst = [inst.statement] := by
  have fits := readable.operands
  have present := readable.present
  rw [show inst.statement.opcode = none from coded] at fits present
  have operands : inst.statement.operands = [] := List.forall₂_nil_left_iff.mp fits
  have labelled : inst.statement.label.isSome = true := by simpa using present
  rw [statementsBody, body, coded]
  change decorate inst.statement.label inst.statement.comment [] = [inst.statement]
  rw [decorate, if_neg (by simp [Option.isSome_iff_ne_none.mp labelled])]
  rw [← operands, ← show inst.statement.opcode = none from coded]

theorem bodyCoded {op : Opcode} (coded : inst.opcode = some op) (t : Target) (place : Placement)
    (live : NameSet) : body t place live inst ≠ [] ∧
      ∀ line ∈ body t place live inst, line.unmarked = line := by
  obtain ⟨before, after, scratch, split, _, added, _⟩ := bodyAround (allowsAll t place) coded live
  refine ⟨by simp [split], fun line mem => ?_⟩
  rw [split, List.mem_append, List.mem_cons] at mem
  rcases mem with front | rfl | back
  · exact (added line (List.mem_append_left _ front)).unmarked
  · rfl
  · exact (added line (List.mem_append_right _ back)).unmarked

theorem statementsUnmarked {op : Opcode} (coded : inst.opcode = some op) (t : Target)
    (place : Placement) (live : NameSet) :
    (statements t place live inst).map Statement.unmarked = body t place live inst :=
  have ⟨nonempty, plain⟩ := bodyCoded coded t place live
  decorateUnmarked nonempty plain

theorem statementsStand (allows : Allows t place allowed) (readable : inst.statement.Readable)
    (live : NameSet) : Statement.Stands inst.statement (statements t place live inst) := by
  cases coded : inst.opcode with
  | none =>
    rw [statementsBare readable coded]
    exact ⟨⟨[], inst.statement, [], rfl, rfl, rfl, fun _ absent => (nomatch absent), .inl rfl⟩,
      ⟨inst.statement, [], rfl, rfl, rfl, fun _ absent => nomatch absent⟩, fun _ => rfl⟩
  | some op =>
    obtain ⟨nonempty, plain⟩ := bodyCoded coded t place live
    obtain ⟨before, after, scratch, split, _, added, ends⟩ := bodyAround allows coded live
    refine ⟨?_, decorateMarks nonempty plain, fun bare => ?_⟩
    · have unmarked := statementsUnmarked coded t place live
      rw [split] at unmarked
      obtain ⟨front, rest, whole, front_, rest_⟩ := List.map_eq_append_iff.mp unmarked
      obtain ⟨own, back, rfl, own_, back_⟩ := List.map_eq_cons_iff.mp rest_
      refine ⟨front, own, back, whole, ?_, ?_, fun line mem => ?_, ?_⟩
      · exact (congrArg Statement.opcode own_).trans coded.symm
      · rw [← coreFixed scratch op inst, ← own_]
        rfl
      · have inside : line.unmarked ∈ before ++ after := by
          rw [← front_, ← back_, ← List.map_append]
          exact List.mem_map_of_mem mem
        exact ⟨(added _ inside).inserted.operation, (added _ inside).inserted.straight⟩
      · refine ends.imp (fun empty => ?_) fun stays other same => ?_
        · rw [empty] at back_
          exact List.map_eq_nil_iff.mp back_
        · rw [show inst.statement.opcode = some op from coded] at same
          exact Option.some.inj same ▸ stays
    · rw [show inst.statement.opcode = some op from coded] at bare
      contradiction

theorem bodyReadable (readable : inst.statement.Readable) {op : Opcode}
    (coded : inst.opcode = some op) (live : NameSet) :
    ∀ line ∈ body t place live inst, line.Readable := by
  obtain ⟨before, after, scratch, split, _, added, _⟩ := bodyAround (allowsAll t place) coded live
  intro line mem
  rw [split, List.mem_append, List.mem_cons] at mem
  rcases mem with front | rfl | back
  · exact (added line (List.mem_append_left _ front)).readable
  · exact coreReadable coded readable scratch
  · exact (added line (List.mem_append_right _ back)).readable

theorem statementsReadable (readable : inst.statement.Readable) (live : NameSet) :
    ∀ line ∈ statements t place live inst, line.Readable := by
  cases coded : inst.opcode with
  | none =>
    rw [statementsBare readable coded]
    exact fun line mem => List.mem_singleton.mp mem ▸ readable
  | some op =>
    obtain ⟨nonempty, plain⟩ := bodyCoded coded t place live
    refine decorateAll nonempty (bodyReadable readable coded live) fun line mem fine => ?_
    have coded_ : line.opcode.isSome = true := by
      have present := fine.present
      rw [← plain line mem] at present
      exact present.resolve_left Bool.false_ne_true
    exact ⟨readable.label, fine.operands, readable.comment, .inr coded_⟩

structure Fine (allowed : Register → Prop) (line : Statement) : Prop where
  readable : line.Readable
  registers : ∀ x ∈ line.registers, ∃ r, allowed r ∧ x = r.text

theorem bodyNames (allows : Allows t place allowed) {op : Opcode} (coded : inst.opcode = some op)
    (live : NameSet) : ∀ line ∈ body t place live inst, ∀ x ∈ line.registers,
      (∃ r, allowed r ∧ x = r.text) ∨ (x ∈ inst.registers ∧ ¬ Placed t place x) := by
  obtain ⟨before, after, scratch, split, scratched, added, _⟩ := bodyAround allows coded live
  intro line mem x named
  rw [split, List.mem_append, List.mem_cons] at mem
  rcases mem with front | rfl | back
  · exact .inl ((added line (List.mem_append_left _ front)).registers x named)
  · exact coreNames allows scratched op x named
  · exact .inl ((added line (List.mem_append_right _ back)).registers x named)

theorem statementsNames (allows : Allows t place allowed) (live : NameSet) :
    ∀ line ∈ statements t place live inst, ∀ x ∈ line.registers,
      (∃ r, allowed r ∧ x = r.text) ∨ (x ∈ inst.registers ∧ ¬ Placed t place x) := by
  rw [statementsBody]
  cases coded : inst.opcode with
  | none =>
    intro line mem x named
    rw [body, coded, decorate] at mem
    split at mem
    · contradiction
    · cases List.mem_singleton.mp mem
      contradiction
  | some op =>
    obtain ⟨nonempty, _⟩ := bodyCoded coded t place live
    exact decorateAll nonempty (bodyNames allows coded live) fun _ _ held => held

theorem statementsFine (allows : Allows t place allowed) (readable : inst.statement.Readable)
    (placed : ∀ x ∈ inst.registers, Placed t place x) (live : NameSet) :
    ∀ line ∈ statements t place live inst, Fine allowed line := fun line mem =>
  ⟨statementsReadable readable live line mem, fun x named =>
    (statementsNames allows live line mem x named).resolve_right fun ⟨own, unplaced⟩ =>
      unplaced (placed x own)⟩

end Expansion

end Regalloc
