import Regalloc.Proofs.RenamedAllocation

/-! Code under a renaming. A name only decides which register, slot or scratch register stands for it,
so the block of a renamed instruction is the block of the instruction. -/
namespace Regalloc

variable {σ : Name ≃ Name} {t : Target}

def Placement.rename (f : Name → Name) (place : Placement) : Placement :=
  ⟨place.registers.mapKeys f, place.spills.rename f⟩

structure Instruction.Renamed (f : Name → Name) (inst other : Instruction) : Prop where
  opcode : other.opcode = inst.opcode
  operands : other.operands.map Operand.value = inst.operands.map fun operand =>
    operand.value.rename f

namespace Instruction.Renamed

variable {inst other : Instruction}

theorem registersIn (renamed : inst.Renamed σ other) (wanted : Slot) :
    other.registersIn wanted = (inst.registersIn wanted).map σ := by
  rw [registersInStatement, registersInStatement, ← Statement.registersInRename]
  simp only [Statement.registersIn, Statement.shape, Instruction.statement, Statement.rename,
    renamed.opcode, renamed.operands, List.map_map, Function.comp_def]

theorem kills (renamed : inst.Renamed σ other) : other.kills = inst.kills.map σ :=
  renamed.registersIn .written

theorem gens (renamed : inst.Renamed σ other) : other.gens = inst.gens.map σ :=
  renamed.registersIn .read

end Instruction.Renamed

namespace Expansion

variable {place : Placement} {live : NameSet} {inst other : Instruction} {x : Name}

structure Steady (t : Target) (place : Placement) (f : Name → Name) (x : Name) : Prop where
  reserved : t.reservedRegister? (f x) = t.reservedRegister? x
  placed : Placed t place x ∨ f x = x

theorem savedRename : saved t (place.rename σ) (live.map σ) = saved t place live := by
  unfold saved
  refine congrArg (List.map Register.mk) (Ascending.equalOfMembers Ascending.ascendingOfList
    Ascending.ascendingOfList fun n => ?_)
  simp only [Ascending.memOfList, List.mem_map, List.mem_filter, List.mem_filterMap,
    NameSet.memToList, NameSet.memMap, Placement.rename, NameMap.getMapKeys]
  constructor
  · rintro ⟨r, ⟨⟨y, mem, found⟩, caller⟩, rfl⟩
    exact ⟨r, ⟨⟨σ.symm y, mem, found⟩, caller⟩, rfl⟩
  · rintro ⟨r, ⟨⟨x, mem, found⟩, caller⟩, rfl⟩
    exact ⟨r, ⟨⟨σ x, by simpa using mem, by simpa using found⟩, caller⟩, rfl⟩

theorem spilledKillRename (renamed : inst.Renamed σ other) :
    spilledKill? (place.rename σ) other = (spilledKill? place inst).map σ := by
  have same : (place.rename σ).spills.contains ∘ σ = place.spills.contains :=
    funext fun x => Spills.containsRename
  rw [spilledKill?, renamed.kills, List.find?_map, same]
  rfl

theorem gatherRename (xs names : List Name) :
    (xs.map σ).foldl (fun names x => if x ∈ names then names else names ++ [x]) (names.map σ) =
      (xs.foldl (fun names x => if x ∈ names then names else names ++ [x]) names).map σ := by
  induction xs generalizing names with
  | nil => rfl
  | cons x xs ih =>
    rw [List.map_cons, List.foldl_cons, List.foldl_cons, ← ih]
    by_cases old : x ∈ names <;> simp [old]

theorem spilledGensRename (renamed : inst.Renamed σ other) :
    spilledGens (place.rename σ) other = (spilledGens place inst).map σ := by
  have same : (place.rename σ).spills.contains ∘ σ = place.spills.contains :=
    funext fun x => Spills.containsRename
  have both : (((spilledKill? place inst).map σ).filter fun x => x ∈ inst.gens.map σ).toList =
      ((spilledKill? place inst).filter fun x => x ∈ inst.gens).toList.map σ := by
    cases spilledKill? place inst with
    | none => rfl
    | some x => by_cases read : x ∈ inst.gens <;> simp [Option.filter, read]
  unfold spilledGens
  rw [spilledKillRename renamed, renamed.gens, both, List.filter_map, same, gatherRename]

theorem lookedUp : (fun entry : Name × Register => entry.1 == σ x) ∘ Prod.map σ id =
    fun entry => entry.1 == x :=
  funext fun entry => Bool.eq_iff_iff.mpr (by simp)

theorem scratchRename (renamed : inst.Renamed σ other) :
    scratch t (place.rename σ) other =
      (scratch t place inst).map (Prod.map σ id) := by
  have zipped : (spilledGens (place.rename σ) other).zip [t.scratchValue, t.scratchAddress] =
      ((spilledGens place inst).zip [t.scratchValue, t.scratchAddress]).map (Prod.map σ id) := by
    rw [spilledGensRename renamed, List.zip_map_left]
  unfold scratch
  rw [zipped, spilledKillRename renamed]
  cases spilledKill? place inst with
  | none => rfl
  | some x =>
    simp only [Option.map_some, List.any_map, lookedUp]
    split <;> simp

theorem registerRename {scratch : List (Name × Register)}
    (reserved : t.reservedRegister? (σ x) = t.reservedRegister? x) :
    register? t (place.rename σ) (scratch.map (Prod.map σ id)) (σ x) =
      register? t place scratch x := by
  have given : (place.rename σ).registers.get? (σ x) = place.registers.get? x := by
    simp [Placement.rename]
  have spilled : (place.rename σ).spills.contains (σ x) = place.spills.contains x :=
    Spills.containsRename
  simp only [register?, List.find?_map, lookedUp, Option.map_map, reserved, given, spilled]
  rfl

theorem coreRename (scratch : List (Name × Register)) (renamed : inst.Renamed σ other)
    (steady : ∀ x ∈ inst.registers, Steady t place σ x)
    (op : Opcode) :
    core t (place.rename σ) (scratch.map (Prod.map σ id)) op other =
      core t place scratch op inst := by
  have same : ∀ operand ∈ inst.operands,
      rename t (place.rename σ) (scratch.map (Prod.map σ id))
        (operand.value.rename σ) = rename t place scratch operand.value := by
    intro operand mem
    cases named : operand.value with
    | immediate text => rfl
    | label text => rfl
    | register x =>
      have held := steady x (List.mem_filterMap.mpr ⟨operand, mem, by rw [named]; rfl⟩)
      rw [Value.rename, rename, rename, registerRename held.reserved]
      rcases held.placed with placed | kept
      · obtain ⟨r, found⟩ := registerPlaced scratch placed
        simp [found]
      · rw [kept]
  unfold core
  have operands : other.operands.map (fun operand => rename t (place.rename σ)
      (scratch.map (Prod.map σ id)) operand.value) =
      inst.operands.map fun operand => rename t place scratch operand.value := by
    have values := congrArg (List.map (rename t (place.rename σ)
      (scratch.map (Prod.map σ id)))) renamed.operands
    rw [List.map_map, List.map_map] at values
    exact values.trans (List.map_congr_left same)
  rw [operands]

theorem loadsRename (renamed : inst.Renamed σ other) :
    loads t (place.rename σ) other = loads t place inst := by
  unfold loads
  rw [scratchRename renamed, List.flatMap_map, renamed.gens]
  refine List.flatMap_congr fun entry _ => ?_
  have offset : (place.rename σ).spills.offset? (σ entry.1) = place.spills.offset? entry.1 :=
    Spills.offsetRename
  simp [offset]

theorem storesRename (renamed : inst.Renamed σ other) :
    stores t (place.rename σ) other = stores t place inst := by
  unfold stores
  have offset : (place.rename σ).spills.offset? ∘ σ = place.spills.offset? :=
    funext fun x => Spills.offsetRename
  rw [spilledKillRename renamed, Option.bind_map, offset]

theorem bodyRename (renamed : inst.Renamed σ other)
    (steady : ∀ x ∈ inst.registers, Steady t place σ x) :
    body t (place.rename σ) (live.map σ) other = body t place live inst := by
  have operation (op : Opcode) :
      operation t (place.rename σ) op other = operation t place op inst := by
    rw [operation, operation, loadsRename renamed, storesRename renamed, scratchRename renamed,
      coreRename (scratch t place inst) renamed steady]
  have call : call t (place.rename σ) (live.map σ) other = call t place live inst := by
    have own := @coreRename σ t place inst other [] renamed steady .call
    rw [call, call, savedRename]
    exact congrArg (fun line => _ ++ [line] ++ _) own
  unfold body
  rw [renamed.opcode]
  split
  · rfl
  · exact call
  · exact operation _

end Expansion

end Regalloc
