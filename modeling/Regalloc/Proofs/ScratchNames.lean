import Regalloc.Proofs.CrowdedRoutine
import Regalloc.Proofs.StackPointer

/-! The scratch registers under their own names. A program may name the registers that spilled names
pass through, and nothing keeps the two uses apart: an instruction on a spilled name overwrites both
registers, and where it also reads the value register by name it finds the spilled name there. -/
namespace Regalloc

namespace Instruction

variable {inst : Instruction} {x y : Name}

theorem callGens (called : inst.opcode = some .call) : inst.gens = [] := by
  refine List.eq_nil_iff_forall_not_mem.mpr fun x read => ?_
  obtain ⟨op, coded, reads⟩ := registersInShape read
  cases Option.some.inj (called.symm.trans coded)
  simp [Opcode.shape] at reads

theorem gensPair (left : x ∈ inst.gens) (right : y ∈ inst.gens) (apart : x ≠ y) :
    inst.gens = [x, y] ∨ inst.gens = [y, x] := by
  have length := inst.gensLength
  match gens : inst.gens with
  | [] => exact absurd (gens ▸ left) List.not_mem_nil
  | [u] => exact absurd ((List.mem_singleton.mp (gens ▸ left)).trans
      (List.mem_singleton.mp (gens ▸ right)).symm) apart
  | [u, v] =>
    rcases List.mem_pair.mp (gens ▸ left) with rfl | rfl <;>
      rcases List.mem_pair.mp (gens ▸ right) with rfl | rfl
    · exact absurd rfl apart
    · exact .inl rfl
    · exact .inr rfl
    · exact absurd rfl apart
  | _ :: _ :: _ :: _ =>
    rw [gens] at length
    simp at length

end Instruction

namespace Expansion

variable {t : Target} {place : Placement} {live : NameSet} {inst : Instruction} {op : Opcode}
  {n x : Name} {r : Register}

structure OwnScratch (t : Target) (place : Placement) (n : Name) (r : Register) : Prop where
  scratch : r = t.scratchValue ∨ r = t.scratchAddress
  kept : n ∉ place.spills.names
  name : ∀ x, x ∉ place.spills.names → (renamed t place [] x = r.text ↔ x = n)
  given : ∀ x s, place.registers.get? x = some s → s ≠ r

theorem decorateKills (label comment : Option String) (lines : List Statement) :
    (∃ line ∈ decorate label comment lines, x ∈ line.kills) ↔ ∃ line ∈ lines, x ∈ line.kills := by
  cases lines with
  | nil =>
    refine iff_of_false ?_ (by simp)
    rintro ⟨line, mem, killed⟩
    rw [decorate] at mem
    split at mem
    · contradiction
    · rw [List.mem_singleton.mp mem] at killed
      exact absurd killed List.not_mem_nil
  | cons first rest => simp only [decorate, List.exists_mem_cons_iff]; rfl

theorem loadsWrite (scratch : r = t.scratchValue ∨ r = t.scratchAddress) :
    (∃ line ∈ loads t place inst, r.text ∈ line.kills) ↔
      ∃ x ∈ place.spills.names, x ∈ inst.gens := by
  rw [loadsSplit]
  constructor
  · rintro ⟨line, mem, _⟩
    obtain ⟨entry, inside, _⟩ := List.mem_flatMap.mp mem
    obtain ⟨read, spilled⟩ := spilledGensIff.mp (List.of_mem_zip inside).1
    exact ⟨_, spilled, read⟩
  · rintro ⟨x, spilled, read⟩
    cases gens : spilledGens place inst with
    | nil => exact absurd (gens ▸ spilledGensIff.mpr ⟨read, spilled⟩) List.not_mem_nil
    | cons u rest =>
      have front {line : Statement} (mem : line ∈ load t t.scratchValue (slot place u)) :
          line ∈ ((u :: rest).zip [t.scratchValue, t.scratchAddress]).flatMap
            fun entry => load t entry.2 (slot place entry.1) :=
        List.mem_flatMap.mpr ⟨(u, t.scratchValue), List.mem_cons_self, mem⟩
      rcases scratch with rfl | rfl
      · exact ⟨_, front (List.mem_cons_of_mem _ List.mem_cons_self), List.mem_singleton.mpr rfl⟩
      · exact ⟨_, front List.mem_cons_self, List.mem_singleton.mpr rfl⟩

theorem storesWrite : (∃ line ∈ stores t place inst, x ∈ line.kills) ↔
    x = t.scratchAddress.text ∧ ∃ y ∈ place.spills.names, y ∈ inst.kills := by
  unfold stores
  cases killed : spilledKill? place inst with
  | none =>
    refine iff_of_false (by simp) ?_
    rintro ⟨_, y, spilled, written⟩
    exact List.find?_eq_none.mp killed y written (decide_eq_true spilled)
  | some y =>
    obtain ⟨written, spilled⟩ := spilledKillIn killed
    obtain ⟨offset, found⟩ := Spills.offsetSome.mpr spilled
    rw [Option.bind_some, found]
    constructor
    · rintro ⟨line, mem, inside⟩
      rcases List.mem_pair.mp mem with rfl | rfl
      · exact ⟨List.mem_singleton.mp inside, y, spilled, written⟩
      · exact absurd inside List.not_mem_nil
    · rintro ⟨rfl, _⟩
      exact ⟨_, List.mem_cons_self, List.mem_singleton.mpr rfl⟩

section Own

variable (own_ : OwnScratch t place n r)
include own_

theorem ownWritesScratch (coded : inst.opcode = some op) (plain : op ≠ .call)
    (unkilled : n ∉ inst.kills) : r.text ∈ (own t place op inst).kills ↔
      r = t.scratchValue ∧ ∃ x ∈ place.spills.names, x ∈ inst.kills := by
  rw [own, if_neg plain, Statement.kills, coreRegistersIn coded, ← Instruction.kills, List.mem_map]
  have stored {x : Name} (written : x ∈ inst.kills) (spilled : x ∈ place.spills.names) :
      renamed t place (scratch t place inst) x = t.scratchValue.text :=
    renamedKill (spilledKillOf written spilled)
  constructor
  · rintro ⟨x, written, same⟩
    by_cases spilled : x ∈ place.spills.names
    · rw [stored written spilled] at same
      exact ⟨(Register.textInjective same).symm, x, spilled, written⟩
    · rw [renamedKept spilled] at same
      exact absurd ((own_.name x spilled).mp same ▸ written) unkilled
  · rintro ⟨rfl, x, spilled, written⟩
    exact ⟨x, written, stored written spilled⟩

theorem callStill (pointer : t.stackPointer ≠ r) (called : inst.opcode = some .call) :
    ∀ line ∈ body t place live inst, r.text ∉ line.kills := by
  intro line mem
  rw [bodyParts called, leadCall called, trailCall called] at mem
  have moves : r.text ∉ (moveStack t .sub).kills ∧ r.text ∉ (moveStack t .add).kills :=
    and_self_iff.mpr fun killed =>
      pointer (Register.textInjective (List.mem_singleton.mp killed)).symm
  rcases List.mem_append.mp mem with front | mem
  · obtain ⟨s, _, here⟩ := List.mem_flatMap.mp front
    rcases List.mem_pair.mp here with rfl | rfl
    · exact moves.1
    · exact List.not_mem_nil
  · rcases List.mem_cons.mp mem with rfl | back
    · exact ownCall called ▸ List.not_mem_nil
    · obtain ⟨s, inside, here⟩ := List.mem_flatMap.mp back
      obtain ⟨x, _, found, _⟩ := savedSource (List.mem_reverse.mp inside)
      rcases List.mem_pair.mp here with rfl | rfl
      · exact fun killed =>
          own_.given x s found (Register.textInjective (List.mem_singleton.mp killed)).symm
      · exact moves.2

theorem bodyWrites (suited : Suited t place) (unkilled : n ∉ inst.kills) :
    (∃ line ∈ body t place live inst, r.text ∈ line.kills) ↔
      ∃ x ∈ place.spills.names, x ∈ inst.gens ∨ x ∈ inst.kills := by
  have silent (gens : inst.gens = []) (kills : inst.kills = []) :
      ¬ ∃ x ∈ place.spills.names, x ∈ inst.gens ∨ x ∈ inst.kills := by
    simp [gens, kills]
  cases coded : inst.opcode with
  | none =>
    rw [body, coded]
    exact iff_of_false (by simp)
      (silent (inst.bareRegistersIn coded .read) (inst.bareRegistersIn coded .written))
  | some op =>
    by_cases called : op = .call
    · subst called
      have pointer : t.stackPointer ≠ r :=
        own_.scratch.elim (· ▸ suited.stackValue) (· ▸ suited.stackAddress)
      refine iff_of_false ?_ (silent (Instruction.callGens coded) (Program.callKills coded))
      rintro ⟨line, mem, killed⟩
      exact callStill own_ pointer coded line mem killed
    · have plain : inst.opcode ≠ some .call := fun same =>
        called (Option.some.inj (coded.symm.trans same))
      rw [bodyParts coded, leadPlain plain, trail, if_neg plain]
      simp only [List.mem_append, List.mem_cons, or_and_right, exists_or, exists_eq_left]
      rw [loadsWrite own_.scratch, ownWritesScratch own_ coded called unkilled, storesWrite]
      simp only [and_or_left, exists_or]
      -- The value register is written by the line itself, the address register by the store.
      refine or_congr_right ⟨Or.rec And.right And.right, fun written => ?_⟩
      rcases own_.scratch with value | address
      · exact .inl ⟨value, written⟩
      · exact .inr ⟨congrArg Register.text address, written⟩

theorem spilledGensOnly (read : n ∈ inst.gens) (spilled : x ∈ place.spills.names)
    (used : x ∈ inst.gens) : spilledGens place inst = [x] := by
  have apart : n ≠ x := fun same => own_.kept (same ▸ spilled)
  have sole {y : Name} (mem : y ∈ spilledGens place inst) : y = x := by
    obtain ⟨inside, here⟩ := spilledGensIff.mp mem
    have either : y = n ∨ y = x := by
      rcases Instruction.gensPair read used apart with gens | gens
      · exact List.mem_pair.mp (gens ▸ inside)
      · exact (List.mem_pair.mp (gens ▸ inside)).symm
    exact either.resolve_left fun same => own_.kept (same ▸ here)
  rcases spilledGensCases place inst with none | ⟨u, one⟩ | ⟨u, v, differ, two⟩
  · exact absurd (none ▸ spilledGensIff.mpr ⟨used, spilled⟩) List.not_mem_nil
  · have first : u = x := sole (one ▸ List.mem_singleton.mpr rfl)
    rw [one, first]
  · have first : u = x := sole (two ▸ List.mem_cons_self)
    have second : v = x := sole (two ▸ List.mem_cons_of_mem _ List.mem_cons_self)
    exact absurd (first.trans second.symm) differ

theorem ownReads (coded : inst.opcode = some op) (read : n ∈ inst.gens)
    (spilled : x ∈ place.spills.names) (used : x ∈ inst.gens) :
    inst.gens = [n, x] ∧ (own t place op inst).gens = [r.text, t.scratchValue.text] ∨
      inst.gens = [x, n] ∧ (own t place op inst).gens = [t.scratchValue.text, r.text] := by
  have plain : op ≠ .call := by
    rintro rfl
    exact absurd (Instruction.callGens coded ▸ read) List.not_mem_nil
  have apart : n ≠ x := fun same => own_.kept (same ▸ spilled)
  obtain ⟨more, split, _⟩ := scratchSplit t place inst
  rw [spilledGensOnly own_ read spilled used] at split
  have first : renamed t place (scratch t place inst) x = t.scratchValue.text := renamedFirst split
  have second : renamed t place (scratch t place inst) n = r.text :=
    (renamedKept own_.kept).trans ((own_.name n own_.kept).mpr rfl)
  rw [own, if_neg plain, Statement.gens, coreRegistersIn coded, ← Instruction.gens]
  refine (Instruction.gensPair read used apart).imp (fun gens => ⟨gens, ?_⟩)
    fun gens => ⟨gens, ?_⟩
  · rw [gens, List.map_cons, List.map_singleton, first, second]
  · rw [gens, List.map_cons, List.map_singleton, first, second]

end Own

end Expansion

namespace Allocation.Settled

open Expansion (renamed)

variable {n k : Nat} {p : Program} {flow : ControlFlow} {colorer : Colorer} {last : Attempt}
  {registers : NameMap Register}

theorem ownScratch (settled : Settled (Target.limited n k) p flow colorer last registers)
    {name : Name} {r : Register}
    (which : (name, r) = ("R30", ⟨30⟩) ∨ (name, r) = ("R31", ⟨31⟩)) :
    Expansion.OwnScratch (Target.limited n k) ⟨registers, last.spills⟩ name r := by
  have listed : (name, r) ∈ (Target.limited n k).reserved :=
    which.elim (· ▸ .tail _ (.head _)) (· ▸ .tail _ (.tail _ (.head _)))
  have spelled : r.text = name := by
    rcases which with same | same <;> cases same <;> decide
  have reserved : (Target.limited n k).isReserved name = true := by
    rcases which with same | same <;> cases same <;> rfl
  have given (x : Name) (s : Register) (found : registers.get? x = some s) : s ≠ r := fun same =>
    (settled.registerSource found).2 _ listed same.symm
  refine ⟨?_, fun spilled => ?_, fun x kept => ?_, given⟩
  · rcases which with same | same <;> cases same
    · exact .inl rfl
    · exact .inr rfl
  · exact absurd (reserved.symm.trans (settled.spills.named name spilled).2) (by decide)
  · cases bound : (Target.limited n k).isReserved x with
    | true =>
      rcases which with same | same <;> cases same <;>
        rcases Target.limitedReserved bound with rfl | rfl | rfl
      · exact iff_of_false (by decide : (Register.mk 29).text ≠ (Register.mk 30).text) (by decide)
      · exact iff_of_true rfl rfl
      · exact iff_of_false (by decide : (Register.mk 31).text ≠ (Register.mk 30).text) (by decide)
      · exact iff_of_false (by decide : (Register.mk 29).text ≠ (Register.mk 31).text) (by decide)
      · exact iff_of_false (by decide : (Register.mk 30).text ≠ (Register.mk 31).text) (by decide)
      · exact iff_of_true rfl rfl
    | false =>
      have other : x ≠ name := fun same => by
        rw [same, reserved] at bound
        contradiction
      cases found : registers.get? x with
      | some s =>
        have place : renamed (Target.limited n k) ⟨registers, last.spills⟩ [] x = s.text := by
          simp [renamed, Expansion.register?, Target.unbound bound, found]
        rw [place]
        exact iff_of_false (fun same => given x s found (Register.textInjective same)) other
      | none =>
        have place : renamed (Target.limited n k) ⟨registers, last.spills⟩ [] x = x := by
          simp [renamed, Expansion.register?, Target.unbound bound, found, Spills.contains, kept]
        rw [place, spelled]

end Allocation.Settled

namespace Program

variable {p : Program} {colorer : Colorer}

/-- What a program holds in a scratch register under its own name is left alone by an instruction that
does not write it just when that neither reads nor writes a spilled name. An instruction that reads
it together with a spilled name has two registers for them only if it is the address register. -/
theorem scratchNamesWritten {out : String} {registers attempts : Nat} {c : Compilation}
    (compiled : (p.compile (Target.limited registers attempts) colorer).value = .ok c)
    (emitted : c.code = some out) :
    let t := Target.limited registers attempts
    ∃ place, c.outcome.placement? = some place ∧
      out = Emitted.unlines (p.expand t c.liveness place) ∧
      (p.expand t c.liveness place).filterMap Emitted.statement? =
        (p.blocks t c.liveness place).flatten ∧
      ∀ i inst block, p.instructions[i]? = some inst →
        (p.blocks t c.liveness place)[i]? = some block → ∀ n ∈ ["R30", "R31"],
          (n ∉ inst.kills → ((∃ line ∈ block, n ∈ line.kills) ↔
            ∃ x ∈ place.spills.names, x ∈ inst.gens ∨ x ∈ inst.kills)) ∧
          ∀ x ∈ place.spills.names, n ∈ inst.gens → x ∈ inst.gens →
            ∃ op, inst.opcode = some op ∧
              block.map Statement.unmarked =
                Expansion.lead t place (c.liveness.liveIn i) inst ++ Expansion.own t place op inst ::
                  Expansion.trail t place (c.liveness.liveIn i) inst ∧
              (inst.gens = [n, x] ∧ (Expansion.own t place op inst).gens = [n, "R30"] ∨
                inst.gens = [x, n] ∧ (Expansion.own t place op inst).gens = ["R30", n]) ∧
              ((Expansion.own t place op inst).gens.Nodup ↔ n = "R31") := by
  intro t
  obtain ⟨last, given, flows, ok, liveness, outcome, same⟩ := compileSource compiled emitted
  have settled := Allocation.allocateSource ok
  refine ⟨⟨given, last.spills⟩, by rw [outcome]; rfl, liveness ▸ same,
    expandStatements p t c.liveness _, ?_⟩
  intro i inst block present found n which
  cases Option.some.inj ((blockAt present).symm.trans found)
  obtain ⟨r, own, text, value⟩ : ∃ r, Expansion.OwnScratch t ⟨given, last.spills⟩ n r ∧
      r.text = n ∧ (([n, "R30"].Nodup ↔ n = "R31") ∧ (["R30", n].Nodup ↔ n = "R31")) := by
    rcases List.mem_pair.mp which with rfl | rfl
    · exact ⟨⟨30⟩, settled.ownScratch (.inl rfl), by decide, by decide⟩
    · exact ⟨⟨31⟩, settled.ownScratch (.inr rfl), by decide, by decide⟩
  refine ⟨fun unkilled => ?_, fun x spilled read used => ?_⟩
  · have writes := @Expansion.bodyWrites t ⟨given, last.spills⟩ (c.liveness.liveIn i) inst n r own
      settled.suited unkilled
    rw [text] at writes
    rw [Expansion.statementsBody, Expansion.decorateKills]
    exact writes
  · obtain ⟨op, coded, _⟩ := Instruction.registersInShape read
    have reads := Expansion.ownReads own coded read spilled used
    rw [text, show t.scratchValue.text = "R30" from (by decide : (Register.mk 30).text = "R30")]
      at reads
    refine ⟨op, coded, ?_, reads, ?_⟩
    · rw [Expansion.statementsUnmarked coded, Expansion.bodyParts coded]
    · rcases reads with ⟨_, gens⟩ | ⟨_, gens⟩
      · rw [gens]
        exact value.1
      · rw [gens]
        exact value.2

end Program

namespace Crowd

variable {p : Program} {names : List Name} {flow : ControlFlow} {x : Name}

def addScratch (x : Name) : Statement :=
  .plain (.alu .add) [.register x, .register x, .register "R30"]

def sums (names : List Name) : List Statement :=
  names.map addScratch ++ [.plain .output [.register "R30"]]

theorem sumsReadable (named : ∀ x ∈ names, Token.NameText x.toList) :
    ∀ e ∈ (sums names).map Emitted.statement, e.Readable := by
  have scratch : Token.NameText "R30".toList := Token.nameText (by decide)
  intro e mem
  obtain ⟨s, inside, rfl⟩ := List.mem_map.mp mem
  rcases List.mem_append.mp inside with own | last
  · obtain ⟨x, member, rfl⟩ := List.mem_map.mp own
    exact Statement.plainReadable (.cons (named x member) (.cons (named x member) (.cons scratch .nil)))
  · exact List.mem_singleton.mp last ▸ Statement.plainReadable (.cons scratch .nil)

theorem registersAddScratch {inst : Instruction} (adds : inst.statement = addScratch x) :
    inst.opcode = some (.alu .add) ∧ inst.kills = [x] ∧ inst.gens = [x, "R30"] := by
  refine ⟨congrArg Statement.opcode adds, ?_, ?_⟩
  · exact (inst.registersInStatement .written).trans (congrArg Statement.kills adds)
  · exact (inst.registersInStatement .read).trans (congrArg Statement.gens adds)

section Sums

variable (crowd : p.code = sums names)
include crowd

theorem sumsLinked : Code.Linked p.code := by
  rw [crowd, sums]
  refine ⟨?_, fun s mem text named => ?_⟩
  · have unlabelled : names.filterMap (Statement.label ∘ addScratch) = [] :=
      List.filterMap_eq_nil_iff.mpr fun _ _ => rfl
    rw [List.filterMap_append, List.filterMap_map, unlabelled]
    exact List.nodup_nil
  · rcases List.mem_append.mp mem with own | last
    · obtain ⟨x, _, rfl⟩ := List.mem_map.mp own
      contradiction
    · cases List.mem_singleton.mp last
      contradiction

theorem sumsAt {i : Nat} (present : names[i]? = some x) :
    ∃ inst, p.instructions[i]? = some inst ∧ inst.statement = addScratch x := by
  have line : p.code[i]? = some (addScratch x) := by
    rw [crowd, sums, List.getElem?_append_left (by
      rw [List.length_map]
      exact (List.getElem?_eq_some_iff.mp present).1), List.getElem?_map, present]
    rfl
  rw [Program.codeAt] at line
  exact Option.map_eq_some_iff.mp line

theorem sumsSize : p.size = names.length + 1 := by
  rw [← Program.codeLength, crowd, sums, List.length_append, List.length_map]
  rfl

theorem sumsNext (ok : p.controlFlow = .ok flow) {i : Nat} (inside : i < names.length) :
    i + 1 ∈ flow.succsAt i := by
  obtain ⟨inst, present, adds⟩ := sumsAt crowd (List.getElem?_eq_getElem inside)
  rw [Program.succsAtCode ok present, adds]
  show i + 1 ∈ Code.next p.code i
  rw [Code.next, Program.codeLength, sumsSize crowd, if_pos (by omega)]
  exact List.mem_singleton.mpr rfl

theorem sumsEach (ok : p.controlFlow = .ok flow) : Each p flow names 0 where
  user i x present := by
    obtain ⟨inst, here, adds⟩ := sumsAt crowd present
    obtain ⟨_, kills, gens⟩ := registersAddScratch adds
    rw [Nat.zero_add]
    exact ⟨inst, here, kills, gens ▸ List.mem_cons_self⟩
  next i inside := by
    rw [Nat.zero_add]
    exact sumsNext crowd ok (Nat.lt_of_succ_lt inside)

theorem sumsNamesLe (t : Target) (s : Spills) : Allocation.names t p s ≤ names.length + 1 := by
  have inside : (Interference.vertices t p s.nameSet).toList ⊆ names ++ ["R30"] := by
    intro x mem
    obtain ⟨inst, member, named⟩ := Program.memNames.mp (NameSet.memFilter.mp mem).1
    have line : inst.statement ∈ sums names := crowd ▸ List.mem_map_of_mem member
    rw [inst.registersStatement] at named
    rcases List.mem_append.mp line with own | last
    · obtain ⟨y, here, adds⟩ := List.mem_map.mp own
      rw [← adds] at named
      have among : x ∈ [y, y, "R30"] := named
      rcases List.mem_cons.mp among with rfl | among
      · exact List.mem_append_left _ here
      · rcases List.mem_pair.mp among with rfl | rfl
        · exact List.mem_append_left _ here
        · exact List.mem_append_right _ (List.mem_singleton.mpr rfl)
    · rw [List.mem_singleton.mp last] at named
      exact List.mem_append_right _ named
  refine (List.subperm_of_subset (NameSet.nodup _) inside).length_le.trans ?_
  rw [List.length_append]
  rfl

theorem sumsLive (ok : p.controlFlow = .ok flow) {i : Nat} (inside : i < names.length) :
    "R30" ∈ (p.liveness flow).liveOut i := by
  obtain ⟨inst, present, _⟩ := sumsAt crowd (List.getElem?_eq_getElem inside)
  have bound : i + 1 < p.code.length := by rw [Program.codeLength, sumsSize crowd]; omega
  have reads : "R30" ∈ (p.code[i + 1]).gens := by
    have mem : p.code[i + 1] ∈ sums names := crowd ▸ List.getElem_mem bound
    rcases List.mem_append.mp mem with own | last
    · obtain ⟨x, _, adds⟩ := List.mem_map.mp own
      rw [← adds]
      exact List.mem_cons_of_mem _ (List.mem_singleton.mpr rfl)
    · rw [List.mem_singleton.mp last]
      exact List.mem_singleton.mpr rfl
  have there := List.getElem?_eq_getElem bound
  rw [Program.codeAt] at there
  obtain ⟨next, after, same⟩ := Option.map_eq_some_iff.mp there
  refine (Program.liveOutIff present).mpr ⟨i + 1, sumsNext crowd ok inside, ?_⟩
  refine (Program.liveInIff after).mpr (.inr ?_)
  rw [Instruction.gens, next.registersInStatement, same]
  exact reads

end Sums

def thirtySums : String := Emitted.unlines ((sums thirty).map .statement)

theorem thirtySumsRun : ∃ p c out last registers i x inst,
    Program.parse thirtySums 0 = .ok p ∧
    (p.compile (Target.limited 32 100) .greedy).value = .ok c ∧ c.code = some out ∧
    c.outcome = .allocated last registers ∧
    Allocation.Settled (Target.limited 32 100) p c.flow .greedy last registers ∧
    p.instructions[i]? = some inst ∧ inst.statement = addScratch x ∧ x ∈ last.spills.names ∧
    "R30" ∈ c.liveness.liveOut i := by
  obtain ⟨p, parsed, same⟩ := Program.parseUnlines (sumsReadable thirtyNamed) 0
  have crowd : p.code = sums thirty := by
    rw [Program.code, Program.statements, same, List.filterMap_map]
    exact List.filterMap_some
  obtain ⟨flow, flows⟩ := Program.linkedIff.mpr (sumsLinked crowd)
  have room : Allocation.names (Target.limited 32 100) p (Spills.none 4) ≤ 29 + 99 :=
    Nat.le_trans (sumsNamesLe crowd _ _) (by decide)
  obtain ⟨last, registers, ok⟩ := Allocation.allocateSucceeds flow .greedy room
  obtain ⟨c, compiled, emitted⟩ := Program.compileAllocated flows ok
  obtain ⟨last, registers, flows, ok, liveness, outcome, _⟩ :=
    Program.compileSource compiled emitted
  have settled := Allocation.allocateSource ok
  obtain ⟨x, mem, spilled⟩ := (sumsEach crowd flows).spills (by decide) settled .greedy
    (by decide) (by decide)
  obtain ⟨i, found⟩ := List.mem_iff_getElem?.mp mem
  obtain ⟨inst, present, adds⟩ := sumsAt crowd found
  have live := sumsLive crowd flows (List.getElem?_eq_some_iff.mp found).1
  exact ⟨p, c, _, last, registers, i, x, inst, parsed, compiled, emitted, outcome, settled, present,
    adds, spilled, liveness ▸ live⟩

theorem thirtySumsOverwrite : ∃ p c out place i x inst,
    Program.parse thirtySums 0 = .ok p ∧
    (p.compile Target.standard .greedy).value = .ok c ∧ c.code = some out ∧
    c.outcome.placement? = some place ∧ p.instructions[i]? = some inst ∧
    "R30" ∈ c.liveness.liveOut i ∧ "R30" ∉ inst.kills ∧
    (∃ line ∈ Expansion.statements Target.standard place (c.liveness.liveIn i) inst,
      "R30" ∈ line.kills) ∧
    inst.opcode = some (.alu .add) ∧ inst.gens = [x, "R30"] ∧ x ∈ place.spills.names ∧ x ≠ "R30" ∧
    (Expansion.own Target.standard place (.alu .add) inst).gens = ["R30", "R30"] := by
  obtain ⟨p, c, out, last, registers, i, x, inst, parsed, compiled, emitted, outcome, settled,
    present, adds, spilled, live⟩ := thirtySumsRun
  obtain ⟨coded, kills, gens⟩ := registersAddScratch adds
  have read : "R30" ∈ inst.gens := gens ▸ List.mem_cons_of_mem _ (List.mem_singleton.mpr rfl)
  have used : x ∈ inst.gens := gens ▸ List.mem_cons_self
  have own := settled.ownScratch (.inl rfl)
  have apart : x ≠ "R30" := fun same => own.kept (same ▸ spilled)
  have unkilled : "R30" ∉ inst.kills := fun killed =>
    apart (List.mem_singleton.mp (kills ▸ killed)).symm
  refine ⟨p, c, out, ⟨registers, last.spills⟩, i, x, inst, parsed, compiled, emitted,
    by rw [outcome]; rfl, present, live, unkilled, ?_, coded, gens, spilled, apart, ?_⟩
  · rw [Expansion.statementsBody, Expansion.decorateKills]
    exact (Expansion.bodyWrites own settled.suited unkilled).mpr ⟨x, spilled, .inl used⟩
  · rcases Expansion.ownReads own coded read spilled used with ⟨_, reads⟩ | ⟨_, reads⟩ <;> exact reads

theorem thirtySumsWritten : ∃ p c out place, ∃ i : Nat, ∃ x inst, ∃ block : List Statement,
    Program.parse thirtySums 0 = .ok p ∧
    (p.compile (Target.limited 32 100) .greedy).value = .ok c ∧ c.code = some out ∧
    c.outcome.placement? = some place ∧ p.instructions[i]? = some inst ∧
    (p.blocks (Target.limited 32 100) c.liveness place)[i]? = some block ∧
    x ∈ place.spills.names ∧ inst.gens = [x, "R30"] ∧
    (∀ n ∈ ["R30", "R31"], ∃ line ∈ block, n ∈ line.kills) ∧
    ¬ (Expansion.own (Target.limited 32 100) place (.alu .add) inst).gens.Nodup := by
  obtain ⟨p, c, out, last, registers, i, x, inst, parsed, compiled, emitted, outcome, settled,
    present, adds, spilled, _⟩ := thirtySumsRun
  obtain ⟨coded, kills, gens⟩ := registersAddScratch adds
  have read : "R30" ∈ inst.gens := gens ▸ List.mem_cons_of_mem _ (List.mem_singleton.mpr rfl)
  have used : x ∈ inst.gens := gens ▸ List.mem_cons_self
  obtain ⟨place, placed, _, _, all⟩ := Program.scratchNamesWritten compiled emitted
  rw [outcome] at placed
  cases Option.some.inj placed
  have written := all i inst _ present (Program.blockAt present)
  refine ⟨p, c, out, _, i, x, inst, _, parsed, compiled, emitted, by rw [outcome]; rfl, present,
    Program.blockAt present, spilled, gens, fun n which => ?_, fun distinct => ?_⟩
  · refine ((written n which).1 fun killed => ?_).mpr ⟨x, spilled, .inl used⟩
    have same : n = x := List.mem_singleton.mp (kills ▸ killed)
    rcases List.mem_pair.mp which with rfl | rfl
    · exact (settled.ownScratch (.inl rfl)).kept (same ▸ spilled)
    · exact (settled.ownScratch (.inr rfl)).kept (same ▸ spilled)
  · obtain ⟨op, here, _, _, apart⟩ := (written "R30" List.mem_cons_self).2 x spilled read used
    cases Option.some.inj (coded.symm.trans here)
    exact absurd (apart.mp distinct) (by decide)

end Crowd

end Regalloc
