import Mathlib.Data.List.Forall2
import Regalloc.Proofs.Code

/-! Code in blocks, one for each statement of a source. Where a block is made of inserted statements
around the statement itself, and the label is on its first line, the flow between the blocks is the
flow of the source. -/
namespace Regalloc

def Opcode.leaves : Opcode → Bool
  | jump | branch _ | ret | stop => true
  | _ => false

def Value.fixed? : Value → Option Value
  | register _ => none
  | value => some value

theorem Value.labelFixed (value : Value) : value.label? = value.fixed?.bind Value.label? := by
  cases value <;> rfl

namespace Statement

def fixed (s : Statement) : List (Option Value) := s.operands.map Value.fixed?

theorem destinationFixed (s : Statement) :
    s.destination? = s.fixed.findSome? fun value => value.bind Value.label? := by
  rw [fixed, List.findSome?_map]
  exact congrArg (List.findSome? · s.operands) (funext Value.labelFixed)

structure Inserted (s : Statement) : Prop where
  operation : s.opcode = some (.aluImm .add) ∨ s.opcode = some (.aluImm .sub) ∨
    s.opcode = some .load ∨ s.opcode = some .store
  straight : s.destination? = none

theorem succsInserted {s : Statement} (inserted : s.Inserted) (code : List Statement) (i : Nat) :
    Code.succsOf code i s = Code.next code i := by
  unfold Code.succsOf
  rcases inserted.operation with op | op | op | op <;> rw [op]

structure Stands (s : Statement) (block : List Statement) : Prop where
  around : ∃ before own after, block = before ++ own :: after ∧
    own.opcode = s.opcode ∧ own.fixed = s.fixed ∧
    (∀ line ∈ before ++ after, line.Inserted) ∧
    (after = [] ∨ ∀ op ∈ s.opcode, op.leaves = false)
  marks : ∃ first rest, block = first :: rest ∧ first.label = s.label ∧ first.comment = s.comment ∧
    ∀ line ∈ rest, line.label = none ∧ line.comment = none
  bare : s.opcode = none → block = [s]

theorem Stands.positive {s : Statement} {block : List Statement} (stands : Stands s block) :
    0 < block.length := by
  obtain ⟨first, rest, split, _⟩ := stands.marks
  rw [split]
  exact Nat.succ_pos _

end Statement

namespace Blocks

open Statement (Stands)

variable {blocks : List (List Statement)} {block : List Statement} {src : List Statement}
  {s : Statement} {i m : Nat}

def start (blocks : List (List Statement)) (i : Nat) : Nat := (blocks.take i).flatten.length

def blockOf : List (List Statement) → Nat → Nat
  | [], _ => 0
  | block :: blocks, k => if k < block.length then 0 else blockOf blocks (k - block.length) + 1

theorem startZero (blocks : List (List Statement)) : start blocks 0 = 0 := rfl

theorem startCons (block : List Statement) (blocks : List (List Statement)) (i : Nat) :
    start (block :: blocks) (i + 1) = block.length + start blocks i := by
  rw [start, List.take_succ_cons, List.flatten_cons, List.length_append, start]

theorem startNext (present : blocks[i]? = some block) :
    start blocks (i + 1) = start blocks i + block.length := by
  rw [start, List.take_add_one, present, List.flatten_append, List.length_append, start]
  simp

theorem startEnd (blocks : List (List Statement)) :
    start blocks blocks.length = blocks.flatten.length := by
  rw [start, List.take_length]

theorem lineAt (present : blocks[i]? = some block) (within : m < block.length) :
    blocks.flatten[start blocks i + m]? = block[m]? := by
  induction blocks generalizing i with
  | nil => contradiction
  | cons first blocks ih =>
    cases i with
    | zero =>
      cases Option.some.inj present
      rw [startZero, Nat.zero_add, List.flatten_cons, List.getElem?_append_left within]
    | succ i =>
      rw [startCons, Nat.add_assoc, List.flatten_cons,
        List.getElem?_append_right (Nat.le_add_right _ _), Nat.add_sub_cancel_left]
      exact ih present

theorem blockOfAt (present : blocks[i]? = some block) (within : m < block.length) :
    blockOf blocks (start blocks i + m) = i := by
  induction blocks generalizing i with
  | nil => contradiction
  | cons first blocks ih =>
    cases i with
    | zero =>
      cases Option.some.inj present
      rw [startZero, Nat.zero_add, blockOf, if_pos within]
    | succ i =>
      rw [startCons, Nat.add_assoc, blockOf, if_neg (by omega), Nat.add_sub_cancel_left]
      exact congrArg Nat.succ (ih present)

theorem endLe (present : blocks[i]? = some block) :
    start blocks i + block.length ≤ blocks.flatten.length := by
  have whole : blocks.flatten = (blocks.take (i + 1)).flatten ++ (blocks.drop (i + 1)).flatten := by
    rw [← List.flatten_append, List.take_append_drop]
  rw [← startNext present, start, whole, List.length_append]
  exact Nat.le_add_right _ _

variable (stands : List.Forall₂ Stands src blocks)
include stands

theorem standsAt (present : blocks[i]? = some block) (source : src[i]? = some s) :
    Stands s block := by
  induction stands generalizing i with
  | nil => contradiction
  | cons head _ ih =>
    cases i with
    | zero =>
      cases Option.some.inj present
      cases Option.some.inj source
      exact head
    | succ i => exact ih present source

theorem positionFlatten (text : String) :
    Code.position? blocks.flatten text = (Code.position? src text).map (start blocks) := by
  induction stands with
  | nil => rfl
  | @cons s block src blocks head _ ih =>
    obtain ⟨first, rest, split, label, _, plain⟩ := head.marks
    have unlabelled : rest.findIdx? (fun line => line.label == some text) = none := by
      refine List.findIdx?_eq_none_iff.mpr fun line mem => ?_
      rw [(plain line mem).1]
      rfl
    unfold Code.position? at ih ⊢
    rw [List.flatten_cons, List.findIdx?_append, List.findIdx?_cons, split, List.findIdx?_cons,
      label, ih]
    by_cases here : s.label = some text
    · simp [here, start]
    · simp [here, unlabelled, startCons, Function.comp_def, Nat.add_comm]

theorem startPosition {text : String} {j : Nat} (found : Code.position? src text = some j) :
    ∃ block, blocks[j]? = some block ∧ blockOf blocks (start blocks j) = j := by
  have bound : j < blocks.length := stands.length_eq ▸ Code.positionLt found
  have present := List.getElem?_eq_getElem bound
  have source := List.getElem?_eq_getElem (stands.length_eq ▸ bound)
  have positive := (standsAt stands present source).positive
  exact ⟨blocks[j], present, blockOfAt present positive⟩

theorem distinctFlatten (distinct : (src.filterMap Statement.label).Nodup) :
    (blocks.flatten.filterMap Statement.label).Nodup := by
  have same : blocks.flatten.filterMap Statement.label = src.filterMap Statement.label := by
    clear distinct
    induction stands with
    | nil => rfl
    | @cons s block src blocks head _ ih =>
      obtain ⟨first, rest, split, label, _, plain⟩ := head.marks
      have unlabelled : rest.filterMap Statement.label = [] :=
        List.filterMap_eq_nil_iff.mpr fun line mem => (plain line mem).1
      rw [List.flatten_cons, List.filterMap_append, split, ih]
      simp [List.filterMap_cons, label, unlabelled]
      cases s.label <;> rfl
  rwa [same]

theorem linkedFlatten (linked : Code.Linked src) : Code.Linked blocks.flatten := by
  refine ⟨distinctFlatten stands linked.distinct, fun line mem text named => ?_⟩
  obtain ⟨block, inside, present⟩ := List.mem_flatten.mp mem
  obtain ⟨i, found⟩ := List.mem_iff_getElem?.mp inside
  have bound : i < src.length := stands.length_eq ▸ (List.getElem?_eq_some_iff.mp found).1
  have source := List.getElem?_eq_getElem bound
  obtain ⟨before, own, after, split, _, fixed, inserted, _⟩ :=
    (standsAt stands found source).around
  have straight : ∀ other ∈ before ++ after, other.destination? ≠ some text := fun other member => by
    rw [(inserted other member).straight]
    exact fun same => nomatch same
  rw [split, List.mem_append, List.mem_cons] at present
  rcases present with front | rfl | back
  · exact absurd named (straight line (List.mem_append_left _ front))
  · rw [Statement.destinationFixed, fixed, ← Statement.destinationFixed] at named
    rw [positionFlatten stands, Option.isSome_map]
    exact linked.resolved _ (List.getElem_mem bound) text named
  · exact absurd named (straight line (List.mem_append_right _ back))

def within (blocks : List (List Statement)) (edge : Nat × Nat) : Bool :=
  edge.2 == edge.1 + 1 && blockOf blocks edge.1 == blockOf blocks edge.2

/-- The edges between blocks that edges of the code make. -/
def between (blocks : List (List Statement)) (edges : List (Nat × Nat)) : List (Nat × Nat) :=
  (edges.filter fun edge => !within blocks edge).map fun edge =>
    (blockOf blocks edge.1, blockOf blocks edge.2)

theorem betweenNext (present : blocks[i]? = some block) (inside : m < block.length) :
    between blocks ((Code.next blocks.flatten (start blocks i + m)).map fun j =>
        (start blocks i + m, j)) =
      if m + 1 = block.length then (Code.next src i).map fun j => (i, j) else [] := by
  have whole := endLe present
  have here := blockOfAt present inside
  have bound := (List.getElem?_eq_some_iff.mp present).1
  unfold Code.next
  rw [stands.length_eq]
  by_cases last : m + 1 = block.length
  · have later : start blocks i + m + 1 = start blocks (i + 1) := by rw [startNext present]; omega
    rw [if_pos last, later]
    by_cases more : i + 1 < blocks.length
    · have following := List.getElem?_eq_getElem more
      have source := List.getElem?_eq_getElem (stands.length_eq ▸ more)
      have positive := (standsAt stands following source).positive
      have there := blockOfAt following positive
      have reach := endLe following
      rw [Nat.add_zero] at there
      rw [if_pos more, if_pos (by omega)]
      simp [between, within, here, there]
    · have ends : i + 1 = blocks.length := by omega
      rw [if_neg more, ends, startEnd, if_neg (Nat.lt_irrefl _)]
      rfl
  · have inner : m + 1 < block.length := by omega
    have next := blockOfAt present inner
    rw [← Nat.add_assoc] at next
    rw [if_neg last, if_pos (by omega)]
    simp [between, within, here, next]

theorem betweenTarget (present : blocks[i]? = some block) (inside : m < block.length)
    {own : Statement} (fixed : own.fixed = s.fixed) :
    between blocks ((Code.target blocks.flatten own).map fun j => (start blocks i + m, j)) =
      (Code.target src s).map fun j => (i, j) := by
  have here := blockOfAt present inside
  unfold Code.target
  rw [Statement.destinationFixed, fixed, ← Statement.destinationFixed]
  cases s.destination? with
  | none => rfl
  | some text =>
    rw [Option.bind_some, Option.bind_some, positionFlatten stands]
    cases found : Code.position? src text with
    | none => rfl
    | some j =>
      obtain ⟨_, _, there⟩ := startPosition stands found
      have crosses : within blocks (start blocks i + m, start blocks j) = false := by
        refine Bool.eq_false_iff.mpr fun step => ?_
        simp only [within, Bool.and_eq_true, beq_iff_eq, here, there] at step
        obtain ⟨next, rfl⟩ := step
        omega
      simp [between, crosses, here, there]

omit stands in
theorem betweenAppend (edges others : List (Nat × Nat)) :
    between blocks (edges ++ others) = between blocks edges ++ between blocks others := by
  rw [between, List.filter_append, List.map_append]
  rfl

/-- The edges that leave `lines`, which stand in `code` from position `k` on. -/
def edgesFrom (code : List Statement) (k : Nat) (lines : List Statement) : List (Nat × Nat) :=
  (lines.zipIdx k).flatMap fun (s, i) => (Code.succsOf code i s).map fun j => (i, j)

omit stands in
theorem edgesFromCons (code : List Statement) (k : Nat) (line : Statement) (lines : List Statement) :
    edgesFrom code k (line :: lines) =
      ((Code.succsOf code k line).map fun j => (k, j)) ++ edgesFrom code (k + 1) lines := by
  rw [edgesFrom, List.zipIdx_cons, List.flatMap_cons]
  rfl

omit stands in
theorem edgesFromAppend (code : List Statement) (k : Nat) (lines others : List Statement) :
    edgesFrom code k (lines ++ others) =
      edgesFrom code k lines ++ edgesFrom code (k + lines.length) others := by
  rw [edgesFrom, List.zipIdx_append, List.flatMap_append]
  rfl

theorem betweenInserted (present : blocks[i]? = some block) (lines : List Statement)
    (inserted : ∀ line ∈ lines, line.Inserted) (room : m + lines.length ≤ block.length) :
    between blocks (edgesFrom blocks.flatten (start blocks i + m) lines) =
      if lines ≠ [] ∧ m + lines.length = block.length then (Code.next src i).map fun j => (i, j)
      else [] := by
  induction lines generalizing m with
  | nil => rfl
  | cons line lines ih =>
    rw [List.length_cons] at room
    have tail := @ih (m + 1) (fun line mem => inserted line (List.mem_cons_of_mem _ mem))
      (by omega)
    have here := betweenNext stands present (show m < block.length by omega)
    rw [edgesFromCons, betweenAppend, Statement.succsInserted (inserted line List.mem_cons_self),
      here, Nat.add_assoc, tail, List.length_cons]
    by_cases last : lines = []
    · subst last
      simp
    · have positive := List.length_pos_iff.mpr last
      rw [if_neg (by omega)]
      simp [last, Nat.add_assoc, Nat.add_comm 1]

theorem betweenBlock (present : blocks[i]? = some block) (source : src[i]? = some s) :
    between blocks (edgesFrom blocks.flatten (start blocks i) block) =
      (Code.succsOf src i s).map fun j => (i, j) := by
  obtain ⟨before, own, after, split, opcode, fixed, inserted, ends⟩ :=
    (standsAt stands present source).around
  have length : block.length = before.length + 1 + after.length := by
    rw [split, List.length_append, List.length_cons]
    omega
  have leading := betweenInserted stands present (m := 0) before
    (fun line mem => inserted line (List.mem_append_left _ mem)) (by omega)
  have trailing := betweenInserted stands present (m := before.length + 1) after
    (fun line mem => inserted line (List.mem_append_right _ mem)) (by omega)
  have next := betweenNext stands present (show before.length < block.length by omega)
  have target := betweenTarget stands present (show before.length < block.length by omega) fixed
  rw [if_neg (by omega), Nat.add_zero] at leading
  rw [← Nat.add_assoc] at trailing
  have goesOn : between blocks ((Code.next blocks.flatten (start blocks i + before.length)).map
        fun j => (start blocks i + before.length, j)) ++
      between blocks (edgesFrom blocks.flatten (start blocks i + before.length + 1) after) =
        (Code.next src i).map fun j => (i, j) := by
    rw [next, trailing]
    by_cases last : after = []
    · simp [last, length]
    · have positive := List.length_pos_iff.mpr last
      rw [if_neg (by omega), if_pos ⟨last, by omega⟩, List.nil_append]
  rw [split, edgesFromAppend, betweenAppend, leading, List.nil_append, edgesFromCons,
    betweenAppend]
  have stays : ∀ op, s.opcode = some op → op.leaves = true → after = [] := fun op coded leaves =>
    ends.resolve_right fun all => absurd ((all op coded).symm.trans leaves) Bool.false_ne_true
  unfold Code.succsOf
  rw [opcode]
  split
  · rename_i coded
    rw [stays .ret coded rfl]
    rfl
  · rename_i coded
    rw [stays .stop coded rfl]
    rfl
  · rename_i coded
    rw [target, stays .jump coded rfl]
    exact List.append_nil _
  · rw [List.map_append, betweenAppend, target, List.append_assoc, goesOn, List.map_append]
  · rename_i condition coded
    have last := stays (.branch condition) coded rfl
    subst last
    rw [List.map_append, betweenAppend, target, List.map_append, ← goesOn]
    simp [edgesFrom, between]
  · exact goesOn

theorem betweenEdges : between blocks (Code.edges blocks.flatten) = Code.edges src := by
  have all : ∀ (rest : List Statement) (others : List (List Statement)) (i k : Nat),
      List.Forall₂ Stands rest others →
      (∀ j block s, others[j]? = some block → rest[j]? = some s →
        between blocks (edgesFrom blocks.flatten (k + start others j) block) =
          (Code.succsOf src (i + j) s).map fun l => (i + j, l)) →
      between blocks (edgesFrom blocks.flatten k others.flatten) = edgesFrom src i rest := by
    intro rest others i k paired each
    induction paired generalizing i k with
    | nil => rfl
    | @cons s block rest others _ _ ih =>
      have head := each 0 block s rfl rfl
      have tail := ih (i + 1) (k + block.length) fun j other t present source => by
        have later := each (j + 1) other t present source
        rwa [startCons, ← Nat.add_assoc, Nat.add_comm j 1, ← Nat.add_assoc] at later
      rw [List.flatten_cons, edgesFromAppend, betweenAppend, tail, edgesFromCons]
      exact congrArg (· ++ _) head
  refine all src blocks 0 0 stands fun j block s present source => ?_
  rw [Nat.zero_add, Nat.zero_add]
  exact betweenBlock stands present source

end Blocks

end Regalloc
