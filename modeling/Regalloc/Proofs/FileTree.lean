import Mathlib.Data.List.DropRight
import Regalloc.FileTree

/-! What a write leaves. It changes no file but the one at its path, which holds the content
afterwards, or the front of it where the write was broken off, and a path that could be written to
leads to the same place when it is read. -/
namespace Regalloc

namespace FileTree

variable {tree : FileTree} {base here next place other : List String} {path name : String}
  {content : ByteArray}

theorem contentPutSelf : (tree.put place content).content? place = some content := by
  obtain ⟨files⟩ := tree
  unfold put content?
  dsimp only
  split
  · rename_i present
    induction files with
    | nil => contradiction
    | cons file files ih =>
      by_cases here : file.1 = place
      · simp [here]
      · simpa [here] using ih (by simpa [here] using present)
  · rename_i missing
    have absent : files.find? (fun file => file.1 == place) = none :=
      List.find?_eq_none.mpr fun file mem same => missing (List.any_eq_true.mpr ⟨file, mem, same⟩)
    simp [absent]

theorem contentPutOther (apart : other ≠ place) :
    (tree.put place content).content? other = tree.content? other := by
  obtain ⟨files⟩ := tree
  have swapped : place ≠ other := apart.symm
  unfold put content?
  dsimp only
  split
  · rename_i present
    clear present
    induction files with
    | nil => rfl
    | cons file files ih =>
      by_cases here : file.1 = place
      · simpa [here, swapped] using ih
      · by_cases first : file.1 = other
        · simp [first, apart]
        · simpa [here, first] using ih
  · simp [List.find?_append, swapped]

theorem memPlacesPut : other ∈ (tree.put place content).files.map Prod.fst ↔
    other = place ∨ other ∈ tree.files.map Prod.fst := by
  unfold put
  dsimp only
  split
  · rename_i present
    obtain ⟨file, inside, same⟩ := List.any_eq_true.mp present
    have kept : (tree.files.map fun file => if file.1 == place then (place, content) else file).map
        Prod.fst = tree.files.map Prod.fst := by
      rw [List.map_map]
      refine List.map_congr_left fun file _ => ?_
      by_cases here : file.1 = place <;> simp [here]
    rw [kept]
    refine ⟨.inr, fun either => either.elim (fun here => ?_) id⟩
    exact here ▸ eq_of_beq same ▸ List.mem_map_of_mem inside
  · simp [or_comm]

theorem isDirectoryIff : tree.isDirectory other = true ↔ other = [] ∨
    (∃ place ∈ tree.directories, other <+: place) ∨
      ∃ place ∈ tree.files.map Prod.fst, other <+: place.dropLast := by
  simp only [isDirectory, Bool.or_eq_true, List.isEmpty_iff, List.any_append, List.any_eq_true,
    List.any_map, Function.comp, List.isPrefixOf_iff_prefix, List.mem_map]
  grind

theorem directoryPut (directory : tree.isDirectory other = true) :
    (tree.put place content).isDirectory other = true := by
  rw [isDirectoryIff] at directory ⊢
  refine directory.imp_right (Or.imp_right fun ⟨file, mem, below⟩ => ?_)
  exact ⟨file, memPlacesPut.mpr (.inr mem), below⟩

theorem notDirectoryPut (plain : tree.isDirectory (here ++ [name]) = false) :
    (tree.put (here ++ [name]) content).isDirectory (here ++ [name]) = false := by
  rw [← Bool.not_eq_true, isDirectoryIff] at plain ⊢
  rintro (empty | listed | ⟨file, mem, below⟩)
  · exact plain (.inl empty)
  · exact plain (.inr (.inl listed))
  · rcases memPlacesPut.mp mem with rfl | old
    · have short := below.length_le
      rw [List.dropLast_concat, List.length_append, List.length_singleton] at short
      omega
    · exact plain (.inr (.inr ⟨file, old, below⟩))

theorem lookPut (found : tree.look here name = .ok (next, .directory)) :
    (tree.put place content).look here name = .ok (next, .directory) := by
  unfold look at found ⊢
  split
  · rename_i stays
    rwa [if_pos stays] at found
  · rename_i moves
    rw [if_neg moves] at found
    have same : (tree.put place content).refusals = tree.refusals := rfl
    rw [same]
    cases refused : tree.refusals.look here name with
    | some reason =>
      rw [refused] at found
      contradiction
    | none =>
      rw [refused] at found
      dsimp only at found ⊢
      generalize (if name = "." then here else if name = ".." then here.dropLast
        else here ++ [name]) = there at found ⊢
      unfold entry? at found ⊢
      split at found
      · rename_i entry known
        obtain ⟨rfl, rfl⟩ := Prod.mk.inj (Except.ok.inj found)
        split at known
        · rename_i directory
          rw [if_pos (directoryPut directory)]
        · simp at known
      · contradiction

theorem stepSource (ok : tree.step here name = .ok next) :
    tree.look here name = .ok (next, .directory) := by
  unfold step at ok
  split at ok <;> try contradiction
  cases ok
  assumption

theorem stepPut (ok : tree.step here name = .ok next) :
    (tree.put place content).step here name = .ok next := by
  unfold step
  rw [lookPut (stepSource ok)]

theorem walkPut {names : List String} (ok : tree.walk base path names = .ok next) :
    (tree.put place content).walk base path names = .ok next := by
  have steps : ∀ here, names.foldlM tree.step here = .ok next →
      names.foldlM (tree.put place content).step here = .ok next := by
    clear ok
    induction names with
    | nil => exact fun here ok => ok
    | cons name names ih =>
      intro here ok
      rw [List.foldlM_cons] at ok ⊢
      cases first : tree.step here name with
      | error reason =>
        rw [first] at ok
        contradiction
      | ok middle =>
        rw [first] at ok
        rw [stepPut first]
        exact ih middle ok
  unfold walk at ok ⊢
  cases start : tree.origin base path with
  | error reason =>
    rw [start] at ok
    contradiction
  | ok here =>
    rw [start] at ok
    have again : (tree.put place content).origin base path = .ok here := by
      unfold origin at start ⊢
      split at start
      · rwa [if_pos ‹_›]
      · rename_i relative
        rw [if_neg relative]
        split at start
        · contradiction
        · rename_i known
          simp only [Bool.or_eq_true, Bool.not_eq_true', not_or, Bool.not_eq_false] at known
          simpa [known.1, directoryPut known.2] using start
    rw [again]
    exact steps here ok

structure Leads (tree : FileTree) (base : List String) (path : String) (here : List String)
    (name : String) : Prop where
  walked : tree.walk base path (path.splitOn "/").dropLast = .ok here
  last : (path.splitOn "/").getLastD "" = name
  plain : name ≠ "" ∧ name ≠ "." ∧ name ≠ ".."
  allowed : tree.refusals.look here name = none
  free : tree.isDirectory (here ++ [name]) = false

theorem placeSource (found : tree.placeOf base path = .ok place) :
    ∃ here name, place = here ++ [name] ∧ Leads tree base path here name := by
  unfold placeOf at found
  dsimp only [bind, Except.bind] at found
  split at found <;> try contradiction
  rename_i here walked
  split at found <;> try contradiction
  rename_i name last
  split at found <;> try contradiction
  rename_i allowed
  split at found <;> try contradiction
  rename_i open_
  cases found
  simp only [Bool.or_eq_true, decide_eq_true_eq, not_or, Nat.not_lt, beq_iff_eq,
    Bool.not_eq_true] at open_
  obtain ⟨⟨⟨long, notHere⟩, notAbove⟩, free⟩ := open_
  generalize names : path.splitOn "/" = all at *
  -- Nothing is cut off at the end, so the last name is not empty.
  have suffix := List.dropWhile_suffix (fun name => name == "") (l := all.reverse)
  have whole : all.reverse.dropWhile (fun name => name == "") = all.reverse :=
    suffix.eq_of_length (Nat.le_antisymm suffix.length_le (by simpa using long))
  rw [whole, List.reverse_reverse] at walked last
  have head : all.reverse.head? = some name := by rwa [List.head?_reverse]
  have nonempty : name ≠ "" := by
    rintro rfl
    obtain ⟨rest, split⟩ := List.head?_eq_some_iff.mp head
    have short := congrArg List.length whole
    have cut := (List.dropWhile_suffix (fun name => name == "") (l := rest)).length_le
    rw [split, List.dropWhile_cons_of_pos (by rfl), List.length_cons] at short
    omega
  refine ⟨here, name, rfl, ⟨by rw [names]; exact walked, ?_, ⟨nonempty, notHere, notAbove⟩,
    allowed, free⟩⟩
  rw [names, List.getLastD_eq_getLast?, last]
  rfl

namespace Leads

variable (leads : Leads tree base path here name)
include leads

theorem placed : tree.placeOf base path = .ok (here ++ [name]) := by
  obtain ⟨walked, last, ⟨nonempty, notHere, notAbove⟩, allowed, free⟩ := leads
  unfold placeOf
  generalize path.splitOn "/" = names at *
  obtain ⟨front, rfl⟩ : ∃ front, names = front ++ [name] := by
    cases names using List.reverseRecOn with
    | nil => exact absurd last.symm nonempty
    | append_singleton front other => exact ⟨front, by simpa using last⟩
  rw [List.dropLast_concat] at walked
  simp [nonempty, walked, allowed, notHere, notAbove, free, bind, Except.bind]

theorem put : Leads (tree.put (here ++ [name]) content) base path here name where
  walked := walkPut leads.walked
  last := leads.last
  plain := leads.plain
  allowed := leads.allowed
  free := notDirectoryPut leads.free

theorem reads (held : tree.content? (here ++ [name]) = some content)
    (readable : tree.refusals.read (here ++ [name]) = none) : tree.read base path = .ok content := by
  obtain ⟨nonempty, notHere, notAbove⟩ := leads.plain
  have met : tree.look here name = .ok (here ++ [name], .file content) := by
    simp [look, entry?, nonempty, notHere, notAbove, leads.allowed, leads.free, held]
  unfold read
  simp only [leads.walked, leads.last, met, readable, bind, Except.bind]

end Leads

theorem leadsName (single : name.splitOn "/" = [name]) (relative : name.startsWith "/" = false)
    (known : tree.isDirectory base = true) (plain : name ≠ "" ∧ name ≠ "." ∧ name ≠ "..")
    (allowed : tree.refusals.look base name = none)
    (free : tree.isDirectory (base ++ [name]) = false) : Leads tree base name base name where
  walked := by simp [single, walk, origin, relative, known, plain.1]
  last := by rw [single]; rfl
  plain := plain
  allowed := allowed
  free := free

theorem readWritten (found : tree.placeOf base path = .ok place)
    (readable : tree.refusals.read place = none) :
    (tree.put place content).read base path = .ok content := by
  obtain ⟨here, name, rfl, leads⟩ := placeSource found
  exact leads.put.reads contentPutSelf readable

inductive Writes (tree : FileTree) (base : List String) (path : String) (content : ByteArray) :
    Except FileError Unit × FileTree → Prop where
  | refused {reason : FileError} : Writes tree base path content (.error reason, tree)
  | whole {place : List String} (found : tree.placeOf base path = .ok place) :
      Writes tree base path content (.ok (), tree.put place content)
  | broken {place : List String} {room : Nat} {reason : FileError}
      (found : tree.placeOf base path = .ok place) (short : room < content.size) :
      Writes tree base path content (.error reason, tree.put place (content.extract 0 room))

theorem writeEnds (tree : FileTree) (base : List String) (path : String) (content : ByteArray) :
    Writes tree base path content (tree.write base path content) := by
  unfold write
  split
  · exact .refused
  · rename_i place found
    split
    · exact .refused
    · exact .whole found
    · split
      · exact .whole found
      · exact .broken found (Nat.lt_of_not_le ‹_›)

theorem writeWhole {after : FileTree}
    (written : tree.write base path content = (.ok (), after)) :
    ∃ place, tree.placeOf base path = .ok place ∧ after = tree.put place content := by
  have ends := writeEnds tree base path content
  rw [written] at ends
  cases ends with
  | whole found => exact ⟨_, found, rfl⟩

theorem writeElsewhere (apart : tree.placeOf base path ≠ .ok other) :
    (tree.write base path content).2.content? other = tree.content? other := by
  have ends := writeEnds tree base path content
  generalize tree.write base path content = written at ends
  cases ends with
  | refused => rfl
  | whole found | broken found => exact contentPutOther fun same => apart (same ▸ found)

end FileTree

end Regalloc
