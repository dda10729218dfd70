/-!
Files from the root on, with the rules by which paths are looked up. What the system refuses for
reasons of its own, such as rights, limits or failing devices, is given with the tree. There are no
links, and each file holds what was written to it.
-/
namespace Regalloc

inductive FileError where
  | missing | notDirectory | isDirectory
  | other (message : String)
  deriving DecidableEq, Repr

def FileError.message : FileError → String
  | missing => "No such file or directory (os error 2)"
  | notDirectory => "Not a directory (os error 20)"
  | isDirectory => "Is a directory (os error 21)"
  | other message => message

/-- `look` is about a name in a directory, `read` and `create` about opening a place, and `fill` says
after how many bytes a write is broken off. -/
structure Refusals where
  look : List String → String → Option FileError
  read : List String → Option FileError
  create : List String → Option FileError
  fill : List String → Option (Nat × FileError)

def Refusals.none : Refusals := ⟨fun _ _ => .none, fun _ => .none, fun _ => .none, fun _ => .none⟩

/-- Each file and each directory with the names on the way to it from the root, its own last. What
holds a file is a directory without being listed. -/
structure FileTree where
  files : List (List String × ByteArray)
  directories : List (List String)
  refusals : Refusals

inductive FileEntry where
  | file (content : ByteArray)
  | directory

namespace FileTree

def content? (tree : FileTree) (place : List String) : Option ByteArray :=
  (tree.files.find? (fun file => file.1 == place)).map Prod.snd

def isDirectory (tree : FileTree) (place : List String) : Bool :=
  place.isEmpty ||
    (tree.directories ++ tree.files.map fun file => file.1.dropLast).any (place.isPrefixOf ·)

def entry? (tree : FileTree) (place : List String) : Option FileEntry :=
  if tree.isDirectory place then some .directory else (tree.content? place).map .file

def put (tree : FileTree) (place : List String) (content : ByteArray) : FileTree :=
  let files := if tree.files.any (fun file => file.1 == place) then
      tree.files.map fun file => if file.1 == place then (place, content) else file
    else tree.files ++ [(place, content)]
  { tree with files }

def look (tree : FileTree) (here : List String) (name : String) :
    Except FileError (List String × FileEntry) :=
  if name = "" then .ok (here, .directory)
  else match tree.refusals.look here name with
    | some reason => .error reason
    | none =>
      let place := if name = "." then here else if name = ".." then here.dropLast else here ++ [name]
      match tree.entry? place with
      | some entry => .ok (place, entry)
      | none => .error .missing

def step (tree : FileTree) (here : List String) (name : String) : Except FileError (List String) :=
  match tree.look here name with
  | .error reason => .error reason
  | .ok (_, .file _) => .error .notDirectory
  | .ok (place, .directory) => .ok place

def origin (tree : FileTree) (base : List String) (path : String) :
    Except FileError (List String) :=
  if path.startsWith "/" then .ok []
  else if path.isEmpty || !tree.isDirectory base then .error .missing
  else .ok base

def walk (tree : FileTree) (base : List String) (path : String) (names : List String) :
    Except FileError (List String) := do
  names.foldlM tree.step (← tree.origin base path)

def read (tree : FileTree) (base : List String) (path : String) : Except FileError ByteArray := do
  let names := path.splitOn "/"
  let here ← tree.walk base path names.dropLast
  let (place, entry) ← tree.look here (names.getLastD "")
  match tree.refusals.read place, entry with
  | some reason, _ => .error reason
  | none, .file content => .ok content
  | none, .directory => .error .isDirectory

/-- The file that a path to write to names. A path that ends in a slash names a directory, even if
there is none. -/
def placeOf (tree : FileTree) (base : List String) (path : String) :
    Except FileError (List String) := do
  let names := path.splitOn "/"
  let front := (names.reverse.dropWhile (fun name => name == "")).reverse
  let here ← tree.walk base path front.dropLast
  match front.getLast? with
  | none => .error .isDirectory
  | some name =>
    match tree.refusals.look here name with
    | some reason => .error reason
    | none =>
      if front.length < names.length || name == "." || name == ".." ||
          tree.isDirectory (here ++ [name]) then .error .isDirectory
      else .ok (here ++ [name])

def write (tree : FileTree) (base : List String) (path : String) (content : ByteArray) :
    Except FileError Unit × FileTree :=
  match tree.placeOf base path with
  | .error reason => (.error reason, tree)
  | .ok place =>
    match tree.refusals.create place, tree.refusals.fill place with
    | some reason, _ => (.error reason, tree)
    | none, none => (.ok (), tree.put place content)
    | none, some (room, reason) =>
      if content.size ≤ room then (.ok (), tree.put place content)
      else (.error reason, tree.put place (content.extract 0 room))

end FileTree

end Regalloc
