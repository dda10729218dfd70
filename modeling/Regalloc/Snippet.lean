import Regalloc.Issue
import Regalloc.Text.Blank
import Regalloc.Text.Pad
import Regalloc.Text.Width

/-!
Issues shown with the lines of the text that they point at. Under a line stands one mark for each
column of each character that is pointed at. A mark stays inside one line, and an issue has at most
one mark with a message on a line.
-/
namespace Regalloc

structure SourceLine where
  number : Nat
  start : Nat
  text : List Char
  deriving DecidableEq, Repr

namespace Snippet

def linesFrom : (number start : Nat) → List (List Char) → List SourceLine
  | number, start, [] => [⟨number, start, []⟩]
  | number, start, [piece] =>
    ⟨number, start, piece⟩ ::
      if piece.getLast? = some '\n' then [⟨number + 1, start + Text.byteLength piece, []⟩] else []
  | number, start, piece :: pieces =>
    ⟨number, start, piece⟩ :: linesFrom (number + 1) (start + Text.byteLength piece) pieces

def sourceLines (text : String) : List SourceLine := linesFrom 1 0 (Text.pieces text.toList)

def lineAt (lines : List SourceLine) (byte : Nat) : SourceLine :=
  ((lines.takeWhile (fun line => line.start ≤ byte)).getLast?).getD ⟨1, 0, []⟩

def charsBefore (byte : Nat) : (start : Nat) → List Char → Nat
  | _, [] => 0
  | start, c :: cs => if start < byte then charsBefore byte (start + c.utf8Size) cs + 1 else 0

def columnAt (line : SourceLine) (byte : Nat) : Nat := charsBefore byte line.start line.text + 1

def shown (line : SourceLine) : List Char :=
  Text.dropEndWhile (fun c => c == '\n' || c == '\r' || c == '\x00') line.text

def expand : (column : Nat) → List Char → List Char
  | _, [] => []
  | column, c :: cs =>
    let next := Text.advance column c
    (if c = '\t' then List.replicate (next - column) ' ' else [c]) ++ expand next cs

/-- What stands under the bytes from `first` up to `last`: nothing where all marks are behind. -/
def sign? (marks : List Mark) (first last : Nat) : Option Char :=
  let touching := marks.filter fun mark =>
    max mark.span.start first < min (max mark.span.stop (mark.span.start + 1)) last
  if touching.any (fun mark => mark.emphasis == .primary) then some '^'
  else if touching.any (fun mark => mark.emphasis == .secondary) then some '-'
  else if marks.any (fun mark => first < max mark.span.stop (mark.span.start + 1)) then some ' '
  else none

def signs (marks : List Mark) : (byte column : Nat) → List Char → List Char
  | byte, _, [] => (sign? marks byte (byte + 1)).toList
  | byte, column, c :: cs =>
    let next := Text.advance column c
    let under := match sign? marks byte (byte + c.utf8Size) with
      | some sign => List.replicate (next - column) sign
      | none => []
    under ++ signs marks (byte + c.utf8Size) next cs

def numbered (pad : Nat) (line : SourceLine) : String :=
  Text.padLeft pad (toString line.number) ++ " │ " ++ String.ofList (expand 0 (shown line))

def underline (pad : Nat) (line : SourceLine) (marks : List Mark) : String :=
  let message := String.join (marks.map fun mark =>
    if mark.message.isEmpty then "" else " " ++ mark.message)
  Text.spaces pad ++ " │ " ++ String.ofList (signs marks line.start 0 (shown line)) ++ message

def between (lines : List SourceLine) (pad : Nat) (above below : SourceLine) : List String :=
  if below.number ≤ above.number + 1 then []
  else if below.number = above.number + 2 then
    (lines.filter (fun line => line.number = above.number + 1)).map (numbered pad)
  else [Text.spaces pad ++ " ·"]

def marked (lines : List SourceLine) (pad : Nat) :
    List (SourceLine × List Mark) → List String
  | [] => []
  | (line, marks) :: rest =>
    let gap := match rest with
      | (below, _) :: _ => between lines pad line below
      | [] => []
    numbered pad line :: underline pad line marks :: gap ++ marked lines pad rest

def markedLines (lines : List SourceLine) (marks : List Mark) : List (SourceLine × List Mark) :=
  lines.filterMap fun line =>
    match marks.filter (fun mark => (lineAt lines mark.span.start).number = line.number) with
    | [] => none
    | marks => some (line, marks)

def lines (path source : String) (issue : Issue) : List String :=
  let all := sourceLines source
  let places := markedLines all issue.marks
  let pad := ((places.getLast?).map fun (line, _) => (toString line.number).length).getD 0
  let location := ((issue.marks.find? fun mark => mark.emphasis == .primary).map fun mark =>
    let line := lineAt all mark.span.start
    let column := columnAt line mark.span.start
    [Text.spaces pad ++ s!" ┌─ {path}:{line.number}:{column}", Text.spaces pad ++ " │"]).getD []
  let bar := if places.isEmpty || issue.notes.isEmpty then [] else [Text.spaces pad ++ " │"]
  let notes := issue.notes.map fun note => Text.spaces pad ++ " = " ++ note
  s!"error[{issue.code}]: {issue.headline}" :: location ++ marked all pad places ++ bar ++ notes ++ [""]

end Snippet

def Issue.render (issue : Issue) (path source : String) : String :=
  String.join ((Snippet.lines path source issue).map (fun line => line ++ "\n"))

end Regalloc
