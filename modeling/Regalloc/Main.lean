import Regalloc.CommandLine.Session

/-!
The program: the session of its words on the system that it runs on.
-/
namespace Regalloc.Main

/-- The system's number for a path through a file is 20, given with either sign. -/
def fileError : IO.Error → FileError
  | .noFileOrDirectory .. => .missing
  | .inappropriateType _ code _ =>
    if code = 20 ∨ 0 - code = 20 then .notDirectory else .isDirectory
  | .permissionDenied _ code details | .resourceExhausted _ code details =>
    .other s!"{details} (os error {code})"
  | reason => .other reason.toString

def attempt {α : Type} (act : IO α) : IO (Except FileError α) := do
  try
    return .ok (← act)
  catch reason => return .error (fileError reason)

def host : Host IO where
  read path := attempt (IO.FS.readBinFile path)
  write path content := attempt (IO.FS.writeBinFile path content)
  tell
    | .record level message => IO.eprintln s!"{level.text} {message}"
    | .text content => IO.eprint content
  print text := IO.print text

end Regalloc.Main

def main (words : List String) : IO UInt32 :=
  match Regalloc.Arguments.parse words with
  | .ok args => do return Regalloc.Session.exitCode (← Regalloc.Session.serve Regalloc.Main.host args)
  | .error reason => do
    IO.eprintln s!"error: {reason.kind}"
    return 2
