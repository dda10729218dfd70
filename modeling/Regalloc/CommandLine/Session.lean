import Regalloc.Coloring.Greedy
import Regalloc.Coloring.Simplify
import Regalloc.CommandLine.Arguments
import Regalloc.FileTree
import Regalloc.Report
import Regalloc.Snippet
import Regalloc.Text.Utf8

/-!
One run of the command: what it makes of the file at its path, what it shows, and the code it writes.
Code is written only where the whole program was allocated. What a run asks of the system is a
parameter, and so is the layout of its log records; no environment variable sets their limit.
-/
namespace Regalloc

inductive SessionError where
  | unreadable (path : String) (reason : FileError)
  | notText (reason : Text.Utf8Error)
  | unwritable (reason : FileError)
  | fault (fault : Fault)
  deriving DecidableEq, Repr

def SessionError.message : SessionError → String
  | unreadable path reason => s!"could not read `{path}`: {reason.message}"
  | notText reason => reason.message
  | unwritable reason => reason.message
  | fault broken => broken.message

def SessionError.report : SessionError → String
  | unreadable path reason =>
    s!"Error: could not read `{path}`\n\nCaused by:\n    {reason.message}\n"
  | failure => s!"Error: {failure.message}\n"

namespace Options

def target (opts : Options) : Target :=
  { Target.standard with attempts := opts.maxAttempts.getD Target.standard.attempts }

def colorer (opts : Options) : Colorer :=
  match opts.strategy with
  | .greedy => .greedy
  | .simplify => .simplify opts.target.budget

end Options

/-- What goes to the error stream: log records, which the logger lays out, and text as it is. -/
inductive Output where
  | record (level : Level) (message : String)
  | text (content : String)
  deriving DecidableEq, Repr

def Output.passes (limit : Nat) : Output → Bool
  | record level _ => decide (level.detail ≤ limit)
  | text _ => true

def Arguments.detail (args : Arguments) : Nat :=
  min (args.verbose + Level.warn.detail) Level.trace.detail

structure Host (m : Type → Type) where
  read : String → m (Except FileError ByteArray)
  write : String → ByteArray → m (Except FileError Unit)
  tell : Output → m Unit
  print : String → m Unit

structure Surroundings where
  files : FileTree
  stdout : String
  stderr : List Output

/-- The system of a run in the directory `base`. Both streams take all that they are given. -/
def Host.within (base : List String) : Host (StateM Surroundings) where
  read path := do return (← get).files.read base path
  write path content := modifyGet fun around =>
    let (result, files) := around.files.write base path content
    (result, { around with files })
  tell output := modify fun around => { around with stderr := around.stderr ++ [output] }
  print text := modify fun around => { around with stdout := around.stdout ++ text }

namespace Session

def shown (opts : Options) (source : String) : Notice → List Output
  | .log level message => [.record level message]
  | .spilling name conflicts =>
    if opts.quiet then [] else [.text s!"note: spilling {name} ({conflicts} conflicts)\n"]
  | .doneSpilling spilled colors =>
    if opts.quiet || spilled == 0 then []
    else [.text s!"note: spilled {spilled} register(s), {colors} colors left\n"]
  | .issues found => found.map fun issue => .text (issue.render opts.path source)

def shownAll (opts : Options) (source : String) (notices : List Notice) : List Output :=
  notices.flatMap (shown opts source)

/-- What is known when the input has been dealt with and nothing is written yet. `code` is the
allocated code, if there is any. -/
structure Finding where
  told : List Output
  code : Except SessionError (Option String)

def examine (opts : Options) (source : String) : Finding :=
  let reading := Reading.ofText source 0
  let before := Notice.reading reading
  match reading.result with
  | .error found => ⟨shownAll opts source (before ++ [.issues found]), .ok none⟩
  | .ok program =>
    let run := program.compile opts.target opts.colorer
    match run.value with
    | .error (.issues found) => ⟨shownAll opts source (before ++ run.notices ++ [.issues found]), .ok none⟩
    | .error (.fault fault) => ⟨shownAll opts source (before ++ run.notices), .error (.fault fault)⟩
    | .ok compilation =>
      let report := if opts.quiet then [] else
        [.text (Report.text program opts.target opts.colorer.name compilation)]
      ⟨shownAll opts source (before ++ run.notices) ++ report, .ok compilation.code⟩

def examineFile (opts : Options) (input : Except FileError ByteArray) : Finding :=
  match input with
  | .error reason => ⟨[], .error (.unreadable opts.path reason)⟩
  | .ok bytes =>
    match Text.decode bytes with
    | .error reason => ⟨[], .error (.notText reason)⟩
    | .ok source => examine opts source

section

variable {m : Type → Type} [Monad m] (host : Host m)

def tellAll (limit : Nat) (outputs : List Output) : m PUnit :=
  (outputs.filter (Output.passes limit)).forM host.tell

def emit (args : Arguments) (code : String) : m (Except FileError Unit) :=
  if args.command.writes then host.write args.options.output code.toUTF8 else return .ok ()

def written (args : Arguments) : List Output :=
  if args.command.writes then [.record .info s!"wrote {args.options.output}"] else []

def printed (args : Arguments) (code : String) : String := if args.options.print then code else ""

def finish (limit : Nat) (args : Arguments) (code : String) : m (Except SessionError Bool) := do
  match ← emit host args code with
  | .error reason => return .error (.unwritable reason)
  | .ok _ =>
    tellAll host limit (written args)
    host.print (printed args code)
    return .ok true

/-- Takes the input as far as it goes. The value tells whether the program was allocated. -/
def compile (limit : Nat) (args : Arguments) : m (Except SessionError Bool) := do
  let finding := examineFile args.options (← host.read args.options.path)
  tellAll host limit finding.told
  match finding.code with
  | .error reason => return .error reason
  | .ok none => return .ok false
  | .ok (some code) => finish host limit args code

def serve (args : Arguments) : m (Except SessionError Bool) := do
  let value ← compile host args.detail args
  if let .error reason := value then host.tell (.text reason.report)
  return value

end

structure Result extends Surroundings where
  value : Except SessionError Bool

def run (args : Arguments) (base : List String) (files : FileTree) : Result :=
  let (value, around) := (serve (Host.within base) args).run ⟨files, "", []⟩
  { around with value }

def exitCode : Except SessionError Bool → UInt32
  | .ok true => 0
  | _ => 1

end Session

end Regalloc
