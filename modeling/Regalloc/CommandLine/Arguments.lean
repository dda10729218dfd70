/-!
The words of the command line. They are read from left to right, and the first problem decides. An
option that still waits for its value, or whose value has not been looked at yet, is settled when the
next known option or path is met, or at the end of the words.
-/
namespace Regalloc

inductive Command where
  | alloc | check
  deriving DecidableEq, Repr

def Command.writes : Command → Bool
  | .alloc => true
  | .check => false

def Command.ofWord? : String → Option Command
  | "alloc" | "a" => some .alloc
  | "check" | "c" => some .check
  | _ => none

inductive Strategy where
  | greedy | simplify
  deriving DecidableEq, Repr

def Strategy.ofWord? : String → Option Strategy
  | "greedy" => some .greedy
  | "simplify" => some .simplify
  | _ => none

structure Options where
  strategy : Strategy
  maxAttempts : Option Nat
  quiet : Bool
  output : String
  print : Bool
  path : String
  deriving DecidableEq, Repr

structure Arguments where
  command : Command
  verbose : Nat
  options : Options
  deriving DecidableEq, Repr

inductive UsageError where
  | nothingGiven | missingSubcommand | invalidSubcommand | displayHelp | displayVersion
  | unknownArgument | invalidValue | valueValidation | tooManyValues | argumentConflict
  | missingRequiredArgument
  deriving DecidableEq, Repr

def UsageError.kind : UsageError → String
  | nothingGiven => "DisplayHelpOnMissingArgumentOrSubcommand"
  | missingSubcommand => "MissingSubcommand"
  | invalidSubcommand => "InvalidSubcommand"
  | displayHelp => "DisplayHelp"
  | displayVersion => "DisplayVersion"
  | unknownArgument => "UnknownArgument"
  | invalidValue => "InvalidValue"
  | valueValidation => "ValueValidation"
  | tooManyValues => "TooManyValues"
  | argumentConflict => "ArgumentConflict"
  | missingRequiredArgument => "MissingRequiredArgument"

namespace Arguments

inductive Flag where
  | verbose | help | version | quiet | print
  deriving DecidableEq, Repr

inductive Field where
  | strategy | maxAttempts | output | path
  deriving DecidableEq, Repr

inductive Known where
  | flag (flag : Flag)
  | field (field : Field)
  deriving DecidableEq, Repr

def Known.ofLong? : String → Option Known
  | "verbose" => some (.flag .verbose)
  | "help" => some (.flag .help)
  | "version" => some (.flag .version)
  | "quiet" => some (.flag .quiet)
  | "print" => some (.flag .print)
  | "strategy" => some (.field .strategy)
  | "max-attempts" => some (.field .maxAttempts)
  | "output" => some (.field .output)
  | _ => none

def Known.ofShort? : Char → Option Known
  | 'v' => some (.flag .verbose)
  | 'h' => some (.flag .help)
  | 'V' => some (.flag .version)
  | 'q' => some (.flag .quiet)
  | 'o' => some (.field .output)
  | _ => none

def Known.isGlobal : Known → Bool
  | .flag .verbose | .flag .help | .flag .version => true
  | _ => false

inductive Word where
  | escape
  | long (name : String) (value : Option String)
  | shorts (letters : List Char)
  | plain (text : String)
  deriving DecidableEq, Repr

def Word.ofText (text : String) : Word :=
  match text.toList with
  | ['-', '-'] => .escape
  | '-' :: '-' :: rest =>
    let name := rest.takeWhile (fun c => c != '=')
    match rest.drop name.length with
    | [] => .long (String.ofList name) none
    | _ :: value => .long (String.ofList name) (some (String.ofList value))
  | '-' :: c :: rest => .shorts (c :: rest)
  | _ => .plain text

def number? (text : String) : Option Nat :=
  let digits := match text.toList with
    | '+' :: rest => rest
    | all => all
  if digits.isEmpty || !digits.all Char.isDigit then none
  else
    let value := digits.foldl (fun n c => 10 * n + (c.toNat - '0'.toNat)) 0
    if value < UInt64.size then some value else none

/-- What has been read so far. `pending` is the last option or path that is not settled, with its
value if it has met one. -/
structure State where
  strategy : Option Strategy
  maxAttempts : Option Nat
  quiet : Bool
  output : Option String
  print : Bool
  path : Option String
  verbose : Nat
  pending : Option (Field × Option String)
  deriving DecidableEq, Repr

namespace State

def start : State := ⟨none, none, false, none, false, none, 0, none⟩

def isGiven (s : State) : Field → Bool
  | .strategy => s.strategy.isSome
  | .maxAttempts => s.maxAttempts.isSome
  | .output => s.output.isSome
  | .path => s.path.isSome

def store (s : State) (value : String) : Field → Except UsageError State
  | .strategy =>
    match Strategy.ofWord? value with
    | some strategy => .ok { s with strategy := some strategy }
    | none => .error .invalidValue
  | .maxAttempts =>
    match number? value with
    | some n => .ok { s with maxAttempts := some n }
    | none => .error .valueValidation
  | .output => if value.isEmpty then .error .invalidValue else .ok { s with output := some value }
  | .path => if value.isEmpty then .error .invalidValue else .ok { s with path := some value }

def assign (s : State) (field : Field) (value : String) : Except UsageError State :=
  if s.isGiven field then .error .argumentConflict else s.store value field

def settle (s : State) : Except UsageError State :=
  match s.pending with
  | none => .ok s
  | some (_, none) => .error .invalidValue
  | some (field, some value) => { s with pending := none }.assign field value

def raise (s : State) (flag : Flag) : Except UsageError State := do
  let s ← s.settle
  match flag with
  | .verbose => .ok { s with verbose := min (s.verbose + 1) 255 }
  | .help => .error .displayHelp
  | .version => .error .displayVersion
  | .quiet => if s.quiet then .error .argumentConflict else .ok { s with quiet := true }
  | .print => if s.print then .error .argumentConflict else .ok { s with print := true }

def meet (s : State) (field : Field) (attached : Option String) : Except UsageError State := do
  let s ← s.settle
  match attached with
  | some value => s.assign field value
  | none => .ok { s with pending := some (field, none) }

def takeLong (s : State) (allowed : Known → Bool) (name : String) (value : Option String) :
    Except UsageError State :=
  match (Known.ofLong? name).filter allowed, value with
  | none, _ => .error .unknownArgument
  | some (.flag _), some _ => .error .tooManyValues
  | some (.flag flag), none => s.raise flag
  | some (.field field), value => s.meet field value

def takeShorts (s : State) (allowed : Known → Bool) : List Char → Except UsageError State
  | [] => .ok s
  | c :: rest =>
    match (Known.ofShort? c).filter allowed with
    | none => .error .unknownArgument
    | some (.flag flag) => do
      let s ← s.raise flag
      s.takeShorts allowed rest
    | some (.field field) =>
      match rest with
      | [] => s.meet field none
      | '=' :: value => s.meet field (some (String.ofList value))
      | value => s.meet field (some (String.ofList value))

def takePath (s : State) (text : String) : Except UsageError State :=
  match s.pending with
  | some (.path, _) => .error .unknownArgument
  | _ => if s.path.isSome then .error .unknownArgument else do
    let s ← s.settle
    .ok { s with pending := some (.path, some text) }

def takePlain (s : State) (text : String) : Except UsageError State :=
  match s.pending with
  | some (field, none) => .ok { s with pending := some (field, some text) }
  | _ => s.takePath text

def takeAll (s : State) : List String → Except UsageError State
  | [] => s.settle
  | word :: words =>
    match Word.ofText word with
    | .escape => do (← words.foldlM takePath s).settle
    | .long name value => do (← s.takeLong (fun _ => true) name value).takeAll words
    | .shorts letters => do (← s.takeShorts (fun _ => true) letters).takeAll words
    | .plain text => do (← s.takePlain text).takeAll words

end State

def ofOptions (command : Command) (verbose : Nat) (words : List String) :
    Except UsageError Arguments := do
  let s ← State.start.takeAll words
  match s.path with
  | none => .error .missingRequiredArgument
  | some path =>
    .ok ⟨command, if s.verbose = 0 then verbose else s.verbose,
      ⟨s.strategy.getD .greedy, s.maxAttempts, s.quiet, s.output.getD "prog.asm", s.print, path⟩⟩

def help : List String → UsageError
  | [] | ["help"] => .displayHelp
  | [word] => if (Command.ofWord? word).isSome then .displayHelp else .invalidSubcommand
  | _ => .invalidSubcommand

def ofWords (s : State) : List String → Except UsageError Arguments
  | [] => .error (if s.verbose = 0 then .nothingGiven else .missingSubcommand)
  | word :: words =>
    match Word.ofText word with
    | .escape =>
      match words with
      | [] => .error (if s.verbose = 0 then .nothingGiven else .missingSubcommand)
      | word :: _ =>
        if (Command.ofWord? word).isSome || word == "help" then .error .unknownArgument
        else .error .invalidSubcommand
    | .long name value => do ofWords (← s.takeLong Known.isGlobal name value) words
    | .shorts letters => do ofWords (← s.takeShorts Known.isGlobal letters) words
    | .plain text =>
      if text == "help" then .error (help words)
      else match Command.ofWord? text with
        | some command => ofOptions command s.verbose words
        | none => .error .invalidSubcommand

def parse (words : List String) : Except UsageError Arguments := ofWords State.start words

end Arguments

end Regalloc
