import Mathlib
import Regalloc.CommandLine.Session
import Regalloc.Proofs.CompiledCode
import Regalloc.Proofs.FileTree
import Regalloc.Proofs.SpillRun

/-! What a run of the command leaves behind. The code is written only where the whole program was
allocated, and then it is what the output path holds afterwards. Nothing else changes. The commands
differ in the writing and in the record of it alone, and being quiet changes only what is told. -/
namespace Regalloc

namespace Options

theorem colorerBuiltIn (opts : Options) : opts.colorer.BuiltIn := by
  unfold colorer
  cases opts.strategy with
  | greedy => exact .greedy
  | simplify => exact .simplify _

end Options

namespace Session

open FileTree

variable {args : Arguments} {opts : Options} {base : List String} {files : FileTree}
  {source code : String}

def Allocates (opts : Options) (source code : String) : Prop :=
  ∃ p flow last registers, Program.parse source 0 = .ok p ∧ p.controlFlow = .ok flow ∧
    (p.allocate opts.target opts.colorer (p.liveness flow)).value =
      .ok (.allocated last registers) ∧
    code = p.codeText opts.target (p.liveness flow) ⟨registers, last.spills⟩

def Compiles (opts : Options) (base : List String) (files : FileTree) (code : String) : Prop :=
  ∃ bytes source, files.read base opts.path = .ok bytes ∧ Text.decode bytes = .ok source ∧
    Allocates opts source code

theorem examineValue : (examine opts source).code =
    match Program.parse source 0 with
    | .error _ => .ok none
    | .ok p =>
      match (p.compile opts.target opts.colorer).value with
      | .error (.issues _) => .ok none
      | .error (.fault fault) => .error (.fault fault)
      | .ok compilation => .ok compilation.code := by
  unfold examine Program.parse
  dsimp only
  cases (Reading.ofText source 0).result with
  | error found => rfl
  | ok p =>
    dsimp only
    split <;> simp_all

theorem examineCode : (examine opts source).code = .ok (some code) ↔ Allocates opts source code := by
  rw [examineValue]
  constructor
  · intro examined
    split at examined
    · simp at examined
    · rename_i p parsed
      split at examined
      · simp at examined
      · simp at examined
      · rename_i c compiled
        obtain ⟨last, registers, flows, ok, _, _, same⟩ :=
          Program.compileSource compiled (Except.ok.inj examined)
        exact ⟨p, c.flow, last, registers, parsed, flows, ok, same⟩
  · rintro ⟨p, flow, last, registers, parsed, flows, ok, rfl⟩
    obtain ⟨c, compiled, emitted⟩ := Program.compileAllocated flows ok
    simp [parsed, compiled, emitted]

theorem examineFileCode {input : Except FileError ByteArray} :
    (examineFile opts input).code = .ok (some code) ↔ ∃ bytes source, input = .ok bytes ∧
      Text.decode bytes = .ok source ∧ Allocates opts source code := by
  unfold examineFile
  cases input with
  | error reason => simp
  | ok bytes => cases decoded : Text.decode bytes <;> simp [decoded, examineCode]

theorem compileFaultless (fault : Fault) (p : Program) :
    (p.compile opts.target opts.colorer).value ≠ .error (.fault fault) := by
  unfold Program.compile
  split
  · simp
  · rename_i flow _
    obtain ⟨_, outcome, ok, _⟩ := Allocation.attemptsRun opts.colorerBuiltIn opts.target p flow
      (opts.target.attempts - 1) (Spills.none opts.target.stride) []
    have allocated : (p.allocate opts.target opts.colorer (p.liveness flow)).value = .ok outcome := ok
    dsimp only
    split
    · rename_i failed
      rw [failed] at allocated
      contradiction
    · simp

theorem examineFileError {input : Except FileError ByteArray} {reason : SessionError}
    (stopped : (examineFile opts input).code = .error reason) :
    (∃ cause, input = .error cause ∧ reason = .unreadable opts.path cause) ∨
      ∃ bytes cause, input = .ok bytes ∧ Text.decode bytes = .error cause ∧
        reason = .notText cause := by
  unfold examineFile at stopped
  cases input with
  | error cause => exact .inl ⟨cause, rfl, (Except.error.inj stopped).symm⟩
  | ok bytes =>
    cases decoded : Text.decode bytes with
    | error cause =>
      simp only [decoded] at stopped
      exact .inr ⟨bytes, cause, rfl, decoded, (Except.error.inj stopped).symm⟩
    | ok source =>
      simp only [decoded, examineValue] at stopped
      split at stopped
      · simp at stopped
      · split at stopped
        · simp at stopped
        · rename_i fault faulty
          exact absurd faulty (compileFaultless fault _)
        · simp at stopped

theorem quietCode (quiet : Bool) (input : Except FileError ByteArray) :
    (examineFile { opts with quiet } input).code = (examineFile opts input).code := by
  unfold examineFile
  cases input with
  | error reason => rfl
  | ok bytes =>
    cases decoded : Text.decode bytes with
    | error reason => simp [decoded]
    | ok source =>
      simp only [decoded, examineValue]
      rfl

def emitted (args : Arguments) (base : List String) (files : FileTree) (code : String) :
    Except FileError Unit × FileTree :=
  if args.command.writes then files.write base args.options.output code.toUTF8 else (.ok (), files)

theorem emittedCheck (given : args.command = .check) :
    emitted args base files code = (.ok (), files) := by
  simp [emitted, given, Command.writes]

theorem emittedAlloc (given : args.command = .alloc) :
    emitted args base files code = files.write base args.options.output code.toUTF8 := by
  simp [emitted, given, Command.writes]

theorem emittedError {reason : FileError} {after : FileTree}
    (failed : emitted args base files code = (.error reason, after)) : args.command = .alloc ∧
      files.write base args.options.output code.toUTF8 = (.error reason, after) := by
  cases given : args.command with
  | check => cases (emittedCheck given).symm.trans failed
  | alloc => exact ⟨rfl, (emittedAlloc given).symm.trans failed⟩

theorem tellAllWithin (limit : Nat) (outputs : List Output) (around : Surroundings) :
    (tellAll (Host.within base) limit outputs).run around =
      (⟨⟩, { around with stderr := around.stderr ++ outputs.filter (Output.passes limit) }) := by
  unfold tellAll
  generalize outputs.filter (Output.passes limit) = passed
  induction passed generalizing around with
  | nil => simp [pure, StateT.pure, StateT.run]
  | cons output passed ih =>
    exact (ih { around with stderr := around.stderr ++ [output] }).trans (by simp)

theorem emitWithin (around : Surroundings) :
    (emit (Host.within base) args code).run around =
      ((emitted args base around.files code).1,
        { around with files := (emitted args base around.files code).2 }) := by
  unfold emit emitted
  split <;> rfl

theorem finishWithin (limit : Nat) (around : Surroundings) :
    (finish (Host.within base) limit args code).run around =
      match emitted args base around.files code with
      | (.error reason, files) => (.error (.unwritable reason), { around with files })
      | (.ok _, files) => (.ok true, ⟨files, around.stdout ++ printed args code,
          around.stderr ++ (written args).filter (Output.passes limit)⟩) := by
  unfold finish
  rw [StateT.run_bind, emitWithin]
  rcases emitted args base around.files code with ⟨result, files⟩
  cases result with
  | error reason => rfl
  | ok =>
    change StateT.run (tellAll (Host.within base) limit (written args) >>= _) _ = _
    rw [StateT.run_bind, tellAllWithin]
    rfl

theorem compileWithin (limit : Nat) (files : FileTree) :
    let finding := examineFile args.options (files.read base args.options.path)
    let told := finding.told.filter (Output.passes limit)
    (compile (Host.within base) limit args).run ⟨files, "", []⟩ =
      match finding.code with
      | .error reason => (.error reason, ⟨files, "", told⟩)
      | .ok none => (.ok false, ⟨files, "", told⟩)
      | .ok (some code) =>
        match emitted args base files code with
        | (.error reason, after) => (.error (.unwritable reason), ⟨after, "", told⟩)
        | (.ok _, after) => (.ok true, ⟨after, printed args code,
            told ++ (written args).filter (Output.passes limit)⟩) := by
  intro finding told
  have opened : (compile (Host.within base) limit args).run ⟨files, "", []⟩ =
      StateT.run (tellAll (Host.within base) limit finding.told >>= fun _ =>
        match finding.code with
        | .error reason => pure (.error reason)
        | .ok none => pure (.ok false)
        | .ok (some code) => finish (Host.within base) limit args code) ⟨files, "", []⟩ := rfl
  rw [opened, StateT.run_bind, tellAllWithin]
  cases finding.code with
  | error reason => rfl
  | ok code =>
    cases code with
    | none => rfl
    | some code =>
      refine (finishWithin limit _).trans ?_
      dsimp only
      rcases emitted args base files code with ⟨result, after⟩
      cases result <;> simp [told]

def found (args : Arguments) (base : List String) (files : FileTree) :
    Except SessionError (Option String) :=
  (examineFile args.options (files.read base args.options.path)).code

def heard (args : Arguments) (base : List String) (files : FileTree) : List Output :=
  (examineFile args.options (files.read base args.options.path)).told.filter
    (Output.passes args.detail)

/-- The result of a run that writes its code by `write` and tells of it by `told`. -/
def conclude (args : Arguments) (base : List String) (files : FileTree)
    (write : String → Except FileError Unit × FileTree) (told : List Output) : Result :=
  match found args base files with
  | .error reason => ⟨⟨files, "", heard args base files ++ [.text reason.report]⟩, .error reason⟩
  | .ok none => ⟨⟨files, "", heard args base files⟩, .ok false⟩
  | .ok (some code) =>
    match write code with
    | (.error reason, after) =>
      ⟨⟨after, "", heard args base files ++ [.text (SessionError.unwritable reason).report]⟩,
        .error (.unwritable reason)⟩
    | (.ok _, after) => ⟨⟨after, printed args code, heard args base files ++ told⟩, .ok true⟩

theorem runWithin (args : Arguments) (base : List String) (files : FileTree) :
    run args base files = conclude args base files (emitted args base files)
      ((written args).filter (Output.passes args.detail)) := by
  unfold run serve conclude found heard
  rw [StateT.run_bind, compileWithin]
  dsimp only
  cases (examineFile args.options (files.read base args.options.path)).code with
  | error reason => rfl
  | ok code =>
    cases code with
    | none => rfl
    | some code =>
      dsimp only
      rcases emitted args base files code with ⟨result, after⟩
      cases result <;> rfl

theorem foundCode : found args base files = .ok (some code) ↔
    Compiles args.options base files code := examineFileCode

inductive Ends (args : Arguments) (base : List String) (files : FileTree) : Result → Prop where
  | refused {reason : SessionError} (stopped : found args base files = .error reason) :
      Ends args base files
        ⟨⟨files, "", heard args base files ++ [.text reason.report]⟩, .error reason⟩
  | rejected (nothing : found args base files = .ok none) :
      Ends args base files ⟨⟨files, "", heard args base files⟩, .ok false⟩
  | unwritable {code : String} {reason : FileError} {after : FileTree}
      (compiles : Compiles args.options base files code)
      (failed : emitted args base files code = (.error reason, after)) :
      Ends args base files
        ⟨⟨after, "", heard args base files ++ [.text (SessionError.unwritable reason).report]⟩,
          .error (.unwritable reason)⟩
  | done {code : String} {after : FileTree} (compiles : Compiles args.options base files code)
      (ok : emitted args base files code = (.ok (), after)) :
      Ends args base files ⟨⟨after, printed args code,
        heard args base files ++ (written args).filter (Output.passes args.detail)⟩, .ok true⟩

theorem runEnds (args : Arguments) (base : List String) (files : FileTree) :
    Ends args base files (run args base files) := by
  rw [runWithin]
  unfold conclude
  split
  · exact .refused ‹_›
  · exact .rejected ‹_›
  · rename_i code here
    split
    · exact .unwritable (foundCode.mp here) ‹_›
    · exact .done (foundCode.mp here) ‹_›

theorem compilesUnique {other : String} (left : Compiles opts base files code)
    (right : Compiles opts base files other) : code = other :=
  Option.some.inj (Except.ok.inj ((examineFileCode.mpr left).symm.trans (examineFileCode.mpr right)))

inductive Stops (args : Arguments) (base : List String) (files : FileTree) : SessionError → Prop where
  | unreadable {cause : FileError} (failed : files.read base args.options.path = .error cause) :
      Stops args base files (.unreadable args.options.path cause)
  | notText {bytes : ByteArray} {cause : Text.Utf8Error}
      (read : files.read base args.options.path = .ok bytes)
      (failed : Text.decode bytes = .error cause) : Stops args base files (.notText cause)
  | unwritable {code : String} {cause : FileError}
      (compiles : Compiles args.options base files code) (given : args.command = .alloc)
      (failed : (files.write base args.options.output code.toUTF8).1 = .error cause) :
      Stops args base files (.unwritable cause)

structure Leaves (args : Arguments) (base : List String) (files : FileTree) (result : Result) :
    Prop where
  succeeds : result.value = .ok true ↔ ∃ code, Compiles args.options base files code ∧
    (args.command = .alloc → (files.write base args.options.output code.toUTF8).1 = .ok ())
  artifact : ∀ code, Compiles args.options base files code → result.value = .ok true →
    result.stdout = (if args.options.print then code else "") ∧
    (args.command = .alloc → ∃ place, files.placeOf base args.options.output = .ok place ∧
      result.files.content? place = some code.toUTF8 ∧
      (files.refusals.read place = none →
        result.files.read base args.options.output = .ok code.toUTF8))
  idle : (∀ code, ¬ Compiles args.options base files code) → result.files = files
  check : args.command = .check → result.files = files
  elsewhere : ∀ place, files.placeOf base args.options.output ≠ .ok place →
    result.files.content? place = files.content? place
  failed : result.value ≠ .ok true → (∀ reason, result.value ≠ .error (.unwritable reason)) →
    result.files = files
  broken : ∀ reason, result.value = .error (.unwritable reason) → result.files = files ∨
    ∃ code place room, Compiles args.options base files code ∧
      files.placeOf base args.options.output = .ok place ∧ room < code.toUTF8.size ∧
      result.files.content? place = some (code.toUTF8.extract 0 room)
  silent : result.value ≠ .ok true → result.stdout = ""
  errors : ∀ reason, result.value = .error reason → Stops args base files reason

namespace Ends

variable {result : Result} (ends : Ends args base files result)
include ends

theorem succeeds : result.value = .ok true ↔ ∃ code, Compiles args.options base files code ∧
    (args.command = .alloc → (files.write base args.options.output code.toUTF8).1 = .ok ()) := by
  cases ends with
  | refused stopped => simp [← foundCode, stopped]
  | rejected nothing => simp [← foundCode, nothing]
  | @unwritable code reason after compiles failed =>
    obtain ⟨given, stopped⟩ := emittedError failed
    refine ⟨nofun, fun ⟨other, again, writes⟩ => ?_⟩
    have whole := writes given
    rw [compilesUnique again compiles, stopped] at whole
    contradiction
  | @done code after compiles ok =>
    exact ⟨fun _ => ⟨code, compiles, fun given => by rw [← emittedAlloc given, ok]⟩, fun _ => rfl⟩

theorem artifact (compiles : Compiles args.options base files code)
    (success : result.value = .ok true) :
    result.stdout = printed args code ∧ emitted args base files code = (.ok (), result.files) := by
  cases ends with
  | refused => contradiction
  | rejected => simp at success
  | unwritable => contradiction
  | done again ok =>
    cases compilesUnique compiles again
    exact ⟨rfl, ok⟩

theorem changed : result.files = files ∨ ∃ code, Compiles args.options base files code ∧
    result.files = (emitted args base files code).2 := by
  cases ends with
  | refused | rejected => exact .inl rfl
  | unwritable compiles failed => exact .inr ⟨_, compiles, by rw [failed]⟩
  | done compiles ok => exact .inr ⟨_, compiles, by rw [ok]⟩

theorem check (given : args.command = .check) : result.files = files := by
  rcases ends.changed with same | ⟨code, _, same⟩
  · exact same
  · rw [same, emittedCheck given]

theorem elsewhere {place : List String}
    (apart : files.placeOf base args.options.output ≠ .ok place) :
    result.files.content? place = files.content? place := by
  rcases ends.changed with same | ⟨code, _, same⟩
  · rw [same]
  · cases given : args.command with
    | check => rw [same, emittedCheck given]
    | alloc =>
      rw [same, emittedAlloc given]
      exact FileTree.writeElsewhere apart

theorem failed (failure : result.value ≠ .ok true)
    (writable : ∀ reason, result.value ≠ .error (.unwritable reason)) : result.files = files := by
  cases ends with
  | refused | rejected => rfl
  | @unwritable code reason => exact absurd rfl (writable reason)
  | done => exact absurd rfl failure

theorem broken {reason : FileError} (stopped : result.value = .error (.unwritable reason)) :
    result.files = files ∨ ∃ code place room, Compiles args.options base files code ∧
      files.placeOf base args.options.output = .ok place ∧ room < code.toUTF8.size ∧
      result.files.content? place = some (code.toUTF8.extract 0 room) := by
  cases ends with
  | refused | rejected => exact .inl rfl
  | done => contradiction
  | @unwritable code reason after compiles failed =>
    obtain ⟨_, failed⟩ := emittedError failed
    have written := failed ▸ files.writeEnds base args.options.output code.toUTF8
    cases written with
    | refused => exact .inl rfl
    | broken found short =>
      exact .inr ⟨code, _, _, compiles, found, short, FileTree.contentPutSelf⟩

theorem silent (failure : result.value ≠ .ok true) : result.stdout = "" := by
  cases ends with
  | refused | rejected | unwritable => rfl
  | done => exact absurd rfl failure

theorem errors {reason : SessionError} (failed : result.value = .error reason) :
    Stops args base files reason := by
  cases ends with
  | refused stopped =>
    cases failed
    rcases examineFileError stopped with ⟨cause, failed, rfl⟩ | ⟨bytes, cause, read, failed, rfl⟩
    · exact .unreadable failed
    · exact .notText read failed
  | rejected => contradiction
  | @unwritable code cause after compiles stopped =>
    cases failed
    obtain ⟨given, stopped⟩ := emittedError stopped
    exact .unwritable compiles given (by rw [stopped])
  | done => contradiction

theorem leaves : Leaves args base files result where
  succeeds := ends.succeeds
  artifact code compiles success := by
    obtain ⟨told, written⟩ := ends.artifact compiles success
    refine ⟨told, fun given => ?_⟩
    rw [emittedAlloc given] at written
    obtain ⟨place, found, same⟩ := FileTree.writeWhole written
    rw [same]
    exact ⟨place, found, FileTree.contentPutSelf, FileTree.readWritten found⟩
  idle absent := ends.changed.resolve_right fun ⟨code, compiles, _⟩ => absent code compiles
  check := ends.check
  elsewhere _ := ends.elsewhere
  failed := ends.failed
  broken _ := ends.broken
  silent := ends.silent
  errors _ := ends.errors

end Ends

/-- What the two commands have in common. The record that the code is written is told to those only
who ask for more than warnings. -/
structure Agree (args : Arguments) (check alloc : Result) : Prop where
  value : alloc.value = check.value
  stdout : alloc.stdout = check.stdout
  stderr : alloc.stderr = check.stderr ++
    if alloc.value = .ok true ∧ 0 < args.verbose then
      [.record .info s!"wrote {args.options.output}"]
    else []

structure Unwritten (reason : FileError) (check alloc : Result) : Prop where
  value : check.value = .ok true
  stdout : alloc.stdout = ""
  stderr : alloc.stderr = check.stderr ++ [.text (SessionError.unwritable reason).report]

theorem writtenPasses (given : args.command = .alloc) :
    (written args).filter (Output.passes args.detail) =
      if 0 < args.verbose then [.record .info s!"wrote {args.options.output}"] else [] := by
  have limit : Level.info.detail ≤ args.detail ↔ 0 < args.verbose := by
    simp only [Arguments.detail, Level.detail]
    omega
  simp [written, given, Command.writes, List.filter_cons, Output.passes, limit]

theorem runCheck (args : Arguments) (base : List String) (files : FileTree) :
    run { args with command := .check } base files =
      conclude args base files (fun _ => (.ok (), files)) [] := by
  have writes : emitted { args with command := .check } base files = fun _ => (.ok (), files) :=
    funext fun _ => emittedCheck rfl
  rw [runWithin, writes]
  rfl

theorem runAlloc (args : Arguments) (base : List String) (files : FileTree) :
    run { args with command := .alloc } base files =
      conclude args base files (fun code => files.write base args.options.output code.toUTF8)
        (if 0 < args.verbose then [.record .info s!"wrote {args.options.output}"] else []) := by
  have writes : emitted { args with command := .alloc } base files =
      fun code => files.write base args.options.output code.toUTF8 :=
    funext fun _ => emittedAlloc rfl
  rw [runWithin, writes, writtenPasses rfl]
  rfl

theorem agree (args : Arguments) (base : List String) (files : FileTree) :
    (∀ reason, (run { args with command := .alloc } base files).value ≠
      .error (.unwritable reason)) →
    Agree args (run { args with command := .check } base files)
      (run { args with command := .alloc } base files) := by
  rw [runCheck, runAlloc]
  unfold conclude
  rcases found args base files with reason | _ | code
  · exact fun _ => ⟨rfl, rfl, by simp⟩
  · exact fun _ => ⟨rfl, rfl, by simp⟩
  · dsimp only
    rcases files.write base args.options.output code.toUTF8 with ⟨reason | _, after⟩
    · exact fun writable => absurd rfl (writable reason)
    · exact fun _ => ⟨rfl, rfl, by simp⟩

theorem unwritten (args : Arguments) (base : List String) (files : FileTree) (reason : FileError) :
    (run { args with command := .alloc } base files).value = .error (.unwritable reason) →
    Unwritten reason (run { args with command := .check } base files)
      (run { args with command := .alloc } base files) := by
  rw [runCheck, runAlloc]
  unfold conclude
  cases here : found args base files with
  | error other =>
    rintro ⟨⟩
    rcases examineFileError here with ⟨_, _, other⟩ | ⟨_, _, _, _, other⟩
    · cases other
    · cases other
  | ok code =>
    cases code with
    | none => rintro ⟨⟩
    | some code =>
      dsimp only
      rcases files.write base args.options.output code.toUTF8 with ⟨other | _, after⟩
      · rintro ⟨⟩
        exact ⟨rfl, rfl, by simp⟩
      · rintro ⟨⟩

theorem runQuiet (args : Arguments) (base : List String) (files : FileTree) (quiet : Bool) :
    let loud := run args base files
    let still := run { args with options := { args.options with quiet } } base files
    still.value = loud.value ∧ still.stdout = loud.stdout ∧ still.files = loud.files := by
  have same : found { args with options := { args.options with quiet } } base files =
      found args base files := quietCode quiet _
  have writes : emitted { args with options := { args.options with quiet } } base files =
      emitted args base files := rfl
  dsimp only
  rw [runWithin args, runWithin { args with options := { args.options with quiet } }]
  unfold conclude
  rw [same, writes]
  rcases found args base files with reason | _ | code
  · exact ⟨rfl, rfl, rfl⟩
  · exact ⟨rfl, rfl, rfl⟩
  · dsimp only
    rcases emitted args base files code with ⟨reason | _, after⟩
    · exact ⟨rfl, rfl, rfl⟩
    · exact ⟨rfl, rfl, rfl⟩

end Session

end Regalloc
