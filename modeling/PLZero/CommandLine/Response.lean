import PLZero.CommandLine.Arguments
import PLZero.Compilation
import PLZero.Machine.Trace
import PLZero.Text.LineEnding
import PLZero.Text.Utf8

namespace PLZero.CommandLine

/-- What the program answers with: an exit status, and lines on standard output and on standard error. -/
structure Response where
  status : Nat
  output : List String := []
  errors : List String := []
deriving DecidableEq, Repr

/-- Lines as they are written, each with its end. -/
def joinLines (lines : List String) : String :=
  String.join (lines.map fun line => line ++ "\n")

/-- Why a source cannot be opened. -/
inductive OpenFailure where
  | missing | directory | notDirectory
  | other (reason : String)
deriving DecidableEq, Repr

def OpenFailure.reason : OpenFailure → String
  | missing => "No such file or directory"
  | directory => "Is a directory"
  | notDirectory => "Not a directory"
  | other reason => reason

/-- Why there is no text to compile. -/
inductive SourceFailure where
  | unopened (failure : OpenFailure)
  | undecodable (error : Text.Utf8Error)
deriving DecidableEq, Repr

def SourceFailure.message (source : String) : SourceFailure → String
  | unopened failure => s!"{programName}: error opening source file '{source}': {failure.reason}"
  | undecodable error => s!"{programName}: error reading source file '{source}': {error.fault.reason}"

/-- The argument that stands for standard input. -/
def standardInput : String := "-"

/-- How messages call a source. -/
def displayName (source : String) : String :=
  if source = standardInput then "<stdin>" else source

/-- The text of a source, its lines ended in one way. -/
def sourceText (bytes : Except OpenFailure (List UInt8)) : Except SourceFailure String := do
  let text ← (Text.decodeUtf8 (← bytes.mapError .unopened)).mapError .undecodable
  return String.ofList (Text.unifyLineEndings text.toList)

def Stop.response : Stop → Response
  | help => { status := 0, output := helpLines }
  | error reason => { status := 2, errors := reason.lines }

/-- What ends the program without a response. -/
inductive Failure where
  | undecodableInput (error : Text.Utf8Error)
  | compilation (failure : CompileFailure)
  | stackTooLarge (error : StackTooLarge)
  /-- A run needs the value of a setting that was given none. -/
  | noValue (setting : Setting)
deriving DecidableEq, Repr

def Failure.message : Failure → String
  | undecodableInput error => error.message
  | compilation failure => failure.message
  | stackTooLarge error => error.message
  | noValue .stackSize => "'<' not supported between instances of 'list' and 'int'"
  | noValue .maxCycles => "'>=' not supported between instances of 'int' and 'list'"

/-- The lines on the variables of the main program after a run, and on its length. -/
def resultLines (globals : List (String × Nat)) (machine : Machine) : List String :=
  globals.map (fun (name, address) => s!"{name} = {machine.memory.getD address 0}") ++ [s!"{machine.cycles} cycles"]

namespace Job

/-- What a run of compiled code adds to a response. Nothing comes out of a run that takes more than `fuel`
instructions. -/
def runResponse (job : Job) (name : String) (compilation : Compilation) (fuel : Nat) :
    Except Failure (Option Response) :=
  match job.stackSize with
  | none => .error (.noValue .stackSize)
  | some stackSize =>
    match Machine.ofStackSize stackSize job.maxCycles.join with
    | .error (.tooSmall error) => .ok (some { status := 2, errors := (UsageError.stackTooSmall error).lines })
    | .error (.tooLarge error) => .error (.stackTooLarge error)
    | .ok machine =>
      let machine := machine.load compilation.code
      let log := if job.verbose then machine.runLog fuel else []
      if job.maxCycles = some none then .error (.noValue .maxCycles)
      else
        .ok <| match machine.run fuel with
          | .running _ => none
          | .faulted fault _ => some { status := 2, errors := log ++ [s!"{name}: {fault.report.render}"] }
          | .halted machine =>
            some { status := 0, output := resultLines compilation.globals.toList machine, errors := log }

/-- What is said about a program before it is run. -/
def compileResponse (job : Job) (name : String) (compilation : Compilation) : Response :=
  let diagnostics := compilation.diagnostics.toList.map fun diagnostic => s!"{name}: {diagnostic.render}"
  let count :=
    if compilation.errorCount = 0 then [] else [s!"{name}: " ++ Text.counted compilation.errorCount "error"]
  { status := if compilation.errorCount = 0 then 0 else 1
    output := if job.disassemble then [listing compilation.code.toList] else []
    errors := (if job.verbose then compilation.log else []) ++ diagnostics ++ count }

/-- The response to a program, which is run unless it has errors or is not to be run. -/
def programResponse (job : Job) (depth : Nat) (name text : String) (fuel : Nat) : Except Failure (Option Response) :=
  let compilation := compile depth text
  let response := job.compileResponse name compilation
  match compilation.failure with
  | some failure => .error (.compilation failure)
  | none =>
    if compilation.errorCount = 0 ∧ !job.noRun then
      (job.runResponse name compilation fuel).map fun run => run.map fun run =>
        { status := run.status, output := response.output ++ run.output, errors := response.errors ++ run.errors }
    else .ok (some response)

end Job

/-- The response to a source, or nothing if its run takes more than `fuel` instructions. Its program is compiled to the
given depth. A file without a text is reported, but standard input has to be a text. -/
def respond (depth : Nat) (source : String) (job : Job) (bytes : Except OpenFailure (List UInt8)) (fuel : Nat) :
    Except Failure (Option Response) :=
  match sourceText bytes with
  | .error (.undecodable error) =>
    if source = standardInput then .error (.undecodableInput error)
    else .ok (some { status := 1, errors := [(SourceFailure.undecodable error).message source] })
  | .error failure => .ok (some { status := 1, errors := [failure.message source] })
  | .ok text => job.programResponse depth (displayName source) text fuel

end PLZero.CommandLine
