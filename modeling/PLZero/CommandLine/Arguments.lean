import PLZero.CommandLine.Usage
import PLZero.Text.IntegerText

namespace PLZero.CommandLine

/-- An argument as it looks by itself. -/
inductive Argument where
  | operand (text : String)
  /-- A switch by its letter, and what is attached to it, with or without an equals sign between. -/
  | letter (switch : Switch) (attached : Option (List Char))
  /-- An option by its word, and the value behind an equals sign. -/
  | word (option : CommandOption) (value : Option String)
  | unknown (text : String)
  /-- The first `--`. Behind it all arguments are operands. -/
  | separator
deriving DecidableEq, Repr

namespace Argument

/-- What begins with a minus sign and names no option is still an operand if it looks like a negative number or holds
a blank. -/
def unnamed (text : String) : Argument :=
  if Text.isNegativeNumber text || ' ' ∈ text.toList then operand text else unknown text

def ofWord (text : String) : Except UsageError Argument :=
  let word := String.ofList (text.toList.takeWhile (· ≠ '='))
  match CommandOption.candidates word with
  | [] => .ok (unnamed text)
  | [option] =>
    .ok <| match text.toList.dropWhile (· ≠ '=') with
      | [] => .word option none
      | _ :: value => .word option (some (String.ofList value))
  | candidates => .error (.ambiguousOption text candidates)

def ofText (text : String) : Except UsageError Argument :=
  match text.toList with
  | '-' :: '-' :: _ => ofWord text
  | '-' :: c :: rest =>
    .ok <| match Switch.ofLetter? c, rest with
      | none, _ => unnamed text
      | some switch, [] => letter switch none
      | some switch, '=' :: attached => letter switch (some attached)
      | some switch, attached => letter switch (some attached)
  | _ => .ok (operand text)

def ofTexts : List String → Except UsageError (List Argument)
  | [] => .ok []
  | "--" :: texts => .ok (separator :: texts.map operand)
  | text :: texts => do return (← ofText text) :: (← ofTexts texts)

end Argument

/-- The value that a setting is given. A separator in its place is dropped and leaves none. -/
abbrev SettingValue := Option Int

def SettingValue.ofText? (text : String) : Option SettingValue :=
  if text = "--" then some none else (Text.integer? text).map some

/-- What the program is asked to do with a source. -/
structure Job where
  verbose : Bool := false
  disassemble : Bool := false
  noRun : Bool := false
  stackSize : SettingValue := some defaultStackSize
  maxCycles : Option SettingValue := none
deriving DecidableEq, Repr

/-- What has been understood of the arguments so far. -/
structure Reading where
  job : Job := {}
  source : Option String := none
  unrecognized : List String := []
deriving DecidableEq, Repr

/-- Why the arguments are not read to their end. -/
inductive Stop where
  | help
  | error (reason : UsageError)
deriving DecidableEq, Repr

namespace Reading

def skip (reading : Reading) (text : String) : Reading :=
  { reading with unrecognized := reading.unrecognized ++ [text] }

def turnOn (reading : Reading) : Switch → Except Stop Reading
  | .help => .error .help
  | .verbose => .ok { reading with job.verbose := true }
  | .disassemble => .ok { reading with job.disassemble := true }
  | .noRun => .ok { reading with job.noRun := true }

/-- The switches that a letter and those attached to it stand for. All of them must be letters of switches. -/
def bundled (switch : Switch) : List Char → Except UsageError (List Switch)
  | [] => .ok [switch]
  | c :: rest =>
    match Switch.ofLetter? c with
    | some next => (bundled next rest).map (switch :: ·)
    | none => .error (.ignoredValue switch (String.ofList (c :: rest)))

def turnOnBundled (reading : Reading) (switch : Switch) (attached : List Char) : Except Stop Reading :=
  match bundled switch attached with
  | .error error => .error (.error error)
  | .ok switches => switches.foldlM turnOn reading

def assign (reading : Reading) (setting : Setting) (text : String) : Except Stop Reading :=
  match SettingValue.ofText? text, setting with
  | none, _ => .error (.error (.invalidInteger setting text))
  | some value, .stackSize => .ok { reading with job.stackSize := value }
  | some value, .maxCycles => .ok { reading with job.maxCycles := some value }

/-- Reads the arguments from left to right. The first operand that is no value of an option is the source. A separator
next to it is left out; elsewhere it is an argument that nothing accepts. -/
def read (reading : Reading) : List Argument → Except Stop Reading
  | [] => .ok reading
  | .operand text :: .separator :: rest =>
    match reading.source with
    | none => read { reading with source := some text } rest
    | some _ => read ((reading.skip text).skip "--") rest
  | .operand text :: rest =>
    match reading.source with
    | none => read { reading with source := some text } rest
    | some _ => read (reading.skip text) rest
  | .separator :: .operand text :: rest =>
    match reading.source with
    | none => read { reading with source := some text } rest
    | some _ => read ((reading.skip "--").skip text) rest
  | .separator :: rest => read (reading.skip "--") rest
  | .unknown text :: rest => read (reading.skip text) rest
  | .letter switch none :: rest => do read (← reading.turnOn switch) rest
  | .letter switch (some []) :: _ => .error (.error (.ignoredValue switch ""))
  | .letter switch (some attached) :: rest => do read (← reading.turnOnBundled switch attached) rest
  | .word (.switch switch) none :: rest => do read (← reading.turnOn switch) rest
  | .word (.switch switch) (some value) :: _ => .error (.error (.ignoredValue switch value))
  | .word (.setting setting) (some value) :: rest => do read (← reading.assign setting value) rest
  | .word (.setting setting) none :: .operand text :: rest => do read (← reading.assign setting text) rest
  | .word (.setting setting) none :: _ => .error (.error (.missingValue setting))

/-- The source and what to do with it, unless the source is missing or some arguments are left over. -/
def finish (reading : Reading) : Except Stop (String × Job) :=
  match reading.source, reading.unrecognized with
  | none, _ => .error (.error .missingSource)
  | some source, [] => .ok (source, reading.job)
  | some _, unrecognized => .error (.error (.unrecognized unrecognized))

end Reading

def readArguments (arguments : List String) : Except Stop (String × Job) :=
  match Argument.ofTexts arguments with
  | .error error => .error (.error error)
  | .ok arguments => do (← Reading.read {} arguments).finish

end PLZero.CommandLine
