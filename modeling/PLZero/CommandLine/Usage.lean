import PLZero.Machine.Basic
import PLZero.Text.Quoted

namespace PLZero.CommandLine

def programName : String := "pl0c"

/-- Options that are given or not. -/
inductive Switch where
  | help | verbose | disassemble | noRun
deriving DecidableEq, Repr

/-- Options that have an integer as value. -/
inductive Setting where
  | stackSize | maxCycles
deriving DecidableEq, Repr

inductive CommandOption where
  | switch (option : Switch)
  | setting (option : Setting)
deriving DecidableEq, Repr

namespace Switch

def all : List Switch := [help, verbose, disassemble, noRun]

def letter : Switch → Char
  | help => 'h' | verbose => 'v' | disassemble => 'd' | noRun => 'n'

def ofLetter? (c : Char) : Option Switch :=
  all.find? fun switch => switch.letter = c

def word : Switch → String
  | help => "--help" | verbose => "--verbose" | disassemble => "--disassemble" | noRun => "--no-run"

end Switch

def Setting.word : Setting → String
  | stackSize => "--stack-size" | maxCycles => "--max-cycles"

namespace CommandOption

/-- All options in the order in which they are proposed. -/
def all : List CommandOption :=
  Switch.all.map switch ++ [.setting .stackSize, .setting .maxCycles]

def word : CommandOption → String
  | switch option => option.word
  | setting option => option.word

/-- All spellings of an option. -/
def name : CommandOption → String
  | switch option => s!"-{option.letter}/{option.word}"
  | setting option => option.word

/-- The options that a word, complete or abbreviated, may stand for. -/
def candidates (word : String) : List CommandOption :=
  match all.find? fun option => option.word = word with
  | some option => [option]
  | none => all.filter fun option => word.toList.isPrefixOf option.word.toList

end CommandOption

/-- What can be wrong with the arguments. -/
inductive UsageError where
  | ambiguousOption (argument : String) (candidates : List CommandOption)
  | ignoredValue (switch : Switch) (value : String)
  | missingValue (setting : Setting)
  | invalidInteger (setting : Setting) (value : String)
  | missingSource
  | unrecognized (arguments : List String)
  | stackTooSmall (error : StackTooSmall)
deriving DecidableEq, Repr

def aboutOption (option : CommandOption) (message : String) : String :=
  s!"argument {option.name}: {message}"

def UsageError.message : UsageError → String
  | ambiguousOption argument candidates =>
    s!"ambiguous option: {argument} could match " ++ ", ".intercalate (candidates.map CommandOption.word)
  | ignoredValue switch value => aboutOption (.switch switch) s!"ignored explicit argument {Text.quoted value}"
  | missingValue setting => aboutOption (.setting setting) "expected one argument"
  | invalidInteger setting value => aboutOption (.setting setting) s!"invalid int value: {Text.quoted value}"
  | missingSource => "the following arguments are required: source"
  | unrecognized arguments => "unrecognized arguments: " ++ " ".intercalate arguments
  | stackTooSmall error => error.message

def usageLines : List String :=
  ["usage: pl0c [-h] [-v] [-d] [-n] [--stack-size STACK_SIZE]",
   "            [--max-cycles MAX_CYCLES]",
   "            source"]

def UsageError.lines (error : UsageError) : List String :=
  usageLines ++ [s!"{programName}: error: {error.message}"]

def helpLines : List String :=
  usageLines ++
    ["",
     "PL/0C - compile and run a PL/0C program",
     "",
     "positional arguments:",
     "  source                PL/0C source file, or - for standard input",
     "",
     "options:",
     "  -h, --help            show this help message and exit",
     "  -v, --verbose         Trace compilation and execution",
     "  -d, --disassemble     Print the compiled code",
     "  -n, --no-run          Compile only",
     "  --stack-size STACK_SIZE",
     s!"                        Stack capacity in words (default {defaultStackSize})",
     "  --max-cycles MAX_CYCLES",
     "                        Stop with an error after this many instructions"]

end PLZero.CommandLine
