namespace PLZero

/-- The classes of errors that a program or its run can end in. -/
inductive ErrorClass where
  | general | compileError | machineFault | stackFault | stackOverflow | stackUnderflow | codeFault | divisionByZero
  | cycleLimitExceeded
deriving DecidableEq, Repr

namespace ErrorClass

def all : List ErrorClass :=
  [general, compileError, machineFault, stackFault, stackOverflow, stackUnderflow, codeFault, divisionByZero,
    cycleLimitExceeded]

def name : ErrorClass → String
  | general => "PL0Error"
  | compileError => "CompileError"
  | machineFault => "MachineFault"
  | stackFault => "StackFault"
  | stackOverflow => "StackOverflow"
  | stackUnderflow => "StackUnderflow"
  | codeFault => "CodeFault"
  | divisionByZero => "DivisionByZero"
  | cycleLimitExceeded => "CycleLimitExceeded"

def ofName? (name : String) : Option ErrorClass :=
  all.find? fun errorClass => errorClass.name = name

/-- The class itself and those that it is a special case of, the most general one last. -/
def lineage : ErrorClass → List ErrorClass
  | general => [general]
  | compileError => [compileError, general]
  | machineFault => [machineFault, general]
  | stackFault => [stackFault, machineFault, general]
  | stackOverflow => [stackOverflow, stackFault, machineFault, general]
  | stackUnderflow => [stackUnderflow, stackFault, machineFault, general]
  | codeFault => [codeFault, machineFault, general]
  | divisionByZero => [divisionByZero, machineFault, general]
  | cycleLimitExceeded => [cycleLimitExceeded, machineFault, general]

def isFault (errorClass : ErrorClass) : Bool :=
  machineFault ∈ errorClass.lineage

/-- The name that a report of the class carries unless it is given another one. -/
def title : ErrorClass → String
  | general => "Error"
  | errorClass => errorClass.name

/-- The message of a fault about which nothing more is said. -/
def defaultMessage : ErrorClass → String
  | stackFault => "Stack address out of bounds"
  | stackOverflow => "Stack overflow"
  | stackUnderflow => "Stack underflow"
  | codeFault => "Program counter outside code segment"
  | divisionByZero => "Division by zero"
  | cycleLimitExceeded => "Cycle limit exceeded"
  | _ => ""

end ErrorClass

structure ErrorReport where
  name : String
  message : String
deriving DecidableEq, Repr

def ErrorReport.render (report : ErrorReport) : String :=
  if report.message = "" then report.name else s!"{report.name}: {report.message}"

end PLZero
