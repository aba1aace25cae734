import PLZero.ErrorReport
import PLZero.Instruction

namespace PLZero

/-- The registers of the machine: the address of the next instruction, the base of the current frame, the top of the
stack, and the instruction being executed. -/
structure Registers where
  pc : Int := 0
  bp : Int := 0
  sp : Int := -1
  ir : Option Instruction := none
deriving DecidableEq, Repr

/-- Why the machine cannot go on. -/
inductive FaultCause where
  | readOutside (address : Int)
  | writeOutside (address : Int)
  | overflow
  | underflow
  | fetchOutside (address : Int)
  | invalidOperation (operation : Operation)
  | divisionByZero
  | cycleLimit (limit : Int)
  /-- An access that is not checked missed the memory. -/
  | noCell (index : Int)
deriving DecidableEq, Repr

namespace FaultCause

def errorClass : FaultCause → ErrorClass
  | readOutside _ | writeOutside _ | noCell _ => .stackFault
  | overflow => .stackOverflow
  | underflow => .stackUnderflow
  | fetchOutside _ | invalidOperation _ => .codeFault
  | divisionByZero => .divisionByZero
  | cycleLimit _ => .cycleLimitExceeded

def message (cause : FaultCause) : String :=
  match cause with
  | readOutside address => s!"Read outside the stack at {address}"
  | writeOutside address => s!"Write outside the stack at {address}"
  | fetchOutside address => s!"Fetch outside the code segment at {address}"
  | invalidOperation operation => s!"Invalid opcode {operation.name}"
  | cycleLimit limit => s!"Cycle limit of {limit} exceeded"
  | noCell index => s!"No cell at {index}"
  | _ => cause.errorClass.defaultMessage

/-- The integers that are written in the message. -/
def integers : FaultCause → List Int
  | readOutside address | writeOutside address | fetchOutside address => [address]
  | invalidOperation operation => operation.integers
  | cycleLimit limit => [limit]
  | noCell index => [index]
  | _ => []

/-- The address of an access outside the stack. -/
def address? : FaultCause → Option Int
  | readOutside address | writeOutside address => some address
  | _ => none

end FaultCause

/-- A fault with the registers as they were when it came up. -/
structure Fault where
  cause : FaultCause
  registers : Registers
deriving DecidableEq, Repr

/-- The message of a fault together with the registers. -/
def Registers.annotate (registers : Registers) (message : String) : String :=
  s!"{message} (pc={registers.pc}, bp={registers.bp}, sp={registers.sp})"

/-- The report on a fault of a class. -/
def ErrorClass.faultReport (errorClass : ErrorClass) (message : String) (registers : Registers) : ErrorReport :=
  ⟨errorClass.title, registers.annotate message⟩

def Registers.integers (registers : Registers) : List Int :=
  [registers.pc, registers.bp, registers.sp]

namespace Fault

def report (fault : Fault) : ErrorReport :=
  fault.cause.errorClass.faultReport fault.cause.message fault.registers

/-- The report that comes out, if its integers can be written. -/
def told (fault : Fault) : Except Text.UnwritableInteger ErrorReport :=
  Text.telling (fault.cause.integers ++ fault.registers.integers) fault.report

end Fault

end PLZero
