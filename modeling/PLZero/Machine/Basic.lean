import PLZero.Frame
import PLZero.Machine.Fault

namespace PLZero

def defaultStackSize : Nat := 512

/-- The stack machine: a code segment, a memory for the stack, registers, and what is counted and limited. -/
structure Machine where
  stackSize : Nat
  cycleLimit : Option Int
  code : Array Instruction
  memory : Array Int
  pc : Int
  bp : Int
  sp : Int
  ir : Option Instruction
  /-- The address that was assigned to last. -/
  lastWrite : Option Int
  cycles : Nat
deriving DecidableEq, Repr

/-- A stack too small for the frame of the main program. -/
structure StackTooSmall where
  stackSize : Int
deriving DecidableEq, Repr

def StackTooSmall.message (_ : StackTooSmall) : String :=
  s!"stack_size must be at least {frameSize}"

/-- A stack too large for any memory: there are no addresses for so many words, or no index counts so far. -/
inductive StackTooLarge where
  | noAddresses | noIndex
deriving DecidableEq, Repr

def StackTooLarge.message : StackTooLarge → String
  | noAddresses => ""
  | noIndex => "cannot fit 'int' into an index-sized integer"

/-- Why there is no machine with a stack of the size that is asked for. -/
inductive StackSizeError where
  | tooSmall (error : StackTooSmall)
  | tooLarge (error : StackTooLarge)
deriving DecidableEq, Repr

def StackSizeError.message : StackSizeError → String
  | tooSmall error => error.message
  | tooLarge error => error.message

namespace Machine

/-- A stack has fewer words than this: with eight bytes for each, addresses of 63 bits reach no further. -/
def addressLimit : Nat := 0x1000000000000000

/-- An index is less than this. -/
def indexLimit : Nat := 0x8000000000000000

def registers (machine : Machine) : Registers :=
  ⟨machine.pc, machine.bp, machine.sp, machine.ir⟩

/-- The frame of the main program as it is before the first instruction; the code is kept. Its return address is zero,
so that returning from the main program halts. -/
def reset (machine : Machine) : Machine :=
  { machine with
    memory := (List.range frameSize).foldl (fun memory index => memory.setIfInBounds index 0) machine.memory
    pc := 0
    bp := 0
    sp := frameSize - 1
    ir := none
    lastWrite := none
    cycles := 0 }

def load (machine : Machine) (code : Array Instruction) : Machine :=
  reset { machine with code, memory := Array.replicate machine.stackSize 0 }

/-- A machine as it is before any code is loaded. -/
def unloaded (stackSize : Nat) (cycleLimit : Option Int) : Machine :=
  { stackSize, cycleLimit, code := #[], memory := #[], pc := 0, bp := 0, sp := 0, ir := none, lastWrite := none,
    cycles := 0 }

/-- A machine without code. Memory is taken to be as large as addresses reach. -/
def ofStackSize (stackSize : Int) (cycleLimit : Option Int) : Except StackSizeError Machine :=
  if stackSize < frameSize then .error (.tooSmall ⟨stackSize⟩)
  else if indexLimit ≤ stackSize then .error (.tooLarge .noIndex)
  else if addressLimit ≤ stackSize then .error (.tooLarge .noAddresses)
  else .ok ((unloaded stackSize.toNat cycleLimit).load #[])

/-- The word at an address, if the stack reaches so far. -/
def word? (machine : Machine) (address : Nat) : Option Int :=
  machine.memory[address]?

end Machine

end PLZero
