import PLZero.Arithmetic
import PLZero.Machine.Basic

namespace PLZero

/-- Changes of the machine that can end in a fault. What was changed before the fault stays. -/
abbrev MachineM := EStateM Fault Machine

namespace MachineM

def fault {α : Type} (cause : FaultCause) : MachineM α := do
  throw ⟨cause, (← get).registers⟩

/-- Where an index leads that is not checked: below zero it counts from the end of the memory. -/
def slot? (size : Nat) (index : Int) : Option Nat :=
  if 0 ≤ index ∧ index < size then some index.toNat
  else if -size ≤ index ∧ index < 0 then some (size + index).toNat
  else none

def cell (index : Int) : MachineM Int := do
  let machine ← get
  match slot? machine.memory.size index with
  | some slot => return machine.memory.getD slot 0
  | none => fault (.noCell index)

def setCell (index value : Int) : MachineM Unit := do
  match slot? (← get).memory.size index with
  | some slot => modify fun machine => { machine with memory := machine.memory.setIfInBounds slot value }
  | none => fault (.noCell index)

def read (address : Int) : MachineM Int := do
  if 0 ≤ address ∧ address < (← get).stackSize then cell address else fault (.readOutside address)

def write (address value : Int) : MachineM Unit := do
  if 0 ≤ address ∧ address < (← get).stackSize then setCell address value else fault (.writeOutside address)

def push (value : Int) : MachineM Unit := do
  let machine ← get
  if machine.stackSize ≤ machine.sp + 1 then fault .overflow
  else
    modify fun machine => { machine with sp := machine.sp + 1 }
    setCell (machine.sp + 1) value

def pop : MachineM Int := do
  let sp := (← get).sp
  if sp < 0 then fault .underflow
  else
    let value ← cell sp
    modify fun machine => { machine with sp := machine.sp - 1 }
    return value

/-- Moves the top of the stack, which stays within the memory or just below it. -/
def setTop (sp : Int) : MachineM Unit := do
  if (← get).stackSize ≤ sp then fault .overflow
  else if sp < -1 then fault .underflow
  else modify fun machine => { machine with sp }

def jumpTo (address : Int) : MachineM Unit :=
  modify fun machine => { machine with pc := address }

/-- Follows the links to the frames of enclosing blocks from the frame at `frame`. -/
def linked (frame : Int) : (distance : Nat) → MachineM Int
  | 0 => return frame
  | distance + 1 => do linked (← read (frame + staticLink)) distance

/-- The base of the frame so many blocks further out than the current one. -/
def base (distance : Nat) : MachineM Int := do
  linked (← get).bp distance

/-- Pushes a frame that is linked to the one `distance` blocks out, and goes to the entry. -/
def call (distance : Nat) (entry : Int) : MachineM Unit := do
  let machine ← get
  let frame := machine.sp + 1
  if machine.stackSize ≤ machine.sp + frameSize then fault .overflow
  else
    setCell (frame + staticLink) (← base distance)
    setCell (frame + savedBase) machine.bp
    setCell (frame + returnAddress) machine.pc
    setCell (frame + resultSlot) 0
    modify fun machine => { machine with bp := frame, sp := machine.sp + frameSize, pc := entry }

/-- Drops the current frame and the arguments below it. Returns the result of the function. -/
def leave (arguments : Int) : MachineM Int := do
  let frame := (← get).bp
  let result ← read (frame + resultSlot)
  let address ← read (frame + returnAddress)
  let caller ← read (frame + savedBase)
  setTop (frame - 1 - arguments)
  modify fun machine => { machine with pc := address, bp := caller }
  return result

def store (address value : Int) : MachineM Unit := do
  write address value
  modify fun machine => { machine with lastWrite := some address }

def execute (instruction : Instruction) : MachineM Unit := do
  match instruction.operation.opcode? with
  | none => fault (.invalidOperation instruction.operation)
  | some (.unary op) => push (op.apply (← pop))
  | some (.binary op) =>
    let b ← pop
    let a ← pop
    match op.apply? a b with
    | some value => push value
    | none => fault .divisionByZero
  | some .pushConst => push instruction.value
  | some .pushVar => push ((← base instruction.level) + instruction.value)
  | some .eval => push (← read (← pop))
  | some .assign =>
    let address ← pop
    let value ← pop
    store address value
  | some .call => call instruction.level instruction.value
  | some .enter => setTop ((← get).sp + instruction.value)
  | some .ret => discard (leave instruction.value)
  | some .retf => push (← leave instruction.value)
  | some .jump => jumpTo instruction.value
  | some .jneq => if (← pop) = 0 then jumpTo instruction.value

end MachineM

namespace Machine

/-- The cycle limit, once it is reached. -/
def exhausted? (machine : Machine) : Option Int :=
  machine.cycleLimit.filter fun limit => limit ≤ (machine.cycles : Int)

/-- The instruction that the program counter points at. -/
def instruction? (machine : Machine) : Option Instruction :=
  if 0 ≤ machine.pc then machine.code[machine.pc.toNat]? else none

/-- The instruction to be executed next. -/
def fetch (machine : Machine) : Except FaultCause Instruction :=
  match machine.exhausted?, machine.instruction? with
  | some limit, _ => .error (.cycleLimit limit)
  | none, none => .error (.fetchOutside machine.pc)
  | none, some instruction => .ok instruction

end Machine

/-- Fetches, decodes and executes one instruction. -/
def MachineM.step : MachineM Unit := do
  match (← get).fetch with
  | .error cause => fault cause
  | .ok instruction =>
    modify fun machine =>
      { machine with ir := some instruction, pc := machine.pc + 1, cycles := machine.cycles + 1 }
    execute instruction

end PLZero
