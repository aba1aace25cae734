import PLZero.Journal
import PLZero.Machine.Run

namespace PLZero.Machine

/-- The words of the current frame, the first and the last of them marked, or only the registers if they delimit no
part of the stack. -/
def frameLines (machine : Machine) : List String :=
  if 0 ≤ machine.bp ∧ machine.bp ≤ machine.sp ∧ machine.sp < machine.stackSize then
    (List.range (machine.sp - machine.bp + 1).toNat).map fun (index : Nat) =>
      let address := machine.bp + index
      let label := if address = machine.bp then "bp:" else if address = machine.sp then "sp:" else ""
      Text.leftAligned 4 label ++ Text.rightAligned 5 (toString address) ++ ": " ++
        Text.rightAligned 10 (toString (machine.memory.getD address.toNat 0))
  else ["bp: " ++ Text.rightAligned 5 (toString machine.bp), "sp: " ++ Text.rightAligned 5 (toString machine.sp)]

/-- What is logged before an instruction is executed. -/
def traceMessage (machine : Machine) (instruction : Instruction) : String :=
  "\n".intercalate (machine.frameLines ++ ["pc: " ++ instruction.listing machine.pc])

/-- What is logged after an assignment. -/
def storeMessage (address value : Int) : String :=
  "    " ++ Text.rightAligned 5 (toString address) ++ ": " ++ Text.rightAligned 10 (toString value)

def haltMessage (machine : Machine) : String :=
  s!"halted after {machine.cycles} cycles (bp={machine.bp}, sp={machine.sp})"

/-- The log of the next step. -/
def stepLog (machine : Machine) : List String :=
  match machine.fetch with
  | .error _ => []
  | .ok instruction =>
    let stored := match instruction.operation.opcode?, MachineM.step machine with
      | some .assign, .ok () after =>
        after.lastWrite.toList.map fun address => storeMessage address (after.memory.getD address.toNat 0)
      | _, _ => []
    (machine.traceMessage instruction :: stored).map LogSource.interpreter.line

/-- The log of a run as far as `resume` goes. -/
def resumeLog : (count : Nat) → Machine → List String
  | 0, _ => []
  | count + 1, machine =>
    machine.stepLog ++ match MachineM.step machine with
      | .error _ _ => []
      | .ok () machine =>
        if machine.pc = 0 then [LogSource.interpreter.line machine.haltMessage] else machine.resumeLog count

def runLog (count : Nat) (machine : Machine) : List String :=
  machine.reset.resumeLog count

end PLZero.Machine
