import PLZero.Machine.Step

namespace PLZero

/-- How far a run has come. -/
inductive Outcome where
  | running (machine : Machine)
  /-- The main program has returned. -/
  | halted (machine : Machine)
  | faulted (fault : Fault) (machine : Machine)
deriving DecidableEq, Repr

namespace Outcome

/-- The machine as the run has left it. -/
def machine : Outcome → Machine
  | running machine | halted machine | faulted _ machine => machine

def isOver : Outcome → Bool
  | running _ => false
  | _ => true

end Outcome

namespace Machine

/-- Goes on with a run for at most so many instructions. A run is over when an instruction leads to address zero. -/
def resume : (count : Nat) → Machine → Outcome
  | 0, machine => .running machine
  | count + 1, machine =>
    match MachineM.step machine with
    | .error fault machine => .faulted fault machine
    | .ok () machine => if machine.pc = 0 then .halted machine else machine.resume count

/-- Runs the loaded code from the start. -/
def run (count : Nat) (machine : Machine) : Outcome :=
  machine.reset.resume count

end Machine

end PLZero
