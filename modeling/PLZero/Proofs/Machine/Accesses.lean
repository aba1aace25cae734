import PLZero.Machine.Run

namespace PLZero

/-- A machine, and the indices at which its memory has been accessed without a check of the index. -/
structure Traced where
  machine : Machine
  accesses : List Int

/-- Changes of a machine by which the accesses without a check are noted. -/
abbrev TracedM := EStateM Fault Traced

namespace TracedM

variable {α β : Type}

/-- What a machine does without such an access. -/
def lift (action : MachineM α) : TracedM α := fun traced =>
  match action traced.machine with
  | .ok result machine => .ok result { traced with machine }
  | .error fault machine => .error fault { traced with machine }

def note (index : Int) : TracedM Unit :=
  modify fun traced => { traced with accesses := traced.accesses ++ [index] }

def cell (index : Int) : TracedM Int := do
  note index
  lift (MachineM.cell index)

def setCell (index value : Int) : TracedM Unit := do
  note index
  lift (MachineM.setCell index value)

def push (value : Int) : TracedM Unit := do
  let machine ← lift get
  if machine.stackSize ≤ machine.sp + 1 then lift (MachineM.fault .overflow)
  else
    lift (modify fun machine => { machine with sp := machine.sp + 1 })
    setCell (machine.sp + 1) value

def pop : TracedM Int := do
  let sp := (← lift get).sp
  if sp < 0 then lift (MachineM.fault .underflow)
  else
    let value ← cell sp
    lift (modify fun machine => { machine with sp := machine.sp - 1 })
    return value

def call (distance : Nat) (entry : Int) : TracedM Unit := do
  let machine ← lift get
  let frame := machine.sp + 1
  if machine.stackSize ≤ machine.sp + frameSize then lift (MachineM.fault .overflow)
  else
    setCell (frame + staticLink) (← lift (MachineM.base distance))
    setCell (frame + savedBase) machine.bp
    setCell (frame + returnAddress) machine.pc
    setCell (frame + resultSlot) 0
    lift (modify fun machine => { machine with bp := frame, sp := machine.sp + frameSize, pc := entry })

/-- The memory is accessed without a check only where something is pushed or popped, or a frame is built. -/
def execute (instruction : Instruction) : TracedM Unit := do
  match instruction.operation.opcode? with
  | none => lift (MachineM.fault (.invalidOperation instruction.operation))
  | some (.unary op) => push (op.apply (← pop))
  | some (.binary op) =>
    let b ← pop
    let a ← pop
    match op.apply? a b with
    | some value => push value
    | none => lift (MachineM.fault .divisionByZero)
  | some .pushConst => push instruction.value
  | some .pushVar => push ((← lift (MachineM.base instruction.level)) + instruction.value)
  | some .eval => push (← lift (MachineM.read (← pop)))
  | some .assign =>
    let address ← pop
    let value ← pop
    lift (MachineM.store address value)
  | some .call => call instruction.level instruction.value
  | some .enter => lift (MachineM.setTop ((← lift get).sp + instruction.value))
  | some .ret => discard (lift (MachineM.leave instruction.value))
  | some .retf => push (← lift (MachineM.leave instruction.value))
  | some .jump => lift (MachineM.jumpTo instruction.value)
  | some .jneq => if (← pop) = 0 then lift (MachineM.jumpTo instruction.value)

def step : TracedM Unit := do
  match (← lift get).fetch with
  | .error cause => lift (MachineM.fault cause)
  | .ok instruction =>
    lift (modify fun machine =>
      { machine with ir := some instruction, pc := machine.pc + 1, cycles := machine.cycles + 1 })
    execute instruction

/-- Apart from the notes, a traced action is an action of the machine. -/
def Traces (traced : TracedM α) (plain : MachineM α) : Prop :=
  ∀ t, match traced t with
    | .ok result after => plain t.machine = .ok result after.machine
    | .error fault after => plain t.machine = .error fault after.machine

namespace Traces

theorem bind {traced : TracedM α} {plain : MachineM α} {next : α → TracedM β} {plainNext : α → MachineM β}
    (first : traced.Traces plain) (rest : ∀ a, (next a).Traces (plainNext a)) :
    (traced >>= next).Traces (plain >>= plainNext) := by
  intro t
  have before := first t
  simp only [Bind.bind, EStateM.bind]
  cases ran : traced t with
  | ok result between =>
    rw [ran] at before
    rw [before]
    exact rest result between
  | error fault after =>
    rw [ran] at before
    simp only [before]

theorem of_pure (a : α) : (pure a : TracedM α).Traces (pure a) := fun _ => rfl

theorem of_lift (action : MachineM α) : (lift action).Traces action := by
  intro t
  rw [lift]
  cases action t.machine <;> rfl

theorem noted {traced : TracedM α} {plain : MachineM α} (traces : traced.Traces plain) (index : Int) :
    (note index >>= fun _ => traced).Traces plain :=
  fun t => traces { t with accesses := t.accesses ++ [index] }

theorem cell (index : Int) : (cell index).Traces (.cell index) :=
  (of_lift _).noted index

theorem setCell (index value : Int) : (setCell index value).Traces (.setCell index value) :=
  (of_lift _).noted index

theorem push (value : Int) : (push value).Traces (.push value) := by
  refine (of_lift get).bind fun machine => ?_
  split
  · exact of_lift _
  · exact (of_lift _).bind fun _ => setCell _ _

theorem pop : pop.Traces .pop := by
  refine (of_lift get).bind fun machine => ?_
  dsimp only
  split
  · exact of_lift _
  · exact (cell _).bind fun value => (of_lift _).bind fun _ => of_pure value

theorem call (distance : Nat) (entry : Int) : (call distance entry).Traces (.call distance entry) := by
  refine (of_lift get).bind fun machine => ?_
  dsimp only
  split
  · exact of_lift _
  · exact (of_lift _).bind fun link => (setCell _ _).bind fun _ => (setCell _ _).bind fun _ => (setCell _ _).bind
      fun _ => (setCell _ _).bind fun _ => of_lift _

theorem execute (instruction : Instruction) : (execute instruction).Traces (.execute instruction) := by
  unfold TracedM.execute MachineM.execute
  cases instruction.operation.opcode? with
  | none => exact of_lift _
  | some op =>
    cases op with
    | unary op => exact pop.bind fun _ => push _
    | binary op =>
      refine pop.bind fun b => pop.bind fun a => ?_
      cases op.apply? a b with
      | some value => exact push value
      | none => exact of_lift _
    | pushConst => exact push _
    | pushVar => exact (of_lift _).bind fun _ => push _
    | eval => exact pop.bind fun _ => (of_lift _).bind fun _ => push _
    | assign => exact pop.bind fun _ => pop.bind fun _ => of_lift _
    | call => exact call _ _
    | enter => exact (of_lift get).bind fun _ => of_lift _
    | ret => exact (of_lift _).bind fun _ => of_pure ()
    | retf => exact (of_lift _).bind fun _ => push _
    | jump => exact of_lift _
    | jneq =>
      refine pop.bind fun test => ?_
      split
      · exact of_lift _
      · exact of_pure ()

/-- The accesses are those of the steps of the machine. -/
theorem step : step.Traces .step := by
  refine (of_lift get).bind fun machine => ?_
  cases machine.fetch with
  | error cause => exact of_lift _
  | ok instruction => exact (of_lift _).bind fun _ => execute instruction

end Traces

end TracedM

end PLZero
