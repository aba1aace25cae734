import PLZero.Proofs.Execution.Faults
import PLZero.Proofs.Execution.Moments

namespace PLZero

/-- Whether a fault comes up before an instruction is fetched. -/
def FaultCause.precedesFetch : FaultCause → Bool
  | fetchOutside _ | cycleLimit _ => true
  | _ => false

/-- The memory is as large as the stack, and the top of the stack is in it or just below. -/
structure Machine.Bounded (machine : Machine) : Prop where
  size_memory : machine.memory.size = machine.stackSize
  top : -1 ≤ machine.sp ∧ machine.sp < machine.stackSize

theorem Machine.Bounded.replaced {machine : Machine} (bounded : machine.Bounded) {memory : Array Int}
    (size : memory.size = machine.stackSize) : Machine.Bounded { machine with memory } :=
  ⟨size, bounded.top⟩

namespace MachineM

variable {α β : Type} {machine : Machine} {failing : Fault → Machine → Prop}

/-- Started here, an action does not fault. -/
def Succeeds (machine : Machine) (action : MachineM α) : Prop :=
  ∃ result after, action machine = .ok result after

/-- What holds if an action that is started here faults. -/
def Fails (failing : Fault → Machine → Prop) (machine : Machine) (action : MachineM α) : Prop :=
  ∀ fault after, action machine = .error fault after → failing fault after

/-- An instruction has faulted without a change of the machine, and the fault tells the registers. -/
structure Stopped (machine : Machine) (fault : Fault) (after : Machine) : Prop where
  machine_eq : after = machine
  registers_eq : fault.registers = after.registers
  within : fault.cause.precedesFetch = false

theorem setCell_run_of_bounded (bounded : machine.Bounded) {index : Int}
    (inside : 0 ≤ index ∧ index < machine.stackSize) (value : Int) :
    setCell index value machine =
      .ok () { machine with memory := machine.memory.setIfInBounds index.toNat value } := by
  obtain ⟨slot, rfl⟩ := Int.eq_ofNat_of_zero_le inside.1
  exact setCell_run (bounded.size_memory ▸ Int.ofNat_lt.mp inside.2) value

/-- A word on the stack can be written. -/
theorem Succeeds.setCell_bind {next : Unit → MachineM α} (bounded : machine.Bounded) {index value : Int}
    (inside : 0 ≤ index ∧ index < machine.stackSize)
    (rest : ∀ memory, memory.size = machine.stackSize → Succeeds { machine with memory } (next ())) :
    Succeeds machine (setCell index value >>= next) := by
  obtain ⟨result, after, ran⟩ := rest _ (Array.size_setIfInBounds.trans bounded.size_memory)
  exact ⟨result, after, (bind_run (setCell_run_of_bounded bounded inside value)).trans ran⟩

theorem push_of_full (full : machine.stackSize ≤ machine.sp + 1) (value : Int) :
    push value machine = .error ⟨.overflow, machine.registers⟩ machine := by
  rw [push, get_bind_run, if_pos full, fault_run]

theorem push_succeeds (bounded : machine.Bounded) (room : machine.sp + 1 < machine.stackSize) (value : Int) :
    Succeeds machine (push value) := by
  obtain ⟨size, lower, upper⟩ := bounded
  have inside : 0 ≤ machine.sp + 1 ∧ machine.sp + 1 < machine.stackSize := ⟨by omega, room⟩
  have raised : Machine.Bounded { machine with sp := machine.sp + 1 } :=
    ⟨size, Int.le_trans (by decide) inside.1, inside.2⟩
  rw [Succeeds, push, get_bind_run, if_neg (Int.not_le.mpr room)]
  exact ⟨_, _, setCell_run_of_bounded raised inside value⟩

namespace Fails

theorem of_succeeds {action : MachineM α} (succeeds : Succeeds machine action) : Fails failing machine action := by
  obtain ⟨result, reached, ran⟩ := succeeds
  intro fault after failed
  cases ran.symm.trans failed

theorem of_fault {cause : FaultCause} (within : cause.precedesFetch = false) :
    Fails (Stopped machine) machine (fault cause : MachineM α) := by
  intro fault after failed
  cases failed
  exact ⟨rfl, rfl, within⟩

theorem imp {action : MachineM α} {weaker : Fault → Machine → Prop} (fails : Fails failing machine action)
    (enough : ∀ fault after, failing fault after → weaker fault after) : Fails weaker machine action :=
  fun fault after failed => enough fault after (fails fault after failed)

theorem bind {action : MachineM α} {next : α → MachineM β} (first : Fails failing machine action)
    (rest : ∀ a between, action machine = .ok a between → Fails failing between (next a)) :
    Fails failing machine (action >>= next) := by
  intro fault after failed
  simp only [Bind.bind, EStateM.bind] at failed
  cases ran : action machine with
  | ok result between =>
    rw [ran] at failed
    exact rest result between ran fault after failed
  | error fault between =>
    rw [ran] at failed
    cases failed
    exact first fault after ran

theorem get_bind {next : Machine → MachineM α} (rest : Fails failing machine (next machine)) :
    Fails failing machine (get >>= next) := rest

/-- What follows an action that only reads starts from the same machine. -/
theorem bind_of_keeps {action : MachineM α} {next : α → MachineM β} (first : Fails failing machine action)
    (keeps : Keeps id action) (rest : ∀ a, Fails failing machine (next a)) :
    Fails failing machine (action >>= next) :=
  first.bind fun a between ran => by
    obtain rfl : between = machine := keeps.of_ok ran
    exact rest a

theorem bind_of_succeeds {action : MachineM α} {next : α → MachineM β} (first : Fails failing machine action)
    (succeeds : ∀ a between, Succeeds between (next a)) : Fails failing machine (action >>= next) :=
  first.bind fun a between _ => of_succeeds (succeeds a between)

theorem cell (index : Int) : Fails (Stopped machine) machine (cell index) := by
  refine get_bind ?_
  split
  · exact of_succeeds ⟨_, _, rfl⟩
  · exact of_fault rfl

theorem read (address : Int) : Fails (Stopped machine) machine (read address) := by
  refine get_bind ?_
  split
  · exact cell address
  · exact of_fault rfl

theorem linked (frame : Int) (distance : Nat) : Fails (Stopped machine) machine (linked frame distance) := by
  induction distance generalizing frame with
  | zero => exact of_succeeds ⟨_, _, rfl⟩
  | succ distance ih => exact (read _).bind_of_keeps (.of_read _) fun link => ih link

theorem base (distance : Nat) : Fails (Stopped machine) machine (base distance) :=
  get_bind (linked _ _)

theorem setCell (index value : Int) : Fails (Stopped machine) machine (setCell index value) := by
  refine get_bind ?_
  split
  · exact of_succeeds ⟨_, _, rfl⟩
  · exact of_fault rfl

/-- The address is checked before anything is written. -/
theorem store (address value : Int) : Fails (Stopped machine) machine (store address value) := by
  refine bind_of_succeeds (get_bind ?_) fun _ _ => ⟨_, _, rfl⟩
  split
  · exact setCell address value
  · exact of_fault rfl

theorem pop : Fails (Stopped machine) machine pop := by
  refine get_bind ?_
  dsimp only
  split
  · exact of_fault rfl
  · exact (cell _).bind_of_succeeds fun _ _ => ⟨_, _, rfl⟩

theorem setTop (sp : Int) : Fails (Stopped machine) machine (setTop sp) := by
  refine get_bind ?_
  split
  · exact of_fault rfl
  · split
    · exact of_fault rfl
    · exact of_succeeds ⟨_, _, rfl⟩

/-- The words of the frame are read, and the new top is checked, before a register is set. -/
theorem leave (arguments : Int) : Fails (Stopped machine) machine (leave arguments) := by
  refine get_bind ?_
  refine (read _).bind_of_keeps (.of_read _) fun result => ?_
  refine (read _).bind_of_keeps (.of_read _) fun address => ?_
  refine (read _).bind_of_keeps (.of_read _) fun caller => ?_
  exact (setTop _).bind_of_succeeds fun _ _ => ⟨_, _, rfl⟩

/-- The room is checked before the top of the stack is moved. -/
theorem push (bounded : machine.Bounded) (value : Int) : Fails (Stopped machine) machine (push value) := by
  by_cases full : machine.stackSize ≤ machine.sp + 1
  · intro fault after failed
    rw [push_of_full full] at failed
    cases failed
    exact ⟨rfl, rfl, rfl⟩
  · exact of_succeeds (push_succeeds bounded (Int.not_le.mp full) value)

/-- The room for a frame is checked, and the link is found, before the first word of the frame is written. -/
theorem call (bounded : machine.Bounded) (distance : Nat) (entry : Int) :
    Fails (Stopped machine) machine (call distance entry) := by
  refine get_bind ?_
  dsimp only
  split
  · exact of_fault rfl
  · next room =>
    rw [Int.not_le] at room
    have lower := bounded.top.1
    have inside : ∀ offset : Int, 0 ≤ offset → offset < frameSize →
        0 ≤ machine.sp + 1 + offset ∧ machine.sp + 1 + offset < machine.stackSize := by
      intro offset least most
      omega
    refine (base distance).bind_of_keeps (.of_base distance) fun link => of_succeeds ?_
    refine .setCell_bind bounded (inside staticLink (by decide) (by decide)) fun memory size => ?_
    refine .setCell_bind (bounded.replaced size) (inside savedBase (by decide) (by decide)) fun memory size => ?_
    refine .setCell_bind (bounded.replaced size) (inside returnAddress (by decide) (by decide)) fun memory size => ?_
    refine .setCell_bind (bounded.replaced size) (inside resultSlot (by decide) (by decide)) fun memory size => ?_
    exact ⟨_, _, rfl⟩

end Fails

theorem bind_eq_ok {action : MachineM α} {next : α → MachineM β} {result : β} {after : Machine}
    (ran : (action >>= next) machine = .ok result after) :
    ∃ a between, action machine = .ok a between ∧ next a between = .ok result after := by
  simp only [Bind.bind, EStateM.bind] at ran
  cases begun : action machine with
  | ok a between =>
    rw [begun] at ran
    exact ⟨a, between, rfl, ran⟩
  | error fault between =>
    rw [begun] at ran
    cases ran

theorem pop_eq_ok {value : Int} {after : Machine} (ran : pop machine = .ok value after) :
    0 ≤ machine.sp ∧ after = { machine with sp := machine.sp - 1 } := by
  rw [pop, get_bind_run] at ran
  split at ran
  · cases ran
  · next filled =>
    obtain ⟨word, between, held, lowered⟩ := bind_eq_ok ran
    have same : between = machine := (Keeps.of_cell machine.sp : Keeps id _).of_ok held
    rw [same] at lowered
    cases lowered
    exact ⟨Int.not_lt.mp filled, rfl⟩

/-- An instruction has faulted when at most words were taken from the stack. -/
def Lowered (machine : Machine) (fault : Fault) (after : Machine) : Prop :=
  ∃ sp ≤ machine.sp, Stopped { machine with sp } fault after

namespace Fails

theorem lowered {action : MachineM α} (fails : Fails (Stopped machine) machine action) :
    Fails (Lowered machine) machine action :=
  fails.imp fun _ _ stopped => ⟨machine.sp, Int.le_refl _, stopped⟩

theorem pop_bind {next : Int → MachineM α} (bounded : machine.Bounded)
    (rest : ∀ value, Machine.Bounded { machine with sp := machine.sp - 1 } →
      Fails (Lowered { machine with sp := machine.sp - 1 }) { machine with sp := machine.sp - 1 } (next value)) :
    Fails (Lowered machine) machine (MachineM.pop >>= next) := by
  refine pop.lowered.bind fun value between ran => ?_
  obtain ⟨filled, rfl⟩ := pop_eq_ok ran
  have upper := bounded.top.2
  have still : Machine.Bounded { machine with sp := machine.sp - 1 } :=
    ⟨bounded.size_memory, show -1 ≤ machine.sp - 1 by omega, show machine.sp - 1 < machine.stackSize by omega⟩
  refine (rest value still).imp fun fault after ⟨sp, below, stopped⟩ => ⟨sp, ?_, stopped⟩
  have lower : sp ≤ machine.sp - 1 := below
  omega

/-- An instruction that is not to return a result. -/
theorem execute {instruction : Instruction} (bounded : machine.Bounded)
    (noRetf : instruction.operation.opcode? ≠ some .retf) :
    Fails (Lowered machine) machine (execute instruction) := by
  unfold MachineM.execute
  split
  · exact (of_fault rfl).lowered
  · exact pop_bind bounded fun a still => (push still _).lowered
  · refine pop_bind bounded fun b still => pop_bind still fun a still => ?_
    split
    · exact (push still _).lowered
    · exact (of_fault rfl).lowered
  · exact (push bounded _).lowered
  · exact ((base _).bind_of_keeps (.of_base _) fun link => push bounded _).lowered
  · exact pop_bind bounded fun address still =>
      ((read address).bind_of_keeps (.of_read _) fun word => push still _).lowered
  · exact pop_bind bounded fun address still => pop_bind still fun value _ => (store address value).lowered
  · exact (call bounded _ _).lowered
  · exact (get_bind (setTop _)).lowered
  · exact ((leave _).bind_of_succeeds fun _ _ => ⟨_, _, rfl⟩).lowered
  · exact absurd ‹_› noRetf
  · exact of_succeeds ⟨_, _, rfl⟩
  · refine pop_bind bounded fun test _ => of_succeeds ?_
    split
    · exact ⟨_, _, rfl⟩
    · exact ⟨_, _, rfl⟩

end Fails

theorem cell_eq_ok {index value : Int} {after : Machine} (inside : 0 ≤ index ∧ index < machine.memory.size)
    (ran : cell index machine = .ok value after) : after = machine ∧ machine.word? index.toNat = some value := by
  obtain ⟨index, rfl⟩ := Int.eq_ofNat_of_zero_le inside.1
  have within : index < machine.memory.size := Int.ofNat_lt.mp inside.2
  rw [cell, get_bind_run, slot?_of_lt within] at ran
  cases ran
  rw [Machine.word?, Int.toNat_natCast, Array.getD_eq_getD_getElem?, Array.getElem?_eq_getElem within]
  exact ⟨rfl, rfl⟩

theorem read_eq_ok {address value : Int} {after : Machine} (size : machine.memory.size = machine.stackSize)
    (ran : read address machine = .ok value after) :
    after = machine ∧ (0 ≤ address ∧ address < machine.stackSize) ∧ machine.word? address.toNat = some value := by
  rw [read, get_bind_run] at ran
  split at ran
  · next inside =>
    obtain ⟨same, held⟩ := cell_eq_ok (size ▸ inside) ran
    exact ⟨same, inside, held⟩
  · cases ran

/-- The base of the caller and the address to go on at are what the links of the current frame tell. -/
structure Restored (before after : Machine) : Prop where
  inside : 0 ≤ before.bp + savedBase ∧ before.bp + resultSlot < before.stackSize
  bp : before.word? (before.bp + savedBase).toNat = some after.bp
  pc : before.word? (before.bp + returnAddress).toNat = some after.pc

theorem setTop_eq_ok {sp : Int} {after : Machine} (ran : setTop sp machine = .ok () after) :
    -1 ≤ sp ∧ sp < machine.stackSize ∧ after = { machine with sp } := by
  rw [setTop, get_bind_run] at ran
  split at ran
  · cases ran
  · next below =>
    split at ran
    · cases ran
    · next above =>
      cases ran
      exact ⟨Int.not_lt.mp above, Int.not_le.mp below, rfl⟩

/-- What it takes to drop a frame. The links may be anything. -/
theorem leave_eq_ok {arguments result : Int} {after : Machine} (size : machine.memory.size = machine.stackSize)
    (ran : leave arguments machine = .ok result after) :
    Restored machine after ∧ -1 ≤ machine.bp - 1 - arguments ∧ machine.bp - 1 - arguments < machine.stackSize ∧
      after = { machine with sp := machine.bp - 1 - arguments, pc := after.pc, bp := after.bp } := by
  obtain ⟨found, between, got, ran⟩ := bind_eq_ok ran
  cases got
  obtain ⟨word, between, readResult, ran⟩ := bind_eq_ok ran
  obtain ⟨rfl, below, -⟩ := read_eq_ok size readResult
  obtain ⟨address, between, readAddress, ran⟩ := bind_eq_ok ran
  obtain ⟨rfl, -, atAddress⟩ := read_eq_ok size readAddress
  obtain ⟨caller, between, readCaller, ran⟩ := bind_eq_ok ran
  obtain ⟨rfl, above, atCaller⟩ := read_eq_ok size readCaller
  obtain ⟨_, between, moved, ran⟩ := bind_eq_ok ran
  obtain ⟨lower, upper, rfl⟩ := setTop_eq_ok moved
  cases ran
  exact ⟨⟨⟨above.1, below.2⟩, atCaller, atAddress⟩, lower, upper, rfl⟩

/-- The instruction that returns a result faults before the frame is dropped, or it is told to keep words above the frame
that do not leave room for the result. -/
theorem execute_retf_eq_error {instruction : Instruction} (isRetf : instruction.operation.opcode? = some .retf)
    (bounded : machine.Bounded) {fault : Fault} {after : Machine}
    (failed : execute instruction machine = .error fault after) :
    Stopped machine fault after ∨ instruction.value < 0 ∧ fault.cause = .overflow ∧ Restored machine after ∧
      Stopped { machine with sp := machine.stackSize - 1, pc := after.pc, bp := after.bp } fault after := by
  simp only [execute, isRetf] at failed
  cases left : leave instruction.value machine with
  | error cause between =>
    simp only [Bind.bind, EStateM.bind, left] at failed
    cases failed
    exact .inl (Fails.leave _ _ _ left)
  | ok result between =>
    obtain ⟨restored, lower, upper, same⟩ := leave_eq_ok bounded.size_memory left
    rw [bind_run left] at failed
    have still : between.Bounded := by
      rw [same]
      exact ⟨bounded.size_memory, lower, upper⟩
    have full : between.stackSize ≤ between.sp + 1 := by
      refine Int.not_lt.mp fun room => ?_
      obtain ⟨_, reached, done⟩ := push_succeeds still room result
      cases done.symm.trans failed
    rw [push_of_full full] at failed
    cases failed
    rw [same] at full
    have top : machine.bp - 1 - instruction.value = machine.stackSize - 1 := by
      dsimp only at full
      omega
    refine .inr ⟨?_, rfl, restored, ?_, rfl, rfl⟩
    · have below := restored.inside.2
      have offset : resultSlot = 3 := rfl
      omega
    · rwa [top] at same

end MachineM

theorem Machine.precedesFetch_of_fetch {machine : Machine} {cause : FaultCause} (failed : machine.fetch = .error cause) :
    cause.precedesFetch = true := by
  rw [fetch] at failed
  split at failed <;> cases failed <;> rfl

/-- A step that faults changes registers and the count of cycles only, and the fault tells the registers that are left.
If an instruction was fetched, the base and the address are what they were and the top of the stack is no higher, unless
a result is returned to where there is no room for it. -/
theorem step_fault_spares_stack {machine after : Machine} {fault : Fault}
    (size : machine.memory.size = machine.stackSize) (top : -1 ≤ machine.sp ∧ machine.sp < machine.stackSize)
    (failed : MachineM.step machine = .error fault after) :
    after.memory = machine.memory ∧ after.lastWrite = machine.lastWrite ∧ fault.registers = after.registers ∧
      if fault.cause.precedesFetch then after = machine
      else ∃ instruction, machine.fetch = .ok instruction ∧
        ((∃ sp ≤ machine.sp, after =
            { machine with ir := some instruction, cycles := machine.cycles + 1, pc := machine.pc + 1, sp }) ∨
          instruction.operation.opcode? = some .retf ∧ instruction.value < 0 ∧ fault.cause = .overflow ∧
            MachineM.Restored machine after ∧ after =
              { machine with
                ir := some instruction, cycles := machine.cycles + 1
                pc := after.pc, bp := after.bp, sp := machine.stackSize - 1 }) := by
  rw [MachineM.step, MachineM.get_bind_run] at failed
  cases fetched : machine.fetch with
  | error cause =>
    rw [fetched] at failed
    cases failed
    exact ⟨rfl, rfl, rfl, by rw [if_pos (Machine.precedesFetch_of_fetch fetched)]⟩
  | ok instruction =>
    rw [fetched] at failed
    have bounded : Machine.Bounded
        { machine with ir := some instruction, pc := machine.pc + 1, cycles := machine.cycles + 1 } := ⟨size, top⟩
    have run := (MachineM.modify_bind_run _ _).symm.trans failed
    by_cases isRetf : instruction.operation.opcode? = some .retf
    · rcases MachineM.execute_retf_eq_error isRetf bounded run with
        ⟨rfl, registers, within⟩ | ⟨negative, cause, restored, same, registers, within⟩
      · refine ⟨rfl, rfl, registers, ?_⟩
        rw [if_neg (by simp [within])]
        exact ⟨instruction, rfl, .inl ⟨machine.sp, Int.le_refl _, rfl⟩⟩
      · refine ⟨by rw [same], by rw [same], registers, ?_⟩
        rw [if_neg (by simp [within])]
        exact ⟨instruction, rfl, .inr ⟨isRetf, negative, cause, ⟨restored.inside, restored.bp, restored.pc⟩, same⟩⟩
    · obtain ⟨sp, below, rfl, registers, within⟩ := MachineM.Fails.execute bounded isRetf fault after run
      refine ⟨rfl, rfl, registers, ?_⟩
      rw [if_neg (by simp [within])]
      exact ⟨instruction, rfl, .inl ⟨sp, below, rfl⟩⟩

/-- A machine that is to return nine to a place above its stack. -/
def overshootingReturn : Machine :=
  { stackSize := 8, cycleLimit := none, code := #[.of .retf 0 (-8)], memory := #[0, 5, 7, 9, 0, 0, 0, 0], pc := 0, bp := 0,
    sp := 3, ir := none, lastWrite := none, cycles := 0 }

theorem overshootingReturn_spares_stack :
    ∃ fault after, MachineM.step overshootingReturn = .error fault after ∧
      after.memory = overshootingReturn.memory ∧ after.lastWrite = none ∧ fault.registers = after.registers ∧
        after.pc = 7 ∧ after.bp = 5 ∧ after.sp = 7 := by
  have failed : MachineM.step overshootingReturn =
      .error ⟨.overflow, ⟨7, 5, 7, some (.of .retf 0 (-8))⟩⟩
        { overshootingReturn with pc := 7, bp := 5, sp := 7, ir := some (.of .retf 0 (-8)), cycles := 1 } := rfl
  obtain ⟨memory, lastWrite, registers, -⟩ := step_fault_spares_stack (by decide) (by decide) failed
  exact ⟨_, _, failed, memory, lastWrite, registers, rfl, rfl, rfl⟩

end PLZero
