import PLZero.Proofs.Execution.Safety
import PLZero.Proofs.Machine.Limits

namespace PLZero

/-- Faults that tell of too small a stack, or of an address that is none of the stack. -/
def FaultCause.IsAboutRoom (cause : FaultCause) : Prop :=
  cause.errorClass = .stackOverflow ∨ cause.errorClass = .stackFault

namespace Machine

/-- The machine with a stack of another size, and zeros in what it has in addition. -/
def widened (size : Nat) (machine : Machine) : Machine :=
  { machine with stackSize := size, memory := machine.memory ++ Array.replicate (size - machine.stackSize) 0 }

/-- The stack fits within so many words, and its top lies on it. -/
structure Fits (size : Nat) (machine : Machine) : Prop where
  stackSize_le : machine.stackSize ≤ size
  size_memory : machine.memory.size = machine.stackSize
  top : -1 ≤ machine.sp ∧ machine.sp < machine.stackSize

theorem Fits.lt_size {size index : Nat} {machine : Machine} (fits : machine.Fits size)
    (inside : (index : Int) < machine.stackSize) :
    index < machine.memory.size ∧ index < (machine.widened size).memory.size := by
  have within : index < machine.memory.size := by
    rw [fits.size_memory]
    exact Int.ofNat_lt.mp inside
  refine ⟨within, ?_⟩
  rw [widened, Array.size_append]
  omega

end Machine

namespace MachineM

/-- Whether the second machine is the first one with a stack of the size. -/
def IsWidened (size : Nat) (first second : Machine) : Prop :=
  first.Fits size ∧ second = first.widened size

/-- An action that does the same with a larger stack, unless it needs it. -/
abbrev Fitting {α : Type} (size : Nat) (action : MachineM α) : Prop :=
  Agrees (IsWidened size) FaultCause.IsAboutRoom action

variable {γ : Type} {size : Nat} {machine : Machine}

/-- A word of the stack is read alike. -/
theorem cell_widened (fits : machine.Fits size) {index : Int} (inside : 0 ≤ index ∧ index < machine.stackSize) :
    ∃ word, cell index machine = .ok word machine ∧
      cell index (machine.widened size) = .ok word (machine.widened size) := by
  obtain ⟨index, rfl⟩ := Int.eq_ofNat_of_zero_le inside.1
  obtain ⟨within, withinWide⟩ := fits.lt_size inside.2
  have same : (machine.widened size).memory.getD index 0 = machine.memory.getD index 0 := by
    rw [Machine.widened, Array.getD_eq_getD_getElem?, Array.getD_eq_getD_getElem?, Array.getElem?_append_left within]
  refine ⟨machine.memory.getD index 0, ?_, ?_⟩
  · rw [cell, get_bind_run, slot?_of_lt within]
    rfl
  · rw [cell, get_bind_run, slot?_of_lt withinWide, ← same]
    rfl

/-- What is written to a word of the stack is not written to what is in addition. -/
theorem setCell_widened (fits : machine.Fits size) {index : Int} (inside : 0 ≤ index ∧ index < machine.stackSize)
    (value : Int) : ∃ memory, setCell index value machine = .ok () { machine with memory } ∧
      setCell index value (machine.widened size) = .ok () (Machine.widened size { machine with memory }) ∧
      Machine.Fits size { machine with memory } := by
  obtain ⟨index, rfl⟩ := Int.eq_ofNat_of_zero_le inside.1
  obtain ⟨within, withinWide⟩ := fits.lt_size inside.2
  refine ⟨_, setCell_run within value, (setCell_run withinWide value).trans ?_, { fits with size_memory := ?_ }⟩
  · simp only [Machine.widened, Array.setIfInBounds_append_left within]
  · rw [Array.size_setIfInBounds, fits.size_memory]

namespace Fitting

theorem read (address : Int) : Fitting size (read address) := by
  rintro machine _ ⟨fits, rfl⟩
  rw [MachineM.read, get_bind_run, get_bind_run]
  refine .of_inside (.inr rfl) (fun inside => ?_) fun inside => ?_
  · have le := fits.stackSize_le
    show 0 ≤ address ∧ address < (size : Int)
    omega
  · obtain ⟨word, held, alsoHeld⟩ := cell_widened fits inside
    rw [held, alsoHeld]
    exact ⟨_, rfl, fits, rfl⟩

theorem write (address value : Int) : Fitting size (write address value) := by
  rintro machine _ ⟨fits, rfl⟩
  rw [MachineM.write, get_bind_run, get_bind_run]
  refine .of_inside (.inr rfl) (fun inside => ?_) fun inside => ?_
  · have le := fits.stackSize_le
    show 0 ≤ address ∧ address < (size : Int)
    omega
  · obtain ⟨memory, written, alsoWritten, further⟩ := setCell_widened fits inside value
    rw [written, alsoWritten]
    exact ⟨_, rfl, further, rfl⟩

theorem push (value : Int) : Fitting size (push value) := by
  rintro machine _ ⟨fits, rfl⟩
  obtain ⟨lower, upper⟩ := fits.top
  rw [MachineM.push, get_bind_run, get_bind_run]
  refine .of_check (.inl rfl) (fun full => ?_) fun room => ?_
  · have le := fits.stackSize_le
    change (size : Int) ≤ machine.sp + 1 at full
    omega
  · have inside : 0 ≤ machine.sp + 1 ∧ machine.sp + 1 < machine.stackSize := by omega
    have raised : Machine.Fits size { machine with sp := machine.sp + 1 } :=
      { fits with top := ⟨by show -1 ≤ machine.sp + 1; omega, inside.2⟩ }
    obtain ⟨memory, pushed, alsoPushed, further⟩ := setCell_widened raised inside value
    rw [modify_bind_run, modify_bind_run, pushed]
    exact ⟨_, alsoPushed, further, rfl⟩

theorem pop : Fitting size pop := by
  rintro machine _ ⟨fits, rfl⟩
  obtain ⟨lower, upper⟩ := fits.top
  rw [MachineM.pop, get_bind_run, get_bind_run]
  by_cases empty : machine.sp < 0
  · have alsoEmpty : (machine.widened size).sp < 0 := empty
    rw [if_pos empty, if_pos alsoEmpty]
    exact .inr ⟨_, rfl, fits, rfl⟩
  · have some : ¬ (machine.widened size).sp < 0 := empty
    obtain ⟨word, held, alsoHeld⟩ := cell_widened fits ⟨Int.not_lt.mp empty, upper⟩
    have lowered : Machine.Fits size { machine with sp := machine.sp - 1 } :=
      { fits with top := ⟨by show -1 ≤ machine.sp - 1; omega, by show machine.sp - 1 < machine.stackSize; omega⟩ }
    rw [if_neg empty, if_neg some, bind_run held]
    exact ⟨_, bind_run alsoHeld, lowered, rfl⟩

theorem setTop (sp : Int) : Fitting size (setTop sp) := by
  rintro machine _ ⟨fits, rfl⟩
  rw [MachineM.setTop, get_bind_run, get_bind_run]
  refine .of_check (.inl rfl) (fun full => ?_) fun room => ?_
  · have le := fits.stackSize_le
    change (size : Int) ≤ sp at full
    omega
  · by_cases below : sp < -1
    · rw [if_pos below]
      exact .inr ⟨_, rfl, fits, rfl⟩
    · rw [if_neg below]
      exact ⟨_, rfl, { fits with top := ⟨Int.not_lt.mp below, Int.not_le.mp room⟩ }, rfl⟩

/-- The words of a new frame lie on the smaller stack. -/
theorem call (distance : Nat) (entry : Int) : Fitting size (call distance entry) := by
  have links : Fitting size (base distance) := .base read (by rintro machine _ ⟨-, rfl⟩; rfl) distance
  rintro machine _ ⟨fits, rfl⟩
  obtain ⟨lower, upper⟩ := fits.top
  rw [MachineM.call, get_bind_run, get_bind_run]
  refine .of_check (.inl rfl) (fun full => ?_) fun room => ?_
  · have le := fits.stackSize_le
    change (size : Int) ≤ machine.sp + frameSize at full
    omega
  · have inside : ∀ offset : Int, 0 ≤ offset → offset < frameSize →
        0 ≤ machine.sp + 1 + offset ∧ machine.sp + 1 + offset < machine.stackSize := by
      intro offset lower upper
      omega
    -- Only looking up the link can fault here. The four words are written to the smaller stack in any case.
    refine Follows.bind_of_keeps (links machine _ ⟨fits, rfl⟩) (.of_base distance) fun link => ?_
    obtain ⟨first, linked, alsoLinked, fits⟩ :=
      setCell_widened fits (inside staticLink (by decide) (by decide)) link
    obtain ⟨second, saved, alsoSaved, fits⟩ :=
      setCell_widened fits (inside savedBase (by decide) (by decide)) machine.bp
    obtain ⟨third, noted, alsoNoted, fits⟩ :=
      setCell_widened fits (inside returnAddress (by decide) (by decide)) machine.pc
    obtain ⟨fourth, cleared, alsoCleared, fits⟩ :=
      setCell_widened fits (inside resultSlot (by decide) (by decide)) 0
    rw [bind_run linked, bind_run saved, bind_run noted, bind_run cleared]
    refine ⟨_, (bind_run alsoLinked).trans ((bind_run alsoSaved).trans ((bind_run alsoNoted).trans
      (bind_run alsoCleared))), { fits with top := ?_ }, rfl⟩
    show -1 ≤ machine.sp + frameSize ∧ machine.sp + frameSize < machine.stackSize
    omega

end Fitting

theorem isWidened_simulation (size : Nat) : Simulation (IsWidened size) FaultCause.IsAboutRoom where
  registers := by
    rintro machine _ ⟨-, rfl⟩
    rfl
  control := by
    rintro machine _ ⟨fits, rfl⟩ pc bp
    exact ⟨{ fits with }, rfl⟩
  written := by
    rintro machine _ ⟨fits, rfl⟩ lastWrite
    exact ⟨{ fits with }, rfl⟩
  fetched := by
    rintro machine _ ⟨fits, rfl⟩ instruction
    exact ⟨{ fits with }, rfl⟩
  read := Fitting.read
  write := Fitting.write
  push := Fitting.push
  pop := Fitting.pop
  setTop := Fitting.setTop
  call := Fitting.call

/-- So many steps, whether they lead to address zero or not. -/
def steps : Nat → MachineM Unit
  | 0 => pure ()
  | count + 1 => do
    step
    steps count

theorem step_widened : Fitting size step := by
  rintro machine _ ⟨fits, rfl⟩
  exact (isWidened_simulation size).step ⟨fits, rfl⟩ rfl

theorem keeps_steps {field : Machine → γ} (lasting : Lasting field) (count : Nat) : Keeps field (steps count) := by
  induction count with
  | zero => exact .of_pure ()
  | succ count ih => exact lasting.step.bind fun _ => ih

theorem lasting_stackSize : Lasting Machine.stackSize where
  memory _ _ := rfl
  top _ _ := rfl
  control _ _ _ _ := rfl
  lastWrite _ _ := rfl
  fetched _ _ _ _ := rfl

theorem steps_widened (count : Nat) : Fitting size (steps count) := by
  induction count with
  | zero => exact .of_pure _
  | succ count ih => exact step_widened.bind fun _ => ih

end MachineM

namespace Machine

variable {small large : Machine}

theorem fits_load (enough : frameSize ≤ small.stackSize) (le : small.stackSize ≤ large.stackSize)
    (code : Array Instruction) : (small.load code).Fits large.stackSize where
  stackSize_le := le
  size_memory := by
    rw [memory_load, Array.size_replicate]
    rfl
  top := by
    show -1 ≤ (frameSize - 1 : Int) ∧ (frameSize - 1 : Int) < small.stackSize
    omega

/-- A machine with a larger stack is loaded as the widened one. -/
theorem load_widened (le : small.stackSize ≤ large.stackSize) (sameLimit : large.cycleLimit = small.cycleLimit)
    (code : Array Instruction) : large.load code = (small.load code).widened large.stackSize := by
  have memory : (large.load code).memory = ((small.load code).widened large.stackSize).memory := by
    show _ = (small.load code).memory ++ Array.replicate (large.stackSize - small.stackSize) 0
    rw [memory_load, memory_load, Array.replicate_append_replicate, Nat.add_sub_cancel' le]
  calc large.load code
    _ = { small.load code with stackSize := large.stackSize, memory := (large.load code).memory } := by
      simp only [load, reset, sameLimit]
    _ = (small.load code).widened large.stackSize := by
      rw [memory]
      rfl

/-- The words of a widened stack: those of the smaller one, and zeros. -/
theorem word?_widened {size : Nat} {machine : Machine} (fits : machine.Fits size) :
    (∀ address < machine.stackSize, (machine.widened size).word? address = machine.word? address) ∧
      ∀ address, machine.stackSize ≤ address → address < size → (machine.widened size).word? address = some 0 := by
  refine ⟨fun address below => ?_, fun address above below => ?_⟩
  · exact Array.getElem?_append_left (fits.size_memory.symm ▸ below)
  · rw [word?, widened, Array.getElem?_append_right (fits.size_memory.symm ▸ above), Array.getElem?_replicate,
      if_pos (by rw [fits.size_memory]; omega)]

end Machine

def dividingCode : Array Instruction :=
  #[.of .pushConst 0 7, .of .pushConst 0 0, .of (.binary .div)]

end PLZero
