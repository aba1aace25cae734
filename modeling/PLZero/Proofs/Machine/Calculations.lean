import PLZero.Proofs.Machine.BiggerStack
import PLZero.Proofs.Machine.Faulting

/-!
Calculations with constants: what the machine does when constants are pushed one after another and an operator takes
them. Nothing is asked of the frames, so any machine with room for the constants will do.
-/

namespace PLZero

namespace Machine

/-- The instructions that come next stand one behind another, and the cycles last for them. -/
structure Faces (machine : Machine) (instructions : List Instruction) : Prop where
  pc_nonneg : 0 ≤ machine.pc
  codeAt : CodeAt machine.code.toList machine.pc.toNat instructions
  lasting : ∀ limit ∈ machine.cycleLimit, machine.cycles + instructions.length ≤ limit

/-- There is one more word on the stack, and those below it are as before. -/
structure Gains (machine : Machine) (value : Int) (after : Machine) : Prop where
  sp_eq : after.sp = machine.sp + 1
  top_eq : after.word? after.sp.toNat = some value
  below : ∀ address : Nat, (address : Int) ≤ machine.sp → after.word? address = machine.word? address

/-- The machine when it has fetched an instruction. -/
def fetched (machine : Machine) (instruction : Instruction) : Machine :=
  { machine with ir := some instruction, pc := machine.pc + 1, cycles := machine.cycles + 1 }

/-- The machine with one more word on the stack. -/
def pushed (machine : Machine) (value : Int) : Machine :=
  { machine with
    sp := machine.sp + 1
    memory := machine.memory.setIfInBounds (machine.sp + 1).toNat value }

variable {machine : Machine} {instruction : Instruction} {rest : List Instruction} {value : Int}

theorem Faces.step_eq (faces : machine.Faces (instruction :: rest)) :
    MachineM.step machine = MachineM.execute instruction (machine.fetched instruction) := by
  obtain ⟨pc_nonneg, codeAt, lasting⟩ := faces
  refine step_of_instruction? ?_ ?_
  · rw [exhausted?, Option.filter_eq_none_iff]
    intro limit isLimit
    have := lasting limit isLimit
    rw [List.length_cons] at this
    simp only [decide_eq_true_eq]
    omega
  · rw [instruction?, if_pos pc_nonneg, ← Array.getElem?_toList]
    exact codeAt.head

/-- What the instruction does to the stack is no matter for the others. -/
theorem Faces.pushed (faces : machine.Faces (instruction :: rest)) (value : Int) :
    ((machine.fetched instruction).pushed value).Faces rest := by
  obtain ⟨pc_nonneg, codeAt, lasting⟩ := faces
  refine ⟨Int.le_add_one pc_nonneg, ?_, fun limit isLimit => ?_⟩
  · show CodeAt machine.code.toList (machine.pc + 1).toNat rest
    rw [Int.toNat_add pc_nonneg (by decide)]
    exact codeAt.tail
  · have := lasting limit isLimit
    rw [List.length_cons] at this
    show ((machine.cycles + 1 : Nat) : Int) + rest.length ≤ limit
    omega

theorem Bounded.fetched (bounded : machine.Bounded) (instruction : Instruction) :
    (machine.fetched instruction).Bounded :=
  ⟨bounded.size_memory, bounded.top⟩

theorem Bounded.pushed (bounded : machine.Bounded) (room : machine.sp + 1 < machine.stackSize) (value : Int) :
    (machine.pushed value).Bounded := by
  refine ⟨Array.size_setIfInBounds.trans bounded.size_memory, ?_, room⟩
  have := bounded.top.1
  show -1 ≤ machine.sp + 1
  omega

theorem Bounded.push_run (bounded : machine.Bounded) (room : machine.sp + 1 < machine.stackSize) (value : Int) :
    MachineM.push value machine = .ok () (machine.pushed value) := by
  have lower := bounded.top.1
  have raised : Bounded { machine with sp := machine.sp + 1 } :=
    ⟨bounded.size_memory, show -1 ≤ machine.sp + 1 by omega, room⟩
  rw [MachineM.push, MachineM.get_bind_run, if_neg (Int.not_le.mpr room)]
  exact MachineM.setCell_run_of_bounded raised ⟨by omega, room⟩ value

/-- The word on top is taken, and its cell keeps it. -/
theorem Bounded.pop_run (bounded : machine.Bounded) (filled : 0 ≤ machine.sp)
    (top : machine.word? machine.sp.toNat = some value) :
    MachineM.pop machine = .ok value { machine with sp := machine.sp - 1 } := by
  obtain ⟨slot, atSlot⟩ := Int.eq_ofNat_of_zero_le filled
  have upper := bounded.top.2
  rw [atSlot, Int.toNat_natCast, word?] at top
  have held : MachineM.cell machine.sp machine = .ok value machine := by
    rw [MachineM.cell, MachineM.get_bind_run, atSlot, MachineM.slot?_of_lt (by have := bounded.size_memory; omega)]
    simp only [Array.getD_eq_getD_getElem?, top]
    rfl
  rw [MachineM.pop, MachineM.get_bind_run, if_neg (Int.not_lt.mpr filled)]
  exact MachineM.bind_run held

/-- Whatever was in the cells above the stack, it grows by one word. -/
theorem Bounded.gains {before : Machine} (bounded : machine.Bounded) (room : machine.sp + 1 < machine.stackSize)
    (sp_eq : machine.sp = before.sp)
    (kept : ∀ address : Nat, (address : Int) ≤ before.sp → machine.word? address = before.word? address)
    (value : Int) : before.Gains value (machine.pushed value) := by
  obtain ⟨size, lower, -⟩ := bounded
  refine ⟨congrArg (· + 1) sp_eq, ?_, fun address below => ?_⟩
  · show (machine.memory.setIfInBounds (machine.sp + 1).toNat value)[(machine.sp + 1).toNat]? = some value
    rw [Array.getElem?_setIfInBounds_self_of_lt (by omega)]
  · rw [← kept address below]
    exact Array.getElem?_setIfInBounds_ne (by omega)

/-- The machine with the word on top taken. -/
def popped (machine : Machine) : Machine :=
  { machine with sp := machine.sp - 1 }

theorem Bounded.popped (bounded : machine.Bounded) (filled : 0 ≤ machine.sp) : machine.popped.Bounded := by
  refine ⟨bounded.size_memory, show -1 ≤ machine.sp - 1 by omega, ?_⟩
  have := bounded.top.2
  show machine.sp - 1 < machine.stackSize
  omega

section Operators

variable {before middle : Machine} {a b : Int}

/-- An operator in front of an operand puts its result in the place of the operand. -/
theorem Gains.execute_unary (gains : before.Gains a machine) (lower : -1 ≤ before.sp) (bounded : machine.Bounded)
    (op : UnaryOp) :
    ∃ after, MachineM.execute (.of (.unary op)) machine = .ok () after ∧ before.Gains (op.apply a) after := by
  obtain ⟨sp_eq, top_eq, below⟩ := gains
  have upper := bounded.top.2
  have filled : 0 ≤ machine.sp := by omega
  have room : machine.popped.sp + 1 < machine.stackSize := show machine.sp - 1 + 1 < machine.stackSize by omega
  have lowered := bounded.popped filled
  exact ⟨_, (MachineM.bind_run (bounded.pop_run filled top_eq)).trans (lowered.push_run room _),
    lowered.gains room (show machine.sp - 1 = before.sp by omega) below _⟩

/-- Of the operands of an operator the second one is on top. Its result stands where the first one has been. -/
theorem Gains.execute_binary (first : before.Gains a middle) (second : middle.Gains b machine) (lower : -1 ≤ before.sp)
    (bounded : machine.Bounded) (op : BinaryOp) :
    match op.apply? a b with
    | some value => ∃ after, MachineM.execute (.of (.binary op)) machine = .ok () after ∧ before.Gains value after
    | none => ∃ after,
      MachineM.execute (.of (.binary op)) machine = .error ⟨.divisionByZero, after.registers⟩ after := by
  have atFirst := first.sp_eq
  have atSecond := second.sp_eq
  have upper := bounded.top.2
  have filled : 0 ≤ machine.sp := by omega
  have stillFilled : 0 ≤ machine.popped.sp := show 0 ≤ machine.sp - 1 by omega
  have between : machine.popped.sp = middle.sp := show machine.sp - 1 = middle.sp by omega
  have top : machine.popped.word? machine.popped.sp.toNat = some a := by
    rw [between, ← first.top_eq]
    exact second.below _ (by omega)
  have lowered := (bounded.popped filled).popped stillFilled
  have popping (next : Int → Int → MachineM Unit) :
      (do next (← MachineM.pop) (← MachineM.pop)) machine = next b a machine.popped.popped :=
    (MachineM.bind_run (bounded.pop_run filled second.top_eq)).trans
      (MachineM.bind_run ((bounded.popped filled).pop_run stillFilled top))
  split
  · next value applied =>
    have room : machine.popped.popped.sp + 1 < machine.stackSize :=
      show machine.sp - 1 - 1 + 1 < machine.stackSize by omega
    refine ⟨_, ?_, lowered.gains room (show machine.sp - 1 - 1 = before.sp by omega) (fun address below => ?_) value⟩
    · refine (popping fun b a => _).trans ?_
      simp only [applied]
      exact lowered.push_run room value
    · rw [← first.below address below]
      exact second.below address (by omega)
  · next applied =>
    refine ⟨machine.popped.popped, (popping fun b a => _).trans ?_⟩
    simp only [applied]
    rfl

/-- To fetch an instruction does not touch the stack. -/
theorem Gains.fetched (gains : before.Gains value machine) (instruction : Instruction) :
    before.Gains value (machine.fetched instruction) :=
  ⟨gains.sp_eq, gains.top_eq, gains.below⟩

/-- The machine when a constant has been pushed. -/
def loaded (machine : Machine) (value : Int) : Machine :=
  (machine.fetched (.of .pushConst 0 value)).pushed value

theorem step_loads (faces : machine.Faces (.of .pushConst 0 value :: rest)) (bounded : machine.Bounded)
    (room : machine.sp + 1 < machine.stackSize) :
    MachineM.step machine = .ok () (machine.loaded value) ∧ (machine.loaded value).Bounded ∧
      machine.Gains value (machine.loaded value) := by
  have ahead := bounded.fetched (.of .pushConst 0 value)
  exact ⟨faces.step_eq.trans (ahead.push_run room value), ahead.pushed room value,
    ahead.gains room (show machine.sp = machine.sp from rfl) (fun _ _ => rfl) value⟩

/-- A constant and an operator. -/
theorem steps_unary {op : UnaryOp} (faces : machine.Faces [.of .pushConst 0 a, .of (.unary op)])
    (bounded : machine.Bounded) (room : machine.sp + 1 < machine.stackSize) :
    ∃ after, MachineM.steps 2 machine = .ok () after ∧ machine.Gains (op.apply a) after := by
  obtain ⟨ran, still, gains⟩ := step_loads faces bounded room
  obtain ⟨after, executed, gained⟩ :=
    (gains.fetched (.of (.unary op))).execute_unary bounded.top.1 (still.fetched _) op
  exact ⟨after, (MachineM.bind_run ran).trans (MachineM.bind_run ((faces.pushed a).step_eq.trans executed)), gained⟩

/-- Two constants and an operator. Where it has no result, the third step fails. -/
theorem steps_binary {op : BinaryOp}
    (faces : machine.Faces [.of .pushConst 0 a, .of .pushConst 0 b, .of (.binary op)]) (bounded : machine.Bounded)
    (room : machine.sp + 2 < machine.stackSize) :
    match op.apply? a b with
    | some value => ∃ after, MachineM.steps 3 machine = .ok () after ∧ machine.Gains value after
    | none => ∃ between after, MachineM.steps 2 machine = .ok () between ∧
      MachineM.step between = .error ⟨.divisionByZero, after.registers⟩ after := by
  obtain ⟨ranFirst, boundedFirst, first⟩ := step_loads faces bounded (by omega)
  have onward : (machine.loaded a).Faces [.of .pushConst 0 b, .of (.binary op)] := faces.pushed a
  obtain ⟨ranSecond, boundedSecond, second⟩ :=
    step_loads onward boundedFirst (show machine.sp + 1 + 1 < machine.stackSize by omega)
  have executed := first.execute_binary (second.fetched (.of (.binary op))) bounded.top.1 (boundedSecond.fetched _) op
  have stepped := (onward.pushed b).step_eq
  split
  · next value applied =>
    rw [applied] at executed
    obtain ⟨after, executed, gained⟩ := executed
    exact ⟨after, (MachineM.bind_run ranFirst).trans ((MachineM.bind_run ranSecond).trans
      (MachineM.bind_run (stepped.trans executed))), gained⟩
  · next applied =>
    rw [applied] at executed
    obtain ⟨after, executed⟩ := executed
    exact ⟨(machine.loaded a).loaded b, after, (MachineM.bind_run ranFirst).trans (MachineM.bind_run ranSecond),
      stepped.trans executed⟩

end Operators

theorem bounded_load (enough : frameSize ≤ machine.stackSize) (code : Array Instruction) :
    (machine.load code).Bounded := by
  have fits := fits_load enough (Nat.le_refl _) code
  exact ⟨fits.size_memory, fits.top⟩

/-- A machine that has been loaded is in front of the whole code. -/
theorem faces_load (unlimited : machine.cycleLimit = none) (code : Array Instruction) :
    (machine.load code).Faces code.toList := by
  refine ⟨Int.le_refl 0, .whole, fun limit isLimit => ?_⟩
  have none : (machine.load code).cycleLimit = .none := unlimited
  rw [none] at isLimit
  cases isLimit

end Machine

end PLZero
