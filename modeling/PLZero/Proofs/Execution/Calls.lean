import PLZero.Proofs.Execution.Moments
import PLZero.Proofs.Execution.Standing

namespace PLZero

/-- Why a run of a program can end early: the stack or the number of cycles is limited, or a division is by zero. -/
def Fault.IsExpected (fault : Fault) : Prop :=
  fault.cause = .overflow ∨ fault.cause = .divisionByZero ∨ ∃ limit, fault.cause = .cycleLimit limit

namespace Machine

/-- What the next instruction asks for. -/
def operation? (machine : Machine) : Option Operation :=
  machine.instruction?.map (·.operation)

/-- The calls of a run that have not returned within so many steps, each told by the number of its step, the last one in
front. -/
def pendingCalls (start : Machine) : Nat → List Nat
  | 0 => []
  | n + 1 =>
    match start.resume n with
    | .running machine =>
      match machine.operation? with
      | some (.named .call) => n :: start.pendingCalls n
      | some (.named .ret) | some (.named .retf) => (start.pendingCalls n).tail
      | _ => start.pendingCalls n
    | _ => start.pendingCalls n

/-- A frame that is on the stack after so many steps, for an activation of the first of the given blocks: the frame of the
main program, or one that a call which is pending has pushed. -/
inductive Activates (tree : Block) (start : Machine) (n : Nat) : List Site → Nat → Prop
  | main : Activates tree start n [.main tree] 0
  | call {step base : Nat} {machine : Machine} {instruction : Instruction} {site : Site} {outer : List Site} :
      step ∈ start.pendingCalls n → start.resume step = .running machine →
      machine.instruction? = some instruction → tree.Path (site :: outer) →
      instruction.value = site.start ∨ instruction.value = site.entry → machine.sp + 1 = base →
      Activates tree start n (site :: outer) base

/-- A frame that is reached from the current one by the saved bases. -/
inductive Live (machine : Machine) : Nat → Prop
  | current {base : Nat} : machine.bp = base → Live machine base
  | caller {frame base : Nat} : Live machine frame → machine.memory[frame + 1]? = some (base : Int) → Live machine base

/-- The call by which an activation was begun, and what the machine was like just before and just after it. -/
structure Begun (tree : Block) (start : Machine) (callee : Activation) (caller : Waiting) (callers : List Waiting)
    (before : Machine) (instruction : Instruction) (made : Machine) (s : Snapshot) : Prop where
  ran : start.resume caller.step = .running before
  fetched : before.instruction? = some instruction
  calling : instruction.operation = .named .call
  value_eq : instruction.value = callee.site.start ∨ instruction.value = callee.site.entry
  bp_eq : before.bp = caller.base
  owns : ∃ pc : Nat, before.pc = pc ∧ caller.site.Owns pc
  pc_eq : before.pc + 1 = caller.back
  sp_eq : before.sp + 1 = callee.base
  next : start.resume (caller.step + 1) = .running made
  shown : made.Shows s
  standing : Standing tree s callee (caller :: callers)

/-- Each activation but that of the main program was begun by a call of the run. -/
inductive History (tree : Block) (start : Machine) : Activation → List Waiting → Prop
  | main {current : Activation} : History tree start current []
  | call {callee : Activation} {caller : Waiting} {callers : List Waiting} {before made : Machine}
      {instruction : Instruction} {s : Snapshot} : History tree start caller.toActivation callers →
      Begun tree start callee caller callers before instruction made s →
      History tree start callee (caller :: callers)

/-- After so many steps the run goes on, and activations that were begun by the pending calls account for the stack. -/
structure Stands (tree : Block) (start : Machine) (n : Nat) (machine : Machine) (s : Snapshot) (current : Activation)
    (callers : List Waiting) : Prop where
  ran : start.resume n = .running machine
  shown : machine.Shows s
  size_eq : s.size = start.stackSize
  standing : Standing tree s current callers
  calls_eq : start.pendingCalls n = callers.map (·.step)
  history : History tree start current callers

variable {tree : Block} {start machine after : Machine} {n : Nat} {s : Snapshot} {current : Activation}
  {callers : List Waiting} {instruction : Instruction}

section

variable (ran : start.resume n = .running machine) (fetched : machine.instruction? = some instruction)
include ran fetched

theorem pendingCalls_call (calling : instruction.operation = .named .call) :
    start.pendingCalls (n + 1) = n :: start.pendingCalls n := by
  simp only [pendingCalls, ran, operation?, fetched, Option.map_some, calling]

theorem pendingCalls_return (returning : instruction.operation = .named .ret ∨ instruction.operation = .named .retf) :
    start.pendingCalls (n + 1) = (start.pendingCalls n).tail := by
  rcases returning with returning | returning <;>
    simp only [pendingCalls, ran, operation?, fetched, Option.map_some, returning]

theorem pendingCalls_plain (noCall : instruction.operation ≠ .named .call)
    (noRet : instruction.operation ≠ .named .ret) (noRetf : instruction.operation ≠ .named .retf) :
    start.pendingCalls (n + 1) = start.pendingCalls n := by
  simp only [pendingCalls, ran, operation?, fetched, Option.map_some]
  split <;> simp_all

end

theorem memory_load (machine : Machine) (code : Array Instruction) :
    (machine.load code).memory = Array.replicate machine.stackSize 0 := by
  simp [load, reset, frameSize, List.range_succ]

/-- The machine that has just been loaded. -/
theorem shows_load (code : Array Instruction) (large : frameSize ≤ machine.stackSize) :
    (machine.load code).Shows ⟨code.toList, machine.stackSize, 0, 0, [0, 0, 0, 0]⟩ := by
  have memory := machine.memory_load code
  obtain ⟨rest, split⟩ := Nat.exists_eq_add_of_le large
  refine ⟨rfl, rfl, ?_, rfl, rfl, rfl, ?_⟩
  · rw [memory, Array.size_replicate]
  · rw [memory, Array.toList_replicate, split]
    exact ⟨List.replicate rest 0, by rw [frameSize, ← List.replicate_append_replicate]; rfl⟩

/-- A run begins with the activation of the main program. -/
theorem stands_load {code : Array Instruction} (program : code.toList = tree.program)
    (large : frameSize ≤ machine.stackSize) :
    Stands tree (machine.load code) 0 (machine.load code) ⟨code.toList, machine.stackSize, 0, 0, [0, 0, 0, 0]⟩
      ⟨.main tree, [], 0, 0⟩ [] where
  ran := rfl
  shown := shows_load code large
  size_eq := rfl
  standing := ⟨program, rfl, .called (.main rfl rfl rfl) (.inl rfl) rfl⟩
  calls_eq := rfl
  history := .main

namespace Stands

theorem owns (stands : Stands tree start n machine s current callers) : current.site.Owns s.pc := by
  cases stands.standing.point with
  | called _ atFront => exact Site.owns_of_called atFront
  | within shaped => exact shaped.owns

theorem instruction?_eq (stands : Stands tree start n machine s current callers) :
    machine.instruction? = tree.program[s.pc]? := by
  rw [stands.shown.instruction?_eq, stands.standing.code_eq]

theorem pc_lt (stands : Stands tree start n machine s current callers) : s.pc < tree.program.length := by
  have path := stands.standing.path
  have inside := stands.owns.covers.2
  have last := (List.getElem?_eq_some_iff.mp path.code_last).1
  omega

/-- Unless the cycles are used up, the next step overflows the stack or divides by zero, or it does what the activations
expect. -/
theorem step_of_lasting (stands : Stands tree start n machine s current callers) (formed : tree.IsProgram)
    (lasting : machine.exhausted? = none) :
    (∃ fault after, MachineM.step machine = .error fault after ∧
        (fault.cause = .overflow ∨ fault.cause = .divisionByZero)) ∨
      ∃ instruction after s', machine.instruction? = some instruction ∧ MachineM.step machine = .ok () after ∧
        after.Shows s' ∧ s'.size = s.size ∧ Follows tree n s current callers instruction s' := by
  obtain ⟨instruction, fetched, proceeds⟩ := stands.standing.next formed n
  have found : machine.instruction? = some instruction := stands.instruction?_eq.trans fetched
  have stepped := step_of_instruction? lasting found
  have followed := proceeds _ (stands.shown.ahead instruction)
  simp only [MachineM.Proceeds, ← stepped] at followed
  cases ran : MachineM.step machine with
  | error fault after =>
    rw [ran] at followed
    exact .inl ⟨fault, after, rfl, followed⟩
  | ok result after =>
    rw [ran] at followed
    obtain ⟨s', shows, size, follows⟩ := followed
    exact .inr ⟨instruction, after, s', found, rfl, shows, size, follows⟩

/-- The next step faults as is to be expected, or it does what the activations expect. -/
theorem step (stands : Stands tree start n machine s current callers) (formed : tree.IsProgram) :
    (∃ fault after, MachineM.step machine = .error fault after ∧ fault.IsExpected) ∨
      ∃ instruction after s', machine.instruction? = some instruction ∧ MachineM.step machine = .ok () after ∧
        after.Shows s' ∧ s'.size = s.size ∧ Follows tree n s current callers instruction s' := by
  cases exhausted : machine.exhausted? with
  | some limit => exact .inl ⟨_, _, step_exhausted exhausted, .inr (.inr ⟨limit, rfl⟩)⟩
  | none =>
    refine (stands.step_of_lasting formed exhausted).imp_left ?_
    rintro ⟨fault, after, failed, cause⟩
    exact ⟨fault, after, failed, cause.imp_right .inl⟩

section

variable {s' : Snapshot} (stands : Stands tree start n machine s current callers)
  (fetched : machine.instruction? = some instruction) (stepped : MachineM.step machine = .ok () after)
  (shows : after.Shows s')
include stands fetched stepped shows

omit fetched in
theorem goesOn (more : s'.pc ≠ 0) : start.resume (n + 1) = .running after := by
  rw [resume_one stands.ran stepped, if_neg]
  rw [shows.pc_eq]
  omega

variable (size : s'.size = s.size) (more : s'.pc ≠ 0)
include size more

theorem stays (noCall : instruction.operation ≠ .named .call) (noRet : instruction.operation ≠ .named .ret)
    (noRetf : instruction.operation ≠ .named .retf) (standing : Standing tree s' current callers) :
    Stands tree start (n + 1) after s' current callers := by
  refine ⟨stands.goesOn stepped shows more, shows, size.trans stands.size_eq, standing, ?_, stands.history⟩
  rw [pendingCalls_plain stands.ran fetched noCall noRet noRetf, stands.calls_eq]

theorem calls {callee : Activation} {count : Nat} (calling : instruction.operation = .named .call)
    (value : instruction.value = s'.pc) (atFront : s'.pc = callee.site.start ∨ s'.pc = callee.site.entry)
    (base : callee.base = s.words.length)
    (standing : Standing tree s' callee (⟨current, s.pc + 1, count, n⟩ :: callers)) :
    Stands tree start (n + 1) after s' callee (⟨current, s.pc + 1, count, n⟩ :: callers) := by
  have goesOn := stands.goesOn stepped shows more
  refine ⟨goesOn, shows, size.trans stands.size_eq, standing, ?_, .call stands.history
    ⟨stands.ran, fetched, calling, ?_, ?_, ⟨s.pc, stands.shown.pc_eq, stands.owns⟩, ?_, ?_, goesOn, shows, standing⟩⟩
  · rw [pendingCalls_call stands.ran fetched calling, stands.calls_eq]
    rfl
  · exact value ▸ atFront.imp (congrArg _) (congrArg _)
  · rw [stands.shown.bp_eq, stands.standing.bp_eq]
  · exact congrArg (· + 1) stands.shown.pc_eq
  · rw [stands.shown.sp_succ, base]

theorem returns {caller : Waiting} {rest : List Waiting} (spelled : callers = caller :: rest)
    (returning : instruction = Block.returnInstruction current.site.owner)
    (standing : Standing tree s' caller.toActivation rest) :
    Stands tree start (n + 1) after s' caller.toActivation rest := by
  subst spelled
  cases stands.history with
  | call earlier begun =>
    refine ⟨stands.goesOn stepped shows more, shows, size.trans stands.size_eq, standing, ?_, earlier⟩
    have isReturn : instruction.operation = .named .ret ∨ instruction.operation = .named .retf := by
      rcases current.site.return_cases with ⟨-, leaves⟩ | ⟨-, leaves⟩
      · exact .inl (by rw [returning, leaves]; rfl)
      · exact .inr (by rw [returning, leaves]; rfl)
    rw [pendingCalls_return stands.ran fetched isReturn, stands.calls_eq, List.map_cons, List.tail_cons]

end

/-- What follows a step stands again, unless the main program has returned. -/
theorem follows {s' : Snapshot} (stands : Stands tree start n machine s current callers)
    (fetched : machine.instruction? = some instruction) (stepped : MachineM.step machine = .ok () after)
    (shows : after.Shows s') (size : s'.size = s.size) (follows : Follows tree n s current callers instruction s') :
    (∃ active waiting, Stands tree start (n + 1) after s' active waiting) ∨
      start.resume (n + 1) = .halted after ∧ s'.pc = 0 := by
  cases follows with
  | stays noCall noRet noRetf more standing =>
    exact .inl ⟨_, _, stands.stays fetched stepped shows size more noCall noRet noRetf standing⟩
  | calls calling more value atFront base _ standing =>
    exact .inl ⟨_, _, stands.calls fetched stepped shows size more calling value atFront base standing⟩
  | returns spelled returning more _ _ _ standing =>
    exact .inl ⟨_, _, stands.returns fetched stepped shows size more spelled returning standing⟩
  | halts _ _ _ _ _ atZero =>
    refine .inr ⟨?_, atZero⟩
    rw [resume_one stands.ran stepped, if_pos]
    rw [shows.pc_eq, atZero]
    rfl

end Stands

/-- What a machine does in a step that does not fault, it does when it has fetched the instruction. -/
theorem execute_of_step (fetched : machine.instruction? = some instruction)
    (stepped : MachineM.step machine = .ok () after) :
    MachineM.execute instruction
      { machine with ir := some instruction, pc := machine.pc + 1, cycles := machine.cycles + 1 } = .ok () after := by
  cases exhausted : machine.exhausted? with
  | some limit => cases (step_exhausted exhausted).symm.trans stepped
  | none => exact (step_of_instruction? exhausted fetched).symm.trans stepped

/-- A run that goes on has gone on before. -/
theorem running_of_succ (ran : start.resume (n + 1) = .running after) :
    ∃ machine, start.resume n = .running machine ∧ MachineM.step machine = .ok () after ∧ after.pc ≠ 0 := by
  cases before : start.resume n with
  | running machine =>
    refine ⟨machine, rfl, ?_⟩
    cases stepped : MachineM.step machine with
    | error fault reached =>
      rw [resume_fault before stepped] at ran
      cases ran
    | ok result reached =>
      rw [resume_one before stepped] at ran
      split at ran
      · cases ran
      · next more =>
        cases ran
        exact ⟨rfl, more⟩
  | halted machine | faulted fault machine =>
    rw [resume_of_isOver (by rw [before]; rfl), before] at ran
    cases ran

/-- What the step does that leads on. -/
theorem Stands.step_of_running (stands : Stands tree start n machine s current callers) (formed : tree.IsProgram)
    (next : start.resume (n + 1) = .running after) :
    MachineM.step machine = .ok () after ∧ ∃ instruction s', machine.instruction? = some instruction ∧
      after.Shows s' ∧ s'.size = s.size ∧ Follows tree n s current callers instruction s' := by
  obtain ⟨before, ran, stepped, -⟩ := running_of_succ next
  cases stands.ran.symm.trans ran
  rcases stands.step formed with ⟨fault, reached, failed, -⟩ |
    ⟨instruction, reached, s', fetched, done, shows, size, follows⟩
  · cases stepped.symm.trans failed
  · cases stepped.symm.trans done
    exact ⟨stepped, instruction, s', fetched, shows, size, follows⟩

/-- As long as it goes on, a run of a program stands. -/
theorem stands_of_running {code : Array Instruction} (formed : tree.IsProgram) (program : code.toList = tree.program)
    (large : frameSize ≤ machine.stackSize) (ran : (machine.load code).resume n = .running after) :
    ∃ s current callers, Stands tree (machine.load code) n after s current callers := by
  induction n generalizing after with
  | zero =>
    cases ran
    exact ⟨_, _, _, stands_load program large⟩
  | succ n ih =>
    obtain ⟨before, ranBefore, -, more⟩ := running_of_succ ran
    obtain ⟨s, current, callers, stands⟩ := ih ranBefore
    obtain ⟨stepped, instruction, s', fetched, shows, size, follows⟩ := stands.step_of_running formed ran
    rcases stands.follows fetched stepped shows size follows with ⟨active, waiting, next⟩ | ⟨-, atZero⟩
    · exact ⟨s', active, waiting, next⟩
    · exact absurd (by rw [shows.pc_eq, atZero]; rfl) more

end Machine

end PLZero
