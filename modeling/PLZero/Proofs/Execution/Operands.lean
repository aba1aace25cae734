import PLZero.Proofs.Machine.Faulting

namespace PLZero

namespace Machine

/-- After so many steps of a run the machine is seen so, and its cycles are not limited. -/
def Arrives (start : Machine) (n : Nat) (s : Snapshot) : Prop :=
  ∃ machine, start.resume n = .running machine ∧ machine.Shows s ∧ machine.cycleLimit = none

/-- The step behind so many ends in a fault of an instruction at an address, and the words are still on the stack. -/
def Breaks (start : Machine) (words : List Int) (cause : FaultCause) (n address : Nat) : Prop :=
  ∃ before fault after, start.resume n = .running before ∧ before.pc = address ∧
    start.resume (n + 1) = .faulted fault after ∧ fault.cause = cause ∧ words <+: after.memory.toList

variable {start machine : Machine} {s goal : Snapshot} {n distance : Nat} {instruction : Instruction}
  {words : List Int} {value : Int}

theorem Shows.bounded (shown : machine.Shows s) : machine.Bounded := by
  have length := shown.length_le
  refine ⟨shown.size_memory.trans shown.stackSize_eq.symm, ?_⟩
  rw [shown.sp_eq, shown.stackSize_eq]
  omega

/-- The place of a word on the stack is free when the word is gone. -/
theorem Shows.room (shown : machine.Shows s) (words_eq : s.words = words ++ [value]) : words.length < s.size := by
  have length := shown.length_le
  rw [words_eq, List.length_append] at length
  exact length

theorem Breaks.shorten {fewer : List Int} {cause : FaultCause} {address : Nat}
    (breaks : start.Breaks words cause n address) (shorter : fewer <+: words) :
    start.Breaks fewer cause n address := by
  obtain ⟨before, fault, after, ran, atAddress, faulted, same, kept⟩ := breaks
  exact ⟨before, fault, after, ran, atAddress, faulted, same, shorter.trans kept⟩

namespace Arrives

theorem step (arrives : start.Arrives n s) (fetched : s.code[s.pc]? = some instruction) :
    ∃ before ahead, start.resume n = .running before ∧ before.pc = s.pc ∧ ahead.Shows { s with pc := s.pc + 1 } ∧
      ahead.cycleLimit = none ∧ MachineM.step before = MachineM.execute instruction ahead := by
  obtain ⟨before, ran, shown, free⟩ := arrives
  have lasting : before.exhausted? = none := by
    rw [exhausted?, free]
    rfl
  exact ⟨before, _, ran, shown.pc_eq, shown.ahead instruction, free,
    step_of_instruction? lasting (shown.instruction?_eq.trans fetched)⟩

/-- An instruction that does not fault. -/
theorem next (arrives : start.Arrives n s) (fetched : s.code[s.pc]? = some instruction) (more : goal.pc ≠ 0)
    (does : ∀ ahead : Machine, ahead.Shows { s with pc := s.pc + 1 } →
      ∃ after, MachineM.execute instruction ahead = .ok () after ∧ after.Shows goal) :
    start.Arrives (n + 1) goal := by
  obtain ⟨before, ahead, ran, -, shown, free, stepped⟩ := arrives.step fetched
  obtain ⟨after, executed, reached⟩ := does ahead shown
  have elsewhere : after.pc ≠ 0 := by
    rw [reached.pc_eq]
    omega
  refine ⟨after, (resume_one ran (stepped.trans executed)).trans (if_neg elsewhere), reached, ?_⟩
  exact (MachineM.lasting_cycleLimit.execute instruction).of_ok executed |>.trans free

/-- An instruction that faults, and is not to return a result. -/
theorem breaks (arrives : start.Arrives n s) (fetched : s.code[s.pc]? = some instruction) {cause : FaultCause}
    (noRetf : instruction.operation.opcode? ≠ some .retf)
    (fails : ∀ ahead : Machine, ahead.Shows { s with pc := s.pc + 1 } →
      ∃ fault after, MachineM.execute instruction ahead = .error fault after ∧ fault.cause = cause) :
    start.Breaks s.words cause n s.pc := by
  obtain ⟨before, ahead, ran, atAddress, shown, -, stepped⟩ := arrives.step fetched
  obtain ⟨fault, after, failed, same⟩ := fails ahead shown
  refine ⟨before, fault, after, ran, atAddress, resume_fault ran (stepped.trans failed), same, ?_⟩
  obtain ⟨sp, -, kept, -⟩ := MachineM.Fails.execute shown.bounded noRetf fault after failed
  rw [kept]
  exact shown.words_prefix

theorem pushConst (arrives : start.Arrives n s) (fetched : s.code[s.pc]? = some (.of .pushConst distance value))
    (room : s.words.length < s.size) :
    start.Arrives (n + 1) { s with pc := s.pc + 1, words := s.words ++ [value] } :=
  arrives.next fetched (Nat.succ_ne_zero _) fun _ shown => MachineM.push_run shown room value

theorem pushConst_full (arrives : start.Arrives n s)
    (fetched : s.code[s.pc]? = some (.of .pushConst distance value)) (full : s.size ≤ s.words.length) :
    start.Breaks s.words .overflow n s.pc :=
  arrives.breaks fetched nofun fun ahead shown =>
    ⟨_, _, MachineM.push_of_full (by rw [shown.sp_succ, shown.stackSize_eq]; exact Int.ofNat_le.mpr full) value, rfl⟩

theorem pushVar (arrives : start.Arrives n s) (fetched : s.code[s.pc]? = some (.of .pushVar distance value))
    (small : distance ≤ maxLevel) {frame : Nat} (chain : MachineM.Chain s.words distance s.bp frame)
    (room : s.words.length < s.size) :
    start.Arrives (n + 1) { s with pc := s.pc + 1, words := s.words ++ [(frame : Int) + value] } :=
  arrives.next fetched (Nat.succ_ne_zero _) fun _ shown => by
    obtain ⟨after, pushed, reached⟩ := MachineM.push_run shown room ((frame : Int) + value)
    have atBase := MachineM.base_run shown chain
    rw [← MachineM.level_of .pushVar value small] at atBase
    exact ⟨after, (MachineM.bind_run atBase).trans pushed, reached⟩

theorem pushVar_full (arrives : start.Arrives n s) (fetched : s.code[s.pc]? = some (.of .pushVar distance value))
    (small : distance ≤ maxLevel) {frame : Nat} (chain : MachineM.Chain s.words distance s.bp frame)
    (full : s.size ≤ s.words.length) : start.Breaks s.words .overflow n s.pc :=
  arrives.breaks fetched nofun fun ahead shown => by
    have atTop : ahead.stackSize ≤ ahead.sp + 1 := by
      rw [shown.sp_succ, shown.stackSize_eq]
      exact Int.ofNat_le.mpr full
    have atBase := MachineM.base_run shown chain
    rw [← MachineM.level_of .pushVar value small] at atBase
    exact ⟨_, _, (MachineM.bind_run atBase).trans (MachineM.push_of_full atTop _), rfl⟩

/-- What replaces words on the stack has room. -/
theorem eval (arrives : start.Arrives n s) (fetched : s.code[s.pc]? = some (.of .eval)) {address : Nat} {held : Int}
    (words_eq : s.words = words ++ [(address : Int)]) (atAddress : words[address]? = some held) :
    start.Arrives (n + 1) { s with pc := s.pc + 1, words := words ++ [held] } :=
  arrives.next fetched (Nat.succ_ne_zero _) fun _ shown => by
    have room := shown.room words_eq
    obtain ⟨popped, ran, shown, -⟩ := MachineM.pop_run shown words_eq
    obtain ⟨after, pushed, reached⟩ := MachineM.push_run shown room held
    exact ⟨after, (MachineM.bind_run ran).trans ((MachineM.bind_run (MachineM.read_run shown atAddress)).trans pushed),
      reached⟩

theorem unary (arrives : start.Arrives n s) {op : UnaryOp} (fetched : s.code[s.pc]? = some (.of (.unary op))) {a : Int}
    (words_eq : s.words = words ++ [a]) :
    start.Arrives (n + 1) { s with pc := s.pc + 1, words := words ++ [op.apply a] } :=
  arrives.next fetched (Nat.succ_ne_zero _) fun _ shown => by
    have room := shown.room words_eq
    obtain ⟨popped, ran, shown, -⟩ := MachineM.pop_run shown words_eq
    obtain ⟨after, pushed, reached⟩ := MachineM.push_run shown room (op.apply a)
    exact ⟨after, (MachineM.bind_run ran).trans pushed, reached⟩

theorem binary (arrives : start.Arrives n s) {op : BinaryOp} (fetched : s.code[s.pc]? = some (.of (.binary op)))
    {a b result : Int} (words_eq : s.words = words ++ [a] ++ [b]) (applied : op.apply? a b = some result) :
    start.Arrives (n + 1) { s with pc := s.pc + 1, words := words ++ [result] } :=
  arrives.next fetched (Nat.succ_ne_zero _) fun _ shown => by
    obtain ⟨first, ranFirst, shown, -⟩ := MachineM.pop_run shown words_eq
    have room := shown.room rfl
    obtain ⟨second, ranSecond, shown, -⟩ := MachineM.pop_run shown rfl
    obtain ⟨after, pushed, reached⟩ := MachineM.push_run shown room result
    refine ⟨after, (MachineM.bind_run ranFirst).trans ((MachineM.bind_run ranSecond).trans ?_), reached⟩
    simpa only [applied] using pushed

theorem divides (arrives : start.Arrives n s) {op : BinaryOp} (fetched : s.code[s.pc]? = some (.of (.binary op)))
    {a b : Int} (words_eq : s.words = words ++ [a] ++ [b]) (applied : op.apply? a b = none) :
    start.Breaks s.words .divisionByZero n s.pc :=
  arrives.breaks fetched nofun fun _ shown => MachineM.execute_divisionByZero shown words_eq applied

end Arrives

end Machine

end PLZero
