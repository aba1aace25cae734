import PLZero.Proofs.Execution.Steps

namespace PLZero

namespace Machine

theorem resume_add {start machine : Machine} {n : Nat} (ran : start.resume n = .running machine) (count : Nat) :
    start.resume (n + count) = machine.resume count := by
  induction n generalizing start with
  | zero =>
    cases ran
    rw [Nat.zero_add]
  | succ n ih =>
    rw [Nat.succ_add]
    simp only [resume] at ran ⊢
    split at ran
    · simp at ran
    · split at ran
      · simp at ran
      · next goesOn => rw [if_neg goesOn, ih ran]

theorem resume_of_isOver {start : Machine} {n : Nat} (ended : (start.resume n).isOver) (count : Nat) :
    start.resume (n + count) = start.resume n := by
  induction n generalizing start with
  | zero => simp [resume, Outcome.isOver] at ended
  | succ n ih =>
    rw [Nat.succ_add]
    simp only [resume] at ended ⊢
    split
    · rfl
    · split
      · rfl
      · next stepped goesOn =>
        simp only [stepped, if_neg goesOn] at ended
        exact ih ended

/-- A run is over in one way only. -/
theorem resume_eq_of_isOver {start : Machine} {n m : Nat} (ended : (start.resume n).isOver)
    (alsoOver : (start.resume m).isOver) : start.resume n = start.resume m := by
  rcases Nat.le_total n m with le | le
  · obtain ⟨count, rfl⟩ := Nat.exists_eq_add_of_le le
    exact (resume_of_isOver ended count).symm
  · obtain ⟨count, rfl⟩ := Nat.exists_eq_add_of_le le
    exact resume_of_isOver alsoOver count

/-- A run does not go on behind its end. -/
theorem lt_of_running {start machine : Machine} {n m : Nat} (ended : (start.resume n).isOver)
    (ran : start.resume m = .running machine) : m < n := by
  apply Nat.lt_of_not_le
  intro le
  obtain ⟨count, rfl⟩ := Nat.exists_eq_add_of_le le
  rw [resume_of_isOver ended count] at ran
  rw [ran] at ended
  cases ended

/-- Whether the next instruction makes room for the variables of a block. -/
def isEntering (machine : Machine) : Bool :=
  machine.instruction?.any fun instruction => instruction.operation = .named .enter

/-- How many blocks have been entered within so many steps. -/
def entries (start : Machine) : Nat → Nat
  | 0 => 0
  | n + 1 => start.entries n + match start.resume n with
    | .running machine => if machine.isEntering then 1 else 0
    | _ => 0

/-- The choices tell the words that the variables of each block start with when it is entered. -/
def Foresees (choices : Nat → Nat → Int) (start : Machine) : Prop :=
  ∀ n machine, start.resume n = .running machine → machine.isEntering → ∀ index word,
    machine.memory[(machine.sp + 1).toNat + index]? = some word → choices (start.entries n) index = word

theorem entries_mono {start : Machine} {n m : Nat} (le : n ≤ m) : start.entries n ≤ start.entries m := by
  induction le with
  | refl => exact Nat.le_refl _
  | step _ ih => exact Nat.le_trans ih (Nat.le_add_right _ _)

theorem entries_lt {start machine : Machine} {n m : Nat} (ran : start.resume n = .running machine)
    (entering : machine.isEntering) (lt : n < m) : start.entries n < start.entries m := by
  have next : start.entries (n + 1) = start.entries n + 1 := by simp [entries, ran, entering]
  exact Nat.lt_of_lt_of_le (next ▸ Nat.lt_succ_self _) (entries_mono lt)

/-- The blocks that are entered are told apart by how many were entered before. -/
theorem eq_of_entries_eq {start machine other : Machine} {n m : Nat} (ran : start.resume n = .running machine)
    (entering : machine.isEntering) (alsoRan : start.resume m = .running other) (alsoEntering : other.isEntering)
    (same : start.entries n = start.entries m) : n = m := by
  rcases Nat.lt_trichotomy n m with before | atOnce | after
  · exact absurd same (Nat.ne_of_lt (entries_lt ran entering before))
  · exact atOnce
  · exact absurd same.symm (Nat.ne_of_lt (entries_lt alsoRan alsoEntering after))

/-- What variables start with depends on the run only. -/
theorem exists_foresees (start : Machine) : ∃ choices, Foresees choices start := by
  have told : ∀ count index, ∃ chosen, ∀ n machine word, start.resume n = .running machine → machine.isEntering →
      start.entries n = count → machine.memory[(machine.sp + 1).toNat + index]? = some word → chosen = word := by
    intro count index
    by_cases known : ∃ n machine word, start.resume n = .running machine ∧ machine.isEntering ∧
        start.entries n = count ∧ machine.memory[(machine.sp + 1).toNat + index]? = some word
    · obtain ⟨m, other, chosen, ran, entering, rfl, held⟩ := known
      refine ⟨chosen, fun n machine word alsoRan alsoEntering same alsoHeld => ?_⟩
      cases eq_of_entries_eq alsoRan alsoEntering ran entering same
      cases ran.symm.trans alsoRan
      exact Option.some.inj (held.symm.trans alsoHeld)
    · exact ⟨0, fun n machine word ran entering same held => absurd ⟨n, machine, word, ran, entering, same, held⟩ known⟩
  exact ⟨fun count index => (told count index).choose, fun n machine ran entering index word held =>
    (told _ index).choose_spec n machine word ran entering rfl held⟩

/-- The run ends because the stack or the number of cycles is limited. -/
def Starves (start : Machine) : Prop :=
  ∃ n fault machine, start.resume n = .faulted fault machine ∧
    (fault.cause = .overflow ∨ ∃ limit, fault.cause = .cycleLimit limit)

/-- The run ends with a division by zero. -/
def Divides (start : Machine) : Prop :=
  ∃ n fault machine, start.resume n = .faulted fault machine ∧ fault.cause = .divisionByZero

/-- After so many steps the run goes on, as many blocks have been entered as given, and the machine is seen so. -/
def Moment (start : Machine) (n started : Nat) (s : Snapshot) : Prop :=
  ∃ machine, start.resume n = .running machine ∧ machine.Shows s ∧ start.entries n = started

theorem step_exhausted {machine : Machine} {limit : Int} (exhausted : machine.exhausted? = some limit) :
    MachineM.step machine = .error ⟨.cycleLimit limit, machine.registers⟩ machine := by
  rw [MachineM.step, MachineM.get_bind_run, fetch, exhausted]
  rfl

theorem step_of_instruction? {machine : Machine} {instruction : Instruction} (lasting : machine.exhausted? = none)
    (fetched : machine.instruction? = some instruction) :
    MachineM.step machine = MachineM.execute instruction
      { machine with ir := some instruction, pc := machine.pc + 1, cycles := machine.cycles + 1 } := by
  rw [MachineM.step, MachineM.get_bind_run, fetch, lasting, fetched]
  rfl

theorem Shows.instruction?_eq {machine : Machine} {s : Snapshot} (shown : machine.Shows s) :
    machine.instruction? = s.code[s.pc]? := by
  rw [instruction?, shown.pc_eq, if_pos (by omega), ← shown.code_eq, Array.getElem?_toList, Int.toNat_natCast]

/-- The machine when it has fetched an instruction. -/
theorem Shows.ahead {machine : Machine} {s : Snapshot} (shown : machine.Shows s) (instruction : Instruction) :
    Shows { machine with ir := some instruction, pc := machine.pc + 1, cycles := machine.cycles + 1 }
      { s with pc := s.pc + 1 } :=
  { shown with pc_eq := congrArg (· + 1) shown.pc_eq }

theorem resume_one {start machine after : Machine} {n : Nat} (ran : start.resume n = .running machine)
    (stepped : MachineM.step machine = .ok () after) :
    start.resume (n + 1) = if after.pc = 0 then .halted after else .running after := by
  rw [resume_add ran, resume, stepped]
  rfl

theorem resume_fault {start machine after : Machine} {n : Nat} {fault : Fault}
    (ran : start.resume n = .running machine) (stepped : MachineM.step machine = .error fault after) :
    start.resume (n + 1) = .faulted fault after := by
  rw [resume_add ran, resume, stepped]

/-- A run that has ended was still going on just before. -/
theorem exists_last {start : Machine} {n : Nat} (ended : (start.resume n).isOver) :
    ∃ m before, m < n ∧ start.resume m = .running before ∧ start.resume (m + 1) = start.resume n := by
  induction n with
  | zero => cases ended
  | succ n ih =>
    cases earlier : start.resume n with
    | running before => exact ⟨n, before, Nat.lt_succ_self n, earlier, rfl⟩
    | halted _ | faulted _ _ =>
      have overEarlier : (start.resume n).isOver := by rw [earlier]; rfl
      obtain ⟨m, before, less, ran, same⟩ := ih overEarlier
      exact ⟨m, before, Nat.lt_succ_of_lt less, ran, same.trans (resume_of_isOver overEarlier 1).symm⟩

theorem step_of_faulted {start machine now : Machine} {n : Nat} {fault : Fault} (ran : start.resume n = .running machine)
    (faulted : start.resume (n + 1) = .faulted fault now) : MachineM.step machine = .error fault now := by
  cases stepped : MachineM.step machine with
  | error other after =>
    cases (resume_fault ran stepped).symm.trans faulted
    rfl
  | ok result after =>
    rw [resume_one ran stepped] at faulted
    split at faulted <;> cases faulted

theorem step_of_halted {start machine now : Machine} {n : Nat} (ran : start.resume n = .running machine)
    (halted : start.resume (n + 1) = .halted now) : MachineM.step machine = .ok () now := by
  cases stepped : MachineM.step machine with
  | error fault after => cases (resume_fault ran stepped).symm.trans halted
  | ok result after =>
    rw [resume_one ran stepped] at halted
    split at halted <;> cases halted
    rfl

variable {start : Machine} {n started : Nat} {s : Snapshot} {instruction : Instruction}

/-- The next step fetches an instruction and executes it, unless the cycles are used up. -/
theorem Moment.fetch (moment : start.Moment n started s) (fetched : s.code[s.pc]? = some instruction) :
    start.Starves ∨ ∃ machine decoded, start.resume n = .running machine ∧ start.entries n = started ∧
      machine.Shows s ∧ decoded.Shows { s with pc := s.pc + 1 } ∧ decoded.memory = machine.memory ∧
      machine.instruction? = some instruction ∧ MachineM.step machine = MachineM.execute instruction decoded := by
  obtain ⟨machine, ran, shown, count⟩ := moment
  cases exhausted : machine.exhausted? with
  | some limit =>
    exact .inl ⟨n + 1, _, machine, resume_fault ran (step_exhausted exhausted), .inr ⟨limit, rfl⟩⟩
  | none =>
    have found := shown.instruction?_eq.trans fetched
    exact .inr ⟨machine, _, ran, count, shown, shown.ahead instruction, rfl, found,
      step_of_instruction? exhausted found⟩

/-- What an instruction achieves, the next step does. -/
theorem Moment.step {post : Machine → Machine → Prop} (moment : start.Moment n started s)
    (fetched : s.code[s.pc]? = some instruction)
    (does : ∀ machine decoded : Machine, machine.Shows s → decoded.Shows { s with pc := s.pc + 1 } →
      decoded.memory = machine.memory →
      (MachineM.execute instruction).Achieves decoded fun _ reached => post machine reached) :
    start.Starves ∨ ∃ machine reached, start.resume n = .running machine ∧ start.entries n = started ∧
      machine.Shows s ∧ machine.instruction? = some instruction ∧ MachineM.step machine = .ok () reached ∧
      post machine reached := by
  rcases moment.fetch fetched with starves | ⟨machine, decoded, ran, count, shown, ahead, memory, found, stepped⟩
  · exact .inl starves
  · have achieved := does machine decoded shown ahead memory
    simp only [MachineM.Achieves, ← stepped] at achieved
    cases outcome : MachineM.step machine with
    | error fault reached =>
      rw [outcome] at achieved
      exact .inl ⟨n + 1, fault, reached, resume_fault ran outcome, .inl achieved⟩
    | ok result reached =>
      rw [outcome] at achieved
      exact .inr ⟨machine, reached, ran, count, shown, found, outcome, achieved⟩

/-- A step that neither enters a block nor halts leads to the next moment. -/
theorem Moment.next {after : Snapshot} (moment : start.Moment n started s)
    (fetched : s.code[s.pc]? = some instruction) (plain : instruction.operation ≠ .named .enter)
    (goesOn : after.pc ≠ 0)
    (does : ∀ decoded : Machine, decoded.Shows { s with pc := s.pc + 1 } →
      (MachineM.execute instruction).Achieves decoded fun _ reached => reached.Shows after) :
    start.Starves ∨ start.Moment (n + 1) started after := by
  rcases moment.step fetched fun _ decoded _ shown _ => does decoded shown with
    starves | ⟨machine, reached, ran, count, -, found, stepped, shown⟩
  · exact .inl starves
  · have more : reached.pc ≠ 0 := by
      rw [shown.pc_eq]
      omega
    have notEntering : machine.isEntering = false := by simp [isEntering, found, plain]
    refine .inr ⟨reached, (resume_one ran stepped).trans (if_neg more), shown, ?_⟩
    simp [entries, ran, notEntering, count]

/-- When a block is entered, its variables start with the chosen values. -/
theorem Moment.enter {choices : Nat → Nat → Int} {count distance : Nat} (foresees : Foresees choices start)
    (moment : start.Moment n started s) (fetched : s.code[s.pc]? = some (.of .enter distance count)) :
    start.Starves ∨ ∃ fresh : List Int, fresh.length = count ∧
      (∀ index < count, fresh[index]? = some (choices started index)) ∧
      start.Moment (n + 1) (started + 1) { s with pc := s.pc + 1, words := s.words ++ fresh } := by
  have does : ∀ machine decoded : Machine, machine.Shows s → decoded.Shows { s with pc := s.pc + 1 } →
      decoded.memory = machine.memory →
      (MachineM.execute (.of .enter distance count)).Achieves decoded fun _ reached =>
        ∃ fresh : List Int, fresh.length = count ∧
          (∀ index < count, fresh[index]? = machine.memory[s.words.length + index]?) ∧
            reached.Shows { s with pc := s.pc + 1, words := s.words ++ fresh } :=
    fun machine decoded _ shown memory => memory ▸ MachineM.execute_enter shown
  rcases moment.step fetched does with starves | ⟨machine, reached, ran, entered, before, found, stepped, fresh, length, spelled, shown⟩
  · exact .inl starves
  · have entering : machine.isEntering = true := by simp [isEntering, found, Instruction.of]
    have more : reached.pc ≠ 0 := by
      rw [shown.pc_eq]
      exact Int.natCast_ne_zero.mpr (Nat.succ_ne_zero _)
    refine .inr ⟨fresh, length, fun index below => ?_, reached, (resume_one ran stepped).trans (if_neg more), shown, ?_⟩
    · have some : index < fresh.length := by omega
      have held := (spelled index below).symm.trans (List.getElem?_eq_getElem some)
      rw [List.getElem?_eq_getElem some, ← entered]
      refine congrArg Option.some (foresees n machine ran entering index _ ?_).symm
      rw [before.sp_succ, Int.toNat_natCast]
      exact held
    · simp [entries, ran, entering, entered]

theorem Moment.divides {op : BinaryOp} {words : List Int} {a b value : Int} {distance : Nat}
    (moment : start.Moment n started s) (fetched : s.code[s.pc]? = some (.of (.binary op) distance value))
    (words_eq : s.words = words ++ [a] ++ [b]) (applied : op.apply? a b = none) : start.Starves ∨ start.Divides := by
  rcases moment.fetch fetched with starves | ⟨machine, decoded, ran, -, -, shown, -, -, stepped⟩
  · exact .inl starves
  · obtain ⟨fault, after, failed, cause⟩ := MachineM.execute_divisionByZero shown words_eq applied
    exact .inr ⟨n + 1, fault, after, resume_fault ran (stepped.trans failed), cause⟩

end Machine

end PLZero
