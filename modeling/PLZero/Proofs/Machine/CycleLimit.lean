import PLZero.Proofs.Execution.Safety
import PLZero.Proofs.Machine.Limits

namespace PLZero

/-- The machine with another limit on its cycles. -/
def Machine.withLimit (limit : Option Int) (machine : Machine) : Machine :=
  { machine with cycleLimit := limit }

def Outcome.withLimit (limit : Option Int) : Outcome → Outcome
  | running machine => running (machine.withLimit limit)
  | halted machine => halted (machine.withLimit limit)
  | faulted fault machine => faulted fault (machine.withLimit limit)

namespace MachineM

/-- Whether the second machine is the first one with the limit. -/
def IsLimited (limit : Option Int) (first second : Machine) : Prop :=
  second = first.withLimit limit

/-- An action that does the same whether the cycles are limited or not. -/
abbrev Unlimited {α : Type} (limit : Option Int) (action : MachineM α) : Prop :=
  Agrees (IsLimited limit) (fun _ => False) action

namespace Unlimited

variable {α : Type} {limit : Option Int}

theorem get_bind {next : Machine → MachineM α} (same : ∀ machine, next (machine.withLimit limit) = next machine)
    (rest : ∀ machine, Unlimited limit (next machine)) : Unlimited limit (get >>= next) := by
  refine Agrees.get_bind ?_ rest
  rintro first _ rfl
  exact same first

theorem of_fault (cause : FaultCause) : Unlimited limit (fault cause : MachineM α) := by
  refine Agrees.of_fault ?_ cause
  rintro first _ rfl
  rfl

theorem of_modify {change : Machine → Machine}
    (same : ∀ machine, change (machine.withLimit limit) = (change machine).withLimit limit) :
    Unlimited limit (modify change : MachineM Unit) := by
  refine Agrees.of_modify ?_
  rintro first _ rfl
  exact same first

theorem cell (index : Int) : Unlimited limit (cell index) := by
  refine get_bind (fun _ => rfl) fun machine => ?_
  split
  · exact .of_pure _
  · exact of_fault _

theorem setCell (index value : Int) : Unlimited limit (setCell index value) := by
  refine get_bind (fun _ => rfl) fun machine => ?_
  split
  · exact of_modify fun _ => rfl
  · exact of_fault _

theorem read (address : Int) : Unlimited limit (read address) := by
  refine get_bind (fun _ => rfl) fun machine => ?_
  split
  · exact cell _
  · exact of_fault _

theorem write (address value : Int) : Unlimited limit (write address value) := by
  refine get_bind (fun _ => rfl) fun machine => ?_
  split
  · exact setCell _ _
  · exact of_fault _

theorem push (value : Int) : Unlimited limit (push value) := by
  refine get_bind (fun _ => rfl) fun machine => ?_
  split
  · exact of_fault _
  · exact Agrees.bind (of_modify fun _ => rfl) fun _ => setCell _ _

theorem pop : Unlimited limit pop := by
  refine get_bind (fun _ => rfl) fun machine => ?_
  dsimp only
  split
  · exact of_fault _
  · exact (cell _).bind fun value => Agrees.bind (of_modify fun _ => rfl) fun _ => .of_pure _

theorem setTop (sp : Int) : Unlimited limit (setTop sp) := by
  refine get_bind (fun _ => rfl) fun machine => ?_
  split
  · exact of_fault _
  · split
    · exact of_fault _
    · exact of_modify fun _ => rfl

theorem call (distance : Nat) (entry : Int) : Unlimited limit (call distance entry) := by
  refine get_bind (fun _ => rfl) fun machine => ?_
  dsimp only
  split
  · exact of_fault _
  · have links : Unlimited limit (base distance) := .base read (by rintro first _ rfl; rfl) distance
    exact links.bind fun link => (setCell _ _).bind fun _ => (setCell _ _).bind fun _ => (setCell _ _).bind fun _ =>
      (setCell _ _).bind fun _ => of_modify fun _ => rfl

end Unlimited

theorem isLimited_simulation (limit : Option Int) : Simulation (IsLimited limit) (fun _ => False) where
  registers := by
    rintro first _ rfl
    rfl
  control := by
    rintro first _ rfl pc bp
    rfl
  written := by
    rintro first _ rfl lastWrite
    rfl
  fetched := by
    rintro first _ rfl instruction
    rfl
  read := Unlimited.read
  write := Unlimited.write
  push := Unlimited.push
  pop := Unlimited.pop
  setTop := Unlimited.setTop
  call := Unlimited.call

theorem cycles_step {machine after : Machine} (stepped : step machine = .ok () after) :
    after.cycles = machine.cycles + 1 := by
  rw [step, get_bind_run] at stepped
  cases fetched : machine.fetch with
  | error cause =>
    rw [fetched] at stepped
    cases stepped
  | ok instruction =>
    rw [fetched] at stepped
    exact (passive_cycles.execute instruction).of_ok stepped

end MachineM

namespace Machine

section Steps

variable {machine : Machine} {limit n : Nat}

/-- As long as the limit is not reached, it does not tell what is fetched. -/
theorem fetch_withLimit (free : machine.cycleLimit = none) (left : machine.cycles < limit) :
    (machine.withLimit (some limit)).fetch = machine.fetch := by
  have lasting : (machine.withLimit (some limit)).exhausted? = none := by
    show Option.filter (fun bound : Int => bound ≤ (machine.cycles : Int)) (some (limit : Int)) = none
    rw [Option.filter_some, if_neg (by simpa using left)]
  have unlimited : machine.exhausted? = none := by
    rw [exhausted?, free]
    rfl
  rw [fetch, fetch, lasting, unlimited]
  rfl

theorem step_withLimit (free : machine.cycleLimit = none) (left : machine.cycles < limit) :
    match MachineM.step machine with
    | .ok result after => MachineM.step (machine.withLimit (some limit)) = .ok result (after.withLimit (some limit))
    | .error fault after =>
      MachineM.step (machine.withLimit (some limit)) = .error fault (after.withLimit (some limit)) := by
  have follows := (MachineM.isLimited_simulation (some limit)).step rfl (fetch_withLimit free left)
  cases stepped : MachineM.step machine with
  | ok result after =>
    rw [stepped] at follows
    obtain ⟨_, same, rfl⟩ := follows
    exact same
  | error fault after =>
    rw [stepped] at follows
    obtain absurd | ⟨_, same, rfl⟩ := follows
    · exact absurd.elim
    · exact same

/-- Up to the limit a limited run goes as the one without a limit. -/
theorem resume_withLimit (free : machine.cycleLimit = none) (within : machine.cycles + n ≤ limit) :
    (machine.withLimit (some limit)).resume n = (machine.resume n).withLimit (some limit) := by
  induction n generalizing machine with
  | zero => rfl
  | succ n ih =>
    have stepped := step_withLimit free (by omega : machine.cycles < limit)
    rw [resume, resume]
    cases ran : MachineM.step machine with
    | error fault after =>
      rw [ran] at stepped
      rw [stepped]
      rfl
    | ok result after =>
      rw [ran] at stepped
      rw [stepped]
      have counted := MachineM.cycles_step ran
      have stillFree : after.cycleLimit = none := (MachineM.lasting_cycleLimit.step.of_ok ran).trans free
      by_cases halts : after.pc = 0
      · simp only [if_pos halts]
        exact if_pos halts
      · simp only [if_neg halts]
        exact (if_neg halts).trans (ih stillFree (by omega))

end Steps

variable {start machine before final : Machine} {fault : Fault} {limit n : Nat}

/-- A run counts its steps. -/
theorem cycles_resume (ran : start.resume n = .running machine) : machine.cycles = start.cycles + n := by
  induction n generalizing start with
  | zero =>
    cases ran
    rfl
  | succ n ih =>
    rw [resume] at ran
    cases stepped : MachineM.step start with
    | error fault after =>
      rw [stepped] at ran
      cases ran
    | ok result after =>
      rw [stepped] at ran
      dsimp only at ran
      split at ran
      · cases ran
      · rw [ih ran, MachineM.cycles_step stepped]
        omega

/-- A run that has halted has made as many steps as it has counted. -/
theorem exists_halt (halted : start.resume n = .halted final) :
    ∃ count ≤ n, final.cycles = start.cycles + count ∧ start.resume count = .halted final := by
  obtain ⟨m, before, less, ran, last⟩ := exists_last (by rw [halted]; rfl : (start.resume n).isOver)
  rw [halted] at last
  refine ⟨m + 1, less, ?_, last⟩
  rw [MachineM.cycles_step (step_of_halted ran last), cycles_resume ran]
  rfl

section Cuts

variable (fresh : start.cycles = 0) (free : start.cycleLimit = none)
include fresh free

theorem halts_withLimit (halted : start.resume n = .halted final) (within : final.cycles ≤ limit) :
    (start.withLimit (some limit)).resume n = .halted (final.withLimit (some limit)) := by
  obtain ⟨count, le, counted, atCount⟩ := exists_halt halted
  have limited := resume_withLimit free (by omega : start.cycles + count ≤ limit)
  rw [atCount] at limited
  obtain ⟨more, rfl⟩ := Nat.exists_eq_add_of_le le
  rw [resume_of_isOver (by rw [limited]; rfl), limited]
  rfl

theorem faults_withLimit (ran : start.resume n = .running before) (left : before.cycles < limit)
    (faulted : start.resume (n + 1) = .faulted fault final) :
    (start.withLimit (some limit)).resume (n + 1) = .faulted fault (final.withLimit (some limit)) := by
  have counted := cycles_resume ran
  rw [resume_withLimit free (by omega), faulted]
  rfl

/-- A run that has not ended when the limit is reached is cut there. -/
theorem cut_withLimit (noHalt : ∀ n final, start.resume n = .halted final → limit < final.cycles)
    (noFault : ∀ n before fault final, start.resume n = .running before →
      start.resume (n + 1) = .faulted fault final → limit ≤ before.cycles) :
    ∃ last, start.resume limit = .running last ∧ last.cycles = limit ∧
      (start.withLimit (some limit)).resume (limit + 1) =
        .faulted ⟨.cycleLimit limit, last.registers⟩ (last.withLimit (some limit)) := by
  cases ended : start.resume limit with
  | running last =>
    have counted := cycles_resume ended
    rw [fresh, Nat.zero_add] at counted
    have limited := resume_withLimit free (by omega : start.cycles + limit ≤ limit)
    rw [ended] at limited
    refine ⟨last, rfl, counted, resume_fault limited (step_exhausted ?_)⟩
    show Option.filter (fun bound : Int => bound ≤ (last.cycles : Int)) (some (limit : Int)) = some (limit : Int)
    rw [Option.filter_some, if_pos (by simp [counted])]
  | halted final =>
    obtain ⟨count, le, counted, -⟩ := exists_halt ended
    have later := noHalt limit final ended
    omega
  | faulted fault final =>
    obtain ⟨m, before, less, ran, last⟩ := exists_last (by rw [ended]; rfl : (start.resume limit).isOver)
    have counted := cycles_resume ran
    have later := noFault m before fault final ran (last.trans ended)
    omega

end Cuts

/-- The machine at the start of a run, of the given code or else of the code that it has. -/
def started (machine : Machine) : Option (Array Instruction) → Machine
  | none => machine.reset
  | some code => machine.load code

theorem started_withLimit (machine : Machine) (code : Option (Array Instruction)) (limit : Option Int) :
    (machine.withLimit limit).started code = (machine.started code).withLimit limit := by
  cases code with
  | none => simp only [started, reset, withLimit]
  | some code => simp only [started, load, reset, withLimit]

theorem cycles_started (machine : Machine) (code : Option (Array Instruction)) : (machine.started code).cycles = 0 := by
  cases code <;> rfl

end Machine

def leavingCode : Array Instruction :=
  #[.of .jump 0 9]

end PLZero
