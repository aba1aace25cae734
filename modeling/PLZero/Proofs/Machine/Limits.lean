import PLZero.Proofs.Execution.Faults
import PLZero.Proofs.Execution.Moments

namespace PLZero

namespace MachineM

variable {α β : Type} {related : Machine → Machine → Prop} {excused : FaultCause → Prop}

/-- The second result is as the first, with related machines. Where the first is an excused fault, nothing is told of
the second. -/
def Follows (related : Machine → Machine → Prop) (excused : FaultCause → Prop) :
    EStateM.Result Fault Machine α → EStateM.Result Fault Machine α → Prop
  | .ok result after, other => ∃ reached, other = .ok result reached ∧ related after reached
  | .error fault after, other =>
    excused fault.cause ∨ ∃ reached, other = .error fault reached ∧ related after reached

/-- An action that does the same on related machines. -/
def Agrees (related : Machine → Machine → Prop) (excused : FaultCause → Prop) (action : MachineM α) : Prop :=
  ∀ first second, related first second → Follows related excused (action first) (action second)

theorem Follows.bind {action other : MachineM α} {next otherNext : α → MachineM β} {first second : Machine}
    (follows : Follows related excused (action first) (other second))
    (rest : ∀ a after reached, action first = .ok a after → other second = .ok a reached → related after reached →
      Follows related excused (next a after) (otherNext a reached)) :
    Follows related excused ((action >>= next) first) ((other >>= otherNext) second) := by
  simp only [Bind.bind, EStateM.bind]
  cases ran : action first with
  | ok result after =>
    rw [ran] at follows
    obtain ⟨reached, same, holds⟩ := follows
    rw [same]
    exact rest result after reached ran same holds
  | error fault after =>
    rw [ran] at follows
    rcases follows with isExcused | ⟨reached, same, holds⟩
    · exact .inl isExcused
    · rw [same]
      exact .inr ⟨reached, rfl, holds⟩

/-- Behind an action that only reads, the machines are what they were. -/
theorem Follows.bind_of_keeps {action : MachineM α} {next otherNext : α → MachineM β} {first second : Machine}
    (follows : Follows related excused (action first) (action second)) (keeps : Keeps id action)
    (rest : ∀ a, Follows related excused (next a first) (otherNext a second)) :
    Follows related excused ((action >>= next) first) ((action >>= otherNext) second) := by
  refine follows.bind fun a after reached ran alsoRan _ => ?_
  obtain rfl : after = first := keeps.of_ok ran
  obtain rfl : reached = second := keeps.of_ok alsoRan
  exact rest a

section Checks

variable {action other : MachineM α} {first second : Machine} {cause : FaultCause} {c d : Prop} [Decidable c]
  [Decidable d]

/-- A check that ends in an excused fault may be stricter for the first machine. -/
theorem Follows.of_check (isExcused : excused cause) (stricter : d → c)
    (rest : ¬ c → Follows related excused (action first) (other second)) :
    Follows related excused ((if c then fault cause else action) first)
      ((if d then fault cause else other) second) := by
  by_cases fails : c
  · rw [if_pos fails]
    exact .inl isExcused
  · rw [if_neg fails, if_neg fun alsoFails => fails (stricter alsoFails)]
    exact rest fails

theorem Follows.of_inside (isExcused : excused cause) (wider : c → d)
    (rest : c → Follows related excused (action first) (other second)) :
    Follows related excused ((if c then action else fault cause) first)
      ((if d then other else fault cause) second) := by
  by_cases inside : c
  · rw [if_pos inside, if_pos (wider inside)]
    exact rest inside
  · rw [if_neg inside]
    exact .inl isExcused

end Checks

namespace Agrees

theorem of_pure (a : α) : Agrees related excused (pure a : MachineM α) :=
  fun _ second holds => ⟨second, rfl, holds⟩

theorem bind {action : MachineM α} {next : α → MachineM β} (first : Agrees related excused action)
    (rest : ∀ a, Agrees related excused (next a)) : Agrees related excused (action >>= next) :=
  fun machine other holds => (first machine other holds).bind fun a after reached _ _ => rest a after reached

theorem get_bind {next : Machine → MachineM α}
    (same : ∀ first second, related first second → next second = next first)
    (rest : ∀ machine, Agrees related excused (next machine)) : Agrees related excused (get >>= next) := by
  intro first second holds
  rw [get_bind_run, get_bind_run, same first second holds]
  exact rest first first second holds

theorem of_modify {change : Machine → Machine}
    (keeps : ∀ first second, related first second → related (change first) (change second)) :
    Agrees related excused (modify change : MachineM Unit) :=
  fun first second holds => ⟨change second, rfl, keeps first second holds⟩

theorem of_fault (same : ∀ first second, related first second → second.registers = first.registers)
    (cause : FaultCause) : Agrees related excused (fault cause : MachineM α) := by
  intro first second holds
  rw [fault_run, fault_run, same first second holds]
  exact .inr ⟨second, rfl, holds⟩

section Links

variable (reads : ∀ address, Agrees related excused (read address))
include reads

theorem linked (frame : Int) (distance : Nat) : Agrees related excused (linked frame distance) := by
  induction distance generalizing frame with
  | zero => exact .of_pure _
  | succ distance ih => exact (reads _).bind fun link => ih link

theorem base (same : ∀ first second, related first second → second.registers = first.registers) (distance : Nat) :
    Agrees related excused (base distance) := by
  refine .get_bind (fun first second holds => ?_) fun machine => linked reads _ _
  have bp_eq : second.bp = first.bp := congrArg Registers.bp (same first second holds)
  rw [bp_eq]

end Links

end Agrees

/-- A relation between machines that all actions keep, because the basic ones do. -/
structure Simulation (related : Machine → Machine → Prop) (excused : FaultCause → Prop) : Prop where
  registers : ∀ {first second}, related first second → second.registers = first.registers
  control : ∀ {first second}, related first second → ∀ pc bp,
    related { first with pc, bp } { second with pc, bp }
  written : ∀ {first second}, related first second → ∀ lastWrite,
    related { first with lastWrite } { second with lastWrite }
  fetched : ∀ {first second}, related first second → ∀ instruction,
    related { first with ir := some instruction, pc := first.pc + 1, cycles := first.cycles + 1 }
      { second with ir := some instruction, pc := second.pc + 1, cycles := second.cycles + 1 }
  read : ∀ address, Agrees related excused (read address)
  write : ∀ address value, Agrees related excused (write address value)
  push : ∀ value, Agrees related excused (push value)
  pop : Agrees related excused pop
  setTop : ∀ sp, Agrees related excused (setTop sp)
  call : ∀ distance entry, Agrees related excused (call distance entry)

namespace Simulation

variable (simulation : Simulation related excused)
include simulation

theorem bp_eq {first second : Machine} (holds : related first second) : second.bp = first.bp :=
  congrArg Registers.bp (simulation.registers holds)

theorem sp_eq {first second : Machine} (holds : related first second) : second.sp = first.sp :=
  congrArg Registers.sp (simulation.registers holds)

theorem fault (cause : FaultCause) : Agrees related excused (fault cause : MachineM α) :=
  .of_fault (fun _ _ => simulation.registers) cause

theorem jumpTo (address : Int) : Agrees related excused (jumpTo address) := by
  refine .of_modify fun first second holds => ?_
  have same : { second with pc := address } = { second with pc := address, bp := first.bp } := by
    rw [← simulation.bp_eq holds]
  rw [same]
  exact simulation.control holds address first.bp

theorem base (distance : Nat) : Agrees related excused (base distance) :=
  .base simulation.read (fun _ _ => simulation.registers) distance

theorem leave (arguments : Int) : Agrees related excused (leave arguments) := by
  refine .get_bind (fun first second holds => ?_) fun machine => ?_
  · rw [simulation.bp_eq holds]
  · refine (simulation.read _).bind fun result => (simulation.read _).bind fun address =>
      (simulation.read _).bind fun caller => (simulation.setTop _).bind fun _ => Agrees.bind ?_ fun _ => .of_pure _
    exact .of_modify fun first second holds => simulation.control holds address caller

theorem execute (instruction : Instruction) : Agrees related excused (execute instruction) := by
  unfold MachineM.execute
  cases instruction.operation.opcode? with
  | none => exact simulation.fault _
  | some op =>
    cases op with
    | unary op => exact simulation.pop.bind fun _ => simulation.push _
    | binary op =>
      refine simulation.pop.bind fun b => simulation.pop.bind fun a => ?_
      cases op.apply? a b with
      | some value => exact simulation.push value
      | none => exact simulation.fault _
    | pushConst => exact simulation.push _
    | pushVar => exact (simulation.base _).bind fun _ => simulation.push _
    | eval => exact simulation.pop.bind fun _ => (simulation.read _).bind fun _ => simulation.push _
    | assign =>
      refine simulation.pop.bind fun address => simulation.pop.bind fun value => ?_
      exact (simulation.write _ _).bind fun _ => .of_modify fun _ _ holds => simulation.written holds _
    | call => exact simulation.call _ _
    | enter =>
      refine .get_bind (fun first second holds => ?_) fun machine => simulation.setTop _
      rw [simulation.sp_eq holds]
    | ret => exact (simulation.leave _).bind fun _ => .of_pure _
    | retf => exact (simulation.leave _).bind fun _ => simulation.push _
    | jump => exact simulation.jumpTo _
    | jneq =>
      refine simulation.pop.bind fun test => ?_
      split
      · exact simulation.jumpTo _
      · exact .of_pure _

/-- Machines that fetch the same instruction, or cannot go on for the same reason, make the same step. -/
theorem step {first second : Machine} (holds : related first second) (same : second.fetch = first.fetch) :
    Follows related excused (step first) (step second) := by
  rw [MachineM.step, get_bind_run, get_bind_run, same]
  cases first.fetch with
  | error cause => exact simulation.fault cause first second holds
  | ok instruction => exact simulation.execute instruction _ _ (simulation.fetched holds instruction)

end Simulation

end MachineM

end PLZero
