import PLZero.Machine.Run

namespace PLZero

namespace MachineM

variable {α β γ : Type} {field : Machine → γ}

/-- An action that leaves a part of the machine as it is, whether it faults or not. -/
def Keeps (field : Machine → γ) (action : MachineM α) : Prop :=
  ∀ machine, match action machine with
    | .ok _ after | .error _ after => field after = field machine

/-- An action that leaves a part of the machine as it is if it faults. -/
def FaultsInPlace (field : Machine → γ) (action : MachineM α) : Prop :=
  ∀ machine fault after, action machine = .error fault after → field after = field machine

namespace Keeps

theorem faultsInPlace {action : MachineM α} (keeps : Keeps field action) : FaultsInPlace field action := by
  intro machine fault after failed
  have same := keeps machine
  rwa [failed] at same

theorem of_ok {action : MachineM α} {machine after : Machine} {result : α} (keeps : Keeps field action)
    (ran : action machine = .ok result after) : field after = field machine := by
  have same := keeps machine
  rwa [ran] at same

theorem of_pure (value : α) : Keeps field (pure value : MachineM α) := fun _ => rfl

theorem of_get : Keeps field (get : MachineM Machine) := fun _ => rfl

theorem of_fault (cause : FaultCause) : Keeps field (fault cause : MachineM α) := fun _ => rfl

theorem of_modify {change : Machine → Machine} (keeps : ∀ machine, field (change machine) = field machine) :
    Keeps field (modify change : MachineM Unit) := keeps

theorem bind {action : MachineM α} {next : α → MachineM β} (first : Keeps field action)
    (rest : ∀ a, Keeps field (next a)) : Keeps field (action >>= next) := by
  intro machine
  have before := first machine
  simp only [Bind.bind, EStateM.bind]
  cases ran : action machine with
  | ok result after =>
    rw [ran] at before
    have behind := rest result after
    simp only
    split <;> simp_all
  | error fault after =>
    rw [ran] at before
    exact before

theorem of_discard {action : MachineM α} (keeps : Keeps field action) : Keeps field (discard action) := by
  intro machine
  have same := keeps machine
  cases ran : action machine with
  | ok result after =>
    have done : discard action machine = .ok () after := by simp [discard, Functor.mapConst, EStateM.map, ran]
    rw [ran] at same
    rwa [done]
  | error fault after =>
    have stopped : discard action machine = .error fault after := by
      simp [discard, Functor.mapConst, EStateM.map, ran]
    rw [ran] at same
    rwa [stopped]

theorem of_cell (index : Int) : Keeps field (cell index) := by
  refine .bind .of_get fun machine => ?_
  split
  · exact .of_pure _
  · exact .of_fault _

theorem of_read (address : Int) : Keeps field (read address) := by
  refine .bind .of_get fun machine => ?_
  split
  · exact .of_cell _
  · exact .of_fault _

theorem of_linked (frame : Int) (distance : Nat) : Keeps field (linked frame distance) := by
  induction distance generalizing frame with
  | zero => exact .of_pure _
  | succ distance ih => exact .bind (.of_read _) fun link => ih link

theorem of_base (distance : Nat) : Keeps field (base distance) :=
  .bind .of_get fun _ => .of_linked _ _

end Keeps

/-- A part of the machine to which neither the memory nor the top of the stack belongs. -/
structure OffStack (field : Machine → γ) : Prop where
  memory : ∀ machine memory, field { machine with memory } = field machine
  top : ∀ machine sp, field { machine with sp } = field machine

namespace OffStack

variable (off : OffStack field)
include off

theorem setCell (index value : Int) : Keeps field (setCell index value) := by
  refine .bind .of_get fun machine => ?_
  split
  · exact .of_modify fun machine => off.memory machine _
  · exact .of_fault _

theorem write (address value : Int) : Keeps field (write address value) := by
  refine .bind .of_get fun machine => ?_
  split
  · exact off.setCell _ _
  · exact .of_fault _

theorem push (value : Int) : Keeps field (push value) := by
  refine .bind .of_get fun machine => ?_
  split
  · exact .of_fault _
  · exact .bind (.of_modify fun machine => off.top machine _) fun _ => off.setCell _ _

theorem pop : Keeps field pop := by
  refine .bind .of_get fun machine => ?_
  dsimp only
  split
  · exact .of_fault _
  · exact .bind (.of_cell _) fun _ => .bind (.of_modify fun machine => off.top machine _) fun _ => .of_pure _

theorem setTop (sp : Int) : Keeps field (setTop sp) := by
  refine .bind .of_get fun machine => ?_
  split
  · exact .of_fault _
  · split
    · exact .of_fault _
    · exact .of_modify fun machine => off.top machine _

end OffStack

namespace FaultsInPlace

theorem bind {action : MachineM α} {next : α → MachineM β} (first : Keeps field action)
    (rest : ∀ a, FaultsInPlace field (next a)) : FaultsInPlace field (action >>= next) := by
  intro machine fault after failed
  have before := first machine
  simp only [Bind.bind, EStateM.bind] at failed
  cases ran : action machine with
  | ok result between =>
    rw [ran] at before failed
    exact (rest result between fault after failed).trans before
  | error fault between =>
    rw [ran] at before failed
    cases failed
    exact before

theorem of_modify (change : Machine → Machine) : FaultsInPlace field (modify change) :=
  fun _ _ _ failed => by cases failed

theorem of_discard {action : MachineM α} (first : FaultsInPlace field action) :
    FaultsInPlace field (discard action) := by
  intro machine fault after failed
  refine first machine fault after ?_
  cases ran : action machine with
  | ok result between =>
    have done : discard action machine = .ok () between := by
      simp [discard, Functor.mapConst, EStateM.map, ran]
    cases done.symm.trans failed
  | error cause between =>
    have stopped : discard action machine = .error cause between := by
      simp [discard, Functor.mapConst, EStateM.map, ran]
    cases stopped.symm.trans failed
    rfl

end FaultsInPlace

namespace OffStack

variable (off : OffStack field)
include off

theorem call (distance : Nat) (entry : Int) : FaultsInPlace field (call distance entry) := by
  refine .bind .of_get fun machine => ?_
  split
  · exact Keeps.faultsInPlace (.of_fault _)
  · exact .bind (.of_base _) fun _ => .bind (off.setCell _ _) fun _ => .bind (off.setCell _ _) fun _ =>
      .bind (off.setCell _ _) fun _ => .bind (off.setCell _ _) fun _ => .of_modify _

theorem leave (arguments : Int) : FaultsInPlace field (leave arguments) := by
  refine .bind .of_get fun machine => .bind (.of_read _) fun result => .bind (.of_read _) fun address =>
    .bind (.of_read _) fun caller => .bind (off.setTop _) fun _ => ?_
  exact fun _ _ _ failed => by cases failed

/-- An instruction that faults leaves alone what is off the stack, unless it is to return a result. -/
theorem execute {instruction : Instruction} (noRetf : instruction.operation.opcode? ≠ some .retf)
    (unwritten : ∀ machine lastWrite, field { machine with lastWrite } = field machine) :
    FaultsInPlace field (execute instruction) := by
  unfold MachineM.execute
  split
  · exact Keeps.faultsInPlace (.of_fault _)
  · exact Keeps.faultsInPlace (.bind off.pop fun _ => off.push _)
  · refine Keeps.faultsInPlace (.bind off.pop fun b => .bind off.pop fun a => ?_)
    split
    · exact off.push _
    · exact .of_fault _
  · exact Keeps.faultsInPlace (off.push _)
  · exact Keeps.faultsInPlace (.bind (.of_base _) fun _ => off.push _)
  · exact Keeps.faultsInPlace (.bind off.pop fun _ => .bind (.of_read _) fun _ => off.push _)
  · refine Keeps.faultsInPlace (.bind off.pop fun address => .bind off.pop fun value => ?_)
    exact .bind (off.write _ _) fun _ => .of_modify fun machine => unwritten machine _
  · exact off.call _ _
  · exact Keeps.faultsInPlace (.bind .of_get fun _ => off.setTop _)
  · exact .of_discard (off.leave _)
  · exact absurd ‹_› noRetf
  · exact .of_modify _
  · refine .bind off.pop fun test => ?_
    split
    · exact .of_modify _
    · exact Keeps.faultsInPlace (.of_pure _)

end OffStack

theorem offStack_pc : OffStack Machine.pc :=
  ⟨fun _ _ => rfl, fun _ _ => rfl⟩

/-- An action that leaves the program counter as it is, or sets it to one address. -/
def Steers (target : Int) (action : MachineM α) : Prop :=
  ∀ machine result after, action machine = .ok result after → after.pc = machine.pc ∨ after.pc = target

namespace Steers

variable {target : Int}

theorem of_keeps {action : MachineM α} (keeps : Keeps Machine.pc action) : Steers target action :=
  fun _ _ _ ran => .inl (keeps.of_ok ran)

theorem of_jumpTo : Steers target (jumpTo target) := by
  intro machine result after ran
  cases ran
  exact .inr rfl

theorem bind {action : MachineM α} {next : α → MachineM β} (first : Keeps Machine.pc action)
    (rest : ∀ a, Steers target (next a)) : Steers target (action >>= next) := by
  intro machine result after ran
  simp only [Bind.bind, EStateM.bind] at ran
  cases begun : action machine with
  | ok answer between =>
    rw [begun] at ran
    exact first.of_ok begun ▸ rest answer between result after ran
  | error fault between =>
    rw [begun] at ran
    cases ran

/-- Apart from calls and returns, control goes on behind an instruction or where a jump leads. -/
theorem execute {instruction : Instruction} (jumps : instruction.operation.opcode? = some .jump ∨
      instruction.operation.opcode? = some .jneq → target = instruction.value)
    (inner : ∀ op ∈ [Opcode.call, .ret, .retf], instruction.operation.opcode? ≠ some op) :
    Steers target (execute instruction) := by
  simp only [List.forall_mem_cons] at inner
  obtain ⟨noCall, noRet, noRetf, -⟩ := inner
  have off := offStack_pc
  unfold MachineM.execute
  split
  · exact of_keeps (.of_fault _)
  · exact of_keeps (.bind off.pop fun _ => off.push _)
  · refine of_keeps (.bind off.pop fun b => .bind off.pop fun a => ?_)
    split
    · exact off.push _
    · exact .of_fault _
  · exact of_keeps (off.push _)
  · exact of_keeps (.bind (.of_base _) fun _ => off.push _)
  · exact of_keeps (.bind off.pop fun _ => .bind (.of_read _) fun _ => off.push _)
  · exact of_keeps (.bind off.pop fun address => .bind off.pop fun value => .bind (off.write _ _) fun _ =>
      .of_modify fun _ => rfl)
  · exact absurd ‹_› noCall
  · exact of_keeps (.bind .of_get fun _ => off.setTop _)
  · exact absurd ‹_› noRet
  · exact absurd ‹_› noRetf
  · next isJump => exact jumps (.inl isJump) ▸ of_jumpTo
  · next isJneq =>
    refine .bind off.pop fun test => ?_
    split
    · exact jumps (.inr isJneq) ▸ of_jumpTo
    · exact of_keeps (.of_pure _)

end Steers

/-- A part of the machine that no instruction changes when it is executed. -/
structure Passive (field : Machine → γ) : Prop extends OffStack field where
  control : ∀ machine pc bp sp, field { machine with pc, bp, sp } = field machine
  lastWrite : ∀ machine lastWrite, field { machine with lastWrite } = field machine

namespace Passive

variable (passive : Passive field)
include passive

theorem call (distance : Nat) (entry : Int) : Keeps field (call distance entry) := by
  have off := passive.toOffStack
  refine .bind .of_get fun machine => ?_
  split
  · exact .of_fault _
  · exact .bind (.of_base _) fun _ => .bind (off.setCell _ _) fun _ => .bind (off.setCell _ _) fun _ =>
      .bind (off.setCell _ _) fun _ => .bind (off.setCell _ _) fun _ =>
        .of_modify fun machine => passive.control machine _ _ _

theorem leave (arguments : Int) : Keeps field (leave arguments) := by
  refine .bind .of_get fun machine => .bind (.of_read _) fun result => .bind (.of_read _) fun address =>
    .bind (.of_read _) fun caller => .bind (passive.setTop _) fun _ => ?_
  exact .bind (.of_modify fun machine => passive.control machine _ _ machine.sp) fun _ => .of_pure _

theorem execute (instruction : Instruction) : Keeps field (execute instruction) := by
  have off := passive.toOffStack
  have jumps : ∀ target, Keeps field (jumpTo target) := fun target =>
    .of_modify fun machine => passive.control machine target machine.bp machine.sp
  unfold MachineM.execute
  split
  · exact .of_fault _
  · exact .bind off.pop fun _ => off.push _
  · refine .bind off.pop fun b => .bind off.pop fun a => ?_
    split
    · exact off.push _
    · exact .of_fault _
  · exact off.push _
  · exact .bind (.of_base _) fun _ => off.push _
  · exact .bind off.pop fun _ => .bind (.of_read _) fun _ => off.push _
  · refine .bind off.pop fun address => .bind off.pop fun value => ?_
    exact .bind (off.write _ _) fun _ => .of_modify fun machine => passive.lastWrite machine _
  · exact passive.call _ _
  · exact .bind .of_get fun _ => off.setTop _
  · exact .of_discard (passive.leave _)
  · exact .bind (passive.leave _) fun _ => off.push _
  · exact jumps _
  · refine .bind off.pop fun test => ?_
    split
    · exact jumps _
    · exact .of_pure _

end Passive

theorem passive_cycles : Passive Machine.cycles where
  memory _ _ := rfl
  top _ _ := rfl
  control _ _ _ _ := rfl
  lastWrite _ _ := rfl

/-- A part of the machine that no instruction changes. -/
structure Lasting (field : Machine → γ) : Prop extends Passive field where
  fetched : ∀ machine ir pc cycles, field { machine with ir, pc, cycles } = field machine

namespace Lasting

variable (lasting : Lasting field)
include lasting

theorem step : Keeps field step := by
  refine .bind .of_get fun machine => ?_
  split
  · exact .of_fault _
  · exact .bind (.of_modify fun machine => lasting.fetched machine _ _ _) fun _ => lasting.execute _

theorem resume (start : Machine) (n : Nat) : field (start.resume n).machine = field start := by
  induction n generalizing start with
  | zero => rfl
  | succ n ih =>
    have same := lasting.step start
    rw [Machine.resume]
    cases stepped : MachineM.step start with
    | ok result after =>
      rw [stepped] at same
      dsimp only
      split
      · exact same
      · exact (ih after).trans same
    | error fault after =>
      rw [stepped] at same
      exact same

end Lasting

theorem lasting_cycleLimit : Lasting Machine.cycleLimit where
  memory _ _ := rfl
  top _ _ := rfl
  control _ _ _ _ := rfl
  lastWrite _ _ := rfl
  fetched _ _ _ _ := rfl

end MachineM

end PLZero
