import PLZero.Proofs.Execution.StaticChain
import PLZero.Proofs.Generation.Constants

namespace PLZero

/-- All of the memory fits in machine words. -/
def Machine.HoldsWords (machine : Machine) : Prop :=
  ∀ word ∈ machine.memory, IsWord word

namespace MachineM

variable {α β : Type}

/-- What is left by an action fits in words, also after a fault, and the result is as told. -/
def LeavesWords (action : MachineM α) (machine : Machine) (yields : α → Prop) : Prop :=
  match action machine with
  | .ok result after => after.HoldsWords ∧ yields result
  | .error _ after => after.HoldsWords

/-- Under an action the memory goes on to fit in words. -/
def KeepsWords (action : MachineM α) (yields : α → Prop) : Prop :=
  ∀ machine, machine.HoldsWords → LeavesWords action machine yields

theorem LeavesWords.bind {action : MachineM α} {next : α → MachineM β} {machine : Machine} {yields : α → Prop}
    {result : β → Prop} (first : LeavesWords action machine yields)
    (rest : ∀ a, yields a → KeepsWords (next a) result) : LeavesWords (action >>= next) machine result := by
  simp only [LeavesWords, Bind.bind, EStateM.bind]
  rw [LeavesWords] at first
  cases ran : action machine with
  | ok a between =>
    rw [ran] at first
    exact rest a first.2 between first.1
  | error fault after =>
    rw [ran] at first
    exact first

theorem LeavesWords.get_bind {next : Machine → MachineM β} {machine : Machine} {result : β → Prop}
    (rest : LeavesWords (next machine) machine result) : LeavesWords (get >>= next) machine result :=
  rest

namespace KeepsWords

variable {yields : α → Prop} {result : β → Prop} {value : Int}

theorem bind {action : MachineM α} {next : α → MachineM β} (first : KeepsWords action yields)
    (rest : ∀ a, yields a → KeepsWords (next a) result) : KeepsWords (action >>= next) result :=
  fun machine holds => (first machine holds).bind rest

theorem of_pure {a : α} (yielded : yields a) : KeepsWords (pure a : MachineM α) yields :=
  fun _ holds => ⟨holds, yielded⟩

theorem of_get : KeepsWords (get : MachineM Machine) Machine.HoldsWords :=
  fun _ holds => ⟨holds, holds⟩

theorem of_fault (cause : FaultCause) : KeepsWords (fault cause : MachineM α) yields :=
  fun _ holds => holds

theorem of_modify {change : Machine → Machine}
    (keeps : ∀ machine, machine.HoldsWords → (change machine).HoldsWords) :
    KeepsWords (modify change : MachineM Unit) fun _ => True :=
  fun machine holds => ⟨keeps machine holds, trivial⟩

theorem of_discard {action : MachineM α} (keeps : KeepsWords action yields) :
    KeepsWords (discard action) fun _ => True := by
  intro machine holds
  have left := keeps machine holds
  rw [LeavesWords] at left ⊢
  cases ran : action machine with
  | ok a after =>
    have done : discard action machine = .ok () after := by simp [discard, Functor.mapConst, EStateM.map, ran]
    rw [ran] at left
    rw [done]
    exact ⟨left.1, trivial⟩
  | error fault after =>
    have stopped : discard action machine = .error fault after := by
      simp [discard, Functor.mapConst, EStateM.map, ran]
    rw [ran] at left
    rw [stopped]
    exact left

theorem cell (index : Int) : KeepsWords (cell index) IsWord := by
  refine .bind .of_get fun machine holds => ?_
  split
  · next slot _ =>
    refine .of_pure ?_
    rw [Array.getD_eq_getD_getElem?]
    cases held : machine.memory[slot]? with
    | none => exact .zero
    | some word => exact holds word (Array.mem_of_getElem? held)
  · exact .of_fault _

theorem setCell (index : Int) (word : IsWord value) : KeepsWords (setCell index value) fun _ => True := by
  refine .bind .of_get fun machine _ => ?_
  split
  · refine .of_modify fun machine holds other mem => ?_
    rcases Array.mem_or_eq_of_mem_setIfInBounds mem with mem | rfl
    · exact holds other mem
    · exact word
  · exact .of_fault _

theorem read (address : Int) : KeepsWords (read address) IsWord := by
  refine .bind .of_get fun machine _ => ?_
  split
  · exact .cell _
  · exact .of_fault _

theorem write (address : Int) (word : IsWord value) : KeepsWords (write address value) fun _ => True := by
  refine .bind .of_get fun machine _ => ?_
  split
  · exact .setCell _ word
  · exact .of_fault _

theorem push (word : IsWord value) : KeepsWords (push value) fun _ => True := by
  refine .bind .of_get fun machine _ => ?_
  split
  · exact .of_fault _
  · exact .bind (.of_modify fun _ holds => holds) fun _ _ => .setCell _ word

theorem pop : KeepsWords pop IsWord := by
  refine .bind .of_get fun machine _ => ?_
  dsimp only
  split
  · exact .of_fault _
  · exact .bind (.cell _) fun _ word => .bind (.of_modify fun _ holds => holds) fun _ _ => .of_pure word

theorem setTop (sp : Int) : KeepsWords (setTop sp) fun _ => True := by
  refine .bind .of_get fun machine _ => ?_
  split
  · exact .of_fault _
  · split
    · exact .of_fault _
    · exact .of_modify fun _ holds => holds

theorem linked (distance : Nat) {frame : Int} (word : IsWord frame) : KeepsWords (linked frame distance) IsWord := by
  induction distance generalizing frame with
  | zero => exact .of_pure word
  | succ distance ih => exact .bind (.read _) fun _ word => ih word

theorem leave (arguments : Int) : KeepsWords (leave arguments) IsWord :=
  .bind .of_get fun _ _ => .bind (.read _) fun _ word => .bind (.read _) fun _ _ => .bind (.read _) fun _ _ =>
    .bind (.setTop _) fun _ _ => .bind (.of_modify fun _ holds => holds) fun _ _ => .of_pure word

end KeepsWords

variable {machine : Machine} {instruction : Instruction}

/-- What a call saves fits in words if the base and the address to return to do so. -/
theorem call_leavesWords (holds : machine.HoldsWords) (registers : IsWord machine.bp ∧ IsWord machine.pc)
    (distance : Nat) (entry : Int) : LeavesWords (call distance entry) machine fun _ => True := by
  obtain ⟨base, back⟩ := registers
  refine .get_bind ?_
  split
  · exact KeepsWords.of_fault _ machine holds
  · have links : LeavesWords (MachineM.base distance) machine IsWord :=
      .get_bind (KeepsWords.linked distance base machine holds)
    refine links.bind fun link word => ?_
    exact .bind (.setCell _ word) fun _ _ => .bind (.setCell _ base) fun _ _ => .bind (.setCell _ back) fun _ _ =>
      .bind (.setCell _ .zero) fun _ _ => .of_modify fun _ holds => holds

/-- The operators lead from words to words. Constants, addresses of variables and what a call saves have to fit in words
by themselves. -/
theorem execute_leavesWords (holds : machine.HoldsWords)
    (constant : instruction.operation.opcode? = some .pushConst → IsWord instruction.value)
    (address : instruction.operation.opcode? = some .pushVar →
      ∃ base, MachineM.base instruction.level machine = .ok base machine ∧ IsWord (base + instruction.value))
    (registers : instruction.operation.opcode? = some .call → IsWord machine.bp ∧ IsWord machine.pc) :
    LeavesWords (execute instruction) machine fun _ => True := by
  unfold execute
  split
  · exact KeepsWords.of_fault _ machine holds
  · exact KeepsWords.bind .pop (fun _ word => .push (UnaryOp.isWord_apply word _)) machine holds
  · refine KeepsWords.bind .pop (fun b second => .bind .pop fun a first => ?_) machine holds
    split
    · exact .push (BinaryOp.isWord_apply? first second _ _ ‹_›)
    · exact .of_fault _
  · exact KeepsWords.push (constant ‹_›) machine holds
  · obtain ⟨base, ran, word⟩ := address ‹_›
    simp only [LeavesWords, Bind.bind, EStateM.bind, ran]
    exact KeepsWords.push word machine holds
  · exact KeepsWords.bind .pop (fun _ _ => .bind (.read _) fun _ word => .push word) machine holds
  · refine KeepsWords.bind .pop (fun address _ => .bind .pop fun value word => ?_) machine holds
    exact .bind (.write _ word) fun _ _ => .of_modify fun _ holds => holds
  · exact call_leavesWords holds (registers ‹_›) _ _
  · exact KeepsWords.bind .of_get (fun _ _ => .setTop _) machine holds
  · exact KeepsWords.of_discard (.leave _) machine holds
  · exact KeepsWords.bind (.leave _) (fun _ word => .push word) machine holds
  · exact KeepsWords.of_modify (fun _ holds => holds) machine holds
  · refine KeepsWords.bind .pop (fun test _ => ?_) machine holds
    split
    · exact .of_modify fun _ holds => holds
    · exact .of_pure trivial

end MachineM

namespace Machine

variable {tree : Block} {start machine : Machine} {n : Nat} {s : Snapshot} {current : Activation}
  {callers : List Waiting} {instruction : Instruction}

namespace Stands

/-- The address of a word lies on the stack. -/
theorem pushVar_address (stands : Stands tree start n machine s current callers) (formed : tree.IsProgram)
    (fetched : machine.instruction? = some instruction) (pushing : instruction.operation = .named .pushVar) :
    ∃ base address : Nat, MachineM.Chain s.words instruction.level s.bp base ∧ base + instruction.value = address ∧
      address < start.stackSize := by
  obtain ⟨shape, behind, loaded, effect⟩ := stands.exists_effect formed fetched (by simp [pushing])
  cases effect with
  | @pushVar count around offset level atAround writable =>
    obtain ⟨inside, -⟩ := List.getElem?_eq_some_iff.mp atAround
    obtain ⟨target, mem, path, chain, -⟩ := stands.reaches inside
    have same : target.site = around := by
      rw [List.drop_eq_getElem_cons inside] at path
      rw [(List.cons.inj path).1, ← Option.some.inj (atAround.symm.trans (List.getElem?_eq_getElem inside))]
    obtain ⟨address, isAddress, below⟩ := loaded.stacked.slot_lt mem (same ▸ writable)
    have length := loaded.length_eq
    have whole := stands.shown.length_le
    rw [stands.size_eq] at whole
    exact ⟨target.base, address, chain, isAddress, by omega⟩
  | _ => cases pushing

/-- A call stands before the end of the code. -/
theorem back_lt (stands : Stands tree start n machine s current callers)
    (fetched : machine.instruction? = some instruction) (calling : instruction.operation = .named .call) :
    s.pc + 1 < tree.program.length := by
  have path := stands.standing.path
  have inside := stands.owns.covers.2
  have last := (List.getElem?_eq_some_iff.mp path.code_last).1
  have notLast : s.pc ≠ current.site.last := by
    intro atLast
    rw [stands.instruction?_eq, atLast, path.code_last] at fetched
    cases fetched
    rcases current.site.return_cases with ⟨-, leaves⟩ | ⟨-, leaves⟩ <;> rw [leaves] at calling <;> cases calling
  omega

/-- The memory of a machine that runs a program fits in words again after a step, if addresses do. -/
theorem step_leavesWords (stands : Stands tree start n machine s current callers) (formed : tree.IsProgram)
    (stack : start.stackSize ≤ 2 ^ 31) (length : tree.program.length ≤ 2 ^ 31) (holds : machine.HoldsWords) :
    MachineM.LeavesWords MachineM.step machine fun _ => True := by
  cases exhausted : machine.exhausted? with
  | some limit =>
    rw [MachineM.LeavesWords, step_exhausted exhausted]
    exact holds
  | none =>
    have inside := stands.pc_lt
    have fetched : machine.instruction? = some tree.program[s.pc] :=
      stands.instruction?_eq.trans (List.getElem?_eq_getElem inside)
    generalize tree.program[s.pc] = instruction at fetched
    have atPc := stands.instruction?_eq.symm.trans fetched
    have ahead := stands.shown.ahead instruction
    obtain ⟨op, level, value, rfl⟩ := (stands.standing.path.refers formed stands.owns atPc).exists_opcode
    rw [MachineM.LeavesWords, step_of_instruction? exhausted fetched, ← MachineM.LeavesWords]
    refine MachineM.execute_leavesWords holds ?_ ?_ ?_
    · intro isConst
      exact stands.standing.path.pushesWord formed stands.owns atPc (congrArg Operation.named (Option.some.inj isConst))
    · intro isVar
      obtain ⟨base, address, chain, isAddress, below⟩ :=
        stands.pushVar_address formed fetched (congrArg Operation.named (Option.some.inj isVar))
      exact ⟨base, MachineM.base_run ahead chain, isAddress ▸ .of_natCast (by omega)⟩
    · intro isCall
      have back := stands.back_lt fetched (congrArg Operation.named (Option.some.inj isCall))
      have below := stands.standing.stacked.length_lt.2
      have whole := stands.shown.length_le
      rw [stands.size_eq] at whole
      rw [ahead.bp_eq, ahead.pc_eq]
      refine ⟨.of_natCast ?_, .of_natCast ?_⟩
      · rw [stands.standing.bp_eq]
        omega
      · exact Nat.lt_of_lt_of_le back length

end Stands

theorem holdsWords_load (machine : Machine) (code : Array Instruction) : (machine.load code).HoldsWords := by
  intro word mem
  rw [memory_load] at mem
  obtain rfl := Array.eq_of_mem_replicate mem
  exact .zero

/-- Whatever state a run comes to, the memory fits in words. -/
theorem holdsWords_resume {code : Array Instruction} (formed : tree.IsProgram) (program : code.toList = tree.program)
    (large : frameSize ≤ machine.stackSize) (stack : machine.stackSize ≤ 2 ^ 31)
    (length : tree.program.length ≤ 2 ^ 31) (n : Nat) : ((machine.load code).resume n).machine.HoldsWords := by
  induction n with
  | zero => exact holdsWords_load machine code
  | succ n ih =>
    cases ran : (machine.load code).resume n with
    | halted _ | faulted _ _ =>
      rwa [resume_of_isOver (by rw [ran]; rfl)]
    | running now =>
      rw [ran] at ih
      obtain ⟨s, current, callers, stands⟩ := stands_of_running formed program large ran
      have left := stands.step_leavesWords formed stack length ih
      rw [MachineM.LeavesWords] at left
      cases stepped : MachineM.step now with
      | error fault after =>
        rw [stepped] at left
        rwa [resume_fault ran stepped]
      | ok result after =>
        rw [stepped] at left
        rw [resume_one ran stepped]
        split <;> exact left.1

end Machine

/-- Values stay words. Wherever a run of compiled code has come, and also when it has faulted, all of the memory fits in
words, if the addresses of the stack and of the code do. -/
theorem values_are_words {depth : Nat} {source : String} {code : Array Instruction}
    (compiled : compileProgram depth source = .ok (.ok code)) {machine : Machine}
    (large : frameSize ≤ machine.stackSize) (stack : machine.stackSize ≤ 2 ^ 31) (length : code.size ≤ 2 ^ 31)
    (n : Nat) :
    ∀ word ∈ ((machine.load code).resume n).machine.memory, leastWord ≤ word ∧ word ≤ greatestWord := by
  obtain ⟨tree, -, formed, program, -⟩ := exists_program_of_compileProgram compiled
  rw [← Array.length_toList, program] at length
  exact Machine.holdsWords_resume formed program large stack length n

/-- Just after the procedure within the function has assigned its argument to the variable of the function. -/
theorem nestedSource_values_are_words :
    (3 : Int) ∈ (((Machine.ofWords 32).load nestedCode).resume 11).machine.memory ∧
      ∀ word ∈ (((Machine.ofWords 32).load nestedCode).resume 11).machine.memory,
        leastWord ≤ word ∧ word ≤ greatestWord :=
  ⟨by decide +kernel,
    values_are_words compileProgram_nestedSource (by decide) (by decide) (by decide) 11⟩

end PLZero
