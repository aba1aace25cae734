import PLZero.Machine.Run
import PLZero.Proofs.Generation.Code

namespace PLZero

/-- What is to be known of a machine: the code, the size of the stack, the registers, and the words in use. -/
structure Snapshot where
  code : List Instruction
  size : Nat
  pc : Nat
  bp : Nat
  words : List Int

/-- The top of the stack is the last word in use. The rest of the memory may hold anything. -/
structure Machine.Shows (machine : Machine) (s : Snapshot) : Prop where
  code_eq : machine.code.toList = s.code
  stackSize_eq : machine.stackSize = s.size
  size_memory : machine.memory.size = s.size
  pc_eq : machine.pc = s.pc
  bp_eq : machine.bp = s.bp
  sp_eq : machine.sp = (s.words.length : Int) - 1
  words_prefix : s.words <+: machine.memory.toList

theorem set_length_prefix {words memory : List Int} (h : words <+: memory) (room : words.length < memory.length)
    (value : Int) : words ++ [value] <+: memory.set words.length value := by
  obtain ⟨rest, rfl⟩ := h
  cases rest with
  | nil => simp at room
  | cons first rest =>
    refine ⟨rest, ?_⟩
    rw [List.set_append_right _ _ (Nat.le_refl _)]
    simp

theorem set_prefix {words memory : List Int} (h : words <+: memory) {address : Nat} (inside : address < words.length)
    (value : Int) : words.set address value <+: memory.set address value := by
  obtain ⟨rest, rfl⟩ := h
  exact ⟨rest, (List.set_append_left _ _ inside).symm⟩

namespace MachineM

/-- What an action leads to, unless the stack overflows. -/
def Achieves {α : Type} (action : MachineM α) (machine : Machine) (post : α → Machine → Prop) : Prop :=
  match action machine with
  | .ok result after => post result after
  | .error fault _ => fault.cause = .overflow

variable {α β : Type} {machine : Machine} {s : Snapshot}

theorem get_bind_run (next : Machine → MachineM α) : (get >>= next) machine = next machine machine := rfl

theorem modify_bind_run (change : Machine → Machine) (next : Unit → MachineM α) :
    (modify change >>= next) machine = next () (change machine) := rfl

theorem fault_run (cause : FaultCause) :
    (fault cause : MachineM α) machine = .error ⟨cause, machine.registers⟩ machine := rfl

theorem bind_run {action : MachineM α} {next : α → MachineM β} {result : α} {after : Machine}
    (ran : action machine = .ok result after) : (action >>= next) machine = next result after := by
  simp only [bind, EStateM.bind, ran]

theorem achieves_bind {action : MachineM α} {next : α → MachineM β} {post : β → Machine → Prop}
    (h : action.Achieves machine fun result after => (next result).Achieves after post) :
    (action >>= next).Achieves machine post := by
  simp only [Achieves, bind, EStateM.bind] at h ⊢
  cases ran : action machine <;> simpa only [ran] using h

theorem achieves_of_ok {action : MachineM α} {post : α → Machine → Prop} {result : α} {after : Machine}
    (ran : action machine = .ok result after) (h : post result after) : action.Achieves machine post := by
  simpa only [Achieves, ran] using h

theorem achieves_of_overflow {action : MachineM α} {post : α → Machine → Prop} {fault : Fault} {after : Machine}
    (ran : action machine = .error fault after) (cause : fault.cause = .overflow) : action.Achieves machine post := by
  simpa only [Achieves, ran] using cause

theorem Achieves.imp {action : MachineM α} {post goal : α → Machine → Prop} (achieved : action.Achieves machine post)
    (weaker : ∀ result after, post result after → goal result after) : action.Achieves machine goal := by
  simp only [Achieves] at achieved ⊢
  split at achieved
  · exact weaker _ _ achieved
  · exact achieved

theorem Achieves.of_run {action : MachineM α} {post : α → Machine → Prop} {result : α} {after : Machine}
    (achieved : action.Achieves machine post) (ran : action machine = .ok result after) : post result after := by
  simpa only [Achieves, ran] using achieved

theorem slot?_of_lt {size index : Nat} (inside : index < size) : slot? size index = some index := by
  rw [slot?, if_pos (by omega), Int.toNat_natCast]

theorem setCell_run {index : Nat} (inside : index < machine.memory.size) (value : Int) :
    setCell index value machine = .ok () { machine with memory := machine.memory.setIfInBounds index value } := by
  rw [setCell, get_bind_run, slot?_of_lt inside]
  rfl

end MachineM

namespace Machine.Shows

variable {machine : Machine} {s : Snapshot}

theorem sp_succ (shown : machine.Shows s) : machine.sp + 1 = (s.words.length : Nat) := by
  rw [shown.sp_eq]
  omega

theorem length_le (shown : machine.Shows s) : s.words.length ≤ s.size := by
  have := shown.words_prefix.length_le
  rwa [Array.length_toList, shown.size_memory] at this

theorem lt_size (shown : machine.Shows s) {address : Nat} {value : Int} (held : s.words[address]? = some value) :
    address < s.size :=
  Nat.lt_of_lt_of_le (List.getElem?_eq_some_iff.mp held).1 shown.length_le

theorem memory_eq (shown : machine.Shows s) {address : Nat} {value : Int} (held : s.words[address]? = some value) :
    machine.memory[address]? = some value := by
  obtain ⟨rest, whole⟩ := shown.words_prefix
  rw [← Array.getElem?_toList, ← whole]
  rw [List.getElem?_append_left (List.getElem?_eq_some_iff.mp held).1, held]

theorem cell_run (shown : machine.Shows s) {address : Nat} {value : Int} (held : s.words[address]? = some value) :
    MachineM.cell address machine = .ok value machine := by
  have inside := shown.lt_size held
  rw [MachineM.cell, MachineM.get_bind_run, MachineM.slot?_of_lt (by rw [shown.size_memory]; exact inside)]
  simp only [Array.getD_eq_getD_getElem?, shown.memory_eq held]
  rfl

end Machine.Shows

namespace MachineM

variable {α β : Type} {machine : Machine} {s : Snapshot}

theorem push_run (shown : machine.Shows s) (room : s.words.length < s.size) (value : Int) :
    ∃ after, push value machine = .ok () after ∧ after.Shows { s with words := s.words ++ [value] } := by
  have top := shown.sp_succ
  have inside : s.words.length < machine.memory.size := by rwa [shown.size_memory]
  refine ⟨{ machine with
    sp := machine.sp + 1
    memory := machine.memory.setIfInBounds s.words.length value }, ?_,
    { shown with size_memory := ?_, sp_eq := ?_, words_prefix := ?_ }⟩
  · rw [push, get_bind_run, if_neg (by rw [shown.stackSize_eq]; omega), top, modify_bind_run, top]
    refine setCell_run ?_ value
    exact inside
  · simp [shown.size_memory]
  · simp [top]
  · simpa using set_length_prefix shown.words_prefix (by simpa using inside) value

theorem push_achieves (shown : machine.Shows s) (value : Int) :
    (push value).Achieves machine fun _ after => after.Shows { s with words := s.words ++ [value] } := by
  by_cases full : (machine.stackSize : Int) ≤ machine.sp + 1
  · exact achieves_of_overflow (by rw [push, get_bind_run, if_pos full, fault_run]) rfl
  · rw [shown.stackSize_eq, shown.sp_succ] at full
    obtain ⟨after, ran, shows⟩ := push_run shown (by omega) value
    exact achieves_of_ok ran shows

theorem pop_run {words : List Int} {value : Int} (shown : machine.Shows s) (words_eq : s.words = words ++ [value]) :
    ∃ after, pop machine = .ok value after ∧ after.Shows { s with words } ∧ after.memory = machine.memory := by
  have top : machine.sp = (words.length : Nat) := by
    rw [shown.sp_eq, words_eq]
    simp
  have last : s.words[words.length]? = some value := by simp [words_eq]
  refine ⟨{ machine with sp := (words.length : Int) - 1 }, ?_, { shown with sp_eq := rfl, words_prefix := ?_ }, rfl⟩
  · rw [pop, get_bind_run, if_neg (by omega), top, bind_run (shown.cell_run last), modify_bind_run, top]
    rfl
  · exact (List.prefix_append words [value]).trans (words_eq ▸ shown.words_prefix)

theorem read_run {address : Nat} {value : Int} (shown : machine.Shows s) (held : s.words[address]? = some value) :
    read address machine = .ok value machine := by
  have inside := shown.lt_size held
  rw [read, get_bind_run, if_pos (by rw [shown.stackSize_eq]; omega)]
  exact shown.cell_run held

theorem write_run {address : Nat} (shown : machine.Shows s) (inside : address < s.words.length) (value : Int) :
    ∃ after, write address value machine = .ok () after ∧
      after.Shows { s with words := s.words.set address value } ∧
        after.memory = machine.memory.setIfInBounds address value := by
  have whole := shown.length_le
  refine ⟨{ machine with memory := machine.memory.setIfInBounds address value }, ?_,
    { shown with size_memory := ?_, sp_eq := ?_, words_prefix := ?_ }, rfl⟩
  · rw [write, get_bind_run, if_pos (by rw [shown.stackSize_eq]; omega)]
    exact setCell_run (by rw [shown.size_memory]; omega) value
  · simp [shown.size_memory]
  · simp [shown.sp_eq]
  · simpa using set_prefix shown.words_prefix inside value

/-- The base of the frame that so many static links lead to. -/
def Chain (words : List Int) : (distance frame base : Nat) → Prop
  | 0, frame, base => base = frame
  | distance + 1, frame, base => ∃ link : Nat, words[frame]? = some (link : Int) ∧ Chain words distance link base

theorem linked_run {distance frame base : Nat} (shown : machine.Shows s) (chain : Chain s.words distance frame base) :
    linked frame distance machine = .ok (base : Int) machine := by
  induction distance generalizing frame with
  | zero =>
    cases chain
    rfl
  | succ distance ih =>
    obtain ⟨link, held, further⟩ := chain
    have atLink : read (frame + staticLink) machine = .ok (link : Int) machine := by
      rw [staticLink, Int.add_zero]
      exact read_run shown held
    rw [linked, bind_run atLink]
    exact ih further

theorem base_run {distance base : Nat} (shown : machine.Shows s) (chain : Chain s.words distance s.bp base) :
    MachineM.base distance machine = .ok (base : Int) machine := by
  rw [MachineM.base, get_bind_run, shown.bp_eq]
  exact linked_run shown chain

theorem level_of (op : Opcode) (value : Int) {distance : Nat} (small : distance ≤ maxLevel) :
    ((Instruction.of op distance value).level : Nat) = distance :=
  Nat.mod_eq_of_lt (Nat.lt_succ_of_le small)

section Opcodes

variable {words : List Int} {distance : Nat} {value : Int}

theorem execute_pushConst (shown : machine.Shows s) :
    (execute (.of .pushConst distance value)).Achieves machine fun _ after =>
      after.Shows { s with words := s.words ++ [value] } :=
  push_achieves shown value

theorem execute_unary {op : UnaryOp} {a : Int} (shown : machine.Shows s) (words_eq : s.words = words ++ [a]) :
    (execute (.of (.unary op) distance value)).Achieves machine fun _ after =>
      after.Shows { s with words := words ++ [op.apply a] } := by
  obtain ⟨popped, ran, shown, -⟩ := pop_run shown words_eq
  change (pop >>= fun a => push (op.apply a)).Achieves machine _
  exact achieves_bind (achieves_of_ok ran (push_achieves shown _))

theorem execute_binary {op : BinaryOp} {a b result : Int} (shown : machine.Shows s)
    (words_eq : s.words = words ++ [a] ++ [b]) (applied : op.apply? a b = some result) :
    (execute (.of (.binary op) distance value)).Achieves machine fun _ after =>
      after.Shows { s with words := words ++ [result] } := by
  obtain ⟨first, ranFirst, shown, -⟩ := pop_run shown words_eq
  obtain ⟨second, ranSecond, shown, -⟩ := pop_run shown rfl
  refine achieves_bind (achieves_of_ok ranFirst (achieves_bind (achieves_of_ok ranSecond ?_)))
  simpa only [applied] using push_achieves shown result

/-- A division by zero is noticed when both operands are gone. -/
theorem execute_divisionByZero {op : BinaryOp} {a b : Int} (shown : machine.Shows s)
    (words_eq : s.words = words ++ [a] ++ [b]) (applied : op.apply? a b = none) :
    ∃ fault after, execute (.of (.binary op) distance value) machine = .error fault after ∧
      fault.cause = .divisionByZero := by
  obtain ⟨first, ranFirst, shown, -⟩ := pop_run shown words_eq
  obtain ⟨second, ranSecond, shown, -⟩ := pop_run shown rfl
  refine ⟨⟨.divisionByZero, second.registers⟩, second, ?_, rfl⟩
  refine (bind_run ranFirst).trans ((bind_run ranSecond).trans ?_)
  simp only [applied]
  rfl

theorem execute_pushVar {base : Nat} (shown : machine.Shows s) (small : distance ≤ maxLevel)
    (chain : Chain s.words distance s.bp base) :
    (execute (.of .pushVar distance value)).Achieves machine fun _ after =>
      after.Shows { s with words := s.words ++ [(base : Int) + value] } := by
  have atBase := base_run shown chain
  rw [← level_of .pushVar value small] at atBase
  exact achieves_bind (achieves_of_ok atBase (push_achieves shown _))

theorem execute_eval {address : Nat} {held : Int} (shown : machine.Shows s)
    (words_eq : s.words = words ++ [(address : Int)]) (atAddress : words[address]? = some held) :
    (execute (.of .eval distance value)).Achieves machine fun _ after =>
      after.Shows { s with words := words ++ [held] } := by
  obtain ⟨popped, ran, shown, -⟩ := pop_run shown words_eq
  exact achieves_bind (achieves_of_ok ran (achieves_bind (achieves_of_ok (read_run shown atAddress)
    (push_achieves shown held))))

theorem execute_assign {address : Nat} {stored : Int} (shown : machine.Shows s)
    (words_eq : s.words = words ++ [stored] ++ [(address : Int)]) (inside : address < words.length) :
    (execute (.of .assign distance value)).Achieves machine fun _ after =>
      after.Shows { s with words := words.set address stored } ∧
        after.memory = machine.memory.setIfInBounds address stored ∧ after.lastWrite = some (address : Int) := by
  obtain ⟨first, ranFirst, shown, memoryFirst⟩ := pop_run shown words_eq
  obtain ⟨second, ranSecond, shown, memorySecond⟩ := pop_run shown rfl
  obtain ⟨third, ranWrite, shown, memory⟩ := write_run shown inside stored
  rw [memorySecond, memoryFirst] at memory
  refine achieves_bind (achieves_of_ok ranFirst (achieves_bind (achieves_of_ok ranSecond ?_)))
  exact achieves_bind (achieves_of_ok ranWrite ⟨{ shown with }, memory, rfl⟩)

theorem execute_jump {target : Nat} (shown : machine.Shows s) :
    (execute (.of .jump distance target)).Achieves machine fun _ after =>
      after.Shows { s with pc := target } :=
  { shown with pc_eq := rfl }

theorem execute_jneq {target : Nat} {test : Int} (shown : machine.Shows s) (words_eq : s.words = words ++ [test]) :
    (execute (.of .jneq distance target)).Achieves machine fun _ after =>
      after.Shows { s with pc := if test = 0 then target else s.pc, words } := by
  obtain ⟨popped, ran, shown, -⟩ := pop_run shown words_eq
  refine achieves_bind (achieves_of_ok ran ?_)
  by_cases zero : test = 0
  · simp only [if_pos zero]
    exact { shown with pc_eq := rfl }
  · simp only [if_neg zero]
    exact shown

/-- The new frame has a link to the frame that the instruction tells, the base of the caller, the address to go on at,
and a zero for the result. -/
theorem execute_call {base target : Nat} (shown : machine.Shows s) (small : distance ≤ maxLevel)
    (chain : Chain s.words distance s.bp base) :
    (execute (.of .call distance target)).Achieves machine fun _ after =>
      after.Shows
        { s with
          pc := target
          bp := s.words.length
          words := s.words ++ [(base : Int)] ++ [(s.bp : Int)] ++ [(s.pc : Int)] ++ [0] } := by
  have atBase := base_run shown chain
  rw [← level_of .call target small] at atBase
  have top := shown.sp_succ
  change (call _ _).Achieves machine _
  by_cases full : (machine.stackSize : Int) ≤ machine.sp + frameSize
  · exact achieves_of_overflow (by rw [call, get_bind_run, if_pos full, fault_run]) rfl
  · have room : s.words.length + 3 < machine.memory.size := by
      rw [shown.size_memory, ← shown.stackSize_eq]
      simp only [frameSize] at full
      omega
    have atLink : (s.words.length : Int) + staticLink = (s.words.length : Nat) := rfl
    have atSaved : (s.words.length : Int) + savedBase = (s.words.length + 1 : Nat) := rfl
    have atReturn : (s.words.length : Int) + returnAddress = (s.words.length + 2 : Nat) := rfl
    have atResult : (s.words.length : Int) + resultSlot = (s.words.length + 3 : Nat) := rfl
    have ran : call (Instruction.of .call distance target).level target machine = .ok ()
        { machine with
          memory := (((machine.memory.setIfInBounds s.words.length base).setIfInBounds (s.words.length + 1)
            s.bp).setIfInBounds (s.words.length + 2) s.pc).setIfInBounds (s.words.length + 3) 0
          bp := s.words.length
          sp := machine.sp + frameSize
          pc := target } := by
      rw [call, get_bind_run, if_neg full, top, atLink, atSaved, atReturn, atResult, bind_run atBase]
      rw [bind_run (setCell_run (by omega) _), bind_run (setCell_run (by simp; omega) _),
        bind_run (setCell_run (by simp; omega) _), bind_run (setCell_run (by simp; omega) _), shown.bp_eq, shown.pc_eq]
      rfl
    refine achieves_of_ok ran
      { shown with size_memory := ?_, pc_eq := rfl, bp_eq := rfl, sp_eq := ?_, words_prefix := ?_ }
    · simp [shown.size_memory]
    · simp [shown.sp_eq, frameSize]
      omega
    · have first := set_length_prefix shown.words_prefix (by simp; omega) base
      have second := set_length_prefix first (by simp; omega) s.bp
      have third := set_length_prefix second (by simp; omega) s.pc
      simpa using set_length_prefix third (by simp; omega) 0

/-- Variables start with what the memory holds behind the words in use. -/
theorem execute_enter {count : Nat} (shown : machine.Shows s) :
    (execute (.of .enter distance count)).Achieves machine fun _ after =>
      ∃ fresh : List Int, fresh.length = count ∧
        (∀ index < count, fresh[index]? = machine.memory[s.words.length + index]?) ∧
          after.Shows { s with words := s.words ++ fresh } := by
  change (get >>= fun machine => setTop (machine.sp + count)).Achieves machine _
  have whole := shown.length_le
  by_cases full : (machine.stackSize : Int) ≤ machine.sp + count
  · exact achieves_of_overflow (by rw [get_bind_run, setTop, get_bind_run, if_pos full, fault_run]) rfl
  · have room : s.words.length + count ≤ machine.memory.toList.length := by
      rw [Array.length_toList, shown.size_memory, ← shown.stackSize_eq]
      rw [shown.sp_eq] at full
      omega
    have ran : (get >>= fun machine => setTop (machine.sp + count)) machine = .ok ()
        { machine with sp := machine.sp + count } := by
      rw [get_bind_run, setTop, get_bind_run, if_neg full, if_neg (by rw [shown.sp_eq]; omega)]
      rfl
    have length : ((machine.memory.toList.drop s.words.length).take count).length = count := by
      rw [List.length_take, List.length_drop]
      omega
    refine achieves_of_ok ran ⟨(machine.memory.toList.drop s.words.length).take count, length, ?_,
      { shown with sp_eq := ?_, words_prefix := ?_ }⟩
    · intro index below
      rw [List.getElem?_take_of_lt below, List.getElem?_drop, Array.getElem?_toList]
    · change machine.sp + count = _
      rw [List.length_append, length, shown.sp_eq]
      omega
    · obtain ⟨rest, memory⟩ := shown.words_prefix
      rw [← memory, List.drop_left]
      exact (List.prefix_append_right_inj _).mpr (List.take_prefix _ _)

/-- The frame and the arguments below it are dropped. -/
theorem leave_run {arguments back caller : Nat} {result : Int} (shown : machine.Shows s) (few : arguments ≤ s.bp)
    (atResult : s.words[s.bp + 3]? = some result) (atReturn : s.words[s.bp + 2]? = some (back : Int))
    (atSaved : s.words[s.bp + 1]? = some (caller : Int)) :
    ∃ after, leave arguments machine = .ok result after ∧
      after.Shows { s with pc := back, bp := caller, words := s.words.take (s.bp - arguments) } ∧
        after.memory = machine.memory := by
  have inside := shown.lt_size atResult
  have size := shown.stackSize_eq
  refine ⟨{ machine with sp := (s.bp : Int) - 1 - arguments, pc := back, bp := caller }, ?_,
    { shown with pc_eq := rfl, bp_eq := rfl, sp_eq := ?_, words_prefix := ?_ }, rfl⟩
  · have resultAt : read (machine.bp + resultSlot) machine = .ok result machine := by
      rw [shown.bp_eq]
      exact read_run shown atResult
    have returnAt : read (machine.bp + returnAddress) machine = .ok (back : Int) machine := by
      rw [shown.bp_eq]
      exact read_run shown atReturn
    have savedAt : read (machine.bp + savedBase) machine = .ok (caller : Int) machine := by
      rw [shown.bp_eq]
      exact read_run shown atSaved
    have moved : setTop (machine.bp - 1 - arguments) machine = .ok ()
        { machine with sp := (s.bp : Int) - 1 - arguments } := by
      rw [shown.bp_eq, setTop, get_bind_run, if_neg (by omega), if_neg (by omega), ← shown.bp_eq]
      rfl
    rw [leave, get_bind_run, bind_run resultAt, bind_run returnAt, bind_run savedAt, bind_run moved, modify_bind_run]
    rfl
  · have := (List.getElem?_eq_some_iff.mp atResult).1
    change (s.bp : Int) - 1 - arguments = _
    rw [List.length_take]
    omega
  · exact (List.take_prefix _ _).trans shown.words_prefix

section

variable {arguments back caller : Nat} {result : Int} (shown : machine.Shows s) (few : arguments ≤ s.bp)
  (atResult : s.words[s.bp + 3]? = some result) (atReturn : s.words[s.bp + 2]? = some (back : Int))
  (atSaved : s.words[s.bp + 1]? = some (caller : Int))
include shown few atResult atReturn atSaved

theorem execute_ret :
    ∃ after, execute (.of .ret distance arguments) machine = .ok () after ∧
      after.Shows { s with pc := back, bp := caller, words := s.words.take (s.bp - arguments) } ∧
        after.memory = machine.memory := by
  obtain ⟨after, ran, shown, memory⟩ := leave_run shown few atResult atReturn atSaved
  exact ⟨after, bind_run ran, shown, memory⟩

/-- There is room for the result where the frame was. -/
theorem execute_retf :
    ∃ after, execute (.of .retf distance arguments) machine = .ok () after ∧
      after.Shows { s with pc := back, bp := caller, words := s.words.take (s.bp - arguments) ++ [result] } := by
  have inside := shown.lt_size atResult
  obtain ⟨left, ran, shown, -⟩ := leave_run shown few atResult atReturn atSaved
  have room : (s.words.take (s.bp - arguments)).length < s.size := by
    rw [List.length_take]
    omega
  obtain ⟨after, pushed, shown⟩ := push_run shown room result
  exact ⟨after, (bind_run ran).trans pushed, shown⟩

end

end Opcodes

end MachineM

end PLZero
