import PLZero.Proofs.Execution.Calls
import PLZero.Proofs.Execution.Faults
import PLZero.Proofs.Translation.Compiler

namespace PLZero

namespace Block

/-- The variables of the main program lie behind the links and the result of its frame. -/
theorem lt_of_mem_globals {tree : Block} {name : String} {address : Nat} (mem : (name, address) ∈ tree.globals) :
    address < frameSize + (Site.main tree).room := by
  obtain ⟨index, atIndex⟩ := List.mem_iff_getElem?.mp mem
  rw [globals, List.getElem?_zipIdx] at atIndex
  obtain ⟨found, held, same⟩ := Option.map_eq_some_iff.mp atIndex
  have inside := (List.getElem?_eq_some_iff.mp held).1
  have position : frameSize + index = address := congrArg Prod.snd same
  change address < frameSize + (frameSize + tree.vars.length)
  omega

end Block

namespace Machine

variable {tree : Block} {start machine now : Machine} {n : Nat} {s : Snapshot} {current : Activation}
  {callers : List Waiting}

namespace Stands

/-- The fault that ends a run of a program is one that is to be expected. -/
theorem fault_expected {fault : Fault} (stands : Stands tree start n machine s current callers)
    (formed : tree.IsProgram) (faulted : start.resume (n + 1) = .faulted fault now) : fault.IsExpected := by
  have failed := step_of_faulted stands.ran faulted
  rcases stands.step formed with ⟨failure, after, alsoFailed, expected⟩ | ⟨_, after, _, _, stepped, -⟩
  · cases failed.symm.trans alsoFailed
    exact expected
  · cases failed.symm.trans stepped

/-- A run of a program halts when the main program returns, which leaves nothing on the stack. -/
theorem halted_by_return (stands : Stands tree start n machine s current callers) (formed : tree.IsProgram)
    (halted : start.resume (n + 1) = .halted now) :
    MachineM.step machine = .ok () now ∧ s.pc = (Site.main tree).last ∧ machine.instruction? = some (.of .ret) ∧
      now.pc = 0 ∧ now.bp = 0 ∧ now.sp = -1 ∧ frameSize + (Site.main tree).room ≤ s.size := by
  rcases stands.step formed with ⟨fault, after, failed, -⟩ | 
      ⟨instruction, after, s', fetched, stepped, shows, size, follows⟩
  · cases (resume_fault stands.ran failed).symm.trans halted
  · rcases stands.follows fetched stepped shows size follows with ⟨_, _, next⟩ | ⟨ended, atZero⟩
    · cases next.ran.symm.trans halted
    · cases ended.symm.trans halted
      cases follows with
      | halts noCallers isReturn isMain atLast loaded _ atBottom empty =>
        subst isMain isReturn
        have length := loaded.length_eq
        have inside := stands.shown.length_le
        refine ⟨stepped, atLast, fetched, ?_, ?_, ?_, ?_⟩
        · rw [shows.pc_eq, atZero]; rfl
        · rw [shows.bp_eq, atBottom]; rfl
        · rw [shows.sp_eq, empty]; rfl
        · rw [Shape.height_none, Nat.zero_add, Nat.add_zero] at length
          exact length ▸ inside
      | stays _ _ _ more => exact absurd atZero more
      | calls _ more => exact absurd atZero more
      | returns _ _ more => exact absurd atZero more

/-- A step that faults does not lead to address zero. -/
theorem eq_of_fault_at_zero {fault : Fault} (stands : Stands tree start n machine s current callers)
    (formed : tree.IsProgram) (failed : MachineM.step machine = .error fault now) (atZero : now.pc = 0) :
    now = machine := by
  cases exhausted : machine.exhausted? with
  | some limit =>
    rw [step_exhausted exhausted] at failed
    cases failed
    rfl
  | none =>
    obtain ⟨instruction, fetched, -⟩ := stands.standing.next formed n
    have found : machine.instruction? = some instruction := stands.instruction?_eq.trans fetched
    have stepped := step_of_instruction? exhausted found
    have ahead := stands.shown.ahead instruction
    rw [stepped] at failed
    by_cases isRetf : instruction.operation.opcode? = some .retf
    · obtain ⟨reached, ran⟩ := stands.standing.retf_run formed fetched isRetf ahead
      cases ran.symm.trans failed
    · have inPlace := MachineM.offStack_pc.execute isRetf (fun _ _ => rfl) _ _ _ failed
      have advanced := ahead.pc_eq
      simp only at advanced
      rw [atZero] at inPlace
      simp only at inPlace
      omega

end Stands

end Machine

/-- Code that was compiled without complaints runs safely: it can fail only because the stack or the number of cycles is
limited, or because of a division by zero; it comes to address zero only when the main program returns, and then the
stack is empty and reached as far as the variables of the main program. -/
theorem compiled_run_safe {depth : Nat} {source : String} {code : Array Instruction}
    (compiled : compileProgram depth source = .ok (.ok code)) {machine : Machine}
    (large : frameSize ≤ machine.stackSize) (n : Nat) :
    (∀ fault now, (machine.load code).resume n = .faulted fault now →
      (fault.cause.errorClass = .stackOverflow ∨ fault.cause.errorClass = .divisionByZero ∨
        fault.cause.errorClass = .cycleLimitExceeded) ∧ (now.pc = 0 → now = machine.load code)) ∧
    (∀ now, (machine.load code).resume n = .running now → now.pc = 0 → n = 0) ∧
    ∀ now, (machine.load code).resume n = .halted now →
      (∃ m before, m < n ∧ (machine.load code).resume m = .running before ∧ MachineM.step before = .ok () now ∧
        before.pc + 1 = code.size ∧ before.instruction? = some (.of .ret)) ∧
      now.pc = 0 ∧ now.bp = 0 ∧ now.sp = -1 ∧
        ∀ global ∈ (compile depth source).globals, global.2 < machine.stackSize := by
  obtain ⟨tree, -, formed, program, globals⟩ := exists_program_of_compileProgram compiled
  have standing : ∀ {m before}, (machine.load code).resume m = .running before → _ :=
    fun ran => Machine.stands_of_running formed program large ran
  have running : ∀ {m before}, (machine.load code).resume m = .running before → before.pc = 0 → m = 0 := by
    intro m before ran atZero
    cases m with
    | zero => rfl
    | succ m =>
      obtain ⟨-, -, -, more⟩ := Machine.running_of_succ ran
      exact absurd atZero more
  refine ⟨?_, fun now => running, ?_⟩
  · intro fault now faulted
    obtain ⟨m, before, -, ran, last⟩ := Machine.exists_last (by rw [faulted]; rfl)
    obtain ⟨s, current, callers, stands⟩ := standing ran
    rw [faulted] at last
    refine ⟨?_, fun atZero => ?_⟩
    · rcases stands.fault_expected formed last with cause | cause | ⟨limit, cause⟩
      · exact .inl (cause ▸ rfl)
      · exact .inr (.inl (cause ▸ rfl))
      · exact .inr (.inr (cause ▸ rfl))
    · have origin := stands.eq_of_fault_at_zero formed (Machine.step_of_faulted ran last) atZero
      subst origin
      obtain rfl := running ran atZero
      cases ran
      rfl
  · intro now halted
    obtain ⟨m, before, less, ran, last⟩ := Machine.exists_last (by rw [halted]; rfl)
    obtain ⟨s, current, callers, stands⟩ := standing ran
    rw [halted] at last
    obtain ⟨stepped, atLast, fetched, pc, bp, sp, inside⟩ := stands.halted_by_return formed last
    refine ⟨⟨m, before, less, ran, stepped, ?_, fetched⟩, pc, bp, sp, ?_⟩
    · have length := (Site.main tree).length_code
      have whole : code.size = (Site.main tree).code.length := by
        rw [← Array.length_toList, program, Site.main_code]
      have start : (Site.main tree).start = 0 := rfl
      rw [stands.shown.pc_eq, atLast]
      omega
    · intro global mem
      rw [← Array.mem_toList_iff, globals] at mem
      have below := Block.lt_of_mem_globals mem
      have size : s.size = machine.stackSize := stands.size_eq
      omega

/-- A machine with a stack of so many words, without code and without a limit on cycles. -/
def Machine.ofWords (stackSize : Nat) : Machine :=
  unloaded stackSize none

/-- A program with a procedure within a function. -/
def nestedSource : String :=
  "var x; function f(a) var y; procedure g() begin y := a end; begin g(); f := y end; begin x := f(3) end."

def nestedCode : Array Instruction :=
  #[.of .jump 0 16, .of .jump 0 9, .of .jump 0 3, .of .enter 0 4, .of .pushVar 1 (-1), .of .eval, .of .pushVar 1 4,
    .of .assign, .of .ret, .of .enter 0 5, .of .call 0 3, .of .pushVar 0 4, .of .eval, .of .pushVar 0 3, .of .assign,
    .of .retf 0 1, .of .enter 0 5, .of .pushConst 0 3, .of .call 0 9, .of .pushVar 0 4, .of .assign, .of .ret]

theorem nestedSource_compiles :
    ((compile maxNesting nestedSource).failure = none ∧ (compile maxNesting nestedSource).errorCount = 0 ∧
        (compile maxNesting nestedSource).code = nestedCode) ∧
      (compile maxNesting nestedSource).globals = #[("x", 4)] := by
  decide +kernel

theorem compileProgram_nestedSource : compileProgram maxNesting nestedSource = .ok (.ok nestedCode) :=
  compileProgram_eq_ok_iff.mpr nestedSource_compiles.1

/-- The procedure hands the argument of the function on, and so it comes into the variable of the main program. -/
theorem nestedCode_halts :
    ∃ last, ((Machine.ofWords 32).load nestedCode).resume 20 = .halted last ∧ last.word? 4 = some 3 ∧
      last.cycles = 20 := by
  have run : ((Machine.ofWords 32).load nestedCode).resume 20 =
        .halted (((Machine.ofWords 32).load nestedCode).resume 20).machine ∧
      (((Machine.ofWords 32).load nestedCode).resume 20).machine.word? 4 = some 3 ∧
      (((Machine.ofWords 32).load nestedCode).resume 20).machine.cycles = 20 := by
    decide +kernel
  exact ⟨_, run⟩

theorem nestedSource_run_safe :
    ∃ now, ((Machine.ofWords 32).load nestedCode).resume 20 = .halted now ∧ now.pc = 0 ∧ now.bp = 0 ∧ now.sp = -1 ∧
      ∀ global ∈ (compile maxNesting nestedSource).globals, global.2 < 32 := by
  obtain ⟨last, halted, -⟩ := nestedCode_halts
  have large : frameSize ≤ (Machine.ofWords 32).stackSize := by decide
  exact ⟨_, halted, ((compiled_run_safe compileProgram_nestedSource large 20).2.2 _ halted).2⟩

end PLZero
