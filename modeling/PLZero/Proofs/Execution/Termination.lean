import Mathlib.Algebra.Group.Nat.Defs
import PLZero.Proofs.Execution.Safety
import PLZero.Proofs.Generation.Forward
import PLZero.Proofs.Generation.Levels

namespace PLZero

/-- How much is left to do for activations that go on at the given addresses, the current one in front. Each weighs its
distance to the end of the code, and one more in an activation outweighs all that may come up above it. -/
def workLeft (length room : Nat) : List Nat → Nat
  | [] => 0
  | pc :: callers => (length - pc) * length ^ (room - callers.length) + workLeft length room callers

section

variable {length room pc next : Nat} {callers : List Nat}

/-- Control goes on within an activation. -/
theorem workLeft_advance (later : pc < next) (inside : pc < length) :
    workLeft length room (next :: callers) < workLeft length room (pc :: callers) := by
  have less : length - next < length - pc := by omega
  have positive : 0 < length ^ (room - callers.length) := Nat.pow_pos (by omega)
  exact Nat.add_lt_add_right (Nat.mul_lt_mul_of_pos_right less positive) _

/-- A new activation is put above another one, which has gone on. -/
theorem workLeft_call {entry : Nat} (inner : 0 < entry) (inside : pc < length) (few : callers.length < room) :
    workLeft length room (entry :: (pc + 1) :: callers) < workLeft length room (pc :: callers) := by
  obtain ⟨spare, split⟩ : ∃ spare, room - callers.length = spare + 1 :=
    Nat.exists_eq_add_one_of_ne_zero (Nat.sub_ne_zero_of_lt few)
  have further : room - (callers.length + 1) = spare := by omega
  have positive : 0 < length ^ spare := Nat.pow_pos (by omega)
  have entered : (length - entry) * length ^ spare < length * length ^ spare :=
    Nat.mul_lt_mul_of_pos_right (by omega) positive
  have one : length - pc = length - (pc + 1) + 1 := by omega
  have whole : (length - pc) * length ^ (spare + 1) =
      (length - (pc + 1)) * length ^ (spare + 1) + length * length ^ spare := by
    rw [one, Nat.add_mul, Nat.one_mul, Nat.pow_succ']
  simp only [workLeft, List.length_cons, split, further, whole]
  omega

/-- An activation ends, and its caller goes on. -/
theorem workLeft_return {back : Nat} (inside : pc < length) :
    workLeft length room (back :: callers) < workLeft length room (pc :: back :: callers) := by
  have positive : 0 < (length - pc) * length ^ (room - (back :: callers).length) :=
    Nat.mul_pos (by omega) (Nat.pow_pos (by omega))
  rw [workLeft.eq_2 length room pc]
  omega

end

namespace Machine

namespace Stands

variable {tree : Block} {start machine after : Machine} {n : Nat} {s : Snapshot} {current : Activation}
  {callers : List Waiting}

/-- Within an activation of a program without loops control goes forward. -/
theorem pc_advances (stands : Stands tree start n machine s current callers) (formed : tree.IsProgram)
    (free : tree.LoopFree) {instruction : Instruction} (fetched : machine.instruction? = some instruction)
    (stepped : MachineM.step machine = .ok () after)
    (inner : ∀ op ∈ [Opcode.call, .ret, .retf], instruction.operation ≠ .named op) : machine.pc < after.pc := by
  have path := stands.standing.path
  have atPc := stands.shown.pc_eq
  rw [stands.instruction?_eq] at fetched
  have forward := path.forward free stands.owns fetched
  obtain ⟨op, level, value, rfl⟩ := (path.refers formed stands.owns fetched).exists_opcode
  have noCall : ∀ other ∈ [Opcode.call, .ret, .retf],
      (⟨.named op, level, value⟩ : Instruction).operation.opcode? ≠ some other := by
    intro other mem same
    exact inner other mem (congrArg Operation.named (Option.some.inj same))
  have executed := execute_of_step (stands.instruction?_eq.trans fetched) stepped
  by_cases jumps : op = .jump ∨ op = .jneq
  · have leads : (⟨.named op, level, value⟩ : Instruction).target? = some value := by
      rcases jumps with rfl | rfl <;> rfl
    have later := forward value leads
    have goesOn : after.pc = machine.pc + 1 ∨ after.pc = value :=
      MachineM.Steers.execute (fun _ => rfl) noCall _ _ _ executed
    omega
  · have none : ∀ {target : Int}, Operation.opcode? (.named op) = some .jump ∨
        Operation.opcode? (.named op) = some .jneq → target = value := by
      intro target isJump
      exact absurd (isJump.imp Option.some.inj Option.some.inj) jumps
    have goesOn : after.pc = machine.pc + 1 ∨ after.pc = machine.pc + 1 :=
      MachineM.Steers.execute none noCall _ _ _ executed
    omega

/-- In a program without loops each step leaves less to do. -/
theorem step_workLeft (stands : Stands tree start n machine s current callers) (formed : tree.IsProgram)
    (free : tree.LoopFree) :
    (start.resume (n + 1)).isOver ∨ ∃ after s' active waiting, Stands tree start (n + 1) after s' active waiting ∧
      workLeft tree.program.length start.stackSize (s'.pc :: waiting.map (·.back)) <
        workLeft tree.program.length start.stackSize (s.pc :: callers.map (·.back)) := by
  rcases stands.step formed with ⟨fault, after, failed, -⟩ |
    ⟨instruction, after, s', fetched, stepped, shows, size, follows⟩
  · exact .inl (by rw [resume_fault stands.ran failed]; rfl)
  · have inside := stands.pc_lt
    cases follows with
    | stays noCall noRet noRetf more standing =>
      have next := stands.stays fetched stepped shows size more noCall noRet noRetf standing
      refine .inr ⟨after, s', _, _, next, workLeft_advance ?_ inside⟩
      have later := stands.pc_advances formed free fetched stepped (by simp [noCall, noRet, noRetf])
      have atPc := stands.shown.pc_eq
      have atNext := shows.pc_eq
      omega
    | calls calling more value atFront base length standing =>
      have next := stands.calls fetched stepped shows size more calling value atFront base standing
      refine .inr ⟨after, s', _, _, next, workLeft_call (Nat.pos_of_ne_zero more) inside ?_⟩
      have few := stands.standing.stacked.length_lt
      have whole := stands.shown.length_le
      rw [List.length_map, ← stands.size_eq]
      omega
    | returns spelled returning more back held words standing =>
      have next := stands.returns fetched stepped shows size more spelled returning standing
      refine .inr ⟨after, s', _, _, next, ?_⟩
      rw [spelled, back]
      exact workLeft_return inside
    | halts _ _ _ _ _ atZero =>
      left
      rw [resume_one stands.ran stepped, if_pos (by rw [shows.pc_eq, atZero]; rfl)]
      rfl

/-- A run of a program without loops comes to an end. -/
theorem ends (stands : Stands tree start n machine s current callers) (formed : tree.IsProgram)
    (free : tree.LoopFree) : ∃ m, (start.resume m).isOver := by
  generalize left : workLeft tree.program.length start.stackSize (s.pc :: callers.map (·.back)) = work
  induction work using Nat.strongRecOn generalizing n machine s current callers with
  | ind work ih =>
    rcases stands.step_workLeft formed free with ended | ⟨after, s', active, waiting, next, less⟩
    · exact ⟨n + 1, ended⟩
    · exact ih _ (left ▸ less) next rfl

/-- Without a limit on cycles, a run of a program can end early for two causes only. -/
theorem fault_of_unlimited {fault : Fault} (stands : Stands tree start n machine s current callers)
    (formed : tree.IsProgram) (unlimited : start.cycleLimit = none)
    (faulted : start.resume (n + 1) = .faulted fault after) :
    fault.cause = .overflow ∨ fault.cause = .divisionByZero := by
  have same := MachineM.lasting_cycleLimit.resume start n
  rw [stands.ran] at same
  have lasting : machine.exhausted? = none := by
    rw [exhausted?, show machine.cycleLimit = none from same.trans unlimited]
    rfl
  have failed := step_of_faulted stands.ran faulted
  rcases stands.step_of_lasting formed lasting with ⟨failure, reached, alsoFailed, cause⟩ | ⟨_, _, _, _, stepped, -⟩
  · cases failed.symm.trans alsoFailed
    exact cause
  · cases failed.symm.trans stepped

end Stands

end Machine

/-- A program without loops comes to an end, however deep its subroutines call one another: it halts, or it runs out of
stack or divides by zero. -/
theorem loopFree_run_ends {depth : Nat} {source : String} {code : Array Instruction}
    (compiled : compileProgram depth source = .ok (.ok code))
    (loopFree : .fixed .whileKw ∉ sourceTokens source ∧ .fixed .repeatKw ∉ sourceTokens source) {machine : Machine}
    (large : frameSize ≤ machine.stackSize) (unlimited : machine.cycleLimit = none) :
    ∃ n, (∃ now, (machine.load code).resume n = .halted now) ∨
      ∃ fault now, (machine.load code).resume n = .faulted fault now ∧
        (fault.cause.errorClass = .stackOverflow ∨ fault.cause.errorClass = .divisionByZero) := by
  obtain ⟨tree, atProgram, formed, program, -⟩ := exists_program_of_compileProgram compiled
  obtain ⟨derived, -⟩ := derives_of_parse atProgram
  have free : tree.LoopFree := derived.loopFree fun t mem begins => by
    rcases begins with rfl | rfl
    · exact loopFree.1 mem
    · exact loopFree.2 mem
  obtain ⟨n, isOver⟩ := (Machine.stands_load program large).ends formed free
  refine ⟨n, ?_⟩
  cases ended : (machine.load code).resume n with
  | running now =>
    rw [ended] at isOver
    cases isOver
  | halted now => exact .inl ⟨now, rfl⟩
  | faulted fault now =>
    refine .inr ⟨fault, now, rfl, ?_⟩
    obtain ⟨m, before, -, ran, last⟩ := Machine.exists_last isOver
    rw [ended] at last
    obtain ⟨s, current, callers, stands⟩ := Machine.stands_of_running formed program large ran
    rcases stands.fault_of_unlimited formed unlimited last with cause | cause
    · exact .inl (cause ▸ rfl)
    · exact .inr (cause ▸ rfl)

/-- Procedures that call each other without end. -/
def mutualSource : String :=
  "procedure p() procedure q() p(); q(); p()."

def mutualCode : Array Instruction :=
  #[.of .jump 0 9, .of .jump 0 6, .of .jump 0 3, .of .enter 0 4, .of .call 2 1, .of .ret, .of .enter 0 4,
    .of .call 0 3, .of .ret, .of .enter 0 4, .of .call 0 6, .of .ret]

theorem compileProgram_mutualSource : compileProgram maxNesting mutualSource = .ok (.ok mutualCode) :=
  compileProgram_eq_ok_iff.mpr (by decide +kernel)

theorem mutualSource_run_ends :
    ∃ n, (∃ now, ((Machine.ofWords 16).load mutualCode).resume n = .halted now) ∨
      ∃ fault now, ((Machine.ofWords 16).load mutualCode).resume n = .faulted fault now ∧
        (fault.cause.errorClass = .stackOverflow ∨ fault.cause.errorClass = .divisionByZero) :=
  loopFree_run_ends compileProgram_mutualSource ⟨by decide, by decide⟩ (by decide) rfl

end PLZero
