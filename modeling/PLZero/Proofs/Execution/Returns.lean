import PLZero.Proofs.Execution.Safety

namespace PLZero

namespace Machine

variable {tree : Block} {start machine before after : Machine} {n step : Nat} {s : Snapshot} {current : Activation}
  {callers : List Waiting} {instruction leaving : Instruction} {rest : List Nat}

namespace Stands

/-- The activation that the last pending call has begun, and who waits for it. -/
theorem exists_begun (stands : Stands tree start n machine s current callers)
    (pending : start.pendingCalls n = step :: rest) (called : start.resume step = .running before)
    (fetched : before.instruction? = some instruction) :
    ∃ caller waiting made s', callers = caller :: waiting ∧ caller.step = step ∧
      Begun tree start current caller waiting before instruction made s' := by
  rw [stands.calls_eq] at pending
  cases stands.history with
  | main => cases pending
  | @call _ caller waiting other made call s' _ begun =>
    rw [List.map_cons] at pending
    obtain ⟨rfl, -⟩ := List.cons.inj pending
    cases begun.ran.symm.trans called
    cases begun.fetched.symm.trans fetched
    exact ⟨caller, waiting, made, s', rfl, rfl, begun⟩

/-- A return of the last pending call drops the frame and the arguments. -/
theorem returned (stands : Stands tree start n machine s current callers) (formed : tree.IsProgram)
    (fetched : machine.instruction? = some leaving)
    (returning : leaving.operation = .named .ret ∨ leaving.operation = .named .retf)
    (next : start.resume (n + 1) = .running after) :
    ∃ caller waiting s' result, callers = caller :: waiting ∧ after.Shows s' ∧
      leaving = Block.returnInstruction current.site.owner ∧ s'.pc = caller.back ∧ s'.bp = caller.base ∧
      s.words[current.base + 3]? = some result ∧
      s'.words = s.words.take (current.base - current.site.arity) ++ [result].take current.site.results := by
  obtain ⟨-, other, s', alsoFetched, shows, -, follows⟩ := stands.step_of_running formed next
  cases fetched.symm.trans alsoFetched
  cases follows with
  | stays _ noRet noRetf => exact absurd returning (not_or.mpr ⟨noRet, noRetf⟩)
  | calls calling => rcases returning with same | same <;> cases calling.symm.trans same
  | halts _ _ _ _ _ atZero =>
    obtain ⟨-, -, -, more⟩ := running_of_succ next
    exact absurd (by rw [shows.pc_eq, atZero]; rfl) more
  | returns waits leaves _ back held words standing =>
    exact ⟨_, _, s', _, waits, shows, leaves, back, standing.bp_eq, held, words⟩

end Stands

end Machine

/-- Calls are balanced: when the return that matches a call is made, whatever has come between, the program goes on
behind the call with the same frame, the arguments are gone, and the result of a function is on top. -/
theorem call_balanced {depth : Nat} {source : String} {code : Array Instruction}
    (compiled : compileProgram depth source = .ok (.ok code))
    {machine before last after : Machine} (large : frameSize ≤ machine.stackSize) {n m : Nat}
    {calling returning : Instruction} {rest : List Nat}
    (called : (machine.load code).resume n = .running before) (isCall : before.instruction? = some calling)
    (pending : (machine.load code).pendingCalls m = n :: rest) (ran : (machine.load code).resume m = .running last)
    (isReturn : last.instruction? = some returning)
    (operation : returning.operation = .named .ret ∨ returning.operation = .named .retf)
    (returned : (machine.load code).resume (m + 1) = .running after) :
    ∃ tree : Block, parse (sourceTokens source) = some tree ∧ ∃ site outer heading,
      tree.Path (site :: outer) ∧ site.owner = some heading ∧
      (calling.value = site.start ∨ calling.value = site.entry) ∧
      after.pc = before.pc + 1 ∧ after.bp = before.bp ∧
      (heading.kind = .procedure → returning = .of .ret 0 heading.parameters.length ∧
        after.sp = before.sp - heading.parameters.length) ∧
      (heading.kind = .function → returning = .of .retf 0 heading.parameters.length ∧
        after.sp = before.sp - heading.parameters.length + 1 ∧
        ∃ frame top : Nat, before.sp + 1 = frame ∧ after.sp = top ∧ frame + 3 < last.memory.size ∧
          after.memory[top]? = last.memory[frame + 3]?) := by
  obtain ⟨tree, atProgram, formed, program, -⟩ := exists_program_of_compileProgram compiled
  obtain ⟨s, current, callers, stands⟩ := Machine.stands_of_running formed program large ran
  obtain ⟨caller, waiting, made, begin, rfl, -, begun⟩ := stands.exists_begun pending called isCall
  obtain ⟨other, others, s', result, same, shows, leaves, pc, bp, held, words⟩ :=
    stands.returned formed isReturn operation returned
  obtain ⟨rfl, rfl⟩ := List.cons.inj same
  obtain ⟨heading, owned⟩ := stands.standing.stacked.exists_owner
  have few := stands.standing.stacked.arity_le
  have arity : current.site.arity = heading.parameters.length := by rw [Site.arity, owned, Block.parametersOf]
  have inside := (List.getElem?_eq_some_iff.mp held).1
  have below : (s.words.take (current.base - current.site.arity)).length = current.base - current.site.arity := by
    rw [List.length_take]
    omega
  have frame := begun.sp_eq
  refine ⟨tree, atProgram, current.site, current.outer, heading, stands.standing.path, owned, begun.value_eq,
    ?_, ?_, fun isProcedure => ?_, fun isFunction => ?_⟩
  · rw [shows.pc_eq, pc, ← begun.pc_eq]
  · rw [shows.bp_eq, bp, ← begun.bp_eq]
  · have results : current.site.results = 0 := by rw [Site.results, owned, Option.map_some, isProcedure]; rfl
    refine ⟨?_, ?_⟩
    · rw [leaves, owned, Block.returnInstruction, isProcedure]
    · rw [results, List.take_zero, List.append_nil] at words
      rw [shows.sp_eq, words, below]
      omega
  · have results : current.site.results = 1 := by rw [Site.results, owned, Option.map_some, isFunction]; rfl
    have single : [result].take 1 = [result] := rfl
    rw [results, single] at words
    refine ⟨?_, ?_, current.base, current.base - current.site.arity, frame, ?_, ?_, ?_⟩
    · rw [leaves, owned, Block.returnInstruction, isFunction]
    · rw [shows.sp_eq, words, List.length_append, below, List.length_singleton]
      omega
    · rw [shows.sp_eq, words, List.length_append, below, List.length_singleton]
      omega
    · have memory := stands.shown.memory_eq held
      exact (Array.getElem?_eq_some_iff.mp memory).1
    · rw [stands.shown.memory_eq held]
      refine shows.memory_eq ?_
      rw [words, List.getElem?_append_right (by omega), below, Nat.sub_self]
      rfl

/-- The function of the program leaves its result in place of the argument. -/
theorem nestedSource_call_balanced :
    let start := (Machine.ofWords 32).load nestedCode
    start.pendingCalls 16 = [3] ∧ ∃ before last after, start.resume 3 = .running before ∧
      start.resume 16 = .running last ∧ start.resume 17 = .running after ∧ after.pc = before.pc + 1 ∧
        after.bp = before.bp ∧ after.sp = before.sp ∧ after.memory[9]? = last.memory[13]? := by
  intro start
  have called : start.resume 3 = .running (start.resume 3).machine := by decide
  have ran : start.resume 16 = .running (start.resume 16).machine := by decide +kernel
  have returned : start.resume 17 = .running (start.resume 17).machine := by decide +kernel
  have isCall : (start.resume 3).machine.instruction? = some (.of .call 0 9) := by decide
  have isReturn : (start.resume 16).machine.instruction? = some (.of .retf 0 1) := by decide +kernel
  have pending : start.pendingCalls 16 = [3] := by decide +kernel
  have large : frameSize ≤ (Machine.ofWords 32).stackSize := by decide
  obtain ⟨tree, -, site, outer, heading, -, -, -, pc, bp, procedure, function⟩ :=
    call_balanced compileProgram_nestedSource large called isCall pending ran isReturn (.inr rfl) returned
  refine ⟨pending, _, _, _, called, ran, returned, pc, bp, ?_⟩
  cases kind : heading.kind with
  | procedure => cases (procedure kind).1
  | function =>
    obtain ⟨returns, sp, frame, top, atFrame, atTop, -, same⟩ := function kind
    have one : (1 : Int) = heading.parameters.length := congrArg Instruction.value returns
    have before : (start.resume 3).machine.sp = 9 := by decide
    obtain rfl : frame = 10 := by omega
    obtain rfl : top = 9 := by omega
    exact ⟨by omega, same⟩

end PLZero
