import PLZero.Proofs.Execution.Heights
import PLZero.Proofs.Generation.Levels

namespace PLZero

namespace Stacked

variable {tree : Block} {words : List Int} {current : Activation} {callers : List Waiting} {start machine : Machine}
  {n : Nat}

/-- Each frame is that of the main program, or a call that is pending has pushed it. -/
theorem activates (stacked : Stacked tree words current callers) (history : Machine.History tree start current callers)
    (pending : ∀ caller ∈ callers, caller.step ∈ start.pendingCalls n) :
    ∀ around ∈ frames current callers, start.Activates tree n around.path around.base := by
  induction stacked with
  | main =>
    intro around mem
    obtain rfl := List.mem_singleton.mp mem
    exact .main
  | @call callee caller callers _ reached _ _ _ _ _ _ ih =>
    obtain ⟨own, others⟩ := List.forall_mem_cons.mp pending
    intro around mem
    cases history with
    | call earlier begun =>
      rcases List.mem_cons.mp mem with rfl | mem
      · exact .call own begun.ran begun.fetched reached begun.value_eq begun.sp_eq
      · exact ih earlier others around mem

/-- The saved bases lead to all frames. -/
theorem live (stacked : Stacked tree words current callers)
    (held : ∀ {address : Nat} {value : Int}, words[address]? = some value → machine.memory[address]? = some value)
    (begins : machine.Live current.base) : ∀ around ∈ frames current callers, machine.Live around.base := by
  induction stacked with
  | main =>
    intro around mem
    obtain rfl := List.mem_singleton.mp mem
    exact begins
  | call _ _ _ _ atSaved _ _ _ ih =>
    intro around mem
    rcases List.mem_cons.mp mem with rfl | mem
    · exact begins
    · exact ih (.caller begins (held atSaved)) around mem

/-- The frame of the main program has the base zero. -/
theorem base_eq_zero (stacked : Stacked tree words current callers) {around : Activation}
    (mem : around ∈ frames current callers) (outermost : around.outer = []) : around.base = 0 := by
  induction stacked with
  | main =>
    obtain rfl := List.mem_singleton.mp mem
    rfl
  | call _ _ linked _ _ _ _ _ ih =>
    rcases List.mem_cons.mp mem with rfl | mem
    · obtain ⟨parent, -, path, -⟩ := linked
      rw [outermost] at path
      cases path
    · exact ih mem

end Stacked

namespace Machine

variable {tree : Block} {start machine after : Machine} {n : Nat} {s : Snapshot} {current : Activation}
  {callers : List Waiting} {instruction : Instruction} {around : Activation}

/-- A frame on the stack that is linked from the current one, so many blocks out. -/
structure Reaches (tree : Block) (start machine : Machine) (n : Nat) (path : List Site) (distance base : Nat) :
    Prop where
  run : MachineM.base distance machine = .ok base machine
  live : machine.Live base
  activates : start.Activates tree n (path.drop distance) base
  main : distance + 1 = path.length → base = 0

namespace Stands

theorem live (stands : Stands tree start n machine s current callers) (mem : around ∈ frames current callers) :
    machine.Live around.base := by
  have base := stands.shown.bp_eq
  rw [stands.standing.bp_eq] at base
  exact stands.standing.stacked.live stands.shown.memory_eq (.current base) around mem

theorem activates (stands : Stands tree start n machine s current callers) (mem : around ∈ frames current callers) :
    start.Activates tree n around.path around.base := by
  refine stands.standing.stacked.activates stands.history (fun caller among => ?_) around mem
  rw [stands.calls_eq]
  exact List.mem_map_of_mem among

/-- The static chain leads to an activation of each of the blocks around. -/
theorem reaches (stands : Stands tree start n machine s current callers) {distance : Nat}
    (inside : distance < current.path.length) :
    ∃ around ∈ frames current callers, around.path = current.path.drop distance ∧
      MachineM.Chain s.words distance s.bp around.base ∧
      Reaches tree start machine n current.path distance around.base := by
  obtain ⟨around, mem, path, chain⟩ := stands.standing.stacked.chain inside
  rw [← stands.standing.bp_eq] at chain
  refine ⟨around, mem, path, chain, ?_, stands.live mem, path ▸ stands.activates mem, fun outermost => ?_⟩
  · exact MachineM.base_run stands.shown chain
  · have whole := congrArg List.length path
    rw [Activation.path, List.length_cons, List.length_drop] at whole
    exact stands.standing.stacked.base_eq_zero mem (List.length_eq_zero_iff.mp (by omega))

/-- An instruction within the statement of a block has an effect on the shape of the stack. -/
theorem exists_effect (stands : Stands tree start n machine s current callers) (formed : tree.IsProgram)
    (fetched : machine.instruction? = some instruction)
    (inner : ∀ op ∈ [Opcode.jump, .enter, .ret, .retf], instruction.operation ≠ .named op) :
    ∃ shape behind, Loaded tree s.words current callers shape ∧ Effect current.path instruction shape behind := by
  have path := stands.standing.path
  simp only [List.forall_mem_cons] at inner
  obtain ⟨noJump, noEnter, noRet, noRetf, -⟩ := inner
  rw [stands.instruction?_eq] at fetched
  cases stands.standing.point with
  | called _ atFront _ =>
    rcases atFront with atStart | atEntry
    · rw [atStart, path.code_start] at fetched
      cases fetched
      exact absurd rfl noJump
    · rw [atEntry, path.code_entry] at fetched
      cases fetched
      exact absurd rfl noEnter
  | within shaped loaded =>
    rcases shaped.next path formed with ⟨atLast, -⟩ | ⟨other, behind, alsoFetched, effect, -⟩
    · rw [atLast, path.code_last] at fetched
      cases fetched
      rcases current.site.return_cases with ⟨-, leaves⟩ | ⟨-, leaves⟩
      · exact absurd (congrArg Instruction.operation leaves) noRet
      · exact absurd (congrArg Instruction.operation leaves) noRetf
    · cases fetched.symm.trans alsoFetched
      exact ⟨_, behind, loaded, effect⟩

/-- The address of a word is pushed: it lies in the frame that the level leads to. -/
theorem pushVar_reaches (stands : Stands tree start n machine s current callers) (formed : tree.IsProgram)
    (fetched : machine.instruction? = some instruction) (pushing : instruction.operation = .named .pushVar)
    (next : start.resume (n + 1) = .running after) :
    ∃ around, ∃ base top : Nat, current.path[instruction.level.val]? = some around ∧
      around.Writable instruction.value ∧ Reaches tree start machine n current.path instruction.level base ∧
        after.sp = top ∧ after.memory[top]? = some (base + instruction.value) := by
  obtain ⟨shape, behind, loaded, effect⟩ := stands.exists_effect formed fetched (by simp [pushing])
  obtain ⟨stepped, -⟩ := stands.step_of_running formed next
  have executed := execute_of_step fetched stepped
  cases effect with
  | @pushVar count around offset level atAround writable =>
    obtain ⟨inside, -⟩ := List.getElem?_eq_some_iff.mp atAround
    obtain ⟨target, mem, path, chain, reaches⟩ := stands.reaches inside
    have ahead := stands.shown.ahead ⟨.named .pushVar, level, offset⟩
    rw [Instruction.eq_of_level] at executed ahead
    have shows := (MachineM.execute_pushVar ahead (Nat.le_of_lt_succ level.isLt) chain).of_run executed
    refine ⟨around, target.base, s.words.length, atAround, writable, reaches, ?_, shows.memory_eq ?_⟩
    · simp [shows.sp_eq]
    · exact List.getElem?_concat_length
  | _ => cases pushing

/-- A call links the new frame to the one that the level leads to, that of the block which declares the subroutine. -/
theorem call_reaches (stands : Stands tree start n machine s current callers) (formed : tree.IsProgram)
    (fetched : machine.instruction? = some instruction) (calling : instruction.operation = .named .call)
    (next : start.resume (n + 1) = .running after) :
    ∃ around inner, ∃ base frame : Nat, current.path[instruction.level.val]? = some around ∧ around.Encloses inner ∧
      (instruction.value = inner.start ∨ instruction.value = inner.entry) ∧
        Reaches tree start machine n current.path instruction.level base ∧
          after.bp = frame ∧ after.memory[frame]? = some (base : Int) := by
  obtain ⟨shape, behind, loaded, effect⟩ := stands.exists_effect formed fetched (by simp [calling])
  obtain ⟨stepped, -⟩ := stands.step_of_running formed next
  have executed := execute_of_step fetched stepped
  cases effect with
  | @call count around inner heading address level atAround encloses owned called =>
    obtain ⟨inside, -⟩ := List.getElem?_eq_some_iff.mp atAround
    obtain ⟨target, mem, path, chain, reaches⟩ := stands.reaches inside
    have ahead := stands.shown.ahead ⟨.named .call, level, address⟩
    rw [Instruction.eq_of_level] at executed ahead
    have shows := (MachineM.execute_call ahead (Nat.le_of_lt_succ level.isLt) chain).of_run executed
    refine ⟨around, inner, target.base, s.words.length, atAround, encloses, called.imp (congrArg _) (congrArg _), reaches,
      shows.bp_eq, shows.memory_eq ?_⟩
    simp
  | _ => cases calling

end Stands

end Machine

/-- The static chain is right. The level of each instruction is the distance to the block that owns the word or declares
the subroutine. Wherever a run of compiled code has come, the links lead from the current frame to frames on the stack,
each of an activation of the block so many blocks out, and the accesses and calls follow them. -/
theorem static_chain {depth : Nat} {source : String} {code : Array Instruction}
    (compiled : compileProgram depth source = .ok (.ok code))
    {machine now : Machine} (large : frameSize ≤ machine.stackSize) {n : Nat}
    (ran : (machine.load code).resume n = .running now) :
    ∃ tree : Block, parse (sourceTokens source) = some tree ∧
      (∀ (address : Nat) instruction, code[address]? = some instruction →
        ∃ site outer, tree.Path (site :: outer) ∧ site.Owns address ∧ site.Refers outer instruction) ∧
      ∀ site outer (pc : Nat), tree.Path (site :: outer) → site.Owns pc → now.pc = pc →
        (∀ k ≤ outer.length, ∃ base, Machine.Reaches tree (machine.load code) now n (site :: outer) k base) ∧
        ∀ instruction after, now.instruction? = some instruction →
          (machine.load code).resume (n + 1) = .running after →
            (instruction.operation = .named .pushVar → ∃ around, ∃ base top : Nat,
              (site :: outer)[instruction.level.val]? = some around ∧ around.Writable instruction.value ∧
                Machine.Reaches tree (machine.load code) now n (site :: outer) instruction.level base ∧
                  after.sp = top ∧ after.memory[top]? = some (base + instruction.value)) ∧
            (instruction.operation = .named .call → ∃ around inner, ∃ base frame : Nat,
              (site :: outer)[instruction.level.val]? = some around ∧ around.Encloses inner ∧
                (instruction.value = inner.start ∨ instruction.value = inner.entry) ∧
                  Machine.Reaches tree (machine.load code) now n (site :: outer) instruction.level base ∧
                    after.bp = frame ∧ after.memory[frame]? = some (base : Int)) := by
  obtain ⟨tree, atProgram, formed, program, -⟩ := exists_program_of_compileProgram compiled
  refine ⟨tree, atProgram, ?_, ?_⟩
  · intro address instruction fetched
    rw [← Array.getElem?_toList, program] at fetched
    obtain ⟨site, outer, path, owned⟩ := Block.Path.exists_owns (List.getElem?_eq_some_iff.mp fetched).1
    exact ⟨site, outer, path, owned, path.refers formed owned fetched⟩
  · intro site outer pc path owned atPc
    obtain ⟨s, current, callers, stands⟩ := Machine.stands_of_running formed program large ran
    obtain rfl : s.pc = pc := Int.ofNat.inj (stands.shown.pc_eq.symm.trans atPc)
    have same : current.path = site :: outer := stands.standing.path.unique path stands.owns owned
    rw [← same]
    refine ⟨fun k inside => ?_, fun instruction after fetched next => ⟨fun pushing => ?_, fun calling => ?_⟩⟩
    · have within : k < current.path.length := by
        rw [same, List.length_cons]
        omega
      obtain ⟨around, -, -, -, reaches⟩ := stands.reaches within
      exact ⟨around.base, reaches⟩
    · exact stands.pushVar_reaches formed fetched pushing next
    · exact stands.call_reaches formed fetched calling next

/-- The procedure of the program reaches the function around it. -/
theorem nestedSource_static_chain :
    let start := (Machine.ofWords 32).load nestedCode
    ∃ now, start.resume 7 = .running now ∧ ∃ tree site outer base,
      tree.Path (site :: outer) ∧ site.Owns 4 ∧ Machine.Reaches tree start now 7 (site :: outer) 1 base := by
  intro start
  have ran : start.resume 7 = .running (start.resume 7).machine := by decide +kernel
  have next : start.resume 8 = .running (start.resume 8).machine := by decide +kernel
  have fetched : (start.resume 7).machine.instruction? = some (.of .pushVar 1 (-1)) := by decide +kernel
  have atPc : (start.resume 7).machine.pc = (4 : Nat) := by decide +kernel
  have large : frameSize ≤ (Machine.ofWords 32).stackSize := by decide
  obtain ⟨tree, -, levels, reaches⟩ := static_chain compileProgram_nestedSource large ran
  obtain ⟨site, outer, path, owned, -⟩ := levels 4 (.of .pushVar 1 (-1)) rfl
  obtain ⟨-, base, -, -, -, reaches, -⟩ := ((reaches site outer 4 path owned atPc).2 _ _ fetched next).1 rfl
  exact ⟨_, ran, tree, site, outer, base, path, owned, reaches⟩

end PLZero
