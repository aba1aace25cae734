import PLZero.Proofs.Execution.StaticChain

namespace PLZero

namespace Stacked

variable {tree : Block} {words : List Int} {current : Activation} {callers : List Waiting} {start : Machine}

/-- The operands that an activation keeps while it waits lie under the current frame and its arguments. -/
theorem kept_le (stacked : Stacked tree words current callers) {waiting : Waiting} (mem : waiting ∈ callers) :
    waiting.base + frameSize + waiting.site.room + waiting.kept + current.site.arity ≤ current.base := by
  induction stacked with
  | main => cases mem
  | call _ _ _ _ _ _ base _ ih =>
    rcases List.mem_cons.mp mem with rfl | mem
    · omega
    · have lower := ih mem
      omega

/-- A word that code may change is none of the operands that an activation keeps while it waits. -/
theorem slot_not_kept (stacked : Stacked tree words current callers) {around : Activation} {waiting : Waiting}
    {offset : Int} (mem : around ∈ frames current callers) (writable : around.site.Writable offset)
    (waits : waiting ∈ callers) :
    (around.base : Int) + offset < waiting.base + frameSize + waiting.site.room ∨
      (waiting.base + frameSize + waiting.site.room + waiting.kept : Int) ≤ around.base + offset := by
  induction stacked with
  | main => cases waits
  | @call callee caller callers stacked reached linked atLink atSaved atReturn base goesOn ih =>
    have whole := Stacked.call stacked reached linked atLink atSaved atReturn base goesOn
    rcases List.mem_cons.mp mem with rfl | mem
    · have kept := whole.kept_le waits
      have bounds := writable.bounds
      omega
    · rcases List.mem_cons.mp waits with rfl | waits
      · obtain ⟨target, isAddress, inside⟩ := stacked.slot_lt mem writable
        omega
      · exact ih mem waits

/-- Where an activation that waits stands on the stack, and the call that it has made. -/
theorem exists_begun (stacked : Stacked tree words current callers)
    (history : Machine.History tree start current callers) {waiting : Waiting} (waits : waiting ∈ callers) :
    ∃ callee rest before instruction made s', Stacked tree words callee (waiting :: rest) ∧
      Machine.Begun tree start callee waiting rest before instruction made s' := by
  induction stacked with
  | main => cases waits
  | call stacked reached linked atLink atSaved atReturn base goesOn ih =>
    cases history with
    | call earlier begun =>
      rcases List.mem_cons.mp waits with rfl | waits
      · exact ⟨_, _, _, _, _, _, .call stacked reached linked atLink atSaved atReturn base goesOn, begun⟩
      · exact ih earlier waits

/-- The links of the main program's frame are zero. -/
theorem main_links (stacked : Stacked tree words current callers) : ∀ index < 3, words[index]? = some 0 := by
  induction stacked with
  | main atLink atSaved atReturn =>
    intro index isLink
    obtain rfl | rfl | rfl : index = 0 ∨ index = 1 ∨ index = 2 := by omega
    · exact atLink
    · exact atSaved
    · exact atReturn
  | call _ _ _ _ _ _ _ _ ih => exact ih

end Stacked

namespace Machine

/-- The address of an operand: a word above the variables, of the current activation or of one that has made a call
which is pending. The arguments of that call are operands no longer. -/
inductive HoldsOperand (tree : Block) (start : Machine) (n address : Nat) : Prop
  | current {now : Machine} {pc : Nat} {site : Site} {outer : List Site} : start.resume n = .running now →
      tree.Path (site :: outer) → now.pc = pc → site.Owns pc → now.bp + frameSize + site.room ≤ address →
      address ≤ now.sp → HoldsOperand tree start n address
  | waiting {step pc : Nat} {before : Machine} {instruction : Instruction} {site callee : Site}
      {outer around : List Site} : step ∈ start.pendingCalls n → start.resume step = .running before →
      before.instruction? = some instruction → tree.Path (site :: outer) → before.pc = pc → site.Owns pc →
      tree.Path (callee :: around) → instruction.value = callee.start ∨ instruction.value = callee.entry →
      before.bp + frameSize + site.room ≤ address → address + callee.arity ≤ before.sp →
      HoldsOperand tree start n address

variable {tree : Block} {start machine after made : Machine} {n step : Nat} {s : Snapshot} {current : Activation}
  {callers : List Waiting} {instruction : Instruction}

namespace Stands

/-- While a call is pending, the links of the frame that it has pushed stay as they are. -/
theorem links_kept (stands : Stands tree start n machine s current callers) (pending : step ∈ start.pendingCalls n)
    (next : start.resume (step + 1) = .running made) :
    ∃ frame : Nat, made.bp = frame ∧ ∀ index < 3, ∃ word,
      made.memory[frame + index]? = some word ∧ machine.memory[frame + index]? = some word := by
  rw [stands.calls_eq] at pending
  obtain ⟨waiting, waits, rfl⟩ := List.mem_map.mp pending
  obtain ⟨callee, rest, before, call, other, s', stacked, begun⟩ :=
    stands.standing.stacked.exists_begun stands.history waits
  cases begun.next.symm.trans next
  have early := begun.standing.stacked
  refine ⟨callee.base, by rw [begun.shown.bp_eq, begun.standing.bp_eq], fun index isLink => ?_⟩
  cases stacked with
  | call _ _ _ atLink atSaved atReturn =>
    cases early with
    | call _ _ _ madeLink madeSaved madeReturn =>
      obtain rfl | rfl | rfl : index = 0 ∨ index = 1 ∨ index = 2 := by omega
      · exact ⟨_, begun.shown.memory_eq madeLink, stands.shown.memory_eq atLink⟩
      · exact ⟨_, begun.shown.memory_eq madeSaved, stands.shown.memory_eq atSaved⟩
      · exact ⟨_, begun.shown.memory_eq madeReturn, stands.shown.memory_eq atReturn⟩

/-- A word that code may change is no operand. -/
theorem slot_not_operand (stands : Stands tree start n machine s current callers) {around : Activation}
    {offset : Int} {target : Nat} (mem : around ∈ frames current callers) (writable : around.site.Writable offset)
    (isAddress : (around.base : Int) + offset = target) : ¬ HoldsOperand tree start n target := by
  intro holds
  have stacked := stands.standing.stacked
  cases holds with
  | @current now pc site outer ran path atPc owned lower =>
    cases stands.ran.symm.trans ran
    obtain rfl : s.pc = pc := Int.ofNat.inj (stands.shown.pc_eq.symm.trans atPc)
    obtain ⟨rfl, -⟩ := List.cons.inj (stands.standing.path.unique path stands.owns owned)
    obtain ⟨address, sameAddress, inside⟩ := stacked.slot_lt mem writable
    rw [stands.shown.bp_eq, stands.standing.bp_eq] at lower
    omega
  | @waiting step pc before call site callee outer path pending ran fetched reached atPc owned alsoReached called lower
      upper =>
    rw [stands.calls_eq] at pending
    obtain ⟨waiting, waits, rfl⟩ := List.mem_map.mp pending
    obtain ⟨begins, rest, other, instruction, made, s', onStack, begun⟩ :=
      stacked.exists_begun stands.history waits
    cases begun.ran.symm.trans ran
    cases begun.fetched.symm.trans fetched
    obtain ⟨point, atPoint, owns⟩ := begun.owns
    obtain rfl : point = pc := Int.ofNat.inj (atPoint.symm.trans atPc)
    have apart := stacked.slot_not_kept mem writable waits
    have bp := begun.bp_eq
    have sp := begun.sp_eq
    have early := begun.standing.stacked
    obtain ⟨rfl, -⟩ := List.cons.inj (early.path.called_unique alsoReached begun.value_eq called)
    cases early with
    | call below _ _ _ _ _ base =>
      obtain ⟨rfl, -⟩ := List.cons.inj (below.path.unique reached owns owned)
      omega

/-- An assignment changes one word. That is one that a name stands for, or the result of a function, in a frame on the
stack that is one of a block around. -/
theorem assigns (stands : Stands tree start n machine s current callers) (formed : tree.IsProgram)
    (fetched : machine.instruction? = some instruction) (assigning : instruction.operation = .named .assign)
    (next : start.resume (n + 1) = .running after) :
    ∃ distance around, ∃ offset : Int, ∃ base target : Nat, ∃ value,
      current.path[distance]? = some around ∧ around.Writable offset ∧ machine.Live base ∧
        start.Activates tree n (current.path.drop distance) base ∧ base + offset = target ∧
          after.lastWrite = some (target : Int) ∧ after.memory = machine.memory.setIfInBounds target value ∧
            ¬ HoldsOperand tree start n target := by
  obtain ⟨shape, behind, loaded, effect⟩ := stands.exists_effect formed fetched (by simp [assigning])
  obtain ⟨stepped, -⟩ := stands.step_of_running formed next
  have executed := execute_of_step fetched stepped
  cases effect with
  | @assign count address =>
    obtain ⟨most, around, target, words, more, mem, path, writable, isAddress, inside⟩ := loaded.popAddress
    obtain ⟨below, value, rfl, kept⟩ := more.pop
    have length := kept.length_eq
    have ahead := stands.shown.ahead (.of .assign)
    obtain ⟨-, memory, lastWrite⟩ := (MachineM.execute_assign ahead words (by omega)).of_run executed
    have atAround : current.path[address.1]? = some around.site := by
      rw [← List.head?_drop, ← path]
      rfl
    exact ⟨address.1, around.site, address.2, around.base, target, value, atAround, writable, stands.live mem,
      path ▸ stands.activates mem, isAddress, lastWrite, memory, stands.slot_not_operand mem writable isAddress⟩
  | _ => cases assigning

end Stands

end Machine

/-- Stores stay in variables. Each assignment that compiled code makes changes a variable, a parameter or the result of a
function, in a frame on the stack of an activation of a block around, and no operand. While a call is pending, the links
of its frame stay as they are, and the links of the main program's frame are zero all along. -/
theorem stores_in_variables {depth : Nat} {source : String} {code : Array Instruction}
    (compiled : compileProgram depth source = .ok (.ok code)) {machine now : Machine}
    (large : frameSize ≤ machine.stackSize) {n : Nat} (ran : (machine.load code).resume n = .running now) :
    ∃ tree : Block, parse (sourceTokens source) = some tree ∧
      (∀ instruction after, now.instruction? = some instruction → instruction.operation = .named .assign →
        (machine.load code).resume (n + 1) = .running after →
          ∃ site outer, ∃ pc : Nat, tree.Path (site :: outer) ∧ now.pc = pc ∧ site.Owns pc ∧
            ∃ distance around, ∃ offset : Int, ∃ base target : Nat, ∃ value,
              (site :: outer)[distance]? = some around ∧ around.Writable offset ∧ now.Live base ∧
                (machine.load code).Activates tree n ((site :: outer).drop distance) base ∧ base + offset = target ∧
                  after.lastWrite = some (target : Int) ∧ after.memory = now.memory.setIfInBounds target value ∧
                    ∀ operand, Machine.HoldsOperand tree (machine.load code) n operand →
                      after.memory[operand]? = now.memory[operand]?) ∧
      (∀ step ∈ (machine.load code).pendingCalls n, ∀ made, (machine.load code).resume (step + 1) = .running made →
        ∃ frame : Nat, made.bp = frame ∧ ∀ index < 3, ∃ word,
          made.memory[frame + index]? = some word ∧ now.memory[frame + index]? = some word) ∧
      ∀ index < 3, now.memory[index]? = some 0 := by
  obtain ⟨tree, atProgram, formed, program, -⟩ := exists_program_of_compileProgram compiled
  obtain ⟨s, current, callers, stands⟩ := Machine.stands_of_running formed program large ran
  refine ⟨tree, atProgram, ?_, fun step pending made next => stands.links_kept pending next, ?_⟩
  · intro instruction after fetched assigning next
    obtain ⟨distance, around, offset, base, target, value, atAround, writable, live, activates, isAddress, lastWrite,
      memory, noOperand⟩ := stands.assigns formed fetched assigning next
    refine ⟨current.site, current.outer, s.pc, stands.standing.path, stands.shown.pc_eq, stands.owns, distance, around,
      offset, base, target, value, atAround, writable, live, activates, isAddress, lastWrite, memory, ?_⟩
    intro operand holds
    have other : target ≠ operand := fun same => noOperand (same ▸ holds)
    rw [memory, Array.getElem?_setIfInBounds_ne other]
  · exact fun index isLink => stands.shown.memory_eq (stands.standing.stacked.main_links index isLink)

/-- The procedure of the program assigns to the variable of the function around it. -/
theorem nestedSource_stores_in_variables :
    let start := (Machine.ofWords 32).load nestedCode
    ∃ now after, start.resume 10 = .running now ∧ start.resume 11 = .running after ∧
      (∃ base target : Nat, ∃ value, now.Live base ∧ after.lastWrite = some (target : Int) ∧
        after.memory = now.memory.setIfInBounds target value) ∧ ∀ index < 3, now.memory[index]? = some 0 := by
  intro start
  have ran : start.resume 10 = .running (start.resume 10).machine := by decide +kernel
  have next : start.resume 11 = .running (start.resume 11).machine := by decide +kernel
  have fetched : (start.resume 10).machine.instruction? = some (.of .assign) := by decide +kernel
  have large : frameSize ≤ (Machine.ofWords 32).stackSize := by decide
  obtain ⟨tree, -, assigns, -, main⟩ := stores_in_variables compileProgram_nestedSource large ran
  obtain ⟨-, -, -, -, -, -, -, -, -, base, target, value, -, -, live, -, -, lastWrite, memory, -⟩ :=
    assigns _ _ fetched rfl next
  exact ⟨_, _, ran, next, ⟨base, target, value, live, lastWrite, memory⟩, main⟩

end PLZero
