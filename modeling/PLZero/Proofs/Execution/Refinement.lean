import PLZero.Proofs.Execution.Safety
import PLZero.Proofs.Execution.Simulation
import PLZero.Proofs.Meaning.Progress

namespace PLZero

open Machine

/-- Only one cause is reported as a division by zero. -/
theorem FaultCause.eq_divisionByZero {cause : FaultCause} (reported : cause.errorClass = .divisionByZero) :
    cause = .divisionByZero := by
  cases cause <;> first | rfl | cases reported

section

variable {tree : Block} {start : Machine} {choices : Nat → Nat → Int} {scene : Scene} {site : Site}
  {outer : List Site} {visible : Environment} {arguments : List Int} {n back fuel : Nat} {store : Store}
  (formed : tree.IsProgram) (lasting : ¬ start.Starves) (foresees : Foresees choices start)
include formed lasting foresees

/-- From when a block is about to be entered, a run does what the statement of the block does. -/
theorem Scene.Enters.performs (enters : scene.Enters tree start n store site outer visible arguments back)
    {call : Caller} (mirrored : call.Mirrored tree start fuel) {initial : Nat → Int}
    (chosen : ∀ index < site.block.vars.length, choices store.started index = initial index) :
    ∃ link junk, (scene.inside site store.started link back junk).Hosts tree site outer visible store.started ∧
      start.Mirrors (fuel + 1) n
        (fun _ after m => (scene.inside site store.started link back junk).At start m after site.last [])
        ((site.block.body.execute call fuel (site.block.environment visible site.owner store.started)).run
          (store.begin (Block.parametersOf site.owner) arguments site.block.vars initial)) := by
  obtain ⟨m, link, junk, less, hosts, at_⟩ := enters.proceed formed lasting foresees chosen
  have path := enters.sees.path
  have placed : CodeAt scene.code (site.entry + 1) site.bodyCode := enters.code_eq ▸ path.code_body
  have does := Statement.computes hosts formed lasting mirrored (path.body_wellFormed formed) (Nat.succ_ne_zero _) placed
  exact ⟨link, junk, hosts, (does at_).shift (Nat.le_of_lt less) (by omega)⟩

/-- Subroutines run as they mean, however deep calls nest. -/
theorem Block.run_mirrored (fuel : Nat) : (Block.run choices fuel).Mirrored tree start fuel := by
  induction fuel with
  | zero =>
    intro scene inner outer heading visible arguments n back store owned goesOn enters
    obtain ⟨link, address, -, -, machine, ran, -⟩ := enters.begun
    exact ⟨n, machine, Nat.le_refl n, ran⟩
  | succ fuel ih =>
    intro scene inner outer heading visible arguments n back store owned goesOn enters
    obtain ⟨link, junk, hosts, performs⟩ := enters.performs formed lasting foresees ih fun _ _ => rfl
    have last : scene.code[inner.last]? = some (returnInstruction inner.owner) :=
      enters.code_eq ▸ enters.sees.path.code_last
    have meaning : (run choices (fuel + 1) visible heading inner.block arguments).run store =
        (do
          inner.block.body.execute (run choices fuel) fuel (inner.block.environment visible (some heading) store.started)
          return (← get).values (.result store.started) : Evaluation Int).run
            (store.begin heading.parameters arguments inner.block.vars (choices store.started)) := rfl
    rw [owned] at performs
    rw [meaning]
    refine performs.bind fun _ after m _ at_ => ?_
    exact .pure (Nat.le_succ m) (at_.leave last goesOn lasting)

end

namespace Machine

/-- The variables of the main program have the values that they have in a store. -/
def Shares (machine : Machine) (globals : List (String × Nat)) (store : Store) : Prop :=
  ∀ global ∈ globals, machine.memory[global.2]? = some (store.values (.variable 0 global.1))

section

variable {tree : Block} {machine : Machine} {code : Array Instruction} {choices : Nat → Nat → Int} {fuel : Nat}

/-- The main program is entered first. -/
theorem enters_load (program : code.toList = tree.program) (large : frameSize ≤ machine.stackSize) :
    (⟨tree.program, machine.stackSize, [], 0⟩ : Scene).Enters tree (machine.load code) 0 ⟨0, fun _ => 0⟩ (.main tree) []
      [] [] 0 where
  code_eq := rfl
  sees := .main
  length_eq := rfl
  tidy := ⟨List.nodup_nil, nofun⟩
  begun := ⟨0, 0, .inl rfl, .nil, machine.load code, rfl, program ▸ shows_load code large, rfl⟩

/-- When the main program is entered, the memory is as it was loaded. -/
theorem entering_load (program : code.toList = tree.program) (large : frameSize ≤ machine.stackSize)
    (lasting : ¬ (machine.load code).Starves) :
    ∃ reached, (machine.load code).resume 1 = .running reached ∧ (machine.load code).entries 1 = 0 ∧
      reached.Shows ⟨tree.program, machine.stackSize, (Site.main tree).entry, 0, [0, 0, 0, 0]⟩ ∧
      reached.memory = Array.replicate machine.stackSize 0 := by
  have loaded := shows_load code large
  rw [program] at loaded
  have moment : (machine.load code).Moment 0 0 ⟨tree.program, machine.stackSize, 0, 0, [0, 0, 0, 0]⟩ :=
    ⟨machine.load code, rfl, loaded, rfl⟩
  have fetched : tree.program[0]? = some (.of .jump 0 (Site.main tree).entry) := Block.Path.main.code_start
  have does : ∀ before decoded : Machine,
      before.Shows ⟨tree.program, machine.stackSize, 0, 0, [0, 0, 0, 0]⟩ →
      decoded.Shows ⟨tree.program, machine.stackSize, 1, 0, [0, 0, 0, 0]⟩ → decoded.memory = before.memory →
      (MachineM.execute (.of .jump 0 (Site.main tree).entry)).Achieves decoded fun _ reached =>
        reached.Shows ⟨tree.program, machine.stackSize, (Site.main tree).entry, 0, [0, 0, 0, 0]⟩ ∧
          reached.memory = before.memory :=
    fun _ _ _ shown same => MachineM.achieves_of_ok rfl ⟨{ shown with pc_eq := rfl }, same⟩
  obtain ⟨before, reached, ran, -, -, found, stepped, shows, same⟩ := (moment.step fetched does).resolve_left lasting
  cases ran
  have more : reached.pc ≠ 0 := by
    have behind := (Site.main tree).start_lt_entry
    rw [shows.pc_eq]
    exact Int.natCast_ne_zero.mpr (Nat.ne_zero_of_lt behind)
  have notEntering : (machine.load code).isEntering = false := by simp [isEntering, found, Instruction.of]
  refine ⟨reached, ?_, ?_, shows, same.trans (machine.memory_load code)⟩
  · exact (resume_one rfl stepped).trans (if_neg more)
  · simp [entries, resume, notEntering]

/-- The variables of the main program start at zero. -/
theorem choices_zero (program : code.toList = tree.program) (large : frameSize ≤ machine.stackSize)
    (lasting : ¬ (machine.load code).Starves) (foresees : Foresees choices (machine.load code)) {index : Nat}
    (below : index < tree.vars.length) : choices 0 index = 0 := by
  obtain ⟨reached, ran, none, shows, memory⟩ := entering_load program large lasting
  have fetched : tree.program[(Site.main tree).entry]? = some (.of .enter 0 (Site.main tree).room) :=
    Block.Path.main.code_entry
  have entering : reached.isEntering = true := by
    simp [isEntering, shows.instruction?_eq, fetched, Instruction.of]
  have moment : (machine.load code).Moment 1 0 _ := ⟨reached, ran, shows, none⟩
  obtain ⟨fresh, length, -, entered, -, shown, -⟩ := (moment.enter foresees fetched).resolve_left lasting
  have inside := shown.length_le
  rw [← none]
  refine foresees 1 reached ran entering index 0 ?_
  rw [Site.room] at length
  have room : [0, 0, 0, 0].length + index < machine.stackSize := by
    rw [List.length_append, length] at inside
    change [0, 0, 0, 0].length + (frameSize + tree.vars.length) ≤ machine.stackSize at inside
    omega
  rw [shows.sp_succ, memory, Int.toNat_natCast]
  exact Array.getElem?_replicate.trans (if_pos room)

/-- The words of the variables of the main program, while its frame is on the stack. -/
theorem shares_of_at {scene : Scene} {store : Store} {pc : Nat}
    (houses : Houses scene.stack (.main tree) 0 0) (shown : machine.Shows (scene.snapshot store pc [])) :
    machine.Shares tree.globals store := by
  rintro ⟨name, address⟩ mem
  rw [Block.globals, List.mk_mem_zipIdx_iff_le_and_getElem?_sub] at mem
  obtain ⟨le, atIndex⟩ := mem
  have slot : (Site.main tree).Slot name ↑(frameSize + (address - frameSize)) := .variable atIndex
  rw [Nat.add_sub_cancel' le] at slot
  obtain ⟨other, same, held⟩ := houses.slot slot
  obtain rfl : other = address := by omega
  refine shown.memory_eq ?_
  rw [Scene.snapshot, List.append_nil]
  exact wordsOf_getElem? store held

/-- A run goes as the meaning of the program tells, as far as the fuel goes. -/
theorem program_mirrored (formed : tree.IsProgram) (program : code.toList = tree.program)
    (large : frameSize ≤ machine.stackSize) (lasting : ¬ (machine.load code).Starves)
    (foresees : Foresees choices (machine.load code)) (fuel : Nat) :
    (machine.load code).Mirrors fuel 0
      (fun _ store m => ∃ last, (machine.load code).resume m = .halted last ∧ last.Shares tree.globals store)
      (Prod.mk () <$> tree.meaning choices fuel) := by
  have mirrored := Block.run_mirrored formed lasting foresees fuel
  obtain ⟨link, junk, hosts, performs⟩ := (enters_load program large).performs formed lasting foresees mirrored
    fun _ below => choices_zero program large lasting foresees below
  have meaning : Prod.mk () <$> tree.meaning choices fuel =
      (tree.body.execute (Block.run choices fuel) fuel (tree.environment [] none 0)).run
        (Store.begin ⟨0, fun _ => 0⟩ [] [] tree.vars fun _ => 0) := by
    change Prod.mk () <$> (·.2) <$> (StateT.run _ _ : Except Stop (Unit × Store)) = StateT.run _ _
    rw [Functor.map_map]
    exact id_map _
  rw [meaning]
  refine (performs.shift (Nat.le_refl 0) (by omega)).further fun _ store m _ at_ => ?_
  obtain ⟨before, decoded, ran, -, shown, ahead, same, -, stepped⟩ :=
    (at_.2.fetch Block.Path.main.code_last).resolve_left lasting
  obtain ⟨after, left, shows, kept⟩ := Scene.execute_leave rfl ahead
  have shares := shares_of_at hosts.framed.innermost shown
  refine ⟨m + 1, Nat.le_succ m, after, ?_, ?_⟩
  · rw [resume_one ran (stepped.trans left), if_pos]
    exact shows.pc_eq
  · rw [Shares, kept rfl, same]
    exact shares

end

section

variable {start last : Machine} {n : Nat}

/-- Two ends of a run are the same. -/
theorem ended_eq {m : Nat} {one other : Outcome} (ended : start.resume n = one) (also : start.resume m = other)
    (firstOver : one.isOver) (alsoOver : other.isOver) : one = other := by
  subst ended also
  exact resume_eq_of_isOver firstOver alsoOver

theorem not_starves_of_halted (halted : start.resume n = .halted last) : ¬ start.Starves := by
  rintro ⟨m, fault, now, faulted, -⟩
  cases ended_eq halted faulted rfl rfl

theorem not_starves_of_divides (divides : start.Divides) : ¬ start.Starves := by
  obtain ⟨n, fault, now, faulted, cause⟩ := divides
  rintro ⟨m, other, later, alsoFaulted, limited⟩
  cases ended_eq faulted alsoFaulted rfl rfl
  rcases limited with overflow | ⟨limit, exhausted⟩
  · cases cause.symm.trans overflow
  · cases cause.symm.trans exhausted

end

section

variable {tree : Block} {machine : Machine} {code : Array Instruction} {choices : Nat → Nat → Int}
  (formed : tree.IsProgram) (program : code.toList = tree.program) (large : frameSize ≤ machine.stackSize)
  (lasting : ¬ (machine.load code).Starves) (foresees : Foresees choices (machine.load code))
include formed program large lasting foresees

/-- A run of a program that comes to its end halts with the values of the variables. -/
theorem halts_of_endsWith {store : Store} (ends : tree.EndsWith choices store) :
    ∃ n last, (machine.load code).resume n = .halted last ∧ last.Shares tree.globals store := by
  obtain ⟨fuel, ended⟩ := ends
  have mirrored := program_mirrored formed program large lasting foresees fuel
  rw [ended] at mirrored
  obtain ⟨n, -, last, halted, shares⟩ := mirrored
  exact ⟨n, last, halted, shares⟩

theorem divides_of_dividesByZero (divides : tree.DividesByZero choices) : (machine.load code).Divides := by
  obtain ⟨fuel, ended⟩ := divides
  have mirrored := program_mirrored formed program large lasting foresees fuel
  rw [ended] at mirrored
  exact mirrored

/-- A run of a program that goes on for ever is still going on after any number of steps. -/
theorem running_of_diverges (diverges : tree.Diverges choices) (n : Nat) :
    ∃ now, (machine.load code).resume n = .running now := by
  have mirrored := program_mirrored formed program large lasting foresees n
  rw [diverges n] at mirrored
  obtain ⟨m, now, le, ran⟩ := mirrored
  cases before : (machine.load code).resume n with
  | running now => exact ⟨now, rfl⟩
  | halted last | faulted fault last =>
    have less := lt_of_running (by rw [before]; rfl) ran
    omega

end

end Machine

/-- Compiled code does what the source means. The source holds a program of the grammar, and there are values for the
variables of subroutines to start with, such that the program has one of three meanings: it comes to an end, it divides
by zero, or it goes on for ever. A run of the code that halts leaves the variables of the main program as the meaning
does, and a run divides by zero only if the meaning does. The other way round, a run that is not cut short, because the
stack or the number of cycles is limited, is as the meaning tells. -/
theorem compiled_run_refines {depth : Nat} {source : String} {code : Array Instruction}
    (compiled : compileProgram depth source = .ok (.ok code)) {machine : Machine}
    (large : frameSize ≤ machine.stackSize) :
    ∃ tree : Block, parse (sourceTokens source) = some tree ∧ tree.DerivesProgram (sourceTokens source) ∧
      tree.NearestElse ∧ ∃ choices,
        ((∃ store, tree.EndsWith choices store) ∨ tree.DividesByZero choices ∨ tree.Diverges choices) ∧
        (∀ n last, (machine.load code).resume n = .halted last →
          ∃ store, tree.EndsWith choices store ∧ last.Shares (compile depth source).globals.toList store) ∧
        (∀ n fault last, (machine.load code).resume n = .faulted fault last →
          fault.cause.errorClass = .divisionByZero → tree.DividesByZero choices) ∧
        ((machine.load code).Starves ∨
          (∀ store, tree.EndsWith choices store →
            ∃ n last, (machine.load code).resume n = .halted last ∧
              last.Shares (compile depth source).globals.toList store) ∧
          (tree.DividesByZero choices →
            ∃ n fault last, (machine.load code).resume n = .faulted fault last ∧
              fault.cause.errorClass = .divisionByZero) ∧
          (tree.Diverges choices → ∀ n, ∃ now, (machine.load code).resume n = .running now)) := by
  obtain ⟨tree, atProgram, formed, program, globals⟩ := exists_program_of_compileProgram compiled
  obtain ⟨derived, nearest⟩ := derives_of_parse atProgram
  obtain ⟨choices, foresees⟩ := exists_foresees (machine.load code)
  have means := Block.meaning_cases formed choices
  rw [globals]
  refine ⟨tree, atProgram, derived, nearest, choices, means, ?_, ?_, ?_⟩
  · intro n last halted
    have lasting := not_starves_of_halted halted
    rcases means with ⟨store, ends⟩ | divides | diverges
    · obtain ⟨m, other, alsoHalted, shares⟩ := halts_of_endsWith formed program large lasting foresees ends
      cases ended_eq halted alsoHalted rfl rfl
      exact ⟨store, ends, shares⟩
    · obtain ⟨m, fault, now, faulted, -⟩ := divides_of_dividesByZero formed program large lasting foresees divides
      cases ended_eq halted faulted rfl rfl
    · obtain ⟨now, ran⟩ := running_of_diverges formed program large lasting foresees diverges n
      cases halted.symm.trans ran
  · intro n fault last faulted isDivision
    have cause := FaultCause.eq_divisionByZero isDivision
    have lasting := not_starves_of_divides ⟨n, fault, last, faulted, cause⟩
    rcases means with ⟨store, ends⟩ | divides | diverges
    · obtain ⟨m, other, halted, -⟩ := halts_of_endsWith formed program large lasting foresees ends
      cases ended_eq faulted halted rfl rfl
    · exact divides
    · obtain ⟨now, ran⟩ := running_of_diverges formed program large lasting foresees diverges n
      cases faulted.symm.trans ran
  · by_cases starves : (machine.load code).Starves
    · exact .inl starves
    · refine .inr ⟨fun store => halts_of_endsWith formed program large starves foresees, fun divides => ?_,
        running_of_diverges formed program large starves foresees⟩
      obtain ⟨n, fault, last, faulted, cause⟩ :=
        divides_of_dividesByZero formed program large starves foresees divides
      exact ⟨n, fault, last, faulted, congrArg FaultCause.errorClass cause⟩

/-- The program of a procedure within a function leaves in its variable what the function returns. -/
theorem nestedSource_run_refines :
    ∃ tree : Block, parse (sourceTokens nestedSource) = some tree ∧ ∃ choices store,
      tree.EndsWith choices store ∧ store.values (.variable 0 "x") = 3 := by
  obtain ⟨last, halted, word, -⟩ := nestedCode_halts
  have large : frameSize ≤ (Machine.ofWords 32).stackSize := by decide
  have isGlobal : ("x", 4) ∈ (compile maxNesting nestedSource).globals.toList := by
    rw [nestedSource_compiles.2]
    exact List.mem_singleton_self _
  obtain ⟨tree, atProgram, -, -, choices, -, ends, -⟩ := compiled_run_refines compileProgram_nestedSource large
  obtain ⟨store, ended, shares⟩ := ends 20 _ halted
  have held := shares _ isGlobal
  exact ⟨tree, atProgram, choices, store, ended, Option.some.inj (held.symm.trans word)⟩

end PLZero
