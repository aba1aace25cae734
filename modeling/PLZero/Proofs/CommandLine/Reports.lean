import PLZero.Proofs.CommandLine.Choices
import PLZero.Proofs.Execution.Safety
import PLZero.Proofs.Machine.Representation
import PLZero.Proofs.Recovery.Linear

/-!
What the program answers to a command line: its status, and the lines on standard output and on standard error. They
tell what has come of the compilation and of the run, and nothing of either if it has not come to its end.
-/

namespace PLZero

namespace Machine

/-- A machine that has been loaded is ready for a run. -/
theorem run_load (machine : Machine) (code : Array Instruction) (count : Nat) :
    (machine.load code).run count = (machine.load code).resume count := by
  have same : (machine.load code).reset = machine.load code := by simp [load, reset, frameSize, List.range_succ]
  rw [run, same]

/-- A run that ends does so after a number of instructions, and is still going on with any fewer. -/
theorem exists_enough {start : Machine} {n : Nat} {outcome : Outcome} (ended : start.resume n = outcome)
    (isOver : outcome.isOver) : ∃ enough, ∀ count,
      if enough ≤ count then start.resume count = outcome else ∃ now, start.resume count = .running now := by
  subst ended
  -- The last instruction is the one of number `m`: before it the run is still going on, behind it nothing changes.
  obtain ⟨m, before, -, ran, last⟩ := exists_last isOver
  have overLast : (start.resume (m + 1)).isOver := last.symm ▸ isOver
  refine ⟨m + 1, fun count => ?_⟩
  split
  · next enough =>
    obtain ⟨more, rfl⟩ := Nat.exists_eq_add_of_le enough
    rw [resume_of_isOver overLast, last]
  · next fewer =>
    cases early : start.resume count with
    | running now => exact ⟨now, rfl⟩
    | halted now | faulted fault now =>
      have less := lt_of_running (by rw [early]; rfl) ran
      omega

end Machine

section

variable {depth : Nat} {source : String} {code : Array Instruction}
  (compiled : compileProgram depth source = .ok (.ok code)) {machine last : Machine}
  (large : frameSize ≤ machine.stackSize) {n : Nat}
include compiled large

/-- In front of its last instruction a program stands as it does everywhere in its run. -/
theorem exists_last_stand {outcome : Outcome} (ended : (machine.load code).resume n = outcome)
    (isOver : outcome.isOver) :
    ∃ (tree : Block) (m : Nat) (before : Machine) (s : Snapshot) (current : Activation) (callers : List Waiting),
      tree.IsProgram ∧ (compile depth source).globals.toList = tree.globals ∧
      Machine.Stands tree (machine.load code) m before s current callers ∧
      (machine.load code).resume (m + 1) = outcome := by
  obtain ⟨tree, -, formed, program, globals⟩ := exists_program_of_compileProgram compiled
  obtain ⟨m, before, -, ran, last⟩ := Machine.exists_last (ended.symm ▸ isOver)
  obtain ⟨s, current, callers, stands⟩ := Machine.stands_of_running formed program large ran
  exact ⟨tree, m, before, s, current, callers, formed, globals, stands, last.trans ended⟩

/-- A program that faults has run out of what its run was given, or has divided by zero. -/
theorem isExpected_of_faulted {fault : Fault} (faulted : (machine.load code).resume n = .faulted fault last) :
    fault.IsExpected := by
  obtain ⟨tree, m, before, s, current, callers, formed, -, stands, ends⟩ :=
    exists_last_stand compiled large faulted rfl
  exact stands.fault_expected formed ends

/-- A program that halts has made room for its variables. -/
theorem globals_of_halted (halted : (machine.load code).resume n = .halted last) :
    ∀ global ∈ (compile depth source).globals.toList,
      global.2 < machine.stackSize ∧ ∃ word, last.word? global.2 = some word := by
  obtain ⟨tree, m, before, s, current, callers, formed, globals, stands, ends⟩ :=
    exists_last_stand compiled large halted rfl
  obtain ⟨stepped, -, -, -, -, -, inside⟩ := stands.halted_by_return formed ends
  have size : s.size = machine.stackSize := stands.size_eq
  -- The step that halts leaves the memory as large as the machine was made.
  have memory : last.memory.size = machine.stackSize := by
    rcases stands.step formed with ⟨fault, after, failed, -⟩ | ⟨_, after, s', _, alsoStepped, shows, same, -⟩
    · cases failed.symm.trans stepped
    · cases stepped.symm.trans alsoStepped
      rw [shows.size_memory, same, size]
  rw [globals]
  rintro ⟨name, address⟩ mem
  have below := Block.lt_of_mem_globals mem
  have within : address < last.memory.size := by omega
  exact ⟨by omega, _, Array.getElem?_eq_getElem within⟩

end

/-- Without an integer that is too long a compilation fails in no other way than by diagnostics. -/
theorem compile_unfailing {depth : Nat} {source : String} (readable : ∀ overlong, .error overlong ∉ lex source) :
    (compile depth source).failure = none :=
  compile_eq_courseWithin depth source ▸ (courseWithin_bounded readable (Nat.le_refl _)).1

namespace CommandLine

section Replies

variable (depth : Nat) (arguments : List String) (contents : String → Except OpenFailure (List UInt8))

/-- What comes of arguments if programs are compiled to a depth and a run may take so many instructions. The bytes of
each source are given. -/
def replyWithin (fuel : Nat) : Except Failure (Option Response) :=
  match readArguments arguments with
  | .error stop => .ok (some stop.response)
  | .ok (source, job) => respond depth source job (contents source) fuel

/-- The program answers with a response: it is there as soon as the run may take enough instructions, and until then
nothing comes out. -/
def Replies (response : Response) : Prop :=
  ∃ enough, ∀ fuel, replyWithin depth arguments contents fuel = .ok (if enough ≤ fuel then some response else none)

end Replies

namespace Choice

variable (choice : Choice)

/-- The number of words that the stack is to have. -/
def words : Int :=
  choice.stackSize.getD defaultStackSize

/-- The run that has been chosen ends in an outcome. -/
def Reaches (code : Array Instruction) (outcome : Outcome) : Prop :=
  outcome.isOver ∧ ∃ machine count, Machine.ofStackSize choice.words choice.maxCycles = .ok machine ∧
    (machine.load code).run count = outcome

variable (depth : Nat)

/-- A line for each variable of the main program, in the order of declaration, with its word in the stack of the
machine. -/
def Shows (text : String) (last : Machine) (lines : List String) : Prop :=
  ∃ tree : Block, parse (sourceTokens text) = some tree ∧ tree.DerivesProgram (sourceTokens text) ∧
    (compile depth text).globals.toList = tree.vars.zipIdx frameSize ∧
    List.Forall₂ (fun (name, address) line => (address : Int) < choice.words ∧
        ∃ word, last.word? address = some word ∧ line = s!"{name} = {word}")
      (compile depth text).globals.toList lines

/-- The program is to be run on a stack that no memory has room for. -/
structure Overdoes (text : String) : Prop where
  clean : (compile depth text).errorCount = 0
  isRun : choice.noRun = false
  large : Machine.addressLimit ≤ choice.words

/-- A response tells what has come of a text, which is called by a name in messages: there is one line of complaint for
each diagnostic, or one for the fault of the run, or there is the usage of the command line. -/
structure Describes (name text : String) (response : Response) : Prop where
  rejected : response.status = 1 ↔ (compile depth text).errorCount ≠ 0
  failed : response.status = 2 ↔ (compile depth text).errorCount = 0 ∧ choice.noRun = false ∧
    (choice.words < frameSize ∨ ∃ fault last, choice.Reaches (compile depth text).code (.faulted fault last))
  succeeded : response.status = 0 ↔ response.status ≠ 1 ∧ response.status ≠ 2
  /-- The listing comes first. What the run has left is told only if it has come to its end. -/
  output : ∃ results,
    response.output = (if choice.disassemble then [listing (compile depth text).code.toList] else []) ++ results ∧
    (results ≠ [] ↔ response.status = 0 ∧ choice.noRun = false) ∧
    (results ≠ [] → ∃ last lines, choice.Reaches (compile depth text).code (.halted last) ∧
      choice.Shows depth text last lines ∧ results = lines ++ [s!"{last.cycles} cycles"])
  complaints : response.status = 1 → response.errors =
    ((compile depth text).diagnostics.toList.map fun diagnostic => s!"{name}: {diagnostic.render}") ++
      [s!"{name}: " ++ Text.counted (compile depth text).errorCount "error"]
  usage : response.status = 2 → choice.words < frameSize →
    response.errors = (UsageError.stackTooSmall ⟨choice.words⟩).lines
  fault : response.status = 2 → frameSize ≤ choice.words → ∃ fault last,
    choice.Reaches (compile depth text).code (.faulted fault last) ∧ fault.IsExpected ∧
      response.errors = [s!"{name}: {fault.report.render}"]
  silent : response.status = 0 → response.errors = []

/-- What is printed in front of all results. -/
def front (text : String) : List String :=
  if choice.disassemble then [listing (compile depth text).code.toList] else []

/-- How the program can answer: the text has errors, it is not to be run, there is no machine for it, or its run faults
or halts. -/
inductive Answers (name text : String) : Response → Prop where
  | rejected (errors : (compile depth text).errorCount ≠ 0) : Answers name text
      { status := 1, output := choice.front depth text
        errors := ((compile depth text).diagnostics.toList.map fun diagnostic => s!"{name}: {diagnostic.render}") ++
          [s!"{name}: " ++ Text.counted (compile depth text).errorCount "error"] }
  | compiled (clean : (compile depth text).errorCount = 0) (noRun : choice.noRun = true) : Answers name text
      { status := 0, output := choice.front depth text }
  | tooSmall (clean : (compile depth text).errorCount = 0) (isRun : choice.noRun = false)
      (small : choice.words < frameSize) : Answers name text
        { status := 2, output := choice.front depth text, errors := (UsageError.stackTooSmall ⟨choice.words⟩).lines }
  | faulted {fault : Fault} {last : Machine} (clean : (compile depth text).errorCount = 0)
      (isRun : choice.noRun = false) (reaches : choice.Reaches (compile depth text).code (.faulted fault last))
      (expected : fault.IsExpected) : Answers name text
        { status := 2, output := choice.front depth text, errors := [s!"{name}: {fault.report.render}"] }
  | halted {last : Machine} {lines : List String} (clean : (compile depth text).errorCount = 0)
      (isRun : choice.noRun = false) (reaches : choice.Reaches (compile depth text).code (.halted last))
      (shows : choice.Shows depth text last lines) : Answers name text
        { status := 0, output := choice.front depth text ++ (lines ++ [s!"{last.cycles} cycles"]) }

variable {choice} {depth}

theorem enough_of_reaches {code : Array Instruction} {outcome : Outcome} (reaches : choice.Reaches code outcome) :
    frameSize ≤ choice.words := by
  obtain ⟨-, machine, count, made, -⟩ := reaches
  exact (Machine.ofStackSize_eq_ok_iff.mp made).1.1

theorem reaches_unique {code : Array Instruction} {outcome other : Outcome} (reaches : choice.Reaches code outcome)
    (also : choice.Reaches code other) : outcome = other := by
  obtain ⟨isOver, machine, n, made, rfl⟩ := reaches
  obtain ⟨alsoOver, same, m, alsoMade, rfl⟩ := also
  cases made.symm.trans alsoMade
  rw [Machine.run_load] at isOver alsoOver ⊢
  rw [Machine.run_load, Machine.resume_eq_of_isOver isOver alsoOver]

namespace Answers

variable {name text : String} {response : Response} (answers : choice.Answers depth name text response)
include answers

theorem status_eq_one_iff : response.status = 1 ↔ (compile depth text).errorCount ≠ 0 := by
  cases answers with
  | rejected errors => simpa using errors
  | compiled clean | tooSmall clean | faulted clean | halted clean => simp [clean]

theorem status_eq_two_iff : response.status = 2 ↔ (compile depth text).errorCount = 0 ∧ choice.noRun = false ∧
    (choice.words < frameSize ∨ ∃ fault last, choice.Reaches (compile depth text).code (.faulted fault last)) := by
  cases answers with
  | rejected errors => simp [errors]
  | compiled clean noRun => simp [noRun]
  | tooSmall clean isRun small => simp [clean, isRun, small]
  | faulted clean isRun reaches expected => simpa [clean, isRun] using .inr ⟨_, _, reaches⟩
  | halted clean isRun reaches shows =>
    have room := Int.not_lt.mpr (enough_of_reaches reaches)
    have noFault : ¬ ∃ fault last, choice.Reaches (compile depth text).code (.faulted fault last) := by
      rintro ⟨fault, last, faults⟩
      cases reaches_unique reaches faults
    simp [room, noFault]

theorem status_le_two : response.status ≤ 2 := by
  cases answers <;> simp

theorem describes : choice.Describes depth name text response where
  rejected := answers.status_eq_one_iff
  failed := answers.status_eq_two_iff
  succeeded := by
    have most := answers.status_le_two
    omega
  output := by
    cases answers with
    | rejected errors => exact ⟨[], by simp [front], by simp, by simp⟩
    | compiled clean noRun => exact ⟨[], by simp [front], by simp [noRun], by simp⟩
    | tooSmall clean isRun small => exact ⟨[], by simp [front], by simp, by simp⟩
    | faulted clean isRun reaches expected => exact ⟨[], by simp [front], by simp, by simp⟩
    | halted clean isRun reaches shows => exact ⟨_, rfl, by simp [isRun], fun _ => ⟨_, _, reaches, shows, rfl⟩⟩
  complaints := by
    cases answers <;> simp
  usage := by
    intro failed small
    cases answers with
    | tooSmall => rfl
    | faulted clean isRun reaches expected => exact absurd small (Int.not_lt.mpr (enough_of_reaches reaches))
    | _ => cases failed
  fault := by
    intro failed enough
    cases answers with
    | tooSmall clean isRun small => exact absurd small (Int.not_lt.mpr enough)
    | faulted clean isRun reaches expected => exact ⟨_, _, reaches, expected, rfl⟩
    | _ => cases failed
  silent := by
    intro succeeded
    cases answers with
    | compiled | halted => rfl
    | _ => cases succeeded

end Answers

/-- A machine has as many words as were chosen for it. -/
theorem stackSize_of_ofStackSize {words : Int} {limit : Option Int} {machine : Machine}
    (made : Machine.ofStackSize words limit = .ok machine) :
    frameSize ≤ machine.stackSize ∧ (machine.stackSize : Int) = words := by
  obtain ⟨⟨enough, -⟩, rfl⟩ := Machine.ofStackSize_eq_ok_iff.mp made
  have same : ((words.toNat : Nat) : Int) = words := Int.toNat_of_nonneg (by omega)
  exact ⟨by change frameSize ≤ words.toNat; omega, same⟩

/-- The response to a run, with the lines that have been written before. -/
def runResponse? (name : String) (globals : List (String × Nat)) : Outcome → Option Response
  | .running _ => none
  | .faulted fault _ => some { status := 2, errors := [s!"{name}: {fault.report.render}"] }
  | .halted machine => some { status := 0, output := resultLines globals machine }

variable (choice) (depth) {name text : String} {fuel : Nat} {compilation : Compilation}

theorem runResponse_of_small (small : choice.words < frameSize) :
    choice.job.runResponse name compilation fuel =
      .ok (some { status := 2, errors := (UsageError.stackTooSmall ⟨choice.words⟩).lines }) := by
  have fails := Machine.ofStackSize_of_small small choice.job.maxCycles.join
  simp only [Job.runResponse, job, words] at fails ⊢
  rw [fails]

/-- What is wrong with a stack that no memory has room for. -/
def excess : StackTooLarge :=
  if Machine.indexLimit ≤ choice.words then .noIndex else .noAddresses

theorem runResponse_of_large (large : Machine.addressLimit ≤ choice.words) :
    choice.job.runResponse name compilation fuel = .error (.stackTooLarge choice.excess) := by
  have fails := Machine.ofStackSize_of_large large choice.job.maxCycles.join
  simp only [Job.runResponse, job, words, excess] at fails ⊢
  rw [fails]

theorem runResponse_of_machine {machine : Machine}
    (made : Machine.ofStackSize choice.words choice.maxCycles = .ok machine) :
    choice.job.runResponse name compilation fuel =
      .ok (runResponse? name compilation.globals.toList ((machine.load compilation.code).run fuel)) := by
  have limit : (choice.maxCycles.map some).join = choice.maxCycles := by cases choice.maxCycles <;> rfl
  have given : choice.maxCycles.map some ≠ some none := by cases choice.maxCycles <;> simp
  simp only [Job.runResponse, job, words, limit] at made ⊢
  rw [made]
  simp only [given, if_false]
  cases (machine.load compilation.code).run fuel <;> rfl

/-- What is said before a run, if there are no errors. -/
theorem compileResponse_of_clean (clean : (compile depth text).errorCount = 0) :
    choice.job.compileResponse name (compile depth text) = { status := 0, output := choice.front depth text } := by
  have none : (compile depth text).diagnostics = #[] := Array.eq_empty_of_size_eq_zero clean
  simp only [Job.compileResponse, clean, none, if_true]
  rfl

theorem compileResponse_of_errors (errors : (compile depth text).errorCount ≠ 0) :
    choice.job.compileResponse name (compile depth text) =
      { status := 1, output := choice.front depth text
        errors := ((compile depth text).diagnostics.toList.map fun diagnostic => s!"{name}: {diagnostic.render}") ++
          [s!"{name}: " ++ Text.counted (compile depth text).errorCount "error"] } := by
  simp only [Job.compileResponse, errors, if_false]
  rfl

/-- The response to a run comes behind what has been written before. -/
def behind (text : String) (response : Response) : Response :=
  { response with output := choice.front depth text ++ response.output }

section

variable {choice} {depth} (unfailing : (compile depth text).failure = none)
include unfailing

theorem programResponse_of_unrun (unrun : (compile depth text).errorCount ≠ 0 ∨ choice.noRun = true) :
    choice.job.programResponse depth name text fuel =
      .ok (some (choice.job.compileResponse name (compile depth text))) := by
  have skipped : ¬ ((compile depth text).errorCount = 0 ∧ !choice.job.noRun) := by
    rcases unrun with errors | noRun
    · exact fun both => errors both.1
    · simp [job, noRun]
  simp only [Job.programResponse, unfailing, if_neg skipped]

theorem programResponse_of_run (clean : (compile depth text).errorCount = 0) (isRun : choice.noRun = false) :
    choice.job.programResponse depth name text fuel =
      (choice.job.runResponse name (compile depth text) fuel).map (·.map (choice.behind depth text)) := by
  have run : (compile depth text).errorCount = 0 ∧ !choice.job.noRun := ⟨clean, by simp [job, isRun]⟩
  simp only [Job.programResponse, unfailing, if_pos run, compileResponse_of_clean choice depth clean, List.nil_append]
  rfl

end

/-- The lines about a run that has halted. -/
theorem shows_of_halted {last : Machine} (unfailing : (compile depth text).failure = none)
    (clean : (compile depth text).errorCount = 0) (reaches : choice.Reaches (compile depth text).code (.halted last)) :
    ∃ lines, choice.Shows depth text last lines ∧
      resultLines (compile depth text).globals.toList last = lines ++ [s!"{last.cycles} cycles"] := by
  have compiled := compileProgram_eq_ok_iff.mpr ⟨unfailing, clean, rfl⟩
  obtain ⟨tree, atProgram, -, -, globals⟩ := exists_program_of_compileProgram compiled
  obtain ⟨derived, -⟩ := derives_of_parse atProgram
  obtain ⟨-, machine, count, made, halted⟩ := reaches
  obtain ⟨large, words⟩ := stackSize_of_ofStackSize made
  rw [Machine.run_load] at halted
  have inside := globals_of_halted compiled large halted
  refine ⟨_, ⟨tree, atProgram, derived, globals, ?_⟩, rfl⟩
  refine List.forall₂_map_right_iff.mpr (List.forall₂_same.mpr ?_)
  rintro ⟨name, address⟩ mem
  obtain ⟨below, word, held⟩ := inside _ mem
  refine ⟨by omega, word, held, ?_⟩
  simp only [Machine.word?] at held
  simp only [Array.getD_eq_getD_getElem?, held, Option.getD_some]

/-- A run that faults is reported with a cause that is to be expected. -/
theorem isExpected_of_reaches {fault : Fault} {last : Machine} (unfailing : (compile depth text).failure = none)
    (clean : (compile depth text).errorCount = 0)
    (reaches : choice.Reaches (compile depth text).code (.faulted fault last)) : fault.IsExpected := by
  obtain ⟨-, machine, count, made, faulted⟩ := reaches
  rw [Machine.run_load] at faulted
  exact isExpected_of_faulted (compileProgram_eq_ok_iff.mpr ⟨unfailing, clean, rfl⟩)
    (stackSize_of_ofStackSize made).1 faulted

/-- When a run has ended there is a response to it. -/
theorem exists_runResponse {outcome : Outcome} (unfailing : (compile depth text).failure = none)
    (clean : (compile depth text).errorCount = 0) (isRun : choice.noRun = false)
    (reaches : choice.Reaches (compile depth text).code outcome) :
    ∃ response, runResponse? name (compile depth text).globals.toList outcome = some response ∧
      choice.Answers depth name text (choice.behind depth text response) := by
  cases outcome with
  | running now => cases reaches.1
  | faulted fault last =>
    refine ⟨_, rfl, ?_⟩
    rw [behind, List.append_nil]
    exact .faulted clean isRun reaches (choice.isExpected_of_reaches depth unfailing clean reaches)
  | halted last =>
    obtain ⟨lines, shows, results⟩ := choice.shows_of_halted depth unfailing clean reaches
    refine ⟨_, rfl, ?_⟩
    rw [behind, results]
    exact .halted clean isRun reaches shows

/-- The program answers as soon as its run has ended. -/
theorem programResponse_of_reaches (name : String) {outcome : Outcome} (unfailing : (compile depth text).failure = none)
    (clean : (compile depth text).errorCount = 0) (isRun : choice.noRun = false)
    (reaches : choice.Reaches (compile depth text).code outcome) :
    ∃ response enough, choice.Answers depth name text response ∧ ∀ fuel,
      choice.job.programResponse depth name text fuel = .ok (if enough ≤ fuel then some response else none) := by
  obtain ⟨response, told, answers⟩ := exists_runResponse choice depth unfailing clean isRun reaches
  obtain ⟨isOver, machine, count, made, ran⟩ := reaches
  rw [Machine.run_load] at ran
  obtain ⟨enough, decided⟩ := Machine.exists_enough ran isOver
  refine ⟨_, enough, answers, fun fuel => ?_⟩
  have outcomes := decided fuel
  rw [programResponse_of_run unfailing clean isRun, runResponse_of_machine _ made, Machine.run_load]
  split at outcomes
  · next ended =>
    rw [outcomes, told, if_pos ended]
    rfl
  · next more =>
    obtain ⟨now, runs⟩ := outcomes
    rw [runs, if_neg more]
    rfl

/-- There is no answer about a program for which no memory has room. -/
theorem programResponse_of_large (unfailing : (compile depth text).failure = none)
    (overdone : choice.Overdoes depth text) (fuel : Nat) :
    choice.job.programResponse depth name text fuel = .error (.stackTooLarge choice.excess) := by
  rw [programResponse_of_run unfailing overdone.clean overdone.isRun, runResponse_of_large _ overdone.large]
  rfl

/-- The program answers if its run ends. Without a run it answers at once. -/
theorem programResponse_answers (name : String) (unfailing : (compile depth text).failure = none)
    (ends : (compile depth text).errorCount = 0 → choice.noRun = false → frameSize ≤ choice.words →
      choice.words < Machine.addressLimit → ∃ outcome, choice.Reaches (compile depth text).code outcome)
    (fits : ¬ choice.Overdoes depth text) :
    ∃ response enough, choice.Answers depth name text response ∧ ∀ fuel,
      choice.job.programResponse depth name text fuel = .ok (if enough ≤ fuel then some response else none) := by
  by_cases clean : (compile depth text).errorCount = 0
  · cases isRun : choice.noRun with
    | true =>
      refine ⟨_, 0, .compiled clean isRun, fun fuel => ?_⟩
      rw [programResponse_of_unrun unfailing (.inr isRun), compileResponse_of_clean _ _ clean, if_pos (Nat.zero_le _)]
    | false =>
      by_cases small : choice.words < frameSize
      · refine ⟨_, 0, .tooSmall clean isRun small, fun fuel => ?_⟩
        rw [programResponse_of_run unfailing clean isRun, runResponse_of_small _ small, if_pos (Nat.zero_le _)]
        simp [Except.map, behind]
      · have room : choice.words < Machine.addressLimit := Int.not_le.mp fun large => fits ⟨clean, isRun, large⟩
        obtain ⟨outcome, reaches⟩ := ends clean isRun (Int.not_lt.mp small) room
        exact programResponse_of_reaches choice depth name unfailing clean isRun reaches
  · refine ⟨_, 0, .rejected clean, fun fuel => ?_⟩
    rw [programResponse_of_unrun unfailing (.inl clean), compileResponse_of_errors _ _ clean, if_pos (Nat.zero_le _)]

end Choice

/-- The command line reports faithfully on each text in which no integer is too long, whatever is chosen, if the run of
the program comes to its end. A program with errors, one that is not to be run, and one for which the stack is too small
have no run that could go on for ever. Only a stack that no memory has room for is not reported: the program fails when
it makes the machine. -/
theorem replies_faithfully {depth : Nat} {arguments : List String}
    {contents : String → Except OpenFailure (List UInt8)} {source text : String} {choice : Choice}
    (asked : readArguments arguments = .ok (source, choice.job)) (readable : sourceText (contents source) = .ok text)
    (short : ∀ overlong, .error overlong ∉ lex text)
    (ends : (compile depth text).errorCount = 0 → choice.noRun = false → frameSize ≤ choice.words →
      choice.words < Machine.addressLimit → ∃ outcome, choice.Reaches (compile depth text).code outcome) :
    (choice.Overdoes depth text →
      ∀ fuel, replyWithin depth arguments contents fuel = .error (.stackTooLarge choice.excess)) ∧
    (¬ choice.Overdoes depth text →
      ∃ response, Replies depth arguments contents response ∧
        choice.Describes depth (displayName source) text response) := by
  have unfailing : (compile depth text).failure = none := compile_unfailing short
  have answered : ∀ fuel, replyWithin depth arguments contents fuel =
      choice.job.programResponse depth (displayName source) text fuel := by
    intro fuel
    simp only [replyWithin, asked, respond, readable]
  refine ⟨fun overdone fuel => ?_, fun fits => ?_⟩
  · rw [answered, choice.programResponse_of_large depth unfailing overdone]
  · obtain ⟨response, enough, answers, responds⟩ :=
      choice.programResponse_answers depth (displayName source) unfailing ends fits
    exact ⟨response, ⟨enough, fun fuel => (answered fuel).trans (responds fuel)⟩, answers.describes⟩

theorem sourceText_nestedSource : sourceText (.ok nestedSource.toByteArray.toList) = .ok nestedSource := by
  decide +kernel

/-- The listing of a program is followed by what it leaves in its variable. -/
theorem nestedSource_replies :
    let choice : Choice := { disassemble := true, noRun := false, stackSize := some 32, maxCycles := none }
    ∃ response, Replies maxNesting (choice.arguments "nested.pl0") (fun _ => .ok nestedSource.toByteArray.toList)
        response ∧
      choice.Describes maxNesting "nested.pl0" nestedSource response ∧ response.status = 0 ∧
      response.output = [listing nestedCode.toList, "x = 3", "20 cycles"] := by
  intro choice
  obtain ⟨-, clean, code⟩ := compileProgram_eq_ok_iff.mp compileProgram_nestedSource
  have isOperand : IsOperand "nested.pl0" := .inr (by decide)
  have asked := readArguments_arguments choice isOperand (by decide) (by decide)
  have noneOverlong := readable_of_compileProgram compileProgram_nestedSource
  obtain ⟨last, reaches, isThree, cycles⟩ : ∃ last,
      choice.Reaches (compile maxNesting nestedSource).code (.halted last) ∧ last.word? 4 = some 3 ∧
        last.cycles = 20 := by
    obtain ⟨last, halted, isThree, cycles⟩ := nestedCode_halts
    rw [code]
    exact ⟨last, ⟨rfl, _, 20, rfl, (Machine.run_load _ _ _).trans halted⟩, isThree, cycles⟩
  have fits : ¬ choice.Overdoes maxNesting nestedSource := fun overdone => absurd overdone.large (by decide)
  obtain ⟨response, replies, describes⟩ := (@replies_faithfully maxNesting _
    (fun _ => .ok nestedSource.toByteArray.toList) _ _ _ asked sourceText_nestedSource noneOverlong
    fun _ _ _ _ => ⟨_, reaches⟩).2 fits
  have succeeded : response.status = 0 := by
    refine describes.succeeded.mpr ⟨fun rejected => describes.rejected.mp rejected clean, fun failed => ?_⟩
    obtain ⟨-, -, small | ⟨fault, last, faulted⟩⟩ := describes.failed.mp failed
    · exact absurd small (by decide)
    · cases Choice.reaches_unique reaches faulted
  obtain ⟨results, printed, nonempty, told⟩ := describes.output
  obtain ⟨last, lines, halted, ⟨tree, -, -, -, shown⟩, rfl⟩ := told (nonempty.mpr ⟨succeeded, rfl⟩)
  cases Choice.reaches_unique reaches halted
  rw [nestedSource_compiles.2] at shown
  obtain ⟨line, rest, ⟨-, word, held, rfl⟩, others, rfl⟩ := List.forall₂_cons_left_iff.mp shown
  cases others
  cases held.symm.trans isThree
  refine ⟨response, replies, describes, succeeded, ?_⟩
  rw [printed, cycles, code]
  rfl

/-- The same program is not answered at all if its stack is to have one word more than an index counts. -/
theorem nestedSource_without_room :
    let choice : Choice :=
      { disassemble := false, noRun := false, stackSize := some Machine.indexLimit, maxCycles := none }
    ∀ fuel, replyWithin maxNesting (choice.arguments "nested.pl0") (fun _ => .ok nestedSource.toByteArray.toList) fuel =
      .error (.stackTooLarge .noIndex) := by
  intro choice fuel
  obtain ⟨unfailing, clean, -⟩ := compileProgram_eq_ok_iff.mp compileProgram_nestedSource
  have isOperand : IsOperand "nested.pl0" := .inr (by decide)
  have asked := readArguments_arguments choice isOperand (by decide) (by decide)
  have overdone : choice.Overdoes maxNesting nestedSource := ⟨clean, rfl, by decide⟩
  simp only [replyWithin, asked, respond, sourceText_nestedSource]
  exact choice.programResponse_of_large maxNesting unfailing overdone fuel

end CommandLine

end PLZero
