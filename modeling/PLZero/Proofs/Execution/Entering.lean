import PLZero.Proofs.Execution.Scenes
import PLZero.Proofs.Execution.Standing

namespace PLZero

open MachineM Machine

namespace Scene

variable (scene : Scene)

/-- A block is about to be entered: its arguments lie on the stack, with the links of its frame above them. -/
structure Enters (tree : Block) (start : Machine) (n : Nat) (store : Store) (site : Site) (outer : List Site)
    (visible : Environment) (arguments : List Int) (back : Nat) : Prop where
  code_eq : scene.code = tree.program
  sees : Sees tree (site :: outer) visible
  length_eq : arguments.length = site.arity
  tidy : Tidy scene.stack store.started
  begun : ∃ link address : Nat, (address = site.start ∨ address = site.entry) ∧
    Framed scene.stack link outer visible.marks ∧
    start.Moment n store.started ⟨scene.code, scene.size, address, scene.stack.length + site.arity,
      wordsOf store scene.stack ++ arguments ++ [(link : Int), scene.base, back, 0]⟩

/-- The scene of the statement of a block that has been entered. Behind the variables lie words that are not used. -/
def inside (site : Site) (activation link back : Nat) (junk : List Int) : Scene :=
  { scene with
    stack := scene.stack ++
      (frameCells activation (Block.parametersOf site.owner) link scene.base back site.block.vars ++ junk.map .word)
    base := scene.stack.length + site.arity }

variable {scene} {tree : Block} {start : Machine} {n : Nat} {store : Store} {site : Site} {outer : List Site}
  {visible : Environment} {arguments junk : List Int} {back link activation : Nat}

theorem hosts_inside (code : scene.code = tree.program) (sees : Sees tree (site :: outer) visible)
    (framed : Framed scene.stack link outer visible.marks) (activation back : Nat) (junk : List Int) :
    (scene.inside site activation link back junk).Hosts tree site outer visible activation :=
  ⟨code, sees, framed.enter _ site activation scene.base back⟩

/-- The parameters and the variables of a block have names of their own. -/
theorem names_nodup (sees : Sees tree (site :: outer) visible) (formed : tree.IsProgram) :
    (Block.parametersOf site.owner ++ site.block.vars).Nodup := by
  have rules := sees.path.wellFormed formed site.start
  obtain ⟨owner, ⟨constants, vars, subroutines, body⟩, start, context⟩ := site
  obtain ⟨-, distinct, -⟩ := rules
  refine distinct.sublist ?_
  rw [List.append_assoc, List.append_assoc]
  refine (List.append_sublist_append_left _).mpr ?_
  exact (List.sublist_append_left _ _).trans (List.sublist_append_right _ _)

/-- The words of a block that has been entered. -/
theorem wordsOf_inside (link back : Nat) (junk : List Int) {fresh : List Int} {initial : Nat → Int}
    (distinct : (Block.parametersOf site.owner ++ site.block.vars).Nodup) (tidy : Tidy scene.stack store.started)
    (length : arguments.length = site.arity) (room : fresh.length = site.block.vars.length)
    (spelled : ∀ index < site.block.vars.length, fresh[index]? = some (initial index)) :
    wordsOf (store.begin (Block.parametersOf site.owner) arguments site.block.vars initial)
        (scene.inside site store.started link back junk).stack =
      wordsOf store scene.stack ++ arguments ++ [(link : Int), scene.base, back, 0] ++ (fresh ++ junk) := by
  rw [inside, wordsOf_append, wordsOf_append, wordsOf_words, tidy.wordsOf_begin,
    wordsOf_frameCells distinct length room spelled]
  simp

theorem tidy_inside (distinct : (Block.parametersOf site.owner ++ site.block.vars).Nodup)
    (tidy : Tidy scene.stack store.started) :
    Tidy (scene.inside site store.started link back junk).stack (store.started + 1) := by
  rw [inside, ← List.append_assoc]
  exact (tidy.frame distinct).words_append junk

/-- A block that is called by the jump in front of its code is called by its entry. -/
theorem Enters.at_entry (lasting : ¬ start.Starves)
    (enters : scene.Enters tree start n store site outer visible arguments back) :
    ∃ m link, n ≤ m ∧ Framed scene.stack link outer visible.marks ∧
      start.Moment m store.started ⟨scene.code, scene.size, site.entry, scene.stack.length + site.arity,
        wordsOf store scene.stack ++ arguments ++ [(link : Int), scene.base, back, 0]⟩ := by
  obtain ⟨link, address, called, framed, moment⟩ := enters.begun
  rcases called with rfl | rfl
  · have fetched : scene.code[site.start]? = some (.of .jump 0 site.entry) :=
      enters.code_eq ▸ enters.sees.path.code_start
    have more : site.entry ≠ 0 := by
      have := site.start_lt_entry
      omega
    have next := (moment.next fetched nofun more fun _ shown => execute_jump shown).resolve_left lasting
    exact ⟨n + 1, link, Nat.le_succ n, framed, next⟩
  · exact ⟨n, link, Nat.le_refl n, framed, moment⟩

/-- A block is entered: its variables start with the chosen values. -/
theorem Enters.proceed {choices : Nat → Nat → Int} (formed : tree.IsProgram) (lasting : ¬ start.Starves)
    (foresees : Foresees choices start)
    (enters : scene.Enters tree start n store site outer visible arguments back) {initial : Nat → Int}
    (chosen : ∀ index < site.block.vars.length, choices store.started index = initial index) :
    ∃ m link junk, n < m ∧
      (scene.inside site store.started link back junk).Hosts tree site outer visible store.started ∧
      (scene.inside site store.started link back junk).At start m
        (store.begin (Block.parametersOf site.owner) arguments site.block.vars initial) (site.entry + 1) [] := by
  obtain ⟨m, link, le, framed, moment⟩ := enters.at_entry lasting
  have fetched : scene.code[site.entry]? = some (.of .enter 0 site.room) :=
    enters.code_eq ▸ enters.sees.path.code_entry
  obtain ⟨fresh, length, spelled, next⟩ := (moment.enter foresees fetched).resolve_left lasting
  rw [Site.room] at length spelled
  have distinct := names_nodup enters.sees formed
  have taken : (fresh.take site.block.vars.length).length = site.block.vars.length := by
    rw [List.length_take]
    omega
  have values : ∀ index < site.block.vars.length,
      (fresh.take site.block.vars.length)[index]? = some (initial index) := by
    intro index below
    rw [List.getElem?_take_of_lt below, spelled index (by omega), chosen index below]
  have words := wordsOf_inside link back (fresh.drop site.block.vars.length) distinct enters.tidy enters.length_eq taken
    values
  rw [List.take_append_drop] at words
  refine ⟨m + 1, link, fresh.drop site.block.vars.length, by omega,
    hosts_inside enters.code_eq enters.sees framed store.started back _, tidy_inside distinct enters.tidy, ?_⟩
  rw [snapshot, words, List.append_nil]
  exact next

/-- What the return of a block reads in its frame. -/
theorem return_words (scene : Scene) (site : Site) (activation link back : Nat) (junk : List Int) (store : Store) :
    let words := wordsOf store (scene.inside site activation link back junk).stack
    let base := (scene.inside site activation link back junk).base
    words[base + 1]? = some (scene.base : Int) ∧ words[base + 2]? = some (back : Int) ∧
      words[base + 3]? = some (store.values (.result activation)) ∧
        words.take (base - site.arity) = wordsOf store scene.stack := by
  have links := fun index (isLink : index < 4) =>
    getElem?_links scene.stack (junk.map .word) site activation link scene.base back isLink
  have saved := wordsOf_getElem? store (links 1 (by omega))
  have returns := wordsOf_getElem? store (links 2 (by omega))
  have result := wordsOf_getElem? store (links 3 (by omega))
  refine ⟨saved, returns, result, ?_⟩
  simp only [inside, wordsOf_append]
  rw [Nat.add_sub_cancel, ← length_wordsOf, List.take_left]

/-- A return drops the frame with the arguments, and leaves the result of a function. -/
theorem execute_leave {decoded : Machine} {s : Snapshot}
    (spelled : s = (scene.inside site activation link back junk).snapshot store site.last [])
    (shown : decoded.Shows { s with pc := s.pc + 1 }) :
    ∃ after, execute (Block.returnInstruction site.owner) decoded = .ok () after ∧
      after.Shows (scene.snapshot store back ([store.values (.result activation)].take site.results)) ∧
      (site.results = 0 → after.memory = decoded.memory) := by
  obtain ⟨atSaved, atReturn, atResult, rest⟩ := return_words scene site activation link back junk store
  rw [snapshot, List.append_nil] at spelled
  subst spelled
  obtain ⟨after, ran, shows, memory⟩ := Site.execute_return shown (Nat.le_add_left _ _) atResult atReturn atSaved
  refine ⟨after, ran, ?_, memory⟩
  rw [rest] at shows
  exact shows

/-- A subroutine returns to where it was called. -/
theorem At.leave (at_ : (scene.inside site activation link back junk).At start n store site.last [])
    (fetched : scene.code[site.last]? = some (Block.returnInstruction site.owner)) (goesOn : back ≠ 0)
    (lasting : ¬ start.Starves) :
    scene.At start (n + 1) store back ([store.values (.result activation)].take site.results) := by
  obtain ⟨tidy, moment⟩ := at_
  have plain : (Block.returnInstruction site.owner).operation ≠ .named .enter := by
    rcases site.return_cases with ⟨-, leaves⟩ | ⟨-, leaves⟩ <;> rw [leaves] <;> nofun
  refine ⟨tidy.of_append, (moment.next fetched plain goesOn fun decoded shown => ?_).resolve_left lasting⟩
  obtain ⟨after, ran, shows, -⟩ := execute_leave rfl shown
  exact achieves_of_ok ran shows

/-- The code of a call leads to the subroutine that the name stands for. -/
theorem At.called {around : Environment} {activation pc : Nat} {operands : List Int} {name : String} {kind : Routine}
    {found : Found (Option String) Binding}
    (hosts : scene.Hosts tree site outer around activation) (formed : tree.IsProgram) (lasting : ¬ start.Starves)
    (at_ : scene.At start n store pc (operands ++ arguments)) (atName : site.context.find? name = some found)
    (routine : found.entry.meaning = .routine kind arguments.length)
    (placed : CodeAt scene.code pc (site.context.callCode name)) :
    ∃ inner further heading visible, inner.owner = some heading ∧ heading.kind = kind ∧
      (∀ call : Caller, (site.block.environment around site.owner activation).invoke call name arguments =
        call visible heading inner.block arguments) ∧
      (site.context.callCode name).length = 1 ∧
      (scene.keep operands).Enters tree start (n + 1) store inner further visible arguments (pc + 1) := by
  obtain ⟨declaration, visible, seen, marks, means⟩ := hosts.sees.means activation atName
  obtain ⟨other, atOther, -⟩ := hosts.sees.path.gives_of_find? atName
  obtain ⟨distance, binding, context⟩ := found
  rw [CodeContext.callCode, atName] at placed ⊢
  cases means with
  | constant => simp [Binding.meaning] at routine
  | «variable» => simp [Binding.meaning] at routine
  | @routine inner heading address _ sees owned called =>
    obtain ⟨same, length⟩ : heading.kind = kind ∧ heading.parameters.length = arguments.length := by
      simpa [Heading.binding, Binding.meaning] using routine
    have arity : arguments.length = inner.arity := by rw [Site.arity, owned, Block.parametersOf, length]
    have inside := Nat.le_of_lt (List.getElem?_eq_some_iff.mp atOther).1
    obtain ⟨frame, chain, framed⟩ := hosts.framed.drop inside store (operands ++ arguments)
    have small := hosts.distance_le formed atOther
    obtain ⟨tidy, moment⟩ := at_
    have fetched : scene.code[pc]? = some (.of .call distance address) := placed.head
    have plain : (Instruction.of .call distance address).operation ≠ .named .enter := by simp [Instruction.of]
    have goesOn : address ≠ 0 := by
      have := sees.path.start_pos owned
      have := inner.start_lt_entry
      omega
    have next := (moment.next fetched plain goesOn fun _ shown => execute_call shown small chain).resolve_left lasting
    refine ⟨inner, (site :: outer).drop distance, heading, visible, owned, same, fun call =>
      Environment.invoke_routine seen, rfl, hosts.code_eq, sees, arity, tidy.words_append operands, frame, address, called,
      ?_, ?_⟩
    · rw [marks]
      exact framed.append _
    · simpa [Scene.keep, snapshot, arity, Nat.add_assoc] using next

end Scene

end PLZero
