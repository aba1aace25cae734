import PLZero.Proofs.Execution.Safety

namespace PLZero

/-- A statement within a statement, each with the address at which its code begins. -/
inductive Statement.Part (context : CodeContext) : Nat → Statement → Nat → Statement → Prop
  | whole {start : Nat} {s : Statement} : Part context start s start s
  | first {start address : Nat} {first rest s : Statement} : Part context start first address s →
      Part context start (.sequence first rest) address s
  | rest {start address : Nat} {first rest s : Statement} :
      Part context (start + (first.code context start).length) rest address s →
      Part context start (.sequence first rest) address s
  | compound {start address : Nat} {body s : Statement} : Part context start body address s →
      Part context start (.compound body) address s
  | ifThen {start address : Nat} {condition : Expression} {consequent s : Statement} :
      Part context (start + (condition.code context).length + 1) consequent address s →
      Part context start (.ifThen condition consequent) address s
  | consequent {start address : Nat} {condition : Expression} {consequent alternative s : Statement} :
      Part context (start + (condition.code context).length + 1) consequent address s →
      Part context start (.ifElse condition consequent alternative) address s
  | alternative {start address entry : Nat} {condition : Expression} {consequent alternative s : Statement} :
      entry = start + (condition.code context).length + 1 →
      Part context (entry + (consequent.code context entry).length + 1) alternative address s →
      Part context start (.ifElse condition consequent alternative) address s
  | whileDo {start address : Nat} {condition : Expression} {body s : Statement} :
      Part context (start + (condition.code context).length + 1) body address s →
      Part context start (.whileDo condition body) address s
  | repeatUntil {start address : Nat} {condition : Expression} {body s : Statement} :
      Part context start body address s → Part context start (.repeatUntil body condition) address s

namespace Statement.Part

variable {tree : Block} {site : Site} {outer : List Site}

/-- Behind each statement of a block the stack above the variables is bare. -/
theorem rests {start address : Nat} {body s : Statement} (part : Part site.context start body address s)
    (reached : tree.Path (site :: outer)) (formed : tree.IsProgram)
    (wellFormed : body.WellFormed site.context.meanings) :
    Rests (site :: outer) start (body.code site.context start)
      ↑(address + (s.code site.context address).length) := by
  have test : ∀ {condition : Expression}, condition.WellFormed site.context.meanings →
      Straight (site :: outer) ⟨0, none⟩ (condition.code site.context) ⟨1, none⟩ :=
    fun conditionFormed => reached.expression_straight formed conditionFormed 0
  have settled : ∀ {body : Statement}, body.WellFormed site.context.meanings → ∀ start,
      Settled (site :: outer) start (body.code site.context start) :=
    fun bodyFormed start => reached.statement_settled formed bodyFormed start
  induction part with
  | whole => exact .at_end (settled wellFormed _).straight
  | first _ ih =>
    cases wellFormed with
    | sequence firstFormed _ => exact (ih firstFormed).append
  | rest _ ih =>
    cases wellFormed with
    | sequence firstFormed restFormed => exact (ih restFormed).prepend (settled firstFormed _).straight
  | compound _ ih =>
    cases wellFormed with
    | compound bodyFormed => exact ih bodyFormed
  | ifThen _ ih =>
    cases wellFormed with
    | ifThen conditionFormed consequentFormed => exact .behind_guard (test conditionFormed) (ih consequentFormed)
  | consequent _ ih =>
    cases wellFormed with
    | ifElse conditionFormed consequentFormed _ =>
      simp only [Statement.code]
      rw [List.append_assoc, List.cons_append]
      exact .behind_guard (test conditionFormed) (ih consequentFormed).append
  | alternative entry _ ih =>
    subst entry
    cases wellFormed with
    | ifElse conditionFormed consequentFormed alternativeFormed =>
      simp only [Statement.code]
      rw [List.append_assoc, List.cons_append]
      exact .behind_guard (test conditionFormed)
        (.behind_jump (settled consequentFormed _).straight (ih alternativeFormed))
  | whileDo _ ih =>
    cases wellFormed with
    | whileDo conditionFormed bodyFormed =>
      simp only [Statement.code]
      rw [List.append_assoc, List.cons_append]
      exact .behind_guard (test conditionFormed) (ih bodyFormed).append
  | repeatUntil _ ih =>
    cases wellFormed with
    | repeatUntil bodyFormed _ =>
      simp only [Statement.code]
      rw [List.append_assoc]
      exact (ih bodyFormed).append

end Statement.Part

/-- How far the top of the stack is above the base of the current frame when control is at an address. -/
inductive Block.Height (tree : Block) (address : Nat) : Nat → Prop
  | called {site : Site} {outer : List Site} : tree.Path (site :: outer) →
      address = site.start ∨ address = site.entry → Height tree address 3
  | within {site : Site} {outer : List Site} {shape : Shape} : tree.Path (site :: outer) →
      ShapeAt site outer address shape → Height tree address (3 + site.room + shape.height)

namespace Block.Height

variable {tree : Block} {address height other : Nat}

theorem unique (reaches : tree.Height address height) (also : tree.Height address other) : height = other := by
  cases reaches with
  | called path atFront =>
    cases also with
    | called => rfl
    | within alsoPath shaped =>
      obtain ⟨rfl, rfl⟩ := List.cons.inj (path.unique alsoPath (Site.owns_of_called atFront) shaped.owns)
      exact absurd atFront (not_or.mpr shaped.not_called)
  | within path shaped =>
    cases also with
    | called alsoPath atFront =>
      obtain ⟨rfl, rfl⟩ := List.cons.inj (path.unique alsoPath shaped.owns (Site.owns_of_called atFront))
      exact absurd atFront (not_or.mpr shaped.not_called)
    | within alsoPath alsoShaped =>
      obtain ⟨rfl, rfl⟩ := List.cons.inj (path.unique alsoPath shaped.owns alsoShaped.owns)
      rw [shaped.unique alsoShaped]

/-- The height is a function of the address. -/
theorem exists_function (tree : Block) : ∃ heights : Nat → Nat, ∀ address height,
    tree.Height address height → heights address = height := by
  have each : ∀ address, ∃ chosen, ∀ height, tree.Height address height → chosen = height := by
    intro address
    by_cases known : ∃ height, tree.Height address height
    · obtain ⟨chosen, reaches⟩ := known
      exact ⟨chosen, fun height also => reaches.unique also⟩
    · exact ⟨0, fun height also => absurd ⟨height, also⟩ known⟩
  exact ⟨fun address => (each address).choose, fun address => (each address).choose_spec⟩

end Block.Height

namespace Machine

variable {tree : Block} {start machine now after : Machine} {n : Nat} {s : Snapshot} {current : Activation}
  {callers : List Waiting}

/-- The top of the stack is as far above the base of the frame as the address tells. -/
theorem Stands.height (stands : Stands tree start n machine s current callers) :
    ∃ height : Nat, tree.Height s.pc height ∧ machine.sp = machine.bp + height := by
  have path := stands.standing.path
  rw [stands.shown.sp_eq, stands.shown.bp_eq, stands.standing.bp_eq]
  cases stands.standing.point with
  | called _ atFront length =>
    refine ⟨3, .called path atFront, ?_⟩
    rw [length, frameSize]
    omega
  | within shaped loaded =>
    refine ⟨_, .within path shaped, ?_⟩
    rw [loaded.length_eq, frameSize]
    omega

namespace Stands

variable {instruction : Instruction}

/-- An instruction that makes room for variables stands at the entry of a block. -/
theorem enter_eq (stands : Stands tree start n machine s current callers) (formed : tree.IsProgram)
    (fetched : machine.instruction? = some instruction) (entering : instruction.operation = .named .enter) :
    instruction = .of .enter 0 current.site.room ∧ s.words.length = current.base + frameSize := by
  have path := stands.standing.path
  rw [stands.instruction?_eq] at fetched
  cases stands.standing.point with
  | called _ atFront length =>
    rcases atFront with atStart | atEntry
    · rw [atStart, path.code_start] at fetched
      cases fetched
      cases entering
    · rw [atEntry, path.code_entry] at fetched
      cases fetched
      exact ⟨rfl, length⟩
  | within shaped _ =>
    rcases shaped.next path formed with ⟨atLast, -⟩ | ⟨other, between, alsoFetched, effect, -⟩
    · rw [atLast, path.code_last] at fetched
      cases fetched
      rcases current.site.return_cases with ⟨-, leaves⟩ | ⟨-, leaves⟩ <;> rw [leaves] at entering <;> cases entering
    · cases fetched.symm.trans alsoFetched
      cases effect <;> cases entering

/-- Making room for variables raises the top of the stack. -/
theorem sp_of_enter (stands : Stands tree start n machine s current callers) (formed : tree.IsProgram)
    (fetched : machine.instruction? = some instruction) (entering : instruction.operation = .named .enter)
    (next : start.resume (n + 1) = .running after) : after.sp = after.bp + 3 + instruction.value := by
  obtain ⟨rfl, length⟩ := stands.enter_eq formed fetched entering
  obtain ⟨stepped, -⟩ := stands.step_of_running formed next
  have executed := execute_of_step fetched stepped
  obtain ⟨fresh, many, -, shows⟩ := (MachineM.execute_enter (stands.shown.ahead _)).of_run executed
  have value : (Instruction.of .enter 0 current.site.room).value = current.site.room := rfl
  rw [shows.sp_eq, shows.bp_eq, List.length_append, many, length, stands.standing.bp_eq, value, frameSize]
  omega

/-- Behind a call the new frame is all there is above its base. -/
theorem sp_of_call (stands : Stands tree start n machine s current callers) (formed : tree.IsProgram)
    (fetched : machine.instruction? = some instruction) (calling : instruction.operation = .named .call)
    (next : start.resume (n + 1) = .running after) : after.sp = after.bp + 3 := by
  obtain ⟨-, other, s', alsoFetched, shows, -, follows⟩ := stands.step_of_running formed next
  cases fetched.symm.trans alsoFetched
  cases follows with
  | calls _ _ _ _ _ length standing =>
    rw [shows.sp_eq, shows.bp_eq, standing.bp_eq, length, frameSize]
    omega
  | stays noCall => exact absurd calling noCall
  | returns _ returning =>
    rcases current.site.return_cases with ⟨-, leaves⟩ | ⟨-, leaves⟩ <;> rw [returning, leaves] at calling <;>
      cases calling
  | halts _ returning =>
    rw [returning] at calling
    cases calling

end Stands

end Machine

/-- The height of the stack above the base of the current frame is a function of the program counter. -/
theorem height_of_pc {depth : Nat} {source : String} {code : Array Instruction}
    (compiled : compileProgram depth source = .ok (.ok code)) :
    ∃ tree : Block, parse (sourceTokens source) = some tree ∧ ∃ heights : Nat → Nat,
      ∀ machine : Machine, frameSize ≤ machine.stackSize →
        ∀ n now, (machine.load code).resume n = .running now →
          (∃ pc : Nat, now.pc = pc ∧ now.sp = now.bp + heights pc) ∧
          (∀ instruction after, now.instruction? = some instruction →
            (machine.load code).resume (n + 1) = .running after →
              (instruction.operation = .named .call → after.sp = after.bp + 3) ∧
              (instruction.operation = .named .enter → after.sp = after.bp + 3 + instruction.value)) ∧
          ∀ site outer address s, tree.Path (site :: outer) →
            Statement.Part site.context (site.entry + 1) site.block.body address s →
              now.pc = ↑(address + (s.code site.context address).length) →
                ∃ count : Nat, code[site.entry]? = some (.of .enter 0 count) ∧ now.sp = now.bp + 3 + count := by
  obtain ⟨tree, atProgram, formed, program, -⟩ := exists_program_of_compileProgram compiled
  obtain ⟨heights, tells⟩ := Block.Height.exists_function tree
  refine ⟨tree, atProgram, heights, fun machine large n now ran => ?_⟩
  obtain ⟨s, current, callers, stands⟩ := Machine.stands_of_running formed program large ran
  obtain ⟨height, reaches, top⟩ := stands.height
  refine ⟨⟨s.pc, stands.shown.pc_eq, by rw [tells _ _ reaches]; exact top⟩, ?_, ?_⟩
  · intro instruction after fetched next
    exact ⟨fun calling => stands.sp_of_call formed fetched calling next,
      fun entering => stands.sp_of_enter formed fetched entering next⟩
  · intro site outer address part path within atEnd
    obtain ⟨front, back, spelled, target, straight⟩ :=
      within.rests path formed (path.body_wellFormed formed)
    have shaped : ShapeAt site outer s.pc ⟨0, none⟩ := by
      refine ⟨front, back, spelled, ?_, straight⟩
      have atPc := stands.shown.pc_eq.symm.trans (atEnd.trans target)
      omega
    refine ⟨site.room, ?_, ?_⟩
    · rw [← Array.getElem?_toList, program, path.code_entry]
    · rw [top, reaches.unique (.within path shaped)]
      simp only [Shape.height_none]
      omega

theorem nestedSource_height_of_pc :
    ∃ tree : Block, parse (sourceTokens nestedSource) = some tree ∧ ∃ heights : Nat → Nat,
      ∀ machine : Machine, frameSize ≤ machine.stackSize →
        ∀ n now, (machine.load nestedCode).resume n = .running now →
          (∃ pc : Nat, now.pc = pc ∧ now.sp = now.bp + heights pc) ∧
          (∀ instruction after, now.instruction? = some instruction →
            (machine.load nestedCode).resume (n + 1) = .running after →
              (instruction.operation = .named .call → after.sp = after.bp + 3) ∧
              (instruction.operation = .named .enter → after.sp = after.bp + 3 + instruction.value)) ∧
          ∀ site outer address s, tree.Path (site :: outer) →
            Statement.Part site.context (site.entry + 1) site.block.body address s →
              now.pc = ↑(address + (s.code site.context address).length) →
                ∃ count : Nat, nestedCode[site.entry]? = some (.of .enter 0 count) ∧ now.sp = now.bp + 3 + count :=
  height_of_pc compileProgram_nestedSource

end PLZero
