import PLZero.Proofs.Recovery.Headings
import PLZero.Proofs.Recovery.Statements

namespace PLZero

open Production

namespace Setting

variable {setting : Setting} {own declared parameters : List Symbol} {symbol : Option Symbol}
  {inner : List Instruction} {spans within : List Span} {w before : Watch} {d first : Draft} {region : Region}

/-- What is called in a block is around it or has been compiled in it. -/
theorem Declaring.calls (declaring : setting.Declaring own inner spans before first) {address : Nat}
    (holds : w.Holds d.symbols (setting.around address ++ own)) {calls : Int → Prop}
    (covers : setting.Covers calls address) (callable : ∀ address, Callable spans address → calls address) :
    ∀ address, d.symbols.Calls address → calls address := by
  rintro _ ⟨name, symbol, found, routine, rfl⟩
  rcases List.mem_append.mp (holds.resolve_mem found) with mem | mem
  · exact covers symbol mem routine
  · obtain ⟨span, inSpans, entry⟩ := declaring.entered symbol mem routine
    exact callable _ ⟨span, inSpans, .inr entry⟩

/-- What is around a subroutine is around the block, or declared in it, or the subroutine itself. -/
theorem Declaring.nested_covers (declaring : setting.Declaring own inner spans before first) {calls : Int → Prop}
    (covers : setting.Covers calls setting.start) (callable : ∀ address, Callable spans address → calls address)
    {address : Nat} (itself : calls address) :
    (setting.nested own inner spans declared symbol parameters).Covers calls address := by
  intro e mem routine
  rcases List.mem_append.mp mem with outside | isOwner
  · rcases List.mem_append.mp outside with around | declared
    · exact covers e around routine
    · obtain ⟨span, inSpans, entry⟩ := declaring.entered e declared routine
      exact callable _ ⟨span, inSpans, .inr entry⟩
  · obtain ⟨s, -, rfl⟩ := List.mem_map.mp isOwner
    exact itself

/-- A subroutine that has been compiled has its own entry in the table, and its code stands behind. -/
theorem Declaring.subroutine (declaring : setting.Declaring own inner spans before first)
    (closed : (setting.nested own inner spans declared symbol parameters).Closed region within w d) :
    setting.Declaring
      (own ++ (setting.nested own inner spans declared symbol parameters).header.filled region.entry)
      (inner ++ region.code) (spans ++ (within ++ [region.span])) w d where
  watch_eq := ⟨declared, by rw [closed.watch_eq, nested, List.append_assoc]⟩
  holds := by
    rw [← List.append_assoc]
    exact closed.holds
  length_eq := declaring.length_eq
  code_eq := by
    rw [closed.code_eq, nested, List.append_assoc, List.cons_append]
  entered := by
    refine List.forall_mem_append.mpr ⟨fun e mem routine => ?_, fun e mem _ => ?_⟩
    · obtain ⟨span, inSpans, entry⟩ := declaring.entered e mem routine
      exact ⟨span, List.mem_append_left _ inSpans, entry⟩
    · obtain ⟨s, -, rfl⟩ := List.mem_map.mp mem
      exact ⟨region.span, by simp, rfl⟩
  regions := by
    intro calls covers callable
    have earlier : ∀ address, Callable spans address → calls address := fun address called =>
      callable address (called.mono (by simp))
    have inside : ∀ address, Callable within address → calls address := fun address called =>
      callable address (called.mono fun span mem => by simp [mem])
    have atStart : calls region.start := callable _ ⟨region.span, by simp, .inl rfl⟩
    have atEntry : calls region.entry := callable _ ⟨region.span, by simp, .inr rfl⟩
    rw [closed.start_eq] at atStart
    obtain ⟨framed, nested⟩ := closed.regions calls (declaring.nested_covers covers earlier atStart)
      (declaring.nested_covers covers earlier atEntry) inside
    rw [← closed.start_eq] at nested
    refine (declaring.regions calls covers earlier).concat ?_ framed nested
    rw [closed.start_eq]
    simp [Setting.start, Setting.nested, Nat.add_assoc, Nat.add_comm 1]

end Setting

namespace Grammar

variable {setting : Setting} {scope : Scope} {owner : Owner} {kind : SymbolKind} {w : Watch} {d : Draft}

/-- A rule for blocks compiles each in its setting. -/
def Compiles (block : Scope → Owner → Rule) : Prop :=
  ∀ {setting : Setting} {scope owner w d}, setting.Suits scope owner →
    setting.Heading (setting.header.filled 0) w d → (block scope owner).Heeds w d fun _ w d =>
      ∃ region within, region.leave.operation = .named owner.returnOp ∧ setting.Closed region within w d

section Subroutines

variable {block : Scope → Owner → Rule} (compiles : Compiles block) (level : setting.outer.length = scope.level)
  (owners : ∀ o ∈ scope.owners, setting.Encloses o)
include compiles level owners

theorem subroutine_declares (routine : kind = .procedure ∨ kind = .function) (declares : setting.Declares w d)
    (begins : Watch.beginsSubroutine d.current.token) :
    (subroutine block scope kind).Heeds w d fun _ => setting.Declares := by
  obtain ⟨own, inner, spans, declaring⟩ := declares
  rw [subroutine_eq]
  refine (declaring.advance begins).bind fun _ w d ⟨declared, heading⟩ => ?_
  refine (heading.heeds (expectIdentifier_silent heading.inForce)).bind fun name w d ⟨heading, _⟩ => ?_
  refine (declaredName_heeds level routine heading name).bind fun isNew w d ⟨declared, symbol, symbol_eq, heading⟩ => ?_
  refine (heading.heeds (checkLevel_silent heading.inForce scope)).bind fun _ w d ⟨heading, _⟩ => ?_
  refine (heading.heeds (require_silent heading.inForce (by decide))).bind fun _ w d ⟨heading, _⟩ => ?_
  refine (heading.heeds (parameterNames_silent heading.inForce)).bind fun names w d ⟨heading, distinct⟩ => ?_
  refine (heading.heeds (require_silent heading.inForce (by decide))).bind fun _ w d ⟨heading, _⟩ => ?_
  refine (declareParameters_heeds level names.length 0 distinct (by simp) heading).bind
    fun _ w d ⟨parameters, length, heading⟩ => ?_
  rw [List.length_nil, Nat.zero_add] at length
  refine (setArity_heeds routine (symbol_eq _) length heading).bind fun _ w d heading => ?_
  refine (compiles ⟨rfl, symbol_eq _, routine, by simp [Setting.nested, level], ?_⟩ heading).bind
    fun _ w d ⟨region, within, _, closed⟩ => ?_
  · intro o mem
    rcases List.mem_append.mp mem with isKey | outer
    · cases isNew <;> cases name <;> simp at isKey
      subst isKey
      exact Setting.encloses_own (symbol_eq 0) level
    · exact (owners o outer).nested
  · exact require_declares (by decide) ⟨_, _, _, declaring.subroutine closed⟩

theorem subroutines_declares (declares : setting.Declares w d) (rounds : Nat) :
    (subroutines block scope rounds).Heeds w d fun _ => setting.Declares := by
  induction rounds generalizing w d with
  | zero => exact .of_pure declares
  | succ rounds ih =>
    refine (token_heeds declares.inForce rfl).bind ?_
    rintro t _ _ ⟨rfl, rfl, rfl⟩
    split
    · next begins =>
      exact (subroutine_declares compiles level owners (.inl rfl) declares (.inl begins)).bind fun _ _ _ => ih
    · next begins =>
      exact (subroutine_declares compiles level owners (.inr rfl) declares (.inr begins)).bind fun _ _ _ => ih
    · exact .of_pure declares

end Subroutines

/-- The jump in front of a block. -/
def startBlock (owner : Owner) : Production Nat := do
  let start ← emit .jump
  owner.setEntry start
  return start

theorem openBlock_eq (scope : Scope) (owner : Owner) : openBlock scope owner = (do
    let start ← startBlock owner
    declarations .constKw (fun _ => constantDeclaration scope) ()
    let size ← declarations .varKw (variableDeclaration scope) frameSize
    return (start, size)) := by
  simp only [openBlock, startBlock, LawfulMonad.bind_assoc, pure_bind]

section Stages

variable (suits : setting.Suits scope owner) {own : List Symbol} {inner : List Instruction} {spans : List Span}
  {room : Int}
include suits

/-- The jump opens the block, which has the parameters then. -/
theorem startBlock_heeds (heading : setting.Heading (setting.header.filled 0) w d) :
    (startBlock owner).Heeds w d fun start w d =>
      start = setting.start ∧ setting.Declaring setting.header.parameters [] [] w d := by
  obtain ⟨rfl, holds, plain, code_eq⟩ := heading
  have size : d.code.size = setting.start := by rw [← Array.length_toList, code_eq, Setting.start]
  refine (emit_heeds ⟨_, holds⟩ rfl (Watch.fits_jump (.inl rfl))).bind ?_
  rintro _ w first ⟨watch_eq, rfl, symbols, instruction, made, code⟩
  cases made.symm.trans (Instruction.ofLevel_zero .jump 0)
  obtain rfl : w = ⟨.declarations, ⟨setting.header, d.code.size, setting.header.parameters⟩ :: setting.outer,
    setting.finished⟩ := watch_eq
  rw [size]
  refine (Owner.setEntry_heeds suits (symbols ▸ holds.openBlock setting.start) setting.start).bind ?_
  rintro _ _ second ⟨rfl, same, opened⟩
  refine .of_pure ⟨rfl, ⟨_, by rw [List.append_nil]⟩, opened, ?_, ?_, ?_, fun _ _ _ => .nil _⟩
  · have length := opened.length_eq
    simpa [Watch.declarations, Watch.pending, OpenBlock.allDeclared] using length
  · rw [same, code, Array.toList_push, code_eq]
  · intro e mem routine
    have notRoutine := plain e mem
    rcases routine with routine | routine <;> cases notRoutine.symm.trans routine

theorem openBlock_heeds (heading : setting.Heading (setting.header.filled 0) w d) :
    (openBlock scope owner).Heeds w d fun result w d => result.1 = setting.start ∧ setting.Declares w d := by
  have level := suits.level_eq
  rw [openBlock_eq]
  refine (startBlock_heeds suits heading).bind fun start w d ⟨atStart, declaring⟩ => ?_
  have ofConstants : (declarations .constKw (fun _ => constantDeclaration scope) ()).Heeds w d fun _ =>
      setting.Declares :=
    declarations_declares (by decide) (fun _ _ _ => constantDeclaration_declares level) () ⟨_, _, _, declaring⟩
  refine ofConstants.bind fun _ w d declares => ?_
  have ofVars : (declarations .varKw (variableDeclaration scope) frameSize).Heeds w d fun _ => setting.Declares :=
    declarations_declares (by decide) (fun offset _ _ declares => variableDeclaration_declares level declares offset)
      frameSize declares
  exact ofVars.bind fun size w d declares => .of_pure ⟨atStart, declares⟩

/-- The jump in front of a block is made to lead to the entry. -/
theorem enterBlock_heeds (declaring : setting.Declaring own inner spans w d) (size : Nat) :
    (enterBlock owner setting.start size).Heeds w d fun _ => setting.Entered own inner spans size := by
  obtain ⟨⟨declared, rfl⟩, holds, length_eq, code_eq, entered, regions⟩ := declaring
  have atEntry : d.code.size = setting.start + 1 + inner.length := by
    rw [← Array.length_toList, code_eq, Setting.start]
    simp only [List.length_append, List.length_cons]
    omega
  refine (emit_heeds ⟨_, holds⟩ rfl Watch.fits_enter).bind ?_
  rintro _ w first ⟨watch_eq, rfl, symbols, instruction, made, code⟩
  cases made.symm.trans (Instruction.ofLevel_zero .enter size)
  obtain rfl : w = ⟨.statement d.code.size, ⟨setting.header, setting.start, declared⟩ :: setting.outer,
    setting.finished ++ spans⟩ := watch_eq
  rw [← symbols] at holds
  rw [atEntry]
  have holds : Watch.Holds ⟨.statement (setting.start + 1 + inner.length), ⟨setting.header, setting.start, declared⟩ ::
    setting.outer, setting.finished ++ spans⟩ _ _ := holds.restage rfl rfl
  refine (patch_heeds ⟨_, holds⟩ rfl setting.start _).bind ?_
  rintro _ _ second ⟨rfl, symbols, patched⟩
  refine (Owner.setEntry_heeds suits (symbols.symm ▸ holds) _).imp ?_
  rintro _ _ third ⟨rfl, same, holds⟩
  refine ⟨⟨declared, rfl⟩, holds, ?_⟩
  rw [same, patched, Array.toList_modify, code, Array.toList_push, code_eq, Setting.start, List.append_assoc,
    List.cons_append, patch_append]

/-- The statement of a block sees the declarations of the block and of those around. -/
theorem statement_hosts (entered : setting.Entered own inner spans room w d) : w.Hosts scope d.symbols := by
  obtain ⟨⟨declared, rfl⟩, holds, code_eq⟩ := entered
  refine ⟨⟨_, holds⟩, ⟨_, rfl⟩, nofun, ?_, fun name symbol found => ?_, fun owner mem => ?_⟩
  · simp [Watch.level, suits.level_eq]
  · have below := holds.level_lt rfl symbol (holds.resolve_mem found)
    rw [List.length_cons, suits.level_eq] at below
    omega
  · obtain ⟨below, header, around, owned⟩ := suits.owners owner mem
    rw [suits.level_eq] at below
    refine ⟨below, ?_⟩
    rcases List.mem_cons.mp around with rfl | outer
    · exact ⟨_, List.mem_cons_self, owned⟩
    · obtain ⟨block, mem, rfl⟩ := List.mem_map.mp outer
      exact ⟨block, List.mem_cons_of_mem _ mem, owned⟩

omit suits in
theorem leave_heeds {symbols : SymbolTable} (hosts : w.Hosts scope symbols) (same : d.symbols = symbols)
    (owner : Owner) (value : Int) :
    (discard (emit owner.returnOp 0 value)).Heeds w d fun _ w' d' => w' = w ∧ d'.symbols = symbols ∧
      ∃ leave : Instruction, leave.operation = .named owner.returnOp ∧ d'.code = d.code.push leave := by
  have fits : w.Fits symbols (.emit owner.returnOp 0 value) := by
    rw [Owner.returnOp]
    split <;> exact Watch.fits_inPlace (by simp) nofun
  refine (emit_heeds_statement hosts same fits).discard ?_
  rintro _ w' d' ⟨w_eq, -, d_eq, leave, operation, -, code⟩
  exact ⟨w_eq, d_eq, leave, operation, code⟩

/-- When the level is purged behind the return, the block is closed. -/
theorem purge_closes {before : Watch} {first last : Draft} {body : List Instruction} {leave : Instruction}
    (declaring : setting.Declaring own inner spans before first) (entered : setting.Entered own inner spans room w d)
    (symbols : last.symbols = d.symbols) (code : last.code.toList = d.code.toList ++ (body ++ [leave]))
    (isReturn : leave.operation = .named owner.returnOp)
    (sits : ∀ i ∈ body, i.Sits d.symbols.Calls (setting.start + 1 + inner.length + 1)
      (setting.start + 1 + inner.length + 1 + body.length)) :
    (purge scope.level).Heeds w last fun _ => setting.Closed ⟨setting.start, inner, room, body, leave⟩ spans := by
  have size : last.code.size - 1 = setting.start + 1 + inner.length + 1 + body.length := by
    rw [← Array.length_toList, code, List.length_append, Array.length_toList, entered.size_eq]
    simp only [List.length_append, List.length_cons, List.length_nil]
    omega
  obtain ⟨⟨declared, rfl⟩, holds, code_eq⟩ := entered
  have table := holds
  rw [← symbols] at holds
  have level : (scope.level : Int) = setting.outer.length := congrArg Nat.cast suits.level_eq.symm
  have length := (setting.length_around (setting.start + 1 + inner.length) setting.start).trans declaring.length_eq
  obtain ⟨restores, closed⟩ := holds.purge rfl rfl length
  rw [← level] at restores
  refine .of_request ⟨⟨_, holds⟩, _, _, _, rfl, rfl, level, restores.trans ?_⟩ fun answer after ran => ?_
  · exact (Header.restored_eq suits.before_eq _).symm
  · obtain ⟨journal, purged⟩ := last.purge_eq scope.level
    cases purged.symm.trans ran
    refine ⟨?_, ?_, rfl, ?_, fun calls coversStart coversEntry callable => ?_⟩
    · simp [Watch.next, Region.span, Region.last, Region.entry, size]
    · show Watch.Holds _ (last.symbols.purge scope.level).2 _
      rw [restores]
      exact closed
    · simp [code, code_eq, Region.code, Region.entry]
    · refine ⟨⟨?_, fun i mem => ?_⟩, declaring.regions calls coversStart callable⟩
      · rw [isReturn, Owner.returnOp]
        split <;> simp
      · exact (sits i mem).imp (declaring.calls table coversEntry callable)

/-- At the end of its statement a block is closed. -/
theorem closeBlock_heeds {before : Watch} {first : Draft} (declaring : setting.Declaring own inner spans before first)
    (entered : setting.Entered own inner spans room w d) (depth : Nat) :
    (statement scope depth >>= fun _ => leaveBlock owner scope.level).Heeds w d fun _ w d =>
      ∃ region, region.leave.operation = .named owner.returnOp ∧ setting.Closed region spans w d := by
  have hosts := statement_hosts suits entered
  refine (statement_writes hosts depth d rfl).bind ?_
  rintro _ _ second ⟨⟨rfl, symbols, reached⟩, -⟩
  obtain ⟨body, further, sits⟩ := reached.split
  have size : second.code.size = d.code.size + body.length := by
    rw [← Array.length_toList, further, List.length_append, Array.length_toList]
  rw [size, entered.size_eq] at sits
  refine (leave_heeds hosts symbols _ _).bind ?_
  rintro _ _ third ⟨rfl, symbols, leave, isReturn, pushed⟩
  have code : third.code.toList = d.code.toList ++ (body ++ [leave]) := by
    rw [pushed, Array.toList_push, further, List.append_assoc]
  exact (purge_closes suits declaring entered symbols code isReturn sits).imp fun _ _ _ closed =>
    ⟨_, isReturn, closed⟩

end Stages

/-- Blocks of any nesting are compiled, whatever is wrong with them. -/
theorem block_heeds (depth : Nat) : Compiles (block depth) := by
  induction depth with
  | zero =>
    intro setting scope owner w d suits heading
    exact (abandon_silent heading.inForce d rfl).imp fun _ _ _ ⟨_, _, _, absurd⟩ => False.elim absurd
  | succ depth ih =>
    intro setting scope owner w d suits heading
    rw [block_succ]
    refine (openBlock_heeds suits heading).bind ?_
    rintro ⟨start, size⟩ w d ⟨rfl, declares⟩
    refine (declares.heeds (bound_silent declares.inForce)).bind fun rounds w d ⟨declares, _⟩ => ?_
    refine (subroutines_declares ih suits.level_eq suits.owners declares rounds).bind
      fun _ w d ⟨own, inner, spans, declaring⟩ => ?_
    refine (enterBlock_heeds suits declaring size).bind fun _ w d entered => ?_
    refine (closeBlock_heeds suits declaring entered depth).imp fun _ w d ⟨region, isReturn, closed⟩ => ?_
    exact ⟨region, spans, isReturn, closed⟩

/-- The setting of the main program. -/
def mainSetting : Setting :=
  ⟨[], ⟨.empty, none, []⟩, [], [], []⟩

/-- A whole program is compiled to a region, and leaves no declarations. -/
theorem program_heeds (depth : Nat) {draft : Draft} (noCode : draft.code = #[])
    (noSymbols : draft.symbols = .empty) : (program depth).Heeds .start draft fun _ w d =>
    d.symbols = .empty ∧ ∃ (region : Region) (within : List Span),
      w.finished = within ++ [region.span] ∧ region.start = 0 ∧ d.code.toList = region.code ∧
        region.leave.operation = .named .ret ∧ region.Framed (Callable within) ∧
          Regions (Callable within) 1 region.inner within := by
  have elsewhere : Watch.start.stage ≠ .declarations := nofun
  have holds : Watch.start.Holds .empty [] := ⟨rfl, rfl, .nil, trivial, by simp [Watch.start, Watch.pending]⟩
  refine (advance_silent ⟨_, holds⟩ elsewhere draft noSymbols).bind ?_
  rintro _ _ d ⟨rfl, code, symbols, -⟩
  have heading : mainSetting.Heading (mainSetting.header.filled 0) .start d :=
    ⟨rfl, symbols.symm ▸ holds, by simp [mainSetting], by rw [code, noCode]; rfl⟩
  have suits : mainSetting.Suits ⟨0, []⟩ ⟨.procedure, none, 0⟩ := ⟨rfl, rfl, .inl rfl, rfl, by simp⟩
  refine (block_heeds depth suits heading).bind ?_
  rintro _ w d ⟨region, within, isReturn, closed⟩
  have rest : (do
      require .period
      let found ← token
      unless found.kind = .eof do report (.afterTheEnd found) : Rule).Silent w d.symbols fun _ => True := by
    refine (require_silent ⟨_, closed.holds⟩ (by decide)).bind fun _ _ => ?_
    refine (token_silent ⟨_, closed.holds⟩).bind fun found _ => ?_
    split
    · exact .of_pure trivial
    · exact report_silent ⟨_, closed.holds⟩ _
  refine (rest d rfl).imp ?_
  rintro _ _ after ⟨rfl, same, symbols, -⟩
  have covers : ∀ address, mainSetting.Covers (Callable within) address := by
    intro address e mem
    simp [mainSetting, Setting.around, Header.filled] at mem
  obtain ⟨framed, nested⟩ := closed.regions _ (covers _) (covers _) fun _ callable => callable
  refine ⟨symbols.trans closed.holds.table_eq, region, within, ?_, closed.start_eq, ?_, isReturn, framed, nested⟩
  · rw [closed.watch_eq]
    rfl
  · rw [same, closed.code_eq]
    rfl

end Grammar

end PLZero
