import Mathlib.Data.List.Nodup
import PLZero.Proofs.Translation.Declarations

namespace PLZero

namespace Block

/-- The layer of a block with its parameters declared. -/
def headingFrame (owner : Option Heading) : Layer (Option String) Binding :=
  (⟨owner.map (·.name), []⟩ : Layer _ _).declareAll
    (Grammar.parameterEntries (parametersOf owner).length 0 (parametersOf owner))

theorem openingFrame_eq (owner : Option Heading) (constants : List (String × Nat)) (vars : List String) :
    openingFrame owner constants vars =
      ((headingFrame owner).declareAll (Grammar.constantEntries constants)).declareAll
        (Grammar.variableEntries frameSize vars) := by
  simp only [headingFrame, ← Layer.declareAll_append]
  rfl

@[simp] theorem headingFrame_mark (owner : Option Heading) : (headingFrame owner).mark = owner.map (·.name) :=
  Layer.declareAll_mark _ _

theorem distinct_iff (owner : Option Heading) (constants : List (String × Nat)) (vars : List String)
    (subroutines : List (Heading × Block)) :
    (parametersOf owner ++ constants.map (·.1) ++ vars ++ subroutines.map (·.1.name)).Nodup ↔
      ((openingLayer owner constants vars).declareAll
        (subroutines.map fun s => (s.1.name, s.1.meaning))).Distinct := by
  have names : (parametersOf owner ++ constants.map (·.1) ++ vars ++ subroutines.map (·.1.name)) =
      (openingMeanings owner constants vars ++ subroutines.map fun s => (s.1.name, s.1.meaning)).map (·.1) := by
    simp [openingMeanings, Function.comp_def]
  rw [names, openingLayer, ← Layer.declareAll_append, Layer.Distinct, Layer.declareAll_names, ← List.nodup_reverse]
  simp only [Layer.names, List.map_nil, List.append_nil]

theorem headingFrame_distinct {owner : Option Heading} (distinct : (parametersOf owner).Nodup) :
    (headingFrame owner).Distinct := by
  rw [headingFrame, Layer.Distinct, Layer.declareAll_names]
  simpa [Layer.names, Grammar.parameterEntries, Function.comp_def] using distinct

theorem WellFormed.level_le {outer : StaticContext} {owner : Option Heading} {block : Block}
    (h : block.WellFormed outer owner) : outer.length ≤ maxLevel := by
  cases block
  rw [WellFormed] at h
  exact h.1

theorem WellFormed.parameters_nodup {outer : StaticContext} {owner : Option Heading} {block : Block}
    (h : block.WellFormed outer owner) : (parametersOf owner).Nodup := by
  cases block
  rw [WellFormed] at h
  exact h.2.1.sublist (by simp)

end Block

namespace Grammar

open Production

variable {bound : Nat} {scope : Scope} {owner : Owner} {outer : Nat → CodeContext} {heading : Option Heading}

/-- The rules know the blocks around by their marks. -/
theorem Scope.Matches.of_marks {context other : CodeContext} (here : scope.Matches context)
    (same : List.map Layer.mark other = List.map Layer.mark context) : scope.Matches other := by
  have sameLength : other.length = context.length := by simpa using congrArg List.length same
  have sameMark : ∀ distance : Nat, (other[distance]?).bind Layer.mark = (context[distance]?).bind Layer.mark := by
    intro distance
    have atDistance := congrArg (·[distance]?) same
    simp only [List.getElem?_map] at atDistance
    simpa [Option.bind_map, Option.map_bind] using congrArg (·.bind id) atDistance
  refine ⟨by rw [sameLength]; exact here.level, here.inByte, fun {name level} => ?_⟩
  simp only [sameLength, sameMark]
  exact here.owners

/-- How the rules know the main program or subroutine whose block they are about to compile. Its entry may be anywhere
in the declarations around. -/
structure Owner.Matches (owner : Owner) (scope : Scope) (outer : Nat → CodeContext) (heading : Option Heading) :
    Prop where
  setEntry : ∀ {before sketch : Sketch} {code globals layer old}, before.Adds sketch code globals (layer :: outer old) →
    ∀ address, ∃ after, (owner.setEntry address).clean sketch = some ((), after) ∧ after.tokens = sketch.tokens ∧
      before.Adds after code globals (layer :: outer address)
  returns : Instruction.of owner.returnOp 0 owner.parameters = Block.returnInstruction heading
  scope : ∀ {layer : Layer (Option String) Binding} address, layer.mark = heading.map (·.name) →
    scope.Matches (layer :: outer address)
  meanings : ∀ address, (outer address).meanings = (outer 0).meanings

theorem Owner.Matches.level (h : owner.Matches scope outer heading) (address : Nat) :
    scope.level = (outer address).length := by
  have same := (h.scope address (Block.headingFrame_mark heading)).level
  simpa using same

/-- Nothing is around the main program. -/
theorem Owner.Matches.main : Owner.Matches ⟨.procedure, none, 0⟩ ⟨0, []⟩ (fun _ => []) none where
  setEntry := fun adds _ => ⟨_, rfl, rfl, adds⟩
  returns := rfl
  scope := fun _ _ => ⟨rfl, Nat.zero_le _, by simp⟩
  meanings := fun _ => rfl

/-- A subroutine has been declared in the block around, and is one of the owners within its own block. -/
theorem Owner.Matches.subroutine {layer : Layer (Option String) Binding} {around : CodeContext} {heading : Heading}
    (here : scope.Matches (layer :: around)) (deep : scope.level + 1 ≤ maxLevel) :
    Owner.Matches ⟨heading.kind.symbolKind, some (heading.name, scope.level), heading.parameters.length⟩
      ⟨scope.level + 1, (heading.name, scope.level) :: scope.owners⟩
      (fun address => layer.declare heading.name (heading.binding address) :: around) (some heading) where
  setEntry := by
    intro before sketch code globals top old adds address
    have level : scope.level = around.length := by simpa using here.level
    have changed : (sketch.symbols.modify heading.name around.length fun symbol =>
        { symbol with value := (address : Int) }).Holds (top :: layer.declare heading.name (heading.binding address) :: around) :=
      adds.holds.modify rfl
    exact ⟨_, rfl, rfl, adds.bound_eq, adds.code_eq, adds.globals_eq, level ▸ changed⟩
  returns := by
    obtain ⟨kind, name, parameters⟩ := heading
    cases kind <;> rfl
  scope := by
    intro top address marked
    refine ⟨by simpa using here.level, deep, fun {name level} => ?_⟩
    have declared : scope.Matches (layer.declare heading.name (heading.binding address) :: around) := here.of_marks rfl
    have further := @Scope.Matches.owners _ _ declared name level
    have atLevel := declared.level
    simp only [List.length_cons] at atLevel further ⊢
    rw [List.any_cons, Bool.or_eq_true, further, decide_eq_true_eq]
    constructor
    · rintro (⟨sameName, sameLevel⟩ | ⟨distance, deep, marked'⟩)
      · exact ⟨0, by omega, by simpa [marked] using sameName⟩
      · exact ⟨distance + 1, by omega, by rw [List.getElem?_cons_succ, marked']⟩
    · rintro ⟨distance, deep, isMark⟩
      cases distance with
      | zero => exact .inl ⟨by simpa [marked] using isMark, by omega⟩
      | succ distance =>
        rw [List.getElem?_cons_succ] at isMark
        exact .inr ⟨distance, by omega, isMark⟩
  meanings := fun _ => rfl

/-- What stands behind the name of a subroutine that has been declared. -/
def subroutineRest (block : Scope → Owner → Rule) (scope : Scope) (kind : SymbolKind) (name : String) : Rule := do
  if maxLevel < scope.level + 1 then report .tooManyLevels
  require .lparen
  let parameters ← parameterNames
  require .rparen
  declareParameters (scope.level + 1) parameters.length 0 parameters
  setArity name scope.level parameters.length
  block ⟨scope.level + 1, (name, scope.level) :: scope.owners⟩ ⟨kind, some (name, scope.level), parameters.length⟩
  require .semicolon

theorem clean_subroutine {block : Scope → Owner → Rule} {layer : Layer (Option String) Binding} {around : CodeContext}
    {sketch : Sketch} (kind : Routine) (atLevel : scope.level = around.length)
    (holds : sketch.symbols.Holds (layer :: around)) :
    (subroutine block scope kind.symbolKind).clean sketch =
      (Parser.identifier sketch.tokens.tail).bind fun named =>
        ((declareNew ((Binding.routine kind 0 0).symbol named.1 around.length)).clean (sketch.at named.2)).bind
          fun declared => (subroutineRest block scope kind.symbolKind named.1).clean declared.2 := by
  have symbol : ∀ name, (⟨name, kind.symbolKind, scope.level, 0, 0⟩ : Symbol) =
      (Binding.routine kind 0 0).symbol name around.length := by
    intro name
    rw [atLevel]
    rfl
  simp only [subroutine, clean_bind, clean_advance, Option.bind_some, clean_expectIdentifier, Option.bind_map,
    Sketch.at_tokens, Sketch.at_at, symbol]
  refine Option.bind_congr fun named _ => ?_
  obtain ⟨name, rest⟩ := named
  show (declareNew _ >>= _).clean _ = _
  rw [clean_bind]
  refine Option.bind_congr fun declared isNew => ?_
  obtain ⟨declared, middle⟩ := declared
  obtain rfl : declared = true := by
    rw [@clean_declareNew around layer (sketch.at rest) holds] at isNew
    split at isNew
    · simp at isNew
    · cases isNew
      rfl
  simp only [subroutineRest, parameterNames_bind, pure_bind, if_true, Option.map_some, Option.toList_some,
    List.singleton_append]
  rfl

/-- The block rules compile exactly the well-formed blocks that a parser reads. -/
structure BlockCompiles (bound : Nat) (block : Scope → Owner → Rule) (p : Parser Block) : Prop where
  produces : ∀ {scope owner outer heading sketch rest tree}, Owner.Matches owner scope outer heading →
    sketch.Fits bound (Block.headingFrame heading :: outer 0) → p sketch.tokens = some (tree, rest) →
      tree.WellFormed (outer 0).meanings heading → ∃ after, (block scope owner).clean sketch = some ((), after) ∧
        after.tokens = rest ∧
          sketch.Adds after (tree.generate outer heading sketch.code.length).2 (notedVariables scope tree.vars)
            (outer (tree.generate outer heading sketch.code.length).1)
  admits : ∀ {scope owner outer heading sketch after}, Owner.Matches owner scope outer heading →
    (Block.parametersOf heading).Nodup → sketch.Fits bound (Block.headingFrame heading :: outer 0) →
      (block scope owner).clean sketch = some ((), after) → ¬ AtParen after.tokens →
        ∃ tree, p sketch.tokens = some (tree, after.tokens) ∧ tree.WellFormed (outer 0).meanings heading

/-- The parameters are declared in the block of the subroutine, their number with its name. -/
theorem declareParameters_heading {before sketch : Sketch} {code : List Instruction} {globals : List (String × Nat)}
    {layer : Layer (Option String) Binding} {around : CodeContext} (heading : Heading)
    (atLevel : scope.level = around.length)
    (adds : before.Adds sketch code globals (layer.declare heading.name (.routine heading.kind 0 0) :: around))
    (distinct : heading.parameters.Nodup) :
    ∃ middle after, (declareParameters (scope.level + 1) heading.parameters.length 0 heading.parameters).clean sketch =
        some ((), middle) ∧
      (setArity heading.name scope.level heading.parameters.length).clean middle = some ((), after) ∧
      after.tokens = sketch.tokens ∧ before.Adds after code globals
        (Block.headingFrame (some heading) :: layer.declare heading.name (heading.binding 0) :: around) := by
  have entered : before.Adds sketch code globals
      (⟨some heading.name, []⟩ :: layer.declare heading.name (.routine heading.kind 0 0) :: around) :=
    ⟨adds.bound_eq, adds.code_eq, adds.globals_eq, adds.holds.enter _⟩
  have frame : (Block.headingFrame (some heading)).Distinct := Block.headingFrame_distinct distinct
  obtain ⟨middle, ran, same, adds⟩ := declareParameters_produces entered frame
  have changed : (middle.symbols.modify heading.name around.length fun symbol =>
      { symbol with arity := (heading.parameters.length : Int) }).Holds
        (Block.headingFrame (some heading) :: layer.declare heading.name (heading.binding 0) :: around) :=
    adds.holds.modify rfl
  rw [← atLevel] at changed
  refine ⟨middle, _, ?_, rfl, same, adds.bound_eq, adds.code_eq, adds.globals_eq, changed⟩
  rw [atLevel]
  exact ran

/-- The keyword of a subroutine in front of the tokens. -/
def routineAt? (tokens : List Token) : Option Routine :=
  match (currentToken tokens).kind with
  | .fixed .procedureKw => some .procedure
  | .fixed .functionKw => some .function
  | _ => none

theorem subroutines_succ (q : Parser Block) (rounds : Nat) (tokens : List Token) :
    Parser.subroutines bound q (rounds + 1) tokens = match routineAt? tokens with
      | some kind => (Parser.subroutine bound q kind tokens.tail).bind fun first =>
          (Parser.subroutines bound q rounds first.2).map fun others => (first.1 :: others.1, others.2)
      | none => some ([], tokens) := by
  by_cases isProcedure : (currentToken tokens).kind = .fixed .procedureKw
  · simp only [Parser.subroutines, Parser.bind_apply, Parser.accept, Parser.ite_apply, Parser.pure_apply, isProcedure,
      routineAt?, if_true, Option.bind_some, Option.map_eq_bind, Function.comp_def]
  · by_cases isFunction : (currentToken tokens).kind = .fixed .functionKw
    · simp only [Parser.subroutines, Parser.bind_apply, Parser.accept, Parser.ite_apply, Parser.pure_apply, isFunction,
        TokenKind.fixed.injEq, reduceCtorEq, Bool.false_eq_true, routineAt?, if_true, if_false, Option.bind_some,
        Option.map_eq_bind, Function.comp_def]
    · have noKeyword : routineAt? tokens = none := by
        rw [routineAt?]
        split <;> simp_all
      simp [Parser.subroutines, Parser.accept, isProcedure, isFunction, noKeyword]

theorem clean_subroutines_succ (block : Scope → Owner → Rule) (rounds : Nat) (sketch : Sketch) :
    (subroutines block scope (rounds + 1)).clean sketch = match routineAt? sketch.tokens with
      | some kind => ((subroutine block scope kind.symbolKind).clean sketch).bind fun first =>
          (subroutines block scope rounds).clean first.2
      | none => some ((), sketch) := by
  simp only [subroutines, clean_bind, clean_token, Option.bind_some, routineAt?]
  cases atFront : currentToken sketch.tokens with
  | fixed keyword =>
    cases keyword
    case procedureKw => simp [Token.kind, Routine.symbolKind]
    case functionKw => simp [Token.kind, Routine.symbolKind]
    all_goals rfl
  | _ => rfl

section Subroutines

variable {block : Scope → Owner → Rule} {q : Parser Block} (h : BlockCompiles bound block q)
  {layer : Layer (Option String) Binding} {around : CodeContext} (here : scope.Matches (layer :: around))
include h here

theorem subroutineRest_produces {before sketch : Sketch} {code : List Instruction} {globals : List (String × Nat)}
    {heading : Heading} {tree : Block} {ts us vs ws rest : List Token} {u : Unit} (known : before.bound = bound)
    (adds : before.Adds sketch code globals (layer.declare heading.name (.routine heading.kind 0 0) :: around))
    (opened : Parser.require .lparen sketch.tokens = some (u, ts))
    (atParameters : Parser.parameterNames bound ts = some (heading.parameters, us))
    (closed : Parser.require .rparen us = some (u, vs)) (atBlock : q vs = some (tree, ws))
    (atEnd : Parser.require .semicolon ws = some (u, rest))
    (formed : tree.WellFormed (CodeContext.meanings (layer.declare heading.name (heading.binding 0) :: around))
      (some heading)) :
    ∃ after, (subroutineRest block scope heading.kind.symbolKind heading.name).clean sketch = some ((), after) ∧
      after.tokens = rest ∧
        let made := tree.generate (fun address => layer.declare heading.name (heading.binding address) :: around)
          (some heading) sketch.code.length
        before.Adds after (code ++ made.2) globals (layer.declare heading.name (heading.binding made.1) :: around) := by
  have deep : scope.level + 1 ≤ maxLevel := by
    have depth := formed.level_le
    have level := here.level
    simp only [CodeContext.meanings, Context.map, List.length_map, List.length_cons] at depth level
    omega
  have atLevel : scope.level = around.length := by simpa using here.level
  have matching : Owner.Matches _ _ _ (some heading) := Owner.Matches.subroutine here deep
  obtain ⟨middle, ready, ran, ranArity, same, opens⟩ :=
    declareParameters_heading heading atLevel (adds.moved vs) formed.parameters_nodup
  have ranNames := parameterNames_produces ((adds.moved ts).bound_eq.trans known) atParameters formed.parameters_nodup
  obtain rfl : ready.tokens = vs := same
  obtain ⟨last, ranBlock, rfl, made⟩ := h.produces matching (opens.fits known) atBlock formed
  refine ⟨last.at rest, ?_, rfl, ?_⟩
  · have notDeep : ¬ maxLevel < scope.level + 1 := by omega
    simp [subroutineRest, notDeep, clean_require, opened, ranNames, closed, ran, -clean_setArity, ranArity, ranBlock,
      atEnd]
  · have sameLength : ready.code.length = sketch.code.length := by rw [opens.code_eq, adds.code_eq]
    have whole := opens.trans made
    rw [sameLength, notedVariables, if_neg (Nat.succ_ne_zero _), List.append_nil] at whole
    exact whole.moved rest

theorem subroutineRest_admits {before sketch after : Sketch} {code : List Instruction}
    {globals : List (String × Nat)} {kind : Routine} {name : String} {tokens : List Token}
    (known : before.bound = bound)
    (adds : before.Adds sketch code globals (layer.declare name (.routine kind 0 0) :: around))
    (atName : Parser.identifier tokens = some (name, sketch.tokens))
    (ran : (subroutineRest block scope kind.symbolKind name).clean sketch = some ((), after)) :
    ∃ (heading : Heading) (tree : Block), heading.name = name ∧ heading.kind = kind ∧
      Parser.subroutine bound q kind tokens = some ((heading, tree), after.tokens) ∧
        tree.WellFormed (CodeContext.meanings (layer.declare heading.name (heading.binding 0) :: around))
          (some heading) := by
  have atLevel : scope.level = around.length := by simpa using here.level
  by_cases deep : scope.level + 1 ≤ maxLevel
  · have notDeep : ¬ maxLevel < scope.level + 1 := by omega
    simp only [subroutineRest, clean_bind, notDeep, if_false, clean_require, Option.bind_eq_some_iff, Prod.exists,
      Option.map_eq_some_iff] at ran
    obtain ⟨_, _, ⟨_, ts, opened, same⟩, parameters, _, ranNames, _, _, ⟨_, vs, closed, same'⟩, _, middle, ran, _, ready,
      ranArity, _, last, ranBlock, _, rest, atEnd, same''⟩ := ran
    cases same
    cases same'
    cases same''
    obtain ⟨t, atFront, isClosing⟩ := Parser.require_eq_some closed
    have noParen := not_atParen_of_kind atFront isClosing (by decide)
    obtain ⟨distinct, us, atParameters, rfl⟩ :=
      parameterNames_admits ((adds.moved ts).bound_eq.trans known) ranNames noParen
    simp only [Sketch.at_tokens] at atParameters closed
    let heading : Heading := ⟨kind, name, parameters⟩
    obtain ⟨middle', ready', ran', ranArity', same, opens⟩ :=
      declareParameters_heading heading atLevel (adds.moved vs) distinct
    obtain rfl : middle' = middle := by
      have both := ran'.symm.trans ran
      simpa using both
    obtain rfl : ready' = ready := by
      have both := ranArity'.symm.trans ranArity
      simpa using both
    obtain ⟨t, atFront, isSemicolon⟩ := Parser.require_eq_some atEnd
    have matching : Owner.Matches _ _ _ (some heading) := Owner.Matches.subroutine here deep
    obtain ⟨tree, atBlock, formed⟩ :=
      h.admits matching distinct (opens.fits known) ranBlock (not_atParen_of_kind atFront isSemicolon (by decide))
    rw [same, Sketch.at_tokens] at atBlock
    refine ⟨heading, tree, rfl, rfl, ?_, formed⟩
    simp [Parser.subroutine, Parser.parameters, atName, opened, atParameters, closed, atBlock, atEnd, heading]
  · have tooDeep : maxLevel < scope.level + 1 := by omega
    simp [subroutineRest, tooDeep] at ran

theorem subroutine_produces {before sketch : Sketch} {code : List Instruction} {globals : List (String × Nat)}
    {kind : Routine} {heading : Heading} {tree : Block} {rest : List Token} (known : before.bound = bound)
    (adds : before.Adds sketch code globals (layer :: around)) (fresh : layer.lookup heading.name = none)
    (atPhrase : Parser.subroutine bound q kind sketch.tokens.tail = some ((heading, tree), rest))
    (formed : tree.WellFormed (CodeContext.meanings (layer.declare heading.name (heading.binding 0) :: around))
      (some heading)) :
    ∃ after, (subroutine block scope kind.symbolKind).clean sketch = some ((), after) ∧ after.tokens = rest ∧
      let made := tree.generate (fun address => layer.declare heading.name (heading.binding address) :: around)
        (some heading) sketch.code.length
      before.Adds after (code ++ made.2) globals (layer.declare heading.name (heading.binding made.1) :: around) := by
  simp only [Parser.subroutine, Parser.parameters, Parser.bind_apply, Parser.pure_apply, Option.bind_eq_some_iff,
    Prod.exists, Option.some.injEq, Prod.mk.injEq] at atPhrase
  obtain ⟨name, ss, atName, _, ts, opened, parameters, _, ⟨_, us, atParameters, _, vs, closed, rfl, rfl⟩, _, ws, atBlock,
    _, _, atEnd, ⟨rfl, rfl⟩, rfl⟩ := atPhrase
  have atLevel : scope.level = around.length := by simpa using here.level
  obtain ⟨middle, declares, same, declared⟩ := declareNew_produces (adds.moved ss) fresh (.routine kind 0 0)
  obtain rfl : middle.tokens = ss := same
  obtain ⟨after, ran, same, whole⟩ :=
    subroutineRest_produces h here known declared opened atParameters closed atBlock atEnd formed
  rw [declared.code_eq, ← adds.code_eq] at whole
  exact ⟨after, by simp [clean_subroutine kind atLevel adds.holds, atName, declares, ran], same, whole⟩

theorem subroutine_admits {before sketch after : Sketch} {code : List Instruction} {globals : List (String × Nat)}
    {kind : Routine} (known : before.bound = bound) (adds : before.Adds sketch code globals (layer :: around))
    (ran : (subroutine block scope kind.symbolKind).clean sketch = some ((), after)) :
    ∃ (heading : Heading) (tree : Block), layer.lookup heading.name = none ∧
      Parser.subroutine bound q kind sketch.tokens.tail = some ((heading, tree), after.tokens) ∧
        tree.WellFormed (CodeContext.meanings (layer.declare heading.name (heading.binding 0) :: around))
          (some heading) := by
  have atLevel : scope.level = around.length := by simpa using here.level
  rw [clean_subroutine kind atLevel adds.holds] at ran
  simp only [Option.bind_eq_some_iff, Prod.exists] at ran
  obtain ⟨name, ss, atName, declared, middle, declares, ran⟩ := ran
  obtain ⟨fresh, -, same, adds⟩ := declareNew_admits (adds.moved ss) declares
  rw [Sketch.at_tokens] at same
  obtain ⟨heading, tree, rfl, rfl, atPhrase, formed⟩ :=
    subroutineRest_admits h here known adds (same ▸ atName) ran
  exact ⟨heading, tree, fresh, atPhrase, formed⟩

theorem subroutines_produces {before sketch : Sketch} {code : List Instruction} {globals : List (String × Nat)}
    {rounds : Nat} {subs : List (Heading × Block)} {rest : List Token} (known : before.bound = bound)
    (adds : before.Adds sketch code globals (layer :: around))
    (atPhrase : Parser.subroutines bound q rounds sketch.tokens = some (subs, rest))
    (distinct : ((layer.map Binding.meaning).declareAll (subs.map fun s => (s.1.name, s.1.meaning))).Distinct)
    (formed : Block.AllWellFormed (CodeContext.meanings around) (layer.map Binding.meaning) subs) :
    ∃ after, (subroutines block scope rounds).clean sketch = some ((), after) ∧ after.tokens = rest ∧
      let made := Block.generateAll around layer sketch.code.length subs
      before.Adds after (code ++ made.2) globals (made.1 :: around) := by
  induction rounds generalizing layer sketch subs code with
  | zero =>
    obtain ⟨rfl, rfl⟩ : [] = subs ∧ sketch.tokens = rest := by simpa [Parser.subroutines] using atPhrase
    exact ⟨sketch, rfl, rfl, by simpa [Block.generateAll] using adds⟩
  | succ rounds ih =>
    rw [subroutines_succ] at atPhrase
    rw [clean_subroutines_succ]
    cases atKeyword : routineAt? sketch.tokens with
    | none =>
      obtain ⟨rfl, rfl⟩ : [] = subs ∧ sketch.tokens = rest := by simpa [atKeyword] using atPhrase
      exact ⟨sketch, rfl, rfl, by simpa [Block.generateAll] using adds⟩
    | some kind =>
      simp only [atKeyword, Option.bind_eq_some_iff, Prod.exists, Option.map_eq_some_iff, Prod.mk.injEq] at atPhrase
      obtain ⟨heading, tree, ts, atFirst, others, _, atOthers, rfl, rfl⟩ := atPhrase
      rw [List.map_cons, Layer.declareAll_cons] at distinct
      rw [Block.AllWellFormed] at formed
      have fresh : layer.lookup heading.name = none := by
        have isNew := (Layer.Distinct.declare_iff.mp distinct.of_declareAll).1
        rwa [Layer.lookup_map, Option.map_eq_none_iff] at isNew
      obtain ⟨middle, ran, rfl, made⟩ := subroutine_produces h here known adds fresh atFirst formed.1
      have behind : ∀ address, scope.Matches (layer.declare heading.name (heading.binding address) :: around) :=
        fun _ => here.of_marks rfl
      obtain ⟨after, ranOthers, same, whole⟩ := ih (behind _) made atOthers distinct formed.2
      refine ⟨after, by simp [ran, ranOthers], same, ?_⟩
      have position : middle.code.length = sketch.code.length + (tree.generate (fun address =>
          layer.declare heading.name (heading.binding address) :: around) (some heading) sketch.code.length).2.length := by
        rw [made.code_eq, adds.code_eq, ← List.append_assoc, List.length_append]
      rw [position] at whole
      simpa only [Block.generateAll, List.append_assoc] using whole

theorem subroutines_admits {before sketch after : Sketch} {code : List Instruction} {globals : List (String × Nat)}
    {rounds : Nat} (known : before.bound = bound) (adds : before.Adds sketch code globals (layer :: around))
    (ran : (subroutines block scope rounds).clean sketch = some ((), after)) (soFar : layer.Distinct) :
    ∃ subs, Parser.subroutines bound q rounds sketch.tokens = some (subs, after.tokens) ∧
      ((layer.map Binding.meaning).declareAll (subs.map fun s => (s.1.name, s.1.meaning))).Distinct ∧
        Block.AllWellFormed (CodeContext.meanings around) (layer.map Binding.meaning) subs := by
  induction rounds generalizing layer sketch code with
  | zero =>
    obtain rfl : sketch = after := by simpa [subroutines] using ran
    exact ⟨[], rfl, Layer.Distinct.map_iff.mpr soFar, by simp [Block.AllWellFormed]⟩
  | succ rounds ih =>
    rw [subroutines_succ]
    rw [clean_subroutines_succ] at ran
    cases atKeyword : routineAt? sketch.tokens with
    | none =>
      obtain rfl : sketch = after := by simpa [atKeyword] using ran
      exact ⟨[], rfl, Layer.Distinct.map_iff.mpr soFar, by simp [Block.AllWellFormed]⟩
    | some kind =>
      simp only [atKeyword, Option.bind_eq_some_iff, Prod.exists] at ran
      obtain ⟨_, middle, ranFirst, ran⟩ := ran
      obtain ⟨heading, tree, fresh, atFirst, formed⟩ := subroutine_admits h here known adds ranFirst
      obtain ⟨last, produced, tokens, made⟩ := subroutine_produces h here known adds fresh atFirst formed
      obtain rfl : last = middle := by simpa [produced] using ranFirst
      have behind : ∀ address, scope.Matches (layer.declare heading.name (heading.binding address) :: around) :=
        fun _ => here.of_marks rfl
      have declared : ∀ address, (layer.declare heading.name (heading.binding address)).Distinct :=
        fun _ => Layer.Distinct.declare_iff.mpr ⟨fresh, soFar⟩
      obtain ⟨others, atOthers, distinct, othersFormed⟩ := ih (behind _) made ran (declared _)
      exact ⟨(heading, tree) :: others, by simp [atFirst, atOthers], distinct,
        by rw [Block.AllWellFormed]; exact ⟨formed, othersFormed⟩⟩

end Subroutines

/-- The jump in front of a block and its constants and variables. -/
def openBlock (scope : Scope) (owner : Owner) : Production (Nat × Nat) := do
  let start ← emit .jump
  owner.setEntry start
  declarations .constKw (fun _ => constantDeclaration scope) ()
  let size ← declarations .varKw (variableDeclaration scope) frameSize
  return (start, size)

/-- What stands between the subroutines of a block and its statement. -/
def enterBlock (owner : Owner) (start size : Nat) : Rule := do
  let entry ← emit .enter 0 size
  patch start entry
  owner.setEntry entry

/-- What stands behind the statement of a block. -/
def leaveBlock (owner : Owner) (level : Nat) : Rule := do
  discard (emit owner.returnOp 0 owner.parameters)
  purge level

theorem block_succ (depth : Nat) (scope : Scope) (owner : Owner) : block (depth + 1) scope owner = (do
    let (start, size) ← openBlock scope owner
    subroutines (block depth) scope (← Production.bound)
    enterBlock owner start size
    statement scope depth
    leaveBlock owner scope.level) := by
  simp only [openBlock, enterBlock, leaveBlock, LawfulMonad.bind_assoc, pure_bind]
  simp only [block, declarations_bind, pure_bind]

section Stages

variable (matching : owner.Matches scope outer heading) {sketch : Sketch} {layer : Layer (Option String) Binding}
  {nested : List Instruction} {globals : List (String × Nat)} {constants : List (String × Nat)} {vars : List String}
include matching

theorem startBlock_produces (holds : sketch.symbols.Holds (layer :: outer 0)) :
    ∃ after, (owner.setEntry sketch.code.length).clean (sketch.put sketch.tokens [.of .jump]) = some ((), after) ∧
      after.tokens = sketch.tokens ∧ sketch.Adds after [.of .jump] [] (layer :: outer sketch.code.length) := by
  have jumps := (Sketch.Adds.refl holds).put sketch.tokens [.of .jump]
  exact matching.setEntry jumps sketch.code.length

theorem openBlock_produces {us ts : List Token} (fits : sketch.Fits bound (Block.headingFrame heading :: outer 0))
    (atConstants : Parser.declarations bound .constKw Parser.constant sketch.tokens = some (constants, ts))
    (atVariables : Parser.declarations bound .varKw Parser.identifier ts = some (vars, us))
    (small : ∀ c ∈ constants, (c.2 : Int) ≤ greatestWord)
    (distinct : (Block.openingFrame heading constants vars).Distinct) :
    ∃ after, (openBlock scope owner).clean sketch =
        some ((sketch.code.length, frameSize + vars.length), after) ∧ after.tokens = us ∧
      sketch.Adds after [.of .jump] (notedVariables scope vars)
        (Block.openingFrame heading constants vars :: outer sketch.code.length) := by
  rw [Block.openingFrame_eq] at distinct ⊢
  obtain ⟨first, ranStart, same, started⟩ := startBlock_produces matching fits.holds
  have known := started.bound_eq.trans fits.bound_eq
  have atLevel := matching.level sketch.code.length
  obtain ⟨_, second, ranConstants, rfl, declared⟩ :=
    declarations_produces (@constant_compiles scope _ (Block.headingFrame heading) first atLevel) ()
      (.refl started.holds) known (same ▸ atConstants) ⟨distinct.of_declareAll, small⟩
  have noVariables : second.Adds second [] (notedVariables scope [])
      ((Block.headingFrame heading).declareAll (constantEntries constants) :: outer sketch.code.length) := by
    simpa using Sketch.Adds.refl declared.holds
  obtain ⟨_, third, ranVariables, rfl, rfl, opened⟩ :=
    declarations_produces (@variable_compiles scope _ _ second atLevel) frameSize ⟨rfl, noVariables⟩
      (declared.bound_eq.trans known) atVariables distinct
  refine ⟨third, ?_, rfl, (started.trans declared).trans opened⟩
  simp [openBlock, clean_emit_zero, ranStart, ranConstants, ranVariables, -bind_pure_comp]

theorem openBlock_admits {after : Sketch} {result : Nat × Nat} (distinct : (Block.parametersOf heading).Nodup)
    (fits : sketch.Fits bound (Block.headingFrame heading :: outer 0))
    (ran : (openBlock scope owner).clean sketch = some (result, after)) :
    ∃ constants vars ts, Parser.declarations bound .constKw Parser.constant sketch.tokens = some (constants, ts) ∧
      Parser.declarations bound .varKw Parser.identifier ts = some (vars, after.tokens) ∧
        (∀ c ∈ constants, (c.2 : Int) ≤ greatestWord) ∧ (Block.openingFrame heading constants vars).Distinct := by
  have frame := Block.headingFrame_distinct distinct
  obtain ⟨first, ranStart, same, started⟩ := startBlock_produces matching fits.holds
  have known := started.bound_eq.trans fits.bound_eq
  have atLevel := matching.level sketch.code.length
  simp only [openBlock, clean_bind, clean_emit_zero, Option.bind_some, ranStart, Option.bind_eq_some_iff,
    Prod.exists, clean_pure, Option.some.injEq, Prod.mk.injEq] at ran
  obtain ⟨_, second, ranConstants, _, _, ranVariables, -, rfl⟩ := ran
  obtain ⟨constants, atConstants, ⟨opening, small⟩, declared⟩ :=
    declarations_admits (@constant_compiles scope _ (Block.headingFrame heading) first atLevel) (.refl started.holds)
      known ⟨frame, by simp⟩ ranConstants
  have noVariables : second.Adds second [] (notedVariables scope [])
      ((Block.headingFrame heading).declareAll (constantEntries constants) :: outer sketch.code.length) := by
    simpa using Sketch.Adds.refl declared.holds
  obtain ⟨vars, atVariables, all, opened⟩ :=
    declarations_admits (@variable_compiles scope _ _ second atLevel) ⟨rfl, noVariables⟩
      (declared.bound_eq.trans known) opening ranVariables
  rw [same] at atConstants
  exact ⟨constants, vars, second.tokens, atConstants, atVariables, small, by rwa [Block.openingFrame_eq]⟩

theorem enterBlock_produces {middle : Sketch}
    (adds : sketch.Adds middle (.of .jump :: nested) globals (layer :: outer sketch.code.length)) (size : Nat) :
    ∃ after, (enterBlock owner sketch.code.length size).clean middle = some ((), after) ∧
      after.tokens = middle.tokens ∧
        sketch.Adds after (.of .jump 0 ↑(sketch.code.length + 1 + nested.length) :: nested ++ [.of .enter 0 size]) globals
          (layer :: outer (sketch.code.length + 1 + nested.length)) := by
  have entry : middle.code.length = sketch.code.length + 1 + nested.length := by
    simp [adds.code_eq]
    omega
  have patched := (adds.put middle.tokens [.of .enter 0 size]).patched middle.code.length
  obtain ⟨after, ran, same, adds⟩ := matching.setEntry patched middle.code.length
  refine ⟨after, by simpa [enterBlock, clean_emit_zero] using ran, same, ?_⟩
  rwa [← entry]

theorem leaveBlock_produces {middle : Sketch} {address : Nat}
    (adds : sketch.Adds middle nested globals (layer :: outer address)) :
    ∃ after, (leaveBlock owner scope.level).clean middle = some ((), after) ∧ after.tokens = middle.tokens ∧
      sketch.Adds after (nested ++ [Block.returnInstruction heading]) globals (outer address) := by
  have returned := adds.put middle.tokens [Block.returnInstruction heading]
  refine ⟨{ middle.put middle.tokens [Block.returnInstruction heading] with
    symbols := (middle.symbols.purge scope.level).2 }, ?_, rfl, returned.bound_eq, returned.code_eq, returned.globals_eq, ?_⟩
  · simp only [leaveBlock, clean_bind, clean_discard, clean_emit_zero, matching.returns, Option.map_some,
      Option.bind_some, clean_purge]
    rfl
  · rw [matching.level address]
    exact adds.holds.purge

section Body

variable {around : CodeContext} {start : Nat} {subs : List (Heading × Block)}
  (spelled : Block.generateAll around (Block.openingFrame heading constants vars) start subs = (layer, nested))
include spelled

/-- The declarations in force in the statement of a block. -/
theorem Owner.Matches.meanings_body (address : Nat) :
    CodeContext.meanings (layer :: outer address) =
      ((Block.openingFrame heading constants vars).map Binding.meaning).declareAll
        (subs.map fun s => (s.1.name, s.1.meaning)) :: (outer 0).meanings := by
  rw [← Block.generateAll_map around _ start, ← matching.meanings address, spelled]
  rfl

theorem Owner.Matches.body (address : Nat) : scope.Matches (layer :: outer address) := by
  have sameMark := Block.generateAll_mark around (Block.openingFrame heading constants vars) start subs
  rw [spelled, Block.openingFrame_eq, Layer.declareAll_mark, Layer.declareAll_mark] at sameMark
  exact matching.scope address (sameMark.trans (Block.headingFrame_mark heading))

end Body

end Stages

theorem block_compiles (depth : Nat) : BlockCompiles bound (block depth) (Parser.block bound depth) := by
  induction depth with
  | zero => exact ⟨fun _ _ h _ => by simp [Parser.block, Parser.fail] at h, fun _ _ _ h _ => by simp [block] at h⟩
  | succ depth ih =>
    refine ⟨?_, ?_⟩
    · intro scope owner outer heading sketch _ tree matching fits atPhrase formed
      simp only [Parser.block, Parser.bind_apply, Parser.pure_apply, Option.bind_eq_some_iff, Prod.exists,
        Option.some.injEq, Prod.mk.injEq] at atPhrase
      obtain ⟨constants, ts, atConstants, vars, us, atVariables, subs, vs, atSubroutines, body, rest, atBody, rfl, rfl⟩ :=
        atPhrase
      rw [Block.WellFormed, Block.distinct_iff, ← Block.openingFrame_map] at formed
      obtain ⟨-, distinct, small, subsFormed, bodyFormed⟩ := formed
      obtain ⟨first, ranOpening, rfl, opened⟩ := openBlock_produces matching fits atConstants atVariables small
        (Layer.Distinct.map_iff.mp distinct.of_declareAll)
      have here : scope.Matches (Block.openingFrame heading constants vars :: outer sketch.code.length) :=
        matching.scope _ (by simp [Block.openingFrame_eq])
      have position : first.code.length = sketch.code.length + 1 := by simp [opened.code_eq]
      rw [← matching.meanings sketch.code.length] at subsFormed
      obtain ⟨second, ranSubroutines, rfl, made⟩ :=
        subroutines_produces ih here fits.bound_eq opened atSubroutines distinct subsFormed
      rcases spelled : Block.generateAll (outer sketch.code.length) (Block.openingFrame heading constants vars)
        (sketch.code.length + 1) subs with ⟨frame, nested⟩
      simp only [position, spelled, List.singleton_append] at made
      obtain ⟨third, ranEntering, same, entered⟩ := enterBlock_produces matching made (frameSize + vars.length)
      have behind : third.code.length = sketch.code.length + 1 + nested.length + 1 := by
        simp [entered.code_eq]
        omega
      let entry := sketch.code.length + 1 + nested.length
      have known := entered.fits fits.bound_eq
      rw [← matching.meanings_body spelled entry] at bodyFormed
      have ranBody := (statement_compiles (matching.body spelled entry) depth).produces known (same ▸ atBody) bodyFormed
      rw [behind] at ranBody
      obtain ⟨last, ranLeaving, rfl, left⟩ :=
        leaveBlock_produces matching (entered.put rest (body.code (frame :: outer entry) (entry + 1)))
      refine ⟨last, ?_, rfl, ?_⟩
      · have bound_eq : first.bound = bound := opened.bound_eq.trans fits.bound_eq
        simp [block_succ, ranOpening, bound_eq, ranSubroutines, ranEntering, ranBody, ranLeaving, entry]
      · simpa only [Block.generate, spelled, Block.vars, List.append_assoc, List.cons_append, List.nil_append] using left
    · intro scope owner outer heading sketch after matching distinct fits ran free
      simp only [block_succ, clean_bind, clean_bound, Option.bind_eq_some_iff, Prod.exists] at ran
      obtain ⟨start, size, first, ranOpening, _, _, same, _, second, ranSubroutines, _, third, ranEntering, _, fourth,
        ranBody, ranLeaving⟩ := ran
      cases same
      obtain ⟨constants, vars, ts, atConstants, atVariables, small, opening⟩ :=
        openBlock_admits matching distinct fits ranOpening
      obtain ⟨first', ranOpening', -, opened⟩ := openBlock_produces matching fits atConstants atVariables small opening
      obtain ⟨⟨rfl, rfl⟩, rfl⟩ : (sketch.code.length = start ∧ frameSize + vars.length = size) ∧ first' = first := by
        simpa [ranOpening'] using ranOpening
      have here : scope.Matches (Block.openingFrame heading constants vars :: outer sketch.code.length) :=
        matching.scope _ (by simp [Block.openingFrame_eq])
      rw [opened.bound_eq, fits.bound_eq] at ranSubroutines
      obtain ⟨subs, atSubroutines, distinct, subsFormed⟩ :=
        subroutines_admits ih here fits.bound_eq opened ranSubroutines opening
      obtain ⟨second', ranSubroutines', -, made⟩ :=
        subroutines_produces ih here fits.bound_eq opened atSubroutines distinct subsFormed
      obtain rfl : second' = second := by simpa [ranSubroutines'] using ranSubroutines
      rcases spelled : Block.generateAll (outer sketch.code.length) (Block.openingFrame heading constants vars)
        first'.code.length subs with ⟨frame, nested⟩
      simp only [spelled, List.singleton_append] at made
      obtain ⟨third', ranEntering', same, entered⟩ := enterBlock_produces matching made (frameSize + vars.length)
      obtain rfl : third' = third := by simpa [ranEntering'] using ranEntering
      have leftTokens : after.tokens = fourth.tokens := by
        simp only [leaveBlock, clean_bind, clean_discard, clean_emit_zero, Option.map_some, Option.bind_some,
          clean_purge, Option.some.injEq, Prod.mk.injEq, true_and] at ranLeaving
        rw [← ranLeaving]
        rfl
      have bodyMatches := matching.body spelled (sketch.code.length + 1 + nested.length)
      obtain ⟨body, atBody, bodyFormed⟩ :=
        (statement_compiles bodyMatches depth).admits (entered.fits fits.bound_eq) ranBody (leftTokens ▸ free)
      rw [matching.meanings_body spelled] at bodyFormed
      rw [same, ← leftTokens] at atBody
      refine ⟨.mk constants vars subs body, ?_, ?_⟩
      · simp [Parser.block, atConstants, atVariables, atSubroutines, atBody]
      · rw [Block.WellFormed, Block.distinct_iff, ← Block.openingFrame_map]
        refine ⟨?_, distinct, small, matching.meanings _ ▸ subsFormed, bodyFormed⟩
        have inByte := here.inByte
        rw [matching.level 0] at inByte
        simpa [CodeContext.meanings, Context.map] using inByte

end Grammar

end PLZero
