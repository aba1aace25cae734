import PLZero.Proofs.Translation.Statements

namespace PLZero

/-- What a part of a block has added to the code and the globals of a sketch, and the declarations in force behind it. -/
structure Sketch.Adds (before after : Sketch) (code : List Instruction) (globals : List (String × Nat))
    (context : CodeContext) : Prop where
  bound_eq : after.bound = before.bound
  code_eq : after.code = before.code ++ code
  globals_eq : after.globals = before.globals ++ globals
  holds : after.symbols.Holds context

namespace Sketch.Adds

variable {before between after : Sketch} {first second : List Instruction} {vs ws : List (String × Nat)}
  {context other : CodeContext}

theorem refl (h : before.symbols.Holds context) : before.Adds before [] [] context :=
  ⟨rfl, by simp, by simp, h⟩

theorem trans (h : before.Adds between first vs other) (more : between.Adds after second ws context) :
    before.Adds after (first ++ second) (vs ++ ws) context :=
  ⟨more.bound_eq.trans h.bound_eq, by rw [more.code_eq, h.code_eq, List.append_assoc],
    by rw [more.globals_eq, h.globals_eq, List.append_assoc], more.holds⟩

theorem moved (h : before.Adds after first vs context) (tokens : List Token) :
    before.Adds (after.at tokens) first vs context :=
  ⟨h.bound_eq, h.code_eq, h.globals_eq, h.holds⟩

theorem put (h : before.Adds after first vs context) (tokens : List Token) (code : List Instruction) :
    before.Adds (after.put tokens code) (first ++ code) vs context :=
  ⟨h.bound_eq, by simp [h.code_eq], h.globals_eq, h.holds⟩

/-- A jump that came first is made to lead elsewhere. -/
theorem patched {op : Opcode} {distance : Nat} {value : Int} (h : before.Adds after (.of op distance value :: first) vs context)
    (target : Nat) :
    before.Adds
      { after with
        code := after.code.modify before.code.length fun instruction => { instruction with value := target } }
      (.of op distance target :: first) vs context :=
  ⟨h.bound_eq, by rw [h.code_eq, Grammar.patch_append], h.globals_eq, h.holds⟩

theorem noted (h : before.Adds after first vs context) (v : String × Nat) :
    before.Adds { after with globals := after.globals ++ [v] } first (vs ++ [v]) context :=
  ⟨h.bound_eq, h.code_eq, by simp [h.globals_eq], h.holds⟩

theorem fits (h : before.Adds after first vs context) {bound : Nat} (known : before.bound = bound) :
    after.Fits bound context :=
  ⟨h.holds, h.bound_eq.trans known⟩

end Sketch.Adds

/-- The names of a layer are all different. -/
def Layer.Distinct {Mark Entry : Type} (layer : Layer Mark Entry) : Prop :=
  layer.names.Nodup

namespace Layer.Distinct

variable {Mark Entry : Type} {layer : Layer Mark Entry}

theorem declare_iff {name : String} {entry : Entry} :
    (layer.declare name entry).Distinct ↔ layer.lookup name = none ∧ layer.Distinct := by
  rw [lookup_eq_none_iff]
  exact List.nodup_cons

theorem of_declareAll {entries : List (String × Entry)} (h : (layer.declareAll entries).Distinct) :
    layer.Distinct := by
  rw [Distinct, declareAll_names] at h
  exact (List.nodup_append.mp h).2.1

theorem map_iff {Other : Type} {f : Entry → Other} : (layer.map f).Distinct ↔ layer.Distinct := by
  rw [Distinct, map_names, Distinct]

end Layer.Distinct

namespace Grammar

open Production

variable {bound : Nat} {scope : Scope} {outer : CodeContext} {layer : Layer (Option String) Binding}

theorem clean_declareNew {sketch : Sketch} (holds : sketch.symbols.Holds (layer :: outer)) (name : String)
    (binding : Binding) :
    (declareNew (binding.symbol name outer.length)).clean sketch =
      if (layer.lookup name).isSome then none
      else some (true, { sketch with symbols := sketch.symbols.declare (binding.symbol name outer.length) }) := by
  have taken := @SymbolTable.Holds.isDeclared _ _ _ name holds
  simp only [declareNew, clean_bind, clean_isDeclared, Binding.symbol_name, Binding.symbol_level, taken,
    Option.bind_some]
  cases layer.lookup name <;> simp

/-- A new name is declared. -/
theorem declareNew_produces {before sketch : Sketch} {code : List Instruction} {globals : List (String × Nat)}
    {name : String} (h : before.Adds sketch code globals (layer :: outer)) (fresh : layer.lookup name = none)
    (binding : Binding) :
    ∃ after, (declareNew (binding.symbol name outer.length)).clean sketch = some (true, after) ∧
      after.tokens = sketch.tokens ∧ before.Adds after code globals (layer.declare name binding :: outer) :=
  ⟨{ sketch with symbols := sketch.symbols.declare (binding.symbol name outer.length) },
    by rw [clean_declareNew h.holds, fresh]; rfl, rfl, h.bound_eq, h.code_eq, h.globals_eq,
    h.holds.declare fresh binding⟩

/-- Without a complaint the name was a new one. -/
theorem declareNew_admits {before sketch after : Sketch} {code : List Instruction} {globals : List (String × Nat)}
    {name : String} {binding : Binding} {declared : Bool} (h : before.Adds sketch code globals (layer :: outer))
    (ran : (declareNew (binding.symbol name outer.length)).clean sketch = some (declared, after)) :
    layer.lookup name = none ∧ declared = true ∧ after.tokens = sketch.tokens ∧
      before.Adds after code globals (layer.declare name binding :: outer) := by
  cases isNew : layer.lookup name with
  | none =>
    obtain ⟨last, declares, same, adds⟩ := declareNew_produces h isNew binding
    obtain ⟨rfl, rfl⟩ : true = declared ∧ last = after := by simpa [declares] using ran
    exact ⟨rfl, rfl, same, adds⟩
  | some entry => simp [clean_declareNew h.holds, isNew] at ran

/-- The entries for constants, in the order of declaration. -/
def constantEntries (constants : List (String × Nat)) : List (String × Binding) :=
  constants.map fun c => (c.1, .constant c.2)

/-- The entries for variables whose slots begin at an offset. -/
def variableEntries (start : Nat) (vars : List String) : List (String × Binding) :=
  (vars.zipIdx start).map fun v => (v.1, .variable v.2)

theorem declareAll_constantEntries_concat (constants : List (String × Nat)) (c : String × Nat) :
    layer.declareAll (constantEntries (constants ++ [c])) =
      (layer.declareAll (constantEntries constants)).declare c.1 (.constant c.2) := by
  rw [constantEntries, List.map_append, Layer.declareAll_append]
  rfl

theorem declareAll_variableEntries_concat (start : Nat) (vars : List String) (name : String) :
    layer.declareAll (variableEntries start (vars ++ [name])) =
      (layer.declareAll (variableEntries start vars)).declare name (.variable ↑(start + vars.length)) := by
  rw [variableEntries, List.zipIdx_append, List.map_append, Layer.declareAll_append]
  rfl

theorem constant_compiles {start : Sketch} (atLevel : scope.level = outer.length) :
    ItemCompiles (fun _ : Unit => constantDeclaration scope) Parser.constant
      (fun constants => (layer.declareAll (constantEntries constants)).Distinct ∧
        ∀ c ∈ constants, (c.2 : Int) ≤ greatestWord)
      (fun constants _ sketch =>
        start.Adds sketch [] [] (layer.declareAll (constantEntries constants) :: outer)) where
  produces := by
    intro values _ sketch value _ before atPhrase ok
    simp only [Parser.constant, Parser.bind_apply, Parser.pure_apply, Option.bind_eq_some_iff, Prod.exists,
      Option.some.injEq, Prod.mk.injEq] at atPhrase
    obtain ⟨name, ts, atName, _, us, atEq, number, rest, atNumber, rfl, rfl⟩ := atPhrase
    rw [declareAll_constantEntries_concat] at ok ⊢
    have small : (number : Int) ≤ greatestWord := ok.2 (name, number) (by simp)
    obtain ⟨after, ran, same, adds⟩ :=
      declareNew_produces (before.moved rest) (Layer.Distinct.declare_iff.mp ok.1).1 (.constant number)
    have declared : (declareNew ⟨name, .constant, scope.level, number, 0⟩).clean (sketch.at rest) = some (true, after) :=
      atLevel ▸ ran
    refine ⟨(), after, ?_, same, adds⟩
    simp [constantDeclaration, clean_expectIdentifier, atName, clean_require, atEq, clean_expectInteger, atNumber,
      clean_literal, small, declared]
  admits := by
    intro values _ sketch _ after before ok ran _
    simp only [constantDeclaration, clean_bind, clean_expectIdentifier, Option.bind_eq_some_iff, Prod.exists,
      Option.map_eq_some_iff] at ran
    obtain ⟨_, _, ⟨name, ts, atName, same⟩, ran⟩ := ran
    cases same
    simp only [clean_bind, clean_require, clean_expectInteger, Option.bind_eq_some_iff, Prod.exists,
      Option.map_eq_some_iff] at ran
    obtain ⟨_, _, ⟨_, us, atEq, same⟩, _, _, ⟨number, rest, atNumber, same'⟩, ran⟩ := ran
    cases same
    cases same'
    simp only [clean_bind, clean_literal, clean_discard, Option.bind_eq_some_iff, Prod.exists,
      Option.map_eq_some_iff] at ran
    obtain ⟨_, _, fitsWord, declared, _, ran, same⟩ := ran
    cases same
    split at fitsWord
    · rename_i small
      cases fitsWord
      have ran : (declareNew ((Binding.constant number).symbol name outer.length)).clean (sketch.at rest) =
          some (declared, after) := atLevel ▸ ran
      obtain ⟨fresh, -, same, adds⟩ := declareNew_admits (before.moved rest) ran
      simp only [Sketch.at_tokens] at atEq atNumber same
      refine ⟨(name, number), by simp [Parser.constant, atName, atEq, atNumber, same], ⟨?_, ?_⟩, ?_⟩
      · rw [declareAll_constantEntries_concat]
        exact Layer.Distinct.declare_iff.mpr ⟨fresh, ok.1⟩
      · simpa [or_imp, forall_and, small] using ok.2
      · rwa [declareAll_constantEntries_concat]
    · simp at fitsWord
  anywhere := fun before tokens => before.moved tokens
  shorter := by
    intro first second ok
    refine ⟨?_, fun c hc => ok.2 c (List.mem_append_left _ hc)⟩
    have all := ok.1
    rw [constantEntries, List.map_append, Layer.declareAll_append] at all
    exact all.of_declareAll

/-- The variables of the main program are noted. -/
def notedVariables (scope : Scope) (names : List String) : List (String × Nat) :=
  if scope.level = 0 then names.zipIdx frameSize else []

@[simp] theorem notedVariables_nil (scope : Scope) : notedVariables scope [] = [] := by
  simp [notedVariables]

/-- A variable with a new name. -/
theorem variableDeclaration_produces {before sketch : Sketch} {names : List String} {name : String}
    {rest : List Token} (atLevel : scope.level = outer.length)
    (h : before.Adds sketch [] (notedVariables scope names) (layer :: outer)) (fresh : layer.lookup name = none)
    (atName : Parser.identifier sketch.tokens = some (name, rest)) {offset : Nat}
    (here : offset = frameSize + names.length) :
    ∃ after, (variableDeclaration scope offset).clean sketch = some (offset + 1, after) ∧ after.tokens = rest ∧
      before.Adds after [] (notedVariables scope (names ++ [name]))
        (layer.declare name (.variable offset) :: outer) := by
  obtain ⟨after, ran, same, adds⟩ := declareNew_produces (h.moved rest) fresh (.variable offset)
  have declared : (declareNew ⟨name, .var, scope.level, offset, 0⟩).clean (sketch.at rest) = some (true, after) :=
    atLevel ▸ ran
  by_cases isMain : scope.level = 0
  · have declared : (declareNew ⟨name, .var, 0, offset, 0⟩).clean (sketch.at rest) = some (true, after) := by
      simpa [isMain] using declared
    refine ⟨{ after with globals := after.globals ++ [(name, offset)] }, ?_, same, ?_⟩
    · simp [variableDeclaration, clean_expectIdentifier, atName, isMain, declared]
    · simpa [notedVariables, isMain, List.zipIdx_append, here] using adds.noted (name, offset)
  · refine ⟨after, ?_, same, ?_⟩
    · simp [variableDeclaration, clean_expectIdentifier, atName, declared, isMain]
    · simpa [notedVariables, isMain] using adds

theorem variable_compiles {start : Sketch} (atLevel : scope.level = outer.length) :
    ItemCompiles (variableDeclaration scope) Parser.identifier
      (fun names => (layer.declareAll (variableEntries frameSize names)).Distinct)
      (fun names offset sketch => offset = frameSize + names.length ∧
        start.Adds sketch [] (notedVariables scope names)
          (layer.declareAll (variableEntries frameSize names) :: outer)) where
  produces := by
    rintro names _ sketch name rest ⟨rfl, before⟩ atName ok
    rw [declareAll_variableEntries_concat] at ok ⊢
    obtain ⟨after, ran, same, adds⟩ :=
      variableDeclaration_produces atLevel before (Layer.Distinct.declare_iff.mp ok).1 atName rfl
    exact ⟨_, after, ran, same, by simp [Nat.add_assoc], adds⟩
  admits := by
    rintro names _ sketch next after ⟨rfl, before⟩ ok ran _
    have spelled := ran
    simp only [variableDeclaration, clean_bind, clean_expectIdentifier, Option.bind_eq_some_iff, Prod.exists,
      Option.map_eq_some_iff] at spelled
    obtain ⟨_, _, ⟨name, ts, atName, same⟩, spelled⟩ := spelled
    cases same
    simp only [clean_bind, Option.bind_eq_some_iff, Prod.exists] at spelled
    obtain ⟨declared, middle, declares, -⟩ := spelled
    have declares : (declareNew ((Binding.variable ↑(frameSize + names.length)).symbol name outer.length)).clean
        (sketch.at ts) = some (declared, middle) := atLevel ▸ declares
    have fresh := (declareNew_admits (before.moved ts) declares).1
    obtain ⟨last, produced, tokens, adds⟩ := variableDeclaration_produces atLevel before fresh atName rfl
    obtain ⟨rfl, rfl⟩ : frameSize + names.length + 1 = next ∧ last = after := by simpa [produced] using ran
    refine ⟨name, by rw [atName, tokens], ?_, by simp [Nat.add_assoc], ?_⟩
    · rw [declareAll_variableEntries_concat]
      exact Layer.Distinct.declare_iff.mpr ⟨fresh, ok⟩
    · rwa [declareAll_variableEntries_concat]
  anywhere := fun before tokens => ⟨before.1, before.2.moved tokens⟩
  shorter := by
    intro first second ok
    rw [variableEntries, List.zipIdx_append, List.map_append, Layer.declareAll_append] at ok
    exact ok.of_declareAll

/-- Declarations behind a keyword with a semicolon behind them, or none. -/
def declarations {α : Type} (keyword : FixedKind) (item : α → Production α) (state : α) : Production α := do
  if ← accept keyword then
    let state ← commaSeparated item (← Production.bound) state
    require .semicolon
    return state
  else return state

theorem declarations_bind {α β : Type} (keyword : FixedKind) (item : α → Production α) (state : α)
    (next : α → Production β) : declarations keyword item state >>= next = (do
      if ← accept keyword then
        let state ← commaSeparated item (← Production.bound) state
        require .semicolon
        next state
      else next state) := by
  simp only [declarations, LawfulMonad.bind_assoc]
  refine bind_congr fun taken => ?_
  cases taken <;> simp

section Lists

variable {α β : Type} {item : α → Production α} {q : Parser β} {ok : List β → Prop}
  {good : List β → α → Sketch → Prop} (h : ItemCompiles item q ok good) {keyword : FixedKind} {values : List β}
  {next : α} {sketch after : Sketch} {rest : List Token}
include h

theorem declarations_produces (state : α) (before : good [] state sketch) (known : sketch.bound = bound)
    (atList : Parser.declarations bound keyword q sketch.tokens = some (values, rest)) (allOk : ok values) :
    ∃ next after, (declarations keyword item state).clean sketch = some (next, after) ∧ after.tokens = rest ∧
      good values next after := by
  simp only [Parser.declarations, Parser.bind_apply, Parser.ite_apply, Option.bind_eq_some_iff, Prod.exists] at atList
  obtain ⟨taken, ts, atKeyword, atList⟩ := atList
  cases taken with
  | true =>
    simp only [if_true, Option.bind_eq_some_iff, Prod.exists, Parser.pure_apply, Option.some.injEq,
      Prod.mk.injEq] at atList
    obtain ⟨items, us, atItems, _, behind, atEnd, rfl, rfl⟩ := atList
    obtain ⟨next, middle, ran, rfl, good⟩ := commaSeparated_produces h (h.anywhere before ts) atItems allOk
    refine ⟨next, middle.at behind, ?_, rfl, h.anywhere good behind⟩
    simp [declarations, atKeyword, known, ran, clean_require, atEnd, -bind_pure_comp]
  | false =>
    obtain ⟨rfl, rfl⟩ : [] = values ∧ ts = rest := by simpa using atList
    exact ⟨state, sketch.at ts, by simp [declarations, atKeyword], rfl, h.anywhere before ts⟩

theorem declarations_admits {state : α} (before : good [] state sketch) (known : sketch.bound = bound) (soFar : ok [])
    (ran : (declarations keyword item state).clean sketch = some (next, after)) :
    ∃ values, Parser.declarations bound keyword q sketch.tokens = some (values, after.tokens) ∧ ok values ∧
      good values next after := by
  simp only [declarations, clean_bind, clean_accept, clean_ite, Option.bind_eq_some_iff, Prod.exists,
    Option.map_eq_some_iff] at ran
  obtain ⟨taken, _, ⟨_, ts, atKeyword, same⟩, ran⟩ := ran
  cases same
  cases taken with
  | true =>
    simp only [if_true, clean_bound, Option.bind_some, Sketch.at_bound, known, clean_require, clean_pure,
      Option.bind_eq_some_iff, Prod.exists, Option.map_eq_some_iff] at ran
    obtain ⟨state', middle, ran, _, _, ⟨_, rest, atEnd, same⟩, same'⟩ := ran
    cases same
    cases same'
    obtain ⟨t, tokens, isSemicolon⟩ := Parser.require_eq_some atEnd
    obtain ⟨values, atItems, allOk, good⟩ := commaSeparated_admits h (h.anywhere before ts) soFar ran
      (not_atParen_of_kind tokens isSemicolon (by decide))
    rw [Sketch.at_tokens] at atItems
    exact ⟨values, by simp [Parser.declarations, atKeyword, atItems, atEnd], allOk, h.anywhere good rest⟩
  | false =>
    obtain ⟨rfl, rfl⟩ : state = next ∧ sketch.at ts = after := by simpa using ran
    exact ⟨[], by simp [Parser.declarations, atKeyword], soFar, h.anywhere before ts⟩

end Lists

theorem parameter_compiles (start : Sketch) :
    ItemCompiles parameter Parser.identifier List.Nodup
      (fun names state sketch => state = names ∧ ∃ tokens, sketch = start.at tokens) where
  produces := by
    rintro _ names _ name rest ⟨rfl, tokens, rfl⟩ atName distinct
    have isNew : name ∉ names := fun mem =>
      (List.nodup_append.mp distinct).2.2 name mem name (List.mem_singleton_self name) rfl
    rw [Sketch.at_tokens] at atName
    refine ⟨names ++ [name], start.at rest, ?_, rfl, rfl, rest, rfl⟩
    simp [parameter, clean_expectIdentifier, atName, isNew]
  admits := by
    rintro _ names _ next after ⟨rfl, tokens, rfl⟩ distinct ran _
    simp only [parameter, clean_bind, clean_expectIdentifier, Option.bind_eq_some_iff, Prod.exists,
      Option.map_eq_some_iff] at ran
    obtain ⟨_, _, ⟨name, rest, atName, same⟩, ran⟩ := ran
    cases same
    by_cases taken : name ∈ names
    · simp [taken] at ran
    · obtain ⟨rfl, rfl⟩ : names ++ [name] = next ∧ start.at rest = after := by simpa [taken] using ran
      refine ⟨name, atName, ?_, rfl, rest, rfl⟩
      refine List.nodup_append.mpr ⟨distinct, by simp, fun other mem last isLast same => taken ?_⟩
      rwa [← List.mem_singleton.mp isLast, ← same]
  anywhere := by
    rintro names _ _ ⟨rfl, _, rfl⟩ tokens
    exact ⟨rfl, tokens, rfl⟩
  shorter := fun distinct => (List.nodup_append.mp distinct).1

/-- The names in front of the closing parenthesis. -/
def parameterNames : Production (List String) := do
  if ← check .identifier then commaSeparated parameter (← Production.bound) [] else return []

theorem parameterNames_bind {α : Type} (next : List String → Production α) : parameterNames >>= next = (do
    if ← check .identifier then
      let names ← commaSeparated parameter (← Production.bound) []
      next names
    else next []) := by
  simp only [parameterNames, LawfulMonad.bind_assoc]
  refine bind_congr fun seen => ?_
  cases seen <;> simp

theorem parameterNames_produces {sketch : Sketch} {names : List String} {rest : List Token}
    (known : sketch.bound = bound) (atNames : Parser.parameterNames bound sketch.tokens = some (names, rest))
    (distinct : names.Nodup) : parameterNames.clean sketch = some (names, sketch.at rest) := by
  simp only [Parser.parameterNames, Parser.seesIdentifier, Parser.bind_apply, Option.bind_some,
    Parser.ite_apply] at atNames
  by_cases seen : (currentToken sketch.tokens).kind = .identifier
  · rw [if_pos (by simpa using seen)] at atNames
    have before : ([] : List String) = [] ∧ ∃ tokens, sketch = sketch.at tokens := ⟨rfl, sketch.tokens, rfl⟩
    obtain ⟨_, _, ran, same, rfl, tokens, rfl⟩ :=
      commaSeparated_produces (parameter_compiles sketch) before atNames distinct
    obtain rfl : tokens = rest := same
    simp [parameterNames, seen, known, ran]
  · obtain ⟨rfl, rfl⟩ : [] = names ∧ sketch.tokens = rest := by simpa [seen] using atNames
    simp [parameterNames, seen]

theorem parameterNames_admits {sketch after : Sketch} {names : List String} (known : sketch.bound = bound)
    (ran : parameterNames.clean sketch = some (names, after)) (free : ¬ AtParen after.tokens) :
    names.Nodup ∧ ∃ rest, Parser.parameterNames bound sketch.tokens = some (names, rest) ∧ after = sketch.at rest := by
  by_cases seen : (currentToken sketch.tokens).kind = .identifier
  · have ran : (commaSeparated parameter bound []).clean sketch = some (names, after) := by
      simpa [parameterNames, seen, known] using ran
    obtain ⟨more, atNames, distinct, rfl, rest, rfl⟩ := commaSeparated_admits (parameter_compiles sketch)
      ⟨rfl, sketch.tokens, rfl⟩ .nil ran free
    exact ⟨distinct, rest, by simpa [Parser.parameterNames, Parser.seesIdentifier, seen] using atNames, rfl⟩
  · obtain ⟨rfl, rfl⟩ : [] = names ∧ sketch = after := by simpa [parameterNames, seen] using ran
    exact ⟨.nil, sketch.tokens, by simp [Parser.parameterNames, Parser.seesIdentifier, seen], rfl⟩

/-- The entries for parameters from an index on, of a given number of all parameters. -/
def parameterEntries (count index : Nat) (names : List String) : List (String × Binding) :=
  (names.zipIdx index).map fun p => (p.1, .variable ((p.2 : Int) - count))

theorem declareParameters_produces {before sketch : Sketch} {code : List Instruction} {globals : List (String × Nat)}
    {count index : Nat} {names : List String} (h : before.Adds sketch code globals (layer :: outer))
    (distinct : (layer.declareAll (parameterEntries count index names)).Distinct) :
    ∃ after, (declareParameters outer.length count index names).clean sketch = some ((), after) ∧
      after.tokens = sketch.tokens ∧
        before.Adds after code globals (layer.declareAll (parameterEntries count index names) :: outer) := by
  induction names generalizing layer sketch index with
  | nil => exact ⟨sketch, rfl, rfl, h⟩
  | cons name names ih =>
    have others : ((layer.declare name (.variable ((index : Int) - count))).declareAll
        (parameterEntries count (index + 1) names)).Distinct := distinct
    have fresh := (Layer.Distinct.declare_iff.mp others.of_declareAll).1
    obtain ⟨middle, ran, same, adds⟩ := declareNew_produces h fresh (.variable ((index : Int) - count))
    obtain ⟨after, ranOthers, same', adds'⟩ := ih adds others
    have declared : (declareNew ⟨name, .var, outer.length, (index : Int) - count, 0⟩).clean sketch =
        some (true, middle) := ran
    exact ⟨after, by simp [declareParameters, declared, ranOthers], same'.trans same, adds'⟩

end Grammar

end PLZero
