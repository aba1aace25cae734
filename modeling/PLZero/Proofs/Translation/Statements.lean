import PLZero.Proofs.Translation.Expressions

namespace PLZero

namespace Sketch

variable {sketch : Sketch} {bound : Nat} {context : CodeContext}

@[simp] theorem at_code (rest : List Token) : (sketch.at rest).code = sketch.code := rfl

@[simp] theorem put_code (rest : List Token) (code : List Instruction) :
    (sketch.put rest code).code = sketch.code ++ code := rfl

theorem put_nil_of_tokens {tokens : List Token} (h : sketch.tokens = tokens) : sketch.put tokens [] = sketch := by
  rw [put_nil, ← h, at_self]

end Sketch

/-- A rule compiles exactly the well-formed statements that a parser reads. The code is that for the address at which it
is put. -/
structure Statement.Compiles (bound : Nat) (context : CodeContext) (rule : Grammar.Rule) (p : Parser Statement) :
    Prop where
  produces : ∀ {sketch rest s}, sketch.Fits bound context → p sketch.tokens = some (s, rest) →
    s.WellFormed context.meanings →
      rule.clean sketch = some ((), sketch.put rest (s.code context sketch.code.length))
  admits : ∀ {sketch after}, sketch.Fits bound context → rule.clean sketch = some ((), after) →
    ¬ AtParen after.tokens → ∃ s, p sketch.tokens = some (s, after.tokens) ∧ s.WellFormed context.meanings

/-- What a rule has done that has come to an end without complaints. -/
theorem Statement.Compiles.exists_of_clean {bound : Nat} {context : CodeContext} {rule : Grammar.Rule}
    {p : Parser Statement} {sketch after : Sketch} {u : Unit} (h : Statement.Compiles bound context rule p)
    (fits : sketch.Fits bound context) (ran : rule.clean sketch = some (u, after)) (free : ¬ AtParen after.tokens) :
    ∃ s rest, p sketch.tokens = some (s, rest) ∧ s.WellFormed context.meanings ∧
      after = sketch.put rest (s.code context sketch.code.length) := by
  obtain ⟨s, atPhrase, formed⟩ := h.admits fits ran free
  have same := (h.produces fits atPhrase formed).symm.trans ran
  exact ⟨s, after.tokens, atPhrase, formed, by simpa using same.symm⟩

namespace Grammar

open Production

variable {bound : Nat} {context : CodeContext} {scope : Scope} {rule : Rule} {p : Parser Expression}

/-- A jump behind the given code is made to lead elsewhere. -/
theorem patch_append (before after : List Instruction) (op : Opcode) (distance target : Nat) (value : Int) :
    (before ++ .of op distance value :: after).modify before.length
      (fun instruction => { instruction with value := target }) = before ++ .of op distance target :: after := by
  induction before with
  | nil => rfl
  | cons i before ih => simpa using ih

theorem clean_patch_put {sketch : Sketch} {rest : List Token} {before after : List Instruction} {op : Opcode}
    {distance position target : Nat} {value : Int} (here : position = sketch.code.length + before.length) :
    (patch position target).clean (sketch.put rest (before ++ .of op distance value :: after)) =
      some ((), sketch.put rest (before ++ .of op distance target :: after)) := by
  rw [clean_patch, here, ← List.length_append]
  simp only [Sketch.put, ← List.append_assoc, patch_append]

theorem target?_function {name : String} {level arity address : Nat} :
    target? scope name (some ((Binding.routine .function arity address).symbol name level)) =
      if scope.owners.any fun owner => owner.1 = name ∧ (owner.2 : Int) = level then
        .ok (scope.distance ((level : Int) + 1), resultSlot)
      else .error (.foreignResult name) := rfl

section Names

variable {sketch : Sketch} (fits : sketch.Fits bound context) (here : scope.Matches context) {name : String}
include fits here

/-- A well-formed assignment has a slot to store in. -/
theorem target?_of_wellFormed {value : Expression} (formed : (Statement.assignment name value).WellFormed context.meanings) :
    ∃ (distance : Nat) (offset : Int), target? scope name (sketch.symbols.resolve name) = .ok ((distance : Int), offset) ∧
      distance ≤ maxLevel ∧ context.targetCode name = [.of .pushVar distance offset] := by
  cases formed with
  | assignment atName =>
    obtain ⟨entry, inner, atName, isVariable⟩ := CodeContext.exists_of_find?_meanings atName
    obtain ⟨level, deep, resolved⟩ := fits.holds.resolve_of_find? atName
    obtain ⟨same, small⟩ := here.distance_eq deep
    cases entry with
    | «variable» offset =>
      exact ⟨_, offset, by simp [target?, resolved, Binding.symbol, same], small, by simp [CodeContext.targetCode, atName]⟩
    | _ => simp [Binding.meaning] at isVariable
  | @result _ _ distance _ _ atName owned =>
    obtain ⟨entry, inner, atName, isFunction⟩ := CodeContext.exists_of_find?_meanings atName
    obtain ⟨level, deep, resolved⟩ := fits.holds.resolve_of_find? atName
    obtain ⟨same, small⟩ := here.distance_eq deep
    rw [CodeContext.mark_meanings] at owned
    have within := here.owners.mpr ⟨distance, by simpa [Nat.add_assoc] using deep, owned⟩
    cases entry with
    | routine kind arity address =>
      obtain ⟨rfl, _⟩ : kind = .function ∧ _ := by simpa [Binding.meaning] using isFunction
      refine ⟨distance, resultSlot, ?_, by simp only at small; omega, by simp [CodeContext.targetCode, atName]⟩
      have outwards : scope.distance ((level : Int) + 1) = distance := by
        rw [Scope.distance] at same ⊢
        simp only at same
        omega
      rw [resolved, target?_function, if_pos within, outwards]
    | _ => simp [Binding.meaning] at isFunction

theorem wellFormed_of_target? {value : Expression} {slot : Int × Int} (valueFormed : value.WellFormed context.meanings)
    (h : target? scope name (sketch.symbols.resolve name) = .ok slot) :
    (Statement.assignment name value).WellFormed context.meanings := by
  cases atName : context.find? name with
  | none => simp [target?, fits.holds.resolve_eq_none atName] at h
  | some found =>
    obtain ⟨distance, entry, inner⟩ := found
    have meant := CodeContext.find?_meanings_of_find? atName
    obtain ⟨level, deep, resolved⟩ := fits.holds.resolve_of_find? atName
    cases entry with
    | constant value => simp [target?, resolved, Binding.symbol] at h
    | «variable» offset => exact .assignment meant valueFormed
    | routine kind arity address =>
      cases kind with
      | procedure => simp [target?, resolved, Binding.symbol, Routine.symbolKind] at h
      | function =>
        rw [resolved, target?_function] at h
        split at h
        · rename_i within
          obtain ⟨further, far, owned⟩ := here.owners.mp within
          obtain rfl : distance = further + 1 := by
            simp only at deep
            omega
          rw [← CodeContext.mark_meanings] at owned
          exact .result meant owned valueFormed
        · simp at h

end Names

theorem clean_assignment {sketch : Sketch} {name : String}
    {symbol : Option Symbol} {distance : Nat} {offset : Int} (small : distance ≤ maxLevel)
    (slot : target? scope name symbol = .ok ((distance : Int), offset)) :
    (assignment scope rule name symbol).clean sketch =
      ((expression rule).clean sketch).bind fun result =>
        some ((), result.2.put result.2.tokens [.of .pushVar distance offset, .of .assign]) := by
  have pushed : ∀ sketch : Sketch, (emit .pushVar (distance : Int) offset).clean sketch = _ :=
    fun sketch => clean_emit sketch small
  simp [assignment, slot, pushed, clean_emit_zero]

theorem clean_call_statement {sketch : Sketch} (fits : sketch.Fits bound context) (here : scope.Matches context)
    {name : String} {distance arity address : Nat} {inner : CodeContext} {ts : List Token}
    (atName : context.find? name = some ⟨distance, .routine .procedure arity address, inner⟩)
    (atParen : Parser.accept .lparen sketch.tokens = some (true, ts)) :
    (namedStatement scope rule name).clean sketch =
      ((arguments rule).clean (sketch.at ts)).bind fun result =>
        if result.1 = arity then some ((), result.2.put result.2.tokens (context.callCode name)) else none := by
  obtain ⟨level, deep, resolved⟩ := fits.holds.resolve_of_find? atName
  have called := fun count => @clean_call context scope here name .procedure level arity address count _ deep
  have noComplaint : callComplaint? name (some ((Binding.routine .procedure arity address).symbol name level)) = none :=
    rfl
  simp [namedStatement, resolved, atParen, noComplaint, called, CodeContext.callCode, atName]

/-- Only a procedure can be called by a statement. -/
theorem exists_of_clean_call_statement {sketch after : Sketch} (fits : sketch.Fits bound context) {name : String}
    {ts : List Token} (atParen : Parser.accept .lparen sketch.tokens = some (true, ts))
    (ran : (namedStatement scope rule name).clean sketch = some ((), after)) :
    ∃ distance arity address inner,
      context.find? name = some ⟨distance, .routine .procedure arity address, inner⟩ := by
  cases atName : context.find? name with
  | none => simp [namedStatement, fits.holds.resolve_eq_none atName, atParen, callComplaint?] at ran
  | some found =>
    obtain ⟨distance, entry, inner⟩ := found
    obtain ⟨level, deep, resolved⟩ := fits.holds.resolve_of_find? atName
    cases entry with
    | constant value => simp [namedStatement, resolved, atParen, callComplaint?, Binding.symbol] at ran
    | «variable» offset => simp [namedStatement, resolved, atParen, callComplaint?, Binding.symbol] at ran
    | routine kind arity address =>
      cases kind with
      | procedure => exact ⟨_, _, _, _, rfl⟩
      | function =>
        simp [namedStatement, resolved, atParen, callComplaint?, Binding.symbol, Routine.symbolKind] at ran

section Named

variable (here : scope.Matches context) (h : Expression.Compiles bound context rule p)
include here h

theorem namedStatement_produces {sketch : Sketch} {name : String} {rest : List Token} {s : Statement}
    (fits : sketch.Fits bound context) (atPhrase : Parser.named bound p name sketch.tokens = some (s, rest))
    (formed : s.WellFormed context.meanings) :
    (namedStatement scope rule name).clean sketch =
      some ((), sketch.put rest (s.code context sketch.code.length)) := by
  simp only [Parser.named, Parser.bind_apply, Parser.ite_apply, Option.bind_eq_some_iff, Prod.exists] at atPhrase
  obtain ⟨called, ts, atParen, atPhrase⟩ := atPhrase
  cases called with
  | true =>
    simp only [if_true, Parser.pure_apply, Option.bind_eq_some_iff, Prod.exists, Option.some.injEq,
      Prod.mk.injEq] at atPhrase
    obtain ⟨values, _, atArguments, rfl, rfl⟩ := atPhrase
    cases formed with
    | call atName formed =>
    obtain ⟨entry, inner, atName, isProcedure⟩ := CodeContext.exists_of_find?_meanings atName
    cases entry with
    | routine kind arity address =>
      obtain ⟨rfl, rfl⟩ : kind = .procedure ∧ arity = values.length := by simpa [Binding.meaning] using isProcedure
      have ran := arguments_produces h (fits.at ts) atArguments formed
      rw [clean_call_statement fits here atName atParen]
      simp [ran, Statement.code]
    | _ => simp [Binding.meaning] at isProcedure
  | false =>
    simp only [if_false, Bool.false_eq_true, Option.bind_eq_some_iff, Prod.exists, Parser.pure_apply,
      Option.some.injEq, Prod.mk.injEq] at atPhrase
    obtain ⟨_, us, atAssign, value, _, atValue, rfl, rfl⟩ := atPhrase
    obtain ⟨distance, offset, slot, small, spelled⟩ := target?_of_wellFormed fits here formed
    have valueFormed : value.WellFormed context.meanings := by
      cases formed <;> assumption
    have ran := (expression_compiles h).produces (fits.at us) atValue valueFormed
    obtain ⟨t, tokens, isAssign⟩ := Parser.require_eq_some atAssign
    subst tokens
    have assigned : (assignment scope rule name _).clean (sketch.at us) = _ := clean_assignment small slot
    simp [namedStatement, atParen, isAssign, assigned, ran, Statement.code, spelled]

theorem namedStatement_admits {sketch after : Sketch} {name : String} (fits : sketch.Fits bound context)
    (ran : (namedStatement scope rule name).clean sketch = some ((), after)) (free : ¬ AtParen after.tokens) :
    ∃ s, Parser.named bound p name sketch.tokens = some (s, after.tokens) ∧ s.WellFormed context.meanings := by
  by_cases opened : AtParen sketch.tokens
  · have atParen : Parser.accept .lparen sketch.tokens = some (true, sketch.tokens.tail) := if_pos opened
    obtain ⟨distance, arity, address, inner, atName⟩ := exists_of_clean_call_statement fits atParen ran
    have meant := CodeContext.find?_meanings_of_find? atName
    rw [clean_call_statement fits here atName atParen] at ran
    simp only [Option.bind_eq_some_iff, Prod.exists] at ran
    obtain ⟨count, middle, ranArguments, ran⟩ := ran
    obtain ⟨values, rest, atArguments, rfl, formed, rfl⟩ := arguments_admits h (fits.at _) ranArguments
    split at ran
    · rename_i sameLength
      obtain rfl : _ = after := by simpa using ran
      subst sameLength
      rw [Sketch.at_tokens] at atArguments
      exact ⟨.call name values, by simp [Parser.named, atParen, atArguments], .call meant formed⟩
    · simp at ran
  · have noParen := accept_of_not_atParen opened
    by_cases atAssign : (currentToken sketch.tokens).kind = .fixed .assign
    · have ranAssignment : (assignment scope rule name (sketch.symbols.resolve name)).clean
          (sketch.at sketch.tokens.tail) = some ((), after) := by
        simpa [namedStatement, noParen, atAssign] using ran
      cases slot : target? scope name (sketch.symbols.resolve name) with
      | error complaint => simp [assignment, slot] at ranAssignment
      | ok found =>
        -- Whether there is a slot does not depend on the value.
        have anyValue : (Statement.assignment name (.number 0)).WellFormed context.meanings :=
          wellFormed_of_target? fits here (.number (by decide)) slot
        obtain ⟨distance, offset, same, small, _⟩ := target?_of_wellFormed fits here anyValue
        rw [clean_assignment small same, Option.bind_eq_some_iff] at ranAssignment
        obtain ⟨⟨_, middle⟩, ranValue, stored⟩ := ranAssignment
        obtain rfl : middle.put middle.tokens _ = after := by simpa using stored
        obtain ⟨value, rest, atValue, valueFormed, rfl⟩ :=
          (expression_compiles h).exists_of_clean (fits.at _) ranValue free
        refine ⟨.assignment name value, ?_, wellFormed_of_target? fits here valueFormed slot⟩
        rw [Sketch.at_tokens] at atValue
        simp [Parser.named, noParen, Parser.require, atAssign, atValue]
    · simp [namedStatement, noParen, atAssign] at ran

end Named

theorem not_atParen_of_kind {tokens rest : List Token} {t : Token} {kind : FixedKind} (atFront : tokens = t :: rest)
    (atKind : t.kind = .fixed kind) (other : kind ≠ .lparen) : ¬ AtParen tokens := by
  subst atFront
  simpa [AtParen, atKind] using other

/-- The statements of a compound one with the `end` behind them. -/
theorem statements_produces {statement : Rule} {q : Parser Statement} (h : Statement.Compiles bound context statement q)
    {rounds : Nat} {sketch : Sketch} {s : Statement} {rest : List Token} (fits : sketch.Fits bound context)
    (atPhrase : Parser.series q rounds sketch.tokens = some (s, rest)) (formed : s.WellFormed context.meanings) :
    ∃ ts, (statements statement rounds).clean sketch =
        some ((), sketch.put ts (s.code context sketch.code.length)) ∧ Parser.require .endKw ts = some ((), rest) := by
  induction rounds generalizing sketch s with
  | zero =>
    simp only [Parser.series, Parser.bind_apply, Parser.pure_apply, Option.bind_eq_some_iff, Prod.exists,
      Option.some.injEq, Prod.mk.injEq] at atPhrase
    obtain ⟨_, _, atEnd, rfl, rfl⟩ := atPhrase
    exact ⟨sketch.tokens, by simp [statements, Statement.code, Sketch.put_nil], atEnd⟩
  | succ rounds ih =>
    simp only [Parser.series, Parser.bind_apply, Parser.ite_apply, Option.bind_eq_some_iff, Prod.exists] at atPhrase
    obtain ⟨first, ts, atFirst, semicolon, us, atSemicolon, atPhrase⟩ := atPhrase
    cases semicolon with
    | true =>
      simp only [if_true, Parser.pure_apply, Option.bind_eq_some_iff, Prod.exists, Option.some.injEq,
        Prod.mk.injEq] at atPhrase
      obtain ⟨others, _, atOthers, rfl, rfl⟩ := atPhrase
      cases formed with
      | sequence firstFormed othersFormed =>
      have ranFirst := h.produces fits atFirst firstFormed
      obtain ⟨vs, ranOthers, atEnd⟩ := ih (fits.put us (first.code context sketch.code.length)) atOthers othersFormed
      refine ⟨vs, ?_, atEnd⟩
      simp only [statements, clean_bind, ranFirst]
      simp [atSemicolon, ranOthers, Statement.code]
    | false =>
      simp only [if_false, Bool.false_eq_true, Parser.pure_apply, Option.bind_eq_some_iff, Prod.exists,
        Option.some.injEq, Prod.mk.injEq] at atPhrase
      obtain ⟨_, _, atEnd, rfl, rfl⟩ := atPhrase
      have ranFirst := h.produces fits atFirst formed
      obtain ⟨t, rfl, isEnd⟩ := Parser.require_eq_some atEnd
      obtain rfl := Token.eq_fixed_of_kind isEnd (by decide)
      refine ⟨_, ?_, atEnd⟩
      simp only [statements, clean_bind, ranFirst]
      simp [atSemicolon, startsStatement]

theorem statements_admits {statement : Rule} {q : Parser Statement} (h : Statement.Compiles bound context statement q)
    {rounds : Nat} {sketch after : Sketch} {rest : List Token} {u : Unit} (fits : sketch.Fits bound context)
    (ran : (statements statement rounds).clean sketch = some ((), after))
    (atEnd : Parser.require .endKw after.tokens = some (u, rest)) :
    ∃ s, Parser.series q rounds sketch.tokens = some (s, rest) ∧ s.WellFormed context.meanings := by
  induction rounds generalizing sketch with
  | zero =>
    obtain rfl : sketch = after := by simpa [statements] using ran
    exact ⟨.empty, by simp [Parser.series, atEnd], .empty⟩
  | succ rounds ih =>
    simp only [statements, clean_bind, clean_accept, clean_ite, Option.bind_eq_some_iff, Prod.exists,
      Option.map_eq_some_iff] at ran
    obtain ⟨_, middle, ranFirst, semicolon, _, ⟨_, ts, atSemicolon, same⟩, ran⟩ := ran
    cases same
    rcases Parser.accept_eq_some atSemicolon with ⟨rfl, t, tokens, spelled⟩ | ⟨rfl, rfl, _⟩
    · simp only [if_true] at ran
      have free : ¬ AtParen middle.tokens := not_atParen_of_kind tokens spelled (by decide)
      obtain ⟨first, us, atFirst, firstFormed, rfl⟩ := h.exists_of_clean fits ranFirst free
      obtain ⟨others, atOthers, othersFormed⟩ := ih ((fits.put us _).at ts) ran
      rw [Sketch.at_tokens] at atOthers
      rw [Sketch.put_tokens] at atSemicolon
      refine ⟨.sequence first others, ?_, .sequence firstFormed othersFormed⟩
      simp [Parser.series, atFirst, atSemicolon, atOthers]
    · simp only [if_false, Bool.false_eq_true, clean_token, Option.bind_some] at ran
      split at ran
      · simp at ran
      · obtain rfl : middle = after := by simpa using ran
        obtain ⟨t, tokens, isEnd⟩ := Parser.require_eq_some atEnd
        have free : ¬ AtParen middle.tokens := not_atParen_of_kind tokens isEnd (by decide)
        obtain ⟨first, us, atFirst, firstFormed, rfl⟩ := h.exists_of_clean fits ranFirst free
        rw [Sketch.put_tokens] at atSemicolon atEnd
        exact ⟨first, by simp [Parser.series, atFirst, atSemicolon, atEnd], firstFormed⟩

section Control

variable {statement : Rule} {q : Parser Statement} (h : Expression.Compiles bound context rule p)
  (inner : Statement.Compiles bound context statement q)
include h inner

theorem whileLoop_compiles : Statement.Compiles bound context (whileLoop rule statement) (Parser.whileLoop bound p q) where
  produces := by
    intro sketch rest s fits atPhrase formed
    simp only [Parser.whileLoop, Parser.bind_apply, Parser.pure_apply, Option.bind_eq_some_iff, Prod.exists,
      Option.some.injEq, Prod.mk.injEq] at atPhrase
    obtain ⟨condition, ts, atCondition, _, us, atDo, body, vs, atBody, rfl, rfl⟩ := atPhrase
    cases formed with
    | whileDo conditionFormed bodyFormed =>
    have ranCondition := (condition_compiles h).produces fits atCondition conditionFormed
    have ranBody := inner.produces (fits.put us (condition.code context ++ [.of .jneq])) atBody bodyFormed
    simp only [Statement.code]
    generalize condition.code context = test at ranCondition ranBody ⊢
    have place : (sketch.put us (test ++ [.of .jneq])).code.length = sketch.code.length + test.length + 1 := by
      simp [Nat.add_assoc]
    rw [place] at ranBody
    generalize body.code context (sketch.code.length + test.length + 1) = round at ranBody ⊢
    have exit : (sketch.code ++ (test ++ ([Instruction.of .jneq] ++ (round ++ [Instruction.of .jump 0 sketch.code.length])))).length =
        sketch.code.length + test.length + 1 + round.length + 1 := by
      simp
      omega
    simp only [whileLoop, clean_bind, clean_here, Option.bind_some, ranCondition, clean_discard, clean_emit_zero,
      clean_require, Sketch.put_tokens, atDo, Option.map_some, Sketch.put_put, Sketch.put_at, Sketch.put_code,
      ranBody, List.append_assoc, exit]
    exact clean_patch_put (by simp)
  admits := by
    intro sketch after fits ran free
    simp only [whileLoop, clean_bind, clean_here, Option.bind_some, clean_discard, clean_emit_zero, clean_require,
      Option.bind_eq_some_iff, Prod.exists, Option.map_some, Option.map_eq_some_iff] at ran
    obtain ⟨_, middle, ranCondition, _, _, ⟨_, ts, atDo, same⟩, _, last, ranBody, ran⟩ := ran
    cases same
    rw [clean_patch, Option.some.injEq, Prod.mk.injEq] at ran
    obtain ⟨-, rfl⟩ := ran
    obtain ⟨t, tokens, isDo⟩ := Parser.require_eq_some atDo
    have freeMiddle : ¬ AtParen middle.tokens := not_atParen_of_kind tokens isDo (by decide)
    obtain ⟨condition, us, atCondition, conditionFormed, rfl⟩ :=
      (condition_compiles h).exists_of_clean fits ranCondition freeMiddle
    obtain ⟨body, vs, atBody, bodyFormed, rfl⟩ := inner.exists_of_clean (((fits.put _ _).put _ _).at _) ranBody free
    simp only [Sketch.put_tokens, Sketch.at_tokens] at atDo atBody
    exact ⟨.whileDo condition body, by simp [Parser.whileLoop, atCondition, atDo, atBody],
      .whileDo conditionFormed bodyFormed⟩

theorem repeatLoop_compiles :
    Statement.Compiles bound context (repeatLoop rule statement) (Parser.repeatLoop bound p q) where
  produces := by
    intro sketch rest s fits atPhrase formed
    simp only [Parser.repeatLoop, Parser.bind_apply, Parser.pure_apply, Option.bind_eq_some_iff, Prod.exists,
      Option.some.injEq, Prod.mk.injEq] at atPhrase
    obtain ⟨body, ts, atBody, _, us, atUntil, condition, _, atCondition, rfl, rfl⟩ := atPhrase
    cases formed with
    | repeatUntil bodyFormed conditionFormed =>
    have ranBody := inner.produces fits atBody bodyFormed
    have ranCondition := (condition_compiles h).produces
      (fits.put us (body.code context sketch.code.length)) atCondition conditionFormed
    simp [repeatLoop, ranBody, clean_require, atUntil, ranCondition, clean_emit_zero, Statement.code]
  admits := by
    intro sketch after fits ran free
    simp only [repeatLoop, clean_bind, clean_here, Option.bind_some, clean_discard, clean_emit_zero, clean_require,
      Option.bind_eq_some_iff, Prod.exists, Option.map_some, Option.map_eq_some_iff, Option.some.injEq,
      Prod.mk.injEq, true_and] at ran
    obtain ⟨_, middle, ranBody, _, _, ⟨_, ts, atUntil, -, rfl⟩, _, last, ranCondition, rfl⟩ := ran
    obtain ⟨t, tokens, isUntil⟩ := Parser.require_eq_some atUntil
    have freeMiddle : ¬ AtParen middle.tokens := not_atParen_of_kind tokens isUntil (by decide)
    obtain ⟨body, us, atBody, bodyFormed, rfl⟩ := inner.exists_of_clean fits ranBody freeMiddle
    obtain ⟨condition, vs, atCondition, conditionFormed, rfl⟩ :=
      (condition_compiles h).exists_of_clean ((fits.put _ _).at _) ranCondition free
    simp only [Sketch.put_tokens, Sketch.at_tokens] at atUntil atCondition
    exact ⟨.repeatUntil body condition, by simp [Parser.repeatLoop, atBody, atUntil, atCondition],
      .repeatUntil bodyFormed conditionFormed⟩

theorem conditional_compiles :
    Statement.Compiles bound context (conditional rule statement) (Parser.conditional bound p q) where
  produces := by
    intro sketch rest s fits atPhrase formed
    simp only [Parser.conditional, Parser.bind_apply, Parser.ite_apply, Parser.pure_apply, Option.bind_eq_some_iff,
      Prod.exists] at atPhrase
    obtain ⟨condition, ts, atCondition, _, us, atThen, consequent, vs, atConsequent, otherwise, ws, atElse, atPhrase⟩ :=
      atPhrase
    cases otherwise with
    | true =>
      simp only [if_true, Option.bind_eq_some_iff, Prod.exists, Option.some.injEq, Prod.mk.injEq] at atPhrase
      obtain ⟨alternative, last, atAlternative, rfl, rfl⟩ := atPhrase
      cases formed with
      | ifElse conditionFormed consequentFormed alternativeFormed =>
      have ranCondition := (condition_compiles h).produces fits atCondition conditionFormed
      have ranConsequent :=
        inner.produces (fits.put us (condition.code context ++ [.of .jneq])) atConsequent consequentFormed
      simp only [Statement.code]
      generalize condition.code context = test at ranCondition ranConsequent ⊢
      have place : (sketch.put us (test ++ [.of .jneq])).code.length = sketch.code.length + test.length + 1 := by
        simp [Nat.add_assoc]
      rw [place] at ranConsequent
      generalize consequent.code context (sketch.code.length + test.length + 1) = branch at ranConsequent ⊢
      let other := sketch.code.length + test.length + 1 + branch.length + 1
      have otherPlace : (sketch.put ws (test ++ .of .jneq 0 other :: (branch ++ [.of .jump]))).code.length = other := by
        simp [other]
        omega
      have ranAlternative := inner.produces (fits.put ws (test ++ .of .jneq 0 other :: (branch ++ [.of .jump])))
        atAlternative alternativeFormed
      rw [otherPlace] at ranAlternative
      generalize alternative.code context other = otherBranch at ranAlternative ⊢
      have skip : (patch (sketch.code ++ test).length other).clean
          (sketch.put ws (test ++ .of .jneq :: (branch ++ [.of .jump]))) = some ((), _) :=
        clean_patch_put List.length_append
      have leave : (patch (sketch.code ++ (test ++ Instruction.of .jneq :: branch)).length
          (other + otherBranch.length)).clean
            (sketch.put last ((test ++ .of .jneq 0 other :: branch) ++ .of .jump :: otherBranch)) = some ((), _) :=
        clean_patch_put (by simp)
      simp only [List.append_assoc, List.cons_append] at leave
      have otherwiseAt : (sketch.code ++ (test ++ Instruction.of .jneq :: (branch ++ [Instruction.of .jump]))).length =
          other := by
        simp [other]
        omega
      have exit : (sketch.code ++ (test ++ .of .jneq 0 other :: (branch ++ .of .jump :: otherBranch))).length =
          other + otherBranch.length := by
        simp [other]
        omega
      simp only [conditional, clean_bind, Option.bind_some, ranCondition, clean_emit_zero, clean_require,
        Sketch.put_tokens, atThen, Option.map_some, Sketch.put_put, Sketch.put_at, Sketch.put_code, ranConsequent,
        List.append_assoc, clean_accept, atElse, clean_ite, if_true, clean_here, List.cons_append, List.nil_append,
        otherwiseAt, skip, ranAlternative, exit]
      exact leave
    | false =>
      obtain ⟨rfl, rfl⟩ : .ifThen condition consequent = s ∧ ws = rest := by simpa using atPhrase
      cases formed with
      | ifThen conditionFormed consequentFormed =>
      have ranCondition := (condition_compiles h).produces fits atCondition conditionFormed
      have ranConsequent :=
        inner.produces (fits.put us (condition.code context ++ [.of .jneq])) atConsequent consequentFormed
      simp only [Statement.code]
      generalize condition.code context = test at ranCondition ranConsequent ⊢
      have place : (sketch.put us (test ++ [.of .jneq])).code.length = sketch.code.length + test.length + 1 := by
        simp [Nat.add_assoc]
      rw [place] at ranConsequent
      generalize consequent.code context (sketch.code.length + test.length + 1) = branch at ranConsequent ⊢
      have exit : (sketch.code ++ (test ++ ([Instruction.of .jneq] ++ branch))).length =
          sketch.code.length + test.length + 1 + branch.length := by
        simp
        omega
      simp only [conditional, clean_bind, Option.bind_some, ranCondition, clean_emit_zero, clean_require,
        Sketch.put_tokens, atThen, Option.map_some, Sketch.put_put, Sketch.put_at, Sketch.put_code, ranConsequent,
        List.append_assoc, clean_accept, atElse, clean_ite, if_false, Bool.false_eq_true, clean_here, exit]
      exact clean_patch_put (by simp)
  admits := by
    intro sketch after fits ran free
    simp only [conditional, clean_bind, Option.bind_some, clean_emit_zero, clean_require, clean_accept, clean_ite,
      clean_here, Option.bind_eq_some_iff, Prod.exists, Option.map_eq_some_iff] at ran
    obtain ⟨_, middle, ranCondition, _, _, ⟨_, us, atThen, same⟩, _, behind, ranConsequent, otherwise, _,
      ⟨_, ws, atElse, same'⟩, ran⟩ := ran
    cases same
    cases same'
    obtain ⟨t, tokens, isThen⟩ := Parser.require_eq_some atThen
    have freeMiddle : ¬ AtParen middle.tokens := not_atParen_of_kind tokens isThen (by decide)
    obtain ⟨condition, ts, atCondition, conditionFormed, rfl⟩ :=
      (condition_compiles h).exists_of_clean fits ranCondition freeMiddle
    have freeBehind : ¬ AtParen behind.tokens := by
      intro stuck
      obtain ⟨rfl, rfl⟩ : false = otherwise ∧ behind.tokens = ws := by
        simpa [accept_of_atParen stuck] using atElse
      simp only [if_false, Bool.false_eq_true, clean_patch, Option.some.injEq, Prod.mk.injEq, true_and] at ran
      subst after
      exact free stuck
    obtain ⟨consequent, vs, atConsequent, consequentFormed, rfl⟩ :=
      inner.exists_of_clean (((fits.put _ _).put _ _).at _) ranConsequent freeBehind
    simp only [Sketch.put_tokens, Sketch.at_tokens] at atThen atConsequent atElse
    cases otherwise with
    | true =>
      simp only [if_true, clean_patch, Option.bind_some, Option.bind_eq_some_iff, Prod.exists, Option.some.injEq,
        Prod.mk.injEq, true_and] at ran
      obtain ⟨_, last, ranAlternative, rfl⟩ := ran
      obtain ⟨alternative, rest, atAlternative, alternativeFormed, rfl⟩ :=
        inner.exists_of_clean (by exact ⟨fits.holds, fits.bound_eq⟩) ranAlternative free
      have atAlternative : q ws = some (alternative, rest) := atAlternative
      exact ⟨.ifElse condition consequent alternative,
        by simp [Parser.conditional, atCondition, atThen, atConsequent, atElse, atAlternative],
        .ifElse conditionFormed consequentFormed alternativeFormed⟩
    | false =>
      simp only [if_false, Bool.false_eq_true, clean_patch, Option.some.injEq, Prod.mk.injEq, true_and] at ran
      subst after
      exact ⟨.ifThen condition consequent, by simp [Parser.conditional, atCondition, atThen, atConsequent, atElse],
        .ifThen conditionFormed consequentFormed⟩

end Control

theorem compound_compiles {statement : Rule} {q : Parser Statement}
    (inner : Statement.Compiles bound context statement q) :
    Statement.Compiles bound context (do statements statement (← Production.bound); require .endKw)
      (Parser.compound bound q) where
  produces := by
    intro sketch rest s fits atPhrase formed
    simp only [Parser.compound, Parser.bind_apply, Parser.pure_apply, Option.bind_eq_some_iff, Prod.exists,
      Option.some.injEq, Prod.mk.injEq] at atPhrase
    obtain ⟨body, _, atBody, rfl, rfl⟩ := atPhrase
    cases formed with
    | compound bodyFormed =>
    obtain ⟨ts, ran, atEnd⟩ := statements_produces inner fits atBody bodyFormed
    simp [fits.bound_eq, ran, clean_require, atEnd, Statement.code]
  admits := by
    intro sketch after fits ran free
    simp only [clean_bind, clean_bound, Option.bind_some, fits.bound_eq, clean_require, Option.bind_eq_some_iff,
      Prod.exists, Option.map_eq_some_iff, Prod.mk.injEq, true_and] at ran
    obtain ⟨_, middle, ran, _, rest, atEnd, rfl⟩ := ran
    obtain ⟨body, atBody, bodyFormed⟩ := statements_admits inner fits ran atEnd
    exact ⟨.compound body, by simp [Parser.compound, atBody], .compound bodyFormed⟩

theorem statement_compiles {scope : Scope} (here : scope.Matches context) (depth : Nat) :
    Statement.Compiles bound context (statement scope depth) (Parser.statement bound depth) := by
  induction depth with
  | zero => exact ⟨fun _ h _ => by simp [Parser.statement, Parser.fail] at h, fun _ h _ => by simp [statement] at h⟩
  | succ depth ih =>
    have isUnary : Expression.Compiles bound context _ _ := unary_compiles here depth
    have isCompound := compound_compiles ih
    have isConditional := conditional_compiles isUnary ih
    have isWhile := whileLoop_compiles isUnary ih
    have isRepeat := repeatLoop_compiles isUnary ih
    refine ⟨?_, ?_⟩
    · intro sketch rest s fits atPhrase formed
      cases tokens : sketch.tokens with
      | nil =>
        obtain ⟨rfl, rfl⟩ : .empty = s ∧ [] = rest := by simpa [Parser.statement, tokens] using atPhrase
        simp [statement, tokens, Statement.code, Sketch.put_nil_of_tokens tokens]
      | cons t ts =>
        rw [tokens] at atPhrase
        cases t with
        | identifier name =>
          have ran := namedStatement_produces here isUnary (fits.at ts) atPhrase formed
          simp [statement, tokens, ran]
        | fixed kind =>
          cases kind
          case beginKw =>
            have ran := isCompound.produces (fits.at ts) atPhrase formed
            simpa [statement, tokens] using ran
          case ifKw =>
            have ran := isConditional.produces (fits.at ts) atPhrase formed
            simp [statement, tokens, ran]
          case whileKw =>
            have ran := isWhile.produces (fits.at ts) atPhrase formed
            simp [statement, tokens, ran]
          case repeatKw =>
            have ran := isRepeat.produces (fits.at ts) atPhrase formed
            simp [statement, tokens, ran]
          all_goals
            obtain ⟨rfl, rfl⟩ : .empty = s ∧ _ = rest := by simpa [Parser.statement] using atPhrase
            simp [statement, tokens, Statement.code, Sketch.put_nil_of_tokens tokens]
        | _ =>
          obtain ⟨rfl, rfl⟩ : .empty = s ∧ _ = rest := by simpa [Parser.statement] using atPhrase
          simp [statement, tokens, Statement.code, Sketch.put_nil_of_tokens tokens]
    · intro sketch after fits ran free
      cases tokens : sketch.tokens with
      | nil =>
        obtain rfl : sketch = after := by simpa [statement, tokens] using ran
        exact ⟨.empty, by simp [Parser.statement, tokens], .empty⟩
      | cons t ts =>
        cases t with
        | identifier name =>
          have ranName : (namedStatement scope (unary scope depth) name).clean (sketch.at ts) = some ((), after) := by
            simpa [statement, tokens] using ran
          exact namedStatement_admits here isUnary (fits.at ts) ranName free
        | fixed kind =>
          cases kind
          case beginKw => exact isCompound.admits (fits.at ts) (by simpa [statement, tokens] using ran) free
          case ifKw => exact isConditional.admits (fits.at ts) (by simpa [statement, tokens] using ran) free
          case whileKw => exact isWhile.admits (fits.at ts) (by simpa [statement, tokens] using ran) free
          case repeatKw => exact isRepeat.admits (fits.at ts) (by simpa [statement, tokens] using ran) free
          all_goals
            obtain rfl : sketch = after := by simpa [statement, tokens] using ran
            exact ⟨.empty, by simp [Parser.statement, tokens], .empty⟩
        | _ =>
          obtain rfl : sketch = after := by simpa [statement, tokens] using ran
          exact ⟨.empty, by simp [Parser.statement, tokens], .empty⟩

end Grammar

end PLZero
