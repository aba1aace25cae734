import PLZero.Proofs.Generation.Meanings
import PLZero.Proofs.Translation.Sketch
import PLZero.Proofs.Translation.Symbols
import PLZero.Proofs.Tree.Soundness

namespace PLZero

/-- How the rules know the blocks that they belong to. -/
structure Grammar.Scope.Matches (scope : Grammar.Scope) (context : CodeContext) : Prop where
  level : scope.level + 1 = context.length
  inByte : scope.level ≤ maxLevel
  owners : ∀ {name : String} {level : Nat},
    (scope.owners.any fun owner => owner.1 = name ∧ (owner.2 : Int) = level) = true ↔
      ∃ distance, level + distance + 2 = context.length ∧ (context[distance]?).bind (·.mark) = some name

/-- The sketch of a compilation at a place with the given declarations. -/
structure Sketch.Fits (sketch : Sketch) (bound : Nat) (context : CodeContext) : Prop where
  holds : sketch.symbols.Holds context
  bound_eq : sketch.bound = bound

/-- Behind a name that is no function a parenthesis is left for what follows, which cannot begin with one. -/
def AtParen (tokens : List Token) : Prop :=
  (currentToken tokens).kind = .fixed .lparen

namespace Sketch

variable {sketch : Sketch} {bound : Nat} {context : CodeContext}

@[simp] theorem at_tokens (rest : List Token) : (sketch.at rest).tokens = rest := rfl

@[simp] theorem put_tokens (rest : List Token) (code : List Instruction) : (sketch.put rest code).tokens = rest := rfl

@[simp] theorem at_bound (rest : List Token) : (sketch.at rest).bound = sketch.bound := rfl

@[simp] theorem put_bound (rest : List Token) (code : List Instruction) :
    (sketch.put rest code).bound = sketch.bound := rfl

@[simp] theorem at_at (ts rest : List Token) : (sketch.at ts).at rest = sketch.at rest := rfl

@[simp] theorem put_at (ts rest : List Token) (code : List Instruction) :
    (sketch.put ts code).at rest = sketch.put rest code := rfl

@[simp] theorem at_put (ts rest : List Token) (code : List Instruction) :
    (sketch.at ts).put rest code = sketch.put rest code := rfl

@[simp] theorem put_put (ts rest : List Token) (first second : List Instruction) :
    (sketch.put ts first).put rest second = sketch.put rest (first ++ second) := by
  simp [put]

@[simp] theorem at_self : sketch.at sketch.tokens = sketch := rfl

theorem put_nil (rest : List Token) : sketch.put rest [] = sketch.at rest := by
  simp [put, Sketch.at]

theorem Fits.at (h : sketch.Fits bound context) (rest : List Token) : (sketch.at rest).Fits bound context :=
  ⟨h.holds, h.bound_eq⟩

theorem Fits.put (h : sketch.Fits bound context) (rest : List Token) (code : List Instruction) :
    (sketch.put rest code).Fits bound context :=
  ⟨h.holds, h.bound_eq⟩

end Sketch

/-- A rule compiles exactly the well-formed expressions that a parser reads. It appends their code and leaves the
tokens behind them. -/
structure Expression.Compiles (bound : Nat) (context : CodeContext) (rule : Grammar.Rule) (p : Parser Expression) :
    Prop where
  produces : ∀ {sketch rest e}, sketch.Fits bound context → p sketch.tokens = some (e, rest) →
    e.WellFormed context.meanings → rule.clean sketch = some ((), sketch.put rest (e.code context))
  admits : ∀ {sketch after}, sketch.Fits bound context → rule.clean sketch = some ((), after) →
    ¬ AtParen after.tokens → ∃ e, p sketch.tokens = some (e, after.tokens) ∧ e.WellFormed context.meanings

/-- What a rule has done that has come to an end without complaints. -/
theorem Expression.Compiles.exists_of_clean {bound : Nat} {context : CodeContext} {rule : Grammar.Rule}
    {p : Parser Expression} {sketch after : Sketch} {u : Unit} (h : Expression.Compiles bound context rule p)
    (fits : sketch.Fits bound context) (ran : rule.clean sketch = some (u, after)) (free : ¬ AtParen after.tokens) :
    ∃ e rest, p sketch.tokens = some (e, rest) ∧ e.WellFormed context.meanings ∧
      after = sketch.put rest (e.code context) := by
  obtain ⟨e, atPhrase, formed⟩ := h.admits fits ran free
  have same := (h.produces fits atPhrase formed).symm.trans ran
  exact ⟨e, after.tokens, atPhrase, formed, by simpa using same.symm⟩

namespace Grammar

open Production

variable {bound : Nat} {context : CodeContext} {rule : Rule} {p : Parser Expression}
  {operator : FixedKind → Option BinaryOp}

theorem acceptOperator_of_atParen {Op : Type} (operator : FixedKind → Option Op) {tokens : List Token}
    (stuck : AtParen tokens) (noParen : operator .lparen = none) :
    Parser.acceptOperator operator tokens = some (none, tokens) := by
  rw [AtParen] at stuck
  simp [Parser.acceptOperator, operatorOf, stuck, noParen]

theorem operations_of_atParen {rounds : Nat} {sketch : Sketch} (noParen : operator .lparen = none)
    (stuck : AtParen sketch.tokens) : (operations operator rule rounds).clean sketch = some ((), sketch) := by
  cases rounds with
  | zero => rfl
  | succ rounds => simp [operations, clean_acceptOperator, acceptOperator_of_atParen _ stuck noParen]

theorem free_of_operations {rounds : Nat} {sketch after : Sketch} {u : Unit} (noParen : operator .lparen = none)
    (ran : (operations operator rule rounds).clean sketch = some (u, after)) (free : ¬ AtParen after.tokens) :
    ¬ AtParen sketch.tokens := by
  intro stuck
  have stays := (operations_of_atParen noParen stuck).symm.trans ran
  obtain rfl : sketch = after := by simpa using stays
  exact free stuck

theorem clean_emit_zero {sketch : Sketch} {op : Opcode} {value : Int} : (emit op 0 value).clean sketch =
    some (sketch.code.length, sketch.put sketch.tokens [.of op 0 value]) :=
  clean_emit sketch (Nat.zero_le maxLevel)

theorem operations_produces (h : Expression.Compiles bound context rule p) {rounds : Nat} {sketch : Sketch}
    {left e : Expression} {rest : List Token} (fits : sketch.Fits bound context)
    (atRest : Parser.operations operator p rounds left sketch.tokens = some (e, rest))
    (wellFormed : e.WellFormed context.meanings) :
    left.WellFormed context.meanings ∧ ∃ more, e.code context = left.code context ++ more ∧
      (operations operator rule rounds).clean sketch = some ((), sketch.put rest more) := by
  induction rounds generalizing left sketch with
  | zero =>
    obtain ⟨rfl, rfl⟩ : left = e ∧ sketch.tokens = rest := by simpa [Parser.operations] using atRest
    exact ⟨wellFormed, [], by simp, by simp [operations, Sketch.put_nil]⟩
  | succ rounds ih =>
    simp only [Parser.operations, Parser.bind_apply, Option.bind_eq_some_iff, Prod.exists] at atRest
    obtain ⟨found, ts, atOperator, atRest⟩ := atRest
    cases found with
    | none =>
      obtain ⟨rfl, rfl⟩ : left = e ∧ ts = rest := by simpa using atRest
      refine ⟨wellFormed, [], by simp, ?_⟩
      simp [operations, clean_acceptOperator, atOperator, Sketch.put_nil]
    | some op =>
      simp only [Parser.bind_apply, Option.bind_eq_some_iff, Prod.exists] at atRest
      obtain ⟨right, us, atOperand, atRest⟩ := atRest
      let behind := sketch.put us (right.code context ++ [.of (.binary op)])
      obtain ⟨both, more, spelled, ran⟩ := ih (fits.put us (right.code context ++ [.of (.binary op)])) atRest
      cases both with
      | binary leftFormed rightFormed =>
      have ranRight := h.produces (fits.at ts) atOperand rightFormed
      refine ⟨leftFormed, right.code context ++ [.of (.binary op)] ++ more, ?_, ?_⟩
      · simp [spelled, Expression.code]
      · simp [operations, clean_acceptOperator, atOperator, ranRight, clean_emit_zero, ran]

theorem operations_admits (noParen : operator .lparen = none) (h : Expression.Compiles bound context rule p)
    {rounds : Nat} {sketch after : Sketch} {left : Expression} (fits : sketch.Fits bound context)
    (ran : (operations operator rule rounds).clean sketch = some ((), after)) (free : ¬ AtParen after.tokens)
    (wellFormed : left.WellFormed context.meanings) :
    ∃ e, Parser.operations operator p rounds left sketch.tokens = some (e, after.tokens) ∧
      e.WellFormed context.meanings := by
  induction rounds generalizing left sketch with
  | zero =>
    obtain rfl : sketch = after := by simpa [operations] using ran
    exact ⟨left, rfl, wellFormed⟩
  | succ rounds ih =>
    simp only [operations, clean_bind, clean_acceptOperator, Option.bind_eq_some_iff, Prod.exists,
      Option.map_eq_some_iff, Prod.mk.injEq] at ran
    obtain ⟨_, _, ⟨found, ts, atOperator, rfl, rfl⟩, ran⟩ := ran
    simp only [Parser.operations, Parser.bind_apply, atOperator, Option.bind_some]
    cases found with
    | none =>
      obtain rfl : sketch.at ts = after := by simpa using ran
      exact ⟨left, rfl, wellFormed⟩
    | some op =>
      simp only [clean_bind, Option.bind_eq_some_iff, Prod.exists, clean_discard, clean_emit_zero] at ran
      obtain ⟨_, middle, ranRight, ran⟩ := ran
      obtain ⟨_, emitted, same, ran⟩ := ran
      obtain rfl : middle.put middle.tokens [.of (.binary op)] = emitted := by simpa using same
      have freeMiddle := free_of_operations noParen ran free
      obtain ⟨right, us, atOperand, rightFormed, rfl⟩ := h.exists_of_clean (fits.at ts) ranRight freeMiddle
      obtain ⟨e, atRest, formed⟩ := @ih _ (.binary op left right) ((fits.put _ _).put _ _) ran (.binary wellFormed rightFormed)
      simp only [Sketch.at_tokens, Sketch.put_tokens] at atOperand atRest
      exact ⟨e, by simp [atOperand, atRest], formed⟩

theorem leftAssociative_compiles (noParen : operator .lparen = none) (h : Expression.Compiles bound context rule p) :
    Expression.Compiles bound context (leftAssociative operator rule) (Parser.leftAssociative bound operator p) where
  produces := by
    intro sketch rest e fits atPhrase formed
    simp only [Parser.leftAssociative, Parser.bind_apply, Option.bind_eq_some_iff, Prod.exists] at atPhrase
    obtain ⟨first, ts, atFirst, atRest⟩ := atPhrase
    obtain ⟨firstFormed, more, spelled, ran⟩ := operations_produces h (fits.put ts (first.code context)) atRest formed
    have ranFirst := h.produces fits atFirst firstFormed
    simp [leftAssociative, ranFirst, fits.bound_eq, ran, spelled]
  admits := by
    intro sketch after fits ran free
    simp only [leftAssociative, clean_bind, Option.bind_eq_some_iff, Prod.exists, clean_bound, Option.some.injEq, Prod.mk.injEq] at ran
    obtain ⟨_, middle, ranFirst, _, _, ⟨rfl, rfl⟩, ran⟩ := ran
    obtain ⟨first, ts, atFirst, firstFormed, rfl⟩ :=
      h.exists_of_clean fits ranFirst (free_of_operations noParen ran free)
    rw [Sketch.put_bound, fits.bound_eq] at ran
    obtain ⟨e, atRest, formed⟩ := operations_admits noParen h (fits.put _ _) ran free firstFormed
    rw [Sketch.put_tokens] at atRest
    exact ⟨e, by simp [Parser.leftAssociative, atFirst, atRest], formed⟩

theorem term_compiles (h : Expression.Compiles bound context rule p) :
    Expression.Compiles bound context (term rule) (Parser.term bound p) :=
  leftAssociative_compiles rfl h

theorem expression_compiles (h : Expression.Compiles bound context rule p) :
    Expression.Compiles bound context (expression rule) (Parser.expression bound p) where
  produces := by
    intro sketch rest e fits atPhrase formed
    simp only [Parser.expression, Parser.bind_apply, Parser.ite_apply, Option.bind_eq_some_iff, Prod.exists] at atPhrase
    obtain ⟨negated, ts, atSign, atPhrase⟩ := atPhrase
    rcases Parser.accept_eq_some atSign with ⟨rfl, t, tokens, spelled⟩ | ⟨rfl, rfl, noMinus⟩
    · simp only [if_true, Option.bind_eq_some_iff, Prod.exists] at atPhrase
      obtain ⟨first, us, atTerm, atRest⟩ := atPhrase
      obtain ⟨negatedFormed, more, code, ran⟩ := operations_produces (term_compiles h)
        (fits.put us (first.code context ++ [.of (.unary .neg)])) atRest formed
      cases negatedFormed with
      | unary firstFormed =>
      have ranTerm := (term_compiles h).produces (fits.at ts) atTerm firstFormed
      simp [expression, tokens, spelled, ranTerm, clean_emit_zero, fits.bound_eq, ran, code, Expression.code]
    · simp only [if_false, Bool.false_eq_true, Option.bind_eq_some_iff, Prod.exists] at atPhrase
      obtain ⟨positive, us, atPlus, first, vs, atTerm, atRest⟩ := atPhrase
      obtain ⟨firstFormed, more, code, ran⟩ := operations_produces (term_compiles h)
        (fits.put vs (first.code context)) atRest formed
      have ranTerm := (term_compiles h).produces (fits.at us) atTerm firstFormed
      simp [expression, noMinus, atPlus, ranTerm, fits.bound_eq, ran, code]
  admits := by
    intro sketch after fits ran free
    by_cases atMinus : (currentToken sketch.tokens).kind = .fixed .minus
    · simp only [expression, clean_bind, clean_check, atMinus, Option.bind_some, clean_ite, decide_true, if_true,
        clean_advance, clean_discard, clean_emit_zero, Option.bind_eq_some_iff, Prod.exists, Option.map_some,
        clean_bound] at ran
      obtain ⟨_, middle, ranTerm, ran⟩ := ran
      have freeMiddle := free_of_operations rfl ran free
      obtain ⟨first, ts, atTerm, firstFormed, rfl⟩ := (term_compiles h).exists_of_clean (fits.at _) ranTerm freeMiddle
      simp only [Sketch.put_put, Sketch.put_bound, Sketch.at_bound, fits.bound_eq] at ran
      have negatedFormed : (Expression.unary .neg first).WellFormed context.meanings := .unary firstFormed
      obtain ⟨e, atRest, formed⟩ := operations_admits rfl (term_compiles h) ((fits.at _).put _ _) ran free negatedFormed
      refine ⟨e, ?_, formed⟩
      simp only [Sketch.at_tokens, Sketch.put_tokens] at atTerm atRest
      simp [Parser.expression, Parser.accept, atMinus, atTerm, atRest]
    · simp only [expression, clean_bind, clean_check, atMinus, Option.bind_some, clean_ite, decide_false, if_false,
        Bool.false_eq_true, clean_discard, clean_accept, Option.bind_eq_some_iff, Prod.exists, Option.map_map,
        Option.map_eq_some_iff, clean_bound, Function.comp_apply] at ran
      obtain ⟨_, _, ⟨positive, ts, atPlus, same⟩, _, middle, ranTerm, ran⟩ := ran
      cases same
      have freeMiddle := free_of_operations rfl ran free
      obtain ⟨first, us, atTerm, firstFormed, rfl⟩ := (term_compiles h).exists_of_clean (fits.at _) ranTerm freeMiddle
      simp only [Sketch.put_bound, Sketch.at_bound, fits.bound_eq] at ran
      obtain ⟨e, atRest, formed⟩ := operations_admits rfl (term_compiles h) ((fits.at _).put _ _) ran free firstFormed
      refine ⟨e, ?_, formed⟩
      simp only [Sketch.at_tokens, Sketch.put_tokens] at atTerm atRest
      rw [Parser.expression, Parser.bind_apply, Parser.accept, if_neg atMinus]
      simp [atPlus, atTerm, atRest]

theorem relation_compiles (h : Expression.Compiles bound context rule p) :
    Expression.Compiles bound context (relation rule) (Parser.relation bound p) where
  produces := by
    intro sketch rest e fits atPhrase formed
    simp only [Parser.relation, Parser.bind_apply, Parser.ite_apply, Option.bind_eq_some_iff, Prod.exists] at atPhrase
    obtain ⟨odd, ts, atOdd, atPhrase⟩ := atPhrase
    rcases Parser.accept_eq_some atOdd with ⟨rfl, t, tokens, spelled⟩ | ⟨rfl, rfl, noOdd⟩
    · simp only [if_true, Option.bind_eq_some_iff, Prod.exists, Parser.pure_apply, Option.some.injEq,
        Prod.mk.injEq] at atPhrase
      obtain ⟨operand, _, atOperand, rfl, rfl⟩ := atPhrase
      cases formed with
      | odd operandFormed =>
      have ran := (expression_compiles h).produces (fits.at ts) atOperand operandFormed
      simp [relation, atOdd, ran, clean_emit_zero, Expression.code]
    · simp only [if_false, Bool.false_eq_true, Option.bind_eq_some_iff, Prod.exists] at atPhrase
      obtain ⟨left, us, atLeft, found, vs, atOperator, atPhrase⟩ := atPhrase
      cases found with
      | none =>
        obtain ⟨rfl, rfl⟩ : left = e ∧ vs = rest := by simpa using atPhrase
        have ran := (expression_compiles h).produces fits atLeft formed
        simp [relation, atOdd, ran, clean_acceptOperator, atOperator]
      | some op =>
        simp only [Parser.bind_apply, Parser.pure_apply, Option.bind_eq_some_iff, Prod.exists, Option.some.injEq,
          Prod.mk.injEq] at atPhrase
        obtain ⟨right, _, atRight, rfl, rfl⟩ := atPhrase
        cases formed with
        | binary leftFormed rightFormed =>
        have ranLeft := (expression_compiles h).produces fits atLeft leftFormed
        have ranRight := (expression_compiles h).produces (fits.put vs (left.code context)) atRight rightFormed
        simp [relation, atOdd, ranLeft, clean_acceptOperator, atOperator, ranRight, clean_emit_zero, Expression.code]
  admits := by
    intro sketch after fits ran free
    simp only [relation, clean_bind, clean_accept, clean_ite, Option.bind_eq_some_iff, Prod.exists,
      Option.map_eq_some_iff] at ran
    obtain ⟨odd, _, ⟨_, ts, atOdd, same⟩, ran⟩ := ran
    cases same
    cases odd with
    | true =>
      simp only [if_true, Option.bind_eq_some_iff, Prod.exists, clean_discard, clean_emit_zero, Option.map_some,
        Option.bind_some, Option.some.injEq, Prod.mk.injEq, true_and] at ran
      obtain ⟨_, middle, ranOperand, rfl⟩ := ran
      obtain ⟨operand, us, atOperand, operandFormed, rfl⟩ :=
        (expression_compiles h).exists_of_clean (fits.at _) ranOperand free
      simp only [Sketch.at_tokens] at atOperand
      exact ⟨.odd operand, by simp [Parser.relation, atOdd, atOperand], .odd operandFormed⟩
    | false =>
      simp only [if_false, Bool.false_eq_true, Option.bind_eq_some_iff, Prod.exists, clean_acceptOperator,
        Option.map_eq_some_iff] at ran
      obtain ⟨_, middle, ranLeft, found, _, ⟨_, us, atOperator, same⟩, ran⟩ := ran
      cases same
      have freeMiddle : ¬ AtParen middle.tokens := by
        intro stuck
        have noOperator := acceptOperator_of_atParen relational stuck rfl
        obtain ⟨rfl, rfl⟩ : none = found ∧ middle.tokens = us := by simpa [noOperator] using atOperator
        obtain rfl : middle = after := by simpa using ran
        exact free stuck
      obtain ⟨left, vs, atLeft, leftFormed, rfl⟩ := (expression_compiles h).exists_of_clean (fits.at _) ranLeft freeMiddle
      simp only [Sketch.at_tokens, Sketch.put_tokens] at atLeft atOperator
      cases found with
      | none =>
        obtain rfl : _ = after := by simpa using ran
        exact ⟨left, by simp [Parser.relation, atOdd, atLeft, atOperator], leftFormed⟩
      | some op =>
        simp only [clean_bind, Option.bind_eq_some_iff, Prod.exists, clean_discard, clean_emit_zero, Option.map_some,
          Option.some.injEq, Prod.mk.injEq, true_and] at ran
        obtain ⟨_, last, ranRight, rfl⟩ := ran
        obtain ⟨right, ws, atRight, rightFormed, rfl⟩ :=
          (expression_compiles h).exists_of_clean (((fits.at _).put _ _).at _) ranRight free
        simp only [Sketch.at_tokens] at atRight
        exact ⟨.binary op left right, by simp [Parser.relation, atOdd, atLeft, atOperator, atRight],
          .binary leftFormed rightFormed⟩

theorem conjunction_compiles (h : Expression.Compiles bound context rule p) :
    Expression.Compiles bound context (conjunction rule) (Parser.conjunction bound p) :=
  leftAssociative_compiles rfl (relation_compiles h)

theorem condition_compiles (h : Expression.Compiles bound context rule p) :
    Expression.Compiles bound context (condition rule) (Parser.condition bound p) :=
  leftAssociative_compiles rfl (conjunction_compiles h)

/-- An item of a list does what a parser reads. What is `good` holds before and behind each item, with the values read
so far; a list is `ok` if the items keep the static rules. -/
structure ItemCompiles {α β : Type} (item : α → Production α) (p : Parser β) (ok : List β → Prop)
    (good : List β → α → Sketch → Prop) : Prop where
  produces : ∀ {values state sketch value rest}, good values state sketch → p sketch.tokens = some (value, rest) →
    ok (values ++ [value]) → ∃ next after, (item state).clean sketch = some (next, after) ∧ after.tokens = rest ∧
      good (values ++ [value]) next after
  admits : ∀ {values state sketch next after}, good values state sketch → ok values →
    (item state).clean sketch = some (next, after) → ¬ AtParen after.tokens →
      ∃ value, p sketch.tokens = some (value, after.tokens) ∧ ok (values ++ [value]) ∧
        good (values ++ [value]) next after
  anywhere : ∀ {values state sketch}, good values state sketch → ∀ tokens, good values state (sketch.at tokens)
  shorter : ∀ {first second}, ok (first ++ second) → ok first

theorem accept_of_atParen {tokens : List Token} {kind : FixedKind} (stuck : AtParen tokens) (other : kind ≠ .lparen) :
    Parser.accept kind tokens = some (false, tokens) := by
  rw [AtParen] at stuck
  simp [Parser.accept, stuck, Ne.symm other]

section Lists

variable {α β : Type} {item : α → Production α} {q : Parser β} {ok : List β → Prop}
  {good : List β → α → Sketch → Prop}

theorem commaSeparated_produces (h : ItemCompiles item q ok good) {rounds : Nat} {values more : List β} {state : α}
    {sketch : Sketch} {rest : List Token} (before : good values state sketch)
    (atList : Parser.listed q rounds sketch.tokens = some (more, rest)) (allOk : ok (values ++ more)) :
    ∃ next after, (commaSeparated item rounds state).clean sketch = some (next, after) ∧ after.tokens = rest ∧
      good (values ++ more) next after := by
  induction rounds generalizing values more state sketch with
  | zero =>
    obtain ⟨rfl, rfl⟩ : [] = more ∧ sketch.tokens = rest := by simpa [Parser.listed] using atList
    exact ⟨state, sketch, rfl, rfl, by simpa using before⟩
  | succ rounds ih =>
    simp only [Parser.listed, Parser.bind_apply, Parser.ite_apply, Option.bind_eq_some_iff, Prod.exists] at atList
    obtain ⟨first, ts, atFirst, comma, us, atComma, atList⟩ := atList
    cases comma with
    | true =>
      simp only [if_true, Option.bind_eq_some_iff, Prod.exists, Parser.pure_apply, Option.some.injEq,
        Prod.mk.injEq] at atList
      obtain ⟨others, _, atOthers, rfl, rfl⟩ := atList
      rw [List.append_cons] at allOk ⊢
      obtain ⟨next, after, ran, rfl, between⟩ := h.produces before atFirst (h.shorter allOk)
      obtain ⟨last, final, ranOthers, same, behind⟩ := ih (h.anywhere between us) atOthers allOk
      exact ⟨last, final, by simp [commaSeparated, ran, atComma, ranOthers], same, behind⟩
    | false =>
      obtain ⟨rfl, rfl⟩ : [first] = more ∧ us = rest := by simpa using atList
      obtain ⟨next, after, ran, rfl, between⟩ := h.produces before atFirst allOk
      exact ⟨next, after.at us, by simp [commaSeparated, ran, atComma], rfl, h.anywhere between us⟩

theorem commaSeparated_admits (h : ItemCompiles item q ok good) {rounds : Nat} {values : List β} {state next : α}
    {sketch after : Sketch} (before : good values state sketch) (soFar : ok values)
    (ran : (commaSeparated item rounds state).clean sketch = some (next, after)) (free : ¬ AtParen after.tokens) :
    ∃ more, Parser.listed q rounds sketch.tokens = some (more, after.tokens) ∧ ok (values ++ more) ∧
      good (values ++ more) next after := by
  induction rounds generalizing values state sketch with
  | zero =>
    obtain ⟨rfl, rfl⟩ : state = next ∧ sketch = after := by simpa [commaSeparated] using ran
    exact ⟨[], rfl, by simpa using soFar, by simpa using before⟩
  | succ rounds ih =>
    simp only [commaSeparated, clean_bind, clean_accept, clean_ite, Option.bind_eq_some_iff, Prod.exists,
      Option.map_eq_some_iff] at ran
    obtain ⟨middle, behind, ranFirst, comma, _, ⟨_, ts, atComma, same⟩, ran⟩ := ran
    cases same
    have freeBehind : ¬ AtParen behind.tokens := by
      intro stuck
      obtain ⟨rfl, rfl⟩ : false = comma ∧ behind.tokens = ts := by
        simpa [accept_of_atParen stuck] using atComma
      obtain ⟨rfl, rfl⟩ : middle = next ∧ behind = after := by simpa using ran
      exact free stuck
    obtain ⟨first, atFirst, firstOk, between⟩ := h.admits before soFar ranFirst freeBehind
    cases comma with
    | true =>
      obtain ⟨others, atOthers, allOk, final⟩ := ih (h.anywhere between ts) firstOk (by simpa using ran)
      rw [Sketch.at_tokens] at atOthers
      refine ⟨first :: others, ?_, by simpa using allOk, by simpa using final⟩
      simp [Parser.listed, atFirst, atComma, atOthers]
    | false =>
      obtain ⟨rfl, rfl⟩ : middle = next ∧ behind.at ts = after := by simpa using ran
      exact ⟨[first], by simp [Parser.listed, atFirst, atComma], firstOk, h.anywhere between ts⟩

end Lists

theorem codeAll_append (context : CodeContext) (first second : List Expression) :
    Expression.codeAll context (first ++ second) =
      Expression.codeAll context first ++ Expression.codeAll context second := by
  induction first with
  | nil => rfl
  | cons e first ih => simp [Expression.codeAll, ih]

theorem argument_compiles (h : Expression.Compiles bound context rule p) {start : Sketch}
    (fits : start.Fits bound context) :
    ItemCompiles (fun count => do expression rule; return count + 1) (Parser.expression bound p)
      (fun values => ∀ e ∈ values, e.WellFormed context.meanings)
      (fun values count sketch => count = values.length ∧
        ∃ tokens, sketch = start.put tokens (Expression.codeAll context values)) where
  produces := by
    rintro values _ _ value rest ⟨rfl, tokens, rfl⟩ atValue formed
    have ran := (expression_compiles h).produces (fits.put _ _) atValue (formed value (by simp))
    refine ⟨values.length + 1, start.put rest (Expression.codeAll context (values ++ [value])), ?_, rfl, by simp, rest, rfl⟩
    simp [ran, codeAll_append, Expression.codeAll]
  admits := by
    rintro values _ _ next after ⟨rfl, tokens, rfl⟩ formed ran free
    simp only [clean_bind, clean_pure, Option.bind_eq_some_iff, Prod.exists, Option.some.injEq, Prod.mk.injEq] at ran
    obtain ⟨_, _, ran, rfl, rfl⟩ := ran
    obtain ⟨value, rest, atValue, valueFormed, rfl⟩ := (expression_compiles h).exists_of_clean (fits.put _ _) ran free
    refine ⟨value, atValue, ?_, by simp, rest, by simp [codeAll_append, Expression.codeAll]⟩
    simpa [or_imp, forall_and, valueFormed] using formed
  anywhere := by
    rintro values _ _ ⟨rfl, _, rfl⟩ tokens
    exact ⟨rfl, tokens, rfl⟩
  shorter := fun formed e he => formed e (List.mem_append_left _ he)

theorem no_arguments (sketch : Sketch) : 0 = ([] : List Expression).length ∧
    ∃ tokens, sketch = sketch.put tokens (Expression.codeAll context []) :=
  ⟨rfl, sketch.tokens, by simp [Expression.codeAll, Sketch.put_nil]⟩

theorem arguments_produces (h : Expression.Compiles bound context rule p) {sketch : Sketch} {values : List Expression}
    {rest : List Token} (fits : sketch.Fits bound context)
    (atArguments : Parser.arguments bound p sketch.tokens = some (values, rest))
    (formed : ∀ e ∈ values, e.WellFormed context.meanings) :
    (arguments rule).clean sketch =
      some (values.length, sketch.put rest (Expression.codeAll context values)) := by
  simp only [Parser.arguments, Parser.bind_apply, Parser.ite_apply, Option.bind_eq_some_iff, Prod.exists] at atArguments
  obtain ⟨closed, ts, atClosing, atArguments⟩ := atArguments
  rcases Parser.accept_eq_some atClosing with ⟨rfl, t, tokens, spelled⟩ | ⟨rfl, rfl, notClosed⟩
  · obtain ⟨rfl, rfl⟩ : [] = values ∧ ts = rest := by simpa using atArguments
    simp [arguments, clean_require, Parser.require, tokens, spelled, Expression.codeAll, Sketch.put_nil]
  · simp only [if_false, Bool.false_eq_true, Option.bind_eq_some_iff, Prod.exists, Parser.pure_apply,
      Option.some.injEq, Prod.mk.injEq] at atArguments
    obtain ⟨_, us, atList, _, _, atEnd, rfl, rfl⟩ := atArguments
    obtain ⟨_, _, ran, same, rfl, tokens, rfl⟩ :=
      commaSeparated_produces (argument_compiles h fits) (no_arguments sketch) atList formed
    obtain rfl : tokens = us := same
    rw [List.nil_append] at ran
    simp [arguments, notClosed, fits.bound_eq, ran, clean_require, atEnd, -bind_pure_comp]

theorem arguments_admits (h : Expression.Compiles bound context rule p) {sketch after : Sketch} {count : Nat}
    (fits : sketch.Fits bound context) (ran : (arguments rule).clean sketch = some (count, after)) :
    ∃ values rest, Parser.arguments bound p sketch.tokens = some (values, rest) ∧ count = values.length ∧
      (∀ e ∈ values, e.WellFormed context.meanings) ∧
        after = sketch.put rest (Expression.codeAll context values) := by
  by_cases closed : (currentToken sketch.tokens).kind = .fixed .rparen
  · obtain ⟨rfl, rfl⟩ : 0 = count ∧ sketch.at sketch.tokens.tail = after := by
      simpa [arguments, closed, clean_require, Parser.require] using ran
    refine ⟨[], sketch.tokens.tail, ?_, rfl, by simp, by simp [Expression.codeAll, Sketch.put_nil]⟩
    simp [Parser.arguments, Parser.accept, closed]
  · simp only [arguments, clean_bind, clean_check, closed, Option.bind_some, clean_ite, decide_false, if_false,
      Bool.false_eq_true, clean_bound, Option.bind_eq_some_iff, Prod.exists, clean_require, Option.map_eq_some_iff,
      clean_pure, Option.some.injEq, Prod.mk.injEq, fits.bound_eq] at ran
    obtain ⟨_, middle, ranList, _, _, ⟨_, ts, atEnd, _, rfl⟩, rfl, rfl⟩ := ran
    have freeMiddle : ¬ AtParen middle.tokens := by
      intro stuck
      rw [AtParen] at stuck
      simp [Parser.require, stuck] at atEnd
    obtain ⟨values, atList, formed, rfl, tokens, rfl⟩ :=
      commaSeparated_admits (argument_compiles h fits) (no_arguments sketch) (by simp) ranList freeMiddle
    refine ⟨values, ts, ?_, rfl, formed, by simp⟩
    rw [Sketch.put_tokens] at atList atEnd
    rw [Parser.arguments, Parser.bind_apply, Parser.accept, if_neg closed]
    simp [atList, atEnd]

/-- The level of a declaration tells how many blocks out it stands. -/
theorem Scope.Matches.distance_eq {scope : Scope} (h : scope.Matches context) {level distance : Nat}
    (deep : level + distance + 1 = context.length) :
    scope.distance level = distance ∧ distance ≤ maxLevel := by
  have atLevel := h.level
  have inByte := h.inByte
  rw [Scope.distance]
  omega

theorem require_of_accept {kind : FixedKind} {tokens rest : List Token}
    (h : Parser.accept kind tokens = some (true, rest)) : Parser.require kind tokens = some ((), rest) := by
  unfold Parser.accept at h
  unfold Parser.require
  split at h <;> simp_all

theorem accept_of_require {kind : FixedKind} {tokens rest : List Token} {u : Unit}
    (h : Parser.require kind tokens = some (u, rest)) : Parser.accept kind tokens = some (true, rest) := by
  unfold Parser.require at h
  unfold Parser.accept
  split at h <;> simp_all

theorem accept_of_not_atParen {tokens : List Token} (free : ¬ AtParen tokens) :
    Parser.accept .lparen tokens = some (false, tokens) :=
  if_neg free

theorem clean_call {scope : Scope} (here : scope.Matches context) {name : String} {kind : Routine}
    {level arity address count distance : Nat} (deep : level + distance + 1 = context.length) (sketch : Sketch) :
    (call scope ((Binding.routine kind arity address).symbol name level) count).clean sketch =
      if count = arity then some ((), sketch.put sketch.tokens [.of .call distance address]) else none := by
  obtain ⟨same, small⟩ := here.distance_eq deep
  simp only [call, Binding.symbol, same, clean_ite, clean_discard, clean_emit _ small, clean_report, Option.map_some,
    Int.natCast_inj]

section Names

variable {scope : Scope} {sketch : Sketch} (fits : sketch.Fits bound context) {name : String} {distance : Nat}
  {inner : CodeContext}
include fits

theorem clean_namedFactor_none (atName : context.find? name = none) :
    (namedFactor scope rule name).clean sketch = none := by
  simp [namedFactor, fits.holds.resolve_eq_none atName]

theorem clean_namedFactor_procedure {arity address : Nat}
    (atName : context.find? name = some ⟨distance, .routine .procedure arity address, inner⟩) :
    (namedFactor scope rule name).clean sketch = none := by
  obtain ⟨level, deep, resolved⟩ := fits.holds.resolve_of_find? atName
  simp [namedFactor, resolved, Binding.symbol, Routine.symbolKind]

theorem clean_namedFactor_constant {value : Nat} (atName : context.find? name = some ⟨distance, .constant value, inner⟩) :
    (namedFactor scope rule name).clean sketch =
      some ((), sketch.put sketch.tokens (Expression.code context (.name name))) := by
  obtain ⟨level, _, resolved⟩ := fits.holds.resolve_of_find? atName
  simp [namedFactor, resolved, Binding.symbol, clean_emit_zero, Expression.code, CodeContext.valueCode, atName]

theorem clean_namedFactor_variable (here : scope.Matches context) {offset : Int}
    (atName : context.find? name = some ⟨distance, .variable offset, inner⟩) :
    (namedFactor scope rule name).clean sketch =
      some ((), sketch.put sketch.tokens (Expression.code context (.name name))) := by
  obtain ⟨level, deep, resolved⟩ := fits.holds.resolve_of_find? atName
  obtain ⟨same, small⟩ := here.distance_eq deep
  have atDistance : (emit .pushVar (distance : Int) offset).clean sketch = _ := clean_emit sketch small
  simp [namedFactor, resolved, Binding.symbol, same, atDistance, clean_emit_zero, Expression.code,
    CodeContext.valueCode, atName]

theorem clean_namedFactor_function (here : scope.Matches context) {arity address : Nat}
    (atName : context.find? name = some ⟨distance, .routine .function arity address, inner⟩) :
    (namedFactor scope rule name).clean sketch =
      (Parser.require .lparen sketch.tokens).bind fun opened =>
        ((arguments rule).clean (sketch.at opened.2)).bind fun result =>
          if result.1 = arity then some ((), result.2.put result.2.tokens (context.callCode name)) else none := by
  obtain ⟨level, deep, resolved⟩ := fits.holds.resolve_of_find? atName
  have isFunction : ((Binding.routine .function arity address).symbol name level).kind = .function := rfl
  have called := fun count => @clean_call context scope here name .function level arity address count _ deep
  simp only [namedFactor, clean_bind, clean_resolve, resolved, Option.bind_some, isFunction, clean_expect]
  simp only [clean_ite, clean_bind, clean_pure, called, CodeContext.callCode, atName, if_true, Option.bind_map,
    Function.comp_def]

end Names

section Factors

variable {scope : Scope} (here : scope.Matches context) (h : Expression.Compiles bound context rule p)
include here h

theorem namedFactor_produces {sketch : Sketch} {name : String} {rest : List Token} {e : Expression}
    (fits : sketch.Fits bound context)
    (atPhrase : Parser.factor bound p (.identifier name :: sketch.tokens) = some (e, rest))
    (formed : e.WellFormed context.meanings) :
    (namedFactor scope rule name).clean sketch = some ((), sketch.put rest (e.code context)) := by
  simp only [Parser.factor, Parser.bind_apply, Parser.ite_apply, Option.bind_eq_some_iff, Prod.exists] at atPhrase
  obtain ⟨called, ts, atParen, atPhrase⟩ := atPhrase
  rcases Parser.accept_eq_some atParen with ⟨rfl, t, tokens, spelled⟩ | ⟨rfl, rfl, noParen⟩
  · simp only [if_true, Parser.pure_apply, Option.bind_eq_some_iff, Prod.exists, Option.some.injEq,
      Prod.mk.injEq] at atPhrase
    obtain ⟨values, _, atArguments, rfl, rfl⟩ := atPhrase
    cases formed with
    | call atName formed =>
    obtain ⟨entry, inner, atName, isFunction⟩ := CodeContext.exists_of_find?_meanings atName
    cases entry with
    | routine kind arity address =>
      obtain ⟨rfl, rfl⟩ : kind = .function ∧ arity = values.length := by simpa [Binding.meaning] using isFunction
      have ran := arguments_produces h (fits.at ts) atArguments formed
      rw [clean_namedFactor_function fits here atName, require_of_accept atParen]
      simp [ran, Expression.code]
    | _ => simp [Binding.meaning] at isFunction
  · obtain ⟨rfl, rfl⟩ : .name name = e ∧ sketch.tokens = rest := by simpa using atPhrase
    cases formed with
    | constantName atName =>
      obtain ⟨entry, inner, atName, isConstant⟩ := CodeContext.exists_of_find?_meanings atName
      cases entry with
      | constant value => exact clean_namedFactor_constant fits atName
      | _ => simp [Binding.meaning] at isConstant
    | variableName atName =>
      obtain ⟨entry, inner, atName, isVariable⟩ := CodeContext.exists_of_find?_meanings atName
      cases entry with
      | «variable» offset => exact clean_namedFactor_variable fits here atName
      | _ => simp [Binding.meaning] at isVariable

theorem namedFactor_admits {sketch after : Sketch} {name : String} {u : Unit} (fits : sketch.Fits bound context)
    (ran : (namedFactor scope rule name).clean sketch = some (u, after)) (free : ¬ AtParen after.tokens) :
    ∃ e, Parser.factor bound p (.identifier name :: sketch.tokens) = some (e, after.tokens) ∧
      e.WellFormed context.meanings := by
  cases atName : context.find? name with
  | none => simp [clean_namedFactor_none fits atName] at ran
  | some found =>
    obtain ⟨distance, entry, inner⟩ := found
    have meant := CodeContext.find?_meanings_of_find? atName
    cases entry with
    | constant value =>
      obtain rfl : _ = after := by simpa [clean_namedFactor_constant fits atName] using ran
      rw [Sketch.put_tokens] at free
      exact ⟨.name name, by simp [Parser.factor, accept_of_not_atParen free], .constantName meant⟩
    | «variable» offset =>
      obtain rfl : _ = after := by simpa [clean_namedFactor_variable fits here atName] using ran
      rw [Sketch.put_tokens] at free
      exact ⟨.name name, by simp [Parser.factor, accept_of_not_atParen free], .variableName meant⟩
    | routine kind arity address =>
      cases kind with
      | procedure => simp [clean_namedFactor_procedure fits atName] at ran
      | function =>
        rw [clean_namedFactor_function fits here atName] at ran
        simp only [Option.bind_eq_some_iff, Prod.exists] at ran
        obtain ⟨_, ts, atParen, count, middle, ranArguments, ran⟩ := ran
        obtain ⟨values, rest, atArguments, rfl, formed, rfl⟩ := arguments_admits h (fits.at ts) ranArguments
        split at ran
        · rename_i sameLength
          obtain rfl : _ = after := by simpa using ran
          subst sameLength
          rw [Sketch.at_tokens] at atArguments
          exact ⟨.call name values, by simp [Parser.factor, accept_of_require atParen, atArguments], .call meant formed⟩
        · simp at ran

theorem factor_compiles : Expression.Compiles bound context (factor scope rule) (Parser.factor bound p) where
  produces := by
    intro sketch rest e fits atPhrase formed
    cases tokens : sketch.tokens with
    | nil => simp [tokens, Parser.factor] at atPhrase
    | cons t ts =>
      rw [tokens] at atPhrase
      cases t with
      | identifier name =>
        have ran := namedFactor_produces here h (fits.at ts) atPhrase formed
        simp [factor, tokens, ran]
      | integer value =>
        obtain ⟨rfl, rfl⟩ : .number value = e ∧ ts = rest := by simpa [Parser.factor] using atPhrase
        cases formed with
        | number fitsWord =>
        simp [factor, tokens, clean_literal, fitsWord, clean_emit_zero, Expression.code]
      | fixed kind =>
        by_cases opens : kind = .lparen
        · subst opens
          simp only [Parser.factor, Parser.bind_apply, Option.bind_eq_some_iff, Prod.exists, Parser.pure_apply,
            Option.some.injEq, Prod.mk.injEq] at atPhrase
          obtain ⟨inside, us, atInner, _, _, atEnd, rfl, rfl⟩ := atPhrase
          cases formed with
          | group innerFormed =>
          have ran := (condition_compiles h).produces (fits.at ts) atInner innerFormed
          simp [factor, tokens, ran, clean_require, atEnd, Expression.code]
        · cases kind <;> first | exact absurd rfl opens | simp [Parser.factor] at atPhrase
      | _ => simp [Parser.factor] at atPhrase
  admits := by
    intro sketch after fits ran free
    cases tokens : sketch.tokens with
    | nil => simp [factor, tokens] at ran
    | cons t ts =>
      cases t with
      | identifier name =>
        have ranName : (namedFactor scope rule name).clean (sketch.at ts) = some ((), after) := by
          simpa [factor, tokens] using ran
        exact namedFactor_admits here h (fits.at ts) ranName free
      | integer value =>
        by_cases fitsWord : (value : Int) ≤ greatestWord
        · obtain rfl : _ = after := by simpa [factor, tokens, clean_literal, fitsWord, clean_emit_zero] using ran
          exact ⟨.number value, rfl, .number fitsWord⟩
        · simp [factor, tokens, clean_literal, fitsWord] at ran
      | fixed kind =>
        by_cases opens : kind = .lparen
        · subst opens
          simp only [factor, clean_bind, clean_token, tokens, currentToken_cons, Option.bind_some, clean_advance,
            List.tail_cons, Option.bind_eq_some_iff, Prod.exists, clean_require, Option.map_eq_some_iff] at ran
          obtain ⟨_, middle, ranInner, _, us, atEnd, same⟩ := ran
          cases same
          have freeMiddle : ¬ AtParen middle.tokens := by
            intro stuck
            rw [AtParen] at stuck
            simp [Parser.require, stuck] at atEnd
          obtain ⟨inside, vs, atInner, innerFormed, rfl⟩ :=
            (condition_compiles h).exists_of_clean (fits.at ts) ranInner freeMiddle
          simp only [Sketch.at_tokens, Sketch.put_tokens] at atInner atEnd
          exact ⟨.group inside, by simp [Parser.factor, atInner, atEnd], .group innerFormed⟩
        · cases kind <;> first | exact absurd rfl opens | simp [factor, tokens] at ran
      | _ => simp [factor, tokens] at ran

end Factors

theorem unary_compiles {scope : Scope} (here : scope.Matches context) (depth : Nat) :
    Expression.Compiles bound context (unary scope depth) (Parser.unary bound depth) := by
  induction depth with
  | zero => exact ⟨fun _ h _ => by simp [Parser.unary, Parser.fail] at h, fun _ h _ => by simp [unary] at h⟩
  | succ depth ih =>
    have isFactor := factor_compiles here ih
    refine ⟨?_, ?_⟩
    · intro sketch rest e fits atPhrase formed
      simp only [Parser.unary, Parser.bind_apply, Option.bind_eq_some_iff, Prod.exists] at atPhrase
      obtain ⟨found, ts, atOperator, atPhrase⟩ := atPhrase
      cases found with
      | some op =>
        simp only [Parser.bind_apply, Parser.pure_apply, Option.bind_eq_some_iff, Prod.exists, Option.some.injEq,
          Prod.mk.injEq] at atPhrase
        obtain ⟨operand, _, atOperand, rfl, rfl⟩ := atPhrase
        cases formed with
        | unary operandFormed =>
        have ran := ih.produces (fits.at ts) atOperand operandFormed
        simp [unary, clean_acceptOperator, atOperator, ran, clean_emit_zero, Expression.code]
      | none =>
        have ran := isFactor.produces (fits.at ts) atPhrase formed
        simp [unary, clean_acceptOperator, atOperator, ran]
    · intro sketch after fits ran free
      simp only [unary, clean_bind, clean_acceptOperator, Option.bind_eq_some_iff, Prod.exists,
        Option.map_eq_some_iff] at ran
      obtain ⟨found, _, ⟨_, ts, atOperator, same⟩, ran⟩ := ran
      cases same
      cases found with
      | some op =>
        simp only [clean_bind, Option.bind_eq_some_iff, Prod.exists, clean_discard, clean_emit_zero, Option.map_some,
          Option.some.injEq, Prod.mk.injEq, true_and] at ran
        obtain ⟨_, middle, ranOperand, rfl⟩ := ran
        obtain ⟨operand, us, atOperand, operandFormed, rfl⟩ := ih.exists_of_clean (fits.at ts) ranOperand free
        rw [Sketch.at_tokens] at atOperand
        exact ⟨.unary op operand, by simp [Parser.unary, atOperator, atOperand], .unary operandFormed⟩
      | none =>
        obtain ⟨e, atFactor, formed⟩ := isFactor.admits (fits.at ts) ran free
        rw [Sketch.at_tokens] at atFactor
        exact ⟨e, by simp [Parser.unary, atOperator, atFactor], formed⟩

end Grammar

end PLZero
