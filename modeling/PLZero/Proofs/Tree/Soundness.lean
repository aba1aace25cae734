import PLZero.Proofs.Tree.Derivation
import PLZero.Proofs.Tree.Parser

namespace PLZero

/-- Only equality and inequality are spelled in two ways. -/
theorem Token.eq_fixed_of_kind {t : Token} {kind : FixedKind} (h : t.kind = .fixed kind)
    (once : kind ≠ .eq ∧ kind ≠ .ne) : t = .fixed kind := by
  cases t <;> simp_all [Token.kind]

theorem exists_of_currentToken_kind {tokens : List Token} {kind : FixedKind}
    (h : (currentToken tokens).kind = .fixed kind) : ∃ t rest, tokens = t :: rest ∧ t.kind = .fixed kind := by
  cases tokens with
  | nil => simp [Token.kind] at h
  | cons t rest => exact ⟨t, rest, rfl, h⟩

theorem exists_of_operatorOf {Op : Type} {operator : FixedKind → Option Op} {t : Token} {op : Op}
    (h : operatorOf operator t = some op) : ∃ kind, t.kind = .fixed kind ∧ operator kind = some op := by
  unfold operatorOf at h
  split at h
  · exact ⟨_, by assumption, h⟩
  · simp at h

theorem Joins.of_disjunctive {kind : FixedKind} {op : BinaryOp} (h : Grammar.disjunctive kind = some op) :
    Joins .condition kind op := by
  cases kind <;> simp [Grammar.disjunctive] at h
  subst h
  constructor

theorem Joins.of_conjunctive {kind : FixedKind} {op : BinaryOp} (h : Grammar.conjunctive kind = some op) :
    Joins .conjunction kind op := by
  cases kind <;> simp [Grammar.conjunctive] at h
  subst h
  constructor

theorem Joins.of_adding {kind : FixedKind} {op : BinaryOp} (h : Grammar.adding kind = some op) :
    Joins .expression kind op := by
  cases kind <;> simp [Grammar.adding] at h <;> subst h <;> constructor

theorem Joins.of_multiplying {kind : FixedKind} {op : BinaryOp} (h : Grammar.multiplying kind = some op) :
    Joins .term kind op := by
  cases kind <;> simp [Grammar.multiplying] at h <;> subst h <;> constructor

theorem Compares.of_relational {kind : FixedKind} {op : BinaryOp} (h : Grammar.relational kind = some op) :
    Compares kind op := by
  cases kind <;> simp [Grammar.relational] at h <;> subst h <;> constructor

theorem commaList_cons {item : List Token} {items : List (List Token)} (h : items ≠ []) :
    commaList (item :: items) = item ++ .fixed .comma :: commaList items := by
  cases items with
  | nil => exact absurd rfl h
  | cons => rfl

namespace Parser

variable {bound depth : Nat}

theorem accept_eq_some {tokens rest : List Token} {kind : FixedKind} {taken : Bool}
    (h : accept kind tokens = some (taken, rest)) :
    taken = true ∧ (∃ t, tokens = t :: rest ∧ t.kind = .fixed kind) ∨
      taken = false ∧ rest = tokens ∧ (currentToken tokens).kind ≠ .fixed kind := by
  unfold accept at h
  split at h
  · rename_i atKind
    obtain ⟨t, others, rfl, spelled⟩ := exists_of_currentToken_kind atKind
    obtain ⟨rfl, rfl⟩ : true = taken ∧ others = rest := by simpa using h
    exact .inl ⟨rfl, t, rfl, spelled⟩
  · obtain ⟨rfl, rfl⟩ : false = taken ∧ tokens = rest := by simpa using h
    exact .inr ⟨rfl, rfl, by assumption⟩

theorem require_eq_some {tokens rest : List Token} {kind : FixedKind} {u : Unit}
    (h : require kind tokens = some (u, rest)) : ∃ t, tokens = t :: rest ∧ t.kind = .fixed kind := by
  unfold require at h
  split at h
  · rename_i atKind
    obtain ⟨t, others, rfl, spelled⟩ := exists_of_currentToken_kind atKind
    obtain rfl : others = rest := by simpa using h
    exact ⟨t, rfl, spelled⟩
  · simp at h

theorem acceptOperator_eq_some {Op : Type} {operator : FixedKind → Option Op} {tokens rest : List Token}
    {found : Option Op} (h : acceptOperator operator tokens = some (found, rest)) :
    (∃ t kind op, found = some op ∧ tokens = t :: rest ∧ t.kind = .fixed kind ∧ operator kind = some op) ∨
      found = none ∧ rest = tokens := by
  unfold acceptOperator at h
  split at h
  · rename_i op atOperator
    obtain ⟨kind, spelled, isOp⟩ := exists_of_operatorOf atOperator
    obtain ⟨t, others, rfl, _⟩ := exists_of_currentToken_kind spelled
    obtain ⟨rfl, rfl⟩ : some op = found ∧ others = rest := by simpa using h
    exact .inl ⟨t, kind, op, rfl, rfl, spelled, isOp⟩
  · obtain ⟨rfl, rfl⟩ : none = found ∧ tokens = rest := by simpa using h
    exact .inr ⟨rfl, rfl⟩

theorem identifier_eq_some {tokens rest : List Token} {name : String} (h : identifier tokens = some (name, rest)) :
    tokens = .identifier name :: rest := by
  unfold identifier at h
  split at h <;> simp_all

theorem integer_eq_some {tokens rest : List Token} {value : Nat} (h : integer tokens = some (value, rest)) :
    tokens = .integer value :: rest := by
  unfold integer at h
  split at h <;> simp_all

/-- Whatever the parser takes off the front of fewer than `bound` tokens stands in a relation to its result. -/
def Reads {α : Type} (bound : Nat) (p : Parser α) (related : List Token → α → Prop) : Prop :=
  ∀ {tokens a rest}, tokens.length < bound → p tokens = some (a, rest) →
    ∃ front, tokens = front ++ rest ∧ related front a

/-- Expressions of a level that nest at most so deep. -/
def ReadsLevel (bound depth : Nat) (level : Level) (p : Parser Expression) : Prop :=
  Reads bound p fun ts e => Expression.Derives level ts e ∧ e.nesting ≤ depth

theorem listed_sound {α : Type} {item : Parser α} {related : List Token → α → Prop}
    (reads : Reads bound item related) {rounds : Nat} {tokens rest : List Token} {values : List α}
    (short : tokens.length < bound) (enough : tokens.length < rounds)
    (h : listed item rounds tokens = some (values, rest)) :
    ∃ items : List (List Token × α), items ≠ [] ∧ tokens = commaList (items.map (·.1)) ++ rest ∧
      values = items.map (·.2) ∧ ∀ i ∈ items, related i.1 i.2 := by
  induction rounds generalizing tokens values with
  | zero => omega
  | succ rounds ih =>
    simp only [listed, bind_apply, Option.bind_eq_some_iff, ite_apply, Prod.exists] at h
    obtain ⟨first, behind, atItem, more, later, atComma, h⟩ := h
    obtain ⟨front, rfl, isItem⟩ := reads short atItem
    rcases accept_eq_some atComma with ⟨rfl, t, rfl, spelled⟩ | ⟨rfl, rfl, -⟩
    · obtain rfl := Token.eq_fixed_of_kind spelled (by decide)
      simp only [if_true, Option.bind_eq_some_iff, Prod.exists, pure_apply, Option.some.injEq, Prod.mk.injEq] at h
      obtain ⟨values, _, atRest, rfl, rfl⟩ := h
      simp only [List.length_append, List.length_cons] at short enough
      obtain ⟨items, nonempty, rfl, rfl, all⟩ := ih (by omega) (by omega) atRest
      exact ⟨(front, first) :: items, by simp, by simp [commaList_cons, nonempty], rfl, by simpa [isItem] using all⟩
    · obtain ⟨rfl, rfl⟩ : [first] = values ∧ later = rest := by simpa using h
      exact ⟨[(front, first)], by simp, by simp [commaList], rfl, by simpa using isItem⟩

theorem operations_sound {level : Level} {operator : FixedKind → Option BinaryOp} {operand : Parser Expression}
    (table : ∀ {kind op}, operator kind = some op → Joins level kind op)
    (reads : ReadsLevel bound depth level.operand operand) {rounds : Nat} {left e : Expression}
    {before tokens rest : List Token} (short : tokens.length < bound) (derived : Expression.Derives level before left)
    (shallow : left.nesting ≤ depth) (h : operations operator operand rounds left tokens = some (e, rest)) :
    ∃ front, tokens = front ++ rest ∧ Expression.Derives level (before ++ front) e ∧ e.nesting ≤ depth := by
  induction rounds generalizing left before tokens with
  | zero =>
    obtain ⟨rfl, rfl⟩ : left = e ∧ tokens = rest := by simpa [operations] using h
    exact ⟨[], rfl, by simpa using derived, shallow⟩
  | succ rounds ih =>
    simp only [operations, bind_apply, Option.bind_eq_some_iff, Prod.exists] at h
    obtain ⟨found, others, atOperator, h⟩ := h
    rcases acceptOperator_eq_some atOperator with ⟨t, kind, op, rfl, rfl, spelled, isOp⟩ | ⟨rfl, rfl⟩
    · simp only [bind_apply, Option.bind_eq_some_iff, Prod.exists] at h
      obtain ⟨right, behind, first, later⟩ := h
      rw [List.length_cons] at short
      obtain ⟨front, rfl, rightDerived, rightShallow⟩ := reads (by omega) first
      rw [List.length_append] at short
      obtain ⟨last, rfl, whole, deep⟩ := ih (by omega) (.joined (table isOp) spelled derived rightDerived)
        (by simp only [Expression.nesting]; omega) later
      exact ⟨t :: front ++ last, by simp, by simpa using whole, deep⟩
    · obtain ⟨rfl, rfl⟩ : left = e ∧ others = rest := by simpa using h
      exact ⟨[], rfl, by simpa using derived, shallow⟩

theorem leftAssociative_sound {level : Level} {operator : FixedKind → Option BinaryOp} {operand : Parser Expression}
    (table : ∀ {kind op}, operator kind = some op → Joins level kind op) (above : level ≠ .factor)
    (reads : ReadsLevel bound depth level.operand operand) :
    ReadsLevel bound depth level (leftAssociative bound operator operand) := by
  intro tokens e rest short h
  simp only [leftAssociative, bind_apply, Option.bind_eq_some_iff, Prod.exists] at h
  obtain ⟨first, behind, atFirst, h⟩ := h
  obtain ⟨front, rfl, derived, shallow⟩ := reads short atFirst
  rw [List.length_append] at short
  obtain ⟨last, rfl, whole, deep⟩ := operations_sound table reads (by omega) (.single above derived) shallow h
  exact ⟨front ++ last, by simp, whole, deep⟩

section Expressions

/-! From unary expressions to the looser levels. -/

variable {unary : Parser Expression} (reads : ReadsLevel bound depth .unary unary)
include reads

theorem term_sound : ReadsLevel bound depth .term (term bound unary) :=
  leftAssociative_sound Joins.of_multiplying (by simp) reads

theorem expression_sound : ReadsLevel bound depth .expression (expression bound unary) := by
  intro tokens e rest short h
  simp only [expression, bind_apply, Option.bind_eq_some_iff, Prod.exists, ite_apply] at h
  obtain ⟨negated, ts, atMinus, h⟩ := h
  rcases accept_eq_some atMinus with ⟨rfl, t, rfl, spelled⟩ | ⟨rfl, rfl, -⟩
  · obtain rfl := Token.eq_fixed_of_kind spelled (by decide)
    simp only [if_true, Option.bind_eq_some_iff, Prod.exists] at h
    obtain ⟨first, behind, atFirst, h⟩ := h
    rw [List.length_cons] at short
    obtain ⟨front, rfl, isTerm, shallow⟩ := term_sound reads (by omega) atFirst
    rw [List.length_append] at short
    obtain ⟨last, rfl, whole, deep⟩ := operations_sound Joins.of_adding (term_sound reads) (by omega) (.minus isTerm)
      (by simpa [Expression.nesting] using shallow) h
    exact ⟨.fixed .minus :: front ++ last, by simp, whole, deep⟩
  · simp only [if_false, Bool.false_eq_true, Option.bind_eq_some_iff, Prod.exists] at h
    obtain ⟨positive, ts, atPlus, first, behind, atFirst, h⟩ := h
    rcases accept_eq_some atPlus with ⟨rfl, t, rfl, spelled⟩ | ⟨rfl, rfl, -⟩
    · obtain rfl := Token.eq_fixed_of_kind spelled (by decide)
      rw [List.length_cons] at short
      obtain ⟨front, rfl, isTerm, shallow⟩ := term_sound reads (by omega) atFirst
      rw [List.length_append] at short
      obtain ⟨last, rfl, whole, deep⟩ :=
        operations_sound Joins.of_adding (term_sound reads) (by omega) (.plus isTerm) shallow h
      exact ⟨.fixed .plus :: front ++ last, by simp, whole, deep⟩
    · obtain ⟨front, rfl, isTerm, shallow⟩ := term_sound reads (by omega) atFirst
      rw [List.length_append] at short
      have alone : Expression.Derives .expression front first := .single (by simp) isTerm
      obtain ⟨last, rfl, whole, deep⟩ := operations_sound Joins.of_adding (term_sound reads) (by omega) alone shallow h
      exact ⟨front ++ last, by simp, whole, deep⟩

theorem relation_sound : ReadsLevel bound depth .relation (relation bound unary) := by
  intro tokens e rest short h
  simp only [relation, bind_apply, Option.bind_eq_some_iff, Prod.exists, ite_apply] at h
  obtain ⟨odd, ts, atOdd, h⟩ := h
  rcases accept_eq_some atOdd with ⟨rfl, t, rfl, spelled⟩ | ⟨rfl, rfl, -⟩
  · obtain rfl := Token.eq_fixed_of_kind spelled (by decide)
    simp only [if_true, Option.bind_eq_some_iff, Prod.exists, pure_apply, Option.some.injEq, Prod.mk.injEq] at h
    obtain ⟨inner, _, atInner, rfl, rfl⟩ := h
    rw [List.length_cons] at short
    obtain ⟨front, rfl, derived, shallow⟩ := expression_sound reads (by omega) atInner
    exact ⟨_ :: front, rfl, .odd derived, by simpa [Expression.nesting] using shallow⟩
  · simp only [if_false, Bool.false_eq_true, Option.bind_eq_some_iff, Prod.exists] at h
    obtain ⟨left, behind, atLeft, found, others, atOperator, h⟩ := h
    obtain ⟨front, rfl, derived, shallow⟩ := expression_sound reads short atLeft
    rcases acceptOperator_eq_some atOperator with ⟨t, kind, op, rfl, rfl, spelled, isOp⟩ | ⟨rfl, rfl⟩
    · simp only [bind_apply, Option.bind_eq_some_iff, Prod.exists, pure_apply, Option.some.injEq, Prod.mk.injEq] at h
      obtain ⟨right, _, atRight, rfl, rfl⟩ := h
      rw [List.length_append, List.length_cons] at short
      obtain ⟨last, rfl, rightDerived, rightShallow⟩ := expression_sound reads (by omega) atRight
      exact ⟨front ++ t :: last, by simp, .compared (.of_relational isOp) spelled derived rightDerived,
        by simp only [Expression.nesting]; omega⟩
    · obtain ⟨rfl, rfl⟩ : left = e ∧ others = rest := by simpa using h
      exact ⟨front, rfl, .single (by simp) derived, shallow⟩

theorem conjunction_sound : ReadsLevel bound depth .conjunction (conjunction bound unary) :=
  leftAssociative_sound Joins.of_conjunctive (by simp) (relation_sound reads)

theorem condition_sound : ReadsLevel bound depth .condition (condition bound unary) :=
  leftAssociative_sound Joins.of_disjunctive (by simp) (conjunction_sound reads)

theorem arguments_sound : Reads bound (arguments bound unary) fun ts values =>
    ∃ items : List (List Token × Expression), ts = commaList (items.map (·.1)) ++ [.fixed .rparen] ∧
      values = items.map (·.2) ∧ (∀ i ∈ items, Expression.Derives .expression i.1 i.2) ∧
      Expression.greatestNesting values ≤ depth := by
  intro tokens values rest short h
  simp only [arguments, bind_apply, Option.bind_eq_some_iff, Prod.exists, ite_apply] at h
  obtain ⟨none, ts, atClose, h⟩ := h
  rcases accept_eq_some atClose with ⟨rfl, t, rfl, spelled⟩ | ⟨rfl, rfl, -⟩
  · obtain rfl := Token.eq_fixed_of_kind spelled (by decide)
    obtain ⟨rfl, rfl⟩ : [] = values ∧ ts = rest := by simpa using h
    exact ⟨[.fixed .rparen], rfl, [], by simp [commaList, Expression.greatestNesting]⟩
  · simp only [if_false, Bool.false_eq_true, Option.bind_eq_some_iff, Prod.exists, pure_apply, Option.some.injEq,
      Prod.mk.injEq] at h
    obtain ⟨_, behind, atItems, _, _, atEnd, rfl, rfl⟩ := h
    obtain ⟨items, _, rfl, rfl, all⟩ := listed_sound (expression_sound reads) short short atItems
    obtain ⟨t, rfl, spelled⟩ := require_eq_some atEnd
    obtain rfl := Token.eq_fixed_of_kind spelled (by decide)
    refine ⟨_, by simp, items, rfl, rfl, fun i hi => (all i hi).1, ?_⟩
    rw [Expression.greatestNesting_le]
    simpa using fun e ts hi => (all (ts, e) hi).2

theorem factor_sound : Reads bound (factor bound unary) fun ts e =>
    Expression.Derives .factor ts e ∧ e.nesting ≤ depth + 1 := by
  intro tokens e rest short h
  unfold factor at h
  split at h
  · simp only [bind_apply, Option.bind_eq_some_iff, Prod.exists, ite_apply] at h
    obtain ⟨called, ts, atOpen, h⟩ := h
    rcases accept_eq_some atOpen with ⟨rfl, t, rfl, spelled⟩ | ⟨rfl, rfl, -⟩
    · obtain rfl := Token.eq_fixed_of_kind spelled (by decide)
      simp only [if_true, Option.bind_eq_some_iff, Prod.exists, pure_apply, Option.some.injEq, Prod.mk.injEq] at h
      obtain ⟨values, _, atArguments, rfl, rfl⟩ := h
      simp only [List.length_cons] at short
      obtain ⟨_, rfl, items, rfl, rfl, all, shallow⟩ := arguments_sound reads (by omega) atArguments
      exact ⟨_, by simp, .call all, by simpa [Expression.nesting] using shallow⟩
    · obtain ⟨rfl, rfl⟩ : .name _ = e ∧ ts = rest := by simpa using h
      exact ⟨[_], rfl, .name, by simp [Expression.nesting]⟩
  · obtain ⟨rfl, rfl⟩ : .number _ = e ∧ _ = rest := by simpa using h
    exact ⟨[_], rfl, .number, by simp [Expression.nesting]⟩
  · simp only [bind_apply, Option.bind_eq_some_iff, Prod.exists, pure_apply, Option.some.injEq, Prod.mk.injEq] at h
    obtain ⟨inner, behind, atInner, _, _, atEnd, rfl, rfl⟩ := h
    rw [List.length_cons] at short
    obtain ⟨front, rfl, derived, shallow⟩ := condition_sound reads (by omega) atInner
    obtain ⟨t, rfl, spelled⟩ := require_eq_some atEnd
    obtain rfl := Token.eq_fixed_of_kind spelled (by decide)
    exact ⟨_, by simp, .group derived, by simpa [Expression.nesting] using shallow⟩
  · simp at h

end Expressions

theorem unary_sound : ReadsLevel bound depth .unary (unary bound depth) := by
  induction depth with
  | zero =>
    intro tokens e rest short h
    simp [unary, fail] at h
  | succ depth ih =>
    intro tokens e rest short h
    simp only [unary, bind_apply, Option.bind_eq_some_iff, Prod.exists] at h
    obtain ⟨found, ts, atOperator, h⟩ := h
    rcases acceptOperator_eq_some atOperator with ⟨t, kind, op, rfl, rfl, spelled, isOp⟩ | ⟨rfl, rfl⟩
    · simp only [bind_apply, Option.bind_eq_some_iff, Prod.exists, pure_apply, Option.some.injEq, Prod.mk.injEq] at h
      obtain ⟨operand, _, atOperand, rfl, rfl⟩ := h
      rw [List.length_cons] at short
      obtain ⟨front, rfl, derived, shallow⟩ := ih (by omega) atOperand
      cases kind <;> simp only [Grammar.complementing, Option.some.injEq, reduceCtorEq] at isOp
      · subst isOp
        obtain rfl := Token.eq_fixed_of_kind spelled (by decide)
        exact ⟨_ :: front, rfl, .not derived, by simpa [Expression.nesting] using shallow⟩
      · subst isOp
        obtain rfl := Token.eq_fixed_of_kind spelled (by decide)
        exact ⟨_ :: front, rfl, .complement derived, by simpa [Expression.nesting] using shallow⟩
    · obtain ⟨front, rfl, derived, shallow⟩ := factor_sound ih short h
      exact ⟨front, rfl, .single (by simp) derived, shallow⟩

/-- Statements that nest at most so deep, every `else` with the nearest `if`. What is left begins with no `else` that
would belong to an `if` in the statement. -/
def ReadsStatement (bound depth : Nat) (p : Parser Statement) : Prop :=
  ∀ {tokens s rest}, tokens.length < bound → p tokens = some (s, rest) →
    ∃ front, tokens = front ++ rest ∧ Statement.Derives .single front s ∧ s.nesting ≤ depth ∧ s.NearestElse ∧
      (s.isOpen = true → (currentToken rest).kind ≠ .fixed .elseKw)

theorem named_sound {unary : Parser Expression} (reads : ReadsLevel bound depth .unary unary)
    {name : String} {tokens rest : List Token} {s : Statement} (short : tokens.length < bound)
    (h : named bound unary name tokens = some (s, rest)) :
    ∃ front, tokens = front ++ rest ∧ Statement.Derives .single (.identifier name :: front) s ∧
      s.nesting ≤ depth + 1 ∧ s.NearestElse ∧ s.isOpen = false := by
  simp only [named, bind_apply, Option.bind_eq_some_iff, Prod.exists, ite_apply] at h
  obtain ⟨called, ts, atOpen, h⟩ := h
  rcases accept_eq_some atOpen with ⟨rfl, t, rfl, spelled⟩ | ⟨rfl, rfl, -⟩
  · obtain rfl := Token.eq_fixed_of_kind spelled (by decide)
    simp only [if_true, Option.bind_eq_some_iff, Prod.exists, pure_apply, Option.some.injEq, Prod.mk.injEq] at h
    obtain ⟨values, _, atArguments, rfl, rfl⟩ := h
    rw [List.length_cons] at short
    obtain ⟨_, rfl, items, rfl, rfl, all, shallow⟩ := arguments_sound reads (by omega) atArguments
    exact ⟨_, by simp, .call all, by simpa [Statement.nesting] using shallow, trivial, rfl⟩
  · simp only [if_false, Bool.false_eq_true, Option.bind_eq_some_iff, Prod.exists, pure_apply, Option.some.injEq,
      Prod.mk.injEq] at h
    obtain ⟨_, behind, atAssign, value, _, atValue, rfl, rfl⟩ := h
    obtain ⟨t, rfl, spelled⟩ := require_eq_some atAssign
    obtain rfl := Token.eq_fixed_of_kind spelled (by decide)
    rw [List.length_cons] at short
    obtain ⟨front, rfl, derived, shallow⟩ := expression_sound reads (by omega) atValue
    exact ⟨_, by simp, .assignment derived, by simpa [Statement.nesting] using shallow, trivial, rfl⟩

section Statements

variable {unary : Parser Expression} {statement : Parser Statement} (reads : ReadsLevel bound depth .unary unary)
  (readsStatement : ReadsStatement bound depth statement)

include readsStatement in
theorem series_sound {rounds : Nat} {tokens rest : List Token} {body : Statement} (short : tokens.length < bound)
    (enough : tokens.length < rounds) (h : series statement rounds tokens = some (body, rest)) :
    ∃ front, tokens = front ++ .fixed .endKw :: rest ∧ Statement.Derives .series front body ∧
      body.nesting ≤ depth ∧ body.NearestElse := by
  induction rounds generalizing tokens body with
  | zero => omega
  | succ rounds ih =>
    simp only [series, bind_apply, Option.bind_eq_some_iff, Prod.exists, ite_apply] at h
    obtain ⟨first, behind, atFirst, more, ts, atSemicolon, h⟩ := h
    obtain ⟨front, rfl, derived, shallow, nearest, -⟩ := readsStatement short atFirst
    rcases accept_eq_some atSemicolon with ⟨rfl, t, rfl, spelled⟩ | ⟨rfl, rfl, -⟩
    · obtain rfl := Token.eq_fixed_of_kind spelled (by decide)
      simp only [if_true, Option.bind_eq_some_iff, Prod.exists, pure_apply, Option.some.injEq, Prod.mk.injEq] at h
      obtain ⟨others, _, atRest, rfl, rfl⟩ := h
      simp only [List.length_append, List.length_cons] at short enough
      obtain ⟨last, rfl, restDerived, restShallow, restNearest⟩ := ih (by omega) (by omega) atRest
      exact ⟨front ++ .fixed .semicolon :: last, by simp, .sequence derived restDerived,
        by simp only [Statement.nesting]; omega, nearest, restNearest⟩
    · simp only [if_false, Bool.false_eq_true, Option.bind_eq_some_iff, Prod.exists, pure_apply, Option.some.injEq,
        Prod.mk.injEq] at h
      obtain ⟨_, _, atEnd, rfl, rfl⟩ := h
      obtain ⟨t, rfl, spelled⟩ := require_eq_some atEnd
      obtain rfl := Token.eq_fixed_of_kind spelled (by decide)
      exact ⟨front, rfl, .last derived, shallow, nearest⟩

include reads readsStatement

theorem conditional_sound {tokens rest : List Token} {s : Statement} (short : tokens.length < bound)
    (h : conditional bound unary statement tokens = some (s, rest)) :
    ∃ front, tokens = front ++ rest ∧ Statement.Derives .single (.fixed .ifKw :: front) s ∧ s.nesting ≤ depth + 1 ∧
      s.NearestElse ∧ (s.isOpen = true → (currentToken rest).kind ≠ .fixed .elseKw) := by
  simp only [conditional, bind_apply, Option.bind_eq_some_iff, Prod.exists, ite_apply] at h
  obtain ⟨condition, _, atCondition, _, ts, atThen, consequent, us, atConsequent, more, vs, atElse, h⟩ := h
  obtain ⟨front, rfl, conditionDerived, conditionShallow⟩ := condition_sound reads short atCondition
  obtain ⟨t, rfl, spelled⟩ := require_eq_some atThen
  obtain rfl := Token.eq_fixed_of_kind spelled (by decide)
  rw [List.length_append, List.length_cons] at short
  obtain ⟨middle, rfl, derived, shallow, nearest, closed⟩ := readsStatement (by omega) atConsequent
  rw [List.length_append] at short
  rcases accept_eq_some atElse with ⟨rfl, t, rfl, spelled⟩ | ⟨rfl, rfl, noElse⟩
  · obtain rfl := Token.eq_fixed_of_kind spelled (by decide)
    simp only [if_true, Option.bind_eq_some_iff, Prod.exists, pure_apply, Option.some.injEq, Prod.mk.injEq] at h
    obtain ⟨alternative, _, atAlternative, rfl, rfl⟩ := h
    rw [List.length_cons] at short
    obtain ⟨last, rfl, otherDerived, otherShallow, otherNearest, otherClosed⟩ := readsStatement (by omega) atAlternative
    have notOpen : consequent.isOpen = false := by
      rw [Bool.eq_false_iff]
      exact fun isOpen => closed isOpen rfl
    exact ⟨front ++ .fixed .thenKw :: middle ++ .fixed .elseKw :: last, by simp,
      by simpa using Statement.Derives.ifElse conditionDerived derived otherDerived,
      by simp only [Statement.nesting]; omega, ⟨notOpen, nearest, otherNearest⟩, otherClosed⟩
  · obtain ⟨rfl, rfl⟩ : .ifThen condition consequent = s ∧ vs = rest := by simpa using h
    exact ⟨front ++ .fixed .thenKw :: middle, by simp, by simpa using Statement.Derives.ifThen conditionDerived derived,
      by simp only [Statement.nesting]; omega, nearest, fun _ => noElse⟩

theorem whileLoop_sound {tokens rest : List Token} {s : Statement} (short : tokens.length < bound)
    (h : whileLoop bound unary statement tokens = some (s, rest)) :
    ∃ front, tokens = front ++ rest ∧ Statement.Derives .single (.fixed .whileKw :: front) s ∧
      s.nesting ≤ depth + 1 ∧ s.NearestElse ∧ (s.isOpen = true → (currentToken rest).kind ≠ .fixed .elseKw) := by
  simp only [whileLoop, bind_apply, Option.bind_eq_some_iff, Prod.exists, pure_apply, Option.some.injEq,
    Prod.mk.injEq] at h
  obtain ⟨condition, _, atCondition, _, ts, atDo, body, _, atBody, rfl, rfl⟩ := h
  obtain ⟨front, rfl, conditionDerived, conditionShallow⟩ := condition_sound reads short atCondition
  obtain ⟨t, rfl, spelled⟩ := require_eq_some atDo
  obtain rfl := Token.eq_fixed_of_kind spelled (by decide)
  rw [List.length_append, List.length_cons] at short
  obtain ⟨last, rfl, derived, shallow, nearest, closed⟩ := readsStatement (by omega) atBody
  exact ⟨front ++ .fixed .doKw :: last, by simp, by simpa using Statement.Derives.whileDo conditionDerived derived,
    by simp only [Statement.nesting]; omega, nearest, closed⟩

theorem repeatLoop_sound {tokens rest : List Token} {s : Statement} (short : tokens.length < bound)
    (h : repeatLoop bound unary statement tokens = some (s, rest)) :
    ∃ front, tokens = front ++ rest ∧ Statement.Derives .single (.fixed .repeatKw :: front) s ∧
      s.nesting ≤ depth + 1 ∧ s.NearestElse ∧ s.isOpen = false := by
  simp only [repeatLoop, bind_apply, Option.bind_eq_some_iff, Prod.exists, pure_apply, Option.some.injEq,
    Prod.mk.injEq] at h
  obtain ⟨body, _, atBody, _, ts, atUntil, condition, _, atCondition, rfl, rfl⟩ := h
  obtain ⟨front, rfl, derived, shallow, nearest, -⟩ := readsStatement short atBody
  obtain ⟨t, rfl, spelled⟩ := require_eq_some atUntil
  obtain rfl := Token.eq_fixed_of_kind spelled (by decide)
  rw [List.length_append, List.length_cons] at short
  obtain ⟨last, rfl, conditionDerived, conditionShallow⟩ := condition_sound reads (by omega) atCondition
  exact ⟨front ++ .fixed .untilKw :: last, by simp,
    by simpa using Statement.Derives.repeatUntil derived conditionDerived,
    by simp only [Statement.nesting]; omega, nearest, rfl⟩

end Statements

theorem statement_sound : ReadsStatement bound depth (statement bound depth) := by
  induction depth with
  | zero =>
    intro tokens s rest short h
    simp [statement, fail] at h
  | succ depth ih =>
    intro tokens s rest short h
    unfold statement at h
    split at h
    · rw [List.length_cons] at short
      obtain ⟨front, rfl, derived, shallow, nearest, closed⟩ := named_sound unary_sound (by omega) h
      exact ⟨_ :: front, rfl, derived, shallow, nearest, by simp [closed]⟩
    · simp only [compound, bind_apply, Option.bind_eq_some_iff, Prod.exists, pure_apply, Option.some.injEq,
        Prod.mk.injEq] at h
      obtain ⟨body, _, atBody, rfl, rfl⟩ := h
      rw [List.length_cons] at short
      obtain ⟨front, rfl, derived, shallow, nearest⟩ := series_sound ih (by omega) (by omega) atBody
      exact ⟨_, by simp, .compound derived, by simpa [Statement.nesting] using shallow, nearest,
        by simp [Statement.isOpen]⟩
    · rw [List.length_cons] at short
      obtain ⟨front, rfl, all⟩ := conditional_sound unary_sound ih (by omega) h
      exact ⟨_ :: front, rfl, all⟩
    · rw [List.length_cons] at short
      obtain ⟨front, rfl, all⟩ := whileLoop_sound unary_sound ih (by omega) h
      exact ⟨_ :: front, rfl, all⟩
    · rw [List.length_cons] at short
      obtain ⟨front, rfl, derived, shallow, nearest, closed⟩ := repeatLoop_sound unary_sound ih (by omega) h
      exact ⟨_ :: front, rfl, derived, shallow, nearest, by simp [closed]⟩
    · obtain ⟨rfl, rfl⟩ : .empty = s ∧ tokens = rest := by simpa using h
      exact ⟨[], rfl, .empty, by simp [Statement.nesting], trivial, by simp [Statement.isOpen]⟩

theorem constant_sound : Reads bound constant DerivesConstant := by
  intro tokens c rest short h
  simp only [constant, bind_apply, Option.bind_eq_some_iff, Prod.exists, pure_apply, Option.some.injEq,
    Prod.mk.injEq] at h
  obtain ⟨name, ts, atName, _, us, atEqual, value, _, atValue, rfl, rfl⟩ := h
  obtain rfl := identifier_eq_some atName
  obtain ⟨t, rfl, spelled⟩ := require_eq_some atEqual
  obtain rfl := integer_eq_some atValue
  exact ⟨[_, t, _], rfl, .mk spelled⟩

theorem identifier_sound : Reads bound identifier fun ts name => ts = [.identifier name] := by
  intro tokens name rest short h
  exact ⟨[_], identifier_eq_some h, rfl⟩

theorem declarations_sound {α : Type} {keyword : FixedKind} {item : Parser α} {related : List Token → α → Prop}
    (spelled : keyword ≠ .eq ∧ keyword ≠ .ne) (reads : Reads bound item related) :
    Reads bound (declarations bound keyword item) fun ts values =>
      ∃ items : List (List Token × α), ts = declarationPart keyword (items.map (·.1)) ∧ values = items.map (·.2) ∧
        ∀ i ∈ items, related i.1 i.2 := by
  intro tokens values rest short h
  simp only [declarations, bind_apply, Option.bind_eq_some_iff, Prod.exists, ite_apply] at h
  obtain ⟨present, ts, atKeyword, h⟩ := h
  rcases accept_eq_some atKeyword with ⟨rfl, t, rfl, kind⟩ | ⟨rfl, rfl, -⟩
  · obtain rfl := Token.eq_fixed_of_kind kind spelled
    simp only [if_true, Option.bind_eq_some_iff, Prod.exists, pure_apply, Option.some.injEq, Prod.mk.injEq] at h
    obtain ⟨_, behind, atItems, _, _, atEnd, rfl, rfl⟩ := h
    rw [List.length_cons] at short
    obtain ⟨items, nonempty, rfl, rfl, all⟩ := listed_sound reads (by omega) (by omega) atItems
    obtain ⟨t, rfl, kind⟩ := require_eq_some atEnd
    obtain rfl := Token.eq_fixed_of_kind kind (by decide)
    exact ⟨.fixed keyword :: commaList (items.map (·.1)) ++ [.fixed .semicolon], by simp, items,
      by simp [declarationPart, nonempty], rfl, all⟩
  · obtain ⟨rfl, rfl⟩ : [] = values ∧ ts = rest := by simpa using h
    exact ⟨[], rfl, [], by simp [declarationPart]⟩

theorem map_eq_of_forall_eq {items : List (List Token × String)} (all : ∀ i ∈ items, i.1 = [.identifier i.2]) :
    items.map (·.1) = (items.map (·.2)).map fun name => [.identifier name] := by
  simpa using all

theorem parameters_sound : Reads bound (parameters bound) fun ts names =>
    ts = commaList (names.map fun name => [.identifier name]) ++ [.fixed .rparen] := by
  intro tokens names rest short h
  simp only [parameters, parameterNames, bind_apply, Option.bind_eq_some_iff, Prod.exists, pure_apply, ite_apply,
    seesIdentifier, Option.some.injEq, Prod.mk.injEq] at h
  obtain ⟨_, behind, ⟨_, _, ⟨rfl, rfl⟩, atNames⟩, _, _, atEnd, rfl, rfl⟩ := h
  obtain ⟨t, rfl, spelled⟩ := require_eq_some atEnd
  obtain rfl := Token.eq_fixed_of_kind spelled (by decide)
  split at atNames
  · obtain ⟨items, _, rfl, rfl, all⟩ := listed_sound identifier_sound short short atNames
    exact ⟨commaList (items.map (·.1)) ++ [.fixed .rparen], by simp, by rw [map_eq_of_forall_eq all]⟩
  · simp only [Option.some.injEq, Prod.mk.injEq] at atNames
    obtain ⟨rfl, rfl⟩ := atNames
    exact ⟨[.fixed .rparen], rfl, by simp [commaList]⟩

/-- Blocks that nest at most so deep, every `else` with the nearest `if`. -/
def ReadsBlock (bound depth : Nat) (p : Parser Block) : Prop :=
  Reads bound p fun ts block => Block.Derives ts block ∧ block.nesting ≤ depth ∧ block.NearestElse

section Blocks

variable {block : Parser Block} (reads : ReadsBlock bound depth block)
include reads

theorem subroutine_sound {kind : Routine} : Reads bound (subroutine bound block kind) fun ts s =>
    ∃ front, .fixed kind.keyword :: ts = s.1.tokens ++ front ++ [.fixed .semicolon] ∧ Block.Derives front s.2 ∧
      s.2.nesting ≤ depth ∧ s.2.NearestElse := by
  intro tokens s rest short h
  simp only [subroutine, bind_apply, Option.bind_eq_some_iff, Prod.exists, pure_apply, Option.some.injEq,
    Prod.mk.injEq] at h
  obtain ⟨name, ts, atName, _, us, atOpen, names, vs, atNames, body, ws, atBlock, _, _, atEnd, rfl, rfl⟩ := h
  obtain rfl := identifier_eq_some atName
  obtain ⟨t, rfl, spelled⟩ := require_eq_some atOpen
  obtain rfl := Token.eq_fixed_of_kind spelled (by decide)
  simp only [List.length_cons] at short
  obtain ⟨_, rfl, rfl⟩ := parameters_sound (by omega) atNames
  rw [List.length_append] at short
  obtain ⟨front, rfl, all⟩ := reads (by omega) atBlock
  obtain ⟨t, rfl, spelled⟩ := require_eq_some atEnd
  obtain rfl := Token.eq_fixed_of_kind spelled (by decide)
  exact ⟨.identifier name :: .fixed .lparen :: (commaList (names.map fun name => [.identifier name]) ++
    [.fixed .rparen] ++ front ++ [.fixed .semicolon]), by simp, front, by simp [Heading.tokens], all⟩

theorem subroutines_sound {rounds : Nat} {tokens rest : List Token} {values : List (Heading × Block)}
    (short : tokens.length < bound) (h : subroutines bound block rounds tokens = some (values, rest)) :
    ∃ items : List (List Token × Heading × Block),
      tokens = subroutinePart items ++ rest ∧
        values = items.map (·.2) ∧
        ∀ s ∈ items, Block.Derives s.1 s.2.2 ∧ s.2.2.nesting ≤ depth ∧ s.2.2.NearestElse := by
  induction rounds generalizing tokens values with
  | zero =>
    obtain ⟨rfl, rfl⟩ : [] = values ∧ tokens = rest := by simpa [subroutines] using h
    exact ⟨[], by simp⟩
  | succ rounds ih =>
    have goOn {kind : Routine} {ts : List Token} (short : (Token.fixed kind.keyword :: ts).length < bound)
        (h : ((subroutine bound block kind >>= fun first => subroutines bound block rounds >>= fun others =>
          pure (first :: others)) : Parser (List (Heading × Block))) ts = some (values, rest)) :
        ∃ items : List (List Token × Heading × Block),
          .fixed kind.keyword :: ts = subroutinePart items ++ rest ∧
            values = items.map (·.2) ∧
            ∀ s ∈ items, Block.Derives s.1 s.2.2 ∧ s.2.2.nesting ≤ depth ∧ s.2.2.NearestElse := by
      simp only [bind_apply, Option.bind_eq_some_iff, Prod.exists, pure_apply, Option.some.injEq, Prod.mk.injEq] at h
      obtain ⟨heading, body, behind, atFirst, others, _, atRest, rfl, rfl⟩ := h
      rw [List.length_cons] at short
      obtain ⟨front, rfl, inner, whole, all⟩ := subroutine_sound reads (by omega) atFirst
      rw [List.length_append] at short
      obtain ⟨items, rfl, rfl, others⟩ := ih (by omega) atRest
      refine ⟨(inner, heading, body) :: items, ?_, rfl, ?_⟩
      · rw [subroutinePart_cons, ← whole]
        simp
      · simpa [all] using others
    simp only [subroutines, bind_apply, Option.bind_eq_some_iff, Prod.exists, ite_apply] at h
    obtain ⟨isProcedure, ts, atProcedure, h⟩ := h
    rcases accept_eq_some atProcedure with ⟨rfl, t, rfl, spelled⟩ | ⟨rfl, rfl, -⟩
    · obtain rfl := Token.eq_fixed_of_kind spelled (by decide)
      exact @goOn .procedure _ short (by simpa using h)
    · simp only [if_false, Bool.false_eq_true, Option.bind_eq_some_iff, Prod.exists] at h
      obtain ⟨isFunction, ts, atFunction, h⟩ := h
      rcases accept_eq_some atFunction with ⟨rfl, t, rfl, spelled⟩ | ⟨rfl, rfl, -⟩
      · obtain rfl := Token.eq_fixed_of_kind spelled (by decide)
        exact @goOn .function _ short (by simpa using h)
      · obtain ⟨rfl, rfl⟩ : [] = values ∧ ts = rest := by simpa using h
        exact ⟨[], by simp⟩

end Blocks

theorem block_sound : ReadsBlock bound depth (block bound depth) := by
  induction depth with
  | zero =>
    intro tokens b rest short h
    simp [block, fail] at h
  | succ depth ih =>
    intro tokens b rest short h
    simp only [block, bind_apply, Option.bind_eq_some_iff, Prod.exists, pure_apply, Option.some.injEq,
      Prod.mk.injEq] at h
    obtain ⟨constants, ts, atConstants, vars, us, atVariables, subs, vs, atSubs, body, _, atBody, rfl, rfl⟩ := h
    obtain ⟨_, rfl, items, rfl, rfl, allConstants⟩ := declarations_sound (by decide) constant_sound short atConstants
    rw [List.length_append] at short
    obtain ⟨_, rfl, names, rfl, rfl, allNames⟩ :=
      declarations_sound (by decide) identifier_sound (by omega) atVariables
    rw [List.length_append] at short
    obtain ⟨blocks, rfl, rfl, allBlocks⟩ := subroutines_sound ih (by omega) atSubs
    rw [List.length_append] at short
    obtain ⟨front, rfl, derived, shallow, nearest, -⟩ := statement_sound (by omega) atBody
    refine ⟨_, by simp only [← List.append_assoc]; rfl, ?_, ?_, ?_⟩
    · rw [map_eq_of_forall_eq allNames]
      exact .mk allConstants (fun s hs => (allBlocks s hs).1) derived
    · have all : Block.greatestNesting (blocks.map (·.2)) ≤ depth := by
        rw [Block.greatestNesting_le]
        simpa using fun heading block ts hs => (allBlocks (ts, heading, block) hs).2.1
      simp only [Block.nesting]
      omega
    · refine .mk ?_ nearest
      simpa using fun heading block ts hs => (allBlocks (ts, heading, block) hs).2.2

theorem program_sound : Reads bound (program bound depth) fun ts block =>
    block.DerivesProgram ts ∧ block.nesting ≤ depth ∧ block.NearestElse := by
  intro tokens b rest short h
  simp only [program, bind_apply, Option.bind_eq_some_iff, Prod.exists, pure_apply, Option.some.injEq,
    Prod.mk.injEq] at h
  obtain ⟨_, ts, atBlock, _, _, atEnd, rfl, rfl⟩ := h
  obtain ⟨front, rfl, derived, all⟩ := block_sound short atBlock
  obtain ⟨t, rfl, spelled⟩ := require_eq_some atEnd
  obtain rfl := Token.eq_fixed_of_kind spelled (by decide)
  exact ⟨front ++ [.fixed .period], by simp, ⟨front, derived, rfl⟩, all⟩

end Parser

/-- What the parser accepts the grammar derives, and the tree nests no deeper than it may. -/
theorem Parser.derives_of_program {depth : Nat} {tokens : List Token} {block : Block}
    (h : program (tokens.length + 1) depth tokens = some (block, [])) :
    block.DerivesProgram tokens ∧ block.nesting ≤ depth ∧ block.NearestElse := by
  obtain ⟨front, rfl, all⟩ := program_sound (by omega) h
  simpa using all

theorem program_of_parse {tokens : List Token} {block : Block} (h : parse tokens = some block) :
    Parser.program (tokens.length + 1) (tokens.length + 1) tokens = some (block, []) := by
  unfold parse at h
  split at h
  · rename_i found atProgram
    obtain rfl : found = block := by simpa using h
    exact atProgram
  · simp at h

theorem derives_of_parse {tokens : List Token} {block : Block} (h : parse tokens = some block) :
    block.DerivesProgram tokens ∧ block.NearestElse := by
  obtain ⟨derived, -, nearest⟩ := Parser.derives_of_program (program_of_parse h)
  exact ⟨derived, nearest⟩

end PLZero
