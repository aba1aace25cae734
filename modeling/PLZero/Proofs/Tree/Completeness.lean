import PLZero.Proofs.Tree.Soundness

namespace PLZero

/-- The operators that may follow one another at a level, as the parser looks them up. -/
def Level.operator : Level → FixedKind → Option BinaryOp
  | condition => Grammar.disjunctive
  | conjunction => Grammar.conjunctive
  | expression => Grammar.adding
  | term => Grammar.multiplying
  | relation | unary | factor => fun _ => none

theorem Joins.operator_eq {level : Level} {kind : FixedKind} {op : BinaryOp} (h : Joins level kind op) :
    level.operator kind = some op := by
  cases h <;> rfl

theorem Compares.relational_eq {kind : FixedKind} {op : BinaryOp} (h : Compares kind op) :
    Grammar.relational kind = some op := by
  cases h <;> rfl

/-- The place of a level among them all, the loosest first. What follows a factor is settled for its prefixes too. -/
def Level.rank : Level → Nat
  | condition => 0
  | conjunction => 1
  | relation => 2
  | expression => 3
  | term => 4
  | unary | factor => 5

/-- The tightest level whose phrases a token of the kind can go on with. -/
def FixedKind.level? : FixedKind → Option Level
  | or => some .condition
  | and => some .conjunction
  | eq | ne | lt | le | gt | ge => some .relation
  | plus | minus | pipe | caret => some .expression
  | star | slash | percent | ampersand | lshift | rshift => some .term
  | lparen => some .factor
  | _ => none

/-- A phrase of the level ends where these tokens begin. -/
def Level.EndsBefore (level : Level) (tokens : List Token) : Prop :=
  ∀ ⦃kind looser⦄, (currentToken tokens).kind = .fixed kind → kind.level? = some looser → looser.rank < level.rank

/-- Whether a phrase of the level may begin with a token of the kind. -/
def Level.starts : Level → TokenKind → Bool
  | _, .identifier | _, .integer | _, .fixed .lparen => true
  | level, .fixed .not | level, .fixed .tilde => level ≠ .factor
  | level, .fixed .plus | level, .fixed .minus => level ∈ [Level.condition, .conjunction, .relation, .expression]
  | level, .fixed .oddKw => level ∈ [Level.condition, .conjunction, .relation]
  | _, _ => false

theorem Level.starts_of_operand {level : Level} {kind : TokenKind} (h : level.operand.starts kind) :
    level.starts kind := by
  cases level <;> cases kind <;> try exact h
  all_goals
    rename_i kind
    cases kind <;> simp_all [Level.starts, Level.operand]

theorem Expression.Derives.starts {level : Level} {tokens : List Token} {e : Expression}
    (h : Expression.Derives level tokens e) : ∃ t rest, tokens = t :: rest ∧ level.starts t.kind := by
  induction h with
  | single _ _ ih =>
    obtain ⟨t, rest, rfl, starts⟩ := ih
    exact ⟨t, rest, rfl, Level.starts_of_operand starts⟩
  | joined _ _ _ _ ih _ =>
    obtain ⟨t, rest, rfl, starts⟩ := ih
    exact ⟨t, _, rfl, starts⟩
  | compared _ _ _ _ ih _ =>
    obtain ⟨t, rest, rfl, starts⟩ := ih
    exact ⟨t, _, rfl, @Level.starts_of_operand .relation _ starts⟩
  | odd | plus | minus | not | complement | name | call | number | group => exact ⟨_, _, rfl, rfl⟩

theorem Level.rank_le_operand (level : Level) : level.rank ≤ level.operand.rank := by
  cases level <;> decide

theorem Level.EndsBefore.operand {level : Level} {tokens : List Token} (h : level.EndsBefore tokens) :
    level.operand.EndsBefore tokens :=
  fun _ _ atKind itsLevel => Nat.lt_of_lt_of_le (h atKind itsLevel) level.rank_le_operand

theorem Level.level?_of_operator {level : Level} {kind : FixedKind} {op : BinaryOp}
    (h : level.operator kind = some op) : kind.level? = some level := by
  cases level <;> cases kind <;> first | rfl | cases h

theorem level?_of_relational {kind : FixedKind} {op : BinaryOp} (h : Grammar.relational kind = some op) :
    kind.level? = some .relation := by
  cases kind <;> first | rfl | cases h

theorem Joins.rank_lt {level : Level} {kind : FixedKind} {op : BinaryOp} (h : Joins level kind op) :
    level.rank < level.operand.rank := by
  cases h <;> decide

/-- Behind an operand, an operator of the level ends it. -/
theorem Joins.endsBefore {level : Level} {kind : FixedKind} {op : BinaryOp} {t : Token} {rest : List Token}
    (h : Joins level kind op) (spelled : t.kind = .fixed kind) : level.operand.EndsBefore (t :: rest) := by
  intro kind' looser atKind itsLevel
  obtain rfl : kind = kind' := by simpa [spelled] using atKind
  obtain rfl : level = looser := by simpa [Level.level?_of_operator h.operator_eq] using itsLevel
  exact h.rank_lt

theorem Compares.endsBefore {kind : FixedKind} {op : BinaryOp} {t : Token} {rest : List Token}
    (h : Compares kind op) (spelled : t.kind = .fixed kind) : Level.expression.EndsBefore (t :: rest) := by
  intro kind' looser atKind itsLevel
  obtain rfl : kind = kind' := by simpa [spelled] using atKind
  obtain rfl : .relation = looser := by simpa [level?_of_relational h.relational_eq] using itsLevel
  decide

theorem Level.EndsBefore.of_level? {level : Level} {kind : FixedKind} {rest : List Token}
    (h : kind.level? = none) : level.EndsBefore (.fixed kind :: rest) := by
  intro kind' looser atKind itsLevel
  obtain rfl : kind = kind' := by simpa [Token.kind] using atKind
  simp [h] at itsLevel

theorem Level.EndsBefore.operatorOf_eq_none {level : Level} {tokens : List Token} (h : level.EndsBefore tokens) :
    operatorOf level.operator (currentToken tokens) = none := by
  rw [Option.eq_none_iff_forall_ne_some]
  intro op found
  obtain ⟨kind, atKind, isOp⟩ := exists_of_operatorOf found
  exact absurd (h atKind (Level.level?_of_operator isOp)) (Nat.lt_irrefl _)

theorem Level.EndsBefore.relational_eq_none {tokens : List Token} (h : Level.relation.EndsBefore tokens) :
    operatorOf Grammar.relational (currentToken tokens) = none := by
  rw [Option.eq_none_iff_forall_ne_some]
  intro op found
  obtain ⟨kind, atKind, isOp⟩ := exists_of_operatorOf found
  exact absurd (h atKind (level?_of_relational isOp)) (Nat.lt_irrefl _)

/-- A name goes on as a call only with arguments. -/
theorem Level.EndsBefore.not_lparen {level : Level} {tokens : List Token} (h : level.EndsBefore tokens) :
    (currentToken tokens).kind ≠ .fixed .lparen := by
  intro atParen
  have impossible := h atParen rfl
  cases level <;> exact absurd impossible (by decide)

namespace Parser

variable {bound depth : Nat}

/-- The parser of a level for expressions that nest at most so deep. -/
def phrase (bound depth : Nat) : Level → Parser Expression
  | .condition => condition bound (unary bound depth)
  | .conjunction => conjunction bound (unary bound depth)
  | .relation => relation bound (unary bound depth)
  | .expression => expression bound (unary bound depth)
  | .term => term bound (unary bound depth)
  | .unary => unary bound depth
  | .factor =>
    match depth with
    | 0 => fail
    | depth + 1 => factor bound (unary bound depth)

theorem operatorOf_eq {Op : Type} {operator : FixedKind → Option Op} {t : Token} {kind : FixedKind}
    (h : t.kind = .fixed kind) : operatorOf operator t = operator kind := by
  simp [operatorOf, h]

theorem acceptOperator_of_none {Op : Type} {operator : FixedKind → Option Op} {tokens : List Token}
    (h : operatorOf operator (currentToken tokens) = none) : acceptOperator operator tokens = some (none, tokens) := by
  simp [acceptOperator, h]

theorem acceptOperator_of_some {Op : Type} {operator : FixedKind → Option Op} {t : Token} {rest : List Token} {op : Op}
    (h : operatorOf operator t = some op) : acceptOperator operator (t :: rest) = some (some op, rest) := by
  simp [acceptOperator, h]

theorem accept_of_kind_ne {tokens : List Token} {kind : FixedKind} (h : (currentToken tokens).kind ≠ .fixed kind) :
    accept kind tokens = some (false, tokens) := by
  simp [accept, h]

@[simp] theorem require_fixed {kind : FixedKind} {rest : List Token} :
    require kind (.fixed kind :: rest) = some ((), rest) := by
  simp [require, Token.kind]

@[simp] theorem accept_fixed {kind : FixedKind} {rest : List Token} :
    accept kind (.fixed kind :: rest) = some (true, rest) := by
  simp [accept, Token.kind]

theorem operations_of_none {operator : FixedKind → Option BinaryOp} {operand : Parser Expression} {rounds : Nat}
    {left : Expression} {tokens : List Token} (h : operatorOf operator (currentToken tokens) = none) :
    operations operator operand rounds left tokens = some (left, tokens) := by
  cases rounds <;> simp [operations, acceptOperator_of_none, h]

/-- The parser of a level comes to its operators with the expression on their left. The rounds left over are as many as
the tokens behind can take. -/
def Arrives (bound depth : Nat) (level : Level) (ts : List Token) (e : Expression) (rest : List Token) : Prop :=
  ∃ rounds, bound ≤ rounds + ts.length ∧
    phrase bound depth level (ts ++ rest) =
      operations level.operator (phrase bound depth level.operand) rounds e rest

/-- The parser reads the expression in front of any tokens that cannot go on with it, and where operators may follow
one another also in front of those. -/
def Completes (bound : Nat) (level : Level) (ts : List Token) (e : Expression) : Prop :=
  ∀ ⦃depth rest⦄, e.nesting ≤ depth → (ts ++ rest).length < bound →
    (if level = .relation then level else level.operand).EndsBefore rest → Arrives bound depth level ts e rest

theorem Completes.phrase_eq {level : Level} {ts rest : List Token} {e : Expression} (h : Completes bound level ts e)
    (shallow : e.nesting ≤ depth) (short : (ts ++ rest).length < bound) (ends : level.EndsBefore rest) :
    phrase bound depth level (ts ++ rest) = some (e, rest) := by
  have seam : (if level = .relation then level else level.operand).EndsBefore rest := by
    split
    · exact ends
    · exact ends.operand
  obtain ⟨rounds, -, same⟩ := h shallow short seam
  rw [same, operations_of_none ends.operatorOf_eq_none]

/-- Where no operators follow one another, it is enough to read the expression. -/
theorem Arrives.of_phrase_eq {level : Level} {ts rest : List Token} {e : Expression}
    (noOperator : level.operator = fun _ => none) (h : phrase bound depth level (ts ++ rest) = some (e, rest)) :
    Arrives bound depth level ts e rest := by
  refine ⟨bound, Nat.le_add_right _ _, ?_⟩
  rw [h, operations_of_none]
  rw [noOperator]
  unfold operatorOf
  split <;> rfl

theorem listed_complete {α : Type} {item : Parser α} {items : List (List Token × α)} {rest : List Token} {rounds : Nat}
    (nonempty : items ≠ []) (enough : items.length ≤ rounds)
    (short : (commaList (items.map (·.1)) ++ rest).length < bound)
    (reads : ∀ i ∈ items, ∀ {after}, after = rest ∨ (∃ others, after = .fixed .comma :: others) →
      (i.1 ++ after).length < bound → item (i.1 ++ after) = some (i.2, after))
    (ends : (currentToken rest).kind ≠ .fixed .comma) :
    listed item rounds (commaList (items.map (·.1)) ++ rest) = some (items.map (·.2), rest) := by
  induction items generalizing rounds with
  | nil => exact absurd rfl nonempty
  | cons first others ih =>
    obtain ⟨rounds, rfl⟩ : ∃ n, rounds = n + 1 := Nat.exists_eq_succ_of_ne_zero (by simp at enough; omega)
    by_cases last : others = []
    · subst last
      have atItem := reads first (by simp) (.inl rfl) (by simpa [commaList] using short)
      simp [listed, commaList, atItem, accept_of_kind_ne ends]
    · rw [List.map_cons, commaList_cons (by simpa using last), List.append_assoc, List.cons_append] at short ⊢
      have atItem := reads first (by simp) (.inr ⟨_, rfl⟩) short
      have atRest := @ih rounds last (by simpa using enough)
        (by simp only [List.length_append, List.length_cons] at short ⊢; omega)
        (fun i hi => reads i (List.mem_cons_of_mem _ hi))
      simp [listed, atItem, atRest]

theorem length_le_commaList (items : List (List Token)) : items.length ≤ (commaList items).length + 1 := by
  induction items with
  | nil => simp
  | cons first others ih =>
    by_cases last : others = []
    · simp [last]
    · rw [commaList_cons last]
      simp only [List.length_append, List.length_cons] at ih ⊢
      omega

theorem currentToken_commaList {first : List Token} {others : List (List Token)} {t : Token} {rest after : List Token}
    (h : first = t :: rest) : currentToken (commaList (first :: others) ++ after) = t := by
  subst h
  cases others <;> rfl

theorem arguments_complete {items : List (List Token × Expression)} {rest : List Token}
    (derived : ∀ a ∈ items, Expression.Derives .expression a.1 a.2)
    (completes : ∀ a ∈ items, Completes bound .expression a.1 a.2)
    (shallow : Expression.greatestNesting (items.map (·.2)) ≤ depth)
    (short : (commaList (items.map (·.1)) ++ .fixed .rparen :: rest).length < bound) :
    arguments bound (unary bound depth) (commaList (items.map (·.1)) ++ .fixed .rparen :: rest) =
      some (items.map (·.2), rest) := by
  by_cases none : items = []
  · simp [none, arguments, commaList]
  · have atItems : listed (phrase bound depth .expression) bound
        (commaList (items.map (·.1)) ++ .fixed .rparen :: rest) = some (items.map (·.2), .fixed .rparen :: rest) := by
      refine listed_complete none ?_ short ?_ (by simp [Token.kind])
      · have few := length_le_commaList (items.map (·.1))
        simp only [List.length_map, List.length_append, List.length_cons] at few short ⊢
        omega
      · intro a ha after follows short
        rw [Expression.greatestNesting_le] at shallow
        refine Completes.phrase_eq (completes a ha) (shallow _ (List.mem_map_of_mem ha)) short ?_
        rcases follows with rfl | ⟨others, rfl⟩ <;> exact Level.EndsBefore.of_level? rfl
    have notClosed : (currentToken (commaList (items.map (·.1)) ++ .fixed .rparen :: rest)).kind ≠ .fixed .rparen := by
      obtain ⟨first, others, rfl⟩ := List.exists_cons_of_ne_nil none
      obtain ⟨t, ts, spelled, starts⟩ := (derived first (by simp)).starts
      rw [List.map_cons, currentToken_commaList spelled]
      intro closed
      simp [closed, Level.starts] at starts
    simp only [phrase] at atItems
    simp [arguments, accept_of_kind_ne notClosed, atItems]

theorem accept_of_starts {level : Level} {ts rest : List Token} {kind : FixedKind} {e : Expression}
    (h : Expression.Derives level ts e) (other : level.starts (.fixed kind) = false) :
    accept kind (ts ++ rest) = some (false, ts ++ rest) := by
  obtain ⟨t, us, rfl, starts⟩ := h.starts
  refine accept_of_kind_ne fun atKind => ?_
  rw [List.cons_append, currentToken_cons] at atKind
  simp [atKind, other] at starts

theorem phrase_eq_leftAssociative {level : Level} (h : level ∈ [Level.condition, .conjunction, .term]) :
    phrase bound depth level = leftAssociative bound level.operator (phrase bound depth level.operand) := by
  simp only [List.mem_cons, List.not_mem_nil, or_false] at h
  rcases h with rfl | rfl | rfl <;> rfl

theorem acceptOperator_of_starts {ts rest : List Token} {e : Expression} (h : Expression.Derives .factor ts e) :
    acceptOperator Grammar.complementing (ts ++ rest) = some (none, ts ++ rest) := by
  obtain ⟨t, us, rfl, starts⟩ := h.starts
  refine acceptOperator_of_none ?_
  rw [List.cons_append, currentToken_cons, operatorOf]
  split
  · rename_i kind spelled
    rw [spelled] at starts
    cases kind <;> simp_all [Level.starts, Grammar.complementing]
  · rfl

theorem Completes.single {level : Level} {ts : List Token} {e : Expression} (notFactor : level ≠ .factor)
    (derived : Expression.Derives level.operand ts e) (h : Completes bound level.operand ts e) :
    Completes bound level ts e := by
  intro depth rest shallow short seam
  have reads : level.operand.EndsBefore rest → phrase bound depth level.operand (ts ++ rest) = some (e, rest) :=
    h.phrase_eq shallow short
  cases level with
  | factor => exact absurd rfl notFactor
  | condition | conjunction | term =>
    have atOperand := reads seam
    refine ⟨bound, Nat.le_add_right _ _, ?_⟩
    rw [phrase_eq_leftAssociative (by decide)]
    simp [leftAssociative, atOperand]
  | relation =>
    have atOperand := reads seam.operand
    have noOdd : accept .oddKw (ts ++ rest) = some (false, ts ++ rest) := accept_of_starts derived rfl
    refine .of_phrase_eq rfl ?_
    simp only [phrase, Level.operand] at atOperand ⊢
    simp [relation, noOdd, atOperand, acceptOperator_of_none seam.relational_eq_none]
  | expression =>
    have atOperand := reads seam
    have noMinus : accept .minus (ts ++ rest) = some (false, ts ++ rest) := accept_of_starts derived rfl
    have noPlus : accept .plus (ts ++ rest) = some (false, ts ++ rest) := accept_of_starts derived rfl
    refine ⟨bound, Nat.le_add_right _ _, ?_⟩
    simp only [phrase, Level.operand, Level.operator] at atOperand ⊢
    simp [expression, noMinus, noPlus, atOperand]
  | unary =>
    have atOperand := reads seam
    refine .of_phrase_eq rfl ?_
    cases depth with
    | zero => simp [phrase, Level.operand, fail] at atOperand
    | succ depth =>
      simp only [phrase, Level.operand] at atOperand ⊢
      simp [unary, acceptOperator_of_starts derived, atOperand]

theorem Completes.joined {level : Level} {kind : FixedKind} {op : BinaryOp} {ts us : List Token} {t : Token}
    {a b : Expression} (joins : Joins level kind op) (spelled : t.kind = .fixed kind) (left : Completes bound level ts a)
    (right : Completes bound level.operand us b) : Completes bound level (ts ++ t :: us) (.binary op a b) := by
  intro depth rest shallow short seam
  rw [Expression.nesting, Nat.max_le] at shallow
  have notRelation : level ≠ .relation := by
    rintro rfl
    cases joins
  rw [if_neg notRelation] at seam
  simp only [List.append_assoc, List.cons_append, List.length_append, List.length_cons] at short
  obtain ⟨rounds, enough, same⟩ := @left _ (t :: us ++ rest) shallow.1 (by simp; omega)
    (by rw [if_neg notRelation]; exact joins.endsBefore spelled)
  have atRight : phrase bound depth level.operand (us ++ rest) = some (b, rest) :=
    right.phrase_eq shallow.2 (by simp; omega) seam
  obtain ⟨rounds, rfl⟩ : ∃ n, rounds = n + 1 := Nat.exists_eq_succ_of_ne_zero (by omega)
  refine ⟨rounds, by simp only [List.length_append, List.length_cons]; omega, ?_⟩
  have isOp : operatorOf level.operator t = some op := (operatorOf_eq spelled).trans joins.operator_eq
  rw [List.append_assoc, same]
  simp [operations, acceptOperator_of_some isOp, atRight]

theorem Completes.compared {kind : FixedKind} {op : BinaryOp} {ts us : List Token} {t : Token} {a b : Expression}
    (compares : Compares kind op) (spelled : t.kind = .fixed kind) (derived : Expression.Derives .expression ts a)
    (left : Completes bound .expression ts a) (right : Completes bound .expression us b) :
    Completes bound .relation (ts ++ t :: us) (.binary op a b) := by
  intro depth rest shallow short seam
  rw [Expression.nesting, Nat.max_le] at shallow
  rw [List.append_assoc, List.cons_append, List.length_append, List.length_cons] at short
  have atLeft : phrase bound depth .expression (ts ++ t :: (us ++ rest)) = some (a, t :: (us ++ rest)) :=
    left.phrase_eq shallow.1 (by rw [List.length_append, List.length_cons]; omega) (compares.endsBefore spelled)
  have atRight := right.phrase_eq shallow.2 (by omega) seam.operand
  have noOdd : accept .oddKw (ts ++ t :: (us ++ rest)) = some (false, ts ++ t :: (us ++ rest)) :=
    accept_of_starts derived rfl
  have isOp : operatorOf Grammar.relational t = some op := (operatorOf_eq spelled).trans compares.relational_eq
  refine .of_phrase_eq rfl ?_
  simp only [phrase] at atLeft atRight ⊢
  simp [relation, noOdd, atLeft, acceptOperator_of_some isOp, atRight]

theorem Completes.odd {ts : List Token} {e : Expression} (h : Completes bound .expression ts e) :
    Completes bound .relation (.fixed .oddKw :: ts) (.odd e) := by
  intro depth rest shallow short seam
  rw [List.cons_append, List.length_cons] at short
  have atOperand := h.phrase_eq shallow (by omega) seam.operand
  refine .of_phrase_eq rfl ?_
  simp only [phrase] at atOperand ⊢
  simp [relation, atOperand]

theorem Completes.plus {ts : List Token} {e : Expression} (h : Completes bound .term ts e) :
    Completes bound .expression (.fixed .plus :: ts) e := by
  intro depth rest shallow short seam
  rw [List.cons_append, List.length_cons] at short
  have atOperand := h.phrase_eq shallow (by omega) seam
  have noMinus : accept .minus (.fixed .plus :: (ts ++ rest)) = some (false, .fixed .plus :: (ts ++ rest)) := rfl
  refine ⟨bound, Nat.le_add_right _ _, ?_⟩
  simp only [phrase, Level.operand, Level.operator] at atOperand ⊢
  simp [expression, noMinus, atOperand]

theorem Completes.minus {ts : List Token} {e : Expression} (h : Completes bound .term ts e) :
    Completes bound .expression (.fixed .minus :: ts) (.unary .neg e) := by
  intro depth rest shallow short seam
  rw [List.cons_append, List.length_cons] at short
  have atOperand := h.phrase_eq shallow (by omega) seam
  refine ⟨bound, Nat.le_add_right _ _, ?_⟩
  simp only [phrase, Level.operand, Level.operator] at atOperand ⊢
  simp [expression, atOperand]

theorem Completes.complementing {kind : FixedKind} {op : UnaryOp} {ts : List Token} {e : Expression}
    (isOp : Grammar.complementing kind = some op) (h : Completes bound .unary ts e) :
    Completes bound .unary (.fixed kind :: ts) (.unary op e) := by
  intro depth rest shallow short seam
  rw [List.cons_append, List.length_cons] at short
  have deeper : e.nesting + 1 ≤ depth := by
    cases kind <;> cases isOp <;> exact shallow
  obtain ⟨depth, rfl⟩ : ∃ n, depth = n + 1 := Nat.exists_eq_succ_of_ne_zero (by omega)
  have atOperand : phrase bound depth .unary (ts ++ rest) = some (e, rest) := h.phrase_eq (by omega) (by omega) seam
  refine .of_phrase_eq rfl ?_
  simp only [phrase] at atOperand ⊢
  simp [unary, acceptOperator_of_some (operatorOf_eq (t := .fixed kind) rfl |>.trans isOp), atOperand]

/-- A factor is read by the rule for factors, with expressions that nest less deep inside. -/
theorem Completes.of_factor {ts : List Token} {e : Expression} (positive : 1 ≤ e.nesting)
    (h : ∀ ⦃depth rest⦄, e.nesting ≤ depth + 1 → (ts ++ rest).length < bound → Level.factor.EndsBefore rest →
      factor bound (unary bound depth) (ts ++ rest) = some (e, rest)) : Completes bound .factor ts e := by
  intro depth rest shallow short seam
  obtain ⟨depth, rfl⟩ : ∃ n, depth = n + 1 := Nat.exists_eq_succ_of_ne_zero (by omega)
  exact .of_phrase_eq rfl (h shallow short seam)

/-- Every derivation is found by the parser. -/
theorem completes_of_derives {level : Level} {ts : List Token} {e : Expression} (h : Expression.Derives level ts e) :
    Completes bound level ts e := by
  induction h with
  | single notFactor derived ih => exact Completes.single notFactor derived ih
  | joined joins spelled _ _ left right => exact Completes.joined joins spelled left right
  | compared compares spelled derived _ left right => exact Completes.compared compares spelled derived left right
  | odd _ ih => exact Completes.odd ih
  | plus _ ih => exact Completes.plus ih
  | minus _ ih => exact Completes.minus ih
  | not _ ih => exact Completes.complementing rfl ih
  | complement _ ih => exact Completes.complementing rfl ih
  | name =>
    refine Completes.of_factor (by simp [Expression.nesting]) fun depth rest shallow short ends => ?_
    simp [factor, accept_of_kind_ne ends.not_lparen]
  | @call _ items derived ih =>
    refine Completes.of_factor (by simp [Expression.nesting]) fun depth rest shallow short ends => ?_
    simp only [List.cons_append, List.append_assoc, List.nil_append, List.length_cons] at short ⊢
    have atArguments : arguments bound (unary bound depth) (commaList (items.map (·.1)) ++ .fixed .rparen :: rest) =
        some (items.map (·.2), rest) :=
      arguments_complete derived ih (by simpa [Expression.nesting] using shallow) (by omega)
    simp [factor, atArguments]
  | number => exact Completes.of_factor (by simp [Expression.nesting]) fun _ _ _ _ _ => rfl
  | group _ ih =>
    refine Completes.of_factor (by simp [Expression.nesting]) fun depth rest shallow short ends => ?_
    simp only [List.cons_append, List.append_assoc, List.nil_append, List.length_cons] at short ⊢
    have ends : Level.condition.EndsBefore (.fixed .rparen :: rest) := Level.EndsBefore.of_level? rfl
    have atInner := Completes.phrase_eq ih (by simpa [Expression.nesting] using shallow) (by omega) ends
    simp only [phrase] at atInner
    simp [factor, atInner]

/-- No statement goes on where these tokens begin, except for an `else`. -/
def EndsStatement (tokens : List Token) : Prop :=
  (currentToken tokens).kind ∈ [.eof, .fixed .semicolon, .fixed .endKw, .fixed .untilKw, .fixed .elseKw, .fixed .period]

theorem EndsStatement.endsBefore {tokens : List Token} (h : EndsStatement tokens) {level : Level} :
    level.EndsBefore tokens := by
  intro kind looser atKind itsLevel
  rw [EndsStatement, atKind] at h
  cases kind <;> simp [FixedKind.level?] at h itsLevel

theorem statement_of_endsStatement {rest : List Token} (h : EndsStatement rest) :
    statement bound (depth + 1) rest = some (.empty, rest) := by
  cases rest with
  | nil => rfl
  | cons t rest =>
    cases t with
    | fixed kind => cases kind <;> first | rfl | simp [EndsStatement, Token.kind] at h
    | identifier => simp [EndsStatement, Token.kind] at h
    | _ => rfl

/-- The parser reads the statement in front of what may follow it, and statements in a row with the `end` behind. -/
def CompletesStatement (bound : Nat) (form : StatementForm) (ts : List Token) (s : Statement) : Prop :=
  ∀ ⦃depth rest⦄, s.nesting ≤ depth → s.NearestElse → (ts ++ rest).length < bound →
    match form with
    | .single =>
      EndsStatement rest → (s.isOpen = true → (currentToken rest).kind ≠ .fixed .elseKw) →
        statement bound depth (ts ++ rest) = some (s, rest)
    | .series => ∀ {rounds behind}, ts.length < rounds → rest = .fixed .endKw :: behind →
        series (statement bound depth) rounds (ts ++ rest) = some (s, behind)

/-- A single statement is read by a rule of its own, with statements that nest less deep inside. -/
theorem CompletesStatement.of_succ {ts : List Token} {s : Statement}
    (h : ∀ ⦃depth rest⦄, s.nesting ≤ depth + 1 → s.NearestElse → (ts ++ rest).length < bound → EndsStatement rest →
      (s.isOpen = true → (currentToken rest).kind ≠ .fixed .elseKw) →
        statement bound (depth + 1) (ts ++ rest) = some (s, rest)) : CompletesStatement bound .single ts s := by
  intro depth rest shallow nearest short ends closed
  have positive := s.nesting_pos
  obtain ⟨depth, rfl⟩ : ∃ n, depth = n + 1 := Nat.exists_eq_succ_of_ne_zero (by omega)
  exact h shallow nearest short ends closed

theorem condition_complete {cs rest : List Token} {e : Expression} (h : Expression.Derives .condition cs e)
    (shallow : e.nesting ≤ depth) (short : (cs ++ rest).length < bound) (ends : Level.condition.EndsBefore rest) :
    condition bound (unary bound depth) (cs ++ rest) = some (e, rest) :=
  (completes_of_derives h).phrase_eq shallow short ends

theorem CompletesStatement.assignment {target : String} {ts : List Token} {value : Expression}
    (derived : Expression.Derives .expression ts value) :
    CompletesStatement bound .single (.identifier target :: .fixed .assign :: ts) (.assignment target value) := by
  refine CompletesStatement.of_succ fun depth rest shallow _ short ends _ => ?_
  simp only [List.cons_append, List.length_cons, Statement.nesting] at short shallow ⊢
  have atValue : expression bound (unary bound depth) (ts ++ rest) = some (value, rest) :=
    (completes_of_derives derived).phrase_eq (by omega) (by omega) ends.endsBefore
  have noParen : accept .lparen (.fixed .assign :: (ts ++ rest)) = some (false, .fixed .assign :: (ts ++ rest)) := rfl
  simp [statement, named, noParen, atValue]

theorem CompletesStatement.call {name : String} {arguments : List (List Token × Expression)}
    (derived : ∀ a ∈ arguments, Expression.Derives .expression a.1 a.2) :
    CompletesStatement bound .single
      (.identifier name :: .fixed .lparen :: commaList (arguments.map (·.1)) ++ [.fixed .rparen])
      (.call name (arguments.map (·.2))) := by
  refine CompletesStatement.of_succ fun depth rest shallow _ short _ _ => ?_
  simp only [List.cons_append, List.append_assoc, List.nil_append, List.length_cons, Statement.nesting]
    at short shallow ⊢
  have atArguments : Parser.arguments bound (unary bound depth)
      (commaList (arguments.map (·.1)) ++ .fixed .rparen :: rest) = some (arguments.map (·.2), rest) :=
    arguments_complete derived (fun a ha => completes_of_derives (derived a ha)) (by omega) (by omega)
  simp [statement, named, atArguments]

theorem CompletesStatement.compound {ts : List Token} {body : Statement} (h : CompletesStatement bound .series ts body) :
    CompletesStatement bound .single (.fixed .beginKw :: ts ++ [.fixed .endKw]) (.compound body) := by
  refine CompletesStatement.of_succ fun depth rest shallow nearest short _ _ => ?_
  simp only [List.cons_append, List.append_assoc, List.nil_append, List.length_cons, List.length_append,
    Statement.nesting] at short shallow ⊢
  have atSeries : series (statement bound depth) bound (ts ++ .fixed .endKw :: rest) = some (body, rest) :=
    h (by omega) nearest (by simp; omega) (by omega) rfl
  simp [statement, Parser.compound, atSeries]

theorem CompletesStatement.ifThen {cs ts : List Token} {condition : Expression} {consequent : Statement}
    (derived : Expression.Derives .condition cs condition) (h : CompletesStatement bound .single ts consequent) :
    CompletesStatement bound .single (.fixed .ifKw :: cs ++ .fixed .thenKw :: ts) (.ifThen condition consequent) := by
  refine CompletesStatement.of_succ fun depth rest shallow nearest short ends closed => ?_
  simp only [List.cons_append, List.append_assoc, List.length_cons, List.length_append, Statement.nesting]
    at short shallow ⊢
  have atCondition : Parser.condition bound (unary bound depth) (cs ++ .fixed .thenKw :: (ts ++ rest)) =
      some (condition, .fixed .thenKw :: (ts ++ rest)) :=
    condition_complete derived (by omega) (by simp; omega) (Level.EndsBefore.of_level? rfl)
  have noElse : (currentToken rest).kind ≠ .fixed .elseKw := closed rfl
  have atConsequent : statement bound depth (ts ++ rest) = some (consequent, rest) :=
    h (by omega) nearest (by simp; omega) ends fun _ => noElse
  simp [statement, conditional, atCondition, atConsequent, accept_of_kind_ne noElse]

theorem CompletesStatement.ifElse {cs ts us : List Token} {condition : Expression}
    {consequent alternative : Statement} (derived : Expression.Derives .condition cs condition)
    (first : CompletesStatement bound .single ts consequent) (second : CompletesStatement bound .single us alternative) :
    CompletesStatement bound .single (.fixed .ifKw :: cs ++ .fixed .thenKw :: ts ++ .fixed .elseKw :: us)
      (.ifElse condition consequent alternative) := by
  refine CompletesStatement.of_succ fun depth rest shallow nearest short ends closed => ?_
  simp only [List.cons_append, List.append_assoc, List.length_cons, List.length_append, Statement.nesting]
    at short shallow ⊢
  obtain ⟨notOpen, nearestFirst, nearestSecond⟩ := nearest
  have atCondition : Parser.condition bound (unary bound depth)
      (cs ++ .fixed .thenKw :: (ts ++ .fixed .elseKw :: (us ++ rest))) =
        some (condition, .fixed .thenKw :: (ts ++ .fixed .elseKw :: (us ++ rest))) :=
    condition_complete derived (by omega) (by simp; omega) (Level.EndsBefore.of_level? rfl)
  have atFirst : statement bound depth (ts ++ .fixed .elseKw :: (us ++ rest)) =
      some (consequent, .fixed .elseKw :: (us ++ rest)) :=
    first (by omega) nearestFirst (by simp; omega) (by simp [EndsStatement, Token.kind]) (by simp [notOpen])
  have atSecond : statement bound depth (us ++ rest) = some (alternative, rest) :=
    second (by omega) nearestSecond (by simp; omega) ends closed
  simp [statement, conditional, atCondition, atFirst, atSecond]

theorem CompletesStatement.whileDo {cs ts : List Token} {condition : Expression} {body : Statement}
    (derived : Expression.Derives .condition cs condition) (h : CompletesStatement bound .single ts body) :
    CompletesStatement bound .single (.fixed .whileKw :: cs ++ .fixed .doKw :: ts) (.whileDo condition body) := by
  refine CompletesStatement.of_succ fun depth rest shallow nearest short ends closed => ?_
  simp only [List.cons_append, List.append_assoc, List.length_cons, List.length_append, Statement.nesting]
    at short shallow ⊢
  have atCondition : Parser.condition bound (unary bound depth) (cs ++ .fixed .doKw :: (ts ++ rest)) =
      some (condition, .fixed .doKw :: (ts ++ rest)) :=
    condition_complete derived (by omega) (by simp; omega) (Level.EndsBefore.of_level? rfl)
  have atBody : statement bound depth (ts ++ rest) = some (body, rest) :=
    h (by omega) nearest (by simp; omega) ends closed
  simp [statement, whileLoop, atCondition, atBody]

theorem CompletesStatement.repeatUntil {ts cs : List Token} {body : Statement} {condition : Expression}
    (h : CompletesStatement bound .single ts body) (derived : Expression.Derives .condition cs condition) :
    CompletesStatement bound .single (.fixed .repeatKw :: ts ++ .fixed .untilKw :: cs) (.repeatUntil body condition) := by
  refine CompletesStatement.of_succ fun depth rest shallow nearest short ends _ => ?_
  simp only [List.cons_append, List.append_assoc, List.length_cons, List.length_append, Statement.nesting]
    at short shallow ⊢
  have atBody : statement bound depth (ts ++ .fixed .untilKw :: (cs ++ rest)) =
      some (body, .fixed .untilKw :: (cs ++ rest)) :=
    h (by omega) nearest (by simp; omega) (by simp [EndsStatement, Token.kind]) (by simp [Token.kind])
  have atCondition : Parser.condition bound (unary bound depth) (cs ++ rest) = some (condition, rest) :=
    condition_complete derived (by omega) (by simp; omega) ends.endsBefore
  simp [statement, repeatLoop, atCondition, atBody]

theorem CompletesStatement.last {ts : List Token} {s : Statement} (h : CompletesStatement bound .single ts s) :
    CompletesStatement bound .series ts s := by
  intro depth rest shallow nearest short rounds behind enough eq
  obtain ⟨rounds, rfl⟩ : ∃ n, rounds = n + 1 := Nat.exists_eq_succ_of_ne_zero (by omega)
  subst eq
  have atStatement := h shallow nearest short (by simp [EndsStatement, Token.kind]) (by simp [Token.kind])
  have noSemicolon : accept .semicolon (.fixed .endKw :: behind) = some (false, .fixed .endKw :: behind) := rfl
  simp [series, atStatement, noSemicolon]

theorem CompletesStatement.sequence {ts us : List Token} {first rest : Statement}
    (one : CompletesStatement bound .single ts first) (more : CompletesStatement bound .series us rest) :
    CompletesStatement bound .series (ts ++ .fixed .semicolon :: us) (.sequence first rest) := by
  intro depth after shallow nearest short rounds behind enough eq
  subst eq
  simp only [List.cons_append, List.append_assoc, List.length_cons, List.length_append, Statement.nesting,
    Nat.max_le] at short shallow enough ⊢
  obtain ⟨rounds, rfl⟩ : ∃ n, rounds = n + 1 := Nat.exists_eq_succ_of_ne_zero (by omega)
  have atFirst : statement bound depth (ts ++ .fixed .semicolon :: (us ++ .fixed .endKw :: behind)) =
      some (first, .fixed .semicolon :: (us ++ .fixed .endKw :: behind)) :=
    one shallow.1 nearest.1 (by simp; omega) (by simp [EndsStatement, Token.kind]) (by simp [Token.kind])
  have atRest : series (statement bound depth) rounds (us ++ .fixed .endKw :: behind) = some (rest, behind) :=
    more shallow.2 nearest.2 (by simp; omega) (by omega) rfl
  simp [series, atFirst, atRest]

theorem completesStatement_of_derives {form : StatementForm} {ts : List Token} {s : Statement}
    (h : Statement.Derives form ts s) : CompletesStatement bound form ts s := by
  induction h with
  | empty => exact CompletesStatement.of_succ fun _ _ _ _ _ ends _ => statement_of_endsStatement ends
  | assignment derived => exact CompletesStatement.assignment derived
  | call derived => exact CompletesStatement.call derived
  | compound _ ih => exact CompletesStatement.compound ih
  | ifThen derived _ ih => exact CompletesStatement.ifThen derived ih
  | ifElse derived _ _ first second => exact CompletesStatement.ifElse derived first second
  | whileDo derived _ ih => exact CompletesStatement.whileDo derived ih
  | repeatUntil _ derived ih => exact CompletesStatement.repeatUntil ih derived
  | last _ ih => exact CompletesStatement.last ih
  | sequence _ _ first rest => exact CompletesStatement.sequence first rest

/-- Neither declarations nor subroutines begin with these tokens. -/
def BeginsStatement (tokens : List Token) : Prop :=
  ∀ kind ∈ [FixedKind.constKw, .varKw, .procedureKw, .functionKw], (currentToken tokens).kind ≠ .fixed kind

theorem EndsStatement.beginsStatement {rest : List Token} (h : EndsStatement rest) : BeginsStatement rest := by
  intro kind _ atKind
  rw [EndsStatement, atKind] at h
  cases kind <;> simp_all

theorem beginsStatement_of_derives {ts rest : List Token} {s : Statement} (h : Statement.Derives .single ts s)
    (ends : EndsStatement rest) : BeginsStatement (ts ++ rest) := by
  cases h with
  | empty => exact ends.beginsStatement
  | _ => simp [BeginsStatement, Token.kind]

theorem constant_complete {ts rest : List Token} {c : String × Nat} (h : DerivesConstant ts c) :
    constant (ts ++ rest) = some (c, rest) := by
  obtain ⟨spelled⟩ := h
  simp [constant, identifier, require, integer, spelled]

theorem declarations_complete {α : Type} {keyword : FixedKind} {item : Parser α} {items : List (List Token × α)}
    {rest : List Token} (reads : ∀ i ∈ items, ∀ after, item (i.1 ++ after) = some (i.2, after))
    (short : (declarationPart keyword (items.map (·.1)) ++ rest).length < bound)
    (ends : (currentToken rest).kind ≠ .fixed keyword) :
    declarations bound keyword item (declarationPart keyword (items.map (·.1)) ++ rest) =
      some (items.map (·.2), rest) := by
  by_cases none : items = []
  · simp [none, declarationPart, declarations, accept_of_kind_ne ends]
  · have nonempty : items.map (·.1) ≠ [] := by simpa using none
    simp only [declarationPart, if_neg nonempty, List.cons_append, List.append_assoc, List.nil_append,
      List.length_cons] at short ⊢
    have few := length_le_commaList (items.map (·.1))
    have atItems : listed item bound (commaList (items.map (·.1)) ++ .fixed .semicolon :: rest) =
        some (items.map (·.2), .fixed .semicolon :: rest) :=
      listed_complete none (by simp only [List.length_map, List.length_append] at few short; omega)
        (Nat.lt_of_succ_lt short)
      (fun i hi after _ _ => reads i hi after) (by simp [Token.kind])
    simp [declarations, atItems]

theorem identifier_complete {names : List String} {i : List Token × String} {after : List Token}
    (h : i ∈ names.map fun name => ([.identifier name], name)) : identifier (i.1 ++ after) = some (i.2, after) := by
  obtain ⟨name, _, rfl⟩ := List.mem_map.mp h
  rfl

theorem parameters_complete {names : List String} {rest : List Token}
    (short : (commaList (names.map fun name => [.identifier name]) ++ .fixed .rparen :: rest).length < bound) :
    parameters bound (commaList (names.map fun name => [.identifier name]) ++ .fixed .rparen :: rest) =
      some (names, rest) := by
  cases names with
  | nil => simp [parameters, parameterNames, seesIdentifier, commaList, Token.kind]
  | cons first others =>
    have few := length_le_commaList ((first :: others).map fun name => [Token.identifier name])
    let items := (first :: others).map fun name => ([Token.identifier name], name)
    have same : items.map (·.1) = (first :: others).map fun name => [.identifier name] := by
      simp only [items, List.map_map, Function.comp_def]
    have atNames : listed identifier bound (commaList (items.map (·.1)) ++ .fixed .rparen :: rest) =
        some (items.map (·.2), .fixed .rparen :: rest) := by
      refine listed_complete (by simp [items]) ?_ (same ▸ short) (fun i hi after _ _ => identifier_complete hi)
        (by simp [Token.kind])
      simp only [items, List.length_map, List.length_append] at few short ⊢
      omega
    have seen : (currentToken (commaList ((first :: others).map fun name => [.identifier name]) ++
        .fixed .rparen :: rest)).kind = .identifier := by
      rw [List.map_cons, currentToken_commaList rfl]
      rfl
    simp only [items, List.map_map, Function.comp_def, List.map_id'] at atNames
    rw [parameters, parameterNames, bind_apply, bind_apply, seesIdentifier, seen]
    simp only [decide_true, Option.bind_some, if_true]
    rw [atNames]
    simp

/-- The parser reads the block in front of a semicolon or a period. -/
def CompletesBlock (bound : Nat) (ts : List Token) (b : Block) : Prop :=
  ∀ ⦃depth rest⦄, b.nesting ≤ depth → b.NearestElse → (ts ++ rest).length < bound →
    ((currentToken rest).kind = .fixed .semicolon ∨ (currentToken rest).kind = .fixed .period) →
      block bound depth (ts ++ rest) = some (b, rest)

theorem subroutine_complete {heading : Heading} {body : Block} {ts rest : List Token}
    (h : CompletesBlock bound ts body) (shallow : body.nesting ≤ depth) (nearest : body.NearestElse)
    (short : (heading.tokens ++ ts ++ .fixed .semicolon :: rest).length < bound) :
    ∃ us, heading.tokens ++ ts ++ .fixed .semicolon :: rest = .fixed heading.kind.keyword :: us ∧
      subroutine bound (block bound depth) heading.kind us = some ((heading, body), rest) := by
  simp only [Heading.tokens, List.cons_append, List.append_assoc, List.nil_append, List.length_cons] at short ⊢
  have atParameters : parameters bound (commaList (heading.parameters.map fun name => [.identifier name]) ++
      .fixed .rparen :: (ts ++ .fixed .semicolon :: rest)) =
        some (heading.parameters, ts ++ .fixed .semicolon :: rest) :=
    parameters_complete (by omega)
  have atBlock : block bound depth (ts ++ .fixed .semicolon :: rest) = some (body, .fixed .semicolon :: rest) :=
    h shallow nearest (by simp only [List.length_append, List.length_cons] at short ⊢; omega) (.inl rfl)
  refine ⟨_, rfl, ?_⟩
  simp [subroutine, identifier, atParameters, atBlock]

theorem subroutines_complete {items : List (List Token × Heading × Block)} {rest : List Token} {rounds : Nat}
    (completes : ∀ s ∈ items, CompletesBlock bound s.1 s.2.2) (shallow : ∀ s ∈ items, s.2.2.nesting ≤ depth)
    (nearest : ∀ s ∈ items, s.2.2.NearestElse) (enough : items.length < rounds)
    (short : (subroutinePart items ++ rest).length < bound)
    (begins : BeginsStatement rest) :
    subroutines bound (block bound depth) rounds
      (subroutinePart items ++ rest) = some (items.map (·.2), rest) := by
  induction items generalizing rounds with
  | nil =>
    obtain ⟨rounds, rfl⟩ : ∃ n, rounds = n + 1 := Nat.exists_eq_succ_of_ne_zero (by omega)
    have noProcedure := accept_of_kind_ne (begins .procedureKw (by simp))
    have noFunction := accept_of_kind_ne (begins .functionKw (by simp))
    simp [subroutines, noProcedure, noFunction]
  | cons first others ih =>
    obtain ⟨rounds, rfl⟩ : ∃ n, rounds = n + 1 := Nat.exists_eq_succ_of_ne_zero (by omega)
    simp only [List.mem_cons, forall_eq_or_imp, List.length_cons] at completes shallow nearest enough
    rw [subroutinePart_cons, List.append_assoc] at short ⊢
    have atOthers := @ih rounds completes.2 shallow.2 nearest.2 (by omega)
      (by simp only [List.length_append] at short ⊢; omega)
    obtain ⟨us, spelled, atFirst⟩ := subroutine_complete completes.1 shallow.1 nearest.1
      (by simpa only [List.append_assoc, List.cons_append, List.nil_append] using short)
    simp only [List.append_assoc, List.cons_append, List.nil_append] at spelled atOthers ⊢
    rw [spelled]
    cases kind : first.2.1.kind with
    | procedure =>
      rw [kind] at atFirst
      simp [subroutines, Routine.keyword, atFirst, atOthers]
    | function =>
      have noProcedure : accept .procedureKw (.fixed .functionKw :: us) = some (false, .fixed .functionKw :: us) := rfl
      rw [kind] at atFirst
      simp [subroutines, Routine.keyword, noProcedure, atFirst, atOthers]

theorem currentToken_declarationPart (keyword : FixedKind) (items : List (List Token)) (rest : List Token) :
    currentToken (declarationPart keyword items ++ rest) = .fixed keyword ∨
      currentToken (declarationPart keyword items ++ rest) = currentToken rest := by
  unfold declarationPart
  split
  · exact .inr rfl
  · exact .inl rfl

theorem currentToken_subroutinePart (items : List (List Token × Heading × Block)) (rest : List Token) :
    (∃ kind : Routine, currentToken (subroutinePart items ++ rest) = .fixed kind.keyword) ∨
      currentToken (subroutinePart items ++ rest) = currentToken rest := by
  cases items with
  | nil => exact .inr rfl
  | cons first others => exact .inl ⟨first.2.1.kind, rfl⟩

theorem length_le_subroutinePart (items : List (List Token × Heading × Block)) :
    items.length ≤ (subroutinePart items).length := by
  induction items with
  | nil => simp
  | cons first others ih =>
    simp only [subroutinePart_cons, List.length_append, List.length_cons, List.length_nil]
    omega

theorem completesBlock_of_derives {ts : List Token} {b : Block} (h : Block.Derives ts b) :
    CompletesBlock bound ts b := by
  induction h with
  | @mk constants vars subs ts body derivedConstants derivedSubs derivedBody ih =>
    intro depth rest shallow nearest short ends
    obtain ⟨depth, rfl⟩ : ∃ n, depth = n + 1 :=
      Nat.exists_eq_succ_of_ne_zero (by simp only [Block.nesting] at shallow; omega)
    simp only [Block.nesting, Nat.add_le_add_iff_right, Nat.max_le, Block.greatestNesting_le] at shallow
    obtain ⟨nearestSubs, nearestBody⟩ := nearest
    simp only [List.append_assoc] at short ⊢
    have endsBody : EndsStatement rest := by
      rcases ends with atEnd | atEnd <;> simp [EndsStatement, atEnd]
    have begins := beginsStatement_of_derives derivedBody endsBody
    have few := length_le_subroutinePart subs
    have atBody : statement bound depth (ts ++ rest) = some (body, rest) :=
      completesStatement_of_derives derivedBody shallow.2 nearestBody
        (by simp only [List.length_append] at short ⊢; omega) endsBody
        (by rcases ends with atEnd | atEnd <;> simp [atEnd])
    have atSubs : subroutines bound (block bound depth) bound (subroutinePart subs ++ (ts ++ rest)) =
        some (subs.map (·.2), ts ++ rest) :=
      subroutines_complete ih
      (fun s hs => shallow.1 s.2 (List.mem_map_of_mem hs)) (fun s hs => nearestSubs s.2 (List.mem_map_of_mem hs))
      (by simp only [List.length_append] at short; omega) (by simp only [List.length_append] at short ⊢; omega) begins
    have noVariables : (currentToken (subroutinePart subs ++ (ts ++ rest))).kind ≠ .fixed .varKw := by
      rcases currentToken_subroutinePart subs (ts ++ rest) with ⟨kind, atKind⟩ | same
      · rw [atKind]
        cases kind <;> simp [Token.kind, Routine.keyword]
      · rw [same]
        exact begins .varKw (by simp)
    have noConstants : (currentToken (declarationPart .varKw (vars.map fun name => [.identifier name]) ++
        (subroutinePart subs ++ (ts ++ rest)))).kind ≠ .fixed .constKw := by
      rcases currentToken_declarationPart .varKw (vars.map fun name => [.identifier name])
        (subroutinePart subs ++ (ts ++ rest)) with atKeyword | same
      · simp [atKeyword, Token.kind]
      · rw [same]
        rcases currentToken_subroutinePart subs (ts ++ rest) with ⟨kind, atKind⟩ | same
        · rw [atKind]
          cases kind <;> simp [Token.kind, Routine.keyword]
        · rw [same]
          exact begins .constKw (by simp)
    have atConstants : declarations bound .constKw constant _ = some (constants.map (·.2), _) := declarations_complete
      (fun i hi after => constant_complete (derivedConstants i hi)) short noConstants
    let items := vars.map fun name => ([Token.identifier name], name)
    have atVariables : declarations bound .varKw identifier
        (declarationPart .varKw (items.map (·.1)) ++ (subroutinePart subs ++ (ts ++ rest))) =
          some (items.map (·.2), subroutinePart subs ++ (ts ++ rest)) := by
      refine declarations_complete (fun i hi after => identifier_complete hi) ?_ noVariables
      simp only [items, List.map_map, Function.comp_def, List.length_append] at short ⊢
      omega
    simp only [items, List.map_map, Function.comp_def, List.map_id'] at atVariables
    simp [block, atConstants, atVariables, atSubs, atBody]

end Parser

section

variable {depth : Nat} {tokens : List Token} {block : Block}

/-- What the grammar derives the parser finds, if every `else` belongs to the nearest `if` and nothing nests too deep. -/
theorem Parser.program_of_derives (h : block.DerivesProgram tokens) (shallow : block.nesting ≤ depth)
    (nearest : block.NearestElse) : program (tokens.length + 1) depth tokens = some (block, []) := by
  obtain ⟨ts, derived, rfl⟩ := h
  have atBlock : Parser.block ((ts ++ [Token.fixed .period]).length + 1) depth (ts ++ [Token.fixed .period]) =
      some (block, [.fixed .period]) :=
    completesBlock_of_derives derived shallow nearest (Nat.lt_succ_self _) (.inr rfl)
  rw [program, bind_apply, atBlock]
  simp

/-- The parser accepts what the grammar derives, and says which derivation counts. -/
theorem parse_eq_some_iff : parse tokens = some block ↔ block.DerivesProgram tokens ∧ block.NearestElse := by
  refine ⟨derives_of_parse, fun ⟨derived, nearest⟩ => ?_⟩
  rw [parse, Parser.program_of_derives derived derived.nesting_le nearest]

/-- To a given depth the parser goes exactly as far as the tree of the program does. -/
theorem Parser.program_eq_some_iff :
    program (tokens.length + 1) depth tokens = some (block, []) ↔
      parse tokens = some block ∧ block.nesting ≤ depth := by
  constructor
  · intro atProgram
    obtain ⟨derived, shallow, nearest⟩ := derives_of_program atProgram
    exact ⟨parse_eq_some_iff.mpr ⟨derived, nearest⟩, shallow⟩
  · rintro ⟨atProgram, shallow⟩
    obtain ⟨derived, nearest⟩ := derives_of_parse atProgram
    exact program_of_derives derived shallow nearest

end

end PLZero
