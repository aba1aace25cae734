import PLZero.Proofs.Recovery.Headings
import PLZero.Proofs.Recovery.Pace

/-!
The prices of expressions. An operator pays for its operand and its own instruction, a name or a parenthesis for what it
begins, so each expression costs at most one.
-/

namespace PLZero.Grammar

open Production

variable {α β : Type} {short : Prop} {horizon price n : Nat} {t : Token} {limit : Nat} {draft : Draft}
  {value : α → Nat}

section Tokens

theorem here_costs : Costs short horizon 0 here here := .of_free .here trivial

theorem patch_costs (position target : Nat) : Costs short horizon 0 (patch position target) (patch position target) :=
  .of_free (.patch position target) trivial

theorem resolve_costs (name : String) : Costs short horizon 0 (resolve name) (resolve name) :=
  .of_free (.resolve name) trivial

theorem check_at {next other : Bool → Production α} (kind : TokenKind)
    (rest : CostsAt t short horizon price (next (t.kind = kind)) (other (t.kind = kind)) value) :
    CostsAt t short horizon price (check kind >>= next) (check kind >>= other) value :=
  .of_token rest

theorem ne_eof_of_fixed {kind : FixedKind} (isFixed : t.kind = .fixed kind) : t ≠ .eof := by
  rintro rfl
  cases isFixed

/-- Either the token is taken, or it stays. -/
theorem accept_at {next other : Bool → Production α} (kind : FixedKind)
    (taken : t.kind = .fixed kind → Costs short (horizon - 1) (price + 8) (next true) (other true) value)
    (left : t.kind ≠ .fixed kind → CostsAt t short horizon price (next false) (other false) value) :
    CostsAt t short horizon price (accept kind >>= next) (accept kind >>= other) value := by
  rw [accept, LawfulMonad.bind_assoc, LawfulMonad.bind_assoc]
  refine check_at _ ?_
  by_cases here : t.kind = .fixed kind
  · simp only [here, decide_true, if_true, LawfulMonad.bind_assoc, pure_bind]
    exact .of_advance (ne_eof_of_fixed here) (taken here)
  · simp only [here, decide_false, Bool.false_eq_true, if_false, pure_bind]
    exact left here

theorem accept_costs {next other : Bool → Production α} (kind : FixedKind)
    (taken : Costs short (horizon - 1) (price + 8) (next true) (other true) value)
    (left : Costs short horizon price (next false) (other false) value) :
    Costs short horizon price (accept kind >>= next) (accept kind >>= other) value :=
  fun t => accept_at kind (fun _ => taken) fun _ => left t

theorem acceptOperator_costs {Op : Type} {next other : Option Op → Production α} (operator : FixedKind → Option Op)
    (taken : ∀ op, Costs short (horizon - 1) (price + 8) (next (some op)) (other (some op)) value)
    (left : Costs short horizon price (next none) (other none) value) :
    Costs short horizon price (acceptOperator operator >>= next) (acceptOperator operator >>= other) value := by
  intro t
  rw [acceptOperator, LawfulMonad.bind_assoc, LawfulMonad.bind_assoc]
  refine .of_token ?_
  split
  · next kind isFixed =>
    split
    · simp only [LawfulMonad.bind_assoc, pure_bind]
      exact .of_advance (ne_eof_of_fixed isFixed) (taken _)
    · exact left t
  · exact left t

theorem expect_costs {next other : Bool → Production α} (kind : FixedKind)
    (taken : Costs short (horizon - 1) (n + 9) (next true) (other true) value)
    (left : Costs short horizon n (next false) (other false) value) :
    Costs short horizon (n + 1) (expect kind >>= next) (expect kind >>= other) value := by
  rw [expect, LawfulMonad.bind_assoc, LawfulMonad.bind_assoc]
  refine accept_costs kind ?_ fun t => ?_
  · simpa only [if_true, pure_bind] using taken
  · simp only [Bool.false_eq_true, if_false, LawfulMonad.bind_assoc, pure_bind]
    exact .of_token (.of_report _ (left t))

theorem require_costs (kind : FixedKind) : Costs short horizon 1 (require kind) (require kind) := by
  rw [require, discard_eq_bind]
  exact expect_costs kind (.done _) (.done _)

theorem literal_costs (literal : Nat) : Costs short horizon 1 (Grammar.literal literal) (Grammar.literal literal) := by
  rw [Grammar.literal]
  split
  · exact (Costs.report _).bind (m := 0) fun _ => .done _
  · exact .done _

section Lists

variable {item other : α → Production α} (items : ∀ a, Costs short horizon (value a + n) (item a) (other a) value)
  (cheap : n ≤ 8) {b c : Nat}
include items cheap

/-- Behind an item, each further one is paid by the comma in front. -/
theorem commaSeparated_rest (enoughFirst : horizon ≤ b + 1) (enoughSecond : horizon ≤ c + 1) (a : α) :
    Costs short horizon (value a) (do if ← accept .comma then commaSeparated item b a else return a)
      (do if ← accept .comma then commaSeparated other c a else return a) value := by
  induction b generalizing c horizon a with
  | zero =>
    obtain rfl | rfl : horizon = 0 ∨ horizon = 1 := by omega
    · exact .of_none _
    · exact accept_costs _ (.of_none _) (.of_pure (Nat.le_refl _))
  | succ b ih =>
    refine accept_costs _ ?_ (.of_pure (Nat.le_refl _))
    cases c with
    | zero =>
      have none : horizon - 1 = 0 := by omega
      rw [none]
      exact .of_none _
    | succ c =>
      have nearer a := (items a).nearer
      exact (nearer a).bindValue (ih nearer (by omega) (by omega)) (by omega) fun _ => by omega

theorem commaSeparated_costs (enoughFirst : horizon ≤ b) (enoughSecond : horizon ≤ c) (a : α) :
    Costs short horizon (value a + n) (commaSeparated item b a) (commaSeparated other c a) value := by
  rcases Nat.eq_zero_or_pos horizon with rfl | more
  · exact .of_none _
  · obtain ⟨b, rfl⟩ := Nat.exists_eq_succ_of_ne_zero (Nat.ne_of_gt (Nat.lt_of_lt_of_le more enoughFirst))
    obtain ⟨c, rfl⟩ := Nat.exists_eq_succ_of_ne_zero (Nat.ne_of_gt (Nat.lt_of_lt_of_le more enoughSecond))
    exact (items a).bindValue (commaSeparated_rest items cheap enoughFirst enoughSecond) (Nat.le_refl _)
      fun _ => by omega

end Lists

end Tokens

variable {first second : Rule}

section Expressions

variable (operand : Costs short horizon 1 first second)
include operand

theorem operations_costs (operator : FixedKind → Option BinaryOp) {b c : Nat} (enoughFirst : horizon ≤ b)
    (enoughSecond : horizon ≤ c) : Costs short horizon 0 (operations operator first b) (operations operator second c) := by
  induction b generalizing c horizon with
  | zero =>
    obtain rfl := Nat.le_zero.mp enoughFirst
    exact .of_none _
  | succ b ih =>
    cases c with
    | zero =>
      obtain rfl := Nat.le_zero.mp enoughSecond
      exact .of_none _
    | succ c =>
      refine acceptOperator_costs operator (fun op => ?_) (.done _)
      exact (operand.nearer.bind fun _ => (Costs.emit _ _ _).discard.bind fun _ =>
        ih operand.nearer (by omega) (by omega)).within (by omega)

theorem leftAssociative_costs (operator : FixedKind → Option BinaryOp) :
    Costs short horizon 1 (leftAssociative operator first) (leftAssociative operator second) :=
  operand.bind fun _ => .of_bound fun _ _ _ near enoughFirst enoughSecond =>
    operations_costs (operand.mono near (Nat.le_refl _)) operator enoughFirst enoughSecond

theorem expression_costs : Costs short horizon 1 (expression first) (expression second) := by
  have terms : Costs short horizon 1 (term first) (term second) := leftAssociative_costs operand multiplying
  have rest : Costs short horizon 0 (bound >>= operations adding (term first))
      (bound >>= operations adding (term second)) := .of_bound fun _ _ _ near enoughFirst enoughSecond =>
    operations_costs (terms.mono near (Nat.le_refl _)) adding enoughFirst enoughSecond
  intro t
  refine check_at _ ?_
  by_cases negated : t.kind = .fixed .minus
  · simp only [negated, decide_true, if_true]
    refine .of_advance (ne_eof_of_fixed negated) ?_
    exact (terms.nearer.bind fun _ => (Costs.emit _ _ _).discard.bind fun _ => rest.nearer).within (by omega)
  · simp only [negated, decide_false, Bool.false_eq_true, if_false]
    rw [discard_eq_bind, LawfulMonad.bind_assoc, LawfulMonad.bind_assoc]
    exact accept_costs .plus ((terms.nearer.bind fun _ => rest.nearer).within (by omega)) (terms.bind fun _ => rest) t

theorem relation_costs : Costs short horizon 1 (relation first) (relation second) := by
  have expressions := expression_costs operand
  refine accept_costs _ ?_ ?_
  · exact (expressions.nearer.bind fun _ => (Costs.emit _ _ _).discard.bind fun _ =>
      (Costs.emit _ _ _).discard).within (by omega)
  · refine expressions.bind (m := 0) fun _ => acceptOperator_costs relational (fun op => ?_) (.done _)
    exact (expressions.nearer.bind fun _ => (Costs.emit _ _ _).discard).within (by omega)

theorem condition_costs : Costs short horizon 1 (condition first) (condition second) :=
  leftAssociative_costs (leftAssociative_costs (relation_costs operand) conjunctive) disjunctive

theorem arguments_costs : Costs short horizon 2 (arguments first) (arguments second) := by
  have items count : Costs short horizon 1 (do expression first; return count + 1)
      (do expression second; return count + 1) :=
    (expression_costs operand).bind (m := 0) fun _ => .done _
  intro t
  refine check_at _ ?_
  split
  · exact ((require_costs _ t).bind (m := 0) fun _ => .done _).within (by omega)
  · refine Costs.of_bound (fun nearer b c near enoughFirst enoughSecond => ?_) t
    have list : Costs short nearer 1 (commaSeparated (fun count => do expression first; return count + 1) b 0)
        (commaSeparated (fun count => do expression second; return count + 1) c 0) :=
      commaSeparated_costs (n := 1) (fun count => (items count).mono near (Nat.le_refl _)) (by omega) enoughFirst
        enoughSecond 0
    exact (list.bind fun count => (require_costs _).bind (m := 0) fun _ => .done _).within (by omega)

omit operand in
theorem call_costs (scope : Scope) (symbol : Symbol) (count : Nat) :
    Costs short horizon 1 (call scope symbol count) (call scope symbol count) := by
  rw [call]
  split
  · exact (Costs.emit _ _ _).discard
  · exact .report _

theorem strayArguments_costs : Costs short horizon 0 (strayArguments first) (strayArguments second) :=
  accept_costs _ ((arguments_costs operand).nearer.discard.within (by omega)) (.done _)

theorem namedFactor_costs (scope : Scope) (name : String) :
    Costs short horizon 2 (namedFactor scope first name) (namedFactor scope second name) := by
  refine (resolve_costs name).bind (m := 2) fun found => ?_
  split
  · exact ((Costs.report _).bind fun _ => strayArguments_costs operand).within (by omega)
  · split
    · exact (Costs.emit _ _ _).discard.within (by omega)
    · exact (Costs.emit _ _ _).discard.bind fun _ => (Costs.emit _ _ _).discard
    · refine expect_costs (n := 1) _ ?_ (.done _)
      exact ((arguments_costs operand).nearer.bind fun count => call_costs scope _ count).within (by omega)
    · exact ((Costs.report _).bind fun _ => strayArguments_costs operand).within (by omega)

end Expressions

/-- Behind a token that is taken, the operands of a factor have fewer tokens to come. -/
theorem factor_costs (scope : Scope) (operand : Costs short (horizon - 1) 1 first second) :
    Costs short horizon 1 (factor scope first) (factor scope second) := by
  intro t
  refine .of_token ?_
  split
  · exact .of_advance nofun ((namedFactor_costs operand scope _).within (by omega))
  · exact .of_advance nofun (((literal_costs _).bind fun _ => (Costs.emit _ _ _).discard).within (by omega))
  · exact .of_advance nofun (((condition_costs operand).bind fun _ => require_costs _).within (by omega))
  · exact .of_report _ (.advance nofun)
  · refine .of_report _ ?_
    split
    · exact .of_pure (Nat.zero_le _)
    · next notFollowing =>
      refine .advance fun isEnd => notFollowing ?_
      rw [isEnd]
      rfl

/-- Two depths of nesting that lead to the same course, as they are equal or there are not more tokens to come. Only
depths that are equal may turn out to be short. -/
def Alike (short : Prop) (horizon p q : Nat) : Prop :=
  (short ∧ p = q) ∨ (horizon ≤ p ∧ horizon ≤ q)

theorem Alike.mono {nearer p q : Nat} (alike : Alike short horizon p q) (near : nearer ≤ horizon) :
    Alike short nearer p q :=
  alike.imp_right fun ⟨enoughFirst, enoughSecond⟩ => ⟨near.trans enoughFirst, near.trans enoughSecond⟩

theorem Alike.nearer {p q : Nat} (alike : Alike short horizon (p + 1) (q + 1)) :
    Alike short (horizon - 1) p q := by
  rcases alike with ⟨isShort, same⟩ | ⟨enoughFirst, enoughSecond⟩
  · exact .inl ⟨isShort, Nat.succ.inj same⟩
  · exact .inr ⟨by omega, by omega⟩

/-- Where no nesting is left, the depths are the same, or there is nothing to come. -/
theorem Alike.zero {p q : Nat} (alike : Alike short horizon p q) (none : p = 0 ∨ q = 0) :
    horizon = 0 ∨ (short ∧ p = 0 ∧ q = 0) := by
  rcases alike with ⟨isShort, same⟩ | ⟨enoughFirst, enoughSecond⟩
  · exact .inr ⟨isShort, by omega, by omega⟩
  · exact .inl (by omega)

theorem abandon_costs (isShort : short) : Costs short horizon price (abandon : Production α) abandon value :=
  fun _ _ _ _ _ _ room => .abandon isShort (by omega)

theorem unary_costs (scope : Scope) {p q : Nat} (alike : Alike short horizon p q) :
    Costs short horizon 1 (unary scope p) (unary scope q) := by
  induction p generalizing q horizon with
  | zero =>
    rcases alike.zero (.inl rfl) with rfl | ⟨isShort, -, rfl⟩
    · exact .of_none _
    · exact abandon_costs isShort
  | succ p ih =>
    cases q with
    | zero =>
      rcases alike.zero (.inr rfl) with rfl | ⟨-, absurd, -⟩
      · exact .of_none _
      · cases absurd
    | succ q =>
      refine acceptOperator_costs complementing (fun op => ?_) (factor_costs scope (ih alike.nearer))
      exact ((ih alike.nearer).bind fun _ => (Costs.emit _ _ _).discard).within (by omega)

end PLZero.Grammar
