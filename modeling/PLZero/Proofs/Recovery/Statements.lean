import PLZero.Grammar.Block
import PLZero.Proofs.Recovery.Emissions

namespace PLZero

namespace Grammar

open Production

variable {watch : Watch} {symbols : SymbolTable} {scope : Scope} {rule : Rule}

section Expressions

variable (hosts : watch.Hosts scope symbols)
include hosts

theorem operator_writes (op : BinaryOp) : (emit (.binary op)).Writes watch symbols fun _ => True :=
  emit_inPlace hosts _ (by simp) fun _ => rfl

theorem operations_writes (operator : FixedKind → Option BinaryOp) (operand : rule.Writes watch symbols fun _ => True)
    (rounds : Nat) : (operations operator rule rounds).Writes watch symbols fun _ => True := by
  induction rounds with
  | zero => exact .of_pure trivial
  | succ rounds ih =>
    refine (acceptOperator_silent hosts.inForce operator hosts.elsewhere).writes.bind fun found _ => ?_
    split
    · exact operand.bind fun _ _ => (operator_writes hosts _).discard.bind fun _ _ => ih
    · exact .of_pure trivial

theorem leftAssociative_writes (operator : FixedKind → Option BinaryOp)
    (operand : rule.Writes watch symbols fun _ => True) :
    (leftAssociative operator rule).Writes watch symbols fun _ => True :=
  operand.bind fun _ _ => (bound_silent hosts.inForce).writes.bind fun rounds _ =>
    operations_writes hosts operator operand rounds

theorem commaSeparated_writes {α : Type} (item : α → Production α)
    (items : ∀ a, (item a).Writes watch symbols fun _ => True) (rounds : Nat) (a : α) :
    (commaSeparated item rounds a).Writes watch symbols fun _ => True := by
  have commas : (accept .comma).Writes watch symbols fun _ => True := (accept_silent hosts.inForce (by decide)).writes
  exact fun draft same => commaSeparated_heeds (fun a _ _ ⟨written, _⟩ => (items a).heeds written)
    (fun _ _ _ ⟨written, _⟩ => commas.heeds written) rounds a watch draft ⟨⟨rfl, same, .of_code rfl⟩, trivial⟩

variable (unary : rule.Writes watch symbols fun _ => True)
include unary

theorem expression_writes : (expression rule).Writes watch symbols fun _ => True := by
  have inForce := hosts.inForce
  have terms := leftAssociative_writes hosts multiplying unary
  have rest := (bound_silent inForce).writes.bind fun rounds _ => operations_writes hosts adding terms rounds
  refine (check_silent inForce _).writes.bind fun negated _ => ?_
  cases negated with
  | true =>
    exact (advance_silent inForce hosts.elsewhere).writes.bind fun _ _ => terms.bind fun _ _ =>
      (emit_inPlace hosts (.unary .neg) (by simp) fun _ => rfl).discard.bind fun _ _ => rest
  | false =>
    exact (accept_silent inForce (by decide)).discard.writes.bind fun _ _ => terms.bind fun _ _ => rest

theorem relation_writes : (relation rule).Writes watch symbols fun _ => True := by
  have inForce := hosts.inForce
  have expressions := expression_writes hosts unary
  refine (accept_silent inForce (by decide)).writes.bind fun odd _ => ?_
  split
  · exact expressions.bind fun _ _ => (emit_inPlace hosts .pushConst (by simp) nofun).discard.bind fun _ _ =>
      (operator_writes hosts .band).discard
  · refine expressions.bind fun _ _ => ?_
    refine (acceptOperator_silent inForce relational hosts.elsewhere).writes.bind fun found _ => ?_
    split
    · exact expressions.bind fun _ _ => (operator_writes hosts _).discard
    · exact .of_pure trivial

theorem condition_writes : (condition rule).Writes watch symbols fun _ => True :=
  leftAssociative_writes hosts disjunctive (leftAssociative_writes hosts conjunctive (relation_writes hosts unary))

theorem arguments_writes : (arguments rule).Writes watch symbols fun _ => True := by
  have inForce := hosts.inForce
  have closing : (require .rparen).Writes watch symbols fun _ => True := (require_silent inForce (by decide)).writes
  refine (check_silent inForce _).writes.bind fun none _ => ?_
  split
  · exact closing.bind fun _ _ => .of_pure trivial
  · have items := commaSeparated_writes hosts (fun count => do expression rule; return count + 1) fun _ =>
      (expression_writes hosts unary).bind fun _ _ => .of_pure trivial
    exact (bound_silent inForce).writes.bind fun rounds _ => (items rounds 0).bind fun _ _ => closing.bind fun _ _ =>
      .of_pure trivial

omit unary in
/-- A subroutine is called that a name resolves to. -/
theorem call_writes {name : String} {symbol : Symbol} (found : symbols.resolve name = some symbol)
    (routine : symbol.IsRoutine) (count : Nat) : (call scope symbol count).Writes watch symbols fun _ => True := by
  rw [call]
  split
  · exact (emit_writes hosts (hosts.routine_fits found routine) (by simp)
      fun _ => ⟨name, symbol, found, routine, rfl⟩).discard
  · exact (report_silent hosts.inForce _).writes

theorem strayArguments_writes : (strayArguments rule).Writes watch symbols fun _ => True := by
  refine (accept_silent hosts.inForce (by decide)).writes.bind fun opened _ => ?_
  split
  · exact (arguments_writes hosts unary).discard
  · exact .of_pure trivial

theorem namedFactor_writes (name : String) : (namedFactor scope rule name).Writes watch symbols fun _ => True := by
  have inForce := hosts.inForce
  refine (resolve_silent inForce name hosts.inStatement hosts.within).writes.bind fun found isFound => ?_
  cases found with
  | none =>
    exact (report_silent inForce _).writes.bind fun _ _ => strayArguments_writes hosts unary
  | some symbol =>
    dsimp only
    cases kind : symbol.kind with
    | constant => exact (emit_inPlace hosts .pushConst (by simp) nofun).discard
    | var =>
      exact (emit_plain hosts (hosts.variable_fits isFound.symm kind) (by simp)).discard.bind fun _ _ =>
        (emit_inPlace hosts .eval (by simp) fun _ => rfl).discard
    | function =>
      refine (expect_silent inForce (by decide)).writes.bind fun opened _ => ?_
      split
      · exact (arguments_writes hosts unary).bind fun count _ => call_writes hosts isFound.symm (.inr kind) count
      · exact .of_pure trivial
    | procedure =>
      exact (report_silent inForce _).writes.bind fun _ _ => strayArguments_writes hosts unary

theorem factor_writes : (factor scope rule).Writes watch symbols fun _ => True := by
  have inForce := hosts.inForce
  have advances := (advance_silent inForce hosts.elsewhere).writes
  refine (token_silent inForce).writes.bind fun t _ => ?_
  split
  · exact advances.bind fun _ _ => namedFactor_writes hosts unary _
  · exact advances.bind fun _ _ => (literal_silent inForce _).writes.bind fun value _ =>
      (emit_inPlace hosts .pushConst (by simp) nofun).discard
  · exact advances.bind fun _ _ => (condition_writes hosts unary).bind fun _ _ =>
      (require_silent inForce (by decide)).writes
  · exact (report_silent inForce _).writes.bind fun _ _ => advances
  · refine (report_silent inForce _).writes.bind fun _ _ => ?_
    split
    · exact .of_pure trivial
    · exact advances

omit unary in
theorem unary_writes (depth : Nat) : (Grammar.unary scope depth).Writes watch symbols fun _ => True := by
  induction depth with
  | zero => exact (abandon_silent hosts.inForce).writes
  | succ depth ih =>
    refine (acceptOperator_silent hosts.inForce complementing hosts.elsewhere).writes.bind fun found _ => ?_
    split
    · exact ih.bind fun _ _ => (emit_inPlace hosts (.unary _) (by simp) fun _ => rfl).discard
    · exact factor_writes hosts ih

end Expressions

section Statements

variable (hosts : watch.Hosts scope symbols)
include hosts

theorem target?_fits {name : String} {slot : Int × Int}
    (found : target? scope name (symbols.resolve name) = .ok slot) :
    watch.Fits symbols (.emit .pushVar slot.1 slot.2) := by
  cases resolved : symbols.resolve name with
  | none =>
    rw [resolved] at found
    cases found
  | some symbol =>
    rw [resolved, target?] at found
    cases kind : symbol.kind with
    | var =>
      simp only [kind] at found
      cases found
      exact hosts.variable_fits resolved kind
    | function =>
      simp only [kind] at found
      split at found
      · next owned =>
        cases found
        obtain ⟨owner, mem, named, atLevel⟩ : ∃ owner ∈ scope.owners, owner.1 = name ∧ (owner.2 : Int) = symbol.level := by
          simpa using owned
        exact hosts.result_fits resolved kind mem (Prod.ext ((hosts.name_eq resolved).trans named.symm) atLevel.symm)
      · cases found
    | constant | procedure =>
      simp only [kind] at found
      cases found

variable (unary : rule.Writes watch symbols fun _ => True)
include unary

theorem assignment_writes (name : String) :
    (assignment scope rule name (symbols.resolve name)).Writes watch symbols fun _ => True := by
  have value := expression_writes hosts unary
  rw [assignment]
  split
  · exact (report_silent hosts.inForce _).writes.bind fun _ _ => value
  · next distance offset found =>
    exact value.bind fun _ _ => (emit_plain hosts (target?_fits hosts found) (by simp)).discard.bind
      fun _ _ => (emit_inPlace hosts .assign (by simp) fun _ => rfl).discard

theorem namedStatement_writes (name : String) :
    (namedStatement scope rule name).Writes watch symbols fun _ => True := by
  have inForce := hosts.inForce
  have assigned := assignment_writes hosts unary name
  have advances := (advance_silent inForce hosts.elsewhere).writes
  refine (resolve_silent inForce name hosts.inStatement hosts.within).writes.bind fun found isFound => ?_
  subst isFound
  refine (accept_silent inForce (by decide)).writes.bind fun opened _ => ?_
  split
  · have complains : ((callComplaint? name (symbols.resolve name)).forM report).Writes watch symbols fun _ => True := by
      cases callComplaint? name (symbols.resolve name) with
      | none => exact .of_pure trivial
      | some complaint => exact (report_silent inForce complaint).writes
    refine complains.bind fun _ _ => (arguments_writes hosts unary).bind fun count _ => ?_
    split
    · next procedure resolved callable =>
      have kind : procedure.kind = .procedure := by
        rw [resolved, callComplaint?] at callable
        split at callable <;> first | assumption | cases callable
      exact call_writes hosts resolved (.inl kind) count
    · exact .of_pure trivial
  · refine (token_silent inForce).writes.bind fun t _ => ?_
    split
    · exact advances.bind fun _ _ => assigned
    · split
      · exact (report_silent inForce _).writes.bind fun _ _ => advances.bind fun _ _ => assigned
      · exact (report_silent inForce _).writes

variable {body : Rule} (inner : body.Writes watch symbols fun _ => True)
include inner

omit unary in
theorem statements_writes (rounds : Nat) : (statements body rounds).Writes watch symbols fun _ => True := by
  have inForce := hosts.inForce
  induction rounds with
  | zero => exact .of_pure trivial
  | succ rounds ih =>
    refine inner.bind fun _ _ => (accept_silent inForce (by decide)).writes.bind fun more _ => ?_
    split
    · exact ih
    · refine (token_silent inForce).writes.bind fun t _ => ?_
      split
      · exact (report_silent inForce _).writes.bind fun _ _ => ih
      · exact .of_pure trivial

theorem conditional_writes : (conditional rule body).Writes watch symbols fun _ => True := by
  have inForce := hosts.inForce
  intro draft same
  refine (condition_writes hosts unary draft same).bind fun _ w d ⟨written, _⟩ => ?_
  refine (emit_pending hosts written (.inr rfl)).bind fun skipJump w d ⟨written, above⟩ => ?_
  refine ((require_silent inForce (by decide)).writes.heeds written).bind fun _ w d ⟨written, _⟩ => ?_
  refine (inner.heeds written).bind fun _ w d ⟨written, _⟩ => ?_
  refine ((accept_silent inForce (by decide)).writes.heeds written).bind fun alternative w d ⟨written, _⟩ => ?_
  split
  · refine (emit_pending hosts written (.inl rfl)).bind fun endJump w d ⟨written, behind⟩ => ?_
    refine (patch_here hosts [endJump] written above).bind fun _ w d written => ?_
    refine (inner.heeds written).bind fun _ w d ⟨written, _⟩ => ?_
    exact (patch_here hosts [] written behind).imp fun _ _ _ written => ⟨written, trivial⟩
  · exact (patch_here hosts [] written above).imp fun _ _ _ written => ⟨written, trivial⟩

theorem whileLoop_writes : (whileLoop rule body).Writes watch symbols fun _ => True := by
  have inForce := hosts.inForce
  intro draft same
  refine (here_heeds inForce same).bind ?_
  rintro start w draft ⟨rfl, rfl, rfl⟩
  refine (condition_writes hosts unary draft same).bind fun _ w d ⟨written, _⟩ => ?_
  refine (emit_pending hosts written (.inr rfl)).bind fun exitJump w d ⟨written, above⟩ => ?_
  refine ((require_silent inForce (by decide)).writes.heeds written).bind fun _ w d ⟨written, _⟩ => ?_
  refine (inner.heeds written).bind fun _ w d ⟨written, _⟩ => ?_
  have back := emit_back hosts written (.inl rfl) (Nat.le_refl draft.code.size) written.reached.size_le
  refine back.bind fun _ w d written => ?_
  exact (patch_here hosts [] written above).imp fun _ _ _ written => ⟨written, trivial⟩

theorem repeatLoop_writes : (repeatLoop rule body).Writes watch symbols fun _ => True := by
  have inForce := hosts.inForce
  intro draft same
  refine (here_heeds inForce same).bind ?_
  rintro start w draft ⟨rfl, rfl, rfl⟩
  refine (inner draft same).bind fun _ w d ⟨written, _⟩ => ?_
  refine ((require_silent inForce (by decide)).writes.heeds written).bind fun _ w d ⟨written, _⟩ => ?_
  refine ((condition_writes hosts unary).heeds written).bind fun _ w d ⟨written, _⟩ => ?_
  have back := emit_back hosts written (.inr rfl) (Nat.le_refl draft.code.size) written.reached.size_le
  exact back.imp fun _ _ _ written => ⟨written, trivial⟩

omit unary inner in
/-- A statement changes no declarations, and its code is of its own. -/
theorem statement_writes (depth : Nat) : (statement scope depth).Writes watch symbols fun _ => True := by
  have inForce := hosts.inForce
  have advances := (advance_silent inForce hosts.elsewhere).writes
  induction depth with
  | zero => exact (abandon_silent inForce).writes
  | succ depth ih =>
    have unary := unary_writes hosts depth
    refine (token_silent inForce).writes.bind fun t _ => ?_
    split
    · exact advances.bind fun _ _ => namedStatement_writes hosts unary _
    · exact advances.bind fun _ _ => (bound_silent inForce).writes.bind fun rounds _ =>
        (statements_writes hosts ih rounds).bind fun _ _ => (require_silent inForce (by decide)).writes
    · exact advances.bind fun _ _ => conditional_writes hosts unary ih
    · exact advances.bind fun _ _ => whileLoop_writes hosts unary ih
    · exact advances.bind fun _ _ => repeatLoop_writes hosts unary ih
    · exact .of_pure trivial

end Statements

end Grammar

end PLZero
