import PLZero.Proofs.Recovery.Headings

namespace PLZero

/-- Whether all requests of a rule are of a kind, whatever the answers to them are. -/
def Production.Only (kind : Request → Prop) {α : Type} : Production α → Prop
  | done _ => True
  | ask request next => kind request ∧ ∀ answer, (next answer).Only kind

/-- Whether a complaint is about characters and not about tokens. -/
def Complaint.isLexical : Complaint → Bool
  | unknownCharacter _ | unterminatedComment _ => true
  | _ => false

/-- The requests that a grammar rule may make whatever it has read: it leaves complaints about characters to the lexer,
and where an opcode does without a level or a value, it gives none. -/
def Request.IsOrderly : Request → Prop
  | report complaint => complaint.isLexical = false
  | emit op level value =>
    match op.operands with
    | .none => level = 0 ∧ value = 0
    | .value => level = 0
    | .levelAndValue => True
  | _ => True

namespace Request

/-- An orderly request, which fills in nothing but a jump. -/
def Suits (jumps : Nat → Prop) (request : Request) : Prop :=
  request.IsOrderly ∧ ∀ position target, request = .patch position target → jumps position

/-- The address that is told for a jump which is emitted is known as one of a jump. -/
def Tells (jumps : Nat → Prop) : (request : Request) → request.Answer → Prop
  | emit op _ _, address => op = .jump ∨ op = .jneq → jumps address
  | _, _ => True

end Request

namespace Production

variable {α β : Type} {jumps : Nat → Prop} {rule : Production α} {yields : α → Prop}

/-- All requests of a rule suit what it has been told, and so does its result. -/
def Promises (jumps : Nat → Prop) (yields : α → Prop) : Production α → Prop
  | done result => yields result
  | ask request next => request.Suits jumps ∧ ∀ answer, request.Tells jumps answer → (next answer).Promises jumps yields

/-- A rule that makes orderly requests, and fills in only jumps that it has emitted. -/
def Orderly (jumps : Nat → Prop) (rule : Production α) : Prop :=
  rule.Promises jumps fun _ => True

theorem Promises.of_pure {a : α} (yielded : yields a) : (pure a : Production α).Promises jumps yields :=
  yielded

theorem Promises.bind {next : α → Production β} {result : β → Prop} (first : rule.Promises jumps yields)
    (rest : ∀ a, yields a → (next a).Promises jumps result) : (rule >>= next).Promises jumps result := by
  induction rule with
  | done a => exact rest a first
  | ask request others ih => exact ⟨first.1, fun answer told => ih answer (first.2 answer told)⟩

theorem Orderly.of_request {request : Request} (suits : request.Suits jumps) : (ask request .done).Orderly jumps :=
  ⟨suits, fun _ _ => trivial⟩

theorem Orderly.bind {next : α → Production β} {result : β → Prop} (first : rule.Orderly jumps)
    (rest : ∀ a, (next a).Promises jumps result) : (rule >>= next).Promises jumps result :=
  Promises.bind first fun a _ => rest a

theorem Orderly.discard (orderly : rule.Orderly jumps) : (discard rule).Orderly jumps :=
  orderly.bind fun _ => .of_pure trivial

/-- The requests of a rule are orderly also if any address may be filled in. -/
theorem Orderly.only (orderly : rule.Orderly fun _ => True) : rule.Only Request.IsOrderly := by
  induction rule with
  | done result => exact trivial
  | ask request next ih =>
    refine ⟨orderly.1.1, fun answer => ih answer (orderly.2 answer ?_)⟩
    cases request with
    | emit op level value => exact fun _ => trivial
    | _ => exact trivial

end Production

namespace Grammar

open Production

variable {α : Type} {jumps : Nat → Prop}

section Tokens

theorem token_orderly : token.Orderly jumps := .of_request ⟨trivial, nofun⟩

theorem advance_orderly : advance.Orderly jumps := .of_request ⟨trivial, nofun⟩

theorem bound_orderly : bound.Orderly jumps := .of_request ⟨trivial, nofun⟩

theorem here_orderly : here.Orderly jumps := .of_request ⟨trivial, nofun⟩

theorem patch_orderly {position : Nat} (isJump : jumps position) (target : Nat) :
    (patch position target).Orderly jumps :=
  .of_request ⟨trivial, fun _ _ same => Request.patch.inj same |>.1 ▸ isJump⟩

theorem resolve_orderly (name : String) : (resolve name).Orderly jumps := .of_request ⟨trivial, nofun⟩

theorem abandon_orderly : (abandon : Production α).Orderly jumps :=
  ⟨⟨trivial, nofun⟩, fun answer => answer.elim⟩

theorem report_orderly (complaint : Complaint) (isOther : complaint.isLexical = false) :
    (report complaint).Orderly jumps :=
  .of_request ⟨isOther, nofun⟩

theorem emit_orderly (op : Opcode) (isPlain : op.operands = .none) : (emit op).Orderly jumps :=
  .of_request ⟨by rw [Request.IsOrderly, isPlain]; exact ⟨rfl, rfl⟩, nofun⟩

theorem emit_value_orderly (op : Opcode) (takesValue : op.operands = .value) (value : Int) :
    (emit op 0 value).Orderly jumps :=
  .of_request ⟨by rw [Request.IsOrderly, takesValue], nofun⟩

theorem emit_level_orderly (op : Opcode) (takesBoth : op.operands = .levelAndValue) (level value : Int) :
    (emit op level value).Orderly jumps :=
  .of_request ⟨by rw [Request.IsOrderly, takesBoth]; exact trivial, nofun⟩

/-- The address of a jump that is emitted may be filled in. -/
theorem emit_jump_promises {op : Opcode} (isJump : op = .jump ∨ op = .jneq) (takesValue : op.operands = .value) :
    (emit op).Promises jumps jumps :=
  ⟨(emit_value_orderly op takesValue 0).1, fun _ told => told isJump⟩

theorem check_orderly (kind : TokenKind) : (check kind).Orderly jumps :=
  token_orderly.bind fun _ => .of_pure trivial

theorem accept_orderly (kind : FixedKind) : (accept kind).Orderly jumps := by
  refine (check_orderly _).bind fun here => ?_
  split
  · exact advance_orderly.bind fun _ => .of_pure trivial
  · exact .of_pure trivial

theorem expect_orderly (kind : FixedKind) : (expect kind).Orderly jumps := by
  refine (accept_orderly kind).bind fun taken => ?_
  split
  · exact .of_pure trivial
  · exact token_orderly.bind fun found => (report_orderly (.expected _ found) rfl).bind fun _ => .of_pure trivial

theorem require_orderly (kind : FixedKind) : (require kind).Orderly jumps :=
  (expect_orderly kind).discard

theorem expectIdentifier_orderly : expectIdentifier.Orderly jumps := by
  refine token_orderly.bind fun found => ?_
  split
  · exact advance_orderly.bind fun _ => .of_pure trivial
  · exact (report_orderly (.expected _ _) rfl).bind fun _ => .of_pure trivial

theorem expectInteger_orderly : expectInteger.Orderly jumps := by
  refine token_orderly.bind fun found => ?_
  split
  · exact advance_orderly.bind fun _ => .of_pure trivial
  · exact (report_orderly (.expected _ _) rfl).bind fun _ => .of_pure trivial

theorem literal_orderly (value : Nat) : (literal value).Orderly jumps := by
  rw [literal]
  split
  · exact (report_orderly (.outOfRange _) rfl).bind fun _ => .of_pure trivial
  · exact .of_pure trivial

theorem commaSeparated_orderly (item : α → Production α) (items : ∀ a, (item a).Orderly jumps) (rounds : Nat)
    (a : α) : (commaSeparated item rounds a).Orderly jumps := by
  induction rounds generalizing a with
  | zero => exact .of_pure trivial
  | succ rounds ih =>
    refine (items a).bind fun result => (accept_orderly _).bind fun more => ?_
    split
    · exact ih result
    · exact .of_pure trivial

theorem acceptOperator_orderly {Op : Type} (operator : FixedKind → Option Op) :
    (acceptOperator operator).Orderly jumps := by
  refine token_orderly.bind fun found => ?_
  split
  · split
    · exact advance_orderly.bind fun _ => .of_pure trivial
    · exact .of_pure trivial
  · exact .of_pure trivial

end Tokens

variable {rule : Rule} (unary : rule.Orderly jumps)

section Expressions

include unary

theorem operations_orderly (operator : FixedKind → Option BinaryOp) (rounds : Nat) :
    (operations operator rule rounds).Orderly jumps := by
  induction rounds with
  | zero => exact .of_pure trivial
  | succ rounds ih =>
    refine (acceptOperator_orderly operator).bind fun found => ?_
    split
    · exact unary.bind fun _ => (emit_orderly (.binary _) rfl).discard.bind fun _ => ih
    · exact .of_pure trivial

theorem leftAssociative_orderly (operator : FixedKind → Option BinaryOp) :
    (leftAssociative operator rule).Orderly jumps :=
  unary.bind fun _ => bound_orderly.bind fun rounds => operations_orderly unary operator rounds

theorem expression_orderly : (expression rule).Orderly jumps := by
  have terms : (term rule).Orderly jumps := leftAssociative_orderly unary multiplying
  have rest : ∀ rounds, (operations adding (term rule) rounds).Orderly jumps := operations_orderly terms adding
  refine (check_orderly _).bind fun negated => ?_
  cases negated with
  | true =>
    exact advance_orderly.bind fun _ => terms.bind fun _ => (emit_orderly (.unary .neg) rfl).discard.bind fun _ =>
      bound_orderly.bind rest
  | false => exact (accept_orderly _).discard.bind fun _ => terms.bind fun _ => bound_orderly.bind rest

theorem relation_orderly : (relation rule).Orderly jumps := by
  have expressions := expression_orderly unary
  refine (accept_orderly _).bind fun odd => ?_
  split
  · exact expressions.bind fun _ => (emit_value_orderly .pushConst rfl _).discard.bind fun _ =>
      (emit_orderly (.binary .band) rfl).discard
  · refine expressions.bind fun _ => (acceptOperator_orderly relational).bind fun found => ?_
    split
    · exact expressions.bind fun _ => (emit_orderly (.binary _) rfl).discard
    · exact .of_pure trivial

theorem condition_orderly : (condition rule).Orderly jumps :=
  leftAssociative_orderly (leftAssociative_orderly (relation_orderly unary) conjunctive) disjunctive

theorem arguments_orderly : (arguments rule).Orderly jumps := by
  refine (check_orderly _).bind fun none => ?_
  split
  · exact (require_orderly _).bind fun _ => .of_pure trivial
  · have items := commaSeparated_orderly (fun count => do expression rule; return count + 1) fun _ =>
      (expression_orderly unary).bind fun _ => .of_pure trivial
    exact bound_orderly.bind fun rounds => (items rounds 0).bind fun _ => (require_orderly _).bind fun _ =>
      .of_pure trivial

omit unary in
theorem call_orderly (scope : Scope) (symbol : Symbol) (count : Nat) :
    (call scope symbol count).Orderly jumps := by
  rw [call]
  split
  · exact (emit_level_orderly .call rfl _ _).discard
  · exact report_orderly (.argumentCount _ _ _) rfl

theorem strayArguments_orderly : (strayArguments rule).Orderly jumps := by
  refine (accept_orderly _).bind fun opened => ?_
  split
  · exact (arguments_orderly unary).discard
  · exact .of_pure trivial

theorem namedFactor_orderly (scope : Scope) (name : String) :
    (namedFactor scope rule name).Orderly jumps := by
  refine (resolve_orderly name).bind fun found => ?_
  split
  · exact (report_orderly (.undefined _) rfl).bind fun _ => strayArguments_orderly unary
  · split
    · exact (emit_value_orderly .pushConst rfl _).discard
    · exact (emit_level_orderly .pushVar rfl _ _).discard.bind fun _ => (emit_orderly .eval rfl).discard
    · refine (expect_orderly _).bind fun opened => ?_
      split
      · exact (arguments_orderly unary).bind fun count => call_orderly scope _ count
      · exact .of_pure trivial
    · exact (report_orderly (.procedureAsValue _) rfl).bind fun _ => strayArguments_orderly unary

theorem factor_orderly (scope : Scope) : (factor scope rule).Orderly jumps := by
  refine token_orderly.bind fun found => ?_
  split
  · exact advance_orderly.bind fun _ => namedFactor_orderly unary scope _
  · exact advance_orderly.bind fun _ => (literal_orderly _).bind fun _ => (emit_value_orderly .pushConst rfl _).discard
  · exact advance_orderly.bind fun _ => (condition_orderly unary).bind fun _ => require_orderly _
  · exact (report_orderly (.realNumber _) rfl).bind fun _ => advance_orderly
  · refine (report_orderly (.expectedFactor _) rfl).bind fun _ => ?_
    split
    · exact .of_pure trivial
    · exact advance_orderly

omit unary in
theorem unary_orderly (scope : Scope) (depth : Nat) : (Grammar.unary scope depth).Orderly jumps := by
  induction depth with
  | zero => exact abandon_orderly
  | succ depth ih =>
    refine (acceptOperator_orderly complementing).bind fun found => ?_
    split
    · exact ih.bind fun _ => (emit_orderly (.unary _) rfl).discard
    · exact factor_orderly ih scope

end Expressions

section Statements

include unary

theorem assignment_orderly (scope : Scope) (name : String) (symbol : Option Symbol) :
    (assignment scope rule name symbol).Orderly jumps := by
  have value := expression_orderly unary
  rw [assignment]
  split
  · next complaint isError =>
    refine (report_orderly complaint ?_).bind fun _ => value
    unfold target? at isError
    split at isError
    · cases isError
      rfl
    · split at isError
      · cases isError
      · split at isError <;> cases isError
        rfl
      · cases isError
        rfl
      · cases isError
        rfl
  · exact value.bind fun _ => (emit_level_orderly .pushVar rfl _ _).discard.bind fun _ =>
      (emit_orderly .assign rfl).discard

omit unary in
theorem callComplaint_orderly {name : String} {symbol : Option Symbol} :
    ((callComplaint? name symbol).forM report).Orderly jumps := by
  unfold callComplaint?
  split
  · exact report_orderly (.undefined _) rfl
  · split
    · exact .of_pure trivial
    · exact report_orderly (.functionAsStatement _) rfl
    · exact report_orderly (.notAProcedure _) rfl

theorem namedStatement_orderly (scope : Scope) (name : String) :
    (namedStatement scope rule name).Orderly jumps := by
  refine (resolve_orderly name).bind fun symbol => (accept_orderly _).bind fun opened => ?_
  split
  · refine callComplaint_orderly.bind fun _ => (arguments_orderly unary).bind fun count => ?_
    split
    · exact call_orderly scope _ count
    · exact .of_pure trivial
  · refine token_orderly.bind fun found => ?_
    split
    · exact advance_orderly.bind fun _ => assignment_orderly unary scope name symbol
    · split
      · exact (report_orderly (.expected _ _) rfl).bind fun _ => advance_orderly.bind fun _ =>
          assignment_orderly unary scope name symbol
      · exact report_orderly (.expectedAssignmentOrCall _) rfl

omit unary in
theorem statements_orderly {statement : Rule} (inner : statement.Orderly jumps) (rounds : Nat) :
    (statements statement rounds).Orderly jumps := by
  induction rounds with
  | zero => exact .of_pure trivial
  | succ rounds ih =>
    refine inner.bind fun _ => (accept_orderly _).bind fun more => ?_
    split
    · exact ih
    · refine token_orderly.bind fun found => ?_
      split
      · exact (report_orderly (.expected _ _) rfl).bind fun _ => ih
      · exact .of_pure trivial

variable {statement : Rule} (inner : statement.Orderly jumps)
include inner

theorem conditional_orderly : (conditional rule statement).Orderly jumps := by
  refine (condition_orderly unary).bind fun _ => (emit_jump_promises (.inr rfl) rfl).bind fun skipJump skips =>
    (require_orderly _).bind fun _ => inner.bind fun _ => (accept_orderly _).bind fun other => ?_
  split
  · exact (emit_jump_promises (.inl rfl) rfl).bind fun endJump ends => here_orderly.bind fun _ =>
      (patch_orderly skips _).bind fun _ => inner.bind fun _ => here_orderly.bind fun _ => patch_orderly ends _
  · exact here_orderly.bind fun _ => patch_orderly skips _

theorem whileLoop_orderly : (whileLoop rule statement).Orderly jumps :=
  here_orderly.bind fun _ => (condition_orderly unary).bind fun _ =>
    (emit_jump_promises (.inr rfl) rfl).bind fun _ exits => (require_orderly _).bind fun _ => inner.bind fun _ =>
      (emit_value_orderly .jump rfl _).discard.bind fun _ => here_orderly.bind fun _ => patch_orderly exits _

theorem repeatLoop_orderly : (repeatLoop rule statement).Orderly jumps :=
  here_orderly.bind fun _ => inner.bind fun _ => (require_orderly _).bind fun _ => (condition_orderly unary).bind
    fun _ => (emit_value_orderly .jneq rfl _).discard

omit unary inner in
theorem statement_orderly (scope : Scope) (depth : Nat) :
    (Grammar.statement scope depth).Orderly jumps := by
  induction depth with
  | zero => exact abandon_orderly
  | succ depth ih =>
    have unary : (Grammar.unary scope depth).Orderly jumps := unary_orderly scope depth
    refine token_orderly.bind fun found => ?_
    split
    · exact advance_orderly.bind fun _ => namedStatement_orderly unary scope _
    · exact advance_orderly.bind fun _ => bound_orderly.bind fun rounds => (statements_orderly ih rounds).bind fun _ =>
        require_orderly _
    · exact advance_orderly.bind fun _ => conditional_orderly unary ih
    · exact advance_orderly.bind fun _ => whileLoop_orderly unary ih
    · exact advance_orderly.bind fun _ => repeatLoop_orderly unary ih
    · exact .of_pure trivial

end Statements

section Declarations

theorem declareNew_orderly (symbol : Symbol) : (declareNew symbol).Orderly jumps := by
  refine Orderly.bind (.of_request ⟨trivial, nofun⟩) fun taken => ?_
  split
  · exact (report_orderly (.alreadyDefined _) rfl).bind fun _ => .of_pure trivial
  · exact Orderly.bind (.of_request ⟨trivial, nofun⟩) fun _ => .of_pure trivial

theorem constantDeclaration_orderly (scope : Scope) : (constantDeclaration scope).Orderly jumps := by
  refine expectIdentifier_orderly.bind fun name => ?_
  split
  · exact .of_pure trivial
  · refine (require_orderly _).bind fun _ => expectInteger_orderly.bind fun value => ?_
    split
    · exact .of_pure trivial
    · exact (literal_orderly _).bind fun _ => (declareNew_orderly _).discard

theorem variableDeclaration_orderly (scope : Scope) (offset : Nat) :
    (variableDeclaration scope offset).Orderly jumps := by
  refine expectIdentifier_orderly.bind fun name => ?_
  split
  · exact .of_pure trivial
  · refine (declareNew_orderly _).bind fun declared => ?_
    split
    · split
      · exact Orderly.bind (.of_request ⟨trivial, nofun⟩) fun _ => .of_pure trivial
      · exact .of_pure trivial
    · exact .of_pure trivial

theorem parameter_orderly (names : List String) : (parameter names).Orderly jumps := by
  refine expectIdentifier_orderly.bind fun name => ?_
  split
  · exact .of_pure trivial
  · split
    · exact (report_orderly (.duplicateParameter _) rfl).bind fun _ => .of_pure trivial
    · exact .of_pure trivial

theorem declareParameters_orderly (level count index : Nat) (names : List String) :
    (declareParameters level count index names).Orderly jumps := by
  induction names generalizing index with
  | nil => exact .of_pure trivial
  | cons name names ih => exact (declareNew_orderly _).discard.bind fun _ => ih (index + 1)

/-- What is done for the symbol of a subroutine is not done if there is none. -/
theorem forM_orderly {key : Option α} {rule : α → Rule} (each : ∀ a, (rule a).Orderly jumps) :
    (key.forM rule).Orderly jumps := by
  cases key with
  | none => exact .of_pure trivial
  | some a => exact each a

theorem setEntry_orderly (owner : Owner) (address : Nat) : (owner.setEntry address).Orderly jumps :=
  forM_orderly fun _ => .of_request ⟨trivial, nofun⟩

theorem setArity_orderly (key : Option (String × Nat)) (arity : Nat) :
    (key.forM fun (name, level) => setArity name level arity).Orderly jumps :=
  forM_orderly fun _ => .of_request ⟨trivial, nofun⟩

theorem declaredName_orderly (scope : Scope) (kind : SymbolKind) (name : Option String) :
    (declaredName scope kind name).Orderly jumps := by
  cases name with
  | none => exact .of_pure trivial
  | some name => exact declareNew_orderly _

theorem checkLevel_orderly (scope : Scope) : (checkLevel scope).Orderly jumps := by
  rw [checkLevel]
  split
  · exact report_orderly .tooManyLevels rfl
  · exact .of_pure trivial

theorem parameterNames_orderly : parameterNames.Orderly jumps := by
  refine (check_orderly _).bind fun some => ?_
  split
  · exact bound_orderly.bind fun rounds => commaSeparated_orderly parameter parameter_orderly rounds []
  · exact .of_pure trivial

theorem declarations_orderly (keyword : FixedKind) (item : α → Production α)
    (items : ∀ a, (item a).Orderly jumps) (a : α) :
    (declarations keyword item a).Orderly jumps := by
  refine (accept_orderly keyword).bind fun some => ?_
  split
  · exact bound_orderly.bind fun rounds => (commaSeparated_orderly item items rounds a).bind fun _ =>
      (require_orderly _).bind fun _ => .of_pure trivial
  · exact .of_pure trivial

theorem openBlock_promises (scope : Scope) (owner : Owner) :
    (openBlock scope owner).Promises jumps fun opened => jumps opened.1 :=
  (emit_jump_promises (.inl rfl) rfl).bind fun start starts => (setEntry_orderly owner start).bind fun _ =>
    (declarations_orderly _ _ (fun _ => constantDeclaration_orderly scope) ()).bind fun _ =>
      (declarations_orderly _ _ (variableDeclaration_orderly scope) frameSize).bind fun _ => .of_pure starts

theorem enterBlock_orderly (owner : Owner) {start : Nat} (starts : jumps start) (size : Nat) :
    (enterBlock owner start size).Orderly jumps :=
  (emit_value_orderly .enter rfl _).bind fun entry => (patch_orderly starts entry).bind fun _ =>
    setEntry_orderly owner entry

theorem leaveBlock_orderly (owner : Owner) (level : Nat) : (leaveBlock owner level).Orderly jumps := by
  have takesValue : owner.returnOp.operands = .value := by
    rw [Owner.returnOp]
    split <;> rfl
  exact (emit_value_orderly owner.returnOp takesValue _).discard.bind fun _ => Orderly.of_request ⟨trivial, nofun⟩

variable {block : Scope → Owner → Rule} (blocks : ∀ scope owner, (block scope owner).Orderly jumps)
include blocks

theorem subroutine_orderly (scope : Scope) (kind : SymbolKind) :
    (subroutine block scope kind).Orderly jumps := by
  rw [subroutine_eq]
  refine advance_orderly.bind fun _ => expectIdentifier_orderly.bind fun name =>
    (declaredName_orderly scope kind name).bind fun declared => (checkLevel_orderly scope).bind fun _ =>
    (require_orderly _).bind fun _ => parameterNames_orderly.bind fun names => (require_orderly _).bind fun _ =>
    (declareParameters_orderly _ _ _ names).bind fun _ => ?_
  exact (setArity_orderly _ _).bind fun _ => (blocks _ _).bind fun _ => require_orderly _

theorem subroutines_orderly (scope : Scope) (rounds : Nat) :
    (subroutines block scope rounds).Orderly jumps := by
  induction rounds with
  | zero => exact .of_pure trivial
  | succ rounds ih =>
    refine token_orderly.bind fun found => ?_
    split
    · exact (subroutine_orderly blocks scope _).bind fun _ => ih
    · exact (subroutine_orderly blocks scope _).bind fun _ => ih
    · exact .of_pure trivial

omit blocks in
theorem block_orderly (depth : Nat) (scope : Scope) (owner : Owner) :
    (Grammar.block depth scope owner).Orderly jumps := by
  induction depth generalizing scope owner with
  | zero => exact abandon_orderly
  | succ depth ih =>
    rw [block_succ]
    refine (openBlock_promises scope owner).bind fun (start, size) starts => bound_orderly.bind fun rounds =>
      (subroutines_orderly ih scope rounds).bind fun _ => (enterBlock_orderly owner starts size).bind fun _ =>
      (statement_orderly scope depth).bind fun _ => leaveBlock_orderly owner _

omit blocks in
theorem program_suits (depth : Nat) (jumps : Nat → Prop) : (program depth).Orderly jumps := by
  refine advance_orderly.bind fun _ => (block_orderly _ _ _).bind fun _ => (require_orderly _).bind fun _ =>
    token_orderly.bind fun found => ?_
  split
  · exact .of_pure trivial
  · exact report_orderly (.afterTheEnd found) rfl

omit blocks in
/-- The requests of the whole grammar are orderly. -/
theorem program_orderly (depth : Nat) : (program depth).Only Request.IsOrderly :=
  (program_suits depth _).only

end Declarations

end Grammar

end PLZero
