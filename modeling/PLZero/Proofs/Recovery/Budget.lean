import PLZero.Proofs.Recovery.Prices

/-!
The prices of statements, declarations and blocks. Each token that begins one of them pays for it, so that a list of
them costs nothing, however long it is.
-/

namespace PLZero

namespace Grammar

open Production

variable {α : Type} {short : Prop} {horizon price n : Nat} {t : Token} {limit : Nat} {draft : Draft} {first second : Rule}

/-- A statement takes the token that it begins with, and pays for a semicolon that is missing behind. Where none
begins, nothing happens. -/
def Steps (short : Prop) (horizon : Nat) (first second : Rule) : Prop :=
  ∀ limit draft, draft.Stands → draft.ahead < horizon → draft.weight < limit →
    Paced limit short first second draft fun _ after =>
      if startsStatement draft.current.token then after.ahead < draft.ahead ∧ after.weight + 4 ≤ draft.weight
      else after = draft

namespace Steps

theorem costs (steps : Steps short horizon first second) : Costs short horizon 0 first second := by
  intro t limit draft stands here ahead room
  refine (steps limit draft stands ahead room).imp fun _ after post => ?_
  split at post
  · exact Nat.le_trans (Nat.le_add_right _ 4) post.2
  · exact post ▸ Nat.le_refl _

theorem nearer (steps : Steps short horizon first second) : Steps short (horizon - 1) first second :=
  fun limit draft stands ahead => steps limit draft stands (by omega)

theorem of_advance {next other : Unit → Rule} (rest : Costs short (horizon - 1) 4 (next ()) (other ()))
    (starts : startsStatement t = true) (stands : draft.Stands) (here : draft.current.token = t)
    (ahead : draft.ahead < horizon) (room : draft.weight < limit) :
    Paced limit short (advance >>= next) (advance >>= other) draft fun _ after =>
      if startsStatement t then after.ahead < draft.ahead ∧ after.weight + 4 ≤ draft.weight else after = draft := by
  have more : draft.current.token ≠ .eof := by
    rw [here]
    rintro rfl
    cases starts
  refine (Paced.advance stands more).bind fun _ between stands _ ⟨_, closer, weight⟩ => ?_
  refine (rest _ limit between stands rfl (by omega) (by omega)).keeps.imp fun _ after ⟨kept, less⟩ => ?_
  rw [if_pos starts]
  have spent : after.weight ≤ between.weight + 4 := less
  omega

end Steps

theorem startsStatement_eq_false (noName : ∀ name, t ≠ .identifier name) (noBegin : t ≠ .fixed .beginKw)
    (noIf : t ≠ .fixed .ifKw) (noWhile : t ≠ .fixed .whileKw) (noRepeat : t ≠ .fixed .repeatKw) :
    startsStatement t = false := by
  cases t with
  | identifier name => exact absurd rfl (noName name)
  | fixed kind => simp_all [startsStatement]
  | _ => rfl

/-- What follows a statement behind `begin`. -/
def moreStatements (statement : Rule) (rounds : Nat) : Rule := do
  if ← accept .semicolon then statements statement rounds
  else
    let found ← token
    if startsStatement found then
      report (.expected (.fixed .semicolon) found)
      statements statement rounds

theorem statements_succ (statement : Rule) (rounds : Nat) :
    statements statement (rounds + 1) = statement >>= fun _ => moreStatements statement rounds := rfl

theorem moreStatements_at {b c : Nat} (next : Costs short (horizon - 1) 0 (statements first b) (statements second c))
    (missing : startsStatement t = true →
      1 ≤ price ∧ Costs short horizon 0 (statements first b) (statements second c)) :
    CostsAt t short horizon price (moreStatements first b) (moreStatements second c) := by
  refine accept_at _ (fun _ => next.within (by omega)) fun _ => .of_token ?_
  split
  · next starts =>
    obtain ⟨paid, further⟩ := missing starts
    exact (CostsAt.of_report _ (further t)).within (by omega)
  · exact .of_pure (Nat.zero_le _)

/-- Each round behind the first one is paid by the semicolon in front, or by the statement in front if that is
missing. -/
theorem statements_costs (steps : Steps short horizon first second) {b c : Nat} (enoughFirst : horizon ≤ b)
    (enoughSecond : horizon ≤ c) : Costs short horizon 0 (statements first b) (statements second c) := by
  induction b generalizing c horizon with
  | zero =>
    obtain rfl := Nat.le_zero.mp enoughFirst
    exact .of_none _
  | succ b ih =>
    cases c with
    | zero =>
      obtain rfl := Nat.le_zero.mp enoughSecond
      exact .of_none _
    | succ c =>
      intro t limit draft stands here ahead room
      have further : Costs short (horizon - 1) 0 (statements first b) (statements second c) :=
        ih steps.nearer (by omega) (by omega)
      rw [statements_succ, statements_succ]
      refine (steps limit draft stands ahead room).bind fun _ after stands _ post => ?_
      by_cases starts : startsStatement draft.current.token
      · rw [if_pos starts] at post
        obtain ⟨taken, weight⟩ := post
        have rest : CostsAt after.current.token short (horizon - 1) 1 (moreStatements first b)
          (moreStatements second c) := moreStatements_at further.nearer fun _ => ⟨Nat.le_refl _, further⟩
        refine (rest limit after stands rfl (by omega) (by omega)).imp fun _ last spent => ?_
        exact Nat.le_trans spent (by omega)
      · rw [if_neg starts] at post
        subst post
        have rest : CostsAt after.current.token short horizon 0 (moreStatements first b) (moreStatements second c) :=
          moreStatements_at further fun begins => absurd begins starts
        exact rest limit after stands rfl ahead room

section Statements

variable (operand : Costs short horizon 1 first second)
include operand

theorem assignment_costs (scope : Scope) (name : String) (symbol : Option Symbol) :
    Costs short horizon 3 (assignment scope first name symbol) (assignment scope second name symbol) := by
  have value := expression_costs operand
  rw [assignment, assignment]
  split
  · exact ((Costs.report _).bind fun _ => value).within (by omega)
  · exact value.bind fun _ => (Costs.emit _ _ _).discard.bind fun _ => (Costs.emit _ _ _).discard

omit operand in
theorem callComplaint_costs (complaint : Option Complaint) :
    Costs short horizon 1 (complaint.forM report) (complaint.forM report) := by
  cases complaint with
  | none => exact .done _
  | some complaint => exact .report complaint

theorem namedStatement_costs (scope : Scope) (name : String) :
    Costs short horizon 1 (namedStatement scope first name) (namedStatement scope second name) := by
  refine (resolve_costs name).bind (m := 1) fun symbol => ?_
  intro t
  have stored := (assignment_costs operand scope name symbol).nearer
  refine accept_at _ (fun _ => ?_) fun _ => .of_token ?_
  · refine ((callComplaint_costs _).bind fun _ => (arguments_costs operand).nearer.bind (m := 1) fun count => ?_).within
      (by omega)
    split
    · exact call_costs scope _ count
    · exact .done _
  · split
    · next assigns => exact .of_advance (ne_eof_of_fixed assigns) (stored.within (by omega))
    · split
      · next equals => exact .of_report _ (.of_advance (ne_eof_of_fixed equals) (stored.within (by omega)))
      · exact Costs.report _ t

variable {statement other : Rule} (inner : Costs short horizon 0 statement other)
include inner

theorem conditional_costs : Costs short horizon 3 (conditional first statement) (conditional second other) := by
  refine (condition_costs operand).bind (m := 2) fun _ => (Costs.emit _ _ _).bind (m := 1) fun skipJump =>
    (require_costs _).bind (m := 0) fun _ => inner.bind (m := 0) fun _ => accept_costs _ ?_ ?_
  · exact ((Costs.emit _ _ _).bind fun endJump => here_costs.bind fun _ => (patch_costs _ _).bind fun _ =>
      inner.nearer.bind fun _ => here_costs.bind fun _ => patch_costs _ _).within (by omega)
  · exact here_costs.bind fun _ => patch_costs _ _

theorem whileLoop_costs : Costs short horizon 4 (whileLoop first statement) (whileLoop second other) :=
  here_costs.bind fun _ => (condition_costs operand).bind fun _ => (Costs.emit _ _ _).bind fun _ =>
    (require_costs _).bind fun _ => inner.bind fun _ => (Costs.emit _ _ _).discard.bind fun _ =>
      here_costs.bind fun _ => patch_costs _ _

theorem repeatLoop_costs : Costs short horizon 3 (repeatLoop first statement) (repeatLoop second other) :=
  here_costs.bind fun _ => inner.bind fun _ => (require_costs _).bind fun _ =>
    (condition_costs operand).bind fun _ => (Costs.emit _ _ _).discard

omit operand inner in
theorem statement_steps (scope : Scope) {p q : Nat} (alike : Alike short horizon p q) :
    Steps short horizon (Grammar.statement scope p) (Grammar.statement scope q) := by
  induction p generalizing q horizon with
  | zero =>
    intro limit draft stands ahead room
    rcases alike.zero (.inl rfl) with rfl | ⟨isShort, -, rfl⟩
    · exact absurd ahead (Nat.not_lt_zero _)
    · exact .abandon isShort room
  | succ p ih =>
    intro limit draft stands ahead room
    cases q with
    | zero =>
      rcases alike.zero (.inr rfl) with rfl | ⟨-, absurd, -⟩
      · exact absurd ahead (Nat.not_lt_zero _)
      · cases absurd
    | succ q =>
      have steps := ih alike.nearer
      have operand := unary_costs scope alike.nearer
      refine .of_token ?_
      obtain ⟨t, here⟩ : ∃ t, draft.current.token = t := ⟨_, rfl⟩
      rw [here]
      split
      · exact Steps.of_advance ((namedStatement_costs operand scope _).within (by omega)) rfl stands here ahead room
      · refine Steps.of_advance ?_ rfl stands here ahead room
        refine .of_bound fun nearer b c near enoughFirst enoughSecond => ?_
        have list := statements_costs (fun limit draft stands closer =>
          steps limit draft stands (Nat.lt_of_lt_of_le closer near)) enoughFirst enoughSecond
        exact (list.bind fun _ => require_costs _).within (by omega)
      · exact Steps.of_advance ((conditional_costs operand steps.costs).within (by omega)) rfl stands here ahead room
      · exact Steps.of_advance (whileLoop_costs operand steps.costs) rfl stands here ahead room
      · exact Steps.of_advance ((repeatLoop_costs operand steps.costs).within (by omega)) rfl stands here ahead room
      · next noName noBegin noIf noWhile noRepeat =>
        refine .of_pure stands ?_
        rw [startsStatement_eq_false noName noBegin noIf noWhile noRepeat]
        rfl

end Statements

section Declarations

theorem declareNew_costs (symbol : Symbol) : Costs short horizon 1 (declareNew symbol) (declareNew symbol) := by
  refine (Costs.of_free (.isDeclared _ _) trivial).bind (n := 0) (m := 1) fun taken => ?_
  split
  · exact (Costs.report _).bind (m := 0) fun _ => .done _
  · exact ((Costs.of_free (.declare _) trivial).bind (n := 0) (m := 0) fun _ => .done _).within (by omega)

theorem expectIdentifier_costs {value : α → Nat} {next other : Option String → Production α}
    (taken : ∀ name, Costs short (horizon - 1) (n + 9) (next (some name)) (other (some name)) value)
    (left : Costs short horizon n (next none) (other none) value) :
    Costs short horizon (n + 1) (expectIdentifier >>= next) (expectIdentifier >>= other) value := by
  intro t
  rw [expectIdentifier, LawfulMonad.bind_assoc, LawfulMonad.bind_assoc]
  refine .of_token ?_
  split
  · exact .of_advance nofun (taken _)
  · exact .of_report _ (left t)

theorem expectInteger_costs {value : α → Nat} {next other : Option Nat → Production α}
    (taken : ∀ literal, Costs short (horizon - 1) (n + 9) (next (some literal)) (other (some literal)) value)
    (left : Costs short horizon n (next none) (other none) value) :
    Costs short horizon (n + 1) (expectInteger >>= next) (expectInteger >>= other) value := by
  intro t
  rw [expectInteger, LawfulMonad.bind_assoc, LawfulMonad.bind_assoc]
  refine .of_token ?_
  split
  · exact .of_advance nofun (taken _)
  · exact .of_report _ (left t)

theorem constantDeclaration_costs (scope : Scope) :
    Costs short horizon 1 (constantDeclaration scope) (constantDeclaration scope) := by
  refine expectIdentifier_costs (n := 0) (fun name => ?_) (.done _)
  refine Costs.within (n := 2) ?_ (by omega)
  refine (require_costs _).bind (m := 1) fun _ => expectInteger_costs (n := 0) (fun literal => ?_) (.done _)
  exact ((literal_costs literal).bind fun _ => (declareNew_costs _).discard).within (by omega)

theorem variableDeclaration_costs (scope : Scope) (offset : Nat) :
    Costs short horizon 1 (variableDeclaration scope offset) (variableDeclaration scope offset) := by
  refine expectIdentifier_costs (n := 0) (fun name => ?_) (.done _)
  refine ((declareNew_costs _).bind (m := 0) fun isNew => ?_).within (by omega)
  split
  · split
    · exact (Costs.of_free (.addGlobal _ _) trivial).bind (n := 0) (m := 0) fun _ => .done _
    · exact .done _
  · exact .done _

/-- A list of declarations is paid by the keyword in front. -/
theorem declarations_costs (keyword : FixedKind) {item : α → Production α}
    (items : ∀ {horizon} a, Costs short horizon 1 (item a) (item a)) (a : α) :
    Costs short horizon 0 (declarations keyword item a) (declarations keyword item a) := by
  refine accept_costs _ (.of_bound fun nearer b c near enoughFirst enoughSecond => ?_) (.done _)
  have list : Costs short nearer 1 (commaSeparated item b a) (commaSeparated item c a) :=
    commaSeparated_costs (n := 1) items (by omega) enoughFirst enoughSecond a
  exact (list.bind fun _ => (require_costs _).bind (m := 0) fun _ => .done _).within (by omega)

/-- A parameter that is new pays for its declaration, which may fail. -/
theorem parameter_costs (names : List String) :
    Costs short horizon (names.length + 1) (parameter names) (parameter names) List.length := by
  refine expectIdentifier_costs (fun name => ?_) (.of_pure (Nat.le_refl _))
  dsimp only
  split
  · exact ((Costs.report _).bind (m := names.length) fun _ => .of_pure (Nat.le_refl _)).within (by omega)
  · refine .of_pure ?_
    rw [List.length_append, List.length_singleton]
    omega

/-- The first name is there, and each further one is paid by the comma in front. -/
theorem parameterNames_costs : Costs short horizon 0 parameterNames parameterNames List.length := by
  intro t
  refine check_at _ ?_
  split
  · next isName =>
    cases t with
    | identifier name =>
      refine .of_bound fun nearer b c near enoughFirst enoughSecond => ?_
      cases b with
      | zero =>
        obtain rfl := Nat.le_zero.mp enoughFirst
        exact Costs.of_none _ _
      | succ b =>
        cases c with
        | zero =>
          obtain rfl := Nat.le_zero.mp enoughSecond
          exact Costs.of_none _ _
        | succ c =>
          have rest : Costs short (nearer - 1) ([name] : List String).length _ _ List.length :=
            commaSeparated_rest (fun names => parameter_costs names) (by omega) (b := b) (c := c) (by omega) (by omega)
              [name]
          rw [commaSeparated, commaSeparated, parameter, expectIdentifier]
          simp only [LawfulMonad.bind_assoc]
          refine .of_token ?_
          simp only [LawfulMonad.bind_assoc, pure_bind]
          exact .of_advance (fun isEnd => Token.noConfusion isEnd) (rest.within (by simp))
    | _ => cases of_decide_eq_true isName
  · exact .of_pure (Nat.le_refl _)

theorem declareParameters_costs (level count index : Nat) (names : List String) :
    Costs short horizon names.length (declareParameters level count index names)
      (declareParameters level count index names) := by
  induction names generalizing index with
  | nil => exact .done _
  | cons name names ih =>
    rw [List.length_cons, Nat.add_comm]
    exact (declareNew_costs _).discard.bind fun _ => ih _

end Declarations

section Blocks

theorem checkLevel_costs (scope : Scope) : Costs short horizon 1 (checkLevel scope) (checkLevel scope) := by
  rw [checkLevel]
  split
  · exact .report _
  · exact .done _

theorem setArity_costs (key : Option (String × Nat)) (arity : Nat) :
    Costs short horizon 0 (key.forM fun (name, level) => setArity name level arity)
      (key.forM fun (name, level) => setArity name level arity) := by
  cases key with
  | none => exact .done _
  | some key => exact .of_free (.setArity _ _ _) trivial

theorem setEntry_costs (owner : Owner) (address : Nat) :
    Costs short horizon 0 (owner.setEntry address) (owner.setEntry address) := by
  obtain ⟨kind, key, parameters⟩ := owner
  cases key with
  | none => exact .done _
  | some key => exact .of_free (.setValue _ _ _) trivial

section Subroutines

variable {block other : Scope → Owner → Rule}

/-- What stands behind the name in a subroutine. -/
def subroutineBody (block : Scope → Owner → Rule) (scope : Scope) (kind : SymbolKind) (key : Option (String × Nat)) :
    Rule := do
  checkLevel scope
  require .lparen
  let parameters ← parameterNames
  require .rparen
  declareParameters (scope.level + 1) parameters.length 0 parameters
  key.forM fun (name, level) => setArity name level parameters.length
  block ⟨scope.level + 1, key.toList ++ scope.owners⟩ ⟨kind, key, parameters.length⟩
  require .semicolon

theorem subroutineBody_costs
    (blocks : ∀ scope owner, Costs short horizon 3 (block scope owner) (other scope owner)) (scope : Scope)
    (kind : SymbolKind) (key : Option (String × Nat)) :
    Costs short horizon 7 (subroutineBody block scope kind key) (subroutineBody other scope kind key) := by
  refine (checkLevel_costs _).bind (m := 6) fun _ => (require_costs _).bind (m := 5) fun _ => ?_
  refine parameterNames_costs.bindValue (f := fun names => names.length + 5) (fun names => ?_) (by omega)
    fun names => by omega
  exact ((require_costs _).bind fun _ => (declareParameters_costs _ _ _ names).bind fun _ =>
    (setArity_costs key _).bind fun _ => (blocks _ _).bind fun _ => require_costs _).within (by omega)

/-- A subroutine is paid by its keyword. -/
theorem subroutine_at {next further : Unit → Rule} (more : t ≠ .eof)
    (blocks : ∀ scope owner, Costs short (horizon - 1) 3 (block scope owner) (other scope owner))
    (rest : Costs short (horizon - 1) 0 (next ()) (further ())) (scope : Scope) (kind : SymbolKind) :
    CostsAt t short horizon 0 (subroutine block scope kind >>= next) (subroutine other scope kind >>= further) := by
  have body (key : Option (String × Nat)) := (subroutineBody_costs blocks scope kind key).bind fun _ => rest
  simp only [subroutineBody, LawfulMonad.bind_assoc] at body
  rw [subroutine_eq, subroutine_eq]
  simp only [LawfulMonad.bind_assoc]
  refine .of_advance more (expectIdentifier_costs (n := 7) (fun name => ?_) ?_)
  · exact ((declareNew_costs _).nearer.bind fun isNew => (body _).nearer).within (by omega)
  · exact body _

theorem subroutines_costs
    (blocks : ∀ scope owner, Costs short (horizon - 1) 3 (block scope owner) (other scope owner)) (scope : Scope)
    {b c : Nat} (enoughFirst : horizon ≤ b) (enoughSecond : horizon ≤ c) :
    Costs short horizon 0 (subroutines block scope b) (subroutines other scope c) := by
  induction b generalizing c horizon with
  | zero =>
    obtain rfl := Nat.le_zero.mp enoughFirst
    exact .of_none _
  | succ b ih =>
    cases c with
    | zero =>
      obtain rfl := Nat.le_zero.mp enoughSecond
      exact .of_none _
    | succ c =>
      have further : Costs short (horizon - 1) 0 (subroutines block scope b) (subroutines other scope c) :=
        ih (fun scope owner => (blocks scope owner).nearer) (by omega) (by omega)
      intro t
      refine .of_token ?_
      split
      · refine subroutine_at ?_ blocks ?_ scope .procedure
        · exact nofun
        · exact further
      · refine subroutine_at ?_ blocks ?_ scope .function
        · exact nofun
        · exact further
      · exact .of_pure (Nat.zero_le _)

end Subroutines

theorem openBlock_costs (scope : Scope) (owner : Owner) :
    Costs short horizon 1 (openBlock scope owner) (openBlock scope owner) :=
  (Costs.emit _ _ _).bind fun start => (setEntry_costs owner start).bind fun _ =>
    (declarations_costs .constKw (fun _ => constantDeclaration_costs scope) ()).bind fun _ =>
      (declarations_costs .varKw (variableDeclaration_costs scope) frameSize).bind (m := 0) fun _ => .done _

theorem enterBlock_costs (owner : Owner) (start size : Nat) :
    Costs short horizon 1 (enterBlock owner start size) (enterBlock owner start size) :=
  (Costs.emit _ _ _).bind fun entry => (patch_costs _ _).bind fun _ => setEntry_costs owner entry

theorem leaveBlock_costs (owner : Owner) (level : Nat) :
    Costs short horizon 1 (leaveBlock owner level) (leaveBlock owner level) :=
  (Costs.emit _ _ _).discard.bind (m := 0) fun _ => .of_free (.purge _) trivial

/-- A block takes no token itself, so its statement may be nested one less deep. -/
theorem block_costs {p q : Nat} (alike : Alike short (horizon + 1) p q) (scope : Scope) (owner : Owner) :
    Costs short horizon 3 (block p scope owner) (block q scope owner) := by
  induction p generalizing q horizon scope owner with
  | zero =>
    rcases alike.zero (.inl rfl) with absurd | ⟨isShort, -, rfl⟩
    · cases absurd
    · exact abandon_costs isShort
  | succ p ih =>
    cases q with
    | zero =>
      rcases alike.zero (.inr rfl) with absurd | ⟨-, absurd, -⟩
      · cases absurd
      · cases absurd
    | succ q =>
      have inner := alike.nearer
      have blocks (scope : Scope) (owner : Owner) : Costs short (horizon - 1) 3 (block p scope owner)
          (block q scope owner) := by
        cases horizon with
        | zero => exact .of_none _
        | succ horizon => exact ih inner scope owner
      rw [block_succ, block_succ]
      refine (openBlock_costs scope owner).bind (m := 2) fun (start, size) => ?_
      have nested : Costs short horizon 0 (bound >>= subroutines (block p) scope)
          (bound >>= subroutines (block q) scope) :=
        .of_bound fun _ _ _ near enoughFirst enoughSecond =>
          subroutines_costs (fun scope owner => (blocks scope owner).mono (by omega) (Nat.le_refl _)) scope
            enoughFirst enoughSecond
      have body : Costs short horizon 2 _ _ := nested.bind fun _ => (enterBlock_costs owner start size).bind fun _ =>
        (statement_steps scope inner).costs.bind fun _ => leaveBlock_costs owner scope.level
      simpa only [LawfulMonad.bind_assoc] using body

/-- What stands behind the block of a program. -/
def programEnd : Rule := do
  require .period
  let found ← token
  unless found.kind = .eof do report (.afterTheEnd found)

theorem programEnd_costs : Costs short horizon 2 programEnd programEnd := by
  refine (require_costs _).bind (m := 1) fun _ t => .of_token ?_
  split
  · exact .of_pure (Nat.zero_le _)
  · exact Costs.report _ t

/-- The first token pays for all that no other one pays for. -/
theorem program_course {p q b c : Nat} (terminated : Terminated draft.upcoming)
    (alike : Alike short (draft.ahead + 1) p q) (enoughFirst : draft.ahead ≤ b) (enoughSecond : draft.ahead ≤ c) :
    (program p).course b draft = (program q).course c draft ∧
      Meets draft.weight short draft (fun _ after => after.weight ≤ draft.weight)
        ((program p).course b draft).2 := by
  obtain ⟨after, ran, stands, ahead, weight⟩ := Draft.advanceTo_takes terminated draft
  have before : draft.weight = draft.code.size + draft.diagnostics.size + 8 * draft.upcoming.length := rfl
  have one : after.ahead + 1 = draft.ahead := ahead
  have rest : Costs short draft.ahead 5 (block p ⟨0, []⟩ ⟨.procedure, none, 0⟩ >>= fun _ => programEnd)
      (block q ⟨0, []⟩ ⟨.procedure, none, 0⟩ >>= fun _ => programEnd) :=
    (block_costs alike _ _).bind fun _ => programEnd_costs
  obtain ⟨same, meets⟩ := rest _ draft.weight after stands rfl (by omega) (by omega) b c (by omega) (by omega)
  have first (rounds : Nat) : advance.course rounds draft = ([.advance], .ok () after) := course_request ran
  have unfolded (depth : Nat) : program depth =
      advance >>= fun _ => block depth ⟨0, []⟩ ⟨.procedure, none, 0⟩ >>= fun _ => programEnd := rfl
  rw [unfolded, unfolded, course_bind, course_bind, first, first]
  refine ⟨by simp only [same], meets.imp (by omega) fun _ last spent => ?_⟩
  exact Nat.le_trans spent (by omega)

end Blocks

end Grammar

end PLZero
