import PLZero.Proofs.Recovery.Linear
import PLZero.Proofs.Recovery.Resumption

/-!
A source in which slips have been made compiles to the code of the one without them, with one diagnostic for each slip.
Declarations hold no slips. The nesting and the number of rounds that loops get do not matter, as they are greater than
is needed.
-/

namespace PLZero

theorem Slipped.length_le {opened : Nat} {last : Token} {tokens : List Token} {edited : List PlacedToken}
    {reports : List Diagnostic} (slipped : Slipped opened last tokens edited reports) :
    edited.length ≤ tokens.length + 1 := by
  induction slipped with
  | finish => exact Nat.le_refl _
  | same _ _ ih | equals _ ih => exact Nat.succ_le_succ ih
  | missing _ _ _ _ ih => exact Nat.le_succ_of_le ih

theorem Slipped.reports_eq_nil {opened : Nat} {last : Token} {edited : List PlacedToken} {reports : List Diagnostic}
    (slipped : Slipped opened last [] edited reports) : reports = [] := by
  cases slipped
  rfl

/-- Where no compound statement is open, a token that is not `:=` is in front with and without slips. -/
theorem Draft.Follows.current_eq {draft : Draft} {reports : List Diagnostic} {last : Token} {sketch : Sketch}
    (follows : draft.Follows reports 0 last sketch) (free : ¬ AtAssign sketch.tokens) :
    draft.current.token = currentToken sketch.tokens := by
  cases follows.outlook with
  | atEnd none isEnd => rw [none, isEnd, currentToken_nil]
  | same tokens current => rw [tokens, current, currentToken_cons]
  | equals tokens => exact absurd (by rw [AtAssign, tokens, currentToken_cons]) free
  | missing _ inside => omega

namespace Grammar

open Production

theorem expectIdentifier_tolerates : expectIdentifier.Tolerates 0 := by
  refine token_withstands (by simp) fun t => ?_
  cases t with
  | identifier name => exact .inr ⟨_, rfl, rfl, .of_pure fun _ _ => trivial⟩
  | _ => exact .inl fun _ => rfl

theorem expectInteger_tolerates : expectInteger.Tolerates 0 := by
  refine token_withstands (by simp) fun t => ?_
  cases t with
  | integer value => exact .inr ⟨_, rfl, rfl, .of_pure fun _ _ => trivial⟩
  | _ => exact .inl fun _ => rfl

theorem check_identifier_tolerates : (check .identifier).Tolerates 0 := by
  refine ⟨⟨fun {draft _ last sketch _ _} follows _ ran free => ?_⟩, fun stuck ran => ?_⟩
  · cases ran
    have same : draft.current.token = currentToken sketch.tokens := follows.current_eq free
    exact ⟨draft, last, by rw [run_check, same], follows, trivial⟩
  · cases ran
    exact stuck

theorem declareNew_tolerates (symbol : Symbol) : (declareNew symbol).Tolerates 0 := by
  refine (Withstands.of_quiet (.isDeclared symbol.name symbol.level) trivial).bind fun taken => ?_
  split
  · exact report_tolerates _ _
  · exact (Withstands.of_quiet (.declare symbol) trivial).bind fun _ => .of_pure fun _ _ => trivial

theorem constantDeclaration_tolerates (scope : Scope) : (constantDeclaration scope).Tolerates 0 := by
  refine expectIdentifier_tolerates.bind fun found => ?_
  cases found with
  | none => exact .of_pure fun _ _ => trivial
  | some name =>
    refine (require_withstands (.inl (by decide))).tolerates.bind fun _ => expectInteger_tolerates.bind fun found => ?_
    cases found with
    | none => exact .of_pure fun _ _ => trivial
    | some value => exact (literal_tolerates value).bind fun value => (declareNew_tolerates _).discard fun _ _ => id

theorem variableDeclaration_tolerates (scope : Scope) (offset : Nat) : (variableDeclaration scope offset).Tolerates 0 := by
  refine expectIdentifier_tolerates.bind fun found => ?_
  cases found with
  | none => exact .of_pure fun _ _ => trivial
  | some name =>
    refine (declareNew_tolerates _).bind fun isNew => ?_
    have done (size : Nat) : (pure size : Production Nat).Tolerates 0 := .of_pure fun _ _ => trivial
    split
    · split
      · exact (Withstands.of_quiet (.addGlobal name offset) trivial).bind fun _ => done _
      · exact done _
    · exact done _

theorem parameter_tolerates (names : List String) : (parameter names).Tolerates 0 := by
  refine expectIdentifier_tolerates.bind fun found => ?_
  cases found with
  | none => exact .of_pure fun _ _ => trivial
  | some name =>
    dsimp only
    split
    · exact report_tolerates _ _
    · exact .of_pure fun _ _ => trivial

theorem parameterNames_tolerates : parameterNames.Tolerates 0 := by
  refine check_identifier_tolerates.bind fun some => ?_
  split
  · exact bound_withstands.bind fun rounds => commaSeparated_tolerates parameter_tolerates rounds []
  · exact .of_pure fun _ _ => trivial

theorem declareParameters_tolerates (level count index : Nat) (names : List String) :
    (declareParameters level count index names).Tolerates 0 := by
  induction names generalizing index with
  | nil => exact .of_pure fun _ _ => trivial
  | cons name names ih => exact ((declareNew_tolerates _).discard fun _ _ => id).bind fun _ => ih (index + 1)

theorem forM_tolerates {α : Type} {key : Option α} {rule : α → Rule} (each : ∀ a, (rule a).Tolerates 0) :
    (key.forM rule).Tolerates 0 := by
  cases key with
  | none => exact .of_pure fun _ _ => trivial
  | some a => exact each a

theorem setEntry_tolerates (owner : Owner) (address : Nat) : (owner.setEntry address).Tolerates 0 :=
  forM_tolerates fun key => .of_quiet (.setValue key.1 key.2 address) trivial

theorem declaredName_tolerates (scope : Scope) (kind : SymbolKind) (name : Option String) :
    (declaredName scope kind name).Tolerates 0 := by
  cases name with
  | none => exact .of_pure fun _ _ => trivial
  | some name => exact declareNew_tolerates _

theorem checkLevel_tolerates (scope : Scope) : (checkLevel scope).Tolerates 0 := by
  rw [checkLevel]
  split
  · exact .of_none fun _ => rfl
  · exact .of_pure fun _ _ => trivial

theorem require_tolerates {kind : FixedKind} (steady : kind.IsSteady 0) : (require kind).Tolerates 0 :=
  (require_withstands steady).tolerates

theorem declarations_tolerates {α : Type} {keyword : FixedKind} (plain : keyword ∉ slipKinds)
    {item : α → Production α} (items : ∀ a, (item a).Tolerates 0) (a : α) :
    (declarations keyword item a).Tolerates 0 := by
  refine (accept_withstands (.inl plain)).tolerates.bind fun some => ?_
  split
  · exact bound_withstands.bind fun rounds => (commaSeparated_tolerates items rounds a).bind fun _ =>
      (require_tolerates (.inr ⟨rfl, rfl⟩)).bind fun _ => .of_pure fun _ _ => trivial
  · exact .of_pure fun _ _ => trivial

theorem openBlock_tolerates (scope : Scope) (owner : Owner) : (openBlock scope owner).Tolerates 0 :=
  (emit_withstands _ _ _).bind fun start => (setEntry_tolerates owner start).bind fun _ =>
    (declarations_tolerates (by decide) (fun _ => constantDeclaration_tolerates scope) ()).bind fun _ =>
      (declarations_tolerates (by decide) (variableDeclaration_tolerates scope) frameSize).bind fun _ =>
        .of_pure fun _ _ => trivial

theorem enterBlock_tolerates (owner : Owner) (start size : Nat) : (enterBlock owner start size).Tolerates 0 :=
  (emit_withstands _ _ _).bind fun entry => (patch_withstands start entry).bind fun _ => setEntry_tolerates owner entry

theorem leaveBlock_tolerates (owner : Owner) (level : Nat) : (leaveBlock owner level).Tolerates 0 :=
  (emission_withstands _ _ _).bind fun _ => .of_quiet (.purge level) trivial

section Blocks

variable {block : Scope → Owner → Rule} (blocks : ∀ scope owner, (block scope owner).Tolerates 0)
include blocks

theorem subroutine_resumes (scope : Scope) (kind : SymbolKind) :
    ∃ rest, (subroutine block scope kind = advance >>= fun _ => rest) ∧ rest.Tolerates 0 := by
  refine ⟨_, subroutine_eq block scope kind, ?_⟩
  refine expectIdentifier_tolerates.bind fun name => (declaredName_tolerates scope kind name).bind fun isNew =>
    (checkLevel_tolerates scope).bind fun _ => (require_tolerates (.inl (by decide))).bind fun _ =>
    parameterNames_tolerates.bind fun names => (require_tolerates (.inl (by decide))).bind fun _ =>
    (declareParameters_tolerates _ _ _ names).bind fun _ => ?_
  exact (forM_tolerates fun (name, level) => .of_quiet (.setArity name level names.length) trivial).bind fun _ =>
    (blocks _ _).bind fun _ => require_tolerates (.inr ⟨rfl, rfl⟩)

theorem subroutines_tolerates (scope : Scope) (rounds : Nat) : (subroutines block scope rounds).Tolerates 0 := by
  induction rounds with
  | zero => exact .of_pure fun _ _ => trivial
  | succ rounds ih =>
    have another (kind : SymbolKind) {keyword : FixedKind} (balanced : Token.openBehind 0 (.fixed keyword) = 0) :
        ∃ rest, (subroutine block scope kind >>= fun _ => subroutines block scope rounds) = (advance >>= fun _ => rest) ∧
          Resumes rest 0 (.fixed keyword) := by
      obtain ⟨rest, taken, tolerates⟩ := subroutine_resumes blocks scope kind
      rw [taken, LawfulMonad.bind_assoc]
      exact ⟨_, rfl, resumes_of_recovers (tolerates.bind fun _ => ih).toRecovers balanced trivial⟩
    have choice : (subroutines block scope (rounds + 1)).Withstands 0 (Fresh 0) fun _ _ => True := by
      refine choice_withstands rfl rfl fun t => ?_
      cases t with
      | fixed kind =>
        cases kind with
        | procedureKw => exact .inr (another .procedure rfl)
        | functionKw => exact .inr (another .function rfl)
        | _ => exact .inl rfl
      | _ => exact .inl rfl
    exact choice.imp (fun _ _ => .inl rfl) fun _ _ => id

omit blocks in
theorem block_tolerates (depth : Nat) (scope : Scope) (owner : Owner) :
    (Grammar.block depth scope owner).Tolerates 0 := by
  induction depth generalizing scope owner with
  | zero => exact .of_none fun _ => rfl
  | succ depth ih =>
    have body : (statement scope depth).Tolerates 0 :=
      (statement_withstands scope depth 0).imp (fun _ _ => .inl rfl) fun _ _ => id
    rw [block_succ]
    exact (openBlock_tolerates scope owner).bind fun (start, size) => bound_withstands.bind fun rounds =>
      (subroutines_tolerates ih scope rounds).bind fun _ => (enterBlock_tolerates owner start size).bind fun _ =>
      body.bind fun _ => leaveBlock_tolerates owner _

end Blocks

theorem programEnd_tolerates : programEnd.Tolerates 0 := by
  refine (require_tolerates (.inl (by decide))).bind fun _ => ?_
  have atEnd {sketch after : Sketch} {answer : Unit} (ran : (do
        let found ← token
        unless found.kind = .eof do report (.afterTheEnd found) : Rule).clean sketch = some (answer, after)) :
      (currentToken sketch.tokens).kind = .eof ∧ sketch = after := by
    rw [clean_bind, clean_token, Option.bind_some] at ran
    by_cases isEnd : (currentToken sketch.tokens).kind = .eof
    · rw [if_pos isEnd] at ran
      cases ran
      exact ⟨isEnd, rfl⟩
    · rw [if_neg isEnd] at ran
      cases ran
  refine ⟨⟨fun {draft _ last sketch _ _} follows _ ran free => ?_⟩, fun stuck ran => ?_⟩
  · obtain ⟨isEnd, rfl⟩ := atEnd ran
    rw [← follows.current_eq free] at isEnd
    exact ⟨draft, last, by rw [run_token_bind, if_pos isEnd]; rfl, follows, trivial⟩
  · obtain ⟨isEnd, rfl⟩ := atEnd ran
    exact stuck

/-- A program that goes through without complaints, with slips in it. -/
theorem program_recovers {depth : Nat} {tokens : List Token} {after : Sketch} (noEnd : .eof ∉ tokens)
    (ran : (program depth).clean (.ofTokens tokens) = some ((), after)) {edited : List PlacedToken}
    {reports : List Diagnostic} (slipped : Slipped 0 .eof tokens edited reports) {draft : Draft}
    (made : draft.Made (.ofTokens tokens)) (upcoming : draft.upcoming = edited.map .ok)
    (none : draft.diagnostics = #[]) :
    ∃ behind, (program depth).run draft = .ok () behind ∧ behind.Made after ∧ behind.diagnostics.toList = reports := by
  have unfolded : program depth = advance >>= fun _ => block depth ⟨0, []⟩ ⟨.procedure, Option.none, 0⟩ >>= fun _ =>
    programEnd := rfl
  have body : (block depth ⟨0, []⟩ ⟨.procedure, Option.none, 0⟩ >>= fun _ => programEnd).Tolerates 0 :=
    (block_tolerates _ _ _).bind fun _ => programEnd_tolerates
  obtain ⟨whole, -⟩ := program_admits noEnd ran
  obtain ⟨next, more, rfl, seen⟩ := slipped.exists_visible
  have advances : Draft.advanceTo draft.upcoming draft =
      .ok () { draft with current := next, upcoming := more.map .ok } := by
    rw [upcoming]
    exact Draft.advanceTo_visible (more.map .ok) draft seen
  have follows : Draft.Follows { draft with current := next, upcoming := more.map .ok } reports 0 .eof
      ((Sketch.ofTokens tokens).at tokens) :=
    ⟨⟨made.1, made.2, made.3, made.4⟩, more, reports, rfl, slipped, by rw [none]; rfl⟩
  rw [unfolded, clean_bind, clean_advance, Option.bind_some] at ran
  have free : ¬ AtAssign after.tokens := by
    rw [whole]
    exact fun same => Token.noConfusion same
  obtain ⟨behind, latest, ran, ⟨made, _, later, _, slipped, diagnostics⟩, -⟩ := body.runs follows trivial ran free
  refine ⟨behind, by rw [unfolded, run_advance_bind _ advances, ran], made, ?_⟩
  rw [whole] at slipped
  rw [← diagnostics, slipped.reports_eq_nil, List.append_nil]

end Grammar

/-- A source is read from its first token on with nothing made. -/
theorem Draft.ofSource_start (source : String) (tokens : List Token) :
    ((ofSource source).withRounds (tokens.length + 1)).Made (.ofTokens tokens) ∧
      ((ofSource source).withRounds (tokens.length + 1)).upcoming = lex source ∧
      ((ofSource source).withRounds (tokens.length + 1)).diagnostics = #[] :=
  ⟨⟨rfl, rfl, rfl, rfl⟩, rfl, rfl⟩

theorem compile_of_run_withRounds {source : String} {depth rounds : Nat} {draft : Draft}
    (readable : ∀ overlong, .error overlong ∉ lex source) (enough : (lex source).countP itemIsVisible ≤ rounds)
    (ran : (Grammar.program depth).run ((Draft.ofSource source).withRounds rounds) = .ok () draft) :
    compile depth source = .ofDraft draft none := by
  have same : courseWithin depth ((lex source).countP itemIsVisible) source = courseWithin depth rounds source :=
    (courseWithin_meets readable (.inl ⟨trivial, rfl⟩) (Nat.le_refl _) enough).1
  rw [compile_eq_courseWithin, same, ← Compilation.ofResult_withRounds rounds, courseWithin,
    ← Production.run_withRounds, ran]
  rfl

/-- Slips of a single token do no damage. If any of the slips that may be made in a source without complaints are made,
the same code comes out, with the same global variables, and one diagnostic for each of them, in the order and at the
lines of the tokens. -/
theorem slips_recovered {depth : Nat} {source : String} (unfailing : (compile depth source).failure = none)
    (clean : (compile depth source).errorCount = 0) {chosen : List Slip} (among : chosen.Sublist (slips source)) :
    (compile depth (withSlips chosen source)).failure = none ∧
      (compile depth (withSlips chosen source)).code = (compile depth source).code ∧
      (compile depth (withSlips chosen source)).globals = (compile depth source).globals ∧
      (compile depth (withSlips chosen source)).diagnostics.toList = chosen.map (·.diagnostic) := by
  obtain ⟨legible, tree, atProgram, shallow, formed⟩ := program_of_compile unfailing clean
  obtain ⟨edited, lexed, slipped⟩ := lex_withSlips legible (derives_of_parse atProgram).1.chain among
  obtain ⟨sketch, produced, -⟩ := Grammar.program_produces atProgram shallow formed
  have shows := (Grammar.program depth).run_shows legible.shows
  rw [produced] at shows
  obtain ⟨draft, ran, shows⟩ := shows
  obtain ⟨made, upcoming, none⟩ := Draft.ofSource_start (withSlips chosen source) (sourceTokens source)
  obtain ⟨behind, ranEdited, made, diagnostics⟩ := Grammar.program_recovers (eof_not_mem_sourceTokens source) produced
    slipped made (upcoming.trans lexed) none
  have readable : ∀ overlong, .error overlong ∉ lex (withSlips chosen source) := by
    rw [lexed]
    simp
  have enough : (lex (withSlips chosen source)).countP itemIsVisible ≤ (sourceTokens source).length + 1 := by
    refine List.countP_le_length.trans ?_
    rw [lexed, List.length_map]
    exact slipped.length_le
  rw [compile_of_run_withRounds readable enough ranEdited, compile_of_run ran]
  refine ⟨rfl, Array.toList_inj.mp ?_, Array.toList_inj.mp ?_, diagnostics⟩
  · exact made.code_eq.symm.trans shows.code_eq
  · exact made.globals_eq.symm.trans shows.globals_eq

/-- A program with assignments and calls. The semicolon behind its procedure stands between no statements of a compound
one. -/
def tidySource : String :=
  "var x; procedure p() x := 1; begin p()\n; p();\n x := 2 end."

def sloppySource : String :=
  "var x; procedure p() x = 1; begin p()\n  p() \n x = 2 end."

theorem tidySource_recovered :
    (compile maxNesting tidySource).failure = none ∧ (compile maxNesting tidySource).errorCount = 0 ∧
      (compile maxNesting sloppySource).failure = none ∧
      (compile maxNesting sloppySource).code = (compile maxNesting tidySource).code ∧
      (compile maxNesting sloppySource).globals = (compile maxNesting tidySource).globals ∧
      (compile maxNesting sloppySource).diagnostics.toList = [⟨.expected (.fixed .assign) (.fixed .eq), 1⟩,
        ⟨.expected (.fixed .semicolon) (.identifier "p"), 2⟩, ⟨.expected (.fixed .semicolon) (.identifier "x"), 3⟩,
        ⟨.expected (.fixed .assign) (.fixed .eq), 3⟩] := by
  obtain ⟨unfailing, clean⟩ :
      (compile maxNesting tidySource).failure = none ∧ (compile maxNesting tidySource).errorCount = 0 := by
    decide +kernel
  have made : withSlips (slips tidySource) tidySource = sloppySource := by decide
  have reports : (slips tidySource).map (·.diagnostic) = [⟨.expected (.fixed .assign) (.fixed .eq), 1⟩,
      ⟨.expected (.fixed .semicolon) (.identifier "p"), 2⟩, ⟨.expected (.fixed .semicolon) (.identifier "x"), 3⟩,
      ⟨.expected (.fixed .assign) (.fixed .eq), 3⟩] := by decide
  rw [← made, ← reports]
  exact ⟨unfailing, clean, slips_recovered unfailing clean (List.Sublist.refl _)⟩

end PLZero
