import PLZero.Proofs.Recovery.Lockstep

/-!
Statements go on behind slips. The rule for an assignment takes `=` for `:=`, and the rule for the statements of a
compound one goes on where a semicolon is missing. All rules between the two places at which the tokens differ leave
what they find, as neither the token that is missing nor the one behind it belongs to what has just ended.
-/

namespace PLZero

/-- No semicolon is missing behind a token. -/
def Fresh (opened : Nat) (last : Token) : Prop :=
  opened = 0 ∨ last.endsStatement = false

theorem Fresh.of_kind {opened : Nat} {last : Token} {kind : FixedKind} (isKind : last.kind = .fixed kind)
    (other : kind ∉ [FixedKind.rparen, .endKw]) : Fresh opened last := by
  cases last with
  | fixed same =>
    cases isKind
    exact .inr (by simpa [Token.endsStatement] using other)
  | identifier | integer => cases isKind
  | _ => exact .inr rfl

namespace Grammar

open Production

variable {opened : Nat} {sketch after : Sketch} {unary : Rule}

section Named

variable (operand : unary.Tolerates opened)
include operand

theorem assignment_tolerates (scope : Scope) (name : String) (symbol : Option Symbol) :
    (assignment scope unary name symbol).Tolerates opened := by
  rw [assignment]
  split
  · exact report_tolerates _ _
  · exact (expression_tolerates operand).bind fun _ => (emission_withstands _ _ _).bind fun _ => emission_withstands _ _ _

/-- Behind the name that is called. -/
theorem callStatement_tolerates (scope : Scope) (name : String) (symbol : Option Symbol) :
    (do
      (callComplaint? name symbol).forM report
      let count ← arguments unary
      match symbol, callComplaint? name symbol with
      | some procedure, none => call scope procedure count
      | _, _ => return : Rule).Tolerates opened := by
  cases callComplaint? name symbol with
  | some complaint => exact report_tolerates _ _
  | none =>
    refine (arguments_tolerates operand).bind fun count => ?_
    cases symbol with
    | some procedure => exact call_tolerates scope procedure count
    | none => exact .of_pure fun _ _ => trivial

/-- An assignment is compiled in the same way with `=` and with `:=`, behind the complaint. -/
theorem assigned_recovers (scope : Scope) (name : String) (symbol : Option Symbol) :
    (do
      let found ← token
      if found.kind = .fixed .assign then
        advance
        assignment scope unary name symbol
      else if found.kind = .fixed .eq then
        report (.expected (.fixed .assign) found)
        advance
        assignment scope unary name symbol
      else report (.expectedAssignmentOrCall name) : Rule).Recovers opened (fun _ => True) fun _ _ => True := by
  have assigned := assignment_tolerates operand scope name symbol
  refine ⟨fun {draft _ _ sketch _ _} follows _ ran free => ?_⟩
  rw [run_token_bind]
  rw [clean_bind, clean_token, Option.bind_some] at ran
  dsimp only at ran
  by_cases isAssign : (currentToken sketch.tokens).kind = .fixed .assign
  · rw [if_pos isAssign, clean_bind, clean_advance, Option.bind_some] at ran
    cases follows.outlook with
    | atEnd none =>
      rw [none] at isAssign
      cases isAssign
    | missing tokens =>
      rw [tokens] at isAssign
      cases isAssign
    | @same t ts between tokens current advances onward =>
      rw [tokens, currentToken_cons] at isAssign
      rw [tokens] at ran
      obtain rfl := Token.eq_fixed_of_kind isAssign (by decide)
      obtain ⟨behind, latest, ran, onward, -⟩ := assigned.runs onward trivial ran free
      refine ⟨behind, latest, ?_, onward, trivial⟩
      rw [current, if_pos isAssign, run_advance_bind _ advances, ran]
    | @equals ts between tokens current advances onward =>
      rw [tokens] at ran
      obtain ⟨behind, latest, ran, onward, -⟩ := assigned.runs onward trivial ran free
      refine ⟨behind, latest, ?_, onward, trivial⟩
      have isEquals : (Token.fixed .eq).kind = .fixed .eq := rfl
      rw [current, if_neg (by decide), if_pos isEquals, run_report_bind, run_advance_bind _ advances, ran]
  · rw [if_neg isAssign] at ran
    split at ran <;> cases ran

theorem namedStatement_recovers (scope : Scope) (name : String) :
    (namedStatement scope unary name).Recovers opened (fun _ => True) fun _ _ => True := by
  refine .after_quiet (show (Request.resolve name).IsQuiet from trivial) fun symbol => ?_
  rw [accept, LawfulMonad.bind_assoc]
  refine taken_recovers (.inl (by decide)) rfl ?_ (assigned_recovers operand scope name symbol) fun isEq => ?_
  · exact (callStatement_tolerates operand scope name symbol).imp (fun _ _ => trivial) fun _ _ => id
  · cases isEq

end Named

/-- What follows a statement of a compound one: the others behind a semicolon, or where it is missing. -/
def furtherStatements (rest : Rule) : Rule := do
  if ← accept .semicolon then rest
  else
    let found ← token
    if startsStatement found then
      report (.expected (.fixed .semicolon) found)
      rest

section Further

variable {rest : Rule}

theorem run_furtherStatements (rest : Rule) (draft : Draft) : (furtherStatements rest).run draft =
    if draft.current.token.kind = .fixed .semicolon then (advance >>= fun _ => rest).run draft
    else if startsStatement draft.current.token then
      rest.run (draft.reported (.expected (.fixed .semicolon) draft.current.token))
    else .ok () draft := by
  rw [furtherStatements, accept, LawfulMonad.bind_assoc, run_bind, run_check]
  by_cases isSemicolon : draft.current.token.kind = .fixed .semicolon
  · rw [if_pos isSemicolon, decide_eq_true isSemicolon]
    rfl
  · rw [if_neg isSemicolon, decide_eq_false isSemicolon]
    show (if startsStatement draft.current.token then _ else _ : Rule).run draft = _
    split <;> rfl

theorem clean_furtherStatements (rest : Rule) (sketch : Sketch) : (furtherStatements rest).clean sketch =
    if (currentToken sketch.tokens).kind = .fixed .semicolon then rest.clean (sketch.at sketch.tokens.tail)
    else if startsStatement (currentToken sketch.tokens) then none
    else some ((), sketch) := by
  rw [furtherStatements, clean_bind, clean_accept, Parser.accept]
  split
  · rfl
  · show (if startsStatement (currentToken sketch.tokens) then _ else _ : Rule).clean sketch = _
    split <;> rfl

/-- Where a semicolon is missing, the complaint about it takes its place. -/
theorem furtherStatements_withstands {post : Unit → Token → Prop} (leaves : ∀ last, post () last)
    (onward : rest.Withstands opened (fun last => last = .fixed .semicolon) post) :
    (furtherStatements rest).Withstands opened (fun _ => True) post := by
  refine ⟨⟨fun {draft _ last sketch _ after} follows _ ran free => ?_⟩, fun {sketch _ _} stuck ran => ?_⟩
  · rw [clean_furtherStatements] at ran
    rw [run_furtherStatements]
    cases follows.outlook with
    | atEnd none isEnd =>
      rw [none] at ran
      cases ran
      exact ⟨draft, last, by rw [isEnd]; rfl, follows, leaves last⟩
    | equals tokens =>
      rw [tokens] at ran
      cases ran
      exact absurd (by rw [AtAssign, tokens]; rfl) free
    | missing tokens inside ends starts further =>
      rw [tokens] at ran
      obtain ⟨behind, latest, ran, further, holds⟩ := onward.runs further rfl ran free
      have noSemicolon : draft.current.token.kind ≠ .fixed .semicolon := by
        intro isSemicolon
        generalize draft.current.token = t at starts isSemicolon
        cases t <;> cases isSemicolon
        cases starts
      exact ⟨behind, latest, by rw [if_neg noSemicolon, if_pos starts, ran], further, holds⟩
    | @same t ts between tokens current advances further =>
      rw [tokens, currentToken_cons] at ran
      rw [current]
      by_cases isSemicolon : t.kind = .fixed .semicolon
      · obtain rfl := Token.eq_fixed_of_kind isSemicolon (by decide)
        obtain ⟨behind, latest, ran, further, holds⟩ := onward.runs further rfl ran free
        exact ⟨behind, latest, by rw [if_pos isSemicolon, run_advance_bind _ advances, ran], further, holds⟩
      · rw [if_neg isSemicolon] at ran ⊢
        split at ran
        · cases ran
        · next other =>
          cases ran
          exact ⟨draft, last, by rw [if_neg other], follows, leaves last⟩
  · rw [clean_furtherStatements, stuck] at ran
    cases ran
    exact stuck

end Further

section Statements

variable {statement : Rule} (inner : statement.Withstands opened (Fresh opened) fun _ _ => True)
include inner

theorem statements_withstands (rounds : Nat) :
    (statements statement rounds).Withstands opened (Fresh opened) fun _ _ => True := by
  induction rounds with
  | zero => exact .of_pure fun _ _ => trivial
  | succ rounds ih =>
    refine inner.bind fun _ => furtherStatements_withstands (fun _ => trivial) (ih.imp ?_ fun _ _ => id)
    rintro _ rfl
    exact .inr rfl

theorem conditional_tolerates (operand : unary.Tolerates opened) :
    (conditional unary statement).Tolerates opened := by
  have nested {kind : FixedKind} (other : kind ∉ [FixedKind.rparen, .endKw]) :
      statement.Withstands opened (fun last => last.kind = .fixed kind) fun _ _ => True :=
    inner.imp (fun last isKind => .of_kind isKind other) fun _ _ => id
  refine (condition_tolerates operand).bind fun _ => (emit_withstands _ _ _).bind fun skipJump =>
    (require_withstands (.inl (by decide))).bind fun _ => (nested (by decide)).bind fun _ => ?_
  refine (accept_withstands (.inl (by decide))).bind fun otherwise => ?_
  have patched (position : Nat) : (here >>= fun target => patch position target).Tolerates opened :=
    here_withstands.bind fun target => patch_withstands _ target
  split
  · next isElse =>
    have atElse : (do
        let endJump ← emit .jump
        patch skipJump (← here)
        statement
        patch endJump (← here) : Rule).Withstands opened (fun last => last.kind = .fixed .elseKw) fun _ _ => True :=
      (emit_withstands _ _ _).bind fun _ => here_withstands.bind fun target => (patch_withstands _ target).bind fun _ =>
        (nested (by decide)).bind fun _ => patched _
    exact atElse.imp (fun _ holds => holds.1 isElse) fun _ _ => id
  · exact (patched skipJump).imp (fun _ _ => trivial) fun _ _ => id

theorem whileLoop_tolerates (operand : unary.Tolerates opened) : (whileLoop unary statement).Tolerates opened := by
  have nested : statement.Withstands opened (fun last => last.kind = .fixed .doKw) fun _ _ => True :=
    inner.imp (fun last isKind => .of_kind isKind (by decide)) fun _ _ => id
  exact here_withstands.bind fun start => (condition_tolerates operand).bind fun _ =>
    (emit_withstands _ _ _).bind fun exitJump => (require_withstands (.inl (by decide))).bind fun _ =>
      nested.bind fun _ => (emission_withstands _ _ _).bind fun _ => here_withstands.bind fun target =>
        patch_withstands _ target

theorem repeatLoop_withstands (operand : unary.Tolerates opened) :
    (repeatLoop unary statement).Withstands opened (Fresh opened) fun _ _ => True :=
  here_withstands.bind fun start => inner.bind fun _ => (require_withstands (.inl (by decide))).tolerates.bind fun _ =>
    (condition_tolerates operand).bind fun _ => emission_withstands _ _ _

end Statements

theorem run_require {kind : FixedKind} {draft between : Draft} (isKind : draft.current.token.kind = .fixed kind)
    (advances : Draft.advanceTo draft.upcoming draft = .ok () between) :
    (require kind).run draft = .ok () between := by
  have ran : advance.run draft = .ok () between := (run_request .advance draft).trans advances
  simp [require, discard_eq_bind, expect, accept, run_check, isKind, ran]

theorem clean_require_eq_some {kind : FixedKind} (ran : (require kind).clean sketch = some ((), after)) :
    ∃ t ts, sketch.tokens = t :: ts ∧ t.kind = .fixed kind ∧ after = sketch.at ts := by
  rw [clean_require, Option.map_eq_some_iff] at ran
  obtain ⟨⟨_, ts⟩, found, same⟩ := ran
  cases same
  obtain ⟨t, tokens, isKind⟩ := Parser.require_eq_some found
  exact ⟨t, ts, tokens, isKind, rfl⟩

/-- Behind a token that is taken, a rule goes on to where as many compound statements are open as before. -/
def Resumes (rest : Rule) (opened : Nat) (t : Token) : Prop :=
  ∀ {draft reports sketch after}, Draft.Follows draft reports (t.openBehind opened) t sketch →
    rest.clean sketch = some ((), after) → ¬ AtAssign after.tokens →
      ∃ behind latest, rest.run draft = .ok () behind ∧ behind.Follows reports opened latest after

theorem resumes_of_recovers {rest : Rule} {t : Token} {pre : Token → Prop} {post : Unit → Token → Prop}
    (recovers : rest.Recovers opened pre post) (balanced : t.openBehind opened = opened) (holds : pre t) :
    Resumes rest opened t := by
  intro draft reports sketch after follows ran free
  rw [balanced] at follows
  obtain ⟨behind, latest, ran, onward, -⟩ := recovers.runs follows holds ran free
  exact ⟨behind, latest, ran, onward⟩

/-- A rule that takes the token in front and resumes, or leaves it in place. -/
theorem choice_withstands {next : Token → Rule} (atEnd : next .eof = pure ()) (atAssign : next (.fixed .assign) = pure ())
    (choices : ∀ t, next t = pure () ∨ ∃ rest, (next t = advance >>= fun _ => rest) ∧ Resumes rest opened t) :
    (token >>= next).Withstands opened (Fresh opened) fun _ _ => True := by
  refine ⟨⟨fun {draft _ last sketch _ after} follows fresh ran free => ?_⟩, fun {sketch _ _} stuck ran => ?_⟩
  · have ran : (next (currentToken sketch.tokens)).clean sketch = some ((), after) := ran
    rw [run_token_bind]
    cases follows.outlook with
    | atEnd none isEnd =>
      rw [none, currentToken_nil, atEnd] at ran
      cases ran
      exact ⟨draft, last, by rw [isEnd, atEnd]; rfl, follows, trivial⟩
    | equals tokens =>
      rw [tokens, currentToken_cons, atAssign] at ran
      cases ran
      exact absurd (by rw [AtAssign, tokens]; rfl) free
    | missing _ inside ends =>
      -- A rule that might take the token behind the semicolon does not stand where one may be missing.
      rcases fresh with none | other
      · omega
      · cases ends.symm.trans other
    | @same t ts between tokens current advances onward =>
      rw [tokens, currentToken_cons] at ran
      rw [current]
      rcases choices t with leaves | ⟨rest, takes, resumes⟩
      · rw [leaves] at ran ⊢
        cases ran
        exact ⟨draft, last, rfl, follows, trivial⟩
      · rw [takes, clean_bind, clean_advance, Option.bind_some, tokens] at ran
        obtain ⟨behind, latest, ran, onward⟩ := resumes onward ran free
        exact ⟨behind, latest, by rw [takes, run_advance_bind rest advances, ran], onward, trivial⟩
  · have ran : (next (currentToken sketch.tokens)).clean sketch = some _ := ran
    rw [stuck, atAssign] at ran
    cases ran
    exact stuck

/-- A compound statement, behind its first token. -/
theorem compound_resumes {statement : Rule}
    (inner : statement.Withstands (opened + 1) (Fresh (opened + 1)) fun _ _ => True) :
    Resumes (do statements statement (← bound); require .endKw) opened (.fixed .beginKw) := by
  intro draft reports sketch after follows ran _
  have within : (bound >>= statements statement).Withstands (opened + 1) (Fresh (opened + 1)) fun _ _ => True :=
    bound_withstands.bind fun rounds => statements_withstands inner rounds
  rw [← LawfulMonad.bind_assoc] at ran ⊢
  rw [clean_bind, Option.bind_eq_some_iff] at ran
  obtain ⟨⟨_, middle⟩, ranWithin, ranEnd⟩ := ran
  obtain ⟨t, ts, tokens, isEnd, rfl⟩ := clean_require_eq_some ranEnd
  obtain rfl := Token.eq_fixed_of_kind isEnd (by decide)
  have free : ¬ AtAssign middle.tokens := by
    rw [tokens, AtAssign, currentToken_cons]
    decide
  obtain ⟨between, latest, ranWithin, onward, -⟩ := within.runs follows (.inr rfl) ranWithin free
  rw [run_bind, ranWithin]
  cases onward.outlook with
  | atEnd none => cases none.symm.trans tokens
  | equals other => cases other.symm.trans tokens
  | missing other => cases other.symm.trans tokens
  | @same t _ behind other current advances further =>
    cases other.symm.trans tokens
    exact ⟨behind, _, run_require (current ▸ rfl) advances, further⟩

/-- Every statement goes on behind slips. -/
theorem statement_withstands (scope : Scope) (depth opened : Nat) :
    (statement scope depth).Withstands opened (Fresh opened) fun _ _ => True := by
  induction depth generalizing opened with
  | zero => exact .of_none fun _ => rfl
  | succ depth ih =>
    have operand : (unary scope depth).Tolerates opened := unary_tolerates scope depth
    refine choice_withstands rfl rfl fun t => ?_
    cases t with
    | identifier name =>
      exact .inr ⟨_, rfl, resumes_of_recovers (namedStatement_recovers operand scope name) rfl trivial⟩
    | fixed kind =>
      cases kind with
      | beginKw => exact .inr ⟨_, rfl, compound_resumes (ih (opened + 1))⟩
      | ifKw =>
        exact .inr ⟨_, rfl, resumes_of_recovers (conditional_tolerates (ih opened) operand).toRecovers rfl trivial⟩
      | whileKw =>
        exact .inr ⟨_, rfl, resumes_of_recovers (whileLoop_tolerates (ih opened) operand).toRecovers rfl trivial⟩
      | repeatKw =>
        exact .inr ⟨_, rfl, resumes_of_recovers (repeatLoop_withstands (ih opened) operand).toRecovers rfl (.inr rfl)⟩
      | _ => exact .inl rfl
    | _ => exact .inl rfl

end Grammar

end PLZero
