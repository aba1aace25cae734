import PLZero.Proofs.Lexing.Slips
import PLZero.Proofs.Recovery.Pace
import PLZero.Proofs.Translation.Compiler

/-!
Two compilations side by side. One goes through without complaints; the other one reads the same tokens but for slips,
reports these, and makes the same of all others. Behind a slip the two have different tokens in front of them, a
semicolon and the one behind it, and every rule but the one for the statements of a compound one leaves both in place.
-/

namespace PLZero

/-- Whether `:=` is in front, which only the rule for an assignment takes. -/
def AtAssign (tokens : List Token) : Prop :=
  currentToken tokens = .fixed .assign

/-- A draft has made what a sketch shows. -/
structure Draft.Made (draft : Draft) (sketch : Sketch) : Prop where
  bound_eq : sketch.bound = draft.bound
  code_eq : sketch.code = draft.code.toList
  symbols_eq : sketch.symbols = draft.symbols
  globals_eq : sketch.globals = draft.globals.toList

/-- A draft follows the sketch of a compilation without slips: both have made the same, slips are all that is different
in the tokens from the current one on, and together with what is still to be reported about them, it has the given
reports. -/
structure Draft.Follows (draft : Draft) (reports : List Diagnostic) (opened : Nat) (last : Token) (sketch : Sketch) :
    Prop where
  made : draft.Made sketch
  ahead : ∃ placed later, draft.upcoming = placed.map .ok ∧
    Slipped opened last sketch.tokens (draft.current :: placed) later ∧ draft.diagnostics.toList ++ later = reports

theorem Slipped.exists_visible {opened : Nat} {last : Token} {tokens : List Token} {edited : List PlacedToken}
    {reports : List Diagnostic} (slipped : Slipped opened last tokens edited reports) :
    ∃ placed more, edited = placed :: more ∧ placed.token.isVisible := by
  induction slipped with
  | same visible => exact ⟨_, _, rfl, visible⟩
  | missing _ _ _ _ ih => exact ih
  | _ => exact ⟨_, _, rfl, rfl⟩

variable {draft : Draft} {reports : List Diagnostic} {opened : Nat} {last : Token} {sketch : Sketch}

/-- What a draft has in front of it that follows a sketch, and how it goes on. -/
inductive Draft.Outlook (draft : Draft) (reports : List Diagnostic) (opened : Nat) (last : Token) (sketch : Sketch) :
    Prop where
  | atEnd (none : sketch.tokens = []) (isEnd : draft.current.token = .eof)
  | same {t : Token} {ts : List Token} {after : Draft} (tokens : sketch.tokens = t :: ts)
      (current : draft.current.token = t) (advances : Draft.advanceTo draft.upcoming draft = .ok () after)
      (onward : after.Follows reports (t.openBehind opened) t (sketch.at ts))
  | equals {ts : List Token} {after : Draft} (tokens : sketch.tokens = .fixed .assign :: ts)
      (current : draft.current.token = .fixed .eq)
      (advances : Draft.advanceTo draft.upcoming (draft.reported (.expected (.fixed .assign) (.fixed .eq))) =
        .ok () after)
      (onward : after.Follows reports opened (.fixed .assign) (sketch.at ts))
  | missing {ts : List Token} (tokens : sketch.tokens = .fixed .semicolon :: ts) (inside : 0 < opened)
      (ends : last.endsStatement) (starts : Grammar.startsStatement draft.current.token)
      (onward : (draft.reported (.expected (.fixed .semicolon) draft.current.token)).Follows reports opened
        (.fixed .semicolon) (sketch.at ts))

theorem Draft.Follows.outlook (follows : draft.Follows reports opened last sketch) :
    draft.Outlook reports opened last sketch := by
  obtain ⟨made, placed, later, atItems, slipped, rfl⟩ := follows
  obtain ⟨current, upcoming, bound, code, symbols, globals, diagnostics, journal⟩ := draft
  obtain ⟨tokens, _⟩ := sketch
  dsimp only at atItems slipped
  subst atItems
  cases slipped with
  | finish => exact .atEnd rfl rfl
  | same visible others =>
    obtain ⟨next, more, rfl, seen⟩ := others.exists_visible
    exact .same rfl rfl (Draft.advanceTo_visible (more.map .ok) _ seen)
      ⟨⟨made.1, made.2, made.3, made.4⟩, more, later, rfl, others, rfl⟩
  | @equals _ _ _ position _ later others =>
    obtain ⟨next, more, rfl, seen⟩ := others.exists_visible
    refine .equals rfl rfl (Draft.advanceTo_visible (more.map .ok) _ seen)
      ⟨⟨made.1, made.2, made.3, made.4⟩, more, later, rfl, others, ?_⟩
    simp [Draft.reported, Draft.noted]
  | @missing _ _ _ _ _ later inside ends starts others =>
    refine .missing rfl inside ends starts ⟨⟨made.1, made.2, made.3, made.4⟩, placed, later, rfl, others, ?_⟩
    simp [Draft.reported, Draft.noted]

/-- A request that neither has to do with the tokens nor complains. -/
def Request.IsQuiet : Request → Prop
  | token | advance | report _ | abandon => False
  | _ => True

theorem Request.IsQuiet.tokens_eq {request : Request} (quiet : request.IsQuiet) {answer : request.Answer}
    {next : Sketch} (answered : request.answer? sketch = some (answer, next)) : next.tokens = sketch.tokens := by
  cases request with
  | token | advance | report | abandon => exact quiet.elim
  | emit op level value =>
    simp only [Request.answer?] at answered
    split at answered <;> cases answered
    rfl
  | _ =>
    cases answered
    rfl

theorem Request.IsQuiet.performs {request : Request} (quiet : request.IsQuiet) (made : draft.Made sketch)
    {answer : request.Answer} {next : Sketch} (answered : request.answer? sketch = some (answer, next)) :
    ∃ after, request.perform draft = .ok answer after ∧ after.Made next ∧
      after.current = draft.current ∧ after.upcoming = draft.upcoming ∧ after.diagnostics = draft.diagnostics := by
  obtain ⟨tokens, bound, code, symbols, globals⟩ := sketch
  obtain ⟨rfl, rfl, rfl, rfl⟩ := made
  cases request with
  | token | advance | report | abandon => exact quiet.elim
  | emit op level value =>
    simp only [Request.answer?] at answered
    cases fits : Instruction.ofLevel (.named op) (min level maxLevel) value with
    | error error => simp [fits] at answered
    | ok instruction =>
      simp only [fits] at answered
      cases answered
      simp only [Request.perform, Draft.emit, fits]
      exact ⟨_, rfl, ⟨rfl, by simp, rfl, rfl⟩, rfl, rfl, rfl⟩
  | patch position target =>
    cases answered
    exact ⟨_, rfl, ⟨rfl, by simp, rfl, rfl⟩, rfl, rfl, rfl⟩
  | addGlobal name address =>
    cases answered
    exact ⟨_, rfl, ⟨rfl, rfl, rfl, by simp⟩, rfl, rfl, rfl⟩
  | purge level =>
    cases answered
    obtain ⟨journal, purged⟩ := draft.purge_eq level
    exact ⟨_, purged, ⟨rfl, rfl, rfl, rfl⟩, rfl, rfl, rfl⟩
  | _ =>
    cases answered
    exact ⟨_, rfl, ⟨rfl, rfl, rfl, rfl⟩, rfl, rfl, rfl⟩

theorem Request.IsQuiet.follows {request : Request} (quiet : request.IsQuiet)
    (follows : draft.Follows reports opened last sketch) {answer : request.Answer} {next : Sketch}
    (answered : request.answer? sketch = some (answer, next)) :
    ∃ after, request.perform draft = .ok answer after ∧ after.Follows reports opened last next := by
  obtain ⟨made, placed, later, atItems, slipped, whole⟩ := follows
  obtain ⟨after, performed, made, current, upcoming, diagnostics⟩ := quiet.performs made answered
  refine ⟨after, performed, made, placed, later, ?_, ?_, ?_⟩
  · rw [upcoming, atItems]
  · rwa [quiet.tokens_eq answered, current]
  · rw [diagnostics, whole]

namespace Production

variable {α β : Type}

/-- Where a rule goes through without complaints, it goes through with slips to the same result, behind a last token for
which a condition holds. Where `:=` is left, nothing is said, as a complaint must follow. -/
structure Recovers (rule : Production α) (opened : Nat) (pre : Token → Prop) (post : α → Token → Prop) : Prop where
  runs : ∀ {draft reports last sketch a after}, Draft.Follows draft reports opened last sketch → pre last →
    rule.clean sketch = some (a, after) → ¬ AtAssign after.tokens →
      ∃ behind latest, rule.run draft = .ok a behind ∧ behind.Follows reports opened latest after ∧ post a latest

/-- A rule that recovers from slips, and does not take `:=` at first. -/
structure Withstands (rule : Production α) (opened : Nat) (pre : Token → Prop) (post : α → Token → Prop) : Prop
    extends Recovers rule opened pre post where
  stops : ∀ {sketch a after}, AtAssign sketch.tokens → rule.clean sketch = some (a, after) → AtAssign after.tokens

variable {rule : Production α} {pre stronger : Token → Prop} {post weaker : α → Token → Prop} {a : α}

theorem Recovers.imp (recovers : rule.Recovers opened pre post) (before : ∀ last, stronger last → pre last)
    (enough : ∀ a last, post a last → weaker a last) : rule.Recovers opened stronger weaker := by
  refine ⟨fun follows holds ran free => ?_⟩
  obtain ⟨behind, latest, ran, onward, holds⟩ := recovers.runs follows (before _ holds) ran free
  exact ⟨behind, latest, ran, onward, enough _ latest holds⟩

theorem Recovers.bind {next : α → Production β} {result : β → Token → Prop} (first : rule.Recovers opened pre post)
    (rest : ∀ a, (next a).Withstands opened (post a) result) : (rule >>= next).Recovers opened pre result := by
  refine ⟨fun follows holds ran free => ?_⟩
  rw [clean_bind, Option.bind_eq_some_iff] at ran
  obtain ⟨⟨a, middle⟩, ranFirst, ranRest⟩ := ran
  have freeMiddle : ¬ AtAssign middle.tokens := fun stuck => free ((rest a).stops stuck ranRest)
  obtain ⟨between, latest, ranFirst, onward, holds⟩ := first.runs follows holds ranFirst freeMiddle
  obtain ⟨behind, latest, ranRest, onward, holds⟩ := (rest a).runs onward holds ranRest free
  exact ⟨behind, latest, by simp only [run_bind, ranFirst, ranRest], onward, holds⟩

/-- What a request without complaints leaves in front does not matter, as it leaves what it finds. -/
theorem Recovers.after_quiet {request : Request} (quiet : request.IsQuiet) {next : request.Answer → Production α}
    (rest : ∀ a, (next a).Recovers opened pre post) : (ask request .done >>= next).Recovers opened pre post := by
  refine ⟨fun {draft _ _ sketch _ _} follows holds ran free => ?_⟩
  rw [show (ask request .done >>= next) = ask request next from rfl] at ran ⊢
  rw [clean, Option.bind_eq_some_iff] at ran
  obtain ⟨⟨answer, middle⟩, answered, ran⟩ := ran
  obtain ⟨between, performed, onward⟩ := quiet.follows follows answered
  obtain ⟨behind, latest, ran, onward, holds⟩ := (rest answer).runs onward holds ran free
  exact ⟨behind, latest, by simp only [run, performed, ran], onward, holds⟩

namespace Withstands

theorem imp (withstands : rule.Withstands opened pre post) (before : ∀ last, stronger last → pre last)
    (enough : ∀ a last, post a last → weaker a last) : rule.Withstands opened stronger weaker :=
  ⟨withstands.toRecovers.imp before enough, withstands.stops⟩

theorem bind {next : α → Production β} {result : β → Token → Prop} (first : rule.Withstands opened pre post)
    (rest : ∀ a, (next a).Withstands opened (post a) result) : (rule >>= next).Withstands opened pre result := by
  refine ⟨first.toRecovers.bind rest, fun stuck ran => ?_⟩
  rw [clean_bind, Option.bind_eq_some_iff] at ran
  obtain ⟨⟨a, middle⟩, ranFirst, ranRest⟩ := ran
  exact (rest a).stops (first.stops stuck ranFirst) ranRest

theorem of_pure (holds : ∀ last, pre last → post a last) : (pure a : Production α).Withstands opened pre post := by
  refine ⟨⟨fun follows before ran _ => ?_⟩, fun stuck ran => ?_⟩
  · cases ran
    exact ⟨_, _, rfl, follows, holds _ before⟩
  · cases ran
    exact stuck

theorem discard {result : Unit → Token → Prop} (withstands : rule.Withstands opened pre post)
    (enough : ∀ a last, post a last → result () last) : (discard rule).Withstands opened pre result := by
  rw [discard_eq_bind]
  exact withstands.bind fun a => of_pure (enough a)

/-- A rule that complains. -/
theorem of_none (none : ∀ sketch, rule.clean sketch = none) : rule.Withstands opened pre post := by
  refine ⟨⟨fun _ _ ran _ => ?_⟩, fun _ ran => ?_⟩ <;> cases (none _).symm.trans ran

theorem of_quiet (request : Request) (quiet : request.IsQuiet) :
    (ask request .done).Withstands opened pre fun _ last => pre last := by
  have answered {sketch : Sketch} {answer : request.Answer} {after : Sketch}
      (ran : (ask request .done).clean sketch = some (answer, after)) : request.answer? sketch = some (answer, after) := by
    simpa [clean, Option.bind_eq_some_iff] using ran
  refine ⟨⟨fun follows holds ran _ => ?_⟩, fun stuck ran => ?_⟩
  · obtain ⟨behind, performed, onward⟩ := quiet.follows follows (answered ran)
    exact ⟨behind, _, (run_request request _).trans performed, onward, holds⟩
  · rw [AtAssign, quiet.tokens_eq (answered ran)]
    exact stuck

end Withstands

/-- A rule that withstands slips behind any token. -/
abbrev Tolerates (rule : Production α) (opened : Nat) : Prop :=
  rule.Withstands opened (fun _ => True) fun _ _ => True

theorem Withstands.tolerates (withstands : rule.Withstands opened (fun _ => True) post) : rule.Tolerates opened :=
  withstands.imp (fun _ _ => trivial) fun _ _ _ => trivial

end Production

/-- The fixed tokens that a slip may concern, or that may stand behind one. -/
def slipKinds : List FixedKind :=
  [.assign, .semicolon, .beginKw, .endKw, .ifKw, .whileKw, .repeatKw]

/-- Whether it is the same with and without slips if a token of a kind is in front. Slips leave the semicolons behind
declarations in place. -/
def FixedKind.IsSteady (opened : Nat) (kind : FixedKind) : Prop :=
  kind ∉ slipKinds ∨ opened = 0 ∧ kind = .semicolon

theorem FixedKind.IsSteady.ne_assign {kind : FixedKind} (steady : kind.IsSteady opened) : kind ≠ .assign := by
  rintro rfl
  rcases steady with other | ⟨-, same⟩
  · exact other (by decide)
  · cases same

theorem FixedKind.IsSteady.not_starts {kind : FixedKind} {t : Token} (steady : kind.IsSteady opened)
    (isKind : t.kind = .fixed kind) : Grammar.startsStatement t = false := by
  cases t with
  | fixed other =>
    cases isKind
    rcases steady with plain | ⟨-, rfl⟩
    · simp only [slipKinds, List.mem_cons, not_or] at plain
      simp [Grammar.startsStatement, plain]
    · rfl
  | identifier name => cases isKind
  | _ => rfl

theorem FixedKind.IsSteady.openBehind_eq {kind : FixedKind} {t : Token} (steady : kind.IsSteady opened)
    (isKind : t.kind = .fixed kind) : t.openBehind opened = opened := by
  cases t with
  | fixed other =>
    cases isKind
    rcases steady with plain | ⟨-, rfl⟩
    · cases kind <;> first | rfl | exact absurd (by decide) plain
    · rfl
  | _ => rfl

section Steady

variable {kind : FixedKind} (steady : kind.IsSteady opened) (follows : draft.Follows reports opened last sketch)
include steady follows

/-- A token that is in front without slips is in front with them, and can be taken. -/
theorem Draft.Follows.take (isKind : (currentToken sketch.tokens).kind = .fixed kind) :
    draft.current.token.kind = .fixed kind ∧ ∃ after latest, Draft.advanceTo draft.upcoming draft = .ok () after ∧
      after.Follows reports opened latest (sketch.at sketch.tokens.tail) ∧ latest.kind = .fixed kind := by
  cases follows.outlook with
  | atEnd none =>
    rw [none] at isKind
    cases isKind
  | @same t ts after tokens current advances onward =>
    rw [tokens, currentToken_cons] at isKind
    rw [steady.openBehind_eq isKind] at onward
    rw [current, tokens]
    exact ⟨isKind, after, t, advances, onward, isKind⟩
  | equals tokens =>
    rw [tokens] at isKind
    exact absurd (TokenKind.fixed.inj isKind).symm steady.ne_assign
  | missing tokens inside =>
    rw [tokens] at isKind
    cases isKind
    rcases steady with plain | ⟨none, -⟩
    · exact absurd (by decide) plain
    · omega

/-- A token that is not in front without slips is not in front with them, unless it is the `=` in the place of `:=`. -/
theorem Draft.Follows.leave (free : kind = .eq → ¬ AtAssign sketch.tokens)
    (other : (currentToken sketch.tokens).kind ≠ .fixed kind) : draft.current.token.kind ≠ .fixed kind := by
  cases follows.outlook with
  | atEnd none isEnd =>
    rw [isEnd]
    exact TokenKind.noConfusion
  | same tokens current =>
    rw [tokens] at other
    rwa [current]
  | equals tokens current =>
    rw [current]
    exact fun isKind => free (TokenKind.fixed.inj isKind).symm (by rw [AtAssign, tokens]; rfl)
  | missing _ _ _ starts =>
    intro isKind
    rw [steady.not_starts isKind] at starts
    cases starts

end Steady

namespace Grammar

open Production

variable {α : Type} {pre : Token → Prop} {post : α → Token → Prop} {kind : FixedKind}

theorem run_check (kind : TokenKind) (draft : Draft) :
    (check kind).run draft = .ok (decide (draft.current.token.kind = kind)) draft := rfl

theorem run_token_bind (next : Token → Production α) (draft : Draft) :
    (token >>= next).run draft = (next draft.current.token).run draft := rfl

theorem run_report_bind (complaint : Complaint) (rest : Production α) (draft : Draft) :
    (report complaint >>= fun _ => rest).run draft = rest.run (draft.reported complaint) := rfl

theorem run_advance_bind (rest : Production α) {draft after : Draft}
    (advances : Draft.advanceTo draft.upcoming draft = .ok () after) :
    (advance >>= fun _ => rest).run draft = rest.run after := by
  have ran : advance.run draft = .ok () after := (run_request .advance draft).trans advances
  rw [run_bind, ran]

theorem check_withstands (steady : kind.IsSteady opened) :
    (check (.fixed kind)).Withstands opened pre fun _ last => pre last := by
  refine ⟨⟨fun {draft _ last sketch _ _} follows holds ran free => ?_⟩, fun stuck ran => ?_⟩
  · cases ran
    have same : draft.current.token.kind = .fixed kind ↔ (currentToken sketch.tokens).kind = .fixed kind :=
      ⟨fun isKind => of_not_not fun other => follows.leave steady (fun _ => free) other isKind,
        fun isKind => (follows.take steady isKind).1⟩
    exact ⟨draft, last, congrArg (EStateM.Result.ok · draft) (decide_eq_decide.mpr same), follows, holds⟩
  · cases ran
    exact stuck

/-- A rule that takes a token of a kind, or leaves another one in place. -/
theorem taken_recovers (steady : kind.IsSteady opened) {next : Bool → Production α} {rest : Production α}
    (taken : next true = advance >>= fun _ => rest)
    (onward : rest.Withstands opened (fun last => last.kind = .fixed kind) post)
    (left : (next false).Recovers opened pre post)
    (stops : kind = .eq → (next false).Withstands opened pre post) :
    (check (.fixed kind) >>= next).Recovers opened pre post := by
  refine ⟨fun {draft _ last sketch _ _} follows holds ran free => ?_⟩
  rw [clean_bind, clean_check, Option.bind_some] at ran
  by_cases isKind : (currentToken sketch.tokens).kind = .fixed kind
  · simp only [isKind, decide_true, taken, clean_bind, clean_advance, Option.bind_some] at ran
    obtain ⟨here, after, latest, advances, further, isKind⟩ := follows.take steady isKind
    obtain ⟨behind, latest, ran, onward, holds⟩ := onward.runs further isKind ran free
    refine ⟨behind, latest, ?_, onward, holds⟩
    simp only [run_bind, run_check, here, decide_true, taken]
    rw [← run_bind, run_advance_bind rest advances, ran]
  · simp only [isKind, decide_false] at ran
    have other := follows.leave steady (fun isEq stuck => free ((stops isEq).stops stuck ran)) isKind
    obtain ⟨behind, latest, ran, onward, holds⟩ := left.runs follows holds ran free
    refine ⟨behind, latest, ?_, onward, holds⟩
    simp only [run_bind, run_check, other, decide_false, ran]

theorem taken_withstands (steady : kind.IsSteady opened) {next : Bool → Production α} {rest : Production α}
    (taken : next true = advance >>= fun _ => rest)
    (onward : rest.Withstands opened (fun last => last.kind = .fixed kind) post)
    (left : (next false).Withstands opened pre post) : (check (.fixed kind) >>= next).Withstands opened pre post := by
  refine ⟨taken_recovers steady taken onward left.toRecovers fun _ => left, fun {sketch _ _} stuck ran => ?_⟩
  have other : (currentToken sketch.tokens).kind ≠ .fixed kind := by
    rw [stuck]
    exact fun same => steady.ne_assign (TokenKind.fixed.inj same).symm
  rw [clean_bind, clean_check, Option.bind_some] at ran
  simp only [other, decide_false] at ran
  exact left.stops stuck ran

theorem accept_withstands (steady : kind.IsSteady opened) :
    (accept kind).Withstands opened pre fun taken last =>
      (taken = true → last.kind = .fixed kind) ∧ (taken = false → pre last) := by
  refine @taken_withstands _ _ _ _ _ steady _ (pure true) rfl (.of_pure fun last isKind => ?_)
    (.of_pure fun last holds => ?_)
  · exact ⟨fun _ => isKind, fun isFalse => Bool.noConfusion isFalse⟩
  · exact ⟨fun isTrue => Bool.noConfusion isTrue, fun _ => holds⟩

/-- Where a token is expected and is not there, there is a complaint. -/
theorem expect_withstands (steady : kind.IsSteady opened) :
    (expect kind).Withstands opened pre fun taken last => taken = true ∧ last.kind = .fixed kind := by
  refine (accept_withstands steady).bind fun taken => ?_
  cases taken with
  | true => exact .of_pure fun last holds => ⟨rfl, holds.1 rfl⟩
  | false => exact .of_none fun sketch => by simp

theorem require_withstands (steady : kind.IsSteady opened) :
    (require kind).Withstands opened pre fun _ last => last.kind = .fixed kind :=
  (expect_withstands steady).discard fun _ _ holds => holds.2

section Operators

variable {Op : Type} {operator : FixedKind → Option Op}

theorem run_acceptOperator (operator : FixedKind → Option Op) (draft : Draft) : (acceptOperator operator).run draft =
    match operatorOf operator draft.current.token with
    | some op => (advance >>= fun _ => pure (some op)).run draft
    | none => .ok none draft := by
  rw [acceptOperator, run_token_bind, operatorOf]
  cases draft.current.token.kind with
  | fixed kind =>
    dsimp only
    cases operator kind <;> rfl
  | _ => rfl

theorem operatorOf_of_starts (steady : ∀ kind ∈ slipKinds, operator kind = none) {t : Token}
    (starts : startsStatement t) : operatorOf operator t = none := by
  cases t with
  | fixed kind =>
    refine steady kind ?_
    simp only [startsStatement, decide_eq_true_eq, List.mem_cons, List.not_mem_nil, or_false] at starts
    rcases starts with rfl | rfl | rfl | rfl <;> decide
  | identifier name => rfl
  | _ => cases starts

theorem operatorOf_fixed {t : Token} {op : Op} (isOperator : operatorOf operator t = some op) :
    ∃ kind, t.kind = .fixed kind ∧ operator kind = some op := by
  rw [operatorOf] at isOperator
  split at isOperator
  · next kind isKind => exact ⟨kind, isKind, isOperator⟩
  · cases isOperator

theorem acceptOperator_withstands (steady : ∀ kind ∈ slipKinds, operator kind = none) :
    (acceptOperator operator).Withstands opened pre fun _ _ => True := by
  have leaves {sketch after : Sketch} {found : Option Op} (none : operatorOf operator (currentToken sketch.tokens) = none)
      (ran : (acceptOperator operator).clean sketch = some (found, after)) : found = Option.none ∧ after = sketch := by
    rw [clean_acceptOperator, Parser.acceptOperator, none] at ran
    cases ran
    exact ⟨rfl, rfl⟩
  refine ⟨⟨fun {draft _ last sketch found after} follows holds ran free => ?_⟩, fun {sketch _ _} stuck ran => ?_⟩
  · cases isOperator : operatorOf operator (currentToken sketch.tokens) with
    | none =>
      obtain ⟨rfl, rfl⟩ := leaves isOperator ran
      have noOperator : operatorOf operator draft.current.token = none := by
        cases follows.outlook with
        | atEnd _ isEnd => rw [isEnd]; rfl
        | same tokens current =>
          rw [tokens] at isOperator
          rwa [current]
        | equals tokens => exact absurd (by rw [AtAssign, tokens]; rfl) free
        | missing _ _ _ starts => exact operatorOf_of_starts steady starts
      exact ⟨draft, last, by rw [run_acceptOperator, noOperator], follows, trivial⟩
    | some op =>
      obtain ⟨kind, isKind, isSome⟩ := operatorOf_fixed isOperator
      have isSteady : kind.IsSteady opened := .inl fun mem => by
        rw [steady kind mem] at isSome
        cases isSome
      obtain ⟨here, behind, latest, advances, onward, -⟩ := follows.take isSteady isKind
      have alike : operatorOf operator draft.current.token = some op := by
        rw [operatorOf, here]
        exact isSome
      rw [clean_acceptOperator, Parser.acceptOperator, isOperator] at ran
      cases ran
      exact ⟨behind, latest, by rw [run_acceptOperator, alike]; exact run_advance_bind _ advances, onward, trivial⟩
  · have isNone : operatorOf operator (currentToken sketch.tokens) = none := by
      rw [stuck]
      exact steady .assign (by decide)
    obtain ⟨-, rfl⟩ := leaves isNone ran
    exact stuck

end Operators

/-- A rule that goes through only with tokens that it takes. -/
theorem token_withstands {next : Token → Production α}
    (complains : ∀ t ∈ [.eof, .fixed .assign, .fixed .semicolon], ∀ sketch, (next t).clean sketch = none)
    (takes : ∀ t, (∀ sketch, (next t).clean sketch = none) ∨ ∃ rest : Production α,
      (next t = advance >>= fun _ => rest) ∧ t.openBehind opened = opened ∧
        rest.Withstands opened (fun last => last = t) post) :
    (token >>= next).Withstands opened pre post := by
  have complaint {t : Token} (mem : t ∈ [Token.eof, .fixed .assign, .fixed .semicolon]) {sketch : Sketch}
      {result : α × Sketch} (ran : (next t).clean sketch = some result) : False := by
    cases (complains t mem sketch).symm.trans ran
  refine ⟨⟨fun {draft _ last sketch a after} follows holds ran free => ?_⟩, fun {sketch _ _} stuck ran => ?_⟩
  · have ran : (next (currentToken sketch.tokens)).clean sketch = some (a, after) := ran
    cases follows.outlook with
    | atEnd none =>
      rw [none] at ran
      exact (complaint (by simp) ran).elim
    | equals tokens | missing tokens =>
      rw [tokens] at ran
      exact (complaint (by simp) ran).elim
    | @same t ts between tokens current advances onward =>
      rw [tokens, currentToken_cons] at ran
      rcases takes t with none | ⟨rest, taken, balanced, withstands⟩
      · cases (none sketch).symm.trans ran
      · rw [taken, clean_bind, clean_advance, Option.bind_some, tokens] at ran
        rw [balanced] at onward
        obtain ⟨behind, latest, ran, onward, holds⟩ := withstands.runs onward rfl ran free
        refine ⟨behind, latest, ?_, onward, holds⟩
        rw [run_token_bind, current, taken, run_advance_bind rest advances, ran]
  · have ran : (next (currentToken sketch.tokens)).clean sketch = some _ := ran
    rw [stuck] at ran
    exact (complaint (by simp) ran).elim

section Quiet

theorem bound_withstands : bound.Withstands opened pre fun _ last => pre last := .of_quiet .bound trivial

theorem here_withstands : here.Withstands opened pre fun _ last => pre last := .of_quiet .here trivial

theorem emit_withstands (op : Opcode) (level value : Int) :
    (emit op level value).Withstands opened pre fun _ last => pre last := .of_quiet (.emit op level value) trivial

theorem patch_withstands (position target : Nat) :
    (patch position target).Withstands opened pre fun _ last => pre last := .of_quiet (.patch position target) trivial

theorem resolve_withstands (name : String) : (resolve name).Withstands opened pre fun _ last => pre last :=
  .of_quiet (.resolve name) trivial

theorem emission_withstands (op : Opcode) (level value : Int) :
    (discard (emit op level value)).Withstands opened pre fun _ last => pre last :=
  (emit_withstands op level value).discard fun _ _ holds => holds

theorem report_tolerates (complaint : Complaint) (next : Unit → Production α) :
    (report complaint >>= next).Withstands opened pre post :=
  .of_none fun _ => rfl

theorem literal_tolerates (value : Nat) : (literal value).Tolerates opened := by
  rw [literal]
  split
  · exact report_tolerates _ _
  · exact .of_pure fun _ _ => trivial

end Quiet

theorem commaSeparated_tolerates {item : α → Production α} (items : ∀ a, (item a).Tolerates opened) (rounds : Nat)
    (a : α) : (commaSeparated item rounds a).Tolerates opened := by
  induction rounds generalizing a with
  | zero => exact .of_pure fun _ _ => trivial
  | succ rounds ih =>
    refine (items a).bind fun result => (accept_withstands (.inl (by decide))).tolerates.bind fun more => ?_
    split
    · exact ih result
    · exact .of_pure fun _ _ => trivial

section Expressions

variable {rule : Rule} (operand : rule.Tolerates opened)
include operand

theorem operations_tolerates {operator : FixedKind → Option BinaryOp} (steady : ∀ kind ∈ slipKinds, operator kind = none)
    (rounds : Nat) : (operations operator rule rounds).Tolerates opened := by
  induction rounds with
  | zero => exact .of_pure fun _ _ => trivial
  | succ rounds ih =>
    refine (acceptOperator_withstands steady).bind fun found => ?_
    split
    · exact operand.bind fun _ => (emission_withstands _ _ _).bind fun _ => ih
    · exact .of_pure fun _ _ => trivial

theorem leftAssociative_tolerates {operator : FixedKind → Option BinaryOp}
    (steady : ∀ kind ∈ slipKinds, operator kind = none) : (leftAssociative operator rule).Tolerates opened :=
  operand.bind fun _ => bound_withstands.bind fun rounds => operations_tolerates operand steady rounds

theorem expression_tolerates : (expression rule).Tolerates opened := by
  have terms : (term rule).Tolerates opened := leftAssociative_tolerates operand (by decide)
  have rest : (bound >>= operations adding (term rule)).Tolerates opened :=
    bound_withstands.bind fun rounds => operations_tolerates terms (by decide) rounds
  have negated := terms.bind fun _ => (emission_withstands (.unary .neg) 0 0).bind fun _ => rest
  have sign : (discard (accept .plus)).Tolerates opened :=
    (accept_withstands (.inl (by decide))).discard fun _ _ _ => trivial
  exact taken_withstands (.inl (by decide)) rfl (negated.imp (fun _ _ => trivial) fun _ _ holds => holds)
    (sign.bind fun _ => terms.bind fun _ => rest)

theorem relation_tolerates : (relation rule).Tolerates opened := by
  have expressions := expression_tolerates operand
  refine (accept_withstands (.inl (by decide))).tolerates.bind fun odd => ?_
  split
  · exact expressions.bind fun _ => (emission_withstands _ _ _).bind fun _ => emission_withstands _ _ _
  · refine expressions.bind fun _ => (acceptOperator_withstands (by decide)).bind fun found => ?_
    split
    · exact expressions.bind fun _ => emission_withstands _ _ _
    · exact .of_pure fun _ _ => trivial

theorem condition_tolerates : (condition rule).Tolerates opened :=
  leftAssociative_tolerates (leftAssociative_tolerates (relation_tolerates operand) (by decide)) (by decide)

theorem arguments_tolerates : (arguments rule).Tolerates opened := by
  have closing : (require .rparen).Tolerates opened := (require_withstands (.inl (by decide))).tolerates
  refine (check_withstands (.inl (by decide))).bind fun none => ?_
  split
  · exact closing.bind fun _ => .of_pure fun _ _ => trivial
  · have items count : (do expression rule; return count + 1 : Production Nat).Tolerates opened :=
      (expression_tolerates operand).bind fun _ => .of_pure fun _ _ => trivial
    exact bound_withstands.bind fun rounds => (commaSeparated_tolerates items rounds 0).bind fun _ =>
      closing.bind fun _ => .of_pure fun _ _ => trivial

omit operand in
theorem call_tolerates (scope : Scope) (symbol : Symbol) (count : Nat) :
    (call scope symbol count).Tolerates opened := by
  rw [call]
  split
  · exact emission_withstands _ _ _
  · exact report_tolerates _ _

theorem namedFactor_tolerates (scope : Scope) (name : String) : (namedFactor scope rule name).Tolerates opened := by
  refine (resolve_withstands name).bind fun found => ?_
  split
  · exact report_tolerates _ _
  · split
    · exact emission_withstands _ _ _
    · exact (emission_withstands _ _ _).bind fun _ => emission_withstands _ _ _
    · refine (expect_withstands (.inl (by decide))).tolerates.bind fun opened => ?_
      split
      · exact (arguments_tolerates operand).bind fun count => call_tolerates scope _ count
      · exact .of_pure fun _ _ => trivial
    · exact report_tolerates _ _

theorem factor_tolerates (scope : Scope) : (factor scope rule).Tolerates opened := by
  have number (value : Nat) : (do discard (emit .pushConst 0 (← literal value)) : Rule).Tolerates opened :=
    (literal_tolerates value).bind fun _ => emission_withstands _ _ _
  have group : (do condition rule; require .rparen : Rule).Tolerates opened :=
    (condition_tolerates operand).bind fun _ => (require_withstands (.inl (by decide))).tolerates
  refine token_withstands (by simp) fun t => ?_
  cases t with
  | identifier name =>
    exact .inr ⟨_, rfl, rfl, (namedFactor_tolerates operand scope name).imp (fun _ _ => trivial) fun _ _ => id⟩
  | integer value => exact .inr ⟨_, rfl, rfl, (number value).imp (fun _ _ => trivial) fun _ _ => id⟩
  | fixed kind =>
    cases kind with
    | lparen => exact .inr ⟨_, rfl, rfl, group.imp (fun _ _ => trivial) fun _ _ => id⟩
    | _ => exact .inl fun _ => rfl
  | _ => exact .inl fun _ => rfl

omit operand in
theorem unary_tolerates (scope : Scope) (depth : Nat) : (unary scope depth).Tolerates opened := by
  induction depth with
  | zero => exact .of_none fun _ => rfl
  | succ depth ih =>
    refine (acceptOperator_withstands (by decide)).bind fun found => ?_
    split
    · exact ih.bind fun _ => emission_withstands _ _ _
    · exact factor_tolerates ih scope

end Expressions

end Grammar

end PLZero
