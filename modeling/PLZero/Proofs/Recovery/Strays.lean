import PLZero.Proofs.Lexing.Strays
import PLZero.Proofs.Recovery.Failures
import PLZero.Proofs.Recovery.Orderly

namespace PLZero

/-- Whether a complaint is about a character that begins no token. -/
def Complaint.isStray : Complaint → Bool
  | unknownCharacter _ => true
  | _ => false

theorem Complaint.isStray_eq_false {complaint : Complaint} (isOther : complaint.isLexical = false) :
    complaint.isStray = false := by
  cases complaint with
  | unknownCharacter c => cases isOther
  | _ => rfl

def Event.isStray : Event → Bool
  | error diagnostic => diagnostic.complaint.isStray
  | _ => false

namespace Draft

/-- The draft as it would be without the characters that begin no token, if none of them is the current token. -/
def cleared (draft : Draft) : Draft :=
  { draft with
    upcoming := draft.upcoming.filter fun item => !isStray item
    diagnostics := draft.diagnostics.filter fun diagnostic => !diagnostic.complaint.isStray
    journal := draft.journal.filter fun event => !event.isStray }

/-- The current token is not such a character, nor is the last one, so that one of the others always follows. -/
structure Settled (draft : Draft) : Prop where
  current : ∀ c, draft.current.token ≠ .unknown c
  last : ∀ item ∈ draft.upcoming.getLast?, ¬ isStray item

/-- Whether the second result is the first one without such characters. Where a compilation stops, it does not matter
which tokens are left. -/
def Clears {α : Type} : EStateM.Result Halt Draft α → EStateM.Result Halt Draft α → Prop
  | .ok answer after, other => other = .ok answer after.cleared
  | .error halt after, other => ∃ current upcoming, other = .error halt { after.cleared with current, upcoming }

def noted (draft : Draft) (event : Event) : Draft :=
  { draft with journal := draft.journal.push event }

def reported (draft : Draft) (complaint : Complaint) : Draft :=
  let diagnostic : Diagnostic := ⟨complaint, draft.current.position.line⟩
  { draft with diagnostics := draft.diagnostics.push diagnostic }.noted (.error diagnostic)

theorem cleared_noted (draft : Draft) (event : Event) (isOther : event.isStray = false) :
    (draft.noted event).cleared = draft.cleared.noted event := by
  simp [noted, cleared, isOther]

theorem cleared_reported (draft : Draft) (complaint : Complaint) (isOther : complaint.isStray = false) :
    (draft.reported complaint).cleared = draft.cleared.reported complaint := by
  simp [reported, noted, cleared, Event.isStray, isOther]

theorem cleared_reported_unknown (draft : Draft) (c : Char) :
    (draft.reported (.unknownCharacter c)).cleared = draft.cleared := by
  simp [reported, noted, cleared, Event.isStray, Complaint.isStray]

variable {draft after : Draft}

theorem not_isStray_tail {item : Item} {items : List Item}
    (last : ∀ other ∈ (item :: items).getLast?, ¬ isStray other) : ∀ other ∈ items.getLast?, ¬ isStray other := by
  intro other isLast
  exact last other (by rw [List.getLast?_cons, isLast]; rfl)

/-- Without such characters the same token comes up, with the same complaints about comments in front of it. -/
theorem advanceTo_clears {items : List Item} (last : ∀ item ∈ items.getLast?, ¬ isStray item) (draft : Draft)
    (current : PlacedToken) (upcoming : List Item)
    (atEnd : items = [] → current = draft.current ∧ upcoming = draft.cleared.upcoming) :
    Clears (advanceTo items draft)
      (advanceTo (items.filter fun item => !isStray item) { draft.cleared with current, upcoming }) := by
  induction items generalizing draft current upcoming with
  | nil =>
    obtain ⟨rfl, rfl⟩ := atEnd rfl
    rfl
  | cons item items ih =>
    have later := not_isStray_tail last
    cases item with
    | error overlong => exact ⟨current, upcoming, rfl⟩
    | ok placed =>
      obtain ⟨t, position⟩ := placed
      cases t with
      | unknown c =>
        -- Another token follows, so the run without the character still stands where it did.
        have more : items ≠ [] := by
          rintro rfl
          exact last _ rfl rfl
        have skipped := ih later (reported { draft with current := ⟨.unknown c, position⟩, upcoming := items }
          (.unknownCharacter c)) current upcoming fun none => absurd none more
        rw [cleared_reported_unknown] at skipped
        exact skipped
      | badComment line =>
        have passed := ih later (reported { draft with current := ⟨.badComment line, position⟩, upcoming := items }
          (.unterminatedComment line)) ⟨.badComment line, position⟩ (items.filter fun item => !isStray item)
          fun _ => ⟨rfl, rfl⟩
        rw [cleared_reported _ (.unterminatedComment line) rfl] at passed
        exact passed
      | _ => rfl

theorem advanceTo_current {items : List Item} (last : ∀ item ∈ items.getLast?, ¬ isStray item)
    (atEnd : items = [] → ∀ c, draft.current.token ≠ .unknown c) (ran : advanceTo items draft = .ok () after)
    (c : Char) : after.current.token ≠ .unknown c := by
  induction items generalizing draft with
  | nil =>
    cases ran
    exact atEnd rfl c
  | cons item items ih =>
    have later := not_isStray_tail last
    cases item with
    | error overlong => cases ran
    | ok placed =>
      obtain ⟨t, position⟩ := placed
      cases t with
      | unknown c =>
        refine ih later (fun none => ?_) ran
        cases none
        exact absurd rfl (last _ rfl)
      | badComment line =>
        refine ih later (fun _ => ?_) ran
        exact nofun
      | _ =>
        cases ran
        exact nofun

theorem purge_clears (level : Int) : Clears (purge level draft) (purge level draft.cleared) := by
  have notes (removed : List Symbol) (draft : Draft) : Clears ((removed.forM fun symbol => note (.purge symbol)) draft)
      ((removed.forM fun symbol => note (.purge symbol)) draft.cleared) := by
    induction removed generalizing draft with
    | nil => rfl
    | cons symbol removed ih =>
      have noted := ih (draft.noted (.purge symbol))
      rw [cleared_noted draft (.purge symbol) rfl] at noted
      exact noted
  exact notes (draft.symbols.purge level).1 { draft with symbols := (draft.symbols.purge level).2 }

theorem emit_clears (op : Opcode) (level value : Int) :
    Clears (emit op level value draft) (emit op level value draft.cleared) := by
  cases made : Instruction.ofLevel (.named op) (min level maxLevel) value with
  | error error =>
    simp only [emit, made]
    exact ⟨draft.current, draft.cleared.upcoming, rfl⟩
  | ok instruction =>
    have emitted := cleared_noted { draft with code := draft.code.push instruction }
      (.emit draft.code.size instruction) rfl
    simp only [emit, made]
    exact congrArg (EStateM.Result.ok draft.code.size) emitted.symm

end Draft

section Requests

variable {draft after : Draft} {request : Request}

theorem Request.perform_clears (isOrderly : request.IsOrderly) (settled : draft.Settled) :
    Draft.Clears (request.perform draft) (request.perform draft.cleared) := by
  cases request with
  | advance =>
    exact Draft.advanceTo_clears settled.last draft draft.current draft.cleared.upcoming fun _ => ⟨rfl, rfl⟩
  | report complaint =>
    have reported := draft.cleared_reported complaint (Complaint.isStray_eq_false isOrderly)
    exact congrArg (EStateM.Result.ok ()) reported.symm
  | emit op level value => exact Draft.emit_clears op level value
  | patch position target =>
    have noted := draft.cleared_noted (.patch position target) rfl
    exact congrArg (fun draft => EStateM.Result.ok () { draft with
      code := draft.code.modify position fun instruction => { instruction with value := target } }) noted.symm
  | declare symbol =>
    have noted := Draft.cleared_noted { draft with symbols := draft.symbols.declare symbol } (.declare symbol) rfl
    exact congrArg (EStateM.Result.ok ()) noted.symm
  | purge level => exact Draft.purge_clears level
  | abandon =>
    refine ⟨draft.current, draft.cleared.upcoming, ?_⟩
    exact congrArg (EStateM.Result.error Halt.tooDeep) (draft.cleared_reported .tooDeep rfl).symm
  | _ => rfl

theorem Request.perform_settled {answer : request.Answer} (settled : draft.Settled)
    (ran : request.perform draft = .ok answer after) : after.Settled := by
  obtain ⟨front, suffix⟩ := Request.perform_upcoming ran
  refine ⟨fun c => ?_, fun item isLast => settled.last item ?_⟩
  · by_cases advances : request = .advance
    · subst advances
      exact Draft.advanceTo_current settled.last (fun _ => settled.current) ran c
    · rw [(perform_tokens advances ran).1]
      exact settled.current c
  · rw [← suffix, List.getLast?_append, isLast]
    rfl

end Requests

section Runs

variable {α : Type} {rule : Production α} {draft : Draft}

theorem Production.run_clears (only : rule.Only Request.IsOrderly) (settled : draft.Settled) :
    Draft.Clears (rule.run draft) (rule.run draft.cleared) := by
  induction rule generalizing draft with
  | done result => rfl
  | ask request next ih =>
    have performed := Request.perform_clears only.1 settled
    cases ran : request.perform draft with
    | ok answer after =>
      rw [ran] at performed
      have same : request.perform draft.cleared = .ok answer after.cleared := performed
      simp only [run, ran, same]
      exact ih answer (only.2 answer) (Request.perform_settled settled ran)
    | error halt after =>
      rw [ran] at performed
      obtain ⟨current, upcoming, same⟩ := performed
      simp only [run, ran, same]
      exact ⟨current, upcoming, rfl⟩

/-- Characters that begin no token are never the current token when a rule makes a request. -/
theorem Production.occasions_settled (watch : Watch) (settled : draft.Settled) :
    ∀ o ∈ rule.occasions watch draft, o.draft.Settled := by
  induction rule generalizing watch draft with
  | done result => simp [occasions]
  | ask request next ih =>
    rw [occasions, List.forall_mem_cons]
    refine ⟨settled, ?_⟩
    cases ran : request.perform draft with
    | ok answer after => exact ih answer _ (Request.perform_settled settled ran)
    | error halt after => simp

theorem Draft.ofSource_settled (source : String) : (ofSource source).Settled := by
  obtain ⟨items, final, spelled, ⟨position, isEnd⟩, -⟩ := lex_ends source
  refine ⟨fun c isUnknown => Token.noConfusion isUnknown, fun item isLast => ?_⟩
  rw [ofSource, spelled, List.getLast?_concat, isEnd] at isLast
  cases isLast
  exact Bool.false_ne_true

theorem Draft.ofSource_withoutStrays (source : String) :
    ofSource (withoutStrays source) = (ofSource source).cleared := by
  have visible (item : Item) : (itemIsVisible item && !isStray item) = itemIsVisible item := by
    rcases item with overlong | ⟨t, position⟩
    · rfl
    · cases t <;> rfl
  simp [ofSource, cleared, lex_withoutStrays, List.countP_filter, visible]

end Runs

/-- Characters that begin no token do not change a compilation. With blanks in their place, the same code, variables
and symbols come out, and the same diagnostics in the same order but for those about such characters: the grammar never
gets to see them. This holds of all sources, also where the compilation is given up. -/
theorem compile_withoutStrays (depth : Nat) (source : String) :
    lex (withoutStrays source) = (lex source).filter (fun item => !isStray item) ∧
    compile depth (withoutStrays source) = { compile depth source with
      diagnostics := (compile depth source).diagnostics.filter fun diagnostic => !diagnostic.complaint.isStray
      journal := (compile depth source).journal.filter fun event => !event.isStray } ∧
    ∀ o ∈ (Grammar.program depth).occasions .start (.ofSource source), ∀ c, o.draft.current.token ≠ .unknown c := by
  have settled := Draft.ofSource_settled source
  refine ⟨lex_withoutStrays source, ?_, fun o mem =>
    (Production.occasions_settled .start settled o mem).current⟩
  have clears := Production.run_clears (Grammar.program_orderly depth) settled
  rw [← Draft.ofSource_withoutStrays] at clears
  cases ran : (Grammar.program depth).run (.ofSource source) with
  | ok result draft =>
    rw [ran] at clears
    rw [compile_of_run ran, compile_of_run clears]
    rfl
  | error halt draft =>
    rw [ran] at clears
    obtain ⟨current, upcoming, same⟩ := clears
    rw [compile_of_run_error ran, compile_of_run_error same]
    rfl

end PLZero
