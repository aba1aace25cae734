import PLZero.Compilation
import PLZero.Proofs.Lexing.Tokens
import PLZero.Proofs.Translation.Programs

namespace PLZero

/-- A draft without diagnostics that a sketch shows: all items ahead are tokens that the grammar gets to see, the last
one is the end. -/
structure Draft.Shows (draft : Draft) (sketch : Sketch) : Prop where
  ahead : ∃ placed : List PlacedToken, draft.upcoming = placed.map .ok ∧ (∀ p ∈ placed, p.token.isVisible) ∧
    (draft.current :: placed).map (·.token) = sketch.tokens ++ [.eof]
  bound_eq : sketch.bound = draft.bound
  code_eq : sketch.code = draft.code.toList
  symbols_eq : sketch.symbols = draft.symbols
  globals_eq : sketch.globals = draft.globals.toList
  clean : draft.diagnostics = #[]

/-- A diagnostic has been made, or the compilation has failed. -/
def Complains {α : Type} : EStateM.Result Halt Draft α → Prop
  | .ok _ draft => draft.diagnostics ≠ #[]
  | .error halt draft => draft.diagnostics ≠ #[] ∨ halt.failure? ≠ none

theorem Draft.Shows.current_eq {draft : Draft} {sketch : Sketch} (h : draft.Shows sketch) :
    draft.current.token = currentToken sketch.tokens := by
  obtain ⟨placed, -, -, spelled⟩ := h.ahead
  cases tokens : sketch.tokens <;> simp_all

section Requests

variable {draft : Draft} {sketch : Sketch}

theorem Draft.Shows.advance (h : draft.Shows sketch) :
    ∃ after, Draft.advanceTo draft.upcoming draft = .ok () after ∧ after.Shows (sketch.at sketch.tokens.tail) := by
  obtain ⟨placed, atItems, visible, spelled⟩ := h.ahead
  cases placed with
  | nil =>
    have none : sketch.tokens = [] := by
      have length := congrArg List.length spelled
      simpa using length
    refine ⟨draft, by rw [atItems]; rfl, ⟨[], atItems, visible, ?_⟩, h.bound_eq, h.code_eq, h.symbols_eq, h.globals_eq,
      h.clean⟩
    simpa [none] using spelled
  | cons p placed =>
    rw [List.map_cons] at atItems
    refine ⟨{ draft with current := p, upcoming := placed.map .ok }, ?_,
      ⟨placed, rfl, fun q hq => visible q (List.mem_cons_of_mem _ hq), ?_⟩, h.bound_eq, h.code_eq, h.symbols_eq,
      h.globals_eq, h.clean⟩
    · have seen := visible p List.mem_cons_self
      obtain ⟨t, position⟩ := p
      rw [atItems]
      cases t <;> first | rfl | simp [Token.isVisible] at seen
    · cases tokens : sketch.tokens <;> simp_all

/-- Notes change the journal only. -/
theorem Draft.forM_note {α : Type} (event : α → Event) (items : List α) (draft : Draft) :
    ∃ journal, (items.forM fun item => Draft.note (event item)) draft = .ok () { draft with journal } := by
  induction items generalizing draft with
  | nil => exact ⟨draft.journal, rfl⟩
  | cons item items ih =>
    obtain ⟨journal, noted⟩ := ih { draft with journal := draft.journal.push (event item) }
    exact ⟨journal, noted⟩

theorem Draft.purge_eq (draft : Draft) (level : Int) :
    ∃ journal, Draft.purge level draft = .ok () { draft with symbols := (draft.symbols.purge level).2, journal } :=
  Draft.forM_note .purge (draft.symbols.purge level).1 { draft with symbols := (draft.symbols.purge level).2 }

theorem Request.perform_shows (request : Request) (h : draft.Shows sketch) :
    match request.answer? sketch with
    | some (answer, next) => ∃ after, request.perform draft = .ok answer after ∧ after.Shows next
    | none => Complains (request.perform draft) := by
  have current := h.current_eq
  have advances := h.advance
  obtain ⟨tokens, bound, code, symbols, globals⟩ := sketch
  obtain ⟨ahead, rfl, rfl, rfl, rfl, clean⟩ := h
  cases request with
  | token => exact ⟨draft, congrArg (EStateM.Result.ok · draft) current, ahead, rfl, rfl, rfl, rfl, clean⟩
  | advance => exact advances
  | bound => exact ⟨draft, rfl, ahead, rfl, rfl, rfl, rfl, clean⟩
  | report complaint => exact Array.push_ne_empty
  | here => exact ⟨draft, rfl, ahead, rfl, rfl, rfl, rfl, clean⟩
  | emit op level value =>
    simp only [Request.answer?]
    cases made : Instruction.ofLevel (.named op) (min level maxLevel) value with
    | ok instruction =>
      simp only [Request.perform, Draft.emit, made]
      exact ⟨_, rfl, ahead, rfl, by simp, rfl, rfl, clean⟩
    | error error =>
      simp only [Request.perform, Draft.emit, made]
      exact .inr (by simp [Halt.failure?])
  | patch position target => exact ⟨_, rfl, ahead, rfl, by simp, rfl, rfl, clean⟩
  | isDeclared name level => exact ⟨draft, rfl, ahead, rfl, rfl, rfl, rfl, clean⟩
  | resolve name => exact ⟨draft, rfl, ahead, rfl, rfl, rfl, rfl, clean⟩
  | declare symbol => exact ⟨_, rfl, ahead, rfl, rfl, rfl, rfl, clean⟩
  | setValue name level value => exact ⟨_, rfl, ahead, rfl, rfl, rfl, rfl, clean⟩
  | setArity name level arity => exact ⟨_, rfl, ahead, rfl, rfl, rfl, rfl, clean⟩
  | purge level =>
    obtain ⟨journal, purged⟩ := draft.purge_eq level
    exact ⟨_, purged, ahead, rfl, rfl, rfl, rfl, clean⟩
  | addGlobal name address => exact ⟨_, rfl, ahead, rfl, rfl, rfl, by simp, clean⟩
  | abandon => exact .inl Array.push_ne_empty

theorem Draft.advanceTo_complains (items : List Item) {draft : Draft} (h : draft.diagnostics ≠ #[]) :
    Complains (Draft.advanceTo items draft) := by
  induction items generalizing draft with
  | nil => exact h
  | cons item items ih =>
    cases item with
    | error overlong => exact .inl h
    | ok placed =>
      obtain ⟨t, position⟩ := placed
      cases t with
      | unknown c => exact ih Array.push_ne_empty
      | badComment line => exact ih Array.push_ne_empty
      | _ => exact h

/-- A diagnostic stays. -/
theorem Request.perform_complains (request : Request) (h : draft.diagnostics ≠ #[]) :
    Complains (request.perform draft) := by
  cases request with
  | advance => exact Draft.advanceTo_complains _ h
  | report complaint => exact Array.push_ne_empty
  | emit op level value =>
    simp only [Request.perform, Draft.emit]
    cases made : Instruction.ofLevel (.named op) (min level maxLevel) value with
    | ok instruction => exact h
    | error error => exact .inl h
  | purge level =>
    obtain ⟨journal, purged⟩ := draft.purge_eq level
    simp only [Request.perform, purged]
    exact h
  | abandon => exact .inl Array.push_ne_empty
  | _ => exact h

theorem Production.run_complains {α : Type} (rule : Production α) (h : draft.diagnostics ≠ #[]) :
    Complains (rule.run draft) := by
  induction rule generalizing draft with
  | done result => exact h
  | ask request next ih =>
    have performed := request.perform_complains h
    simp only [Production.run]
    cases ran : request.perform draft with
    | ok answer after => exact ih answer (by simpa [ran, Complains] using performed)
    | error halt after => simpa [ran, Complains] using performed

/-- A sketch shows what a draft comes to, up to the first complaint. -/
theorem Production.run_shows {α : Type} (rule : Production α) (h : draft.Shows sketch) :
    match rule.clean sketch with
    | some (result, next) => ∃ after, rule.run draft = .ok result after ∧ after.Shows next
    | none => Complains (rule.run draft) := by
  induction rule generalizing draft sketch with
  | done result => exact ⟨draft, rfl, h⟩
  | ask request next ih =>
    have performed := request.perform_shows h
    simp only [Production.clean, Production.run]
    cases answered : request.answer? sketch with
    | some answer =>
      rw [answered] at performed
      obtain ⟨after, ran, shows⟩ := performed
      simp only [Option.bind_some, ran]
      exact ih answer.1 shows
    | none =>
      rw [answered] at performed
      cases ran : request.perform draft with
      | ok answer after => exact (next answer).run_complains (by simpa [ran, Complains] using performed)
      | error halt after => simpa [ran, Complains] using performed

/-- Unless there has been a diagnostic, the items up to the current one are tokens that the grammar gets to see. -/
def Draft.Passed (items : List Item) (draft : Draft) : Prop :=
  draft.diagnostics = #[] → ∃ passed : List PlacedToken,
    items = passed.map .ok ++ .ok draft.current :: draft.upcoming ∧
      (∀ p ∈ passed, p.token.isVisible) ∧ draft.current.token.isVisible

theorem Draft.advanceTo_passed {items upcoming : List Item} {after : Draft} (passed : List PlacedToken)
    (spelled : items = passed.map .ok ++ upcoming) (visible : ∀ p ∈ passed, p.token.isVisible) (more : upcoming ≠ [])
    (ran : Draft.advanceTo upcoming draft = .ok () after) : after.Passed items := by
  intro clean
  cases upcoming with
  | nil => exact absurd rfl more
  | cons item upcoming =>
    cases item with
    | error overlong => cases ran
    | ok placed =>
      obtain ⟨t, position⟩ := placed
      have complained : t.isVisible = false → Complains (Draft.advanceTo (.ok ⟨t, position⟩ :: upcoming) draft) := by
        intro unseen
        cases t <;> first | exact Draft.advanceTo_complains upcoming Array.push_ne_empty | simp [Token.isVisible] at unseen
      cases seen : t.isVisible with
      | false =>
        have complains := complained seen
        rw [ran] at complains
        exact absurd clean complains
      | true =>
        have taken : Draft.advanceTo (.ok ⟨t, position⟩ :: upcoming) draft =
            .ok () { draft with current := ⟨t, position⟩, upcoming } := by
          cases t <;> first | rfl | simp [Token.isVisible] at seen
        rw [taken] at ran
        cases ran
        exact ⟨passed, spelled, visible, seen⟩

theorem Request.perform_passed {items : List Item} {request : Request} {answer : request.Answer} {after : Draft}
    (h : draft.Passed items) (ran : request.perform draft = .ok answer after) : after.Passed items := by
  intro clean
  have wasClean : draft.diagnostics = #[] := by
    by_contra complained
    have complains := request.perform_complains complained
    rw [ran] at complains
    exact complains clean
  obtain ⟨passed, spelled, visible, seen⟩ := h wasClean
  have stays : after.current = draft.current → after.upcoming = draft.upcoming → ∃ passed : List PlacedToken,
      items = passed.map .ok ++ .ok after.current :: after.upcoming ∧
        (∀ p ∈ passed, p.token.isVisible) ∧ after.current.token.isVisible := by
    intro sameCurrent sameUpcoming
    rw [sameCurrent, sameUpcoming]
    exact ⟨passed, spelled, visible, seen⟩
  cases request with
  | advance =>
    by_cases more : draft.upcoming = []
    · have stayed : Draft.advanceTo draft.upcoming draft = .ok () draft := by rw [more]; rfl
      cases stayed.symm.trans ran
      exact stays rfl rfl
    · refine Draft.advanceTo_passed (passed ++ [draft.current]) (by simp [spelled]) ?_ more ran clean
      simpa [or_imp, forall_and, seen] using visible
  | emit op level value =>
    simp only [Request.perform, Draft.emit] at ran
    cases made : Instruction.ofLevel (.named op) (min level maxLevel) value with
    | ok instruction =>
      simp only [made] at ran
      cases ran
      exact stays rfl rfl
    | error error =>
      simp only [made] at ran
      cases ran
  | purge level =>
    obtain ⟨journal, purged⟩ := draft.purge_eq level
    have same := purged.symm.trans ran
    cases same
    exact stays rfl rfl
  | abandon => cases ran
  | _ =>
    cases ran
    exact stays rfl rfl

theorem Production.run_passed {α : Type} {rule : Production α} {items : List Item} {result : α} {after : Draft}
    (h : draft.Passed items) (ran : rule.run draft = .ok result after) : after.Passed items := by
  induction rule generalizing draft with
  | done value =>
    cases ran
    exact h
  | ask request next ih =>
    simp only [Production.run] at ran
    cases performed : request.perform draft with
    | ok answer between =>
      rw [performed] at ran
      exact ih answer (request.perform_passed h performed) ran
    | error halt between => simp [performed] at ran

theorem Draft.advanceTo_error {items : List Item} {halt : Halt} {after : Draft}
    (ran : Draft.advanceTo items draft = .error halt after) : halt.failure? ≠ none := by
  induction items generalizing draft with
  | nil => cases ran
  | cons item items ih =>
    cases item with
    | error overlong =>
      cases ran
      simp [Halt.failure?]
    | ok placed =>
      obtain ⟨t, position⟩ := placed
      cases t with
      | unknown c => exact ih ran
      | badComment line => exact ih ran
      | _ => cases ran

/-- A compilation that stops has a reason to. -/
theorem Request.perform_error {request : Request} {halt : Halt} {after : Draft}
    (ran : request.perform draft = .error halt after) : Complains (request.perform draft) := by
  rw [ran]
  cases request with
  | advance => exact .inr (Draft.advanceTo_error ran)
  | emit op level value =>
    simp only [Request.perform, Draft.emit] at ran
    cases made : Instruction.ofLevel (.named op) (min level maxLevel) value with
    | ok instruction =>
      simp only [made] at ran
      cases ran
    | error error =>
      simp only [made] at ran
      cases ran
      exact .inr (by simp [Halt.failure?])
  | purge level =>
    obtain ⟨journal, purged⟩ := draft.purge_eq level
    cases purged.symm.trans ran
  | abandon =>
    cases ran
    exact .inl Array.push_ne_empty
  | _ => cases ran

theorem Production.run_error {α : Type} {rule : Production α} {halt : Halt} {after : Draft}
    (ran : rule.run draft = .error halt after) : after.diagnostics ≠ #[] ∨ halt.failure? ≠ none := by
  induction rule generalizing draft with
  | done value => cases ran
  | ask request next ih =>
    simp only [Production.run] at ran
    cases performed : request.perform draft with
    | ok answer between =>
      rw [performed] at ran
      exact ih answer ran
    | error other between =>
      have complains := request.perform_error performed
      rw [performed] at ran complains
      cases ran
      exact complains

end Requests

end PLZero
