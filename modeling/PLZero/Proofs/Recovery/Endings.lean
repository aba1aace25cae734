import PLZero.Proofs.Recovery.Linear

/-!
What is left of a compilation, whether it comes to its end or is given up. What holds of a draft as long as tokens are
taken and complaints are made holds also behind the characters and comments that are passed over.
-/

namespace PLZero

namespace Draft

/-- The draft that is left. -/
def left {α : Type} : EStateM.Result Halt Draft α → Draft
  | .ok _ draft | .error _ draft => draft

/-- What each token that is taken keeps, and each complaint, is kept up to the next token that the grammar gets to see,
and also up to an integer that is too long. -/
theorem left_advanceTo (inv : Draft → Prop) {items : List Item} {draft : Draft} (isUpcoming : draft.upcoming = items)
    (takes : ∀ draft placed rest, draft.upcoming = .ok placed :: rest → inv draft →
      inv { draft with current := placed, upcoming := rest })
    (reports : ∀ draft complaint, inv draft → inv (draft.reported complaint)) (holds : inv draft) :
    inv (left (advanceTo items draft)) := by
  induction items generalizing draft with
  | nil => exact holds
  | cons item items ih =>
    cases item with
    | error overlong => exact holds
    | ok placed =>
      have taken := takes draft placed items isUpcoming holds
      cases seen : placed.token.isVisible with
      | true => exact advanceTo_visible items draft seen ▸ taken
      | false =>
        obtain ⟨complaint, passes⟩ := advanceTo_invisible items draft seen
        rw [passes]
        exact ih rfl (reports _ complaint taken)

end Draft

theorem compile_eq_left (depth : Nat) (source : String) : ∃ failure,
    compile depth source = .ofDraft (Draft.left ((Grammar.program depth).run (.ofSource source))) failure := by
  rw [compile]
  cases (Grammar.program depth).run (.ofSource source) with
  | ok result draft => exact ⟨none, rfl⟩
  | error halt draft => exact ⟨halt.failure?, rfl⟩

namespace Production

variable {α : Type} {draft : Draft}

/-- A run goes on with what its first request leaves, or stops there. -/
theorem left_run_ask (request : Request) (next : request.Answer → Production α) (draft : Draft) :
    (∃ answer after, request.perform draft = .ok answer after ∧
        Draft.left ((ask request next).run draft) = Draft.left ((next answer).run after)) ∨
      Draft.left ((ask request next).run draft) = Draft.left (request.perform draft) := by
  simp only [run]
  cases request.perform draft with
  | ok answer after => exact .inl ⟨answer, after, rfl, rfl⟩
  | error halt after => exact .inr rfl

/-- What each request keeps is kept by a run. -/
theorem left_run (inv : Draft → Prop)
    (keeps : ∀ (request : Request) (draft : Draft), inv draft → inv (Draft.left (request.perform draft)))
    (rule : Production α) (holds : inv draft) : inv (Draft.left (rule.run draft)) := by
  induction rule generalizing draft with
  | done result => exact holds
  | ask request next ih =>
    have kept := keeps request draft holds
    rcases left_run_ask request next draft with ⟨answer, after, ran, goesOn⟩ | stops
    · rw [ran] at kept
      exact goesOn ▸ ih answer kept
    · exact stops ▸ kept

end Production

end PLZero
