import PLZero.Proofs.Recovery.Strays

/-!
The course of a compilation: the requests that its rules make, one after another, and how it ends. The number of rounds
for loops is given from outside, so that courses with different numbers can be compared. The course of a rule ends as
its run does.
-/

namespace PLZero

namespace Draft

/-- A draft in which loops over tokens have a number of rounds. -/
def withRounds (rounds : Nat) (draft : Draft) : Draft :=
  { draft with bound := rounds }

def resultWithRounds {α : Type} (rounds : Nat) : EStateM.Result Halt Draft α → EStateM.Result Halt Draft α
  | .ok answer after => .ok answer (after.withRounds rounds)
  | .error halt after => .error halt (after.withRounds rounds)

theorem advanceTo_withRounds (rounds : Nat) (items : List Item) (draft : Draft) :
    advanceTo items (draft.withRounds rounds) = resultWithRounds rounds (advanceTo items draft) := by
  induction items generalizing draft with
  | nil => rfl
  | cons item items ih =>
    cases item with
    | error overlong => rfl
    | ok placed =>
      obtain ⟨t, position⟩ := placed
      cases t with
      | unknown c =>
        exact ih (reported { draft with current := ⟨.unknown c, position⟩, upcoming := items } (.unknownCharacter c))
      | badComment line =>
        exact ih (reported { draft with current := ⟨.badComment line, position⟩, upcoming := items }
          (.unterminatedComment line))
      | _ => rfl

theorem emit_withRounds (rounds : Nat) (op : Opcode) (level value : Int) (draft : Draft) :
    emit op level value (draft.withRounds rounds) = resultWithRounds rounds (emit op level value draft) := by
  simp only [emit]
  cases Instruction.ofLevel (.named op) (min level maxLevel) value <;> rfl

theorem purge_withRounds (rounds : Nat) (level : Int) (draft : Draft) :
    purge level (draft.withRounds rounds) = resultWithRounds rounds (purge level draft) := by
  have notes (removed : List Symbol) (draft : Draft) :
      (removed.forM fun symbol => note (.purge symbol)) (draft.withRounds rounds) =
        resultWithRounds rounds ((removed.forM fun symbol => note (.purge symbol)) draft) := by
    induction removed generalizing draft with
    | nil => rfl
    | cons symbol removed ih => exact ih (draft.noted (.purge symbol))
  exact notes (draft.symbols.purge level).1 { draft with symbols := (draft.symbols.purge level).2 }

end Draft

/-- What comes of a request if there is a number of rounds for loops. -/
def Request.performWithin (rounds : Nat) : (request : Request) → Draft → EStateM.Result Halt Draft request.Answer
  | .bound, draft => .ok rounds draft
  | request, draft => request.perform draft

theorem Request.performWithin_eq {request : Request} (other : request ≠ .bound) (rounds : Nat) (draft : Draft) :
    request.performWithin rounds draft = request.perform draft := by
  cases request with
  | bound => exact absurd rfl other
  | _ => rfl

theorem Request.perform_withRounds (request : Request) (rounds : Nat) (draft : Draft) :
    request.perform (draft.withRounds rounds) = Draft.resultWithRounds rounds (request.performWithin rounds draft) := by
  cases request with
  | advance => exact Draft.advanceTo_withRounds rounds _ draft
  | emit op level value => exact Draft.emit_withRounds rounds op level value draft
  | purge level => exact Draft.purge_withRounds rounds level draft
  | _ => rfl

namespace Production

variable {α β : Type}

/-- The requests of a rule in the order in which it makes them, and how it ends, if there is a number of rounds for
loops. -/
def course (rounds : Nat) : Production α → Draft → List Request × EStateM.Result Halt Draft α
  | .done result, draft => ([], .ok result draft)
  | .ask request next, draft =>
    match request.performWithin rounds draft with
    | .ok answer after =>
      let (requests, result) := (next answer).course rounds after
      (request :: requests, result)
    | .error halt after => ([request], .error halt after)

theorem course_request {request : Request} {rounds : Nat} {draft after : Draft} {answer : request.Answer}
    (performed : request.performWithin rounds draft = .ok answer after) :
    (ask request .done).course rounds draft = ([request], .ok answer after) := by
  simp only [course, performed]

theorem course_bind (rounds : Nat) (first : Production α) (next : α → Production β) (draft : Draft) :
    (first >>= next).course rounds draft =
      match first.course rounds draft with
      | (requests, .ok answer after) =>
        (requests ++ ((next answer).course rounds after).1, ((next answer).course rounds after).2)
      | (requests, .error halt after) => (requests, .error halt after) := by
  induction first generalizing draft with
  | done result => rfl
  | ask request further ih =>
    have unfolded : (ask request further >>= next) = ask request fun answer => further answer >>= next := rfl
    rw [unfolded]
    simp only [course]
    cases request.performWithin rounds draft with
    | error halt after => rfl
    | ok answer after =>
      simp only [ih answer after]
      rcases (further answer).course rounds after with ⟨requests, result | halt⟩ <;> rfl

/-- The course of a rule ends as its run does. -/
theorem run_withRounds (rounds : Nat) (rule : Production α) (draft : Draft) :
    rule.run (draft.withRounds rounds) = Draft.resultWithRounds rounds (rule.course rounds draft).2 := by
  induction rule generalizing draft with
  | done result => rfl
  | ask request next ih =>
    simp only [run, course, Request.perform_withRounds]
    cases request.performWithin rounds draft with
    | ok answer after => exact ih answer after
    | error halt after => rfl

end Production

end PLZero
