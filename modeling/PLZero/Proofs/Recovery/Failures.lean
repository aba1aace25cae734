import PLZero.Proofs.Lexing.Pieces
import PLZero.Proofs.Recovery.LexicalScoping

namespace PLZero

section Requests

variable {α : Type} {draft after : Draft}

theorem Draft.advanceTo_upcoming {items : List Item} (within : items <:+ draft.upcoming)
    (ran : Draft.advanceTo items draft = .ok () after) : after.upcoming <:+ draft.upcoming := by
  induction items generalizing draft with
  | nil =>
    cases ran
    exact List.suffix_refl _
  | cons item items ih =>
    have behind := (List.suffix_cons item items).trans within
    cases item with
    | error overlong => cases ran
    | ok placed =>
      obtain ⟨t, position⟩ := placed
      cases t with
      | unknown c | badComment line => exact (ih (List.suffix_refl items) ran).trans behind
      | _ =>
        cases ran
        exact behind

/-- No request but one takes tokens. -/
theorem Request.perform_tokens {request : Request} {answer : request.Answer} (other : request ≠ .advance)
    (ran : request.perform draft = .ok answer after) :
    after.current = draft.current ∧ after.upcoming = draft.upcoming := by
  cases request with
  | advance => exact absurd rfl other
  | emit op level value =>
    simp only [perform, Draft.emit] at ran
    cases made : Instruction.ofLevel (.named op) (min level maxLevel) value <;> simp only [made] at ran <;> cases ran
    exact ⟨rfl, rfl⟩
  | purge level =>
    obtain ⟨journal, purged⟩ := draft.purge_eq level
    cases purged.symm.trans ran
    exact ⟨rfl, rfl⟩
  | abandon => cases ran
  | _ =>
    cases ran
    exact ⟨rfl, rfl⟩

/-- Only tokens are taken from what is to come. -/
theorem Request.perform_upcoming {request : Request} {answer : request.Answer}
    (ran : request.perform draft = .ok answer after) : after.upcoming <:+ draft.upcoming := by
  by_cases advances : request = .advance
  · subst advances
    exact Draft.advanceTo_upcoming (List.suffix_refl _) ran
  · have same := (perform_tokens advances ran).2
    exact same ▸ List.suffix_refl _

/-- What is to come when a request is made has been to come from the start. -/
theorem Production.occasions_upcoming (rule : Production α) (watch : Watch) (draft : Draft) :
    ∀ o ∈ rule.occasions watch draft, o.draft.upcoming <:+ draft.upcoming := by
  induction rule generalizing watch draft with
  | done result => simp [occasions]
  | ask request next ih =>
    rw [occasions, List.forall_mem_cons]
    refine ⟨List.suffix_refl _, ?_⟩
    cases ran : request.perform draft with
    | ok answer after => exact fun o mem => (ih answer _ after o mem).trans (Request.perform_upcoming ran)
    | error halt after => simp

/-- A run stops at the last request that it makes. -/
theorem Production.exists_getLast?_of_error {rule : Production α} (watch : Watch) {halt : Halt}
    (ran : rule.run draft = .error halt after) :
    ∃ o, (rule.occasions watch draft).getLast? = some o ∧ o.request.perform o.draft = .error halt after := by
  induction rule generalizing watch draft with
  | done result => cases ran
  | ask request next ih =>
    simp only [run] at ran
    rw [occasions]
    cases performed : request.perform draft with
    | ok answer between =>
      rw [performed] at ran
      obtain ⟨o, last, stops⟩ := ih answer (watch.next draft request) ran
      refine ⟨o, ?_, stops⟩
      rw [List.getLast?_cons, last, Option.getD_some]
    | error other between =>
      rw [performed] at ran
      cases ran
      exact ⟨⟨watch, draft, request⟩, rfl, performed⟩

/-- Only a token that is taken can be an integer that is too long. -/
theorem Request.perform_overlong {request : Request} {error : OverlongInteger}
    (ran : request.perform draft = .error (.overlongInteger error) after) :
    request = .advance ∧ ReachesOverlong draft.upcoming error := by
  cases request with
  | advance =>
    obtain ⟨other, isHalt, reaches⟩ := Draft.advanceTo_halt ran
    cases isHalt
    exact ⟨rfl, reaches⟩
  | emit op level value =>
    simp only [perform, Draft.emit] at ran
    cases made : Instruction.ofLevel (.named op) (min level maxLevel) value <;> simp only [made] at ran <;> cases ran
  | purge level =>
    obtain ⟨journal, purged⟩ := draft.purge_eq level
    cases purged.symm.trans ran
  | _ => cases ran

end Requests

/-- The name that is looked up lies in an open block. -/
theorem Watch.Allows.resolve_level {watch : Watch} {symbols : SymbolTable} {name : String} {symbol : Symbol}
    (allows : watch.Allows symbols (.resolve name)) (found : symbols.resolve name = some symbol) :
    symbol.level ≤ watch.level := by
  obtain ⟨⟨entries, holds⟩, ⟨entry, atStatement⟩, -⟩ := allows
  have below := holds.level_lt (by rw [pending, atStatement]) symbol (holds.resolve_mem found)
  rw [level]
  omega

/-- A compilation fails for nothing but an integer in the source that is too long, when that comes up for the grammar.
No instruction is emitted for a level below zero: all names that are looked up lie in open blocks, and a function whose
result is stored is the owner of one. -/
theorem fails_only_for_overlong (depth : Nat) (source : String) :
    ((compile depth source).failure = none ∨
      ∃ error, (compile depth source).failure = some (.overlongInteger error) ∧ Text.integerDigitLimit < error.digits ∧
      (∃ digits, IsDigits digits ∧ digits.length = error.digits ∧ digits <:+: source.toList) ∧
      ∃ o, ((Grammar.program depth).occasions .start (.ofSource source)).getLast? = some o ∧ o.request = .advance ∧
        o.draft.upcoming <:+ lex source ∧ ReachesOverlong o.draft.upcoming error) ∧
    ∀ o ∈ (Grammar.program depth).occasions .start (.ofSource source),
      (∀ op level value, o.request = .emit op level value →
        0 ≤ level ∧ o.watch.Reaches o.draft.symbols op level value) ∧
      ∀ name symbol, o.request = .resolve name → o.draft.symbols.resolve name = some symbol →
        symbol.level ≤ o.watch.level := by
  have heeds := @Grammar.program_heeds depth (.ofSource source) rfl rfl
  have allowed := heeds.forall_occasions
  refine ⟨?_, fun o mem => ⟨fun op level value asks => ?_, fun name symbol asks found => ?_⟩⟩
  · cases ran : (Grammar.program depth).run (.ofSource source) with
    | ok result draft => exact .inl (by rw [compile_of_run ran]; rfl)
    | error halt draft =>
      rw [compile_of_run_error ran]
      rcases heeds.of_halt ran with ⟨error, rfl⟩ | ⟨rfl, -⟩
      · obtain ⟨o, last, stops⟩ := Production.exists_getLast?_of_error .start ran
        obtain ⟨advances, reaches⟩ := Request.perform_overlong stops
        have mem := List.mem_of_getLast? last
        have within : o.draft.upcoming <:+ lex source := Production.occasions_upcoming _ _ _ o mem
        obtain ⟨long, digits⟩ := (lex_cut source).overlong (within.mem reaches.mem)
        exact .inr ⟨error, rfl, long, digits, o, last, advances, within, reaches⟩
      · exact .inl rfl
  · have fits := (allowed o mem).fits
    rw [asks] at fits
    exact fits
  · have allows := allowed o mem
    rw [asks] at allows
    exact allows.resolve_level found

end PLZero
