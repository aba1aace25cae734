import PLZero.Proofs.Translation.Runs

namespace PLZero

variable {depth : Nat}

/-- Everything in a source is a token that the grammar gets to see. -/
def Legible (source : String) : Prop :=
  ∀ item ∈ lex source, ∃ placed, item = .ok placed ∧ placed.token.isVisible

theorem Legible.exists_placed {source : String} (h : Legible source) :
    ∃ placed : List PlacedToken, lex source = placed.map .ok ∧ (∀ p ∈ placed, p.token.isVisible) ∧
      placed.map (·.token) = sourceTokens source ++ [.eof] := by
  have readable : ∀ items : List Item, (∀ item ∈ items, ∃ placed, item = .ok placed ∧ placed.token.isVisible) →
      ∃ placed : List PlacedToken, items = placed.map .ok ∧ (∀ p ∈ placed, p.token.isVisible) ∧
        tokensOf items = placed.map (·.token) := by
    intro items all
    induction items with
    | nil => exact ⟨[], rfl, by simp, rfl⟩
    | cons item items ih =>
      simp only [List.mem_cons, forall_eq_or_imp] at all
      obtain ⟨⟨first, rfl, seen⟩, others⟩ := all
      obtain ⟨placed, rfl, visible, tokens⟩ := ih others
      refine ⟨first :: placed, rfl, by simpa [seen] using visible, ?_⟩
      rw [List.map_cons, ← tokens]
      rfl
  obtain ⟨items, final, spelled, ⟨position, rfl⟩, -⟩ := lex_ends source
  have front : ∀ item ∈ items, ∃ placed, item = .ok placed ∧ placed.token.isVisible := fun item mem =>
    h item (by simp [spelled, mem])
  obtain ⟨placed, rfl, visible, tokens⟩ := readable items front
  refine ⟨placed ++ [⟨.eof, position⟩], by simpa using spelled, ?_, ?_⟩
  · simpa [or_imp, forall_and, Token.isVisible] using visible
  · rw [sourceTokens, spelled, List.dropLast_concat, tokens, List.map_append]
    rfl

theorem Legible.readable {source : String} (h : Legible source) : ∀ overlong, .error overlong ∉ lex source := by
  intro overlong mem
  obtain ⟨placed, same, -⟩ := h _ mem
  cases same

theorem Legible.shows {source : String} (h : Legible source) :
    (Draft.ofSource source).Shows (.ofTokens (sourceTokens source)) := by
  obtain ⟨placed, spelled, visible, tokens⟩ := h.exists_placed
  refine ⟨⟨placed, spelled, visible, by simpa [Sketch.ofTokens, Draft.ofSource] using tokens⟩, ?_, rfl, rfl, rfl, rfl⟩
  have all : (lex source).countP itemIsVisible = placed.length := by
    rw [spelled, List.countP_map, List.countP_eq_length]
    exact visible
  have length := congrArg List.length tokens
  simp only [Sketch.ofTokens, Draft.ofSource, all]
  simpa using length.symm

theorem Production.run_request (request : Request) (draft : Draft) :
    (Production.ask request .done).run draft = request.perform draft := by
  simp only [Production.run]
  cases request.perform draft <;> rfl

theorem Production.run_bind_eq_ok {α β : Type} {first : Production α} {next : α → Production β} {draft after : Draft}
    {result : β} (ran : (first >>= next).run draft = .ok result after) :
    ∃ answer between, first.run draft = .ok answer between ∧ (next answer).run between = .ok result after := by
  rw [Production.run_bind] at ran
  cases atFirst : first.run draft with
  | ok answer between => exact ⟨answer, between, rfl, by simpa [atFirst] using ran⟩
  | error halt between => simp [atFirst] at ran

/-- The end of a list that occurs nowhere else in it has nothing behind it. -/
theorem eq_nil_of_end {items front behind : List Item} {final item : Item}
    (spelled : front ++ item :: behind = items ++ [final]) (isEnd : IsEnd item) (others : ∀ i ∈ items, ¬ IsEnd i) :
    behind = [] := by
  rcases List.eq_nil_or_concat behind with none | ⟨behind, last, rfl⟩
  · exact none
  · rw [List.concat_eq_append, ← List.cons_append, ← List.append_assoc] at spelled
    have same := (List.append_inj' spelled rfl).1
    exact absurd isEnd (others item (by simp [← same]))

/-- A source is read to its end if there is nothing to complain about. -/
theorem legible_of_run {source : String} {after : Draft}
    (ran : (Grammar.program depth).run (.ofSource source) = .ok () after) (clean : after.diagnostics = #[]) :
    Legible source := by
  obtain ⟨items, final, spelled, isEnd, others⟩ := lex_ends source
  have more : lex source ≠ [] := by simp [spelled]
  rw [Grammar.program] at ran
  obtain ⟨_, first, ranAdvance, ran⟩ := Production.run_bind_eq_ok ran
  obtain ⟨_, second, ranBlock, ran⟩ := Production.run_bind_eq_ok ran
  obtain ⟨_, third, ranPeriod, ran⟩ := Production.run_bind_eq_ok ran
  have started : first.Passed (lex source) := by
    have advanced : Draft.advanceTo (lex source) (.ofSource source) = .ok () first :=
      (Production.run_request .advance _).symm.trans ranAdvance
    exact Draft.advanceTo_passed [] rfl (by simp) more advanced
  have read := Production.run_passed (Production.run_passed started ranBlock) ranPeriod
  have ran : (if third.current.token.kind = .eof then pure ()
      else Production.report (.afterTheEnd third.current.token) : Production Unit).run third = .ok () after := ran
  by_cases atEnd : third.current.token.kind = .eof
  · rw [if_pos atEnd] at ran
    cases ran
    obtain ⟨passed, whole, visible, seen⟩ := read clean
    have none := eq_nil_of_end (whole.symm.trans spelled) (isEnd_of_kind atEnd) others
    intro item mem
    rw [whole, none, List.mem_append, List.mem_map, List.mem_singleton] at mem
    rcases mem with ⟨placed, mem, rfl⟩ | rfl
    · exact ⟨placed, rfl, visible placed mem⟩
    · exact ⟨after.current, rfl, seen⟩
  · rw [if_neg atEnd] at ran
    cases ran
    exact absurd clean Array.push_ne_empty

theorem compile_of_run {source : String} {draft : Draft}
    (ran : (Grammar.program depth).run (.ofSource source) = .ok () draft) :
    compile depth source = .ofDraft draft none := by
  rw [compile, ran]

theorem compile_of_run_error {source : String} {draft : Draft} {halt : Halt}
    (ran : (Grammar.program depth).run (.ofSource source) = .error halt draft) :
    compile depth source = .ofDraft draft halt.failure? := by
  rw [compile, ran]

/-- The compilation of a legible source that holds a well-formed program. -/
theorem compile_of_program {source : String} {tree : Block} (legible : Legible source)
    (atProgram : parse (sourceTokens source) = some tree) (shallow : tree.nesting ≤ depth) (formed : tree.IsProgram) :
    (compile depth source).failure = none ∧ (compile depth source).errorCount = 0 ∧
      (compile depth source).code.toList = tree.program ∧ (compile depth source).globals.toList = tree.globals := by
  obtain ⟨sketch, ran, -, code, globals⟩ := Grammar.program_produces atProgram shallow formed
  have shows := (Grammar.program depth).run_shows legible.shows
  rw [ran] at shows
  obtain ⟨draft, ran, shows⟩ := shows
  rw [compile_of_run ran]
  exact ⟨rfl, congrArg Array.size shows.clean, shows.code_eq.symm.trans code, shows.globals_eq.symm.trans globals⟩

/-- A source that compiles without complaints is legible and holds a well-formed program. -/
theorem program_of_compile {source : String} (unfailing : (compile depth source).failure = none)
    (clean : (compile depth source).errorCount = 0) :
    Legible source ∧ ∃ tree, parse (sourceTokens source) = some tree ∧ tree.nesting ≤ depth ∧ tree.IsProgram := by
  cases ran : (Grammar.program depth).run (.ofSource source) with
  | error halt draft =>
    have complains := Production.run_error ran
    rw [compile_of_run_error ran] at unfailing clean
    exact absurd complains (not_or.mpr ⟨not_not.mpr (Array.eq_empty_of_size_eq_zero clean), not_not.mpr unfailing⟩)
  | ok u draft =>
    rw [compile_of_run ran] at clean
    have noDiagnostics : draft.diagnostics = #[] := Array.eq_empty_of_size_eq_zero clean
    have legible := legible_of_run ran noDiagnostics
    refine ⟨legible, ?_⟩
    have shows := (Grammar.program depth).run_shows legible.shows
    cases swept : (Grammar.program depth).clean (.ofTokens (sourceTokens source)) with
    | none =>
      rw [swept, ran] at shows
      exact absurd noDiagnostics shows
    | some result => exact (Grammar.program_admits (eof_not_mem_sourceTokens source) swept).2

theorem compileProgram_eq_ok_iff {source : String} {code : Array Instruction} :
    compileProgram depth source = .ok (.ok code) ↔
      (compile depth source).failure = none ∧ (compile depth source).errorCount = 0 ∧
        (compile depth source).code = code := by
  simp only [compileProgram]
  cases (compile depth source).failure with
  | some failure => simp
  | none =>
    by_cases clean : (compile depth source).errorCount = 0 <;> simp [clean]

/-- No integer is too long in what compiles without complaints. -/
theorem readable_of_compileProgram {source : String} {code : Array Instruction}
    (compiled : compileProgram depth source = .ok (.ok code)) : ∀ overlong, .error overlong ∉ lex source := by
  obtain ⟨unfailing, clean, -⟩ := compileProgram_eq_ok_iff.mp compiled
  exact (program_of_compile unfailing clean).1.readable

/-- What compiles without complaints is the code of a program that keeps the static rules. -/
theorem exists_program_of_compileProgram {source : String} {code : Array Instruction}
    (compiled : compileProgram depth source = .ok (.ok code)) :
    ∃ tree : Block, parse (sourceTokens source) = some tree ∧ tree.IsProgram ∧ code.toList = tree.program ∧
      (compile depth source).globals.toList = tree.globals := by
  obtain ⟨unfailing, clean, rfl⟩ := compileProgram_eq_ok_iff.mp compiled
  obtain ⟨legible, tree, atProgram, shallow, formed⟩ := program_of_compile unfailing clean
  obtain ⟨-, -, code, globals⟩ := compile_of_program legible atProgram shallow formed
  exact ⟨tree, atProgram, formed, code, globals⟩

end PLZero
