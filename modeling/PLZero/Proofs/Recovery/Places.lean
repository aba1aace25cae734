import PLZero.Proofs.Lexing.Filling
import PLZero.Proofs.Recovery.Strays

/-!
The places of tokens in a compilation. The grammar does not see them: where they are forgotten, the same comes out but
for the lines in diagnostics.
-/

namespace PLZero

def PlacedToken.unplaced (placed : PlacedToken) : PlacedToken :=
  { placed with position := .start }

def Diagnostic.unplaced (diagnostic : Diagnostic) : Diagnostic :=
  { diagnostic with line := Position.start.line }

def Event.unplaced : Event → Event
  | error diagnostic => error diagnostic.unplaced
  | event => event

/-- A compilation without the lines of its diagnostics. -/
def Compilation.unplaced (compilation : Compilation) : Compilation :=
  { compilation with
    diagnostics := compilation.diagnostics.map (·.unplaced)
    journal := compilation.journal.map (·.unplaced) }

namespace Draft

/-- The draft as if all tokens stood at the start. -/
def unplaced (draft : Draft) : Draft :=
  { draft with
    current := draft.current.unplaced
    upcoming := draft.upcoming.map (·.map (·.unplaced))
    diagnostics := draft.diagnostics.map (·.unplaced)
    journal := draft.journal.map (·.unplaced) }

def resultUnplaced {α : Type} : EStateM.Result Halt Draft α → EStateM.Result Halt Draft α
  | .ok answer after => .ok answer after.unplaced
  | .error halt after => .error halt after.unplaced

theorem unplaced_noted (draft : Draft) (event : Event) :
    (draft.noted event).unplaced = draft.unplaced.noted event.unplaced := by
  simp [noted, unplaced]

theorem unplaced_reported (draft : Draft) (complaint : Complaint) :
    (draft.reported complaint).unplaced = draft.unplaced.reported complaint := by
  simp [reported, noted, unplaced, Event.unplaced, Diagnostic.unplaced, PlacedToken.unplaced]

theorem advanceTo_unplaced (items : List Item) (draft : Draft) :
    advanceTo (items.map (·.map (·.unplaced))) draft.unplaced = resultUnplaced (advanceTo items draft) := by
  induction items generalizing draft with
  | nil => rfl
  | cons item items ih =>
    cases item with
    | error overlong => rfl
    | ok placed =>
      obtain ⟨t, position⟩ := placed
      cases t with
      | unknown c =>
        have passed := ih (reported { draft with current := ⟨.unknown c, position⟩, upcoming := items }
          (.unknownCharacter c))
        rw [unplaced_reported] at passed
        exact passed
      | badComment line =>
        have passed := ih (reported { draft with current := ⟨.badComment line, position⟩, upcoming := items }
          (.unterminatedComment line))
        rw [unplaced_reported] at passed
        exact passed
      | _ => rfl

theorem emit_unplaced (op : Opcode) (level value : Int) (draft : Draft) :
    emit op level value draft.unplaced = resultUnplaced (emit op level value draft) := by
  cases made : Instruction.ofLevel (.named op) (min level maxLevel) value with
  | error error =>
    simp only [emit, made]
    rfl
  | ok instruction =>
    have emitted := unplaced_noted { draft with code := draft.code.push instruction }
      (.emit draft.code.size instruction)
    simp only [emit, made]
    exact congrArg (EStateM.Result.ok draft.code.size) emitted.symm

theorem purge_unplaced (level : Int) (draft : Draft) :
    purge level draft.unplaced = resultUnplaced (purge level draft) := by
  have notes (removed : List Symbol) (draft : Draft) :
      (removed.forM fun symbol => note (.purge symbol)) draft.unplaced =
        resultUnplaced ((removed.forM fun symbol => note (.purge symbol)) draft) := by
    induction removed generalizing draft with
    | nil => rfl
    | cons symbol removed ih =>
      have noted := ih (draft.noted (.purge symbol))
      rw [unplaced_noted] at noted
      exact noted
  exact notes (draft.symbols.purge level).1 { draft with symbols := (draft.symbols.purge level).2 }

end Draft

/-- No request tells places apart. -/
theorem Request.perform_unplaced (request : Request) (draft : Draft) :
    request.perform draft.unplaced = Draft.resultUnplaced (request.perform draft) := by
  cases request with
  | advance => exact Draft.advanceTo_unplaced draft.upcoming draft
  | report complaint => exact congrArg (EStateM.Result.ok ()) (draft.unplaced_reported complaint).symm
  | emit op level value => exact Draft.emit_unplaced op level value draft
  | patch position target =>
    have noted := draft.unplaced_noted (.patch position target)
    exact congrArg (fun draft => EStateM.Result.ok () { draft with
      code := draft.code.modify position fun instruction => { instruction with value := target } }) noted.symm
  | declare symbol =>
    have noted := Draft.unplaced_noted { draft with symbols := draft.symbols.declare symbol } (.declare symbol)
    exact congrArg (EStateM.Result.ok ()) noted.symm
  | purge level => exact Draft.purge_unplaced level draft
  | abandon => exact congrArg (EStateM.Result.error Halt.tooDeep) (draft.unplaced_reported .tooDeep).symm
  | _ => rfl

theorem Production.run_unplaced {α : Type} (rule : Production α) (draft : Draft) :
    rule.run draft.unplaced = Draft.resultUnplaced (rule.run draft) := by
  induction rule generalizing draft with
  | done result => rfl
  | ask request next ih =>
    simp only [run, Request.perform_unplaced]
    cases request.perform draft with
    | ok answer after => exact ih answer after
    | error halt after => rfl

theorem compile_unplaced (depth : Nat) (source : String) :
    (compile depth source).unplaced = match (Grammar.program depth).run (Draft.ofSource source).unplaced with
      | .ok () draft => .ofDraft draft none
      | .error halt draft => .ofDraft draft halt.failure? := by
  rw [Production.run_unplaced, compile]
  cases (Grammar.program depth).run (.ofSource source) <;> rfl

/-- Sources with the same tokens are compiled alike, wherever the tokens stand. -/
theorem compile_unplaced_congr (depth : Nat) {source other : String}
    (same : (lex other).map (·.map (·.token)) = (lex source).map (·.map (·.token))) :
    (compile depth other).unplaced = (compile depth source).unplaced := by
  have items (source : String) : (lex source).map (·.map (·.unplaced)) =
      ((lex source).map (·.map (·.token))).map (·.map (⟨·, .start⟩)) := by
    rw [List.map_map]
    refine List.map_congr_left fun item _ => ?_
    cases item <;> rfl
  have visible (source : String) : (lex source).countP itemIsVisible =
      ((lex source).map (·.map (·.unplaced))).countP itemIsVisible := by
    rw [List.countP_map]
    refine List.countP_congr fun item _ => ?_
    cases item <;> rfl
  have unplaced : (Draft.ofSource other).unplaced = (Draft.ofSource source).unplaced := by
    simp only [Draft.ofSource, Draft.unplaced, visible, items, same]
  rw [compile_unplaced, compile_unplaced, unplaced]

/-- Layout does not matter. Where blanks and comments are put in at the beginning or the end of a token of a source
without an open comment, the tokens stay, and the same code, variables and diagnostics come out, in the same order. Only
the lines of the diagnostics may be others. -/
theorem compile_filledAt (depth : Nat) {source : String} {offset : Nat} {piece : List Char} (filler : IsFiller piece)
    (closed : ∀ item ∈ lex source, ¬ isUnclosed item) (edge : offset ∈ edges source) :
    (lex (filledAt offset piece source)).map (·.map (·.token)) = (lex source).map (·.map (·.token)) ∧
    (compile depth (filledAt offset piece source)).code = (compile depth source).code ∧
    (compile depth (filledAt offset piece source)).globals = (compile depth source).globals ∧
    (compile depth (filledAt offset piece source)).diagnostics.map (·.complaint) =
      (compile depth source).diagnostics.map (·.complaint) ∧
    (compile depth (filledAt offset piece source)).unplaced = (compile depth source).unplaced := by
  have same := lex_filledAt filler closed edge
  have unplaced := compile_unplaced_congr depth same
  have complaints (compilation : Compilation) : compilation.diagnostics.map (·.complaint) =
      compilation.unplaced.diagnostics.map (·.complaint) := by
    rw [Compilation.unplaced, Array.map_map]
    rfl
  have code := congrArg Compilation.code unplaced
  have globals := congrArg Compilation.globals unplaced
  refine ⟨same, code, globals, ?_, unplaced⟩
  rw [complaints (compile depth (filledAt offset piece source)), unplaced, ← complaints]

def undefinedSource : String :=
  "var x; begin x:=y*2 end."

/-- A comment with a newline in it moves a complaint to another line. -/
theorem undefinedSource_filled :
    (compile maxNesting undefinedSource).diagnostics = #[⟨.undefined "y", 1⟩] ∧
      (compile maxNesting "var x; begin x:=\t/* ** /*\n*/ y*2 end.").diagnostics = #[⟨.undefined "y", 2⟩] ∧
      (compile maxNesting "var x; begin x:=\t/* ** /*\n*/ y*2 end.").code =
        (compile maxNesting undefinedSource).code := by
  have spelled : filledAt 16 "\t/* ** /*\n*/ ".toList undefinedSource = "var x; begin x:=\t/* ** /*\n*/ y*2 end." := by
    decide
  have filler : IsFiller "\t/* ** /*\n*/ ".toList :=
    @IsFiller.bracketed '\t' ' ' " ** /*\n".toList (by decide) (by decide +kernel) (by decide)
  have closed : ∀ item ∈ lex undefinedSource, ¬ isUnclosed item := by decide
  have edge : 16 ∈ edges undefinedSource := by decide
  obtain ⟨-, sameCode, -⟩ := compile_filledAt maxNesting filler closed edge
  rw [spelled] at sameCode
  exact ⟨by decide +kernel, by decide +kernel, sameCode⟩

end PLZero
