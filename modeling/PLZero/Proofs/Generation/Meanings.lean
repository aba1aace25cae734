import PLZero.Proofs.Generation.Code

namespace PLZero

namespace CodeContext

/-- The static side of what is declared. -/
def meanings (context : CodeContext) : StaticContext :=
  Context.map Binding.meaning context

theorem find?_meanings (context : CodeContext) (name : String) :
    context.meanings.find? name = (context.find? name).map fun found =>
      ⟨found.distance, found.entry.meaning, CodeContext.meanings found.visible⟩ :=
  Context.find?_map Binding.meaning context name

theorem exists_of_find?_meanings {context : CodeContext} {name : String} {distance : Nat}
    {meaning : Meaning} {visible : StaticContext}
    (h : context.meanings.find? name = some ⟨distance, meaning, visible⟩) :
    ∃ entry inner, context.find? name = some ⟨distance, entry, inner⟩ ∧ entry.meaning = meaning := by
  rw [find?_meanings, Option.map_eq_some_iff] at h
  obtain ⟨⟨d, entry, inner⟩, atName, same⟩ := h
  cases same
  exact ⟨entry, inner, atName, rfl⟩

theorem find?_meanings_of_find? {context : CodeContext} {name : String} {distance : Nat}
    {entry : Binding} {inner : CodeContext} (h : context.find? name = some ⟨distance, entry, inner⟩) :
    context.meanings.find? name = some ⟨distance, entry.meaning, inner.meanings⟩ := by
  rw [find?_meanings, h]
  rfl

theorem mark_meanings (context : CodeContext) (distance : Nat) :
    (context.meanings[distance]?).bind (·.mark) = (context[distance]?).bind (·.mark) := by
  simp only [CodeContext.meanings, Context.map, List.getElem?_map, Option.bind_map]
  rfl

end CodeContext

section

variable {context : CodeContext} {name : String}

/-- What a name that is used as a value is found to stand for. -/
theorem Expression.WellFormed.exists_value (rules : (Expression.name name).WellFormed context.meanings) :
    ∃ found, context.find? name = some found ∧
      (found.entry.meaning = .constant ∨ found.entry.meaning = .variable) := by
  cases rules with
  | constantName atName =>
    obtain ⟨entry, inner, found, meaning⟩ := CodeContext.exists_of_find?_meanings atName
    exact ⟨_, found, .inl meaning⟩
  | variableName atName =>
    obtain ⟨entry, inner, found, meaning⟩ := CodeContext.exists_of_find?_meanings atName
    exact ⟨_, found, .inr meaning⟩

/-- What a name that is assigned to is found to stand for: a variable, or a subroutine that is declared further out. -/
theorem Statement.WellFormed.exists_target {value : Expression}
    (rules : (Statement.assignment name value).WellFormed context.meanings) :
    value.WellFormed context.meanings ∧ ∃ found, context.find? name = some found ∧
      (found.entry.meaning = .variable ∨
        ∃ distance kind arity, found.distance = distance + 1 ∧ found.entry.meaning = .routine kind arity) := by
  cases rules with
  | assignment atName rules =>
    obtain ⟨entry, inner, found, meaning⟩ := CodeContext.exists_of_find?_meanings atName
    exact ⟨rules, _, found, .inl meaning⟩
  | result atName _ rules =>
    obtain ⟨entry, inner, found, meaning⟩ := CodeContext.exists_of_find?_meanings atName
    exact ⟨rules, _, found, .inr ⟨_, _, _, rfl, meaning⟩⟩

end

namespace Block

theorem openingFrame_map (owner : Option Heading) (constants : List (String × Nat)) (vars : List String) :
    (openingFrame owner constants vars).map Binding.meaning = openingLayer owner constants vars := by
  have unindexed : ∀ (names : List String) (start : Nat),
      (names.zipIdx start).map (fun p => (p.1, Meaning.variable)) = names.map (·, Meaning.variable) := by
    intro names start
    rw [← List.zipIdx_map_fst start names, List.map_map, List.zipIdx_map_fst]
    rfl
  rw [openingFrame, Layer.map_declareAll, openingBindings]
  simp [openingLayer, openingMeanings, Layer.map, Function.comp_def, Binding.meaning, unindexed]

theorem generateAll_map (outer : CodeContext) (layer : Layer (Option String) Binding) (start : Nat)
    (subroutines : List (Heading × Block)) :
    (generateAll outer layer start subroutines).1.map Binding.meaning =
      (layer.map Binding.meaning).declareAll (subroutines.map fun s => (s.1.name, s.1.meaning)) := by
  induction subroutines generalizing layer start with
  | nil => rfl
  | cons first rest ih => 
    obtain ⟨heading, block⟩ := first
    simp only [generateAll, ih]
    rfl

theorem generateAll_mark (outer : CodeContext) (layer : Layer (Option String) Binding) (start : Nat)
    (subroutines : List (Heading × Block)) : (generateAll outer layer start subroutines).1.mark = layer.mark := by
  have same := congrArg Layer.mark (generateAll_map outer layer start subroutines)
  simpa using same

end Block

end PLZero
