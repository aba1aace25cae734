import PLZero.Proofs.Recovery.Endings

/-!
Diagnostics come in the order of the source. Tokens do, each complaint is about the line of the current token, and the
grammar goes forward only, so the lines of what has been reported, of the current token and of those to come stay in
order all along.
-/

namespace PLZero

def Item.line? : Item → Option Nat
  | .ok placed => some placed.position.line
  | .error _ => none

/-- The lines of the tokens among items. -/
def tokenLines (items : List Item) : List Nat :=
  items.filterMap Item.line?

/-- The tokens that cut a text are on its lines, one after another. -/
theorem Cut.tokenLines_sorted {reads : List Char → List Char → Except OverlongInteger Token → Prop}
    {passed text : List Char} {items : List Item} (cut : Cut reads passed text items) :
    (tokenLines items).Pairwise (· ≤ ·) ∧
      ∀ line ∈ tokenLines items, 1 + passed.count '\n' ≤ line ∧ line ≤ 1 + (passed ++ text).count '\n' := by
  induction cut with
  | @finish passed gap position isGap isBehind =>
    refine ⟨List.pairwise_singleton _ _, List.forall_mem_singleton.mpr ?_⟩
    rw [isBehind.line_eq, List.count_append]
    omega
  | @unclosed passed gap body opening final isGap isOpen atOpening atEnd =>
    have line := atEnd.line_eq
    rw [List.append_assoc, List.count_append] at line
    have bounds : 1 + passed.count '\n' ≤ final.line ∧
        final.line ≤ 1 + (passed ++ (gap ++ '/' :: '*' :: body)).count '\n' := by
      rw [List.count_append]
      omega
    exact ⟨List.pairwise_pair.mpr (Nat.le_refl _),
      List.forall_mem_cons.mpr ⟨bounds, List.forall_mem_singleton.mpr bounds⟩⟩
  | @lexeme passed gap lexeme rest result position items isGap begins some isRead isBehind others ih =>
    obtain ⟨sorted, within⟩ := ih
    rw [List.append_assoc, List.append_assoc, List.append_assoc] at within
    have behind : ∀ line ∈ tokenLines items, position.line ≤ line := by
      intro line mem
      have lower := (within line mem).1
      rw [isBehind.line_eq]
      rw [← List.append_assoc, List.count_append] at lower
      omega
    have later : ∀ line ∈ tokenLines items, 1 + passed.count '\n' ≤ line ∧
        line ≤ 1 + (passed ++ (gap ++ (lexeme ++ rest))).count '\n' := by
      intro line mem
      have bounds := within line mem
      rw [List.count_append] at bounds
      exact ⟨by omega, bounds.2⟩
    cases result with
    | error overlong => exact ⟨sorted, later⟩
    | ok t =>
      refine ⟨List.pairwise_cons.mpr ⟨behind, sorted⟩, List.forall_mem_cons.mpr ⟨?_, later⟩⟩
      have line := isBehind.line_eq
      rw [List.count_append] at line
      rw [List.count_append, List.count_append]
      simp only at line ⊢
      omega

theorem lex_lines (source : String) : (tokenLines (lex source)).Pairwise (· ≤ ·) ∧
    ∀ line ∈ tokenLines (lex source), 1 ≤ line ∧ line ≤ 1 + source.toList.count '\n' :=
  (lex_cut source).tokenLines_sorted

theorem tokenLines_sublist {items others : List Item} (sublist : items.Sublist others) :
    (tokenLines items).Sublist (tokenLines others) :=
  sublist.filterMap _

namespace Draft

/-- The lines of what has been reported, of the current token and of those to come. -/
def allLines (draft : Draft) : List Nat :=
  draft.diagnostics.toList.map (·.line) ++ tokenLines (.ok draft.current :: draft.upcoming)

/-- All lines are in order, and they are those of some tokens. -/
structure InOrder (items : List Item) (draft : Draft) : Prop where
  sorted : draft.allLines.Pairwise (· ≤ ·)
  lines : ∀ line ∈ draft.allLines, line ∈ tokenLines items

namespace InOrder

variable {items : List Item} {draft after : Draft}

theorem congr (inOrder : draft.InOrder items) (diagnostics : after.diagnostics = draft.diagnostics)
    (current : after.current = draft.current) (upcoming : after.upcoming = draft.upcoming) : after.InOrder items := by
  have same : after.allLines = draft.allLines := by rw [allLines, allLines, diagnostics, current, upcoming]
  exact ⟨same ▸ inOrder.sorted, same ▸ inOrder.lines⟩

/-- A token that is taken leaves the line of the one before behind. -/
theorem taken (inOrder : draft.InOrder items) {placed : PlacedToken} {rest : List Item}
    (next : draft.upcoming = .ok placed :: rest) :
    InOrder items { draft with current := placed, upcoming := rest } := by
  have fewer : (allLines { draft with current := placed, upcoming := rest }).Sublist draft.allLines := by
    rw [allLines, allLines, next]
    exact (tokenLines_sublist (List.sublist_cons_self _ _)).append_left _
  exact ⟨inOrder.sorted.sublist fewer, fun line mem => inOrder.lines line (fewer.mem mem)⟩

/-- A complaint is about the line of the current token. -/
theorem reported (inOrder : draft.InOrder items) (complaint : Complaint) :
    (draft.reported complaint).InOrder items := by
  have before : draft.allLines = draft.diagnostics.toList.map (·.line) ++
      draft.current.position.line :: tokenLines draft.upcoming := rfl
  have lines : (draft.reported complaint).allLines = draft.diagnostics.toList.map (·.line) ++
      draft.current.position.line :: draft.current.position.line :: tokenLines draft.upcoming := by
    rw [allLines, Draft.reported, noted, Array.toList_push, List.map_append, List.append_assoc]
    rfl
  obtain ⟨sorted, known⟩ := inOrder
  rw [before, List.pairwise_append] at sorted
  obtain ⟨earlier, later, across⟩ := sorted
  have again : ∀ line ∈ draft.current.position.line :: draft.current.position.line :: tokenLines draft.upcoming,
      line ∈ draft.current.position.line :: tokenLines draft.upcoming :=
    List.forall_mem_cons.mpr ⟨List.mem_cons_self, fun _ mem => mem⟩
  constructor
  · rw [lines, List.pairwise_append]
    refine ⟨earlier, List.pairwise_cons.mpr ⟨?_, later⟩, fun line mem other memOther =>
      across line mem other (again other memOther)⟩
    exact List.forall_mem_cons.mpr ⟨Nat.le_refl _, fun _ => List.rel_of_pairwise_cons later⟩
  · intro line mem
    rw [lines] at mem
    rw [before] at known
    exact known line ((List.mem_append.mp mem).elim (List.mem_append_left _) fun mem =>
      List.mem_append_right _ (again line mem))

/-- Each request keeps the order, whether or not the compilation goes on. -/
theorem left_perform (request : Request) (draft : Draft) (inOrder : draft.InOrder items) :
    (left (request.perform draft)).InOrder items := by
  cases request with
  | advance =>
    exact left_advanceTo (InOrder items) rfl (fun _ _ _ next inOrder => inOrder.taken next)
      (fun _ complaint inOrder => inOrder.reported complaint) inOrder
  | report complaint => exact inOrder.reported complaint
  | abandon => exact inOrder.reported .tooDeep
  | emit op level value =>
    simp only [Request.perform, emit]
    cases Instruction.ofLevel (.named op) (min level maxLevel) value with
    | ok instruction => exact inOrder.congr rfl rfl rfl
    | error error => exact inOrder
  | purge level =>
    obtain ⟨journal, purged⟩ := draft.purge_eq level
    have left_eq := congrArg left purged
    exact left_eq ▸ inOrder.congr rfl rfl rfl
  | _ => exact inOrder.congr rfl rfl rfl

end InOrder

end Draft

namespace Grammar

variable {depth : Nat} {draft : Draft} {rest : List Item}

/-- A program takes a token first, so it does not matter where it stands before. -/
theorem program_run_of_current {placed : PlacedToken} (next : draft.upcoming = .ok placed :: rest)
    (other : PlacedToken) : (program depth).run { draft with current := other } = (program depth).run draft := by
  have same : Draft.advanceTo draft.upcoming { draft with current := other } =
      Draft.advanceTo draft.upcoming draft := by
    rw [next]
    rfl
  have first : Production.advance.run { draft with current := other } = Production.advance.run draft :=
    (Production.run_request .advance _).trans (same.trans (Production.run_request .advance draft).symm)
  rw [program, Production.run_bind, Production.run_bind, first]

theorem program_run_of_error {overlong : OverlongInteger} (next : draft.upcoming = .error overlong :: rest) :
    (program depth).run draft = .error (.overlongInteger overlong) draft := by
  have stops : Draft.advanceTo draft.upcoming draft = .error (.overlongInteger overlong) draft := by
    rw [next]
    rfl
  have first : Production.advance.run draft = .error (.overlongInteger overlong) draft :=
    (Production.run_request .advance draft).trans stops
  rw [program, Production.run_bind, first]

end Grammar

theorem mem_tokenLines {items : List Item} {line : Nat} (mem : line ∈ tokenLines items) :
    ∃ placed : PlacedToken, .ok placed ∈ items ∧ placed.position.line = line := by
  obtain ⟨item, mem, isLine⟩ := List.mem_filterMap.mp mem
  cases item with
  | error overlong => cases isLine
  | ok placed => exact ⟨placed, mem, Option.some.inj isLine⟩

/-- A program that stands at its first token instead of in front of it. -/
theorem Draft.inOrder_start {source : String} {placed : PlacedToken} {rest : List Item}
    (tokens : lex source = .ok placed :: rest) :
    InOrder (lex source) { ofSource source with current := placed } := by
  have lines : allLines { ofSource source with current := placed } =
      placed.position.line :: tokenLines (lex source) := rfl
  obtain ⟨sorted, -⟩ := lex_lines source
  have first : tokenLines (lex source) = placed.position.line :: tokenLines rest := by
    rw [tokens]
    rfl
  rw [first] at sorted lines
  refine ⟨?_, ?_⟩
  · rw [lines]
    exact List.pairwise_cons.mpr ⟨List.forall_mem_cons.mpr ⟨Nat.le_refl _, fun _ => List.rel_of_pairwise_cons sorted⟩,
      sorted⟩
  · rw [lines, first]
    exact List.forall_mem_cons.mpr ⟨List.mem_cons_self, fun _ mem => mem⟩

/-- What is left of a program is in order, or nothing has been reported as it has no first token. -/
theorem Grammar.program_inOrder (depth : Nat) (source : String) :
    (Draft.left ((program depth).run (.ofSource source))).diagnostics = #[] ∨
      (Draft.left ((program depth).run (.ofSource source))).InOrder (lex source) := by
  have upcoming : (Draft.ofSource source).upcoming = lex source := rfl
  obtain ⟨items, final, spelled, -⟩ := lex_ends source
  cases tokens : lex source with
  | nil => exact absurd (tokens.symm.trans spelled) (List.concat_ne_nil final items).symm
  | cons item rest =>
    cases item with
    | error overlong =>
      rw [program_run_of_error (upcoming.trans tokens)]
      exact .inl rfl
    | ok placed =>
      rw [← program_run_of_current (upcoming.trans tokens) placed, ← tokens]
      exact .inr (Production.left_run (Draft.InOrder (lex source)) Draft.InOrder.left_perform (program depth)
        (Draft.inOrder_start tokens))

/-- The lines of the diagnostics never decrease, and each is the line of a token of the source. -/
theorem diagnostics_in_order (depth : Nat) (source : String) :
    ((compile depth source).diagnostics.toList.map (·.line)).Pairwise (· ≤ ·) ∧
      ∀ diagnostic ∈ (compile depth source).diagnostics,
        (∃ placed : PlacedToken, .ok placed ∈ lex source ∧ placed.position.line = diagnostic.line) ∧
          1 ≤ diagnostic.line ∧ diagnostic.line ≤ 1 + source.toList.count '\n' := by
  obtain ⟨failure, compiled⟩ := compile_eq_left depth source
  have diagnostics : (compile depth source).diagnostics =
      (Draft.left ((Grammar.program depth).run (.ofSource source))).diagnostics := by
    rw [compiled]
    rfl
  rw [diagnostics]
  rcases Grammar.program_inOrder depth source with none | ⟨sorted, known⟩
  · rw [none]
    exact ⟨.nil, fun _ mem => absurd mem (Array.not_mem_empty _)⟩
  · refine ⟨(List.pairwise_append.mp sorted).1, fun diagnostic mem => ?_⟩
    have isLine := known diagnostic.line (List.mem_append_left _ (List.mem_map_of_mem (Array.mem_toList_iff.mpr mem)))
    exact ⟨mem_tokenLines isLine, (lex_lines source).2 _ isLine⟩

end PLZero
