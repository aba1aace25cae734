import PLZero.Lexer

namespace PLZero

/-- What the lexer finds at a place of a source: a token, or an integer that cannot be read. -/
abbrev Item :=
  Except OverlongInteger PlacedToken

/-- Whether an item is the end of the source. -/
def IsEnd (item : Item) : Prop :=
  ∃ position, item = .ok ⟨.eof, position⟩

theorem isEnd_of_kind {placed : PlacedToken} (h : placed.token.kind = .eof) : IsEnd (.ok placed) := by
  obtain ⟨t, position⟩ := placed
  cases t <;> first | exact ⟨position, rfl⟩ | cases h

theorem not_isEnd_badComment (line : Nat) (position : Position) : ¬ IsEnd (.ok ⟨.badComment line, position⟩) := by
  rintro ⟨place, same⟩
  cases same

/-- The tokens among items. -/
def tokensOf (items : List Item) : List Token :=
  items.filterMap fun item => item.toOption.map (·.token)

theorem marks_spelled : ∀ mark ∈ marks, mark.1 ≠ [] ∧ mark.2 ≠ .eof := by
  decide

theorem Numeral.text_ne_nil {first : Char} {rest : List Char} (isDigit : first.isDigit) :
    (Numeral.scan (first :: rest)).text ≠ [] := by
  simp [Numeral.scan, Numeral.text, isDigit]

/-- A lexeme takes a character and is no end of the source. -/
theorem Lexeme.scan_takes (first : Char) (rest : List Char) :
    (Lexeme.scan first rest).text ≠ [] ∧ (Lexeme.scan first rest).token ≠ .ok .eof := by
  unfold Lexeme.scan
  split
  · rename_i isDigit
    refine ⟨Numeral.text_ne_nil isDigit, ?_⟩
    simp only [Numeral.token]
    split
    · simp
    · split <;> simp
  · split
    · rename_i isStart
      have isPart : isWordPart first = true := by
        simp only [isWordStart, isWordPart, Bool.or_eq_true] at isStart ⊢
        exact isStart.elim (fun letter => .inl (.inl letter)) .inr
      refine ⟨by simp [isPart], ?_⟩
      simp only [wordToken]
      split <;> simp
    · split
      · rename_i found
        obtain ⟨spelled, notEnd⟩ := marks_spelled _ (List.mem_of_find?_eq_some found)
        exact ⟨spelled, by simpa using notEnd⟩
      · simp

theorem Lexeme.not_isEnd (first : Char) (rest : List Char) (position : Position) :
    ¬ IsEnd ((scan first rest).token.map (⟨·, position⟩)) := by
  rintro ⟨place, same⟩
  have notEnd := (scan_takes first rest).2
  cases isToken : (scan first rest).token with
  | error overlong => simp [isToken, Except.map] at same
  | ok token =>
    rw [isToken] at same notEnd
    cases same
    exact notEnd rfl

namespace Cursor

theorem skip_rest (cursor : Cursor) (count : Nat) : (cursor.skip count).rest = cursor.rest.drop count := rfl

/-- The next item is the end of the source, or it takes a character. -/
theorem next_takes (cursor : Cursor) :
    IsEnd cursor.next.1 ∨ ¬ IsEnd cursor.next.1 ∧ cursor.next.2.rest.length < cursor.rest.length := by
  have skipped : (cursor.skip (gapLength 0 cursor.rest)).rest.length ≤ cursor.rest.length := by
    rw [skip_rest, List.length_drop]
    omega
  simp only [next]
  generalize cursor.skip (gapLength 0 cursor.rest) = behind at skipped ⊢
  split
  · exact .inl ⟨_, rfl⟩
  · rename_i opened
    refine .inr ⟨fun ⟨_, same⟩ => by simp at same, ?_⟩
    simp only [skip_rest, List.drop_length, List.length_nil]
    rw [opened] at skipped
    exact Nat.lt_of_lt_of_le (by simp) skipped
  · rename_i first rest _ atFirst
    obtain ⟨takes, -⟩ := Lexeme.scan_takes first rest
    refine .inr ⟨Lexeme.not_isEnd first rest _, ?_⟩
    have positive := List.length_pos_iff.mpr takes
    rw [skip_rest, List.length_drop]
    rw [atFirst, List.length_cons] at skipped ⊢
    omega

theorem tokens_ends {count : Nat} {cursor : Cursor} (enough : cursor.rest.length < count) :
    ∃ items final, cursor.tokens count = items ++ [final] ∧ IsEnd final ∧ ∀ item ∈ items, ¬ IsEnd item := by
  induction count generalizing cursor with
  | zero => omega
  | succ count ih =>
    rw [tokens]
    split
    · exact ⟨[], _, rfl, ⟨_, rfl⟩, by simp⟩
    · rename_i item behind notEnd isNext
      have takes := next_takes cursor
      rw [isNext] at takes
      have more : ¬ IsEnd item := fun ⟨position, same⟩ => notEnd position same
      obtain ⟨items, final, spelled, isEnd, others⟩ := ih (Nat.lt_of_lt_of_le (takes.resolve_left more).2 (by omega))
      refine ⟨item :: items, final, by rw [spelled]; rfl, isEnd, ?_⟩
      simpa [more] using others

end Cursor

/-- A source has one end, behind all other tokens. -/
theorem lex_ends (source : String) :
    ∃ items final, lex source = items ++ [final] ∧ IsEnd final ∧ ∀ item ∈ items, ¬ IsEnd item :=
  Cursor.tokens_ends (by rw [Cursor.ofSource, String.length_toList]; exact Nat.lt_succ_self _)

/-- The tokens of a source without the end. -/
def sourceTokens (source : String) : List Token :=
  tokensOf (lex source).dropLast

theorem mem_tokensOf {items : List Item} {t : Token} :
    t ∈ tokensOf items ↔ ∃ placed : PlacedToken, .ok placed ∈ items ∧ placed.token = t := by
  simp only [tokensOf, List.mem_filterMap]
  constructor
  · rintro ⟨item, mem, same⟩
    cases item with
    | error overlong => simp [Except.toOption] at same
    | ok placed => exact ⟨placed, mem, by simpa [Except.toOption] using same⟩
  · rintro ⟨placed, mem, rfl⟩
    exact ⟨.ok placed, mem, rfl⟩

theorem Cursor.length_tokens_le (count : Nat) (cursor : Cursor) : (cursor.tokens count).length ≤ count := by
  induction count generalizing cursor with
  | zero => exact Nat.le_refl _
  | succ count ih =>
    rw [tokens]
    split
    · exact Nat.succ_le_succ (Nat.zero_le _)
    · exact Nat.succ_le_succ (ih _)

theorem length_sourceTokens_le (source : String) : (sourceTokens source).length ≤ source.length := by
  have most : (lex source).length ≤ source.length + 1 := Cursor.length_tokens_le _ _
  have fewer : (sourceTokens source).length ≤ (lex source).dropLast.length := List.length_filterMap_le ..
  rw [List.length_dropLast] at fewer
  omega

theorem eof_not_mem_sourceTokens (source : String) : .eof ∉ sourceTokens source := by
  obtain ⟨items, final, spelled, -, others⟩ := lex_ends source
  rw [sourceTokens, spelled, List.dropLast_concat, mem_tokensOf]
  rintro ⟨placed, mem, same⟩
  exact others _ mem (isEnd_of_kind (by rw [same]; rfl))

end PLZero
