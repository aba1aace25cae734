import PLZero.Proofs.Lexing.Pieces

namespace PLZero

theorem closingLength?_append {body : List Char} (unclosed : ¬ ['*', '/'] <:+: body) (rest : List Char) :
    closingLength? (body ++ '*' :: '/' :: rest) = some (body.length + 2) := by
  induction body with
  | nil => rfl
  | cons c body ih =>
    have inner : ¬ ['*', '/'] <:+: body := fun inside => unclosed (List.infix_cons_iff.mpr (.inr inside))
    -- The bracket cannot begin with the last character of the body: it would go on with a star.
    have closesLater : ∀ more, c :: (body ++ '*' :: '/' :: rest) ≠ '*' :: '/' :: more := by
      intro more same
      obtain ⟨rfl, behind⟩ := List.cons.inj same
      cases body with
      | nil => cases behind
      | cons d body =>
        obtain ⟨rfl, -⟩ := List.cons.inj behind
        exact unclosed (List.infix_cons_iff.mpr (.inl ⟨body, rfl⟩))
    rw [List.cons_append, closingLength?, ih inner]
    · rfl
    · exact fun more first second => closesLater more (by rw [first, second])

/-- A blank or a comment is found where it stands. -/
theorem IsLayout.layoutLength?_append {piece rest : List Char} (isLayout : IsLayout piece rest) :
    layoutLength? (piece ++ rest) = some piece.length := by
  cases isLayout with
  | @blank c _ isBlank =>
    have noSlash : c ≠ '/' := by
      rintro rfl
      cases isBlank
    simp [layoutLength?, noSlash, isBlank]
  | @line body _ inLine ends =>
    have all : ∀ c ∈ body, decide (c ≠ '\n') := fun c mem => decide_eq_true fun same => inLine (same ▸ mem)
    have stops : ∀ c ∈ rest.head?, ¬ decide (c ≠ '\n') := fun c first => by simp [ends c first]
    rw [List.cons_append, List.cons_append, layoutLength?, (takeWhile_row all stops).1, List.length_cons,
      List.length_cons]
    exact congrArg some (by omega)
  | @bracketed body _ unclosed =>
    rw [List.cons_append, List.cons_append, List.append_assoc]
    show (closingLength? (body ++ '*' :: '/' :: rest)).map (2 + ·) = _
    rw [closingLength?_append unclosed, Option.map_some]
    refine congrArg some ?_
    rw [List.length_cons, List.length_cons, List.length_append, List.length_cons, List.length_singleton]
    omega

/-- What follows a gap tells how much further it goes. -/
theorem IsGap.gapLength_before {gap rest : List Char} (isGap : IsGap gap rest) :
    gapLength 0 (gap ++ rest) = gap.length + gapLength 0 rest := by
  induction isGap with
  | nil => simp
  | @cons piece gap rest first others ih =>
    have found := first.layoutLength?_append
    obtain ⟨c, piece, rfl⟩ := List.exists_cons_of_ne_nil first.ne_nil
    rw [List.append_assoc, List.cons_append] at *
    rw [gapLength, found, List.length_cons]
    dsimp only
    rw [gapLength_append, ih]
    simp only [List.cons_append, List.length_cons, List.length_append]
    omega

theorem BeginsLexeme.gapLength_eq {text : List Char} (begins : BeginsLexeme text) : gapLength 0 text = 0 := by
  obtain ⟨gap, rest, rfl, length, isGap, -⟩ := exists_gap text
  cases isGap with
  | nil => exact length
  | @cons piece gap _ first others =>
    exfalso
    rw [List.append_assoc] at begins
    cases first with
    | blank isBlank => exact begins.inked _ rfl isBlank
    | line => exact begins.noLine ⟨_, rfl⟩
    | @bracketed body => exact begins.noBracket _ rfl ⟨body, gap ++ rest, by simp⟩

theorem isGap_of_blanks {gap : List Char} (blanks : ∀ c ∈ gap, isBlank c) (rest : List Char) : IsGap gap rest := by
  induction gap with
  | nil => exact .nil
  | cons c gap ih =>
    obtain ⟨here, others⟩ := List.forall_mem_cons.mp blanks
    exact .cons (.blank here) (ih others)

theorem IsGap.append {gap more rest : List Char} (isGap : IsGap gap (more ++ rest)) (further : IsGap more rest) :
    IsGap (gap ++ more) rest := by
  generalize behind : more ++ rest = text at isGap
  induction isGap with
  | nil => exact further
  | @cons piece gap _ first _ ih =>
    subst behind
    rw [List.append_assoc]
    refine .cons ?_ (ih rfl)
    rwa [List.append_assoc]

namespace Cursor

variable {cursor other : Cursor}

theorem skip_skip (cursor : Cursor) (count more : Nat) : (cursor.skip count).skip more = cursor.skip (count + more) := by
  simp only [skip, List.drop_drop, List.take_add, List.length_append, Position.after, List.foldl_append, Nat.add_assoc]

theorem skip_zero (cursor : Cursor) : cursor.skip 0 = cursor := rfl

/-- The next token is told by what stands behind the blanks and comments. -/
theorem next_eq_of_behindGap (same : cursor.behindGap = other.behindGap) : cursor.next = other.next := by
  rw [behindGap, behindGap] at same
  rw [next, next, same]

/-- A gap may be passed at once. -/
theorem next_of_isGap {gap rest : List Char} (spelled : cursor.rest = gap ++ rest) (isGap : IsGap gap rest) :
    cursor.next = (cursor.skip gap.length).next := by
  apply next_eq_of_behindGap
  rw [behindGap, behindGap, skip_rest, spelled, List.drop_left, isGap.gapLength_before, skip_skip]

/-- The longest match at the front of a text is what is read there. -/
theorem next_of_longestMatch {lexeme : List Char} {result : Except OverlongInteger Token}
    (begins : BeginsLexeme cursor.rest) (noBracket : ∀ body, cursor.rest ≠ '/' :: '*' :: body)
    (isLongest : LongestMatch cursor.rest lexeme result) :
    cursor.next = (result.map (⟨·, cursor.position⟩), cursor.skip lexeme.length) := by
  have here : cursor.behindGap = cursor := by rw [behindGap, begins.gapLength_eq, skip_zero]
  cases left : cursor.rest with
  | nil =>
    rw [left] at isLongest
    cases isLongest with
    | token reads isPrefix => exact absurd (List.prefix_nil.mp isPrefix) reads.ne_nil
    | unknown first => cases first
  | cons first rest =>
    rw [left] at isLongest noBracket
    obtain ⟨text_eq, token_eq⟩ := isLongest.unique (Lexeme.scan_longest first rest)
    rw [next_of_lexeme (by rw [here, left]) noBracket, here, text_eq, token_eq]

theorem skip_append (piece rest : List Char) (offset : Nat) (position : Position) :
    skip ⟨piece ++ rest, offset, position⟩ piece.length = ⟨rest, offset + piece.length, position.after piece⟩ := by
  rw [skip, List.take_left, List.drop_left]

theorem behindGap_append {gap rest : List Char} (isGap : IsGap gap rest) (begins : BeginsLexeme rest) (offset : Nat)
    (position : Position) :
    behindGap ⟨gap ++ rest, offset, position⟩ = ⟨rest, offset + gap.length, position.after gap⟩ := by
  rw [behindGap, isGap.gapLength_before, begins.gapLength_eq, Nat.add_zero, skip_append]

/-- What is taken from a source: the end behind all blanks and comments, or a comment that nothing closes, or the
longest match behind a gap. -/
inductive Takes : Cursor → Item → Cursor → Prop where
  | finish {gap : List Char} {offset : Nat} {position : Position} (isGap : IsGap gap []) :
      Takes ⟨gap, offset, position⟩ (.ok ⟨.eof, position.after gap⟩) ⟨[], offset + gap.length, position.after gap⟩
  | unclosed {gap body : List Char} {offset : Nat} {position : Position} (isGap : IsGap gap ('/' :: '*' :: body))
      (isOpen : ¬ ['*', '/'] <:+: body) :
      Takes ⟨gap ++ '/' :: '*' :: body, offset, position⟩
        (.ok ⟨.badComment (position.after gap).line, (position.after gap).after ('/' :: '*' :: body)⟩)
        ⟨[], offset + gap.length + (body.length + 2), (position.after gap).after ('/' :: '*' :: body)⟩
  | lexeme {gap lexeme rest : List Char} {offset : Nat} {position : Position}
      {result : Except OverlongInteger Token} (isGap : IsGap gap (lexeme ++ rest))
      (begins : BeginsLexeme (lexeme ++ rest)) (noBracket : ∀ body, lexeme ++ rest ≠ '/' :: '*' :: body)
      (isLongest : LongestMatch (lexeme ++ rest) lexeme result) :
      Takes ⟨gap ++ (lexeme ++ rest), offset, position⟩ (result.map (⟨·, position.after gap⟩))
        ⟨rest, offset + gap.length + lexeme.length, (position.after gap).after lexeme⟩

theorem Takes.next_eq {item : Item} {after : Cursor} (takes : cursor.Takes item after) :
    cursor.next = (item, after) := by
  cases takes with
  | @finish gap offset position isGap =>
    rw [next_of_isGap (List.append_nil gap).symm isGap]
    have atEnd := skip_append gap [] offset position
    rw [List.append_nil] at atEnd
    rw [atEnd, next_nil rfl]
  | @unclosed gap body offset position isGap isOpen =>
    have begins : BeginsLexeme ('/' :: '*' :: body) :=
      ⟨by simp [isBlank], by simp, fun other same => by cases same; exact isOpen⟩
    have here := behindGap_append isGap begins offset position
    have atEnd := skip_append ('/' :: '*' :: body) [] (offset + gap.length) (position.after gap)
    rw [List.append_nil] at atEnd
    rw [next_of_bracket (by rw [here]), here, atEnd]
    rfl
  | @lexeme gap lexeme rest offset position result isGap begins noBracket isLongest =>
    rw [next_of_isGap rfl isGap, skip_append, next_of_longestMatch begins noBracket isLongest, skip_append]

theorem Takes.tokens_eq {item : Item} {after : Cursor} (takes : cursor.Takes item after) (more : ¬ IsEnd item)
    (count : Nat) : cursor.tokens (count + 1) = item :: after.tokens count := by
  rw [tokens_of_more count (by rwa [takes.next_eq]), takes.next_eq]

theorem Takes.tokens_end {item : Item} {after : Cursor} (takes : cursor.Takes item after) (isEnd : IsEnd item)
    (count : Nat) : cursor.tokens (count + 1) = [item] := by
  rw [tokens_of_end count (by rwa [takes.next_eq]), takes.next_eq]

/-- Behind a token there is less text left. -/
theorem Takes.length_lt {item : Item} {after : Cursor} {count : Nat} (takes : cursor.Takes item after)
    (more : ¬ IsEnd item) (enough : cursor.rest.length < count + 1) : after.rest.length < count := by
  have shorter := next_takes cursor
  rw [takes.next_eq] at shorter
  exact Nat.lt_of_lt_of_le (shorter.resolve_left more).2 (Nat.le_of_lt_succ enough)

theorem takes_next (cursor : Cursor) : cursor.Takes cursor.next.1 cursor.next.2 := by
  obtain ⟨text, offset, position⟩ := cursor
  obtain ⟨gap, rest, rfl, -, isGap, begins⟩ := exists_gap text
  by_cases bracket : ∃ body, rest = '/' :: '*' :: body
  · obtain ⟨body, rfl⟩ := bracket
    have takes : Takes ⟨_, offset, position⟩ _ _ := .unclosed isGap (begins.noBracket body rfl)
    rwa [takes.next_eq]
  · cases rest with
    | nil =>
      rw [List.append_nil]
      have takes : Takes ⟨gap, offset, position⟩ _ _ := .finish isGap
      rwa [takes.next_eq]
    | cons first rest =>
      have isLongest := Lexeme.scan_longest first rest
      obtain ⟨behind, split⟩ := isLongest.isPrefix_lexeme
      rw [← split] at isGap begins bracket isLongest ⊢
      have takes : Takes ⟨_, offset, position⟩ _ _ := .lexeme isGap begins (not_exists.mp bracket) isLongest
      rwa [takes.next_eq]

theorem tokens_of_next_eq (same : cursor.next = other.next) (count : Nat) :
    cursor.tokens count = other.tokens count := by
  cases count with
  | zero => rfl
  | succ count => rw [tokens, tokens, same]

theorem tokens_of_isGap {gap rest : List Char} (spelled : cursor.rest = gap ++ rest) (isGap : IsGap gap rest)
    (count : Nat) : cursor.tokens count = (cursor.skip gap.length).tokens count :=
  tokens_of_next_eq (next_of_isGap spelled isGap) count

/-- No more tokens come when more of them may. -/
theorem tokens_succ {count : Nat} (enough : cursor.rest.length < count) :
    cursor.tokens (count + 1) = cursor.tokens count := by
  induction count generalizing cursor with
  | zero => omega
  | succ count ih =>
    by_cases isEnd : IsEnd cursor.next.1
    · rw [tokens_of_end _ isEnd, tokens_of_end _ isEnd]
    · have shorter := ((next_takes cursor).resolve_left isEnd).2
      rw [tokens_of_more _ isEnd, tokens_of_more _ isEnd, ih (by omega)]

end Cursor

end PLZero
