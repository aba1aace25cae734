import Mathlib.Data.List.TakeWhile
import PLZero.Proofs.Lexing.Tokens

namespace PLZero

/-- The offset of the last newline of a text, or minus one if there is none. -/
inductive LastNewline : List Char → Int → Prop where
  | none {text : List Char} (absent : '\n' ∉ text) : LastNewline text (-1)
  | found {before behind : List Char} (last : '\n' ∉ behind) : LastNewline (before ++ '\n' :: behind) before.length

theorem LastNewline.concat {text : List Char} {offset : Int} (isLast : LastNewline text offset) {c : Char}
    (other : c ≠ '\n') : LastNewline (text ++ [c]) offset := by
  cases isLast with
  | none absent => exact .none (by simp [absent, Ne.symm other])
  | found last =>
    rw [List.append_assoc, List.cons_append]
    exact .found (by simp [last, Ne.symm other])

namespace Position

/-- The place behind a text that begins at the start: its newlines tell the line, and the column is counted from the
last one. -/
structure IsBehind (position : Position) (text : List Char) : Prop where
  line_eq : position.line = 1 + text.count '\n'
  column_eq : ∃ newline, LastNewline text newline ∧ (position.column : Int) = text.length - newline

theorem isBehind_start : start.IsBehind [] :=
  ⟨rfl, -1, .none (by simp), rfl⟩

theorem IsBehind.next {position : Position} {text : List Char} (isBehind : position.IsBehind text) (c : Char) :
    (position.next c).IsBehind (text ++ [c]) := by
  obtain ⟨line_eq, newline, isLast, column_eq⟩ := isBehind
  rw [Position.next]
  split
  · next isNewline =>
    subst isNewline
    refine ⟨?_, text.length, .found (by simp), ?_⟩
    · simp [line_eq, Nat.add_assoc]
    · show ((1 : Nat) : Int) = (text ++ ['\n']).length - text.length
      rw [List.length_append, List.length_singleton]
      omega
  · next other =>
    refine ⟨?_, newline, isLast.concat other, ?_⟩
    · simp [line_eq, other]
    · show ((position.column + 1 : Nat) : Int) = (text ++ [c]).length - newline
      rw [List.length_append, List.length_singleton]
      omega

theorem IsBehind.after {position : Position} {text : List Char} (isBehind : position.IsBehind text)
    (more : List Char) : (position.after more).IsBehind (text ++ more) := by
  induction more generalizing position text with
  | nil => rwa [List.append_nil]
  | cons c more ih =>
    have further := ih (isBehind.next c)
    rwa [List.append_assoc] at further

end Position

/-- A blank or a comment, with the text that follows it. A comment up to the end of its line does not contain that end,
and a comment in brackets ends where it is closed first. -/
inductive IsLayout : List Char → List Char → Prop where
  | blank {c : Char} {rest : List Char} (isBlank : isBlank c) : IsLayout [c] rest
  | line {body rest : List Char} (inLine : '\n' ∉ body) (ends : ∀ c ∈ rest.head?, c = '\n') :
      IsLayout ('/' :: '/' :: body) rest
  | bracketed {body rest : List Char} (unclosed : ¬ ['*', '/'] <:+: body) :
      IsLayout ('/' :: '*' :: (body ++ ['*', '/'])) rest

/-- Blanks and comments one after another, with the text that follows them. -/
inductive IsGap : List Char → List Char → Prop where
  | nil {rest : List Char} : IsGap [] rest
  | cons {piece gap rest : List Char} (first : IsLayout piece (gap ++ rest)) (others : IsGap gap rest) :
      IsGap (piece ++ gap) rest

theorem IsLayout.ne_nil {piece rest : List Char} (isLayout : IsLayout piece rest) : piece ≠ [] := by
  cases isLayout <;> exact List.cons_ne_nil _ _

/-- No blank stands at the front of a text, and no comment but perhaps one that nothing closes. -/
structure BeginsLexeme (text : List Char) : Prop where
  inked : ∀ c ∈ text.head?, ¬ isBlank c
  noLine : ¬ ['/', '/'] <+: text
  noBracket : ∀ body, text = '/' :: '*' :: body → ¬ ['*', '/'] <:+: body

theorem closingLength?_eq_some {text : List Char} {length : Nat} (closes : closingLength? text = some length) :
    ∃ body rest, text = body ++ '*' :: '/' :: rest ∧ length = body.length + 2 ∧ ¬ ['*', '/'] <:+: body := by
  fun_induction closingLength? text generalizing length with
  | case1 rest =>
    cases closes
    exact ⟨[], rest, rfl, rfl, by simp⟩
  | case2 c rest other ih =>
    obtain ⟨more, later, rfl⟩ := Option.map_eq_some_iff.mp closes
    obtain ⟨body, behind, rfl, rfl, unclosed⟩ := ih later
    refine ⟨c :: body, behind, rfl, rfl, fun inside => ?_⟩
    rcases List.infix_cons_iff.mp inside with ⟨tail, here⟩ | deeper
    · cases body with
      | nil => cases here
      | cons d body =>
        cases here
        exact other _ rfl rfl
    · exact unclosed deeper
  | case3 => cases closes

theorem closingLength?_eq_none {text : List Char} (none : closingLength? text = none) : ¬ ['*', '/'] <:+: text := by
  fun_induction closingLength? text with
  | case1 rest => cases none
  | case2 c rest other ih =>
    intro inside
    rcases List.infix_cons_iff.mp inside with ⟨tail, here⟩ | deeper
    · cases here
      exact other _ rfl rfl
    · exact ih (Option.map_eq_none_iff.mp none) deeper
  | case3 => simp

/-- What follows a row of characters is nothing, or another character. -/
theorem head?_dropWhile {p : Char → Bool} {text : List Char} {c : Char} (first : c ∈ (text.dropWhile p).head?) :
    ¬ p c := by
  have stopped := List.head?_dropWhile_not p text
  rw [Option.mem_def.mp first] at stopped
  simp [stopped]

theorem isLayout_of_layoutLength? {text : List Char} {length : Nat} (found : layoutLength? text = some length) :
    ∃ piece rest, text = piece ++ rest ∧ length = piece.length ∧ IsLayout piece rest := by
  unfold layoutLength? at found
  split at found
  · next rest =>
    cases found
    refine ⟨'/' :: '/' :: rest.takeWhile (· ≠ '\n'), rest.dropWhile (· ≠ '\n'), ?_, ?_, .line ?_ ?_⟩
    · rw [List.cons_append, List.cons_append, List.takeWhile_append_dropWhile]
    · rw [List.length_cons, List.length_cons]
      omega
    · exact fun mem => by simpa using List.mem_takeWhile_imp mem
    · exact fun c first => by simpa using head?_dropWhile first
  · next rest =>
    obtain ⟨more, closes, rfl⟩ := Option.map_eq_some_iff.mp found
    obtain ⟨body, behind, rfl, rfl, unclosed⟩ := closingLength?_eq_some closes
    refine ⟨_, behind, ?_, ?_, .bracketed unclosed⟩
    · rw [List.cons_append, List.cons_append, List.append_assoc]
      rfl
    · rw [List.length_cons, List.length_cons, List.length_append, List.length_cons, List.length_singleton]
      omega
  · next c rest _ _ =>
    split at found
    · next blank =>
      cases found
      exact ⟨[c], rest, rfl, rfl, .blank blank⟩
    · cases found
  · cases found

theorem beginsLexeme_of_layoutLength? {text : List Char} (found : layoutLength? text = none) : BeginsLexeme text := by
  unfold layoutLength? at found
  split at found
  · cases found
  · have unclosed := closingLength?_eq_none (Option.map_eq_none_iff.mp found)
    refine ⟨by simp [isBlank], by simp, fun body same => ?_⟩
    cases same
    exact unclosed
  · next c rest noLine noBracket =>
    split at found
    · cases found
    · next inked =>
      refine ⟨by simpa using inked, ?_, ?_⟩
      · rintro ⟨tail, same⟩
        cases same
        exact noLine _ rfl rfl
      · intro body same
        cases same
        exact absurd rfl (noBracket body rfl)
  · exact ⟨nofun, by simp, nofun⟩

/-- What has been entered already is passed first. -/
theorem gapLength_append (piece rest : List Char) : gapLength piece.length (piece ++ rest) =
    piece.length + gapLength 0 rest := by
  induction piece with
  | nil => simp
  | cons c piece ih =>
    rw [List.length_cons, List.cons_append, gapLength, ih]
    omega

/-- A gap takes all blanks and comments at the front of a text. -/
theorem exists_gap (text : List Char) :
    ∃ gap rest, text = gap ++ rest ∧ gapLength 0 text = gap.length ∧ IsGap gap rest ∧ BeginsLexeme rest := by
  induction text_size : text.length using Nat.strongRecOn generalizing text with
  | ind size ih => ?_
  cases found : layoutLength? text with
  | none =>
    have none : gapLength 0 text = 0 := by
      cases text with
      | nil => rfl
      | cons c rest => simp [gapLength, found]
    exact ⟨[], text, rfl, none, .nil, beginsLexeme_of_layoutLength? found⟩
  | some length =>
    obtain ⟨piece, behind, rfl, rfl, isLayout⟩ := isLayout_of_layoutLength? found
    obtain ⟨c, piece, rfl⟩ := List.exists_cons_of_ne_nil isLayout.ne_nil
    have shorter : behind.length < size := by
      rw [← text_size, List.length_append, List.length_cons]
      omega
    obtain ⟨gap, rest, rfl, length, isGap, begins⟩ := ih behind.length shorter behind rfl
    refine ⟨c :: piece ++ gap, rest, (List.append_assoc ..).symm, ?_, .cons isLayout isGap, begins⟩
    rw [List.cons_append] at found ⊢
    rw [gapLength, found, List.length_cons]
    dsimp only
    rw [gapLength_append, length, List.length_append, List.length_cons]
    omega

end PLZero
