import PLZero.Proofs.Lexing.Spellings

namespace PLZero

/-- How items cut what is left of a source, behind what has been passed: each is a lexeme with a gap in front, and is at
the place where its lexeme begins. A comment that nothing closes takes all that is left. -/
inductive Cut (reads : List Char → List Char → Except OverlongInteger Token → Prop) :
    List Char → List Char → List Item → Prop where
  | finish {passed gap : List Char} {position : Position} (isGap : IsGap gap [])
      (isBehind : position.IsBehind (passed ++ gap)) : Cut reads passed gap [.ok ⟨.eof, position⟩]
  | unclosed {passed gap body : List Char} {opening final : Position} (isGap : IsGap gap ('/' :: '*' :: body))
      (isOpen : ¬ ['*', '/'] <:+: body) (atOpening : opening.IsBehind (passed ++ gap))
      (atEnd : final.IsBehind (passed ++ gap ++ '/' :: '*' :: body)) :
      Cut reads passed (gap ++ '/' :: '*' :: body) [.ok ⟨.badComment opening.line, final⟩, .ok ⟨.eof, final⟩]
  | lexeme {passed gap lexeme rest : List Char} {result : Except OverlongInteger Token} {position : Position}
      {items : List Item} (isGap : IsGap gap (lexeme ++ rest)) (begins : BeginsLexeme (lexeme ++ rest))
      (some : lexeme ≠ []) (isRead : reads (lexeme ++ rest) lexeme result)
      (isBehind : position.IsBehind (passed ++ gap)) (others : Cut reads (passed ++ gap ++ lexeme) rest items) :
      Cut reads passed (gap ++ (lexeme ++ rest)) (result.map (⟨·, position⟩) :: items)

theorem Cut.mono {reads more : List Char → List Char → Except OverlongInteger Token → Prop}
    (enough : ∀ text lexeme result, reads text lexeme result → more text lexeme result)
    {passed text : List Char} {items : List Item} (cut : Cut reads passed text items) : Cut more passed text items := by
  induction cut with
  | finish isGap isBehind => exact .finish isGap isBehind
  | unclosed isGap isOpen atOpening atEnd => exact .unclosed isGap isOpen atOpening atEnd
  | lexeme isGap begins some isRead isBehind _ ih =>
    exact .lexeme isGap begins some (enough _ _ _ isRead) isBehind ih

namespace LongestMatch

variable {text lexeme other : List Char} {result second : Except OverlongInteger Token}

theorem isPrefix_lexeme (isLongest : LongestMatch text lexeme result) : lexeme <+: text := by
  cases isLongest with
  | token reads isPrefix longest => exact isPrefix
  | unknown first none =>
    obtain ⟨rest, rfl⟩ := List.head?_eq_some_iff.mp first
    exact List.prefix_append [_] rest

/-- What is read from a text is determined by the text. -/
theorem unique (isLongest : LongestMatch text lexeme result) (otherwise : LongestMatch text other second) :
    lexeme = other ∧ result = second := by
  cases isLongest with
  | token reads isPrefix longest =>
    cases otherwise with
    | token otherReads otherPrefix otherLongest =>
      have upper := longest _ otherPrefix _ otherReads
      have lower := otherLongest _ isPrefix _ reads
      have same := (List.prefix_of_prefix_length_le otherPrefix isPrefix upper).eq_of_length_le lower
      subst same
      exact ⟨rfl, reads.unique otherReads⟩
    | unknown first none => exact absurd reads (none _ isPrefix _)
  | unknown first none =>
    cases otherwise with
    | token otherReads otherPrefix _ => exact absurd otherReads (none _ otherPrefix _)
    | unknown otherFirst _ =>
      rw [first] at otherFirst
      cases otherFirst
      exact ⟨rfl, rfl⟩

end LongestMatch

namespace Cursor

/-- The cursor behind the blanks and comments in front. -/
def behindGap (cursor : Cursor) : Cursor :=
  cursor.skip (gapLength 0 cursor.rest)

/-- So many tokens, one call after another. -/
def calls : (count : Nat) → Cursor → List Item
  | 0, _ => []
  | count + 1, cursor => cursor.next.1 :: calls count cursor.next.2

variable {cursor : Cursor} {passed : List Char}

/-- There is nothing behind the gap, or a bracket that opens a comment, or the first character of a lexeme. -/
theorem behindGap_cases (cursor : Cursor) : cursor.behindGap.rest = [] ∨
    (∃ body, cursor.behindGap.rest = '/' :: '*' :: body) ∨
      ∃ first rest, cursor.behindGap.rest = first :: rest ∧ ∀ body, first :: rest ≠ '/' :: '*' :: body := by
  cases left : cursor.behindGap.rest with
  | nil => exact .inl rfl
  | cons first rest =>
    by_cases bracket : ∃ body, first :: rest = '/' :: '*' :: body
    · exact .inr (.inl bracket)
    · exact .inr (.inr ⟨first, rest, rfl, not_exists.mp bracket⟩)

theorem next_of_nil (none : cursor.behindGap.rest = []) :
    cursor.next = (.ok ⟨.eof, cursor.behindGap.position⟩, cursor.behindGap) := by
  rw [behindGap] at none ⊢
  rw [next, none]

theorem next_of_bracket {body : List Char} (opened : cursor.behindGap.rest = '/' :: '*' :: body) :
    cursor.next = (.ok ⟨.badComment cursor.behindGap.position.line,
      (cursor.behindGap.skip cursor.behindGap.rest.length).position⟩,
      cursor.behindGap.skip cursor.behindGap.rest.length) := by
  rw [behindGap] at opened ⊢
  rw [next]
  dsimp only
  split
  · next none => cases opened.symm.trans none
  · rfl
  · next noBracket spelled =>
    cases spelled.symm.trans opened
    exact absurd rfl (noBracket body rfl)

theorem next_of_lexeme {first : Char} {rest : List Char} (more : cursor.behindGap.rest = first :: rest)
    (noBracket : ∀ body, first :: rest ≠ '/' :: '*' :: body) :
    cursor.next = ((Lexeme.scan first rest).token.map (⟨·, cursor.behindGap.position⟩),
      cursor.behindGap.skip (Lexeme.scan first rest).text.length) := by
  rw [behindGap] at more ⊢
  rw [next]
  dsimp only
  split
  · next none => cases more.symm.trans none
  · next body opened => exact absurd (more.symm.trans opened) (noBracket body)
  · next spelled =>
    cases more.symm.trans spelled
    rfl

/-- A piece is passed as a whole. -/
theorem skip_piece {piece rest : List Char} (spelled : cursor.rest = piece ++ rest)
    (isBehind : cursor.position.IsBehind passed) :
    (cursor.skip piece.length).rest = rest ∧ (cursor.skip piece.length).position.IsBehind (passed ++ piece) := by
  have taken : cursor.rest.take piece.length = piece := by rw [spelled, List.take_left]
  refine ⟨by rw [skip_rest, spelled, List.drop_left], ?_⟩
  show (cursor.position.after (cursor.rest.take piece.length)).IsBehind (passed ++ piece)
  rw [taken]
  exact isBehind.after piece

theorem exists_behindGap (isBehind : cursor.position.IsBehind passed) :
    ∃ gap, cursor.rest = gap ++ cursor.behindGap.rest ∧ IsGap gap cursor.behindGap.rest ∧
      BeginsLexeme cursor.behindGap.rest ∧ cursor.behindGap.position.IsBehind (passed ++ gap) := by
  obtain ⟨gap, rest, spelled, length, isGap, begins⟩ := exists_gap cursor.rest
  obtain ⟨left, atGap⟩ := skip_piece spelled isBehind
  rw [← length] at left atGap
  rw [behindGap, left]
  exact ⟨gap, spelled, isGap, begins, atGap⟩

/-- At the end every token is the end. -/
theorem next_nil (atEnd : cursor.rest = []) : cursor.next = (.ok ⟨.eof, cursor.position⟩, cursor) := by
  obtain ⟨rest, offset, position⟩ := cursor
  subst atEnd
  rfl

theorem calls_nil (atEnd : cursor.rest = []) (count : Nat) :
    cursor.calls count = List.replicate count (.ok ⟨.eof, cursor.position⟩) := by
  induction count with
  | zero => rfl
  | succ count ih => rw [calls, next_nil atEnd, ih, List.replicate_succ]

theorem tokens_of_end (count : Nat) (isEnd : IsEnd cursor.next.1) : cursor.tokens (count + 1) = [cursor.next.1] := by
  obtain ⟨position, isEnd⟩ := isEnd
  rw [tokens]
  split
  · next same => rw [same]
  · next other same =>
    rw [same] at isEnd
    exact absurd isEnd (other position)

theorem tokens_of_more (count : Nat) (more : ¬ IsEnd cursor.next.1) :
    cursor.tokens (count + 1) = cursor.next.1 :: cursor.next.2.tokens count := by
  rw [tokens]
  split
  · next position _ same => exact absurd ⟨position, by rw [same]⟩ more
  · next same => rw [same]

section Steps

variable {count : Nat} {gap : List Char} (isGap : IsGap gap cursor.behindGap.rest)
  (atGap : cursor.behindGap.position.IsBehind (passed ++ gap))
include isGap atGap

theorem cut_of_end (atEnd : cursor.behindGap.rest = []) :
    Cut LongestMatch passed (gap ++ cursor.behindGap.rest) (cursor.tokens (count + 1)) := by
  have here := next_of_nil atEnd
  rw [tokens_of_end count ⟨_, congrArg Prod.fst here⟩, here, atEnd, List.append_nil]
  rw [atEnd] at isGap
  exact .finish isGap atGap

/-- At a bracket that nothing closes there is one more token, and then the end. -/
theorem cut_of_bracket {body : List Char} (opened : cursor.behindGap.rest = '/' :: '*' :: body)
    (isOpen : ¬ ['*', '/'] <:+: body) :
    Cut LongestMatch passed (gap ++ cursor.behindGap.rest) (cursor.tokens (count + 2)) := by
  have here := next_of_bracket opened
  obtain ⟨noMore, atEnd⟩ := skip_piece (List.append_nil _).symm atGap
  have more : ¬ IsEnd cursor.next.1 := by
    rw [here]
    exact not_isEnd_badComment _ _
  have isEnd : IsEnd cursor.next.2.next.1 := by
    rw [here, next_nil noMore]
    exact ⟨_, rfl⟩
  rw [tokens_of_more _ more, tokens_of_end _ isEnd, here]
  dsimp only
  rw [next_nil noMore]
  rw [opened] at isGap atEnd ⊢
  exact .unclosed isGap isOpen atGap atEnd

/-- At a lexeme the rest of the source is cut behind it. -/
theorem cut_of_lexeme (begins : BeginsLexeme cursor.behindGap.rest) {first : Char} {rest : List Char}
    (left : cursor.behindGap.rest = first :: rest) (noBracket : ∀ body, first :: rest ≠ '/' :: '*' :: body)
    (others : ∀ passed, cursor.next.2.rest.length < cursor.rest.length → cursor.next.2.position.IsBehind passed →
      Cut LongestMatch passed cursor.next.2.rest (cursor.next.2.tokens count)) :
    Cut LongestMatch passed (gap ++ cursor.behindGap.rest) (cursor.tokens (count + 1)) := by
  have here := next_of_lexeme left noBracket
  have isLongest := Lexeme.scan_longest first rest
  obtain ⟨behind, split⟩ := isLongest.isPrefix_lexeme
  obtain ⟨onward, atLexeme⟩ := skip_piece (left.trans split.symm) atGap
  have more : ¬ IsEnd cursor.next.1 := by
    rw [here]
    exact Lexeme.not_isEnd first rest _
  have shorter := ((next_takes cursor).resolve_left more).2
  have cut := others (passed ++ gap ++ (Lexeme.scan first rest).text) shorter (by rwa [here])
  rw [tokens_of_more count more, here]
  rw [here, onward] at cut
  rw [left, ← split] at begins isGap
  rw [← split] at isLongest
  rw [left, ← split]
  exact .lexeme isGap begins (Lexeme.scan_takes first rest).1 isLongest atGap cut

end Steps

/-- Where a cursor stands, the rest of the source is cut by longest match. -/
theorem tokens_cut {count : Nat} (enough : cursor.rest.length < count) (isBehind : cursor.position.IsBehind passed) :
    Cut LongestMatch passed cursor.rest (cursor.tokens count) := by
  induction count generalizing cursor passed with
  | zero => omega
  | succ count ih =>
    obtain ⟨gap, spelled, isGap, begins, atGap⟩ := exists_behindGap isBehind
    rw [spelled]
    rcases cursor.behindGap_cases with atEnd | ⟨body, opened⟩ | ⟨first, rest, left, noBracket⟩
    · exact cut_of_end isGap atGap atEnd
    · obtain ⟨count, rfl⟩ : ∃ n, count = n + 1 := by
        rw [spelled, opened, List.length_append, List.length_cons, List.length_cons] at enough
        exact Nat.exists_eq_succ_of_ne_zero (by omega)
      exact cut_of_bracket isGap atGap opened (begins.noBracket body opened)
    · exact cut_of_lexeme isGap atGap begins left noBracket fun passed shorter atLexeme => ih (by omega) atLexeme

/-- What is left behind the end is nothing. -/
theorem next_of_isEnd (isEnd : IsEnd cursor.next.1) :
    cursor.next.1 = .ok ⟨.eof, cursor.next.2.position⟩ ∧ cursor.next.2.rest = [] := by
  rcases cursor.behindGap_cases with atEnd | ⟨body, opened⟩ | ⟨first, rest, left, noBracket⟩
  · rw [next_of_nil atEnd]
    exact ⟨rfl, atEnd⟩
  · rw [next_of_bracket opened] at isEnd
    obtain ⟨position, same⟩ := isEnd
    cases same
  · rw [next_of_lexeme left noBracket] at isEnd
    exact absurd isEnd (Lexeme.not_isEnd first rest _)

/-- The calls give the tokens of the source, and then the end again and again. -/
theorem calls_tokens {count : Nat} {items : List Item} {final : Item} (enough : cursor.rest.length < count)
    (spelled : cursor.tokens count = items ++ [final]) (further : Nat) :
    cursor.calls ((cursor.tokens count).length + further) = cursor.tokens count ++ List.replicate further final := by
  induction count generalizing cursor items with
  | zero => omega
  | succ count ih =>
    by_cases isEnd : IsEnd cursor.next.1
    · obtain ⟨here, noMore⟩ := next_of_isEnd isEnd
      rw [tokens_of_end count isEnd] at spelled ⊢
      have isFinal : cursor.next.1 = final := by simpa using congrArg List.getLast? spelled
      rw [← isFinal, List.length_singleton, Nat.add_comm, calls, calls_nil noMore, ← here]
      rfl
    · have shorter := ((next_takes cursor).resolve_left isEnd).2
      have still : cursor.next.2.rest.length < count := by omega
      obtain ⟨front, last, others, -⟩ := tokens_ends still
      rw [tokens_of_more count isEnd, others, ← List.cons_append] at spelled
      obtain ⟨-, isFinal⟩ := List.append_inj' spelled rfl
      rw [List.singleton_inj.mp isFinal] at others
      rw [tokens_of_more count isEnd, List.length_cons, Nat.add_right_comm, calls, ih still others, List.cons_append]

end Cursor

theorem Cursor.ofSource_enough (source : String) : (ofSource source).rest.length < source.length + 1 :=
  Nat.lt_succ_of_le (Nat.le_of_eq String.length_toList)

theorem lex_cut (source : String) : Cut LongestMatch [] source.toList (lex source) :=
  (Cursor.ofSource source).tokens_cut (Cursor.ofSource_enough source) Position.isBehind_start

theorem Reads.of_error {lexeme : List Char} {overlong : OverlongInteger} (reads : Reads lexeme (.error overlong)) :
    IsDigits lexeme ∧ lexeme.length = overlong.digits ∧ Text.integerDigitLimit < overlong.digits := by
  cases reads with
  | overlong isDigits long => exact ⟨isDigits, rfl, long⟩

/-- An integer that cannot be read stands in the source, and it is too long. -/
theorem Cut.overlong {passed text : List Char} {items : List Item} {overlong : OverlongInteger}
    (cut : Cut LongestMatch passed text items) (mem : .error overlong ∈ items) :
    Text.integerDigitLimit < overlong.digits ∧
      ∃ digits, IsDigits digits ∧ digits.length = overlong.digits ∧ digits <:+: text := by
  induction cut with
  | finish | unclosed => simp at mem
  | @lexeme passed gap lexeme rest result position items isGap begins some isRead isBehind others ih =>
    rcases List.mem_cons.mp mem with here | later
    · cases result with
      | ok token => cases here
      | error error =>
        cases here
        cases isRead with
        | token reads isPrefix longest =>
          obtain ⟨isDigits, length, long⟩ := reads.of_error
          exact ⟨long, lexeme, isDigits, length, gap, rest, List.append_assoc ..⟩
    · obtain ⟨long, digits, isDigits, length, front, back, within⟩ := ih later
      exact ⟨long, digits, isDigits, length, gap ++ lexeme ++ front, back, by rw [← within]; simp⟩

/-- Each token of a source is the longest one at the front of what is left there. What is read is determined by that. -/
theorem lex_longest_match (source : String) :
    Cut LongestMatch [] source.toList (lex source) ∧
      ∀ text lexeme other result second, LongestMatch text lexeme result → LongestMatch text other second →
        lexeme = other ∧ result = second :=
  ⟨lex_cut source, fun _ _ _ _ _ => LongestMatch.unique⟩

example : tokensOf (lex "1..5 1e+ ===") =
    [.integer 1, .fixed .period, .fixed .period, .integer 5, .integer 1, .identifier "e", .fixed .plus, .doubleEqual,
      .fixed .eq, .eof] := by
  decide

end PLZero
