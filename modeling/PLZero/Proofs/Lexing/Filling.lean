import PLZero.Proofs.Lexing.Strays

/-!
Blanks and comments between tokens. Wherever a token begins or ends, more of them may be put in: the tokens stay, only
their places change.
-/

namespace PLZero

/-- What may be put between tokens: blanks, or a comment behind a blank. A comment in brackets has a blank behind it
too, and one up to the end of its line has that end behind it. -/
inductive IsFiller : List Char → Prop where
  | blanks {first : Char} {rest : List Char} (blank : ∀ c ∈ first :: rest, isBlank c) : IsFiller (first :: rest)
  | bracketed {before after : Char} {body : List Char} (front : isBlank before) (unclosed : ¬ ['*', '/'] <:+: body)
      (back : isBlank after) : IsFiller (before :: '/' :: '*' :: (body ++ ['*', '/', after]))
  | line {before : Char} {body : List Char} (front : isBlank before) (inLine : '\n' ∉ body) :
      IsFiller (before :: '/' :: '/' :: (body ++ ['\n']))

/-- A text with a piece put in behind so many of its characters. -/
def putIn (piece : List Char) (index : Nat) (text : List Char) : List Char :=
  text.take index ++ (piece ++ text.drop index)

theorem putIn_append {piece front : List Char} {index : Nat} {rest : List Char} :
    putIn piece (front.length + index) (front ++ rest) = front ++ putIn piece index rest := by
  rw [putIn, List.take_length_add_append, List.drop_length_add_append, List.append_assoc, putIn]

theorem putIn_length {piece front rest : List Char} :
    putIn piece front.length (front ++ rest) = front ++ (piece ++ rest) := by
  rw [putIn, List.take_left, List.drop_left]

/-- Whether an item is a comment that nothing closes. -/
def isUnclosed : Item → Bool
  | .ok ⟨.badComment _, _⟩ => true
  | _ => false

/-- An item with the offsets where it begins and ends. -/
structure Extent where
  item : Item
  start : Nat
  stop : Nat

namespace IsFiller

variable {piece : List Char}

theorem isGap (filler : IsFiller piece) (rest : List Char) : IsGap piece rest := by
  cases filler with
  | blanks blank => exact isGap_of_blanks blank rest
  | @bracketed before after body front unclosed back =>
    have comment : IsGap ('/' :: '*' :: (body ++ ['*', '/']) ++ [after]) rest :=
      .cons (.bracketed unclosed) (.cons (.blank back) .nil)
    have whole : IsGap ([before] ++ _) rest := .cons (.blank front) comment
    simpa using whole
  | @line before body front inLine =>
    have comment : IsGap ('/' :: '/' :: body ++ ['\n']) rest :=
      .cons (.line inLine fun c first => by cases first; rfl) (.cons (.blank (by decide)) .nil)
    have whole : IsGap ([before] ++ _) rest := .cons (.blank front) comment
    simpa using whole

theorem isBlank_head (filler : IsFiller piece) (rest : List Char) : ∀ c ∈ (piece ++ rest).head?, isBlank c := by
  cases filler with
  | blanks blank =>
    rintro c ⟨⟩
    exact blank _ List.mem_cons_self
  | bracketed front | line front =>
    rintro c ⟨⟩
    exact front

end IsFiller

namespace Cursor

/-- The tokens that are left, the end left out. -/
def extents : (count : Nat) → Cursor → List Extent
  | 0, _ => []
  | count + 1, cursor =>
    match cursor.next with
    | (.ok ⟨.eof, _⟩, _) => []
    | (item, after) => ⟨item, cursor.behindGap.offset, after.offset⟩ :: extents count after

variable {cursor other after : Cursor} {item : Item} {count more : Nat} {piece : List Char} {extent : Extent}

theorem extents_of_end (isEnd : IsEnd cursor.next.1) : cursor.extents (count + 1) = [] := by
  obtain ⟨position, isEnd⟩ := isEnd
  rw [extents]
  split
  · rfl
  · next noEnd same =>
    rw [same] at isEnd
    exact absurd isEnd (noEnd position)

theorem Takes.extents_eq (takes : cursor.Takes item after) (noEnd : ¬ IsEnd item) :
    cursor.extents (count + 1) = ⟨item, cursor.behindGap.offset, after.offset⟩ :: after.extents count := by
  rw [extents, takes.next_eq]
  split
  · next same =>
    cases same
    exact absurd ⟨_, rfl⟩ noEnd
  · next same =>
    cases same
    rfl

theorem extents_nil (atEnd : cursor.rest = []) : cursor.extents count = [] := by
  cases count with
  | zero => rfl
  | succ count => exact extents_of_end ⟨_, congrArg Prod.fst (next_nil atEnd)⟩

theorem offset_le_of_mem_extents (mem : extent ∈ cursor.extents count) :
    cursor.offset ≤ extent.start ∧ cursor.offset ≤ extent.stop := by
  induction count generalizing cursor with
  | zero => cases mem
  | succ count ih =>
    have takes := takes_next cursor
    by_cases isEnd : IsEnd cursor.next.1
    · rw [extents_of_end isEnd] at mem
      cases mem
    · rw [takes.extents_eq isEnd] at mem
      rcases List.mem_cons.mp mem with rfl | later
      · exact ⟨Nat.le_add_right _ _, takes.offset_le⟩
      · exact ⟨takes.offset_le.trans (ih later).1, takes.offset_le.trans (ih later).2⟩

theorem map_token_map (result : Except OverlongInteger Token) (position : Position) :
    (result.map (⟨·, position⟩) : Item).map (·.token) = result := by
  cases result <;> rfl

/-- The same token in front of the same tokens, wherever it stands. -/
theorem Takes.map_tokens_eq {result : Except OverlongInteger Token} {place otherPlace : Position} {otherAfter : Cursor}
    (takes : cursor.Takes (result.map (⟨·, place⟩)) after)
    (otherTakes : other.Takes (result.map (⟨·, otherPlace⟩)) otherAfter)
    (noEnd : ∀ position, ¬ IsEnd (result.map (⟨·, position⟩)))
    (others : (otherAfter.tokens more).map (·.map (·.token)) = (after.tokens count).map (·.map (·.token))) :
    (other.tokens (more + 1)).map (·.map (·.token)) = (cursor.tokens (count + 1)).map (·.map (·.token)) := by
  rw [takes.tokens_eq (noEnd place), otherTakes.tokens_eq (noEnd otherPlace), List.map_cons, List.map_cons,
    map_token_map, map_token_map, others]

/-- The tokens that are left are told by the text that is left, but for the line where a comment begins that nothing
closes. -/
theorem tokens_of_same_rest (enough : cursor.rest.length < count) (enoughMore : cursor.rest.length < more)
    (same : other.rest = cursor.rest) (closed : ∀ item ∈ cursor.tokens count, ¬ isUnclosed item) :
    (other.tokens more).map (·.map (·.token)) = (cursor.tokens count).map (·.map (·.token)) := by
  induction count generalizing cursor other more with
  | zero => omega
  | succ count ih =>
    obtain ⟨more, rfl⟩ : ∃ n, more = n + 1 := Nat.exists_eq_succ_of_ne_zero (by omega)
    obtain ⟨text, otherOffset, otherPosition⟩ := other
    have takes := takes_next cursor
    generalize cursor.next.1 = item, cursor.next.2 = after at takes
    cases takes with
    | finish isGap =>
      subst same
      rw [(Takes.finish isGap).tokens_end ⟨_, rfl⟩, (Takes.finish isGap).tokens_end ⟨_, rfl⟩]
      rfl
    | unclosed isGap isOpen =>
      rw [(Takes.unclosed isGap isOpen).tokens_eq (not_isEnd_badComment _ _)] at closed
      exact absurd rfl (closed _ List.mem_cons_self)
    | @lexeme gap lexeme rest offset position result isGap begins noBracket isLongest =>
      subst same
      have takes : Takes ⟨_, offset, position⟩ _ _ := .lexeme isGap begins noBracket isLongest
      have otherTakes : Takes ⟨_, otherOffset, otherPosition⟩ _ _ := .lexeme isGap begins noBracket isLongest
      have noEnd := isLongest.not_isEnd (position.after gap)
      rw [takes.tokens_eq noEnd, List.forall_mem_cons] at closed
      exact takes.map_tokens_eq otherTakes isLongest.not_isEnd
        (ih (takes.length_lt noEnd enough) (takes.length_lt noEnd enoughMore) rfl closed.2)

/-- Which blanks and comments stand in front does not matter. -/
theorem tokens_of_gaps {gap wide text : List Char} (isGap : IsGap gap text) (isWide : IsGap wide text)
    (spelled : cursor.rest = gap ++ text) (otherSpelled : other.rest = wide ++ text)
    (enough : cursor.rest.length < count) (enoughMore : other.rest.length < more)
    (closed : ∀ item ∈ cursor.tokens count, ¬ isUnclosed item) :
    (other.tokens more).map (·.map (·.token)) = (cursor.tokens count).map (·.map (·.token)) := by
  have behind : (cursor.skip gap.length).rest = text := by rw [skip_rest, spelled, List.drop_left]
  have otherBehind : (other.skip wide.length).rest = text := by rw [skip_rest, otherSpelled, List.drop_left]
  rw [tokens_of_isGap spelled isGap] at closed ⊢
  rw [spelled, List.length_append] at enough
  rw [otherSpelled, List.length_append] at enoughMore
  rw [tokens_of_isGap otherSpelled isWide]
  exact tokens_of_same_rest (by rw [behind]; omega) (by rw [behind]; omega) (otherBehind.trans behind.symm) closed

section Steps

variable {gap lexeme rest : List Char} {offset : Nat} {position : Position} {result : Except OverlongInteger Token}

/-- A piece that begins with a blank does not make a lexeme in front of it longer, however far behind it stands. -/
theorem takes_putIn (filler : IsFiller piece) (isGap : IsGap gap (lexeme ++ rest))
    (begins : BeginsLexeme (lexeme ++ rest)) (noBracket : ∀ body, lexeme ++ rest ≠ '/' :: '*' :: body)
    (isLongest : LongestMatch (lexeme ++ rest) lexeme result) (index : Nat) :
    Takes ⟨gap ++ (lexeme ++ putIn piece index rest), offset, position⟩ (result.map (⟨·, position.after gap⟩))
      ⟨putIn piece index rest, offset + gap.length + lexeme.length, (position.after gap).after lexeme⟩ := by
  refine takes_congr isGap begins noBracket isLongest fun front before inked => ?_
  rw [putIn, ← List.append_assoc] at before
  have inFront := isPrefix_of_inked before inked (filler.isBlank_head _)
  exact inFront.trans ((List.prefix_append_right_inj lexeme).mpr (List.take_prefix index rest))

end Steps

theorem tokens_putIn (filler : IsFiller piece) {offset : Nat} (enough : cursor.rest.length < count)
    (enoughMore : other.rest.length < more) (closed : ∀ item ∈ cursor.tokens count, ¬ isUnclosed item)
    (mem : extent ∈ cursor.extents count) (edge : offset = extent.start ∨ offset = extent.stop)
    (spelled : other.rest = putIn piece (offset - cursor.offset) cursor.rest) :
    (other.tokens more).map (·.map (·.token)) = (cursor.tokens count).map (·.map (·.token)) := by
  induction count generalizing cursor other more with
  | zero => omega
  | succ count ih =>
    have takes := takes_next cursor
    generalize cursor.next.1 = item, cursor.next.2 = after at takes
    cases takes with
    | finish isGap =>
      rw [extents_of_end ⟨_, congrArg Prod.fst (Takes.finish isGap).next_eq⟩] at mem
      cases mem
    | unclosed isGap isOpen =>
      rw [(Takes.unclosed isGap isOpen).tokens_eq (not_isEnd_badComment _ _)] at closed
      exact absurd rfl (closed _ List.mem_cons_self)
    | @lexeme gap lexeme rest start position result isGap begins noBracket isLongest =>
      have takes : Takes ⟨_, start, position⟩ _ _ := .lexeme isGap begins noBracket isLongest
      have noEnd := isLongest.not_isEnd (position.after gap)
      rw [takes.extents_eq noEnd, behindGap_append isGap begins] at mem
      dsimp only at mem spelled
      by_cases inFront : offset = start + gap.length
      · -- In front of the lexeme the piece makes the gap wider.
        subst inFront
        have wider : IsGap (gap ++ piece) (lexeme ++ rest) :=
          .append (isGap.of_inked begins.inked fun none => absurd (List.append_eq_nil_iff.mp none).1 isLongest.ne_nil)
            (filler.isGap _)
        rw [Nat.add_sub_cancel_left, putIn_length, ← List.append_assoc] at spelled
        exact tokens_of_gaps isGap wider rfl spelled enough enoughMore closed
      · -- Otherwise the lexeme is taken as before, and the piece stands somewhere behind it.
        have later : offset = start + gap.length + lexeme.length ∨ extent ∈ extents count
            ⟨rest, start + gap.length + lexeme.length, (position.after gap).after lexeme⟩ := by
          rcases List.mem_cons.mp mem with rfl | later
          · exact .inl (edge.resolve_left inFront)
          · exact .inr later
        obtain ⟨index, rfl⟩ : ∃ index, offset = start + gap.length + lexeme.length + index := by
          refine Nat.exists_eq_add_of_le ?_
          rcases later with rfl | later
          · exact Nat.le_refl _
          · obtain ⟨atStart, atStop⟩ := offset_le_of_mem_extents later
            rcases edge with rfl | rfl
            · exact atStart
            · exact atStop
        have reaches : start + gap.length + lexeme.length + index - start =
            gap.length + (lexeme.length + index) := by omega
        rw [reaches, putIn_append, putIn_append] at spelled
        obtain ⟨text, otherStart, otherPosition⟩ := other
        subst spelled
        obtain ⟨more, rfl⟩ : ∃ n, more = n + 1 := Nat.exists_eq_succ_of_ne_zero (by omega)
        have otherTakes : Takes ⟨_, otherStart, otherPosition⟩ _ _ :=
          takes_putIn filler isGap begins noBracket isLongest index
        have shorter := takes.length_lt noEnd enough
        have otherShorter := otherTakes.length_lt (isLongest.not_isEnd _) enoughMore
        rw [takes.tokens_eq noEnd, List.forall_mem_cons] at closed
        refine takes.map_tokens_eq otherTakes isLongest.not_isEnd ?_
        rcases later with here | later
        · obtain rfl : index = 0 := by omega
          exact tokens_of_gaps .nil (filler.isGap rest) rfl rfl shorter otherShorter closed.2
        · refine ih shorter otherShorter closed.2 later ?_
          dsimp only
          rw [Nat.add_sub_cancel_left]

end Cursor

/-- The tokens of a source with the offsets where they begin and end, the end of the source left out. -/
def extents (source : String) : List Extent :=
  (Cursor.ofSource source).extents (source.length + 1)

/-- Where the tokens of a source begin and end. -/
def edges (source : String) : List Nat :=
  (extents source).flatMap fun extent => [extent.start, extent.stop]

/-- A source with a piece put in behind so many of its characters. -/
def filledAt (offset : Nat) (piece : List Char) (source : String) : String :=
  String.ofList (putIn piece offset source.toList)

example : edges "begin a:=b end" = [0, 5, 6, 7, 7, 9, 9, 10, 11, 14] ∧
    filledAt 7 " /* * */ ".toList "begin a:=b end" = "begin a /* * */ :=b end" := by
  decide

/-- Blanks and comments put in where a token begins or ends leave all tokens as they are. -/
theorem lex_filledAt {source : String} {offset : Nat} {piece : List Char} (filler : IsFiller piece)
    (closed : ∀ item ∈ lex source, ¬ isUnclosed item) (edge : offset ∈ edges source) :
    (lex (filledAt offset piece source)).map (·.map (·.token)) = (lex source).map (·.map (·.token)) := by
  obtain ⟨extent, mem, within⟩ := List.mem_flatMap.mp edge
  have edge : offset = extent.start ∨ offset = extent.stop := by simpa using within
  exact Cursor.tokens_putIn filler (Cursor.ofSource_enough source) (Cursor.ofSource_enough _) closed mem edge
    String.toList_ofList

end PLZero
