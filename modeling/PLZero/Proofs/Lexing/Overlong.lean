import PLZero.Proofs.Lexing.Filling

/-!
Integers that cannot be read. The lexer goes on behind the digits of one as if blanks stood in their place.
-/

namespace PLZero

/-- Whether an item is a token, and not an integer that cannot be read. -/
def isToken : Item → Bool
  | .ok _ => true
  | .error _ => false

theorem Position.after_of_inLine {text : List Char} (inLine : '\n' ∉ text) (position : Position) :
    position.after text = ⟨position.line, position.column + text.length⟩ := by
  induction text generalizing position with
  | nil => rfl
  | cons c text ih =>
    obtain ⟨other, inLine⟩ := not_or.mp (List.mem_cons.not.mp inLine)
    have moved : position.next c = ⟨position.line, position.column + 1⟩ := if_neg (Ne.symm other)
    rw [Position.after, List.foldl_cons, moved, ← Position.after, ih inLine, List.length_cons, Nat.add_assoc,
      Nat.add_comm 1]

theorem Position.after_append (position : Position) (text more : List Char) :
    position.after (text ++ more) = (position.after text).after more :=
  List.foldl_append

theorem IsDigits.inLine {digits : List Char} (isDigits : IsDigits digits) : '\n' ∉ digits :=
  fun mem => absurd (isDigits.2 _ mem) (by decide)

theorem isBlank_replicate (count : Nat) : ∀ c ∈ List.replicate count ' ', isBlank c := by
  intro c mem
  rw [List.eq_of_mem_replicate mem]
  decide

theorem blankAt_of_all {offsets : List Nat} {start : Nat} {text : List Char}
    (all : ∀ index < text.length, start + index ∈ offsets) :
    blankAt offsets start text = List.replicate text.length ' ' := by
  refine List.ext_getElem (by rw [length_blankAt, List.length_replicate]) fun index within _ => ?_
  rw [length_blankAt] at within
  simp only [blankAt, List.getElem_mapIdx, List.getElem_replicate, if_pos (all index within)]

namespace Cursor

/-- The cursor behind so many tokens. -/
def afterCalls : (count : Nat) → Cursor → Cursor
  | 0, cursor => cursor
  | count + 1, cursor => afterCalls count cursor.next.2

/-- The next thing to be read, behind blanks and comments, is an integer with more digits than can be read: a row of
digits, and no longer number begins there. -/
structure Faces (cursor : Cursor) (gap digits rest : List Char) : Prop where
  rest_eq : cursor.rest = gap ++ (digits ++ rest)
  isGap : IsGap gap (digits ++ rest)
  isDigits : IsDigits digits
  longest : ∀ numeral : Numeral, numeral.Formed → numeral.text <+: digits ++ rest →
    numeral.text.length ≤ digits.length
  long : Text.integerDigitLimit < digits.length

/-- The offsets of the digits of integers that cannot be read. -/
def overlongDigits (count : Nat) (cursor : Cursor) : List Nat :=
  (cursor.extents count).flatMap fun extent =>
    if isToken extent.item then [] else List.range' extent.start (extent.stop - extent.start)

variable {cursor other after : Cursor} {item : Item} {count : Nat} {offsets : List Nat} {gap digits rest : List Char}

theorem length_calls (count : Nat) (cursor : Cursor) : (cursor.calls count).length = count := by
  induction count generalizing cursor with
  | zero => rfl
  | succ count ih => rw [calls, List.length_cons, ih]

theorem calls_succ (count : Nat) (cursor : Cursor) :
    cursor.calls (count + 1) = cursor.calls count ++ [(cursor.afterCalls count).next.1] := by
  induction count generalizing cursor with
  | zero => rfl
  | succ count ih => rw [calls, ih, calls, afterCalls, List.cons_append]

theorem calls_of_next_eq (same : cursor.next = other.next) (count : Nat) : cursor.calls count = other.calls count := by
  cases count with
  | zero => rfl
  | succ count => rw [calls, calls, same]

theorem Takes.calls_eq (takes : cursor.Takes item after) (count : Nat) :
    cursor.calls (count + 1) = item :: after.calls count := by
  rw [calls, takes.next_eq]

/-- What is left of a source is what stands behind the offset. -/
theorem Takes.rest_eq_drop {text : List Char} (takes : cursor.Takes item after)
    (placed : cursor.rest = text.drop cursor.offset) : after.rest = text.drop after.offset := by
  cases takes with
  | finish isGap => rw [← List.drop_drop, ← placed, List.drop_length]
  | @unclosed gap body _ _ isGap isOpen =>
    dsimp only at placed ⊢
    rw [Nat.add_assoc, ← List.drop_drop, ← placed, List.drop_length_add_append]
    exact (List.drop_length (l := '/' :: '*' :: body)).symm
  | lexeme isGap begins noBracket isLongest =>
    dsimp only at placed ⊢
    rw [Nat.add_assoc, ← List.drop_drop, ← placed, List.drop_length_add_append, List.drop_left]

theorem afterCalls_placed {text : List Char} (placed : cursor.rest = text.drop cursor.offset) (count : Nat) :
    (cursor.afterCalls count).rest = text.drop (cursor.afterCalls count).offset := by
  induction count generalizing cursor with
  | zero => exact placed
  | succ count ih => exact ih ((takes_next cursor).rest_eq_drop placed)

section Failures

/-- A number that begins with the digits and is no longer is read as an integer. -/
theorem Faces.isLongest (faces : cursor.Faces gap digits rest) :
    LongestMatch (digits ++ rest) digits (.error ⟨digits.length⟩) := by
  refine .token (.overlong faces.isDigits faces.long) (List.prefix_append _ _) fun other before result reads => ?_
  obtain ⟨first, others, rfl⟩ := List.exists_cons_of_ne_nil faces.isDigits.1
  obtain ⟨front, rfl, -⟩ := reads.exists_cons before
  obtain ⟨numeral, formed, spelled, -⟩ := reads.first_digit (faces.isDigits.2 first List.mem_cons_self)
  rw [← spelled] at before ⊢
  exact faces.longest numeral formed before

/-- No blank begins with a digit, and no comment. -/
theorem Faces.begins (faces : cursor.Faces gap digits rest) :
    BeginsLexeme (digits ++ rest) ∧ ∀ body, digits ++ rest ≠ '/' :: '*' :: body := by
  obtain ⟨first, others, rfl⟩ := List.exists_cons_of_ne_nil faces.isDigits.1
  have isDigit := faces.isDigits.2 first List.mem_cons_self
  have noSlash : first ≠ '/' := by
    rintro rfl
    cases isDigit
  have noBracket : ∀ body, first :: others ++ rest ≠ '/' :: '*' :: body :=
    fun body same => noSlash (List.cons.inj same).1
  refine ⟨⟨?_, fun opened => ?_, fun body same => absurd same (noBracket body)⟩, noBracket⟩
  · rintro c ⟨⟩ blank
    exact not_isDigit_of_isBlank blank isDigit
  · obtain ⟨tail, same⟩ := opened
    exact noSlash (List.cons.inj same).1.symm

theorem Faces.takes (faces : cursor.Faces gap digits rest) :
    cursor.Takes (.error ⟨digits.length⟩) ⟨rest, cursor.offset + gap.length + digits.length,
      (cursor.position.after gap).after digits⟩ := by
  obtain ⟨text, offset, position⟩ := cursor
  obtain ⟨begins, noBracket⟩ := faces.begins
  have isLongest := faces.isLongest
  obtain ⟨rfl, isGap, -⟩ := faces
  exact .lexeme isGap begins noBracket isLongest

theorem Takes.exists_faces {overlong : OverlongInteger} (takes : cursor.Takes (.error overlong) after) :
    ∃ gap digits rest, cursor.Faces gap digits rest := by
  generalize failed : (.error overlong : Item) = item at takes
  cases takes with
  | finish | unclosed => cases failed
  | @lexeme gap lexeme rest offset position result isGap begins noBracket isLongest =>
    cases result with
    | ok t => cases failed
    | error error =>
      cases isLongest with
      | token reads isPrefix longest =>
        obtain ⟨isDigits, length, long⟩ := reads.of_error
        exact ⟨gap, lexeme, rest, rfl, isGap, isDigits,
          fun numeral formed before => longest _ before _ (.of_numeral formed), length ▸ long⟩

/-- A token cannot be read if and only if it is an integer with too many digits. -/
theorem next_fails_iff :
    (∃ overlong, cursor.next.1 = .error overlong) ↔ ∃ gap digits rest, cursor.Faces gap digits rest := by
  constructor
  · rintro ⟨overlong, failed⟩
    have takes := takes_next cursor
    rw [failed] at takes
    exact takes.exists_faces
  · rintro ⟨gap, digits, rest, faces⟩
    exact ⟨_, congrArg Prod.fst faces.takes.next_eq⟩

/-- Behind the digits the cursor stands on the same line. -/
theorem Faces.next_eq (faces : cursor.Faces gap digits rest) :
    cursor.next = (.error ⟨digits.length⟩, ⟨rest, cursor.offset + gap.length + digits.length,
      ⟨(cursor.position.after gap).line, (cursor.position.after gap).column + digits.length⟩⟩) := by
  rw [faces.takes.next_eq, Position.after_of_inLine faces.isDigits.inLine]

end Failures

section Blanks

theorem Takes.overlongDigits_of_token (takes : cursor.Takes item after) (isItem : isToken item)
    (noEnd : ¬ IsEnd item) : cursor.overlongDigits (count + 1) = after.overlongDigits count := by
  rw [overlongDigits, takes.extents_eq noEnd, List.flatMap_cons, if_pos isItem, List.nil_append, overlongDigits]

theorem overlongDigits_of_end (isEnd : IsEnd cursor.next.1) : cursor.overlongDigits (count + 1) = [] := by
  rw [overlongDigits, extents_of_end isEnd, List.flatMap_nil]

theorem overlongDigits_nil (atEnd : cursor.rest = []) : cursor.overlongDigits count = [] := by
  rw [overlongDigits, extents_nil atEnd, List.flatMap_nil]

theorem offset_le_of_mem_overlongDigits {offset : Nat} (mem : offset ∈ cursor.overlongDigits count) :
    cursor.offset ≤ offset := by
  obtain ⟨extent, inExtents, within⟩ := List.mem_flatMap.mp mem
  split at within
  · cases within
  · exact (offset_le_of_mem_extents inExtents).1.trans (List.mem_range'_1.mp within).1

/-- From the cursor on, the offsets are those of the digits of integers that cannot be read. -/
def Spans (offsets : List Nat) (count : Nat) (cursor : Cursor) : Prop :=
  ∀ offset, cursor.offset ≤ offset → (offset ∈ offsets ↔ offset ∈ cursor.overlongDigits count)

theorem Spans.of_token (spans : cursor.Spans offsets (count + 1)) (takes : cursor.Takes item after)
    (isItem : isToken item) (noEnd : ¬ IsEnd item) :
    after.Spans offsets count ∧ ∀ offset ∈ offsets, cursor.offset ≤ offset → after.offset ≤ offset := by
  rw [Spans, takes.overlongDigits_of_token isItem noEnd] at spans
  exact ⟨fun offset behind => spans offset (takes.offset_le.trans behind),
    fun offset mem behind => offset_le_of_mem_overlongDigits ((spans offset behind).mp mem)⟩

/-- Where all that is left can be read, nothing is blanked and all calls give tokens. -/
theorem calls_blanked_of_readable (spans : cursor.Spans offsets count) (none : cursor.overlongDigits count = [])
    {calls : Nat} (readable : ∀ item ∈ cursor.calls calls, isToken item) :
    (cursor.calls calls).filter isToken =
      (cursor.blanked offsets).calls ((cursor.calls calls).countP isToken) := by
  have unchanged : cursor.blanked offsets = cursor := by
    rw [blanked, blankAt_of_none]
    intro index _ mem
    rw [spans _ (Nat.le_add_right _ _), none] at mem
    cases mem
  rw [unchanged, List.filter_eq_self.mpr readable, List.countP_eq_length.mpr readable, length_calls]

/-- Behind the last token there is only the end. -/
theorem Takes.isToken_of_last (takes : cursor.Takes item after) (atEnd : after.rest = []) (isItem : isToken item) :
    ∀ {calls : Nat}, ∀ other ∈ cursor.calls calls, isToken other
  | 0 => nofun
  | calls + 1 => by
    rw [takes.calls_eq, calls_nil atEnd]
    exact List.forall_mem_cons.mpr ⟨isItem, fun other mem => by rw [List.eq_of_mem_replicate mem]; rfl⟩

/-- The digits become part of the gap in front of what follows. -/
theorem Faces.blanked_calls (faces : cursor.Faces gap digits rest) (spans : cursor.Spans offsets (count + 1)) :
    cursor.next.2.Spans offsets count ∧
      ∀ calls, (cursor.blanked offsets).calls calls = (cursor.next.2.blanked offsets).calls calls := by
  have takes := faces.takes
  rw [Position.after_of_inLine faces.isDigits.inLine] at takes
  have begins := faces.begins.1
  have place := takes.next_eq
  obtain ⟨text, offset, position⟩ := cursor
  obtain ⟨rfl, isGap, isDigits, -, -⟩ := faces
  have failing : ¬ IsEnd (.error ⟨digits.length⟩) := nofun
  have overlong : overlongDigits (count + 1) ⟨gap ++ (digits ++ rest), offset, position⟩ =
      List.range' (offset + gap.length) digits.length ++
        overlongDigits count ⟨rest, offset + gap.length + digits.length,
          ⟨(position.after gap).line, (position.after gap).column + digits.length⟩⟩ := by
    rw [overlongDigits, takes.extents_eq failing, behindGap_append isGap begins, List.flatMap_cons, if_neg nofun,
      Nat.add_sub_cancel_left, overlongDigits]
  rw [Spans, overlong] at spans
  dsimp only at spans place ⊢
  have later : ∀ other ∈ offsets, offset ≤ other → offset + gap.length ≤ other := by
    intro other mem behind
    rcases List.mem_append.mp ((spans other behind).mp mem) with here | later
    · exact (List.mem_range'_1.mp here).1
    · have := offset_le_of_mem_overlongDigits later
      dsimp only at this
      omega
  have gapKept : blankAt offsets offset gap = gap := blankAt_of_later later
  have digitsBlanked : blankAt offsets (offset + gap.length) digits = List.replicate digits.length ' ' := by
    refine blankAt_of_all fun index within => (spans _ (by omega)).mpr (List.mem_append_left _ ?_)
    exact List.mem_range'_1.mpr (by omega)
  rw [place]
  refine ⟨fun other behind => ?_, calls_of_next_eq ?_⟩
  · dsimp only at behind
    have behindDigits : other ∉ List.range' (offset + gap.length) digits.length := fun mem => by
      have := (List.mem_range'_1.mp mem).2
      omega
    rw [spans other (by omega), List.mem_append, or_iff_right behindDigits]
  · have front : IsGap gap (List.replicate digits.length ' ' ++ blankAt offsets (offset + gap.length + digits.length)
        rest) :=
      isGap.of_inked begins.inked fun none => absurd (List.append_eq_nil_iff.mp none).1 isDigits.1
    have inLine : '\n' ∉ List.replicate digits.length ' ' := fun mem =>
      absurd (List.eq_of_mem_replicate mem) (by decide)
    rw [blanked, blankAt_append, blankAt_append, gapKept, digitsBlanked,
      next_of_isGap (List.append_assoc ..).symm (front.append (isGap_of_blanks (isBlank_replicate _) _)),
      ← List.append_assoc, skip_append, List.length_append, List.length_replicate, Position.after_append,
      Position.after_of_inLine inLine, List.length_replicate, ← Nat.add_assoc, blanked]

/-- Where the digits of integers that cannot be read are blanked, the calls that do not fail go on as before. -/
theorem calls_blanked (enough : cursor.rest.length < count) (spans : cursor.Spans offsets count) (calls : Nat) :
    (cursor.calls calls).filter isToken =
      (cursor.blanked offsets).calls ((cursor.calls calls).countP isToken) := by
  induction count generalizing cursor calls with
  | zero => omega
  | succ count ih =>
    have takes := takes_next cursor
    generalize cursor.next.1 = item, cursor.next.2 = after at takes
    cases takes with
    | @finish gap offset position isGap =>
      have atEnd : IsEnd (next ⟨gap, offset, position⟩).1 := ⟨_, congrArg Prod.fst (Takes.finish isGap).next_eq⟩
      exact calls_blanked_of_readable spans (overlongDigits_of_end atEnd) ((Takes.finish isGap).isToken_of_last rfl rfl)
    | @unclosed gap body offset position isGap isOpen =>
      have takes : Takes ⟨_, offset, position⟩ _ _ := .unclosed isGap isOpen
      refine calls_blanked_of_readable spans ?_ (takes.isToken_of_last rfl rfl)
      rw [takes.overlongDigits_of_token rfl (not_isEnd_badComment _ _), overlongDigits_nil rfl]
    | @lexeme gap lexeme rest offset position result isGap begins noBracket isLongest =>
      have takes : Takes ⟨_, offset, position⟩ _ _ := .lexeme isGap begins noBracket isLongest
      have noEnd := isLongest.not_isEnd (position.after gap)
      have shorter := takes.length_lt noEnd enough
      cases calls with
      | zero => rfl
      | succ calls =>
        rw [takes.calls_eq]
        cases result with
        | error overlong =>
          obtain ⟨_, digits, _, faces⟩ := takes.exists_faces
          obtain ⟨further, same⟩ := faces.blanked_calls spans
          rw [takes.next_eq] at further same
          rw [same]
          exact ih shorter further calls
        | ok t =>
          obtain ⟨further, later⟩ := spans.of_token takes rfl noEnd
          have still : Takes (blanked ⟨_, offset, position⟩ offsets) _ _ :=
            takes_blanked isGap begins noBracket isLongest later
          rw [List.filter_cons_of_pos rfl, List.countP_cons_of_pos rfl, still.calls_eq, ih shorter further calls]

end Blanks

end Cursor

/-- A source with a blank in the place of each digit of an integer that cannot be read. -/
def withoutOverlong (source : String) : String :=
  String.ofList (blankAt ((Cursor.ofSource source).overlongDigits (source.length + 1)) 0 source.toList)

/-- The lexer fails for nothing but integers with too many digits, and goes on behind them. After any number of calls
the next one fails if and only if such an integer is the next thing to be read. Then the cursor stands on the same line
just behind its digits. The calls that do not fail give what as many calls give on the source with blanks in the place
of those digits. -/
theorem lexing_goes_on (source : String) :
    (∀ count cursor, cursor = (Cursor.ofSource source).afterCalls count →
      (Cursor.ofSource source).calls (count + 1) = (Cursor.ofSource source).calls count ++ [cursor.next.1] ∧
      cursor.rest = source.toList.drop cursor.offset ∧
      ((∃ overlong, cursor.next.1 = .error overlong) ↔ ∃ gap digits rest, cursor.Faces gap digits rest) ∧
      ∀ gap digits rest, cursor.Faces gap digits rest →
        cursor.next = (.error ⟨digits.length⟩, ⟨rest, cursor.offset + gap.length + digits.length,
          ⟨(cursor.position.after gap).line, (cursor.position.after gap).column + digits.length⟩⟩)) ∧
    ∀ count, ((Cursor.ofSource source).calls count).filter isToken =
      (Cursor.ofSource (withoutOverlong source)).calls (((Cursor.ofSource source).calls count).countP isToken) := by
  refine ⟨?_, fun count => ?_⟩
  · rintro count _ rfl
    exact ⟨Cursor.calls_succ count _, Cursor.afterCalls_placed rfl count, Cursor.next_fails_iff,
      fun _ _ _ faces => faces.next_eq⟩
  · have blanked : Cursor.ofSource (withoutOverlong source) =
        (Cursor.ofSource source).blanked ((Cursor.ofSource source).overlongDigits (source.length + 1)) := by
      simp only [Cursor.ofSource, withoutOverlong, String.toList_ofList, Cursor.blanked]
    rw [blanked]
    exact Cursor.calls_blanked (Cursor.ofSource_enough source) (fun _ _ => Iff.rfl) count

end PLZero
