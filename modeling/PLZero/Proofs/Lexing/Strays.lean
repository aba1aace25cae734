import PLZero.Proofs.Lexing.Printing

namespace PLZero

/-- Whether an item is a character that begins no token. -/
def isStray : Item → Bool
  | .ok ⟨.unknown _, _⟩ => true
  | _ => false

/-- A text that begins at an offset, with blanks at the given offsets. -/
def blankAt (offsets : List Nat) (start : Nat) (text : List Char) : List Char :=
  text.mapIdx fun index c => if start + index ∈ offsets then ' ' else c

section BlankAt

variable {offsets : List Nat} {start : Nat} {text front rest : List Char}

theorem length_blankAt : (blankAt offsets start text).length = text.length :=
  List.length_mapIdx

theorem blankAt_append : blankAt offsets start (front ++ rest) =
    blankAt offsets start front ++ blankAt offsets (start + front.length) rest := by
  rw [blankAt, List.mapIdx_append, blankAt, blankAt]
  simp only [Nat.add_assoc, Nat.add_comm front.length]

theorem blankAt_of_none (none : ∀ index < text.length, start + index ∉ offsets) :
    blankAt offsets start text = text := by
  rw [blankAt]
  refine List.ext_getElem List.length_mapIdx fun index _ within => ?_
  rw [List.getElem_mapIdx, if_neg (none index within)]

theorem blankAt_of_later (later : ∀ other ∈ offsets, start ≤ other → start + text.length ≤ other) :
    blankAt offsets start text = text :=
  blankAt_of_none fun index within mem => by
    have := later _ mem (Nat.le_add_right _ _)
    omega

/-- What has no blanks and begins the new text has begun the old one. -/
theorem isPrefix_of_blankAt {other : List Char} (before : other <+: blankAt offsets start text)
    (inked : ∀ c ∈ other, ¬ isBlank c) : other <+: text := by
  have le : other.length ≤ text.length := before.length_le.trans_eq length_blankAt
  rw [List.prefix_iff_eq_take]
  refine List.ext_getElem (by rw [List.length_take]; omega) fun index within _ => ?_
  have here := before.getElem within
  rw [List.getElem_take, here]
  simp only [blankAt, List.getElem_mapIdx] at here ⊢
  split at here
  · exact absurd (by rw [here]; decide) (inked _ (List.getElem_mem within))
  · next kept => rw [if_neg kept]

end BlankAt

/-- A gap in front of a lexeme is one in front of any other text, unless there is nothing behind. -/
theorem IsGap.of_inked {gap rest other : List Char} (isGap : IsGap gap rest) (inked : ∀ c ∈ rest.head?, ¬ isBlank c)
    (atEnd : rest = [] → other = []) : IsGap gap other := by
  induction isGap with
  | nil => exact .nil
  | @cons piece gap rest first others ih =>
    refine .cons ?_ (ih inked atEnd)
    cases first with
    | blank isBlank => exact .blank isBlank
    | bracketed unclosed => exact .bracketed unclosed
    | line inLine ends =>
      refine .line inLine ?_
      cases gap with
      | cons c gap => exact ends
      | nil =>
        cases rest with
        | nil =>
          rw [atEnd rfl]
          exact nofun
        | cons c rest =>
          have newline : c = '\n' := ends c rfl
          exact absurd (by rw [newline]; decide) (inked c rfl)

/-- A character that is read as such begins no token. -/
theorem LongestMatch.eq_of_unknown {text lexeme : List Char} {c : Char}
    (isLongest : LongestMatch text lexeme (.ok (.unknown c))) :
    lexeme = [c] ∧ text.head? = some c ∧ ∀ other, other <+: text → ∀ result, ¬ Reads other result := by
  cases isLongest with
  | token reads => cases reads
  | unknown first none => exact ⟨rfl, first, none⟩

theorem LongestMatch.ne_nil {text lexeme : List Char} {result : Except OverlongInteger Token}
    (isLongest : LongestMatch text lexeme result) : lexeme ≠ [] := by
  cases isLongest with
  | token reads => exact reads.ne_nil
  | unknown => exact List.cons_ne_nil _ _

theorem LongestMatch.not_isEnd {text lexeme : List Char} {result : Except OverlongInteger Token}
    (isLongest : LongestMatch text lexeme result) (position : Position) : ¬ IsEnd (result.map (⟨·, position⟩)) := by
  rintro ⟨place, same⟩
  cases result with
  | error overlong => cases same
  | ok t =>
    cases same
    cases isLongest with
    | token reads => cases reads

/-- What is read is told by the characters in front that are no blanks. -/
theorem LongestMatch.congr {text other lexeme : List Char} {result : Except OverlongInteger Token}
    (isLongest : LongestMatch text lexeme result)
    (within : ∀ front, front <+: other → (∀ c ∈ front, ¬ isBlank c) → front <+: text) (keeps : lexeme <+: other) :
    LongestMatch other lexeme result := by
  cases isLongest with
  | token reads _ longest =>
    exact .token reads keeps fun front before result frontReads =>
      longest front (within front before frontReads.inked) result frontReads
  | unknown first none =>
    obtain ⟨rest, rfl⟩ := keeps
    exact .unknown rfl fun front before result frontReads =>
      none front (within front before frontReads.inked) result frontReads

/-- Whether a comment begins is told by slashes and asterisks in front. -/
theorem BeginsLexeme.congr {text other : List Char} (begins : BeginsLexeme text)
    (noBracket : ∀ body, text ≠ '/' :: '*' :: body) (first : other.head? = text.head?)
    (within : ∀ front, front <+: other → (∀ c ∈ front, c = '/' ∨ c = '*') → front <+: text) :
    BeginsLexeme other ∧ ∀ body, other ≠ '/' :: '*' :: body := by
  have unopened : ∀ body, other ≠ '/' :: '*' :: body := by
    intro body same
    obtain ⟨behind, opened⟩ := within ['/', '*'] ⟨body, same.symm⟩ (by simp)
    exact noBracket behind opened.symm
  refine ⟨⟨first ▸ begins.inked, fun opened => ?_, fun body same => absurd same (unopened body)⟩, unopened⟩
  exact begins.noLine (within ['/', '/'] opened (by simp))

namespace Cursor

/-- The offsets of the characters that begin no token. -/
def strays : (count : Nat) → Cursor → List Nat
  | 0, _ => []
  | count + 1, cursor =>
    match cursor.next with
    | (.ok ⟨.unknown _, _⟩, after) => cursor.behindGap.offset :: strays count after
    | (_, after) => strays count after

/-- The cursor with blanks in the place of the characters at the given offsets. -/
def blanked (cursor : Cursor) (offsets : List Nat) : Cursor :=
  { cursor with rest := blankAt offsets cursor.offset cursor.rest }

variable {cursor after : Cursor} {item : Item} {count : Nat} {offsets : List Nat}

theorem strays_of_unknown {c : Char} {position : Position} (takes : cursor.Takes (.ok ⟨.unknown c, position⟩) after) :
    cursor.strays (count + 1) = cursor.behindGap.offset :: after.strays count := by
  rw [strays, takes.next_eq]

theorem strays_of_other (takes : cursor.Takes item after) (other : ¬ isStray item) :
    cursor.strays (count + 1) = after.strays count := by
  rw [strays, takes.next_eq]
  split
  · next same =>
    cases same
    exact absurd rfl other
  · next same =>
    cases same
    rfl

theorem strays_nil (atEnd : cursor.rest = []) (count : Nat) : cursor.strays count = [] := by
  induction count with
  | zero => rfl
  | succ count ih =>
    rw [strays, next_nil atEnd]
    exact ih

theorem Takes.offset_le (takes : cursor.Takes item after) : cursor.offset ≤ after.offset := by
  cases takes <;> dsimp only <;> omega

/-- Nothing in front of a cursor is left for it. -/
theorem offset_le_of_mem_strays {offset : Nat} (mem : offset ∈ cursor.strays count) : cursor.offset ≤ offset := by
  induction count generalizing cursor with
  | zero => cases mem
  | succ count ih =>
    have takes := takes_next cursor
    rw [strays] at mem
    split at mem
    · next next_eq =>
      rw [next_eq] at takes
      rcases List.mem_cons.mp mem with rfl | later
      · exact Nat.le_add_right _ _
      · exact takes.offset_le.trans (ih later)
    · next next_eq =>
      rw [next_eq] at takes
      exact takes.offset_le.trans (ih mem)

theorem exists_unknown_of_isStray (stray : isStray item) : ∃ c position, item = .ok ⟨.unknown c, position⟩ := by
  unfold isStray at stray
  split at stray
  · exact ⟨_, _, rfl⟩
  · cases stray

theorem not_isStray_map {result : Except OverlongInteger Token} (isToken : ∀ c, result ≠ .ok (.unknown c))
    (position : Position) : ¬ isStray (result.map (⟨·, position⟩)) := by
  intro stray
  obtain ⟨c, place, same⟩ := exists_unknown_of_isStray stray
  cases result with
  | error overlong => cases same
  | ok t =>
    cases same
    exact isToken c rfl

/-- If there are no such characters, no item is one. -/
theorem filter_of_strays_nil (none : cursor.strays count = []) :
    (cursor.tokens count).filter (fun item => !isStray item) = cursor.tokens count := by
  induction count generalizing cursor with
  | zero => rfl
  | succ count ih =>
    by_cases isEnd : IsEnd cursor.next.1
    · obtain ⟨position, isEnd⟩ := isEnd
      rw [tokens_of_end count ⟨position, isEnd⟩, isEnd]
      rfl
    · have takes := takes_next cursor
      have other : ¬ isStray cursor.next.1 := by
        intro stray
        obtain ⟨c, position, isUnknown⟩ := exists_unknown_of_isStray stray
        rw [isUnknown] at takes
        rw [strays_of_unknown takes] at none
        cases none
      rw [strays_of_other takes other] at none
      rw [tokens_of_more count isEnd, List.filter_cons_of_pos (by simp [other]), ih none]

/-- From the cursor on, the offsets are those of the characters that begin no token. -/
def Marks (offsets : List Nat) (count : Nat) (cursor : Cursor) : Prop :=
  ∀ offset, cursor.offset ≤ offset → (offset ∈ offsets ↔ offset ∈ cursor.strays count)

theorem Marks.blanked_eq (marks : cursor.Marks offsets count) (none : cursor.strays count = []) :
    cursor.blanked offsets = cursor := by
  rw [blanked, blankAt_of_none]
  intro index _ mem
  rw [marks _ (Nat.le_add_right _ _), none] at mem
  cases mem

theorem Marks.of_other (marks : cursor.Marks offsets (count + 1)) (takes : cursor.Takes item after)
    (other : ¬ isStray item) :
    after.Marks offsets count ∧ ∀ offset ∈ offsets, cursor.offset ≤ offset → after.offset ≤ offset := by
  rw [Marks, strays_of_other takes other] at marks
  exact ⟨fun offset behind => marks offset (takes.offset_le.trans behind),
    fun offset mem behind => offset_le_of_mem_strays ((marks offset behind).mp mem)⟩

theorem Marks.of_unknown {c : Char} {position : Position} (marks : cursor.Marks offsets (count + 1))
    (takes : cursor.Takes (.ok ⟨.unknown c, position⟩) after) (passed : cursor.behindGap.offset < after.offset) :
    after.Marks offsets count ∧ cursor.behindGap.offset ∈ offsets ∧
      ∀ offset ∈ offsets, cursor.offset ≤ offset → cursor.behindGap.offset ≤ offset := by
  rw [Marks, strays_of_unknown takes] at marks
  have front : cursor.offset ≤ cursor.behindGap.offset := Nat.le_add_right _ _
  refine ⟨fun offset behind => ?_, (marks _ front).mpr List.mem_cons_self, fun offset mem behind => ?_⟩
  · rw [marks offset (by omega), List.mem_cons]
    exact or_iff_right (by omega)
  · rcases List.mem_cons.mp ((marks offset behind).mp mem) with rfl | later
    · exact Nat.le_refl _
    · exact Nat.le_of_lt (Nat.lt_of_lt_of_le passed (offset_le_of_mem_strays later))

section Steps

variable {gap lexeme rest : List Char} {offset : Nat} {position : Position} {result : Except OverlongInteger Token}

/-- What is taken is told by the gap and the characters behind it that are no blanks. -/
theorem takes_congr {other : List Char} (isGap : IsGap gap (lexeme ++ rest)) (begins : BeginsLexeme (lexeme ++ rest))
    (noBracket : ∀ body, lexeme ++ rest ≠ '/' :: '*' :: body) (isLongest : LongestMatch (lexeme ++ rest) lexeme result)
    (within : ∀ front, front <+: lexeme ++ other → (∀ c ∈ front, ¬ isBlank c) → front <+: lexeme ++ rest) :
    Takes ⟨gap ++ (lexeme ++ other), offset, position⟩ (result.map (⟨·, position.after gap⟩))
      ⟨other, offset + gap.length + lexeme.length, (position.after gap).after lexeme⟩ := by
  have some := isLongest.ne_nil
  have first : (lexeme ++ other).head? = (lexeme ++ rest).head? := by
    obtain ⟨c, others, rfl⟩ := List.exists_cons_of_ne_nil some
    rfl
  obtain ⟨stillBegins, stillNoBracket⟩ := begins.congr noBracket first fun front before slashes =>
    within front before fun c mem => by rcases slashes c mem with rfl | rfl <;> decide
  refine .lexeme (isGap.of_inked begins.inked fun none => ?_) stillBegins stillNoBracket
    (isLongest.congr within (List.prefix_append _ _))
  exact absurd (List.append_eq_nil_iff.mp none).1 some

/-- In front of other characters a lexeme is taken as it is. -/
theorem takes_blanked (isGap : IsGap gap (lexeme ++ rest)) (begins : BeginsLexeme (lexeme ++ rest))
    (noBracket : ∀ body, lexeme ++ rest ≠ '/' :: '*' :: body) (isLongest : LongestMatch (lexeme ++ rest) lexeme result)
    (later : ∀ other ∈ offsets, offset ≤ other → offset + gap.length + lexeme.length ≤ other) :
    (blanked ⟨gap ++ (lexeme ++ rest), offset, position⟩ offsets).Takes (result.map (⟨·, position.after gap⟩))
      (blanked ⟨rest, offset + gap.length + lexeme.length, (position.after gap).after lexeme⟩ offsets) := by
  have gapKept : blankAt offsets offset gap = gap := blankAt_of_later fun other mem behind => by
    have := later other mem behind
    omega
  have lexemeKept : blankAt offsets (offset + gap.length) lexeme = lexeme :=
    blankAt_of_later fun other mem behind => later other mem (by omega)
  have spelled : blankAt offsets (offset + gap.length) (lexeme ++ rest) =
      lexeme ++ blankAt offsets (offset + gap.length + lexeme.length) rest := by
    rw [blankAt_append, lexemeKept]
  rw [blanked, blankAt_append, gapKept, spelled, blanked]
  refine takes_congr isGap begins noBracket isLongest ?_
  rw [← spelled]
  exact fun _ => isPrefix_of_blankAt

/-- A blanked character belongs to the gap. -/
theorem tokens_blanked_of_unknown {c : Char} (isGap : IsGap gap (c :: rest)) (begins : BeginsLexeme (c :: rest))
    (mem : offset + gap.length ∈ offsets)
    (later : ∀ other ∈ offsets, offset ≤ other → offset + gap.length ≤ other) :
    (blanked ⟨gap ++ (c :: rest), offset, position⟩ offsets).tokens count =
      (blanked ⟨rest, offset + gap.length + 1, (position.after gap).after [c]⟩ offsets).tokens count := by
  have gapKept : blankAt offsets offset gap = gap := blankAt_of_later later
  have blankedHere : blankAt offsets (offset + gap.length) (c :: rest) =
      ' ' :: blankAt offsets (offset + gap.length + 1) rest := by
    rw [← List.singleton_append, blankAt_append]
    simp [blankAt, mem]
  have noNewline : c ≠ '\n' := by
    rintro rfl
    exact begins.inked _ rfl (by decide)
  have place : position.after (gap ++ [' ']) = (position.after gap).after [c] := by
    simp [Position.after, Position.next, noNewline]
  rw [blanked, blankAt_append, gapKept, blankedHere, ← List.singleton_append, ← List.append_assoc]
  have front : IsGap gap ([' '] ++ blankAt offsets (offset + gap.length + 1) rest) :=
    isGap.of_inked begins.inked fun none => absurd none (List.cons_ne_nil c rest)
  have wide : IsGap (gap ++ [' ']) (blankAt offsets (offset + gap.length + 1) rest) :=
    front.append (isGap_of_blanks (List.all_eq_true.mp (by decide)) _)
  rw [tokens_of_isGap rfl wide, skip_append, place, List.length_append, blanked, Nat.add_assoc]
  rfl

end Steps

/-- Where the characters that begin no token are blanked, the other tokens are left, each at its place. -/
theorem tokens_blanked (enough : cursor.rest.length < count) (marks : cursor.Marks offsets count) :
    (cursor.blanked offsets).tokens count = (cursor.tokens count).filter fun item => !isStray item := by
  induction count generalizing cursor with
  | zero => omega
  | succ count ih =>
    have unchanged (none : cursor.strays (count + 1) = []) : (cursor.blanked offsets).tokens (count + 1) =
        (cursor.tokens (count + 1)).filter fun item => !isStray item := by
      rw [marks.blanked_eq none, filter_of_strays_nil none]
    have takes := takes_next cursor
    generalize cursor.next.1 = item, cursor.next.2 = after at takes
    cases takes with
    | finish isGap => exact unchanged (by rw [strays_of_other (.finish isGap) Bool.false_ne_true, strays_nil rfl])
    | unclosed isGap isOpen =>
      exact unchanged (by rw [strays_of_other (.unclosed isGap isOpen) Bool.false_ne_true, strays_nil rfl])
    | @lexeme gap lexeme rest offset position result isGap begins noBracket isLongest =>
      -- A character of the kind joins the gap in front of what follows; anything else is taken as before.
      have takes : Takes ⟨gap ++ (lexeme ++ rest), offset, position⟩ _ _ :=
        .lexeme isGap begins noBracket isLongest
      have more := isLongest.not_isEnd (position.after gap)
      have shorter := takes.length_lt more enough
      rw [takes.tokens_eq more]
      by_cases isUnknown : ∃ c, result = .ok (.unknown c)
      · obtain ⟨c, rfl⟩ := isUnknown
        obtain ⟨rfl, -, -⟩ := isLongest.eq_of_unknown
        have passed : (behindGap ⟨gap ++ ([c] ++ rest), offset, position⟩).offset < offset + gap.length + 1 := by
          rw [behindGap_append isGap begins]
          exact Nat.lt_succ_self _
        obtain ⟨further, here, later⟩ := marks.of_unknown takes passed
        rw [behindGap_append isGap begins] at here later
        rw [List.filter_cons_of_neg (by simp [Except.map, isStray])]
        refine (tokens_blanked_of_unknown isGap begins here later).trans ((tokens_succ ?_).trans (ih shorter further))
        rwa [blanked, length_blankAt]
      · have isToken : ∀ c, result ≠ .ok (.unknown c) := not_exists.mp isUnknown
        have other := not_isStray_map isToken (position.after gap)
        obtain ⟨further, later⟩ := marks.of_other takes other
        rw [(takes_blanked isGap begins noBracket isLongest later).tokens_eq more,
          List.filter_cons_of_pos (by simp [other]), ih shorter further]

end Cursor

/-- A source with a blank in the place of each character that begins no token. -/
def withoutStrays (source : String) : String :=
  String.ofList (blankAt ((Cursor.ofSource source).strays (source.length + 1)) 0 source.toList)

theorem length_withoutStrays (source : String) : (withoutStrays source).length = source.length := by
  rw [withoutStrays, String.length_ofList, length_blankAt, String.length_toList]

theorem lex_withoutStrays (source : String) :
    lex (withoutStrays source) = (lex source).filter fun item => !isStray item := by
  have blanked : Cursor.ofSource (withoutStrays source) =
      (Cursor.ofSource source).blanked ((Cursor.ofSource source).strays (source.length + 1)) := by
    simp only [Cursor.ofSource, withoutStrays, String.toList_ofList, Cursor.blanked]
  rw [lex, length_withoutStrays, blanked]
  exact Cursor.tokens_blanked (Cursor.ofSource_enough source) fun _ _ => Iff.rfl

example : withoutStrays "x := 1 ? 2; // ?\ny :# = $3" = "x := 1   2; // ?\ny    =  3" := by decide

end PLZero
