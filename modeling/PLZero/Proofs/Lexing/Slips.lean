import PLZero.Draft
import PLZero.Grammar.Statement
import PLZero.Proofs.Lexing.Strays
import PLZero.Proofs.Tree.Neighbours

/-!
Slips of a single token. An assignment may be written with `=` for `:=`, and a semicolon between two statements of a
compound one may be left out. All other tokens of a source stay as they are, each on its line.
-/

namespace PLZero

/-- A slip that may be made in a source: the offset of the token that is written wrong, and what is to be reported. -/
structure Slip where
  offset : Nat
  diagnostic : Diagnostic
deriving DecidableEq, Repr

/-- How many compound statements are open behind a token, if so many are open in front of it. -/
def Token.openBehind (opened : Nat) : Token → Nat
  | fixed .beginKw => opened + 1
  | fixed .endKw => opened - 1
  | _ => opened

/-- Whether a token may be the last one of a statement that a semicolon follows. -/
def Token.endsStatement : Token → Bool
  | identifier _ | integer _ => true
  | fixed kind => kind ∈ [FixedKind.rparen, .endKw]
  | _ => false

/-- What is reported about a slip at a token between two others. Declarations have no part in a compound statement, so
that a semicolon within one stands between statements. -/
def slipDiagnostic? (opened : Nat) (last : Token) (placed next : PlacedToken) : Option Diagnostic :=
  if placed.token = .fixed .assign then some ⟨.expected (.fixed .assign) (.fixed .eq), placed.position.line⟩
  else if placed.token = .fixed .semicolon ∧ 0 < opened ∧ last.endsStatement ∧ Grammar.startsStatement next.token then
    some ⟨.expected (.fixed .semicolon) next.token, next.position.line⟩
  else none

/-- The slips that may be made among tokens with their offsets, behind the last token and within so many compound
statements. -/
def slipsAmong : (opened : Nat) → (last : Token) → List (Nat × PlacedToken) → List Slip
  | opened, last, (offset, placed) :: next :: rest =>
    ((slipDiagnostic? opened last placed next.2).map (Slip.mk offset)).toList ++
      slipsAmong (placed.token.openBehind opened) placed.token (next :: rest)
  | _, _, _ => []

/-- The tokens that are left, each with the offset of its first character. -/
def Cursor.located : (count : Nat) → Cursor → List (Nat × PlacedToken)
  | 0, _ => []
  | count + 1, cursor =>
    match cursor.next with
    | (.ok ⟨.eof, position⟩, _) => [(cursor.behindGap.offset, ⟨.eof, position⟩)]
    | (.ok placed, after) => (cursor.behindGap.offset, placed) :: located count after
    | (.error _, after) => located count after

/-- The slips that may be made in a source, in order. -/
def slips (source : String) : List Slip :=
  slipsAmong 0 .eof ((Cursor.ofSource source).located (source.length + 1))

/-- A text that begins at an offset, with slips at the given offsets: a blank in the place of a semicolon, and `=` in the
place of `:=`. -/
def slipAt (offsets : List Nat) : (start : Nat) → List Char → List Char
  | _, [] => []
  | start, c :: rest =>
    (if start ∉ offsets then [c] else if c = ';' then [' '] else []) ++ slipAt offsets (start + 1) rest

/-- A source in which slips have been made. -/
def withSlips (chosen : List Slip) (source : String) : String :=
  String.ofList (slipAt (chosen.map (·.offset)) 0 source.toList)

example : withSlips (slips "var x, y; begin x := 1; y:=2;; begin end end.") "var x, y; begin x := 1; y:=2;; begin end end." =
    "var x, y; begin x = 1  y=2;; begin end end." := by
  decide

/-- Tokens with the end left out, the tokens that slips make of them, and what is to be reported about the slips, behind
the last token and within so many compound statements. -/
inductive Slipped : Nat → Token → List Token → List PlacedToken → List Diagnostic → Prop where
  | finish {opened : Nat} {last : Token} {position : Position} : Slipped opened last [] [⟨.eof, position⟩] []
  | same {opened : Nat} {last : Token} {tokens : List Token} {placed : PlacedToken} {edited : List PlacedToken}
      {reports : List Diagnostic} (visible : placed.token.isVisible)
      (others : Slipped (placed.token.openBehind opened) placed.token tokens edited reports) :
      Slipped opened last (placed.token :: tokens) (placed :: edited) reports
  | equals {opened : Nat} {last : Token} {tokens : List Token} {position : Position} {edited : List PlacedToken}
      {reports : List Diagnostic} (others : Slipped opened (.fixed .assign) tokens edited reports) :
      Slipped opened last (.fixed .assign :: tokens) (⟨.fixed .eq, position⟩ :: edited)
        (⟨.expected (.fixed .assign) (.fixed .eq), position.line⟩ :: reports)
  | missing {opened : Nat} {last : Token} {tokens : List Token} {next : PlacedToken} {edited : List PlacedToken}
      {reports : List Diagnostic} (inside : 0 < opened) (ends : last.endsStatement)
      (starts : Grammar.startsStatement next.token)
      (others : Slipped opened (.fixed .semicolon) (next.token :: tokens) (next :: edited) reports) :
      Slipped opened last (.fixed .semicolon :: next.token :: tokens) (next :: edited)
        (⟨.expected (.fixed .semicolon) next.token, next.position.line⟩ :: reports)

/-- How texts with and without slips go on: alike, or alike up to the first slip. -/
inductive Diverges : List Char → List Char → Prop where
  | alike (text : List Char) : Diverges text text
  | missing (front back behind : List Char) : Diverges (front ++ ';' :: back) (front ++ ' ' :: behind)
  | equals (front back behind : List Char) : Diverges (front ++ ':' :: '=' :: back) (front ++ '=' :: behind)

theorem Diverges.append {text other : List Char} (diverges : Diverges text other) (piece : List Char) :
    Diverges (piece ++ text) (piece ++ other) := by
  cases diverges with
  | alike => exact .alike _
  | missing front back behind => simpa only [← List.append_assoc] using Diverges.missing (piece ++ front) back behind
  | equals front back behind => simpa only [← List.append_assoc] using Diverges.equals (piece ++ front) back behind

theorem Diverges.head?_ne {text other : List Char} (diverges : Diverges text other) (noEquals : text.head? ≠ some '=')
    (noAssign : ∀ back, text ≠ ':' :: '=' :: back) : other.head? ≠ some '=' := by
  cases diverges with
  | alike => exact noEquals
  | missing front =>
    cases front with
    | nil => simp
    | cons c front => exact noEquals
  | equals front back =>
    cases front with
    | nil => exact absurd rfl (noAssign back)
    | cons c front => exact noEquals

section SlipAt

variable {offsets : List Nat} {offset start : Nat} {text front rest : List Char}

theorem slipAt_append : slipAt offsets start (front ++ rest) =
    slipAt offsets start front ++ slipAt offsets (start + front.length) rest := by
  induction front generalizing start with
  | nil => rfl
  | cons c front ih =>
    rw [List.cons_append, slipAt, slipAt, ih, List.append_assoc, List.length_cons, Nat.add_assoc, Nat.add_comm 1]

theorem slipAt_of_later (later : ∀ offset ∈ offsets, start + text.length ≤ offset) :
    slipAt offsets start text = text := by
  induction text generalizing start with
  | nil => rfl
  | cons c text ih =>
    have other : start ∉ offsets := fun mem => absurd (later start mem) (by simp)
    rw [slipAt, if_pos other, ih fun offset mem => ?_]
    · rfl
    · have := later offset mem
      simp only [List.length_cons] at this
      omega

theorem slipAt_cons_of_lt (passed : offset < start) : slipAt (offset :: offsets) start text = slipAt offsets start text := by
  induction text generalizing start with
  | nil => rfl
  | cons c text ih =>
    have other : start ∉ offset :: offsets ↔ start ∉ offsets := by
      rw [List.mem_cons, not_or]
      exact and_iff_right (Nat.ne_of_gt passed)
    simp only [slipAt, other, ih (Nat.lt_succ_of_lt passed)]

/-- The first slip lies behind a gap, and the others behind the token at which it is made. -/
theorem slipAt_first {gap lexeme : List Char} (some : lexeme ≠ [])
    (later : ∀ other ∈ offsets, start + gap.length + lexeme.length ≤ other) :
    slipAt ((start + gap.length) :: offsets) start (gap ++ (lexeme ++ rest)) =
      gap ++ (slipAt ((start + gap.length) :: offsets) (start + gap.length) lexeme ++
        slipAt offsets (start + gap.length + lexeme.length) rest) := by
  have passed := List.length_pos_iff.mpr some
  have front : slipAt ((start + gap.length) :: offsets) start gap = gap := by
    refine slipAt_of_later (List.forall_mem_cons.mpr ⟨Nat.le_refl _, fun other mem => ?_⟩)
    have := later other mem
    omega
  have back : slipAt ((start + gap.length) :: offsets) (start + gap.length + lexeme.length) rest =
      slipAt offsets (start + gap.length + lexeme.length) rest := slipAt_cons_of_lt (by omega)
  rw [slipAt_append, slipAt_append, front, back]

end SlipAt

/-- An equals sign in a token is the first character, or the second one of a mark. -/
theorem Reads.of_equals {first : Char} {front behind : List Char} {result : Except OverlongInteger Token}
    (reads : Reads (first :: (front ++ '=' :: behind)) result) : front = [] ∧ behind = [] ∧ ¬ isWordStart first := by
  have within : '=' ∈ front ++ '=' :: behind := List.mem_append_right _ List.mem_cons_self
  rcases reads.cases_classes with ⟨numeral, formed, spelled, -⟩ | ⟨c, rest, spelled, -, parts, -⟩ |
    ⟨mark, mem, spelled, -⟩
  · refine absurd rfl (formed.forall_mem_text (P := (· ≠ '=')) ?_ (by simp) '=' ?_)
    · rintro c isDigit rfl
      cases isDigit
    · rw [spelled]
      exact List.mem_cons_of_mem _ within
  · obtain ⟨-, rfl⟩ := List.cons.inj spelled
    exact absurd (parts '=' within) (by decide)
  · have short : ∀ mark ∈ marks, '=' ∈ mark.1.tail → mark.1.length = 2 ∧ mark.1.head?.all (!isWordStart ·) := by
      decide
    obtain ⟨two, mark⟩ := short mark mem (by rw [spelled]; exact within)
    rw [spelled] at two mark
    simp only [List.length_cons, List.length_append] at two
    exact ⟨List.eq_nil_of_length_eq_zero (by omega), List.eq_nil_of_length_eq_zero (by omega), by simpa using mark⟩

theorem Reads.isWordStart {first : Char} {rest : List Char} {name : String}
    (reads : Reads (first :: rest) (.ok (.identifier name))) : isWordStart first := by
  generalize spelled : first :: rest = text, isName : Except.ok (Token.identifier name) = result at reads
  cases reads with
  | identifier start =>
    cases spelled
    exact start
  | _ => cases isName

theorem IsGap.of_cons {c : Char} {gap rest : List Char} (isGap : IsGap (c :: gap) rest) : isBlank c ∨ c = '/' := by
  generalize spelled : c :: gap = text at isGap
  cases isGap with
  | nil => cases spelled
  | cons first =>
    cases first with
    | blank isBlank =>
      cases spelled
      exact .inl isBlank
    | line | bracketed =>
      cases spelled
      exact .inr rfl

theorem Position.line_after (position : Position) (text : List Char) :
    (position.after text).line = position.line + text.count '\n' := by
  induction text generalizing position with
  | nil => rfl
  | cons c text ih =>
    show ((position.next c).after text).line = _
    rw [ih, Position.next]
    split
    · next isNewline =>
      subst isNewline
      rw [List.count_cons_self, Nat.add_right_comm]
      rfl
    · next other => rw [List.count_cons_of_ne other]

/-- Where slips are made, what is taken first is taken as before, unless it is no name and `:=` follows it at once. -/
theorem LongestMatch.of_diverges {lexeme rest other : List Char} {t : Token}
    (isLongest : LongestMatch (lexeme ++ rest) lexeme (.ok t)) (visible : t.isVisible) (diverges : Diverges rest other)
    (named : ∀ back, rest = ':' :: '=' :: back → ∃ name, t = .identifier name) :
    LongestMatch (lexeme ++ other) lexeme (.ok t) := by
  cases isLongest with
  | unknown => cases visible
  | token reads _ longest =>
  refine .token reads (List.prefix_append _ _) fun piece before result pieceReads => ?_
  cases diverges with
  | alike => exact longest piece before result pieceReads
  | missing front back behind =>
    rw [← List.append_assoc] at before longest
    have within : piece <+: lexeme ++ front :=
      isPrefix_of_inked before pieceReads.inked fun c first => by cases first; rfl
    exact longest piece (within.trans (List.prefix_append _ _)) result pieceReads
  | equals front back behind =>
    rw [← List.append_assoc] at before longest
    rcases isPrefix_append_cons before with within | ⟨more, rfl⟩
    · exact longest piece (within.trans (List.prefix_append _ _)) result pieceReads
    · -- The token would go on with the equals sign behind the first character, which begins no name.
      obtain ⟨first, lexeme, rfl⟩ := List.exists_cons_of_ne_nil reads.ne_nil
      rw [List.cons_append, List.cons_append] at pieceReads
      obtain ⟨alone, -, noStart⟩ := pieceReads.of_equals
      obtain ⟨rfl, rfl⟩ := List.append_eq_nil_iff.mp alone
      obtain ⟨name, rfl⟩ := named back rfl
      exact absurd reads.isWordStart noStart

theorem Diverges.isPrefix {text other piece : List Char} (diverges : Diverges text other) (before : piece <+: other)
    (plain : ∀ c ∈ piece, c ≠ ' ' ∧ c ≠ '=') : piece <+: text := by
  cases diverges with
  | alike => exact before
  | missing | equals =>
    rcases isPrefix_append_cons before with within | ⟨more, rfl⟩
    · exact within.trans (List.prefix_append _ _)
    · simpa using plain _ (List.mem_append_right _ List.mem_cons_self)

theorem BeginsLexeme.of_diverges {lexeme rest other : List Char} (begins : BeginsLexeme (lexeme ++ rest))
    (noBracket : ∀ body, lexeme ++ rest ≠ '/' :: '*' :: body) (some : lexeme ≠ []) (diverges : Diverges rest other) :
    BeginsLexeme (lexeme ++ other) ∧ ∀ body, lexeme ++ other ≠ '/' :: '*' :: body := by
  refine begins.congr noBracket ?_ fun front before slashes => (diverges.append lexeme).isPrefix before fun c mem => ?_
  · obtain ⟨c, lexeme, rfl⟩ := List.exists_cons_of_ne_nil some
    rfl
  · rcases slashes c mem with rfl | rfl <;> decide

theorem Reads.of_fixed {text : List Char} {kind : FixedKind} (reads : Reads text (.ok (.fixed kind))) :
    text = kind.spelling.toList := by
  generalize isFixed : Except.ok (Token.fixed kind) = result at reads
  cases reads with
  | keyword | mark =>
    cases isFixed
    rfl
  | _ => cases isFixed

/-- How the tokens of a source that the grammar gets to see stand in what is left of it, each with its offset. -/
inductive Cursor.Spells : Cursor → List (Nat × PlacedToken) → Prop where
  | finish {gap : List Char} {offset : Nat} {position : Position} (isGap : IsGap gap []) :
      Spells ⟨gap, offset, position⟩ [(offset + gap.length, ⟨.eof, position.after gap⟩)]
  | lexeme {gap lexeme rest : List Char} {offset : Nat} {position : Position} {t : Token}
      {places : List (Nat × PlacedToken)} (isGap : IsGap gap (lexeme ++ rest)) (begins : BeginsLexeme (lexeme ++ rest))
      (noBracket : ∀ body, lexeme ++ rest ≠ '/' :: '*' :: body)
      (isLongest : LongestMatch (lexeme ++ rest) lexeme (.ok t)) (visible : t.isVisible)
      (others : Spells ⟨rest, offset + gap.length + lexeme.length, (position.after gap).after lexeme⟩ places) :
      Spells ⟨gap ++ (lexeme ++ rest), offset, position⟩ ((offset + gap.length, ⟨t, position.after gap⟩) :: places)

namespace Cursor

theorem beginsLexeme_nil : BeginsLexeme [] :=
  ⟨by simp, by simp, by simp⟩

theorem located_of_takes {cursor after : Cursor} {placed : PlacedToken} (takes : cursor.Takes (.ok placed) after)
    (more : ¬ IsEnd (.ok placed)) (count : Nat) :
    cursor.located (count + 1) = (cursor.behindGap.offset, placed) :: after.located count := by
  rw [located, takes.next_eq]
  split
  · next position _ same =>
    cases same
    exact absurd ⟨position, rfl⟩ more
  · next same =>
    cases same
    rfl
  · next same => cases same

namespace Spells

variable {cursor : Cursor} {places : List (Nat × PlacedToken)} {count : Nat}

theorem exists_cons (spells : cursor.Spells places) : ∃ next more, places = next :: more := by
  cases spells <;> exact ⟨_, _, rfl⟩

theorem ends (spells : cursor.Spells places) : ∃ tokens, places.map (·.2.token) = tokens ++ [.eof] := by
  induction spells with
  | finish => exact ⟨[], rfl⟩
  | @lexeme _ _ _ _ _ t _ _ _ _ _ _ _ ih =>
    obtain ⟨tokens, spelled⟩ := ih
    exact ⟨t :: tokens, congrArg (t :: ·) spelled⟩

theorem tokens_eq (spells : cursor.Spells places) (enough : cursor.rest.length < count) :
    cursor.tokens count = places.map (fun place => .ok place.2) ∧ cursor.located count = places := by
  induction spells generalizing count with
  | @finish gap offset position isGap =>
    obtain ⟨count, rfl⟩ := Nat.exists_eq_succ_of_ne_zero (Nat.ne_of_gt (Nat.zero_lt_of_lt enough))
    have takes : Takes ⟨gap, offset, position⟩ _ _ := .finish isGap
    have behind := behindGap_append isGap beginsLexeme_nil offset position
    rw [List.append_nil] at behind
    refine ⟨?_, ?_⟩
    · rw [takes.tokens_end ⟨_, rfl⟩]
      rfl
    · rw [located, takes.next_eq, behind]
  | @lexeme gap lexeme rest offset position t places isGap begins noBracket isLongest visible _ ih =>
    obtain ⟨count, rfl⟩ := Nat.exists_eq_succ_of_ne_zero (Nat.ne_of_gt (Nat.zero_lt_of_lt enough))
    have takes : Takes ⟨gap ++ (lexeme ++ rest), offset, position⟩ _ _ :=
      .lexeme isGap begins noBracket isLongest
    have more := isLongest.not_isEnd (position.after gap)
    obtain ⟨tokens, locations⟩ := ih (takes.length_lt more enough)
    exact ⟨by rw [takes.tokens_eq more, tokens]; rfl,
      by rw [located_of_takes takes more, locations, behindGap_append isGap begins]⟩

end Spells

/-- What is left of a source spells its tokens if the grammar gets to see all of them. -/
theorem exists_spells {cursor : Cursor} {count : Nat} (enough : cursor.rest.length < count)
    (readable : ∀ item ∈ cursor.tokens count, ∃ placed : PlacedToken, item = .ok placed ∧ placed.token.isVisible) :
    ∃ places, cursor.Spells places := by
  induction count generalizing cursor with
  | zero => omega
  | succ count ih =>
    have takes := takes_next cursor
    generalize cursor.next.1 = item, cursor.next.2 = after at takes
    cases takes with
    | finish isGap => exact ⟨_, .finish isGap⟩
    | @unclosed gap body offset position isGap isOpen =>
      have takes : Takes ⟨gap ++ '/' :: '*' :: body, offset, position⟩ _ _ := .unclosed isGap isOpen
      rw [takes.tokens_eq (not_isEnd_badComment _ _)] at readable
      obtain ⟨placed, same, visible⟩ := readable _ List.mem_cons_self
      cases same
      cases visible
    | @lexeme gap lexeme rest offset position result isGap begins noBracket isLongest =>
      have takes : Takes ⟨gap ++ (lexeme ++ rest), offset, position⟩ _ _ :=
        .lexeme isGap begins noBracket isLongest
      have more := isLongest.not_isEnd (position.after gap)
      rw [takes.tokens_eq more] at readable
      obtain ⟨placed, same, visible⟩ := readable _ List.mem_cons_self
      obtain ⟨places, others⟩ :=
        ih (takes.length_lt more enough) fun item mem => readable item (List.mem_cons_of_mem _ mem)
      cases result with
      | error overlong => cases same
      | ok t =>
        cases same
        exact ⟨_, .lexeme isGap begins noBracket isLongest visible others⟩

/-- The text that chosen slips make of what is left of a source, token by token. -/
inductive WithSlips : Nat → Token → Cursor → List (Nat × PlacedToken) → List Slip → List Char → Prop where
  | finish {opened : Nat} {last : Token} {gap : List Char} {offset : Nat} {position : Position} (isGap : IsGap gap []) :
      WithSlips opened last ⟨gap, offset, position⟩ [(offset + gap.length, ⟨.eof, position.after gap⟩)] [] gap
  | same {opened : Nat} {last : Token} {gap lexeme rest other : List Char} {offset : Nat} {position : Position}
      {t : Token} {places : List (Nat × PlacedToken)} {chosen : List Slip} (isGap : IsGap gap (lexeme ++ rest))
      (begins : BeginsLexeme (lexeme ++ rest)) (noBracket : ∀ body, lexeme ++ rest ≠ '/' :: '*' :: body)
      (isLongest : LongestMatch (lexeme ++ rest) lexeme (.ok t)) (visible : t.isVisible)
      (spells : Spells ⟨rest, offset + gap.length + lexeme.length, (position.after gap).after lexeme⟩ places)
      (others : WithSlips (t.openBehind opened) t
        ⟨rest, offset + gap.length + lexeme.length, (position.after gap).after lexeme⟩ places chosen other) :
      WithSlips opened last ⟨gap ++ (lexeme ++ rest), offset, position⟩
        ((offset + gap.length, ⟨t, position.after gap⟩) :: places) chosen (gap ++ (lexeme ++ other))
  | equals {opened : Nat} {last : Token} {gap rest other : List Char} {offset : Nat} {position : Position}
      {places : List (Nat × PlacedToken)} {chosen : List Slip} (isGap : IsGap gap (':' :: '=' :: rest))
      (spells : Spells ⟨rest, offset + gap.length + 2, (position.after gap).after [':', '=']⟩ places)
      (others : WithSlips opened (.fixed .assign)
        ⟨rest, offset + gap.length + 2, (position.after gap).after [':', '=']⟩ places chosen other) :
      WithSlips opened last ⟨gap ++ ':' :: '=' :: rest, offset, position⟩
        ((offset + gap.length, ⟨.fixed .assign, position.after gap⟩) :: places)
        (⟨offset + gap.length, .expected (.fixed .assign) (.fixed .eq), (position.after gap).line⟩ :: chosen)
        (gap ++ '=' :: other)
  | missing {opened : Nat} {last : Token} {gap rest other : List Char} {offset : Nat} {position : Position}
      {next : Nat × PlacedToken} {places : List (Nat × PlacedToken)} {chosen : List Slip}
      (isGap : IsGap gap (';' :: rest)) (inside : 0 < opened) (ends : last.endsStatement)
      (starts : Grammar.startsStatement next.2.token)
      (others : WithSlips opened (.fixed .semicolon)
        ⟨rest, offset + gap.length + 1, (position.after gap).after [';']⟩ (next :: places) chosen other) :
      WithSlips opened last ⟨gap ++ ';' :: rest, offset, position⟩
        ((offset + gap.length, ⟨.fixed .semicolon, position.after gap⟩) :: next :: places)
        (⟨offset + gap.length, .expected (.fixed .semicolon) next.2.token, next.2.position.line⟩ :: chosen)
        (gap ++ ' ' :: other)

/-- No slip may be made in front of what is left. -/
theorem Spells.offset_le {cursor : Cursor} {places : List (Nat × PlacedToken)} (spells : cursor.Spells places)
    {opened : Nat} {last : Token} {slip : Slip} (mem : slip ∈ slipsAmong opened last places) :
    cursor.offset ≤ slip.offset := by
  induction spells generalizing opened last with
  | finish => cases mem
  | @lexeme gap lexeme rest offset position t places _ _ _ _ _ others ih =>
    obtain ⟨next, more, rfl⟩ := others.exists_cons
    rw [slipsAmong, List.mem_append, Option.mem_toList, Option.map_eq_some_iff] at mem
    rcases mem with ⟨diagnostic, -, rfl⟩ | later
    · exact Nat.le_add_right _ _
    · have behind := ih later
      dsimp only at behind ⊢
      omega

theorem Spells.withSlips {cursor : Cursor} {places : List (Nat × PlacedToken)} (spells : cursor.Spells places)
    {opened : Nat} {last : Token} {chosen : List Slip} (among : chosen.Sublist (slipsAmong opened last places)) :
    WithSlips opened last cursor places chosen (slipAt (chosen.map (·.offset)) cursor.offset cursor.rest) := by
  induction spells generalizing opened last chosen with
  | @finish gap offset position isGap =>
    obtain rfl := List.sublist_nil.mp among
    rw [slipAt_of_later (by simp)]
    exact .finish isGap
  | @lexeme gap lexeme rest offset position t places isGap begins noBracket isLongest visible others ih =>
    obtain ⟨next, more, rfl⟩ := others.exists_cons
    have later {chosen : List Slip}
        (among : chosen.Sublist (slipsAmong (t.openBehind opened) t (next :: more))) :
        ∀ other ∈ chosen.map (·.offset), offset + gap.length + lexeme.length ≤ other :=
      List.forall_mem_map.mpr fun slip mem => others.offset_le (among.subset mem)
    have same {chosen : List Slip}
        (among : chosen.Sublist (slipsAmong (t.openBehind opened) t (next :: more))) :
        WithSlips opened last ⟨gap ++ (lexeme ++ rest), offset, position⟩
          ((offset + gap.length, ⟨t, position.after gap⟩) :: next :: more) chosen
          (slipAt (chosen.map (·.offset)) offset (gap ++ (lexeme ++ rest))) := by
      rw [slipAt_append, slipAt_append, slipAt_of_later fun other mem => ?_, slipAt_of_later (later among)]
      · exact .same isGap begins noBracket isLongest visible others (ih among)
      · have := later among other mem
        omega
    rw [slipsAmong] at among
    cases decided : slipDiagnostic? opened last ⟨t, position.after gap⟩ next.2 with
    | none =>
      rw [decided] at among
      exact same among
    | some diagnostic =>
      rw [decided] at among
      rcases List.sublist_cons_iff.mp among with among | ⟨chosen, rfl, onward⟩
      · exact same among
      · -- The slip is made at this token, and further ones behind it.
        have made := @slipAt_first _ _ rest _ _ isLongest.ne_nil (later onward)
        have behind := ih onward
        have reads : Reads lexeme (.ok t) := by
          cases isLongest with
          | token reads => exact reads
          | unknown => cases visible
        rw [List.map_cons, made]
        unfold slipDiagnostic? at decided
        split at decided
        · next isAssign =>
          obtain rfl : t = .fixed .assign := isAssign
          obtain rfl : lexeme = [':', '='] := reads.of_fixed.trans (by decide)
          cases decided
          have other : offset + gap.length + 1 ∉ (offset + gap.length) :: chosen.map (·.offset) := by
            intro mem
            rcases List.mem_cons.mp mem with same | mem
            · omega
            · exact absurd (later onward _ mem) (by simp)
          simp only [slipAt, List.mem_cons_self, not_true_eq_false, if_false, other, not_false_eq_true, if_true]
          exact .equals isGap others behind
        · split at decided
          · next missing =>
            obtain ⟨isSemicolon, inside, ends, starts⟩ := missing
            obtain rfl : t = .fixed .semicolon := isSemicolon
            obtain rfl : lexeme = [';'] := reads.of_fixed.trans (by decide)
            cases decided
            simp only [slipAt, List.mem_cons_self, not_true_eq_false, if_false, if_true]
            exact .missing isGap inside ends starts behind
          · cases decided

/-- What begins with a character that no word or number begins with, and no gap, begins with a mark. -/
theorem Spells.first_other {c : Char} {rest : List Char} {offset : Nat} {position : Position}
    {places : List (Nat × PlacedToken)} (spells : Spells ⟨c :: rest, offset, position⟩ places) (noBlank : ¬ isBlank c)
    (noSlash : c ≠ '/') (noDigit : ¬ c.isDigit) (noStart : ¬ isWordStart c) :
    ∃ mark ∈ marks, mark.1.head? = some c ∧ ∃ offset position more, places = (offset, ⟨mark.2, position⟩) :: more := by
  have noGap {gap text : List Char} (isGap : IsGap (c :: gap) text) : False :=
    isGap.of_cons.elim noBlank noSlash
  generalize spelled : c :: rest = text at spells
  cases spells with
  | finish isGap =>
    subst spelled
    exact (noGap isGap).elim
  | @lexeme gap lexeme behind _ _ t places isGap begins noBracket isLongest visible others =>
    cases gap with
    | cons d gap =>
      cases spelled
      exact (noGap isGap).elim
    | nil =>
      cases isLongest with
      | unknown => cases visible
      | token reads =>
        obtain ⟨d, lexeme, rfl⟩ := List.exists_cons_of_ne_nil reads.ne_nil
        obtain ⟨rfl, -⟩ := List.cons.inj spelled
        obtain ⟨mark, mem, same, isToken⟩ := reads.first_other noDigit noStart
        cases isToken
        exact ⟨mark, mem, by rw [same]; rfl, _, _, _, rfl⟩

theorem Spells.first_assign {rest : List Char} {offset : Nat} {position : Position}
    {places : List (Nat × PlacedToken)} (spells : Spells ⟨':' :: rest, offset, position⟩ places) :
    ∃ place more, places = place :: more ∧ place.2.token = .fixed .assign := by
  have colon : ∀ mark ∈ marks, mark.1.head? = some ':' → mark.2 = .fixed .assign := by decide
  obtain ⟨mark, mem, first, o, p, more, rfl⟩ := spells.first_other (by decide) (by decide) (by decide) (by decide)
  exact ⟨_, more, rfl, colon mark mem first⟩

theorem Spells.first_equals {rest : List Char} {offset : Nat} {position : Position}
    {places : List (Nat × PlacedToken)} (spells : Spells ⟨'=' :: rest, offset, position⟩ places) :
    ∃ place more, places = place :: more ∧ place.2.token.kind = .fixed .eq := by
  have equals : ∀ mark ∈ marks, mark.1.head? = some '=' → mark.2.kind = .fixed .eq := by decide
  obtain ⟨mark, mem, first, o, p, more, rfl⟩ := spells.first_other (by decide) (by decide) (by decide) (by decide)
  exact ⟨_, more, rfl, equals mark mem first⟩

theorem WithSlips.diverges {opened : Nat} {last : Token} {cursor : Cursor} {places : List (Nat × PlacedToken)}
    {chosen : List Slip} {text : List Char} (made : WithSlips opened last cursor places chosen text) :
    Diverges cursor.rest text := by
  induction made with
  | finish => exact .alike _
  | same _ _ _ _ _ _ _ ih => exact (ih.append _).append _
  | equals => exact .equals _ _ _
  | missing => exact .missing _ _ _

/-- A gap in front of what is spelled belongs to the gap of the first token. -/
theorem Spells.prepend {piece text : List Char} {offset : Nat} {position : Position}
    {places : List (Nat × PlacedToken)} (spells : Spells ⟨text, offset + piece.length, position.after piece⟩ places)
    (isGap : IsGap piece text) : Spells ⟨piece ++ text, offset, position⟩ places := by
  have behind (gap : List Char) : (position.after piece).after gap = position.after (piece ++ gap) :=
    List.foldl_append.symm
  cases spells with
  | finish others =>
    rw [behind, Nat.add_assoc, ← List.length_append]
    rw [← List.append_nil text] at isGap
    exact .finish (isGap.append others)
  | lexeme others begins noBracket isLongest visible more =>
    rw [behind, Nat.add_assoc, ← List.length_append, ← List.append_assoc]
    rw [behind, Nat.add_assoc offset, ← List.length_append] at more
    exact .lexeme (isGap.append others) begins noBracket isLongest visible more

/-- An equals sign with no other one behind it. -/
theorem longestMatch_equals {rest : List Char} (other : rest.head? ≠ some '=') :
    LongestMatch ('=' :: rest) ['='] (.ok (.fixed .eq)) := by
  have reads : Reads ['='] (.ok (.fixed .eq)) := @Reads.of_marks (['='], .fixed .eq) (by decide)
  refine .token reads ⟨rest, rfl⟩ fun piece before result pieceReads => ?_
  obtain ⟨front, rfl, behind⟩ := pieceReads.exists_cons before
  obtain ⟨mark, mem, spelled, -⟩ := pieceReads.first_other (by decide) (by decide)
  have short : ∀ mark ∈ marks, mark.1.head? = some '=' → mark.1 = ['='] ∨ mark.1 = ['=', '='] := by decide
  rcases short mark mem (by rw [spelled]; rfl) with single | double
  · rw [← spelled, single]
  · rw [spelled] at double
    cases double
    obtain ⟨back, rfl⟩ := behind
    exact absurd rfl other

end Cursor

theorem Slipped.eq_cons {opened : Nat} {last t : Token} {tokens : List Token} {edited : List PlacedToken}
    {reports : List Diagnostic} (slipped : Slipped opened last (t :: tokens) edited reports)
    (starts : Grammar.startsStatement t) : ∃ placed more, edited = placed :: more ∧ placed.token = t := by
  cases slipped with
  | same => exact ⟨_, _, rfl, rfl⟩
  | equals | missing => cases starts

/-- Slips leave all other tokens as they are, each on its line. -/
theorem Cursor.WithSlips.slipped {opened : Nat} {last : Token} {cursor : Cursor} {places : List (Nat × PlacedToken)}
    {chosen : List Slip} {text : List Char} (made : WithSlips opened last cursor places chosen text)
    (chain : (last :: places.map (·.2.token)).IsChain Token.MayPrecede) (offset : Nat) (position : Position)
    (sameLine : position.line = cursor.position.line) :
    ∃ tokens edited, places.map (·.2.token) = tokens ++ [.eof] ∧ Spells ⟨text, offset, position⟩ edited ∧
      Slipped opened last tokens (edited.map (·.2)) (chosen.map (·.diagnostic)) ∧
      ∀ place ∈ places.head?, place.2.token ≠ .fixed .semicolon →
        ∀ other ∈ edited.head?, other.2.position.line = place.2.position.line := by
  induction made generalizing offset position with
  | finish isGap =>
    refine ⟨[], _, rfl, .finish isGap, .finish, ?_⟩
    simp [Position.line_after, sameLine]
  | @same opened last gap lexeme rest other _ place t places chosen isGap begins noBracket isLongest visible spells made
      ih =>
    have some := isLongest.ne_nil
    obtain ⟨-, onward⟩ := List.isChain_cons_cons.mp chain
    obtain ⟨tokens, edited, spelled, behind, slipped, -⟩ := ih onward (offset + gap.length + lexeme.length)
      ((position.after gap).after lexeme) (by simp [Position.line_after, sameLine])
    obtain ⟨stillBegins, stillNoBracket⟩ := begins.of_diverges noBracket some made.diverges
    have stillLongest : LongestMatch (lexeme ++ other) lexeme (.ok t) := by
      refine isLongest.of_diverges visible made.diverges fun back atAssign => ?_
      subst atAssign
      obtain ⟨next, more, rfl, isAssign⟩ := spells.first_assign
      exact (List.isChain_cons_cons.mp onward).1.1 isAssign
    have stillGap : IsGap gap (lexeme ++ other) :=
      isGap.of_inked begins.inked fun none => absurd (List.append_eq_nil_iff.mp none).1 some
    refine ⟨t :: tokens, _, by rw [List.map_cons, spelled]; rfl,
      .lexeme stillGap stillBegins stillNoBracket stillLongest visible behind,
      @Slipped.same _ _ _ ⟨t, position.after gap⟩ _ _ visible slipped, ?_⟩
    simp [Position.line_after, sameLine]
  | @equals opened last gap rest other _ place places chosen isGap spells made ih =>
    obtain ⟨-, onward⟩ := List.isChain_cons_cons.mp chain
    obtain ⟨tokens, edited, spelled, behind, slipped, -⟩ := ih onward (offset + gap.length + 1)
      ((position.after gap).after ['=']) (by simp [Position.line_after, sameLine])
    have noEquals : rest.head? ≠ some '=' := by
      intro first
      obtain ⟨back, rfl⟩ := List.head?_eq_some_iff.mp first
      obtain ⟨next, more, rfl, isEquals⟩ := spells.first_equals
      exact (List.isChain_cons_cons.mp onward).1.2 rfl isEquals
    have noAssign : ∀ back, rest ≠ ':' :: '=' :: back := by
      rintro back rfl
      obtain ⟨next, more, rfl, isAssign⟩ := spells.first_assign
      obtain ⟨name, isName⟩ := (List.isChain_cons_cons.mp onward).1.1 isAssign
      cases isName
    have stillGap : IsGap gap ('=' :: other) := isGap.of_inked (by simp [isBlank]) (by simp)
    have begins : BeginsLexeme ('=' :: other) := ⟨by simp [isBlank], by simp, by simp⟩
    have alone := longestMatch_equals (made.diverges.head?_ne noEquals noAssign)
    have atGap : (position.after gap).line = (place.after gap).line := by simp [Position.line_after, sameLine]
    refine ⟨.fixed .assign :: tokens, (offset + gap.length, ⟨.fixed .eq, position.after gap⟩) :: edited,
      by rw [List.map_cons, spelled]; rfl, ?_, ?_, ?_⟩
    · exact @Spells.lexeme _ ['='] _ _ _ _ _ stillGap begins (by simp) alone rfl behind
    · rw [List.map_cons, List.map_cons, ← atGap]
      exact .equals slipped
    · simp [atGap]
  | @missing opened last gap rest other _ place next places chosen isGap inside ends starts made ih =>
    obtain ⟨-, onward⟩ := List.isChain_cons_cons.mp chain
    obtain ⟨tokens, edited, spelled, behind, slipped, lines⟩ := ih onward (offset + (gap ++ [' ']).length)
      (position.after (gap ++ [' '])) (by simp [Position.line_after, sameLine])
    cases tokens with
    | nil =>
      have isEnd : next.2.token = .eof := (List.cons.inj spelled).1
      rw [isEnd] at starts
      cases starts
    | cons t tokens =>
      obtain rfl : next.2.token = t := (List.cons.inj spelled).1
      -- The token behind the semicolon is the first one of what is left.
      obtain ⟨first, more, atFirst, sameToken⟩ := slipped.eq_cons starts
      obtain ⟨⟨o, first⟩, others, rfl, rfl, rfl⟩ := List.map_eq_cons_iff.mp atFirst
      have atNext : first.position.line = next.2.position.line :=
        lines next rfl (fun isSemicolon => by rw [isSemicolon] at starts; cases starts) _ rfl
      have wide : IsGap (gap ++ [' ']) other :=
        IsGap.append (isGap.of_inked (by simp [isBlank]) (by simp)) (isGap_of_blanks (by simp [isBlank]) _)
      have left : Spells ⟨(gap ++ [' ']) ++ other, offset, position⟩ _ := behind.prepend wide
      rw [List.append_assoc] at left
      refine ⟨.fixed .semicolon :: next.2.token :: tokens, _, by rw [List.map_cons, spelled]; rfl, left, ?_, by simp⟩
      rw [List.map_cons, List.map_cons, ← atNext]
      dsimp only at sameToken ⊢
      rw [← sameToken] at starts slipped ⊢
      exact .missing inside ends starts slipped

theorem tokensOf_places (places : List (Nat × PlacedToken)) :
    tokensOf (places.map fun place => .ok place.2) = places.map (·.2.token) := by
  rw [tokensOf, List.filterMap_map]
  exact congrFun (List.filterMap_eq_map (f := fun place : Nat × PlacedToken => place.2.token)) places

/-- The tokens of a source in which slips have been made. -/
theorem lex_withSlips {source : String}
    (readable : ∀ item ∈ lex source, ∃ placed : PlacedToken, item = .ok placed ∧ placed.token.isVisible)
    (chain : (.eof :: (sourceTokens source ++ [.eof])).IsChain Token.MayPrecede) {chosen : List Slip}
    (among : chosen.Sublist (slips source)) :
    ∃ edited : List PlacedToken, lex (withSlips chosen source) = edited.map .ok ∧
      Slipped 0 .eof (sourceTokens source) edited (chosen.map (·.diagnostic)) := by
  obtain ⟨places, spells⟩ := Cursor.exists_spells (Cursor.ofSource_enough source) readable
  obtain ⟨lexed, located⟩ := spells.tokens_eq (Cursor.ofSource_enough source)
  rw [slips, located] at among
  obtain ⟨tokens, all⟩ := spells.ends
  obtain rfl : sourceTokens source = tokens := by
    rw [sourceTokens, lex, lexed, ← List.map_dropLast, tokensOf_places, List.map_dropLast, all, List.dropLast_concat]
  obtain ⟨tokens, edited, spelled, remade, slipped, -⟩ :=
    (spells.withSlips among).slipped (all ▸ chain) 0 .start rfl
  obtain rfl : sourceTokens source = tokens := (List.append_inj' (all.symm.trans spelled) rfl).1
  have remade : (Cursor.ofSource (withSlips chosen source)).Spells edited := by
    rw [Cursor.ofSource, withSlips, String.toList_ofList]
    exact remade
  refine ⟨edited.map (·.2), ?_, slipped⟩
  rw [lex, (remade.tokens_eq (Cursor.ofSource_enough _)).1, List.map_map]
  rfl

end PLZero
