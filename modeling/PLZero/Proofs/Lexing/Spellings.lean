import PLZero.Proofs.Lexing.Numerals

namespace PLZero

/-- The grammar of tokens: what a piece of a source stands for when it is read as one token. -/
inductive Reads : List Char → Except OverlongInteger Token → Prop where
  | integer {digits : List Char} (isDigits : IsDigits digits) (short : digits.length ≤ Text.integerDigitLimit) :
      Reads digits (.ok (.integer (digitsValue digits)))
  | overlong {digits : List Char} (isDigits : IsDigits digits) (long : Text.integerDigitLimit < digits.length) :
      Reads digits (.error ⟨digits.length⟩)
  | real {numeral : Numeral} (formed : numeral.Formed) (isReal : numeral.fraction.isSome ∨ numeral.exponent.isSome) :
      Reads numeral.text (.ok (.real numeral.realValue))
  | keyword {kind : FixedKind} (isKeyword : kind ∈ FixedKind.keywords) :
      Reads kind.spelling.toList (.ok (.fixed kind))
  | identifier {first : Char} {rest : List Char} (start : isWordStart first) (parts : ∀ c ∈ rest, isWordPart c)
      (other : ∀ kind ∈ FixedKind.keywords, kind.spelling.toList ≠ first :: rest) :
      Reads (first :: rest) (.ok (.identifier (String.ofList (first :: rest))))
  | mark {kind : FixedKind} (isMark : kind ∉ FixedKind.keywords) : Reads kind.spelling.toList (.ok (.fixed kind))
  | doubleEqual : Reads ['=', '='] (.ok .doubleEqual)
  | lessGreater : Reads ['<', '>'] (.ok .lessGreater)

/-- What is read from a text is the longest token at its front. If there is none, a character is read that begins no
token. -/
inductive LongestMatch (text : List Char) : List Char → Except OverlongInteger Token → Prop where
  | token {lexeme : List Char} {result : Except OverlongInteger Token} (reads : Reads lexeme result)
      (isPrefix : lexeme <+: text)
      (longest : ∀ other, other <+: text → ∀ result, Reads other result → other.length ≤ lexeme.length) :
      LongestMatch text lexeme result
  | unknown {c : Char} (first : text.head? = some c)
      (none : ∀ other, other <+: text → ∀ result, ¬ Reads other result) : LongestMatch text [c] (.ok (.unknown c))

theorem isWordPart_of_isWordStart {c : Char} (start : isWordStart c) : isWordPart c := by
  simp only [isWordStart, isWordPart, Bool.or_eq_true] at start ⊢
  exact start.imp_left .inl

theorem toNat_of_isAlpha {c : Char} (isAlpha : c.isAlpha) : 65 ≤ c.toNat := by
  rcases Bool.or_eq_true_iff.mp isAlpha with upper | lower
  · have bounds : 65 ≤ c.toNat ∧ c.toNat ≤ 90 := of_decide_eq_true upper
    exact bounds.1
  · have bound : 97 ≤ c.toNat := of_decide_eq_true (Bool.and_eq_true_iff.mp lower).1
    omega

theorem not_isWordStart_of_isDigit {c : Char} (isDigit : c.isDigit) : ¬ isWordStart c := by
  have below : c.toNat ≤ 57 := of_decide_eq_true (Bool.and_eq_true_iff.mp isDigit).2
  have notAlpha : ¬ c.isAlpha := by
    intro isAlpha
    have above := toNat_of_isAlpha isAlpha
    omega
  have notLow : c ≠ '_' := by
    rintro rfl
    cases isDigit
  have inAscii : ¬ 128 ≤ c.toNat := by omega
  simp [isWordStart, Text.isLetter, notAlpha, notLow, inAscii]

theorem keywords_words : ∀ kind ∈ FixedKind.keywords, kind.spelling.toList.head?.any isWordStart ∧
    kind.spelling.toList.all isWordPart ∧ wordToken kind.spelling.toList = .fixed kind := by
  decide

theorem marks_begin : ∀ mark ∈ marks, mark.1.head?.any fun c => !c.isDigit && !isWordStart c := by
  decide

/-- The marks that are read are those that are spelled, and the second spellings of two comparisons. -/
theorem marks_perm : marks.Perm
    ((FixedKind.twoCharacterMarks ++ FixedKind.oneCharacterMarks).map
        (fun kind => (kind.spelling.toList, Token.fixed kind)) ++
      [(['=', '='], .doubleEqual), (['<', '>'], .lessGreater)]) := by
  decide

theorem mark_mem_marks : ∀ kind : FixedKind, kind ∉ FixedKind.keywords → (kind.spelling.toList, .fixed kind) ∈ marks := by
  intro kind
  cases kind <;> decide

theorem marks_unique : ∀ mark ∈ marks, ∀ other ∈ marks, mark.1 = other.1 → mark = other := by
  decide

theorem marks_ordered : marks.Pairwise fun mark later => later.1.length ≤ mark.1.length := by
  decide

namespace Reads

theorem of_marks {mark : List Char × Token} (mem : mark ∈ marks) : Reads mark.1 (.ok mark.2) := by
  have others : ∀ kind ∈ FixedKind.twoCharacterMarks ++ FixedKind.oneCharacterMarks, kind ∉ FixedKind.keywords := by
    decide
  rw [marks_perm.mem_iff, List.mem_append, List.mem_map] at mem
  rcases mem with ⟨kind, isMark, rfl⟩ | second
  · exact .mark (others kind isMark)
  · simp only [List.mem_cons, List.not_mem_nil, or_false] at second
    rcases second with rfl | rfl
    · exact .doubleEqual
    · exact .lessGreater

theorem of_numeral {numeral : Numeral} (formed : numeral.Formed) : Reads numeral.text numeral.token := by
  rw [Numeral.token]
  split
  · next isReal => exact .real formed isReal
  · next whole =>
    obtain ⟨digits, fraction, exponent⟩ := numeral
    simp only [not_or, Option.not_isSome_iff_eq_none] at whole
    obtain ⟨rfl, rfl⟩ := whole
    rw [Numeral.text, Numeral.fractionText, Option.map_none, Option.getD_none, List.append_nil, List.append_nil]
    split
    · next long => exact .overlong formed.whole long
    · next short => exact .integer formed.whole (Nat.not_lt.mp short)

theorem of_word {first : Char} {rest : List Char} (start : isWordStart first) (parts : ∀ c ∈ rest, isWordPart c) :
    Reads (first :: rest) (.ok (wordToken (first :: rest))) := by
  simp only [wordToken]
  split
  · next kind found =>
    have spelled : kind.spelling = String.ofList (first :: rest) := by simpa using List.find?_some found
    have reads := Reads.keyword (List.mem_of_find?_eq_some found)
    rwa [spelled, String.toList_ofList] at reads
  · next absent =>
    refine .identifier start parts fun kind isKeyword spelled => ?_
    have other := List.find?_eq_none.mp absent kind isKeyword
    exact other (by rw [← spelled, String.ofList_toList, decide_eq_true rfl])

/-- What is read as one token is a number, a word or a mark. -/
theorem cases_classes {text : List Char} {result : Except OverlongInteger Token} (reads : Reads text result) :
    (∃ numeral : Numeral, numeral.Formed ∧ numeral.text = text ∧ numeral.token = result) ∨
      (∃ first rest, first :: rest = text ∧ isWordStart first ∧ (∀ c ∈ rest, isWordPart c) ∧
        .ok (wordToken text) = result) ∨
      ∃ mark ∈ marks, mark.1 = text ∧ .ok mark.2 = result := by
  have whole {digits : List Char} (isDigits : IsDigits digits) : (Numeral.mk digits none none).Formed ∧
      (Numeral.mk digits none none).text = digits :=
    ⟨⟨isDigits, nofun, nofun⟩, by simp [Numeral.text, Numeral.fractionText]⟩
  cases reads with
  | integer isDigits short =>
    obtain ⟨formed, spelled⟩ := whole isDigits
    exact .inl ⟨_, formed, spelled, by simp [Numeral.token, short]⟩
  | overlong isDigits long =>
    obtain ⟨formed, spelled⟩ := whole isDigits
    exact .inl ⟨_, formed, spelled, by simp [Numeral.token, long]⟩
  | real formed isReal => exact .inl ⟨_, formed, rfl, if_pos isReal⟩
  | @keyword kind isKeyword =>
    obtain ⟨start, parts, isToken⟩ := keywords_words kind isKeyword
    refine .inr (.inl ?_)
    cases spelled : kind.spelling.toList with
    | nil => simp [spelled] at start
    | cons first rest =>
      rw [spelled] at start parts isToken
      refine ⟨first, rest, rfl, start, fun c mem => List.all_eq_true.mp parts c (List.mem_cons_of_mem _ mem), ?_⟩
      rw [isToken]
  | @identifier first rest start parts other =>
    have absent : FixedKind.keyword? (String.ofList (first :: rest)) = none := by
      refine List.find?_eq_none.mpr fun kind isKeyword same => other kind isKeyword ?_
      rw [of_decide_eq_true same, String.toList_ofList]
    exact .inr (.inl ⟨first, rest, rfl, start, parts, by simp only [wordToken, absent]⟩)
  | mark isMark => exact .inr (.inr ⟨_, mark_mem_marks _ isMark, rfl, rfl⟩)
  | doubleEqual => exact .inr (.inr ⟨(['=', '='], .doubleEqual), by simp [marks], rfl, rfl⟩)
  | lessGreater => exact .inr (.inr ⟨(['<', '>'], .lessGreater), by simp [marks], rfl, rfl⟩)

theorem ne_nil {text : List Char} {result : Except OverlongInteger Token} (reads : Reads text result) : text ≠ [] := by
  rcases reads.cases_classes with ⟨numeral, formed, rfl, -⟩ | ⟨first, rest, rfl, -⟩ | ⟨mark, mem, rfl, -⟩
  · simp [Numeral.text, formed.whole.1]
  · exact List.cons_ne_nil _ _
  · exact (marks_spelled mark mem).1

variable {first : Char} {rest : List Char} {result : Except OverlongInteger Token}

/-- The first character tells a number, a word and a mark apart. -/
theorem first_digit (isDigit : first.isDigit) (reads : Reads (first :: rest) result) :
    ∃ numeral : Numeral, numeral.Formed ∧ numeral.text = first :: rest ∧ numeral.token = result := by
  rcases reads.cases_classes with number | ⟨c, others, spelled, start, -⟩ | ⟨mark, mem, spelled, -⟩
  · exact number
  · obtain ⟨rfl, rfl⟩ := List.cons.inj spelled
    exact absurd start (not_isWordStart_of_isDigit isDigit)
  · have begins := marks_begin mark mem
    simp [spelled, isDigit] at begins

theorem first_start (start : isWordStart first) (reads : Reads (first :: rest) result) :
    (∀ c ∈ rest, isWordPart c) ∧ .ok (wordToken (first :: rest)) = result := by
  rcases reads.cases_classes with ⟨numeral, formed, spelled, -⟩ | ⟨c, others, spelled, -, parts, isToken⟩ |
    ⟨mark, mem, spelled, -⟩
  · exact absurd start (not_isWordStart_of_isDigit (formed.isDigit_first spelled))
  · obtain ⟨rfl, rfl⟩ := List.cons.inj spelled
    exact ⟨parts, isToken⟩
  · have begins := marks_begin mark mem
    simp [spelled, start] at begins

theorem first_other (noDigit : ¬ first.isDigit) (noStart : ¬ isWordStart first) (reads : Reads (first :: rest) result) :
    ∃ mark ∈ marks, mark.1 = first :: rest ∧ .ok mark.2 = result := by
  rcases reads.cases_classes with ⟨numeral, formed, spelled, -⟩ | ⟨c, others, spelled, start, -⟩ | mark
  · exact absurd (formed.isDigit_first spelled) noDigit
  · obtain ⟨rfl, rfl⟩ := List.cons.inj spelled
    exact absurd start noStart
  · exact mark

/-- A piece of a source can be read as a token in one way only. -/
theorem unique {text : List Char} {other : Except OverlongInteger Token} (reads : Reads text result)
    (otherwise : Reads text other) : result = other := by
  obtain ⟨first, rest, rfl⟩ := List.exists_cons_of_ne_nil reads.ne_nil
  by_cases isDigit : first.isDigit
  · obtain ⟨numeral, formed, spelled, rfl⟩ := reads.first_digit isDigit
    obtain ⟨second, otherFormed, otherSpelled, rfl⟩ := otherwise.first_digit isDigit
    rw [formed.text_injective otherFormed (spelled.trans otherSpelled.symm)]
  · by_cases start : isWordStart first
    · exact (reads.first_start start).2.symm.trans (otherwise.first_start start).2
    · obtain ⟨mark, mem, spelled, rfl⟩ := reads.first_other isDigit start
      obtain ⟨second, otherMem, otherSpelled, rfl⟩ := otherwise.first_other isDigit start
      rw [marks_unique mark mem second otherMem (spelled.trans otherSpelled.symm)]

end Reads

theorem Reads.exists_cons {first : Char} {rest other : List Char} {result : Except OverlongInteger Token}
    (reads : Reads other result) (before : other <+: first :: rest) :
    ∃ front, other = first :: front ∧ front <+: rest := by
  rcases List.prefix_cons_iff.mp before with none | more
  · exact absurd none reads.ne_nil
  · exact more

/-- Marks that begin a text are not longer than the first of the table that does. -/
theorem marks_find? {text : List Char} {mark other : List Char × Token}
    (found : (marks.find? fun mark => mark.1.isPrefixOf text) = some mark) (mem : other ∈ marks)
    (before : other.1 <+: text) : other.1.length ≤ mark.1.length := by
  obtain ⟨-, earlier, later, split, skipped⟩ := List.find?_eq_some_iff_append.mp found
  have ordered := marks_ordered
  rw [split] at mem ordered
  rcases List.mem_append.mp mem with early | late
  · have missed := skipped other early
    rw [List.isPrefixOf_iff_prefix.mpr before] at missed
    cases missed
  · rcases List.mem_cons.mp late with rfl | late
    · exact Nat.le_refl _
    · exact (List.pairwise_cons.mp (List.pairwise_append.mp ordered).2.1).1 other late

/-- A lexeme is the longest token at the front of a text, or a character that begins none. -/
theorem Lexeme.scan_longest (first : Char) (rest : List Char) :
    LongestMatch (first :: rest) (scan first rest).text (scan first rest).token := by
  unfold scan
  split
  · next isDigit =>
    obtain ⟨formed, isPrefix⟩ : (Numeral.scan (first :: rest)).Formed ∧ _ := Numeral.scan_formed (by simp [isDigit])
    refine .token (.of_numeral formed) isPrefix fun other before result reads => ?_
    obtain ⟨front, rfl, -⟩ := reads.exists_cons before
    obtain ⟨numeral, otherFormed, spelled, -⟩ := reads.first_digit isDigit
    rw [← spelled] at before ⊢
    exact otherFormed.length_text_le before
  · next noDigit =>
    split
    · next start =>
      have parts : ∀ c ∈ rest.takeWhile isWordPart, isWordPart c := fun c => List.mem_takeWhile_imp
      have word : (first :: rest).takeWhile isWordPart = first :: rest.takeWhile isWordPart := by
        simp [isWordPart_of_isWordStart start]
      rw [word]
      refine .token (.of_word start parts) ?_ fun other before result reads => ?_
      · rw [← word]
        exact List.takeWhile_prefix _
      · obtain ⟨front, rfl, behind⟩ := reads.exists_cons before
        obtain ⟨frontParts, -⟩ := reads.first_start start
        obtain ⟨more, rfl⟩ := behind
        rw [List.takeWhile_append_of_pos frontParts, List.length_cons, List.length_cons, List.length_append]
        omega
    · next noStart =>
      split
      · next text token found =>
        refine .token (.of_marks (List.mem_of_find?_eq_some found)) ?_ fun other before result reads => ?_
        · simpa using List.find?_some found
        · obtain ⟨front, rfl, -⟩ := reads.exists_cons before
          obtain ⟨mark, mem, spelled, -⟩ := reads.first_other noDigit noStart
          rw [← spelled] at before ⊢
          exact marks_find? found mem before
      · next absent =>
        refine .unknown rfl fun other before result reads => ?_
        obtain ⟨front, rfl, -⟩ := reads.exists_cons before
        obtain ⟨mark, mem, spelled, -⟩ := reads.first_other noDigit noStart
        rw [← spelled] at before
        exact List.find?_eq_none.mp absent mark mem (List.isPrefixOf_iff_prefix.mpr before)

end PLZero
