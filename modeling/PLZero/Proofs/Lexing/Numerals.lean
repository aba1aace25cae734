import PLZero.Proofs.Lexing.Layout

namespace PLZero

/-- One digit or more. -/
def IsDigits (text : List Char) : Prop :=
  text ≠ [] ∧ ∀ c ∈ text, c.isDigit

/-- The digits of a natural number. -/
theorem isDigits_toString (value : Nat) : IsDigits (toString value).toList ∧
    digitsValue (toString value).toList = value := by
  rw [Nat.toString_eq_repr, Nat.toList_repr]
  exact ⟨⟨Nat.toDigits_ne_nil, fun c mem => Nat.isDigit_of_mem_toDigits (by decide) (by decide) mem⟩,
    Nat.ofDigitChars_ten_toDigits⟩

structure Exponent.Formed (exponent : Exponent) : Prop where
  letter : exponent.letter = 'e' ∨ exponent.letter = 'E'
  sign : ∀ sign ∈ exponent.sign, sign = '+' ∨ sign = '-'
  digits : IsDigits exponent.digits

/-- A number in the form of the language. -/
structure Numeral.Formed (numeral : Numeral) : Prop where
  whole : IsDigits numeral.whole
  fraction : ∀ digits ∈ numeral.fraction, IsDigits digits
  exponent : ∀ exponent ∈ numeral.exponent, exponent.Formed

section Rows

variable {p : Char → Bool} {row tail text : List Char}

theorem drop_takeWhile (p : Char → Bool) (text : List Char) :
    text.drop (text.takeWhile p).length = text.dropWhile p := by
  induction text with
  | nil => rfl
  | cons c text ih => by_cases holds : p c <;> simp [holds, ih]

theorem takeWhile_row (all : ∀ c ∈ row, p c) (stops : ∀ c ∈ tail.head?, ¬ p c) :
    (row ++ tail).takeWhile p = row ∧ (row ++ tail).dropWhile p = tail := by
  rw [List.takeWhile_append_of_pos all, List.dropWhile_append_of_pos all]
  cases tail with
  | nil => simp
  | cons c tail =>
    have other : ¬ p c := stops c rfl
    simp [other]

/-- A row of characters with something else behind it is all of them at the front of a text. With nothing behind it may
be the first of them. -/
theorem row_begins (all : ∀ c ∈ row, p c) (stops : ∀ c ∈ tail.head?, ¬ p c) (isPrefix : row ++ tail <+: text) :
    row = text.takeWhile p ∧ tail <+: text.dropWhile p ∨ tail = [] ∧ row.length ≤ (text.takeWhile p).length := by
  obtain ⟨rest, rfl⟩ := isPrefix
  cases tail with
  | nil =>
    refine .inr ⟨rfl, ?_⟩
    rw [List.append_nil, List.takeWhile_append_of_pos all, List.length_append]
    omega
  | cons c tail =>
    have behind : ∀ d ∈ (c :: tail ++ rest).head?, ¬ p d := stops
    rw [List.append_assoc, (takeWhile_row all behind).1, (takeWhile_row all behind).2]
    exact .inl ⟨rfl, List.prefix_append _ _⟩

end Rows

theorem isDigits_takeWhile {text : List Char} (some : text.takeWhile Char.isDigit ≠ []) :
    IsDigits (text.takeWhile Char.isDigit) :=
  ⟨some, fun _ => List.mem_takeWhile_imp⟩

theorem IsDigits.takeWhile_ne_nil {digits text : List Char} (isDigits : IsDigits digits)
    (isPrefix : digits <+: text) : text.takeWhile Char.isDigit ≠ [] := by
  obtain ⟨rest, rfl⟩ := isPrefix
  rw [List.takeWhile_append_of_pos isDigits.2]
  simp [isDigits.1]

namespace Exponent

variable {exponent : Exponent} {text : List Char}

theorem Formed.of_scan? (found : scan? text = some exponent) : exponent.Formed ∧ exponent.text <+: text := by
  unfold scan? at found
  split at found
  · next letter c rest =>
    split at found
    · next isLetter =>
      dsimp only at found
      by_cases signed : c = '+' ∨ c = '-'
      · rw [if_pos signed] at found
        split at found
        · cases found
        · next some =>
          cases found
          refine ⟨⟨isLetter, ?_, isDigits_takeWhile some⟩, ?_⟩
          · simpa using signed
          · simpa [Exponent.text] using List.takeWhile_prefix Char.isDigit
      · rw [if_neg signed] at found
        split at found
        · cases found
        · next some =>
          cases found
          refine ⟨⟨isLetter, nofun, isDigits_takeWhile some⟩, ?_⟩
          simpa [Exponent.text] using List.takeWhile_prefix Char.isDigit
    · cases found
  · cases found

/-- A sign is no digit. -/
theorem Formed.head_digits (formed : exponent.Formed) : ∃ first others, exponent.digits = first :: others ∧
    ¬ (first = '+' ∨ first = '-') := by
  obtain ⟨some, all⟩ := formed.digits
  obtain ⟨first, others, spelled⟩ := List.exists_cons_of_ne_nil some
  refine ⟨first, others, spelled, ?_⟩
  have isDigit := all first (spelled ▸ List.mem_cons_self)
  rintro (rfl | rfl) <;> cases isDigit

/-- More digits may follow those of an exponent. -/
theorem Formed.scan?_append (formed : exponent.Formed) (rest : List Char) : scan? (exponent.text ++ rest) =
    some { exponent with digits := (exponent.digits ++ rest).takeWhile Char.isDigit } := by
  obtain ⟨first, others, spelled, unsigned⟩ := formed.head_digits
  have some := formed.digits.takeWhile_ne_nil (List.prefix_append _ rest)
  obtain ⟨letter, sign, digits⟩ := exponent
  obtain ⟨isLetter, isSign, -⟩ := formed
  dsimp only at isLetter isSign spelled some ⊢
  cases sign with
  | none =>
    subst spelled
    simp only [Exponent.text, Option.toList_none, List.cons_append, List.nil_append] at some ⊢
    simp [scan?, isLetter, unsigned, some]
  | some sign =>
    have signed := isSign sign rfl
    simp [Exponent.text, scan?, isLetter, signed, some]

/-- Where an exponent stands, one at least as long is found. -/
theorem Formed.scan?_longest (formed : exponent.Formed) (isPrefix : exponent.text <+: text) :
    ∃ longer, scan? text = some longer ∧ exponent.text.length ≤ longer.text.length := by
  obtain ⟨rest, rfl⟩ := isPrefix
  refine ⟨_, formed.scan?_append rest, ?_⟩
  simp only [Exponent.text, List.length_append, List.length_cons, List.takeWhile_append_of_pos formed.digits.2]
  omega

theorem Formed.scan?_text (formed : exponent.Formed) : scan? exponent.text = some exponent := by
  have found := formed.scan?_append []
  rwa [List.append_nil, List.append_nil, List.takeWhile_eq_self_iff.mpr formed.digits.2] at found

end Exponent

namespace Numeral

variable {numeral : Numeral} {digits text : List Char}

theorem isDigits_of_scanFraction? (found : scanFraction? text = some digits) :
    IsDigits digits ∧ '.' :: digits <+: text := by
  unfold scanFraction? at found
  split at found
  · next rest =>
    dsimp only at found
    split at found
    · cases found
    · next some =>
      cases found
      exact ⟨isDigits_takeWhile some, by simpa using List.takeWhile_prefix Char.isDigit⟩
  · cases found

theorem scanFraction?_point (isDigits : IsDigits digits) (isPrefix : digits <+: text) :
    scanFraction? ('.' :: text) = some (text.takeWhile Char.isDigit) :=
  if_neg (isDigits.takeWhile_ne_nil isPrefix)

theorem Formed.isDigit_first (formed : numeral.Formed) {first : Char} {rest : List Char}
    (spelled : numeral.text = first :: rest) : first.isDigit := by
  obtain ⟨c, digits, whole⟩ := List.exists_cons_of_ne_nil formed.whole.1
  rw [Numeral.text, whole] at spelled
  cases spelled
  exact formed.whole.2 _ (whole ▸ List.mem_cons_self)

/-- The exponent of a number as it is written, if it has one. -/
def exponentText (numeral : Numeral) : List Char :=
  (numeral.exponent.map Exponent.text).getD []

theorem length_text (numeral : Numeral) : numeral.text.length =
    numeral.whole.length + (fractionText numeral.fraction).length + numeral.exponentText.length := by
  rw [text, List.length_append, List.length_append, exponentText]

theorem Formed.head?_exponentText (formed : numeral.Formed) :
    ∀ c ∈ numeral.exponentText.head?, c = 'e' ∨ c = 'E' := by
  rw [exponentText]
  cases written : numeral.exponent with
  | none => exact nofun
  | some exponent =>
    rintro c ⟨⟩
    exact (formed.exponent exponent written).letter

/-- No digit follows those in front of the point, nor those behind it. -/
theorem Formed.exponent_stops (formed : numeral.Formed) : ∀ c ∈ numeral.exponentText.head?, ¬ c.isDigit := by
  intro c first
  rcases formed.head?_exponentText c first with rfl | rfl <;> decide

theorem Formed.fraction_stops (formed : numeral.Formed) :
    ∀ c ∈ (fractionText numeral.fraction ++ numeral.exponentText).head?, ¬ c.isDigit := by
  cases numeral.fraction with
  | none => exact formed.exponent_stops
  | some digits =>
    rintro c ⟨⟩
    decide

theorem Formed.scanFraction?_exponent (formed : numeral.Formed) (isPrefix : numeral.exponentText <+: text)
    (some : numeral.exponentText ≠ []) : scanFraction? text = none := by
  obtain ⟨first, others, spelled⟩ := List.exists_cons_of_ne_nil some
  have isLetter := formed.head?_exponentText first (by rw [spelled]; rfl)
  obtain ⟨rest, rfl⟩ := isPrefix
  rw [spelled, List.cons_append]
  rcases isLetter with rfl | rfl <;> rfl

theorem fractionText_begins (text : List Char) : fractionText (scanFraction? text) <+: text := by
  cases found : scanFraction? text with
  | none => exact List.nil_prefix
  | some digits => exact (isDigits_of_scanFraction? found).2

theorem scan_exponentText (text : List Char) : (scan text).exponentText <+:
    (text.dropWhile Char.isDigit).drop (fractionText (scan text).fraction).length := by
  rw [exponentText]
  cases found : (scan text).exponent with
  | none => exact List.nil_prefix
  | some exponent => exact (Exponent.Formed.of_scan? found).2

/-- The digits at the front of a text begin the number that is read. -/
theorem scan_formed (begins : text.takeWhile Char.isDigit ≠ []) : (scan text).Formed ∧ (scan text).text <+: text := by
  refine ⟨⟨isDigits_takeWhile begins, ?_, ?_⟩, ?_⟩
  · exact fun digits found => (isDigits_of_scanFraction? found).1
  · exact fun exponent found => (Exponent.Formed.of_scan? found).1
  · have point := List.prefix_iff_eq_append.mp (fractionText_begins (text.dropWhile Char.isDigit))
    have spelled : text = text.takeWhile Char.isDigit ++ (fractionText (scan text).fraction ++
        (text.dropWhile Char.isDigit).drop (fractionText (scan text).fraction).length) := by
      rw [scan, point, List.takeWhile_append_dropWhile]
    have isPrefix : (scan text).whole ++ (fractionText (scan text).fraction ++ (scan text).exponentText) <+:
        text.takeWhile Char.isDigit ++ _ :=
      (List.prefix_append_right_inj _).mpr ((List.prefix_append_right_inj _).mpr (scan_exponentText text))
    rwa [← spelled, ← List.append_assoc] at isPrefix

/-- What is written of an exponent is found where it stands. -/
theorem Formed.length_exponentText_le (formed : numeral.Formed) (isPrefix : numeral.exponentText <+: text) :
    numeral.exponentText.length ≤ (((Exponent.scan? text).map Exponent.text).getD []).length := by
  rw [exponentText] at isPrefix ⊢
  cases written : numeral.exponent with
  | none => exact Nat.zero_le _
  | some exponent =>
    rw [written] at isPrefix
    obtain ⟨longer, found, length⟩ := (formed.exponent exponent written).scan?_longest isPrefix
    rw [found]
    exact length

/-- Behind the digits in front, a point is read with its digits, and then the exponent. -/
theorem Formed.length_tail_le (formed : numeral.Formed)
    (isPrefix : fractionText numeral.fraction ++ numeral.exponentText <+: text) :
    (fractionText numeral.fraction).length + numeral.exponentText.length ≤
      (fractionText (scanFraction? text)).length + (((Exponent.scan?
        (text.drop (fractionText (scanFraction? text)).length)).map Exponent.text).getD []).length := by
  cases pointed : numeral.fraction with
  | none =>
    rw [pointed] at isPrefix
    by_cases some : numeral.exponentText = []
    · rw [some]
      exact Nat.zero_le _
    · have length := formed.length_exponentText_le isPrefix
      rw [formed.scanFraction?_exponent isPrefix some]
      simpa [fractionText] using length
  | some digits =>
    rw [pointed] at isPrefix
    have isDigits := formed.fraction digits pointed
    obtain ⟨after, rfl, behind⟩ := List.cons_prefix_iff.mp isPrefix
    rw [scanFraction?_point isDigits ((List.prefix_append _ _).trans behind)]
    simp only [fractionText, List.length_cons, List.drop_succ_cons, drop_takeWhile]
    rcases row_begins isDigits.2 formed.exponent_stops behind with ⟨same, behind⟩ | ⟨none, length⟩
    · have length := formed.length_exponentText_le behind
      rw [same]
      omega
    · rw [none, List.length_nil]
      omega

/-- No number that begins a text is longer than the one that is read. -/
theorem Formed.length_text_le (formed : numeral.Formed) (isPrefix : numeral.text <+: text) :
    numeral.text.length ≤ (scan text).text.length := by
  rw [Numeral.text, List.append_assoc] at isPrefix
  rw [length_text, length_text]
  rcases row_begins formed.whole.2 formed.fraction_stops isPrefix with ⟨whole, behind⟩ | ⟨none, length⟩
  · have same : (scan text).whole.length = numeral.whole.length := congrArg List.length whole.symm
    have tail := formed.length_tail_le behind
    rw [same, Nat.add_assoc, Nat.add_assoc]
    exact Nat.add_le_add_left tail _
  · obtain ⟨noPoint, noExponent⟩ := List.append_eq_nil_iff.mp none
    have whole : numeral.whole.length ≤ (scan text).whole.length := length
    rw [noPoint, noExponent, List.length_nil]
    omega

/-- A number is read back as it is. -/
theorem Formed.scan_text (formed : numeral.Formed) : scan numeral.text = numeral := by
  obtain ⟨atWhole, behind⟩ := takeWhile_row formed.whole.2 formed.fraction_stops
  have spelled : numeral.text = numeral.whole ++ (fractionText numeral.fraction ++ numeral.exponentText) := by
    rw [Numeral.text, List.append_assoc, exponentText]
  have fraction : scanFraction? (fractionText numeral.fraction ++ numeral.exponentText) = numeral.fraction := by
    cases pointed : numeral.fraction with
    | none =>
      by_cases some : numeral.exponentText = []
      · rw [some]
        rfl
      · exact formed.scanFraction?_exponent (List.prefix_refl _) some
    | some digits =>
      have isDigits := formed.fraction digits pointed
      rw [fractionText, List.cons_append, scanFraction?_point isDigits (List.prefix_append _ _),
        (takeWhile_row isDigits.2 formed.exponent_stops).1]
  have exponent : Exponent.scan? numeral.exponentText = numeral.exponent := by
    rw [exponentText]
    cases written : numeral.exponent with
    | none => rfl
    | some exponent => exact (formed.exponent exponent written).scan?_text
  rw [spelled, scan, atWhole, behind, fraction]
  simp [exponent]

theorem Formed.text_injective {other : Numeral} (formed : numeral.Formed) (otherFormed : other.Formed)
    (same : numeral.text = other.text) : numeral = other := by
  rw [← formed.scan_text, same, otherFormed.scan_text]

end Numeral

end PLZero
