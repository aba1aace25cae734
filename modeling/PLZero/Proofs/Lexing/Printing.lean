import PLZero.Proofs.Lexing.Reading

namespace PLZero

/-- How a token is printed: a fixed one as it is spelled, an integer in decimal, and a name as it is. -/
inductive Token.Prints : Token → List Char → Prop where
  | fixed (kind : FixedKind) : Prints (.fixed kind) kind.spelling.toList
  | integer {value : Nat} (short : (toString value).length ≤ Text.integerDigitLimit) :
      Prints (.integer value) (toString value).toList
  | identifier {first : Char} {rest : List Char} (start : isWordStart first) (parts : ∀ c ∈ rest, isWordPart c)
      (other : ∀ kind ∈ FixedKind.keywords, kind.spelling.toList ≠ first :: rest) :
      Prints (.identifier (String.ofList (first :: rest))) (first :: rest)

/-- Tokens as they are printed, with blanks between them. -/
inductive Printed : List Token → List Char → Prop where
  | nil : Printed [] []
  | last {t : Token} {text : List Char} (prints : t.Prints text) : Printed [t] text
  | cons {t second : Token} {tokens : List Token} {text blanks rest : List Char} (prints : t.Prints text)
      (some : blanks ≠ []) (blank : ∀ c ∈ blanks, isBlank c) (others : Printed (second :: tokens) rest) :
      Printed (t :: second :: tokens) (text ++ (blanks ++ rest))

section Blanks

variable {c : Char}

theorem eq_of_isBlank (blank : isBlank c) : c ∈ [' ', '\t', '\r', '\n', '\x0c', '\x0b'] := by
  simpa [isBlank, or_assoc] using blank

theorem not_isWordPart_of_isBlank (blank : isBlank c) : ¬ isWordPart c := by
  have others : [' ', '\t', '\r', '\n', '\x0c', '\x0b'].all fun c => !isWordPart c := by decide
  simpa using List.all_eq_true.mp others c (eq_of_isBlank blank)

theorem not_isDigit_of_isBlank (blank : isBlank c) : ¬ c.isDigit := by
  have others : [' ', '\t', '\r', '\n', '\x0c', '\x0b'].all fun c => !c.isDigit := by decide
  simpa using List.all_eq_true.mp others c (eq_of_isBlank blank)

theorem inked_of_all {text : List Char} (all : text.all fun c => !isBlank c) : ∀ c ∈ text, ¬ isBlank c :=
  fun c mem => by simpa using List.all_eq_true.mp all c mem

/-- A number is made of digits, a point, and the letter and sign of an exponent. -/
theorem Numeral.Formed.forall_mem_text {numeral : Numeral} (formed : numeral.Formed) {P : Char → Prop}
    (digit : ∀ c, c.isDigit → P c) (other : ∀ c ∈ ['.', 'e', 'E', '+', '-'], P c) : ∀ c ∈ numeral.text, P c := by
  have inExponent (exponent : Exponent) (formed : exponent.Formed) : ∀ c ∈ exponent.text, P c := by
    intro c mem
    simp only [Exponent.text, List.mem_cons, List.cons_append, List.mem_append, Option.mem_toList] at mem
    rcases mem with rfl | isSign | isDigit
    · rcases formed.letter with same | same <;> exact other _ (by simp [same])
    · rcases formed.sign c isSign with rfl | rfl <;> exact other _ (by simp)
    · exact digit c (formed.digits.2 c isDigit)
  intro c mem
  rw [Numeral.text, List.mem_append, List.mem_append] at mem
  rcases mem with (inWhole | inFraction) | behind
  · exact digit c (formed.whole.2 c inWhole)
  · cases pointed : numeral.fraction with
    | none => simp [pointed, fractionText] at inFraction
    | some digits =>
      rw [pointed] at inFraction
      rcases List.mem_cons.mp inFraction with rfl | isDigit
      · exact other _ (by simp)
      · exact digit c ((formed.fraction digits pointed).2 c isDigit)
  · cases written : numeral.exponent with
    | none => simp [written] at behind
    | some exponent =>
      rw [written] at behind
      exact inExponent exponent (formed.exponent exponent written) c behind

theorem Numeral.Formed.inked {numeral : Numeral} (formed : numeral.Formed) : ∀ c ∈ numeral.text, ¬ isBlank c :=
  formed.forall_mem_text (fun _ isDigit blank => not_isDigit_of_isBlank blank isDigit) (by simp [isBlank])

theorem marks_inked : ∀ mark ∈ marks, ∀ c ∈ mark.1, ¬ isBlank c := by
  have all : marks.all fun mark => mark.1.all fun c => !isBlank c := by decide
  exact fun mark mem => inked_of_all (List.all_eq_true.mp all mark mem)

end Blanks

namespace Reads

variable {text other rest : List Char} {result : Except OverlongInteger Token}

/-- There are no blanks in a token. -/
theorem inked (reads : Reads text result) : ∀ c ∈ text, ¬ isBlank c := by
  rcases reads.cases_classes with ⟨numeral, formed, rfl, -⟩ | ⟨first, rest, rfl, start, parts, -⟩ | ⟨mark, mem, rfl, -⟩
  · exact formed.inked
  · refine List.forall_mem_cons.mpr ⟨fun blank => ?_, fun c mem blank => ?_⟩
    · exact not_isWordPart_of_isBlank blank (isWordPart_of_isWordStart start)
    · exact not_isWordPart_of_isBlank blank (parts c mem)
  · exact marks_inked mark mem

theorem marks_slash : ∀ mark ∈ marks, mark.1.head? = some '/' → mark.1 = ['/'] := by
  decide

/-- A token that begins with a slash is a slash, and opens no comment. -/
theorem not_opening (reads : Reads text result) (c : Char) : ¬ ['/', c] <+: text := by
  rintro ⟨behind, rfl⟩
  obtain ⟨mark, mem, spelled, -⟩ := reads.first_other (by decide) (by decide)
  have alone := marks_slash mark mem (by rw [spelled]; rfl)
  cases spelled.symm.trans alone

end Reads

theorem isPrefix_append_cons {α : Type} {c : α} {text rest other : List α} (before : other <+: text ++ c :: rest) :
    other <+: text ∨ ∃ more, other = text ++ c :: more := by
  by_cases short : other.length ≤ text.length
  · exact .inl (List.prefix_of_prefix_length_le before (List.prefix_append _ _) short)
  · have front : text ++ [c] <+: text ++ c :: rest := ⟨rest, by simp⟩
    obtain ⟨more, rfl⟩ : text ++ [c] <+: other :=
      List.prefix_of_prefix_length_le front before (by rw [List.length_append, List.length_singleton]; omega)
    exact .inr ⟨more, List.append_assoc ..⟩

/-- What has no blanks does not go on behind one. -/
theorem isPrefix_of_inked {text rest other : List Char} (before : other <+: text ++ rest)
    (inked : ∀ c ∈ other, ¬ isBlank c) (ends : ∀ c ∈ rest.head?, isBlank c) : other <+: text := by
  cases rest with
  | nil => rwa [List.append_nil] at before
  | cons c rest =>
    rcases isPrefix_append_cons before with within | ⟨more, rfl⟩
    · exact within
    · exact absurd (ends c rfl) (inked c (by simp))

namespace Reads

variable {text rest : List Char} {result : Except OverlongInteger Token} (reads : Reads text result)
  (ends : ∀ c ∈ rest.head?, isBlank c)
include reads ends

/-- A token with a blank behind it is read as it is. -/
theorem longestMatch : LongestMatch (text ++ rest) text result :=
  .token reads (List.prefix_append _ _) fun _ before _ otherReads =>
    (isPrefix_of_inked before otherReads.inked ends).length_le

theorem noBracket (body : List Char) : text ++ rest ≠ '/' :: '*' :: body := by
  intro same
  have opened : ['/', '*'] <+: text ++ rest := ⟨body, same.symm⟩
  exact reads.not_opening '*' (isPrefix_of_inked opened (inked_of_all (by decide)) ends)

theorem beginsLexeme : BeginsLexeme (text ++ rest) := by
  refine ⟨?_, fun opened => ?_, fun body same => absurd same (reads.noBracket ends body)⟩
  · obtain ⟨first, front, rfl⟩ := List.exists_cons_of_ne_nil reads.ne_nil
    rintro c ⟨⟩
    exact reads.inked first List.mem_cons_self
  · exact reads.not_opening '/' (isPrefix_of_inked opened (inked_of_all (by decide)) ends)

end Reads

namespace Token.Prints

variable {t : Token} {text : List Char}

/-- What is printed stands for the token. -/
theorem reads (prints : t.Prints text) : Reads text (.ok t) := by
  cases prints with
  | fixed kind =>
    by_cases isKeyword : kind ∈ FixedKind.keywords
    · exact .keyword isKeyword
    · exact .mark isKeyword
  | @integer value short =>
    obtain ⟨isDigits, readBack⟩ := isDigits_toString value
    rw [← String.length_toList] at short
    have reads := Reads.integer isDigits short
    rwa [readBack] at reads
  | identifier start parts other => exact .identifier start parts other

theorem valueText_eq (prints : t.Prints text) : t.valueText.toList = text := by
  cases prints with
  | fixed | integer => rfl
  | identifier => exact String.toList_ofList

theorem ne_eof (prints : t.Prints text) : t ≠ .eof := by
  cases prints <;> nofun

end Token.Prints

namespace Cursor

/-- A printed token is read, and the cursor goes on behind it. -/
theorem tokens_of_prints {cursor : Cursor} {t : Token} {text rest : List Char} (prints : t.Prints text)
    (spelled : cursor.rest = text ++ rest) (ends : ∀ c ∈ rest.head?, isBlank c) (count : Nat) :
    cursor.tokens (count + 1) = .ok ⟨t, cursor.position⟩ :: (cursor.skip text.length).tokens count := by
  have reads := prints.reads
  have isNext := next_of_longestMatch (spelled ▸ reads.beginsLexeme ends)
    (fun body => spelled ▸ reads.noBracket ends body) (spelled ▸ reads.longestMatch ends)
  rw [tokens_of_more, isNext]
  · rfl
  · rw [isNext]
    rintro ⟨position, same⟩
    cases same
    exact prints.ne_eof rfl

theorem tokens_of_printed {cursor : Cursor} {tokens : List Token} {count : Nat}
    (printed : Printed tokens cursor.rest) (enough : cursor.rest.length ≤ count) :
    (cursor.tokens (count + 1)).map (·.map (·.token)) = (tokens ++ [Token.eof]).map .ok := by
  generalize spelled : cursor.rest = text at printed enough
  induction printed generalizing cursor count with
  | nil =>
    rw [tokens_of_end _ ⟨_, congrArg Prod.fst (next_nil spelled)⟩, next_nil spelled]
    rfl
  | @last t text prints =>
    have some := List.length_pos_iff.mpr prints.reads.ne_nil
    have atEnd : (cursor.skip text.length).rest = [] := by rw [skip_rest, spelled, List.drop_length]
    obtain ⟨count, rfl⟩ : ∃ n, count = n + 1 := Nat.exists_eq_succ_of_ne_zero (by omega)
    rw [tokens_of_prints prints (spelled.trans (List.append_nil _).symm) nofun,
      tokens_of_end _ ⟨_, congrArg Prod.fst (next_nil atEnd)⟩, next_nil atEnd]
    rfl
  | @cons t second tokens text blanks rest prints some blank others ih =>
    have ends : ∀ c ∈ (blanks ++ rest).head?, isBlank c := by
      obtain ⟨first, front, rfl⟩ := List.exists_cons_of_ne_nil some
      rintro c ⟨⟩
      exact blank first List.mem_cons_self
    have behind : (cursor.skip text.length).rest = blanks ++ rest := by rw [skip_rest, spelled, List.drop_left]
    have length := List.length_pos_iff.mpr some
    rw [List.length_append, List.length_append] at enough
    obtain ⟨count, rfl⟩ : ∃ n, count = n + 1 := Nat.exists_eq_succ_of_ne_zero (by omega)
    rw [tokens_of_prints prints spelled ends, tokens_of_isGap behind (isGap_of_blanks blank rest), List.map_cons,
      ih (by rw [skip_rest, behind, List.drop_left]) (by omega)]
    rfl

end Cursor

/-- Lexing undoes printing. Tokens that are printed with blanks between them are read back with the end behind them, and
the value of each is how it was printed. -/
theorem lex_of_printed {tokens : List Token} {source : String} (printed : Printed tokens source.toList) :
    (lex source).map (·.map (·.token)) = (tokens ++ [Token.eof]).map .ok ∧
      ∀ (t : Token) (text : List Char), t.Prints text → t.valueText.toList = text :=
  ⟨Cursor.tokens_of_printed printed (Nat.le_of_lt_succ (Cursor.ofSource_enough source)),
    fun _ _ => Token.Prints.valueText_eq⟩

/-- A slash and a star that stand apart open no comment, and a keyword within a longer word is none. -/
theorem lex_of_printed_words :
    Printed [.fixed .slash, .fixed .star, .integer 70, .identifier "ended", .fixed .endKw, .fixed .period]
        "/ *\t70\n ended end .".toList ∧
      (lex "/ *\t70\n ended end .").map (·.map (·.token)) =
        [.ok (.fixed .slash), .ok (.fixed .star), .ok (.integer 70), .ok (.identifier "ended"), .ok (.fixed .endKw),
          .ok (.fixed .period), .ok .eof] := by
  have printed : Printed [.fixed .slash, .fixed .star, .integer 70, .identifier "ended", .fixed .endKw, .fixed .period]
      "/ *\t70\n ended end .".toList :=
    @Printed.cons _ _ _ _ [' '] _ (.fixed .slash) nofun (List.all_eq_true.mp (by decide)) <|
    @Printed.cons _ _ _ _ ['\t'] _ (.fixed .star) nofun (List.all_eq_true.mp (by decide)) <|
    @Printed.cons _ _ _ _ ['\n', ' '] _ (.integer (by decide)) nofun (List.all_eq_true.mp (by decide)) <|
    @Printed.cons _ _ _ _ [' '] _ (.identifier (by decide) (List.all_eq_true.mp (by decide)) (by decide)) nofun
      (List.all_eq_true.mp (by decide)) <|
    @Printed.cons _ _ _ _ [' '] _ (.fixed .endKw) nofun (List.all_eq_true.mp (by decide)) <|
    .last (.fixed .period)
  exact ⟨printed, (lex_of_printed printed).1⟩

end PLZero
