import PLZero.Proofs.Listing.Layout

/-!
Listings read back column by column: the number in front of the colon of a line, and the words behind it. They are those
of the instruction as long as the address and the mnemonic leave a blank in front of the fields.
-/

namespace PLZero

/-- What stands in a text between white space. -/
def words (text : List Char) : List (List Char) :=
  (text.splitOnP Text.isSpace).filter (· ≠ [])

theorem words_of_isUnbroken {text : List Char} (unbroken : IsUnbroken text) : words text = [text] := by
  simp [words, List.splitOnP_eq_singleton unbroken.2, unbroken.1]

theorem words_append_space {c : Char} (isSpace : Text.isSpace c) (text rest : List Char) :
    words (text ++ c :: rest) = words text ++ words rest := by
  rw [words, List.splitOnP_append_cons _ _ isSpace, List.filter_append, words, words]

theorem words_blanks (count : Nat) (rest : List Char) : words (List.replicate count ' ' ++ rest) = words rest := by
  induction count with
  | zero => rfl
  | succ count ih =>
    have blank := words_append_space (c := ' ') (by decide) [] (List.replicate count ' ' ++ rest)
    rwa [List.nil_append, ih] at blank

theorem words_intercalate {texts : List (List Char)} (unbroken : ∀ text ∈ texts, IsUnbroken text) :
    words ([' '].intercalate texts) = texts := by
  induction texts with
  | nil => rfl
  | cons text texts ih =>
    obtain ⟨first, others⟩ := List.forall_mem_cons.mp unbroken
    cases texts with
    | nil => rw [List.intercalate_singleton, words_of_isUnbroken first]
    | cons next texts =>
      rw [List.intercalate_cons_cons, List.append_assoc, List.singleton_append, words_append_space (by decide),
        ih others, words_of_isUnbroken first, List.singleton_append]

/-- A line with a number in front of its first colon, and these words behind it. -/
structure LineReads (line : List Char) (number : Nat) (texts : List (List Char)) : Prop where
  colon : ':' ∈ line
  number : ∃ digits, words (line.takeWhile (· ≠ ':')) = [digits] ∧ IsDigits digits ∧ digitsValue digits = number
  texts : words (line.dropWhile (· ≠ ':')).tail = texts

/-- A line reads as it is cut at its first colon. -/
theorem LineReads.of_cut {front rest digits : List Char} {number : Nat} (noColon : ':' ∉ front)
    (word : words front = [digits]) (areDigits : IsDigits digits) (value : digitsValue digits = number) :
    LineReads (front ++ ':' :: rest) number (words rest) := by
  have before : ∀ c ∈ front, decide (c ≠ ':') := fun c mem => decide_eq_true (ne_of_mem_of_not_mem mem noColon)
  have stops : ∀ c ∈ (':' :: rest).head?, ¬ decide (c ≠ ':') := by simp
  obtain ⟨ahead, behind⟩ := takeWhile_row before stops
  refine ⟨List.mem_append_right _ List.mem_cons_self, ⟨digits, ?_, areDigits, value⟩, ?_⟩
  · rw [ahead, word]
  · rw [behind, List.tail_cons]

namespace Instruction

/-- The mnemonic and the fields that the opcode uses. -/
def parts (instruction : Instruction) : List (List Char) :=
  instruction.operation.mnemonic.toList :: instruction.fieldTexts

/-- The address and the mnemonic of an instruction with fields leave no blank in front of the fields. -/
def IsCrowded (address : Nat) (instruction : Instruction) : Prop :=
  instruction.operation.operands ≠ .none ∧ 18 ≤ instruction.reach address

instance (address : Nat) (instruction : Instruction) : Decidable (instruction.IsCrowded address) :=
  inferInstanceAs (Decidable (_ ∧ _))

/-- The words of a line behind the colon: the parts of the instruction, of which the first two are one word in a crowded
line. -/
def columns (address : Nat) (instruction : Instruction) : List (List Char) :=
  if instruction.IsCrowded address then
    match instruction.fieldTexts with
    | [] => [instruction.operation.mnemonic.toList]
    | first :: others => (instruction.operation.mnemonic.toList ++ first) :: others
  else instruction.parts

theorem words_addressText (address : Nat) : words (addressText address) = [(toString address).toList] := by
  rw [addressText, words_blanks, words_of_isUnbroken (isUnbroken_toString_nat address)]

theorem colon_notMem_addressText (address : Nat) : ':' ∉ addressText address := by
  rw [addressText, List.mem_append, not_or]
  exact ⟨fun mem => absurd (List.eq_of_mem_replicate mem) (by decide),
    fun mem => absurd (isNumeric_toString_nat address _ mem) (by decide)⟩

/-- A crowded line has the first field right behind the mnemonic, in one word. -/
theorem words_crowded {mnemonic first : List Char} {others : List (List Char)} (unbroken : IsUnbroken mnemonic)
    (fields : ∀ text ∈ first :: others, IsUnbroken text) :
    words (mnemonic ++ [' '].intercalate (first :: others)) = (mnemonic ++ first) :: others := by
  have joined : mnemonic ++ [' '].intercalate (first :: others) =
      [' '].intercalate ((mnemonic ++ first) :: others) := by
    cases others with
    | nil => rw [List.intercalate_singleton, List.intercalate_singleton]
    | cons next others =>
      rw [List.intercalate_cons_cons, List.intercalate_cons_cons, List.append_assoc, List.append_assoc,
        List.append_assoc]
  obtain ⟨first, rest⟩ := List.forall_mem_cons.mp fields
  rw [joined]
  exact words_intercalate (List.forall_mem_cons.mpr ⟨unbroken.append first.2, rest⟩)

theorem words_behind (address : Nat) (instruction : Instruction) :
    words (' ' :: (instruction.operation.mnemonic.toList ++ instruction.fieldColumn address)) =
      instruction.columns address := by
  have mnemonic := instruction.operation.isUnbroken_mnemonic
  have fields := words_intercalate instruction.isUnbroken_fieldTexts
  have begun (text : List Char) : words (' ' :: text) = words text := words_blanks 1 text
  rw [begun, columns, fieldColumn]
  by_cases none : instruction.operation.operands = .none
  · have free : ¬ instruction.IsCrowded address := fun crowded => crowded.1 none
    rw [if_pos none, if_neg free, parts, instruction.fieldTexts_eq_nil_iff.mpr none, List.append_nil,
      words_of_isUnbroken mnemonic]
  · rw [if_neg none]
    obtain ⟨first, others, shown⟩ := List.exists_cons_of_ne_nil (mt instruction.fieldTexts_eq_nil_iff.mp none)
    by_cases wide : 18 ≤ instruction.reach address
    · have crowded : instruction.IsCrowded address := ⟨none, wide⟩
      rw [if_pos crowded, Nat.sub_eq_zero_of_le wide, shown]
      exact words_crowded mnemonic (shown ▸ instruction.isUnbroken_fieldTexts)
    · have free : ¬ instruction.IsCrowded address := fun crowded => wide crowded.2
      obtain ⟨count, gap⟩ := Nat.exists_eq_add_of_lt (Nat.not_le.mp wide)
      have blanks : 18 - instruction.reach address = count + 1 := by omega
      rw [if_neg free, blanks, List.replicate_succ, List.cons_append, words_append_space (by decide), words_blanks,
        fields, words_of_isUnbroken mnemonic]
      rfl

theorem listing_reads (address : Nat) (instruction : Instruction) :
    LineReads (instruction.listing address).toList address (instruction.columns address) := by
  rw [toList_listing, ← instruction.words_behind address]
  exact .of_cut (colon_notMem_addressText address) (words_addressText address) (isDigits_toString address).1
    (isDigits_toString address).2

/-- In a crowded line two of the parts are one word. -/
theorem columns_eq_parts_iff {address : Nat} {instruction : Instruction} :
    instruction.columns address = instruction.parts ↔ ¬ instruction.IsCrowded address := by
  rw [columns]
  by_cases crowded : instruction.IsCrowded address
  · obtain ⟨first, others, shown⟩ := List.exists_cons_of_ne_nil (mt instruction.fieldTexts_eq_nil_iff.mp crowded.1)
    have fewer : ((instruction.operation.mnemonic.toList ++ first) :: others).length ≠ instruction.parts.length := by
      rw [parts, shown]
      simp
    rw [if_pos crowded, shown]
    exact iff_of_false (fun same => fewer (congrArg List.length same)) (not_not_intro crowded)
  · exact iff_of_true (if_neg crowded) crowded

/-- The longest mnemonic leaves a blank behind an address of five digits. -/
theorem not_isCrowded_of_lt {address : Nat} {instruction : Instruction} {op : Opcode}
    (isOpcode : instruction.operation = .named op) (low : address < 100000) : ¬ instruction.IsCrowded address := by
  have digits : (toString address).length ≤ 5 := (Nat.length_repr_le_iff (by decide)).mpr low
  have short : instruction.operation.mnemonic.length ≤ 10 := isOpcode ▸ op.mnemonic_spelled.2
  rintro ⟨_, wide⟩
  rw [reach] at wide
  omega

end Instruction

/-- A listing has one line for each instruction, which reads as its address and these words. -/
def ListingReads (code : List Instruction) (texts : Nat → Instruction → List (List Char)) : Prop :=
  (lines (listing code)).length = code.length ∧
    ∀ (address : Nat) (instruction : Instruction), code[address]? = some instruction →
      ∃ line ∈ (lines (listing code))[address]?, LineReads line address (texts address instruction)

/-- Each line of the listing shows the mnemonic and the fields of its instruction in words of their own. -/
def ReadsBack (code : List Instruction) : Prop :=
  ListingReads code fun _ instruction => instruction.parts

theorem getElem?_lines_listing {code : List Instruction} {address : Nat} {instruction : Instruction}
    (found : code[address]? = some instruction) :
    (lines (listing code))[address]? = some (instruction.listing address).toList := by
  have nonempty : code ≠ [] := by
    rintro rfl
    cases found
  rw [lines_listing nonempty, List.getElem?_mapIdx, found, Option.map_some]

theorem readsBack_iff {code : List Instruction} (nonempty : code ≠ []) :
    ReadsBack code ↔
      ∀ (address : Nat) (instruction : Instruction),
        code[address]? = some instruction → ¬ instruction.IsCrowded address := by
  refine ⟨fun reads address instruction found => ?_, fun free => ⟨?_, fun address instruction found => ?_⟩⟩
  · obtain ⟨line, isLine, reads⟩ := reads.2 address instruction found
    rw [getElem?_lines_listing found] at isLine
    obtain rfl := Option.some.inj isLine
    exact Instruction.columns_eq_parts_iff.mp ((instruction.listing_reads address).texts.symm.trans reads.texts)
  · rw [lines_listing nonempty, List.length_mapIdx]
  · have reads := instruction.listing_reads address
    rw [Instruction.columns_eq_parts_iff.mpr (free address instruction found)] at reads
    exact ⟨_, getElem?_lines_listing found, reads⟩

/-- Each line of a listing reads as the address of its instruction and its columns. The listing reads back exactly when
no line is crowded, and so do all listings of opcodes up to a length. -/
theorem listing_read_back {code : List Instruction} (nonempty : code ≠ []) :
    (ListingReads code fun address instruction => instruction.columns address) ∧
      (ReadsBack code ↔
        ∀ (address : Nat) (instruction : Instruction),
          code[address]? = some instruction → ¬ instruction.IsCrowded address) ∧
      ((∀ instruction ∈ code, ∃ op, instruction.operation = .named op) → code.length ≤ 100000 → ReadsBack code) := by
  refine ⟨⟨?_, fun address instruction found => ?_⟩, readsBack_iff nonempty, fun opcodes short => ?_⟩
  · rw [lines_listing nonempty, List.length_mapIdx]
  · exact ⟨_, getElem?_lines_listing found, instruction.listing_reads address⟩
  · refine (readsBack_iff nonempty).mpr fun address instruction found => ?_
    obtain ⟨op, isOpcode⟩ := opcodes instruction (List.mem_of_getElem? found)
    have inside : address < code.length := (List.getElem?_eq_some_iff.mp found).1
    exact Instruction.not_isCrowded_of_lt isOpcode (by omega)

/-- A value below zero behind a level, and an opcode without fields. -/
theorem listing_read_back_fields :
    ([⟨.named .pushVar, 2, -1⟩, ⟨.named .eval, 0, 0⟩] : List Instruction) ≠ [] ∧
      ReadsBack [⟨.named .pushVar, 2, -1⟩, ⟨.named .eval, 0, 0⟩] :=
  ⟨List.cons_ne_nil _ _, (listing_read_back (List.cons_ne_nil _ _)).2.2
    (List.forall_mem_cons.mpr ⟨⟨.pushVar, rfl⟩, List.forall_mem_singleton.mpr ⟨.eval, rfl⟩⟩) (by decide)⟩

theorem not_readsBack_replicate {count address : Nat} {instruction : Instruction} (inside : address < count)
    (crowded : instruction.IsCrowded address) : ¬ ReadsBack (List.replicate count instruction) := by
  intro reads
  have nonempty : List.replicate count instruction ≠ [] := by
    rw [Ne, List.replicate_eq_nil_iff]
    omega
  exact (readsBack_iff nonempty).mp reads address instruction (List.getElem?_replicate_of_lt inside) crowded

/-- With an address of six digits the longest mnemonic runs into its field. -/
theorem listing_not_read_back : ¬ ReadsBack (List.replicate 100001 ⟨.named .pushConst, 0, 5⟩) :=
  not_readsBack_replicate (show 100000 < 100001 by omega) (by decide)

end PLZero
