import PLZero.Instruction
import PLZero.Proofs.Lexing.Spellings
import PLZero.Text.IntegerText

/-!
The characters of a listing: what a line is made of, and that the lines of a listing can be told apart. The columns of a
line have least widths only, so a long address or mnemonic pushes the fields of the instruction to the right.
-/

namespace PLZero

/-- Characters without white space, at least one. -/
def IsUnbroken (text : List Char) : Prop :=
  text ≠ [] ∧ ∀ c ∈ text, Text.isSpace c = false

theorem IsUnbroken.append {text more : List Char} (unbroken : IsUnbroken text)
    (further : ∀ c ∈ more, Text.isSpace c = false) : IsUnbroken (text ++ more) :=
  ⟨List.append_ne_nil_of_left_ne_nil unbroken.1 more, List.forall_mem_append.mpr ⟨unbroken.2, further⟩⟩

theorem mem_intercalate {separator : List Char} {texts : List (List Char)} {c : Char}
    (mem : c ∈ separator.intercalate texts) : c ∈ separator ∨ ∃ text ∈ texts, c ∈ text := by
  induction texts with
  | nil => exact absurd mem (by simp [List.intercalate])
  | cons text texts ih =>
    cases texts with
    | nil =>
      rw [List.intercalate_singleton] at mem
      exact .inr ⟨text, List.mem_singleton_self _, mem⟩
    | cons next texts =>
      rw [List.intercalate_cons_cons, List.mem_append, List.mem_append] at mem
      rcases mem with (mem | mem) | mem
      · exact .inr ⟨text, List.mem_cons_self, mem⟩
      · exact .inl mem
      · exact (ih mem).imp_right fun ⟨other, memTexts, mem⟩ => ⟨other, List.mem_cons_of_mem _ memTexts, mem⟩

namespace Text

theorem toList_blanks (count : Nat) : (blanks count).toList = List.replicate count ' ' :=
  String.toList_ofList

theorem toList_rightAligned (width : Nat) (text : String) :
    (rightAligned width text).toList = List.replicate (width - text.length) ' ' ++ text.toList := by
  rw [rightAligned, String.toList_append, toList_blanks]

theorem toList_leftAligned (width : Nat) (text : String) :
    (leftAligned width text).toList = text.toList ++ List.replicate (width - text.length) ' ' := by
  rw [leftAligned, String.toList_append, toList_blanks]

/-- No white space lies between the blank and the end of ASCII. -/
theorem isSpace_eq_false {c : Char} (above : 32 < c.toNat) (below : c.toNat < 128) : isSpace c = false := by
  have noBlank : c ∉ [' ', '\t', '\n', '\x0b', '\x0c', '\r'] := by
    have low : ∀ c ∈ [' ', '\t', '\n', '\x0b', '\x0c', '\r'], c.toNat ≤ 32 := by simp
    exact fun mem => absurd (low c mem) (Nat.not_le.mpr above)
  have noRange : spaceRanges.holds c = false := by
    have beyond : ∀ range ∈ spaceRanges, 128 ≤ range.1 := by decide
    refine List.any_eq_false.mpr fun range mem holds => ?_
    have lower := of_decide_eq_true (Bool.and_eq_true_iff.mp holds).1
    have upper := beyond range mem
    omega
  rw [isSpace, noRange, decide_eq_false noBlank, Bool.or_false]

end Text

theorem toString_nat_injective {value other : Nat} (same : (toString value).toList = (toString other).toList) :
    value = other := by
  rw [← (isDigits_toString value).2, same, (isDigits_toString other).2]

theorem toList_negSucc (value : Nat) : (toString (Int.negSucc value)).toList = '-' :: (toString (value + 1)).toList :=
  String.toList_append

theorem toString_int_injective {value other : Int} (same : (toString value).toList = (toString other).toList) :
    value = other := by
  have noSign (number other : Nat) : (toString (Int.ofNat number)).toList ≠ (toString (Int.negSucc other)).toList := by
    rw [toList_negSucc]
    exact fun starts => absurd ((isDigits_toString number).1.2 '-' (starts ▸ List.mem_cons_self)) (by decide)
  cases value with
  | ofNat value =>
    cases other with
    | ofNat other => exact congrArg Int.ofNat (toString_nat_injective same)
    | negSucc other => exact absurd same (noSign value other)
  | negSucc value =>
    cases other with
    | ofNat other => exact absurd same.symm (noSign other value)
    | negSucc other =>
      rw [toList_negSucc, toList_negSucc] at same
      have numbers := toString_nat_injective (List.cons.inj same).2
      exact congrArg Int.negSucc (Nat.succ.inj numbers)

/-- Whether a character may stand in a number: a digit, or the sign of a number below zero. -/
def isNumeric (c : Char) : Bool :=
  c.isDigit || c = '-'

theorem isNumeric_toString_nat (value : Nat) : ∀ c ∈ (toString value).toList, isNumeric c := by
  intro c mem
  rw [isNumeric, (isDigits_toString value).1.2 c mem, Bool.true_or]

theorem isNumeric_toString (value : Int) : ∀ c ∈ (toString value).toList, isNumeric c := by
  rw [Int.toString_eq_repr, Int.repr_eq_if]
  split
  · exact isNumeric_toString_nat _
  · rw [String.toList_append]
    have sign : ∀ c ∈ ['-'], isNumeric c := List.forall_mem_singleton.mpr (by decide)
    exact List.forall_mem_append.mpr ⟨sign, isNumeric_toString_nat _⟩

theorem toString_int_ne_nil (value : Int) : (toString value).toList ≠ [] := by
  rw [Int.toString_eq_repr, Int.repr_eq_if]
  split
  · exact (isDigits_toString _).1.1
  · rw [String.toList_append]
    exact List.append_ne_nil_of_left_ne_nil (by decide) _

/-- The digits and the sign are no white space. -/
theorem isSpace_of_isNumeric {c : Char} (numeric : isNumeric c) : Text.isSpace c = false := by
  rcases Bool.or_eq_true_iff.mp numeric with isDigit | isMinus
  · have lower : 48 ≤ c.toNat := of_decide_eq_true (Bool.and_eq_true_iff.mp isDigit).1
    have upper : c.toNat ≤ 57 := of_decide_eq_true (Bool.and_eq_true_iff.mp isDigit).2
    exact Text.isSpace_eq_false (by omega) (by omega)
  · rw [of_decide_eq_true isMinus]
    decide

theorem isUnbroken_toString_nat (value : Nat) : IsUnbroken (toString value).toList :=
  ⟨(isDigits_toString value).1.1, fun c mem => isSpace_of_isNumeric (isNumeric_toString_nat value c mem)⟩

theorem isUnbroken_toString (value : Int) : IsUnbroken (toString value).toList :=
  ⟨toString_int_ne_nil value, fun c mem => isSpace_of_isNumeric (isNumeric_toString value c mem)⟩

namespace Opcode

theorem mem_all (op : Opcode) : op ∈ all := by
  cases op with
  | unary op => cases op <;> decide
  | binary op => cases op <;> decide
  | _ => decide

/-- A mnemonic is one word, and not a long one. -/
theorem mnemonic_spelled (op : Opcode) : IsUnbroken op.mnemonic.toList ∧ op.mnemonic.length ≤ 10 := by
  have spelled : ∀ op ∈ all, op.mnemonic.toList ≠ [] ∧ op.mnemonic.toList.all (fun c => !Text.isSpace c) ∧
      op.mnemonic.length ≤ 10 := by decide
  obtain ⟨some, solid, short⟩ := spelled op op.mem_all
  exact ⟨⟨some, fun c mem => (Bool.not_eq_true' _).mp (List.all_eq_true.mp solid c mem)⟩, short⟩

end Opcode

/-- The mnemonic of an instruction is one word, also that of a number. -/
theorem Operation.isUnbroken_mnemonic (operation : Operation) : IsUnbroken operation.mnemonic.toList := by
  cases operation with
  | named op => exact op.mnemonic_spelled.1
  | number n => exact isUnbroken_toString n

namespace Instruction

/-- The fields that the opcode uses as a listing shows them, a comma behind the level. -/
def fieldTexts (instruction : Instruction) : List (List Char) :=
  match instruction.operation.operands with
  | .none => []
  | .value => [(toString instruction.value).toList]
  | .levelAndValue => [(toString instruction.level.val).toList ++ [','], (toString instruction.value).toList]

/-- The address in front of the colon, in a column of five characters at least. -/
def addressText (address : Nat) : List Char :=
  List.replicate (5 - (toString address).length) ' ' ++ (toString address).toList

/-- How much of its line an instruction takes in front of its fields. -/
def reach (address : Nat) (instruction : Instruction) : Nat :=
  max 5 (toString address).length + 2 + instruction.operation.mnemonic.length

/-- What a line has behind the mnemonic: the fields, in a column of their own if there is room. -/
def fieldColumn (address : Nat) (instruction : Instruction) : List Char :=
  if instruction.operation.operands = .none then [] else
    List.replicate (18 - instruction.reach address) ' ' ++ [' '].intercalate instruction.fieldTexts

theorem toList_listing (address : Nat) (instruction : Instruction) :
    (instruction.listing address).toList = addressText address ++ ':' :: ' ' ::
      (instruction.operation.mnemonic.toList ++ instruction.fieldColumn address) := by
  have ofInt : toString (address : Int) = toString address := rfl
  have front : (Text.rightAligned 5 (toString (address : Int)) ++ ": " ++ instruction.operation.mnemonic).toList =
      addressText address ++ ':' :: ' ' :: instruction.operation.mnemonic.toList := by
    rw [String.toList_append, String.toList_append, Text.toList_rightAligned, ofInt, addressText, List.append_assoc]
    rfl
  have padded : (Text.leftAligned 18
        (Text.rightAligned 5 (toString (address : Int)) ++ ": " ++ instruction.operation.mnemonic)).toList =
      addressText address ++ ':' :: ' ' ::
        (instruction.operation.mnemonic.toList ++ List.replicate (18 - instruction.reach address) ' ') := by
    have length : (addressText address ++ ':' :: ' ' :: instruction.operation.mnemonic.toList).length =
        instruction.reach address := by
      rw [addressText, reach, ← String.length_toList, ← String.length_toList]
      simp only [List.length_append, List.length_replicate, List.length_cons]
      omega
    rw [Text.toList_leftAligned, ← String.length_toList, front, length]
    simp only [List.append_assoc, List.cons_append]
  rw [listing, fieldColumn, fieldTexts]
  cases instruction.operation.operands with
  | none => exact front.trans (by rw [if_pos rfl, List.append_nil])
  | value =>
    simp only [reduceCtorEq, if_false, String.toList_append, padded, List.intercalate_singleton, List.append_assoc,
      List.cons_append]
  | levelAndValue =>
    have comma : (toString ", ").toList = [',', ' '] := rfl
    simp only [reduceCtorEq, if_false, String.toList_append, padded, comma, List.intercalate, List.intersperse,
      List.flatten_cons, List.flatten_nil, List.append_assoc, List.cons_append, List.nil_append, List.append_nil]

/-- An instruction has fields, or its opcode uses none. -/
theorem fieldTexts_eq_nil_iff (instruction : Instruction) :
    instruction.fieldTexts = [] ↔ instruction.operation.operands = .none := by
  rw [fieldTexts]
  cases instruction.operation.operands <;> simp

/-- Each field is a word. -/
theorem isUnbroken_fieldTexts (instruction : Instruction) : ∀ text ∈ instruction.fieldTexts, IsUnbroken text := by
  have value := isUnbroken_toString instruction.value
  have level : IsUnbroken ((toString instruction.level.val).toList ++ [',']) :=
    (isUnbroken_toString_nat _).append (List.forall_mem_singleton.mpr (by decide))
  rw [fieldTexts]
  cases instruction.operation.operands with
  | none => exact nofun
  | value => exact List.forall_mem_singleton.mpr value
  | levelAndValue => exact List.forall_mem_cons.mpr ⟨level, List.forall_mem_singleton.mpr value⟩

/-- A line of a listing has no white space besides blanks. -/
theorem blank_of_isSpace {address : Nat} {instruction : Instruction} :
    ∀ c ∈ (instruction.listing address).toList, Text.isSpace c → c = ' ' := by
  have noSpace {text : List Char} (unbroken : IsUnbroken text) : ∀ c ∈ text, Text.isSpace c → c = ' ' :=
    fun c mem isSpace => absurd isSpace (by rw [unbroken.2 c mem]; decide)
  have blanks (count : Nat) : ∀ c ∈ List.replicate count ' ', Text.isSpace c → c = ' ' :=
    fun c mem _ => List.eq_of_mem_replicate mem
  have fields : ∀ c ∈ [' '].intercalate instruction.fieldTexts, Text.isSpace c → c = ' ' := by
    intro c mem isSpace
    obtain isBlank | ⟨text, memTexts, mem⟩ := mem_intercalate mem
    · exact List.mem_singleton.mp isBlank
    · exact noSpace (instruction.isUnbroken_fieldTexts text memTexts) c mem isSpace
  rw [toList_listing, addressText, fieldColumn]
  simp only [List.forall_mem_append, List.forall_mem_cons]
  refine ⟨⟨blanks _, noSpace (isUnbroken_toString_nat address)⟩, fun isSpace => absurd isSpace (by decide),
    fun _ => trivial, noSpace instruction.operation.isUnbroken_mnemonic, ?_⟩
  split
  · exact nofun
  · exact List.forall_mem_append.mpr ⟨blanks _, fields⟩

end Instruction

/-- The lines of a text. -/
def lines (text : String) : List (List Char) :=
  text.toList.splitOn '\n'

theorem lines_listing {code : List Instruction} (some : code ≠ []) :
    lines (listing code) = code.mapIdx fun address instruction => (instruction.listing address).toList := by
  have texts : (code.mapIdx fun address instruction => instruction.listing address).map String.toList =
      code.mapIdx fun address instruction => (instruction.listing address).toList := by
    refine List.ext_getElem? fun address => ?_
    rw [List.getElem?_map, List.getElem?_mapIdx, List.getElem?_mapIdx, Option.map_map]
    rfl
  have newline : "\n".toList = ['\n'] := rfl
  rw [lines, listing, String.toList_intercalate, texts, newline]
  refine List.splitOn_intercalate '\n' ?_ (mt List.mapIdx_eq_nil_iff.mp some)
  intro line memLines mem
  obtain ⟨address, _, rfl⟩ := List.mem_mapIdx.mp memLines
  exact absurd (Instruction.blank_of_isSpace _ mem (by decide)) (by decide)

end PLZero
