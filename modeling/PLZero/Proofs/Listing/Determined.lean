import PLZero.Proofs.Listing.Layout
import PLZero.Proofs.Recovery.Emitted

/-!
A listing tells the code. The fields of an instruction begin with a number, with blanks in front or not, and mnemonics
are free of both, so a line can be taken apart also where the columns run together. The fields that are not shown are
zero in the code of a compilation.
-/

namespace PLZero

/-- Whether a character may stand in a mnemonic. -/
def isMnemonic (c : Char) : Bool :=
  !(isNumeric c || c = ' ')

namespace Opcode

theorem isMnemonic_mnemonic (op : Opcode) : ∀ c ∈ op.mnemonic.toList, isMnemonic c := by
  have each : ∀ op ∈ all, op.mnemonic.toList.all isMnemonic := by decide
  exact List.all_eq_true.mp (each op op.mem_all)

theorem mnemonic_injective {op other : Opcode} (same : op.mnemonic.toList = other.mnemonic.toList) : op = other := by
  have each : ∀ op ∈ all, ∀ other ∈ all, op.mnemonic.toList = other.mnemonic.toList → op = other := by decide
  exact each op op.mem_all other other.mem_all same

end Opcode

namespace Instruction

variable {address : Nat} {first second : Instruction}

theorem isNumeric_fields (instruction : Instruction) :
    ∀ c ∈ ([' '].intercalate instruction.fieldTexts).head?, isNumeric c := by
  have number {digits : List Char} (rest : List Char) (some : digits ≠ []) (numeric : ∀ c ∈ digits, isNumeric c) :
      ∀ c ∈ (digits ++ rest).head?, isNumeric c := by
    obtain ⟨d, digits, rfl⟩ := List.exists_cons_of_ne_nil some
    rintro c ⟨⟩
    exact numeric d List.mem_cons_self
  rw [fieldTexts]
  cases instruction.operation.operands with
  | none => exact fun c mem => absurd mem (Option.not_mem_none c)
  | value =>
    rw [List.intercalate_singleton, ← List.append_nil (toString instruction.value).toList]
    exact number [] (toString_int_ne_nil _) (isNumeric_toString _)
  | levelAndValue =>
    rw [List.intercalate_cons_cons, List.append_assoc, List.append_assoc]
    exact number _ (isDigits_toString _).1.1 (isNumeric_toString_nat _)

/-- Where the mnemonic ends there is a blank, or the fields follow. -/
theorem fieldColumn_stops (address : Nat) (instruction : Instruction) :
    ∀ c ∈ (instruction.fieldColumn address).head?, ¬ isMnemonic c := by
  have stops {c : Char} (numeric : isNumeric c) : ¬ isMnemonic c := by
    rw [isMnemonic, numeric, Bool.true_or]
    decide
  rw [fieldColumn]
  split
  · exact fun c mem => absurd mem (Option.not_mem_none c)
  · cases 18 - instruction.reach address with
    | zero => exact fun c mem => stops (instruction.isNumeric_fields c mem)
    | succ count =>
      rintro c ⟨⟩
      decide

theorem eq_of_fields (sameOperation : first.operation = second.operation) (sameLevel : first.level = second.level)
    (sameValue : first.value = second.value) : first = second := by
  cases first
  cases second
  cases sameOperation
  cases sameLevel
  cases sameValue
  rfl

/-- Instructions for one opcode that show the same fields. -/
theorem eq_of_fieldTexts {op : Opcode} (firstTidy : first.IsTidy) (secondTidy : second.IsTidy)
    (isFirst : first.operation = .named op) (isSecond : second.operation = .named op)
    (same : first.fieldTexts = second.fieldTexts) : first = second := by
  have sameValue (same : (toString first.value).toList = (toString second.value).toList) :
      first.value = second.value := toString_int_injective same
  have sameLevel (same : (toString first.level.val).toList = (toString second.level.val).toList) :
      first.level = second.level := Fin.ext (toString_nat_injective same)
  have operands : (Operation.named op).operands = op.operands := rfl
  obtain ⟨firstLevel, firstValue⟩ := firstTidy.fields isFirst
  obtain ⟨secondLevel, secondValue⟩ := secondTidy.fields isSecond
  have noLevel (other : op.operands ≠ .levelAndValue) : first.level = second.level :=
    Fin.ext ((firstLevel other).trans (secondLevel other).symm)
  rw [fieldTexts, fieldTexts, isFirst, isSecond, operands] at same
  refine eq_of_fields (isFirst.trans isSecond.symm) ?_ ?_
  · cases uses : op.operands with
    | none => exact noLevel (by rw [uses]; decide)
    | value => exact noLevel (by rw [uses]; decide)
    | levelAndValue =>
      rw [uses] at same
      exact sameLevel (List.append_cancel_right (List.cons.inj same).1)
  · cases uses : op.operands with
    | none => exact (firstValue uses).trans (secondValue uses).symm
    | value =>
      rw [uses] at same
      exact sameValue (List.cons.inj same).1
    | levelAndValue =>
      rw [uses] at same
      exact sameValue (List.cons.inj (List.cons.inj same).2).1

/-- The fields behind a mnemonic are told by their column. -/
theorem fieldTexts_eq_of_fieldColumn (sameOperation : first.operation = second.operation)
    (same : first.fieldColumn address = second.fieldColumn address) : first.fieldTexts = second.fieldTexts := by
  have solid (instruction : Instruction) : ∀ text ∈ instruction.fieldTexts, ' ' ∉ text := fun text mem blank =>
    absurd ((instruction.isUnbroken_fieldTexts text mem).2 _ blank) (by decide)
  have reach : first.reach address = second.reach address := by rw [Instruction.reach, Instruction.reach, sameOperation]
  rw [fieldColumn, fieldColumn, sameOperation, reach] at same
  by_cases none : second.operation.operands = .none
  · rw [second.fieldTexts_eq_nil_iff.mpr none, first.fieldTexts_eq_nil_iff.mpr (sameOperation ▸ none)]
  · rw [if_neg none, if_neg none] at same
    have some := mt second.fieldTexts_eq_nil_iff.mp none
    have someFirst := mt first.fieldTexts_eq_nil_iff.mp (sameOperation ▸ none)
    rw [← List.splitOn_intercalate ' ' (solid first) someFirst, List.append_cancel_left same,
      List.splitOn_intercalate ' ' (solid second) some]

/-- A line tells its instruction. -/
theorem eq_of_listing (firstTidy : first.IsTidy) (secondTidy : second.IsTidy)
    (same : (first.listing address).toList = (second.listing address).toList) : first = second := by
  obtain ⟨op, isFirst, -⟩ := id firstTidy
  obtain ⟨other, isSecond, -⟩ := id secondTidy
  have firstName : first.operation.mnemonic = op.mnemonic := congrArg Operation.mnemonic isFirst
  have secondName : second.operation.mnemonic = other.mnemonic := congrArg Operation.mnemonic isSecond
  rw [toList_listing, toList_listing, firstName, secondName] at same
  have behind := List.tail_eq_of_cons_eq (List.tail_eq_of_cons_eq (List.append_cancel_left same))
  obtain ⟨firstAhead, firstBehind⟩ := takeWhile_row op.isMnemonic_mnemonic (first.fieldColumn_stops address)
  obtain ⟨secondAhead, secondBehind⟩ := takeWhile_row other.isMnemonic_mnemonic (second.fieldColumn_stops address)
  rw [behind] at firstAhead firstBehind
  obtain rfl := Opcode.mnemonic_injective (firstAhead.symm.trans secondAhead)
  exact eq_of_fieldTexts firstTidy secondTidy isFirst isSecond
    (fieldTexts_eq_of_fieldColumn (isFirst.trans isSecond.symm) (firstBehind.symm.trans secondBehind))

end Instruction

/-- No code but that without instructions has the empty listing. -/
theorem listing_ne_nil {code : List Instruction} (some : code ≠ []) : listing code ≠ listing [] := by
  obtain ⟨instruction, rest, rfl⟩ := List.exists_cons_of_ne_nil some
  intro same
  have empty : lines (listing []) = [[]] := rfl
  rw [← same, lines_listing some, List.mapIdx_cons, Instruction.toList_listing] at empty
  exact absurd (List.append_eq_nil_iff.mp (List.cons.inj empty).1).2 nofun

/-- A listing tells the code, if its instructions are tidy. -/
theorem eq_of_listing {first second : List Instruction} (firstTidy : ∀ instruction ∈ first, instruction.IsTidy)
    (secondTidy : ∀ instruction ∈ second, instruction.IsTidy) (same : listing first = listing second) :
    first = second := by
  by_cases none : first = []
  · subst none
    by_contra other
    exact listing_ne_nil (Ne.symm other) same.symm
  · have some : second ≠ [] := by
      rintro rfl
      exact listing_ne_nil none same
    have sameLines : first.mapIdx (fun address instruction => (instruction.listing address).toList) =
        second.mapIdx fun address instruction => (instruction.listing address).toList := by
      rw [← lines_listing none, ← lines_listing some, same]
    refine List.ext_getElem? fun address => ?_
    have sameLine := congrArg (·[address]?) sameLines
    simp only [List.getElem?_mapIdx] at sameLine
    cases atFirst : first[address]? with
    | none =>
      rw [atFirst] at sameLine
      exact (Option.map_eq_none_iff.mp sameLine.symm).symm
    | some instruction =>
      rw [atFirst, Option.map_some] at sameLine
      obtain ⟨other, atSecond, sameText⟩ := Option.map_eq_some_iff.mp sameLine.symm
      rw [atSecond, Instruction.eq_of_listing (firstTidy _ (List.mem_of_getElem? atFirst))
        (secondTidy _ (List.mem_of_getElem? atSecond)) sameText.symm]

/-- The listing of a compilation tells its code, also if there are errors. -/
theorem code_of_listing {depth otherDepth : Nat} {source other : String}
    (same : listing (compile depth source).code.toList = listing (compile otherDepth other).code.toList) :
    (compile depth source).code = (compile otherDepth other).code := by
  have tidy (depth : Nat) (source : String) : ∀ instruction ∈ (compile depth source).code.toList, instruction.IsTidy :=
    fun instruction mem => compile_tidy depth source instruction (Array.mem_toList_iff.mp mem)
  exact Array.toList_inj.mp (eq_of_listing (tidy depth source) (tidy otherDepth other) same)

/-- A program and another one with an error. -/
theorem code_of_listing_missing_period :
    listing (compile maxNesting "var x; begin x := -1 end.").code.toList =
        listing (compile maxNesting "var y; y := -1").code.toList ∧
      (compile maxNesting "var x; begin x := -1 end.").code = (compile maxNesting "var y; y := -1").code := by
  have same : listing (compile maxNesting "var x; begin x := -1 end.").code.toList =
      listing (compile maxNesting "var y; y := -1").code.toList := by decide +kernel
  exact ⟨same, code_of_listing same⟩

end PLZero
