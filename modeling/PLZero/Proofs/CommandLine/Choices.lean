import PLZero.CommandLine.Response
import PLZero.Proofs.Listing.Layout

/-!
What can be chosen on a command line besides the source. Each choice can be spelled by arguments, switches by their
letters and settings by their words, and those arguments are read as the job that was chosen.
-/

namespace PLZero

namespace Text

variable {text : List Char}

theorem withoutOuterSpaces_eq (solid : ∀ c ∈ text, isSpace c = false) : withoutOuterSpaces text = text := by
  have all {row : List Char} (same : ∀ c ∈ row, isSpace c = false) : row.dropWhile isSpace = row := by
    cases row with
    | nil => rfl
    | cons first rest => exact List.dropWhile_cons_of_neg (by simp [same first List.mem_cons_self])
  rw [withoutOuterSpaces, all solid, all fun c mem => solid c (List.mem_reverse.mp mem), List.reverse_reverse]

theorem decimalDigit?_of_isDigit {c : Char} (isDigit : c.isDigit) : decimalDigit? c = some (c.toNat - '0'.toNat) :=
  if_pos isDigit

/-- Digits without underscores are read one by one. -/
theorem separatedDigits?_of_isDigits (isDigits : IsDigits text) :
    separatedDigits? text = some (text.map fun c => c.toNat - '0'.toNat) := by
  obtain ⟨some, digits⟩ := isDigits
  induction text with
  | nil => exact absurd rfl some
  | cons first rest ih =>
    obtain ⟨isDigit, others⟩ := List.forall_mem_cons.mp digits
    have first_eq := decimalDigit?_of_isDigit isDigit
    cases rest with
    | nil => simp [separatedDigits?, first_eq]
    | cons next rest =>
      have noUnderscore : next ≠ '_' := fun same => absurd (others next List.mem_cons_self) (same ▸ by decide)
      have split : separatedDigits? (first :: next :: rest) = (do
          return (← decimalDigit? first) :: (← separatedDigits? (next :: rest))) := by
        rw [separatedDigits?]
        · exact List.cons_ne_nil _ _
        · exact fun _ same => noUnderscore (List.cons.inj same).1
      rw [split, first_eq, ih (List.cons_ne_nil _ _) others]
      rfl

theorem natural?_toString {value : Nat} (short : (toString value).length ≤ integerDigitLimit) :
    natural? (toString value).toList = some value := by
  obtain ⟨isDigits, spelled⟩ := isDigits_toString value
  rw [natural?, separatedDigits?_of_isDigits isDigits, Option.bind_some, List.length_map, String.length_toList,
    if_pos short, List.foldl_map]
  exact congrArg some spelled

/-- An integer is read back from its digits and its sign, if it does not have too many digits. -/
theorem integer?_toString {value : Int} (short : (toString value.natAbs).length ≤ integerDigitLimit) :
    integer? (toString value) = some value := by
  have solid : ∀ c ∈ (toString value).toList, isSpace c = false :=
    fun c mem => isSpace_of_isNumeric (isNumeric_toString value c mem)
  have read := natural?_toString short
  rw [integer?, withoutOuterSpaces_eq solid]
  cases value with
  | ofNat value =>
    have digits : (toString (Int.ofNat value)).toList = (toString value).toList := rfl
    have unsigned := (isDigits_toString value).1.2
    rw [digits]
    split
    · next starts => exact absurd (unsigned '-' (starts ▸ List.mem_cons_self)) (by decide)
    · next starts => exact absurd (unsigned '+' (starts ▸ List.mem_cons_self)) (by decide)
    · exact congrArg (Option.map Int.ofNat) read
  | negSucc value =>
    rw [Int.natAbs_negSucc] at read
    rw [toList_negSucc]
    simp only [read, Option.bind_eq_bind, Option.bind_some, Option.pure_def, Option.map_some]
    rfl

/-- A minus sign and digits look like a number below zero. -/
theorem isNegativeNumber_of_isDigits {number : String} (spelled : number.toList = '-' :: text)
    (isDigits : IsDigits text) : isNegativeNumber number = true := by
  obtain ⟨nonempty, digits⟩ := isDigits
  have noLineEnd : text.getLast? ≠ some '\n' := fun ends =>
    absurd (digits '\n' (List.mem_of_getLast? ends)) (by decide)
  have decimal : text.dropWhile (fun c => (decimalDigit? c).isSome) = [] :=
    List.dropWhile_eq_nil_iff.mpr fun c mem => by rw [decimalDigit?_of_isDigit (digits c mem)]; rfl
  simp only [isNegativeNumber, spelled, if_neg noLineEnd, decimal]
  exact decide_eq_true nonempty

end Text

namespace CommandLine

/-- Texts that are operands whatever they stand behind: they do not begin like options. -/
def IsOperand (text : String) : Prop :=
  text = standardInput ∨ text.toList.head? ≠ some '-'

/-- A switch that is given, by its letter. -/
def Switch.spelled (switch : Switch) (given : Bool) : List String :=
  if given then [String.ofList ['-', switch.letter]] else []

/-- A setting that is given, by its word with an integer behind it. -/
def Setting.spelled (setting : Setting) (value : Option Int) : List String :=
  value.toList.flatMap fun number => [setting.word, toString number]

/-- What can be chosen besides the source: whether the code is printed, whether the program is only compiled, the number
of words of the stack, and the number of cycles. -/
structure Choice where
  disassemble : Bool
  noRun : Bool
  stackSize : Option Int
  maxCycles : Option Int
deriving DecidableEq, Repr

namespace Choice

def arguments (choice : Choice) (source : String) : List String :=
  Switch.disassemble.spelled choice.disassemble ++ (Switch.noRun.spelled choice.noRun ++
    (Setting.stackSize.spelled choice.stackSize ++ (Setting.maxCycles.spelled choice.maxCycles ++ [source])))

def job (choice : Choice) : Job where
  disassemble := choice.disassemble
  noRun := choice.noRun
  stackSize := some (choice.stackSize.getD defaultStackSize)
  maxCycles := choice.maxCycles.map some

end Choice

/-- What the arguments ask for if those in front of them have been read. -/
def Reading.readTexts (reading : Reading) (texts : List String) : Except Stop (String × Job) :=
  match Argument.ofTexts texts with
  | .error error => .error (.error error)
  | .ok arguments => do (← reading.read arguments).finish

theorem readArguments_eq_readTexts (texts : List String) : readArguments texts = Reading.readTexts {} texts := rfl

/-- The letters of switches are no digits. -/
theorem Switch.ofLetter?_of_isDigit {c : Char} (isDigit : c.isDigit) : ofLetter? c = none := by
  have letters : ∀ switch ∈ all, switch.letter.isDigit = false := by decide
  refine List.find?_eq_none.mpr fun switch mem same => ?_
  have isLetter := letters switch mem
  rw [of_decide_eq_true same, isDigit] at isLetter
  cases isLetter

namespace Argument

theorem ofTexts_cons {text : String} {argument : Argument} (other : text ≠ "--") (looks : ofText text = .ok argument)
    (rest : List String) : ofTexts (text :: rest) = (ofTexts rest).map (argument :: ·) := by
  rw [ofTexts, looks]
  · cases ofTexts rest <;> rfl
  · exact other

theorem ofText_of_isOperand {text : String} (isOperand : IsOperand text) :
    text ≠ "--" ∧ ofText text = .ok (operand text) := by
  rcases isOperand with rfl | noDash
  · exact ⟨by decide, rfl⟩
  · refine ⟨fun same => noDash (same ▸ rfl), ?_⟩
    rw [ofText]
    split
    · next starts => exact absurd (congrArg List.head? starts) noDash
    · next starts => exact absurd (congrArg List.head? starts) noDash
    · rfl

/-- An integer is an operand, also one below zero, as no option has a digit for its letter. -/
theorem ofText_toString (value : Int) :
    toString value ≠ "--" ∧ ofText (toString value) = .ok (operand (toString value)) := by
  cases value with
  | ofNat value =>
    refine ofText_of_isOperand (.inr fun starts => ?_)
    have digits : (toString (Int.ofNat value)).toList = (toString value).toList := rfl
    rw [digits] at starts
    exact absurd ((isDigits_toString value).1.2 '-' (List.mem_of_head? starts)) (by decide)
  | negSucc value =>
    obtain ⟨first, rest, digits⟩ := List.exists_cons_of_ne_nil (isDigits_toString (value + 1)).1.1
    have areDigits := (isDigits_toString (value + 1)).1
    have spelled := toList_negSucc value
    rw [digits] at areDigits spelled
    have isDigit := areDigits.2 first List.mem_cons_self
    have noDash : first ≠ '-' := fun same => absurd isDigit (same ▸ by decide)
    refine ⟨fun same => ?_, ?_⟩
    · rw [same] at spelled
      exact noDash (List.cons.inj (List.cons.inj spelled).2).1.symm
    · have looks : Text.isNegativeNumber (toString (Int.negSucc value)) = true :=
        Text.isNegativeNumber_of_isDigits spelled areDigits
      rw [ofText, spelled]
      split
      · next starts => exact absurd (List.cons.inj (List.cons.inj starts).2).1 noDash
      · next starts =>
        obtain ⟨rfl, rfl⟩ := List.cons.inj (List.cons.inj starts).2
        rw [Switch.ofLetter?_of_isDigit isDigit, unnamed, looks]
        rfl
      · next others => exact absurd rfl (others _ _)

end Argument

namespace Reading

variable (reading : Reading) (rest : List String)

/-- A setting with its value, if it is given. -/
def withSetting (reading : Reading) : Setting → Option Int → Reading
  | _, none => reading
  | .stackSize, some value => { reading with job.stackSize := some value }
  | .maxCycles, some value => { reading with job.maxCycles := some (some value) }

theorem readTexts_switch {switch : Switch} {after : Reading} {given : Bool}
    (turned : given → reading.turnOn switch = .ok after) (same : !given → after = reading) :
    reading.readTexts (switch.spelled given ++ rest) = after.readTexts rest := by
  cases given with
  | false => rw [same rfl]; rfl
  | true =>
    have looks : Argument.ofText (String.ofList ['-', switch.letter]) = .ok (.letter switch none) := by
      cases switch <;> rfl
    have noSeparator : String.ofList ['-', switch.letter] ≠ "--" := by cases switch <;> decide
    rw [Switch.spelled, if_pos rfl, List.singleton_append, readTexts, Argument.ofTexts_cons noSeparator looks,
      readTexts]
    cases Argument.ofTexts rest with
    | error error => rfl
    | ok arguments =>
      simp only [Except.map, read, turned rfl]
      rfl

theorem readTexts_setting (setting : Setting) {value : Option Int}
    (short : ∀ number ∈ value, (toString number.natAbs).length ≤ Text.integerDigitLimit) :
    reading.readTexts (setting.spelled value ++ rest) = (reading.withSetting setting value).readTexts rest := by
  cases value with
  | none => cases setting <;> rfl
  | some number =>
    have word : setting.word ≠ "--" ∧ Argument.ofText setting.word = .ok (.word (.setting setting) none) := by
      cases setting <;> exact ⟨by decide, by decide⟩
    obtain ⟨noSeparator, operand⟩ := Argument.ofText_toString number
    have assigned : reading.assign setting (toString number) = .ok (reading.withSetting setting (some number)) := by
      have isValue : SettingValue.ofText? (toString number) = some (some number) := by
        rw [SettingValue.ofText?.eq_def, if_neg noSeparator, Text.integer?_toString (short number rfl)]
        rfl
      cases setting <;> simp only [assign, isValue] <;> rfl
    change reading.readTexts (setting.word :: toString number :: rest) = _
    rw [readTexts, Argument.ofTexts_cons word.1 word.2, Argument.ofTexts_cons noSeparator operand, readTexts]
    cases Argument.ofTexts rest with
    | error error => rfl
    | ok arguments =>
      simp only [Except.map, read, assigned]
      rfl

theorem readTexts_source {source : String} (isOperand : IsOperand source) (first : reading.source = none)
    (accepted : reading.unrecognized = []) : reading.readTexts [source] = .ok (source, reading.job) := by
  obtain ⟨noSeparator, operand⟩ := Argument.ofText_of_isOperand isOperand
  rw [readTexts, Argument.ofTexts_cons noSeparator operand]
  simp only [Argument.ofTexts, Except.map, read, first]
  simp only [bind, Except.bind, finish, accepted]

end Reading

/-- Whatever is chosen, the arguments for it are read as the job that was chosen. -/
theorem readArguments_arguments (choice : Choice) {source : String} (isOperand : IsOperand source)
    (shortSize : ∀ number ∈ choice.stackSize, (toString number.natAbs).length ≤ Text.integerDigitLimit)
    (shortLimit : ∀ number ∈ choice.maxCycles, (toString number.natAbs).length ≤ Text.integerDigitLimit) :
    readArguments (choice.arguments source) = .ok (source, choice.job) := by
  obtain ⟨disassemble, noRun, stackSize, maxCycles⟩ := choice
  have first : ∀ rest, Reading.readTexts {} (Switch.disassemble.spelled disassemble ++ rest) =
      Reading.readTexts { job := { disassemble } } rest :=
    fun rest => Reading.readTexts_switch _ rest (by rintro rfl; rfl) (by simp +contextual)
  have second : ∀ rest, Reading.readTexts { job := { disassemble } } (Switch.noRun.spelled noRun ++ rest) =
      Reading.readTexts { job := { disassemble, noRun } } rest :=
    fun rest => Reading.readTexts_switch _ rest (by rintro rfl; rfl) (by simp +contextual)
  rw [readArguments_eq_readTexts, Choice.arguments, first, second, Reading.readTexts_setting _ _ _ shortSize,
    Reading.readTexts_setting _ _ _ shortLimit, Reading.readTexts_source _ isOperand]
  · cases stackSize <;> cases maxCycles <;> rfl
  · cases stackSize <;> cases maxCycles <;> rfl
  · cases stackSize <;> cases maxCycles <;> rfl

end CommandLine

end PLZero
