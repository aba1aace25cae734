import PLZero.Text.Numeral

namespace PLZero.Text

/-- White space beyond ASCII, as of Unicode 14. -/
def spaceRanges : CodeRanges :=
  [(0x85, 0x85), (0xA0, 0xA0), (0x1680, 0x1680), (0x2000, 0x200A), (0x2028, 0x2029), (0x202F, 0x202F),
   (0x205F, 0x205F), (0x3000, 0x3000)]

def isSpace (c : Char) : Bool :=
  c ∈ [' ', '\t', '\n', '\x0b', '\x0c', '\r'] || spaceRanges.holds c

def withoutOuterSpaces (text : List Char) : List Char :=
  ((text.dropWhile isSpace).reverse.dropWhile isSpace).reverse

/-- The digits of a number, between any two of which there may be an underscore. -/
def separatedDigits? : List Char → Option (List Nat)
  | [] => none
  | [c] => (decimalDigit? c).map ([·])
  | c :: '_' :: rest => do return (← decimalDigit? c) :: (← separatedDigits? rest)
  | c :: rest => do return (← decimalDigit? c) :: (← separatedDigits? rest)

def natural? (text : List Char) : Option Nat :=
  (separatedDigits? text).bind fun digits =>
    if digits.length ≤ integerDigitLimit then some (digits.foldl (fun value digit => 10 * value + digit) 0) else none

/-- The integer that a text spells in digits of any scripts, a sign in front and white space around it. -/
def integer? (text : String) : Option Int :=
  match withoutOuterSpaces text.toList with
  | '-' :: digits => (natural? digits).map fun value => -value
  | '+' :: digits => (natural? digits).map Int.ofNat
  | digits => (natural? digits).map Int.ofNat

/-- An integer with more digits than are written. -/
structure UnwritableInteger where
  value : Int
deriving DecidableEq, Repr

def UnwritableInteger.message (_ : UnwritableInteger) : String :=
  s!"Exceeds the limit ({integerDigitLimit} digits) for integer string conversion; " ++
    "use sys.set_int_max_str_digits() to increase the limit"

def isWritable (value : Int) : Bool :=
  (toString value.natAbs).length ≤ integerDigitLimit

/-- What is told with some integers in it, unless one of them cannot be written. -/
def telling {α : Type} (integers : List Int) (told : α) : Except UnwritableInteger α :=
  match integers.find? fun value => !isWritable value with
  | some value => .error ⟨value⟩
  | none => .ok told

/-- Whether a text looks like a number below zero: a minus sign, then digits, or a point and digits with or without
digits in front. One line feed may follow. -/
def isNegativeNumber (text : String) : Bool :=
  let isDecimal (c : Char) : Bool := (decimalDigit? c).isSome
  match text.toList with
  | '-' :: rest =>
    let rest := if rest.getLast? = some '\n' then rest.dropLast else rest
    match rest.dropWhile isDecimal with
    | [] => rest ≠ []
    | '.' :: places => places ≠ [] && places.all isDecimal
    | _ => false
  | _ => false

end PLZero.Text
