import PLZero.Text.Letter
import PLZero.Text.Numeral
import PLZero.Token

namespace PLZero

/-- An integer literal with more digits than a literal may have. -/
structure OverlongInteger where
  digits : Nat
deriving DecidableEq, Repr

def OverlongInteger.message (overlong : OverlongInteger) : String :=
  s!"Exceeds the limit ({Text.integerDigitLimit} digits) for integer string conversion: " ++
    s!"value has {overlong.digits} digits; use sys.set_int_max_str_digits() to increase the limit"

/-- The value of a row of ASCII digits. -/
def digitsValue (digits : List Char) : Nat :=
  digits.foldl (fun value c => 10 * value + (c.toNat - '0'.toNat)) 0

/-- The exponent part of a number: a letter, perhaps a sign, and digits. -/
structure Exponent where
  letter : Char
  sign : Option Char
  digits : List Char
deriving DecidableEq, Repr

namespace Exponent

def text (exponent : Exponent) : List Char :=
  exponent.letter :: exponent.sign.toList ++ exponent.digits

def value (exponent : Exponent) : Int :=
  if exponent.sign = some '-' then -digitsValue exponent.digits else digitsValue exponent.digits

/-- Without digits there is no exponent: a letter that follows a number then begins a word. -/
def scan? : List Char → Option Exponent
  | letter :: c :: rest =>
    if letter = 'e' ∨ letter = 'E' then
      let (sign, digits) :=
        if c = '+' ∨ c = '-' then (some c, rest.takeWhile Char.isDigit)
        else (none, (c :: rest).takeWhile Char.isDigit)
      if digits = [] then none else some ⟨letter, sign, digits⟩
    else none
  | _ => none

end Exponent

/-- A number as it is written: digits, perhaps a point and digits, perhaps an exponent. -/
structure Numeral where
  whole : List Char
  fraction : Option (List Char)
  exponent : Option Exponent
deriving DecidableEq, Repr

namespace Numeral

def fractionText : Option (List Char) → List Char
  | some digits => '.' :: digits
  | none => []

def text (numeral : Numeral) : List Char :=
  numeral.whole ++ fractionText numeral.fraction ++ (numeral.exponent.map Exponent.text).getD []

/-- A point with no digit behind it is no part of the number. -/
def scanFraction? : List Char → Option (List Char)
  | '.' :: rest =>
    let digits := rest.takeWhile Char.isDigit
    if digits = [] then none else some digits
  | _ => none

def scan (source : List Char) : Numeral :=
  let whole := source.takeWhile Char.isDigit
  let rest := source.dropWhile Char.isDigit
  let fraction := scanFraction? rest
  ⟨whole, fraction, Exponent.scan? (rest.drop (fractionText fraction).length)⟩

def realValue (numeral : Numeral) : Binary64 :=
  let fraction := numeral.fraction.getD []
  .ofDecimal (digitsValue (numeral.whole ++ fraction))
    ((numeral.exponent.map Exponent.value).getD 0 - fraction.length)

/-- A number without fraction and exponent is an integer. -/
def token (numeral : Numeral) : Except OverlongInteger Token :=
  if numeral.fraction.isSome ∨ numeral.exponent.isSome then .ok (.real numeral.realValue)
  else if Text.integerDigitLimit < numeral.whole.length then .error ⟨numeral.whole.length⟩
  else .ok (.integer (digitsValue numeral.whole))

end Numeral

def isWordStart (c : Char) : Bool :=
  Text.isLetter c || c = '_'

def isWordPart (c : Char) : Bool :=
  Text.isLetter c || Text.isNumeral c || c = '_'

/-- What a word stands for: a keyword only if the whole word is one. -/
def wordToken (word : List Char) : Token :=
  let name := String.ofList word
  match FixedKind.keyword? name with
  | some keyword => .fixed keyword
  | none => .identifier name

/-- The operators and punctuation marks as the lexer reads them, each before every mark that it begins with. -/
def marks : List (List Char × Token) :=
  [([':', '='], .fixed .assign), (['=', '='], .doubleEqual), (['!', '='], .fixed .ne), (['<', '='], .fixed .le),
    (['<', '>'], .lessGreater), (['<', '<'], .fixed .lshift), (['>', '='], .fixed .ge), (['>', '>'], .fixed .rshift),
    (['&', '&'], .fixed .and), (['|', '|'], .fixed .or),
    (['='], .fixed .eq), (['!'], .fixed .not), (['<'], .fixed .lt), (['>'], .fixed .gt), (['&'], .fixed .ampersand),
    (['|'], .fixed .pipe), (['('], .fixed .lparen), ([')'], .fixed .rparen), ([','], .fixed .comma),
    ([';'], .fixed .semicolon), (['.'], .fixed .period), (['+'], .fixed .plus), (['-'], .fixed .minus),
    (['*'], .fixed .star), (['/'], .fixed .slash), (['%'], .fixed .percent), (['^'], .fixed .caret),
    (['~'], .fixed .tilde)]

/-- A piece of the source with the token it is. -/
structure Lexeme where
  text : List Char
  token : Except OverlongInteger Token

/-- The longest lexeme at the front of a text that begins with `first`, which is no blank. A character that begins
no number, word or mark stands alone. -/
def Lexeme.scan (first : Char) (rest : List Char) : Lexeme :=
  if first.isDigit then
    let numeral := Numeral.scan (first :: rest)
    ⟨numeral.text, numeral.token⟩
  else if isWordStart first then
    let word := (first :: rest).takeWhile isWordPart
    ⟨word, .ok (wordToken word)⟩
  else
    match marks.find? fun mark => mark.1.isPrefixOf (first :: rest) with
    | some (text, token) => ⟨text, .ok token⟩
    | none => ⟨[first], .ok (.unknown first)⟩

end PLZero
