import PLZero.Decimal.Binary64

namespace PLZero

/-- The decimal number `digits * 10 ^ exponent`. -/
structure Decimal where
  digits : Nat
  exponent : Int
deriving DecidableEq, Repr

namespace Decimal

/-- The least power of ten above a positive fraction. -/
def order (num den : Nat) : Int :=
  if den ≤ num then Binary64.digitCount (num / den)
  else
    let zeros := Binary64.digitCount (den / num) - 1
    if den ≤ num * Binary64.tenTo zeros then 1 - zeros else -zeros

/-- The decimal of the given exponent that is nearest to the fraction among those that round to `value`. It can only
be one of the two neighbours of the fraction; a tie goes to the even one. -/
def onGrid? (value : Binary64) (num den : Nat) (exponent : Int) : Option Decimal :=
  let num := num * Binary64.tenTo (-exponent).toNat
  let den := den * Binary64.tenTo exponent.toNat
  let lower := num / den
  let twiceRest := 2 * (num % den)
  let candidates :=
    if twiceRest < den ∨ twiceRest = den ∧ lower % 2 = 0 then [lower, lower + 1] else [lower + 1, lower]
  (candidates.find? fun digits => Binary64.ofDecimal digits exponent = value).map fun digits => ⟨digits, exponent⟩

/-- Drops up to `limit` zeros at the end of the digits. -/
def stripped : (limit : Nat) → Decimal → Decimal
  | 0, decimal => decimal
  | limit + 1, decimal =>
    if decimal.digits % 10 = 0 then stripped limit ⟨decimal.digits / 10, decimal.exponent + 1⟩ else decimal

/-- The decimal with the fewest digits that rounds to the positive number `significand * 2 ^ exponent`. Seventeen
digits always suffice. -/
def shortest (significand : Nat) (exponent : Int) : Decimal :=
  let num := significand * Binary64.twoTo exponent.toNat
  let den := Binary64.twoTo (-exponent).toNat
  let top := order num den
  let found := (List.range 17).findSome? fun (count : Nat) =>
    onGrid? (.finite significand exponent) num den (top - count - 1)
  stripped 17 (found.getD ⟨num * Binary64.tenTo (17 - top).toNat / (den * Binary64.tenTo (top - 17).toNat), top - 17⟩)

/-- Digits with a decimal point, where the first digit stands for the power `top - 1` of ten. -/
def positional (digits : List Char) (top : Int) : List Char :=
  if top ≤ 0 then '0' :: '.' :: List.replicate (-top).toNat '0' ++ digits
  else if digits.length ≤ top then digits ++ List.replicate (top.toNat - digits.length) '0' ++ ['.', '0']
  else digits.take top.toNat ++ '.' :: digits.drop top.toNat

/-- Digits with an exponent, which has a sign and at least two digits. -/
def scientific (digits : List Char) (power : Int) : List Char :=
  let mantissa := match digits with
    | first :: second :: rest => first :: '.' :: second :: rest
    | _ => digits
  let magnitude := Nat.toDigits 10 power.natAbs
  mantissa ++ 'e' :: (if power < 0 then '-' else '+') ::
    (if magnitude.length < 2 then '0' :: magnitude else magnitude)

/-- Positional from a ten-thousandth up to below ten to the sixteenth, with an exponent elsewhere. -/
def render (decimal : Decimal) : String :=
  let digits := Nat.toDigits 10 decimal.digits
  let top := digits.length + decimal.exponent
  String.ofList (if -4 < top ∧ top ≤ 16 then positional digits top else scientific digits (top - 1))

end Decimal

/-- The shortest decimal text that rounds to the number. -/
def Binary64.render : Binary64 → String
  | .finite 0 _ => "0.0"
  | .finite significand exponent => (Decimal.shortest significand exponent).render
  | .infinite => "inf"

end PLZero
