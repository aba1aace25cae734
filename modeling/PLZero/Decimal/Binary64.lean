namespace PLZero

/-- A non-negative floating-point number of 53 significant bits: `significand * 2 ^ exponent`, or infinity. -/
inductive Binary64 where
  | finite (significand : Nat) (exponent : Int)
  | infinite
deriving DecidableEq, Repr

namespace Binary64

def leastExponent : Int := -1074

def greatestExponent : Int := 971

def zero : Binary64 := .finite 0 leastExponent

def twoTo (exponent : Nat) : Nat :=
  Nat.pow 2 exponent

def tenTo (exponent : Nat) : Nat :=
  Nat.pow 10 exponent

/-- A quotient rounded to the nearest integer, a half to the even one. -/
def roundedQuotient (num den : Nat) : Nat :=
  let quotient := num / den
  let twiceRest := 2 * (num % den)
  if twiceRest < den ∨ twiceRest = den ∧ quotient % 2 = 0 then quotient else quotient + 1

/-- The integer part of the binary logarithm of a positive fraction. -/
def binaryOrder (num den : Nat) : Int :=
  let guess : Int := num.log2 - den.log2
  if den * twoTo guess.toNat ≤ num * twoTo (-guess).toNat then guess else guess - 1

/-- The number nearest to a positive fraction, of two the one with an even significand. -/
def ofFraction (num den : Nat) : Binary64 :=
  let exponent := max (binaryOrder num den - 52) leastExponent
  let significand := roundedQuotient (num * twoTo (-exponent).toNat) (den * twoTo exponent.toNat)
  let (significand, exponent) :=
    if significand = twoTo 53 then (twoTo 52, exponent + 1) else (significand, exponent)
  if greatestExponent < exponent then .infinite else .finite significand exponent

/-- How many decimal digits a positive number has. -/
def digitCount (n : Nat) : Nat :=
  (Nat.toDigits 10 n).length

/-- The number nearest to `digits * 10 ^ exponent`. Where the decimal order alone decides, no power is computed. -/
def ofDecimal (digits : Nat) (exponent : Int) : Binary64 :=
  let order : Int := digitCount digits + exponent
  if digits = 0 ∨ order < -330 then zero
  else if 330 < order then .infinite
  else ofFraction (digits * tenTo exponent.toNat) (tenTo (-exponent).toNat)

end Binary64

end PLZero
