namespace PLZero

/-- The machine word that an integer is wrapped to: of 32 bits, signed. -/
def toWord (value : Int) : Int :=
  value.bmod 0x100000000

def leastWord : Int := -0x80000000

def greatestWord : Int := 0x7FFFFFFF

/-- The conjunction of two integers bit by bit, a negative one being an endless row of ones in front. -/
def bitAnd : Int → Int → Int
  | .ofNat m, .ofNat n => .ofNat (m &&& n)
  | .ofNat m, .negSucc n => .ofNat (m ^^^ (m &&& n))
  | .negSucc m, .ofNat n => .ofNat (n ^^^ (n &&& m))
  | .negSucc m, .negSucc n => .negSucc (m ||| n)

def bitOr (a b : Int) : Int :=
  ~~~(bitAnd (~~~a) (~~~b))

def bitXor (a b : Int) : Int :=
  bitAnd (bitOr a b) (~~~(bitAnd a b))

/-- A quotient rounded toward zero. -/
def quotient? (a b : Int) : Option Int :=
  if b = 0 then none else some (a.tdiv b)

/-- The remainder that belongs to `quotient?`. It takes the sign of the dividend. -/
def remainder? (a b : Int) : Option Int :=
  (quotient? a b).map fun quotient => a - b * quotient

/-- How far a shift by any integer goes. -/
def shiftDistance (count : Int) : Nat :=
  (count % 32).toNat

end PLZero
