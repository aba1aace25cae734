import Mathlib.Data.Int.Bitwise
import PLZero.Arithmetic

namespace PLZero

/-- The operators in front of an operand as arithmetic tells them, with numbers of 32 bits that wrap. -/
def UnaryOp.value (a : Int) : UnaryOp → Int
  | not => if a = 0 then 1 else 0
  | neg => (-a).bmod (2 ^ 32)
  | comp => -a - 1

/-- The operators between operands as arithmetic tells them. Division rounds toward zero and leaves a remainder with the
sign of the dividend; nothing is divided by zero. A shift goes as far as its count tells in the last five bits. -/
def BinaryOp.value? (a b : Int) : BinaryOp → Option Int
  | add => some ((a + b).bmod (2 ^ 32))
  | sub => some ((a - b).bmod (2 ^ 32))
  | mul => some ((a * b).bmod (2 ^ 32))
  | div => if b = 0 then none else some ((a.tdiv b).bmod (2 ^ 32))
  | rem => if b = 0 then none else some ((a.tmod b).bmod (2 ^ 32))
  | bor => some (Int.lor a b)
  | band => some (Int.land a b)
  | bxor => some (Int.xor a b)
  | lshift => some ((a * 2 ^ (b % 32).toNat).bmod (2 ^ 32))
  | rshift => some (a / 2 ^ (b % 32).toNat)
  | lt => some (if a < b then 1 else 0)
  | lte => some (if a ≤ b then 1 else 0)
  | equ => some (if a = b then 1 else 0)
  | gte => some (if a ≥ b then 1 else 0)
  | gt => some (if a > b then 1 else 0)
  | neq => some (if a = b then 0 else 1)
  | lor => some (if a = 0 ∧ b = 0 then 0 else 1)
  | land => some (if a = 0 ∨ b = 0 then 0 else 1)

theorem xor_and_eq_ldiff (m n : Nat) : m ^^^ (m &&& n) = m.ldiff n := by
  refine Nat.eq_of_testBit_eq fun i => ?_
  rw [Nat.testBit_xor, Nat.testBit_and, Nat.testBit_ldiff]
  cases m.testBit i <;> cases n.testBit i <;> rfl

theorem bitAnd_eq_land (a b : Int) : bitAnd a b = Int.land a b := by
  cases a <;> cases b <;> simp [bitAnd, Int.land, xor_and_eq_ldiff]

theorem bitOr_eq_lor (a b : Int) : bitOr a b = Int.lor a b := by
  rw [bitOr, bitAnd_eq_land]
  cases a <;> cases b <;> rfl

theorem or_ldiff_and_eq_xor (m n : Nat) : (m ||| n).ldiff (m &&& n) = m ^^^ n := by
  refine Nat.eq_of_testBit_eq fun i => ?_
  rw [Nat.testBit_xor, Nat.testBit_ldiff, Nat.testBit_or, Nat.testBit_and]
  cases m.testBit i <;> cases n.testBit i <;> rfl

theorem ldiff_or_ldiff_eq_xor (m n : Nat) : m.ldiff n ||| n.ldiff m = m ^^^ n := by
  refine Nat.eq_of_testBit_eq fun i => ?_
  rw [Nat.testBit_xor, Nat.testBit_or, Nat.testBit_ldiff, Nat.testBit_ldiff]
  cases m.testBit i <;> cases n.testBit i <;> rfl

theorem bitXor_eq_xor (a b : Int) : bitXor a b = Int.xor a b := by
  rw [bitXor, bitAnd_eq_land, bitOr_eq_lor, bitAnd_eq_land]
  cases a with
  | ofNat m =>
    cases b with
    | ofNat n => exact congrArg Int.ofNat (or_ldiff_and_eq_xor m n)
    | negSucc n => exact congrArg Int.negSucc ((Nat.or_comm _ _).trans (ldiff_or_ldiff_eq_xor m n))
  | negSucc m =>
    cases b with
    | ofNat n => exact congrArg Int.negSucc (ldiff_or_ldiff_eq_xor m n)
    | negSucc n => exact congrArg Int.ofNat (or_ldiff_and_eq_xor m n)

/-- The remainder belongs to the quotient. -/
theorem remainder?_eq (a b : Int) : remainder? a b = if b = 0 then none else some (a.tmod b) := by
  unfold remainder? quotient?
  split
  · rfl
  · rw [Option.map_some, Int.tmod_def]

theorem UnaryOp.apply_eq_value (a : Int) (op : UnaryOp) : op.apply a = op.value a := by
  cases op with
  | not => simp [apply, value, truth]
  | neg => rfl
  | comp =>
    rw [apply, value]
    cases a with
    | ofNat m =>
      refine (Int.negSucc_eq m).trans ?_
      rw [Int.ofNat_eq_natCast]
      omega
    | negSucc m =>
      show (m : Int) = -Int.negSucc m - 1
      omega

theorem BinaryOp.apply?_eq_value? (a b : Int) (op : BinaryOp) : op.apply? a b = op.value? a b := by
  cases op with
  | add | sub | mul => rfl
  | div =>
    simp only [value?, BinaryOp.apply?, quotient?]
    split <;> rfl
  | rem =>
    simp only [value?, BinaryOp.apply?, remainder?_eq]
    split <;> rfl
  | bor => rw [value?, BinaryOp.apply?, bitOr_eq_lor]
  | band => rw [value?, BinaryOp.apply?, bitAnd_eq_land]
  | bxor => rw [value?, BinaryOp.apply?, bitXor_eq_xor]
  | lshift => rw [value?, BinaryOp.apply?, Int.shiftLeft_eq]; rfl
  | rshift => rw [value?, BinaryOp.apply?, Int.shiftRight_eq_div_pow]; rfl
  | lt | lte | equ | gte | gt | neq => simp [value?, BinaryOp.apply?, truth]
  | lor | land => by_cases ha : a = 0 <;> by_cases hb : b = 0 <;> simp [value?, BinaryOp.apply?, truth, ha, hb]

/-- The instruction for odd numbers. -/
theorem bitAnd_one (a : Int) : bitAnd a 1 = a % 2 := by
  cases a with
  | ofNat m => exact congrArg Int.ofNat (Nat.and_one_is_mod m)
  | negSucc m =>
    have bit : (1 &&& m) = m % 2 := (Nat.and_comm 1 m).trans (Nat.and_one_is_mod m)
    show ((1 ^^^ (1 &&& m) : Nat) : Int) = Int.negSucc m % 2
    rw [bit, Int.negSucc_eq]
    rcases Nat.mod_two_eq_zero_or_one m with even | odd
    · rw [even, Nat.xor_zero]
      omega
    · rw [odd, Nat.xor_self]
      omega

end PLZero
