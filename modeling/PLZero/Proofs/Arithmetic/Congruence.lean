import Mathlib.Algebra.Order.Ring.Abs
import Mathlib.Data.Int.ModEq
import PLZero.Proofs.Arithmetic.Operators
import PLZero.Proofs.Arithmetic.Words
import PLZero.Proofs.Machine.Calculations

/-!
Arithmetic with integers of any size. What is wrapped depends on the operands modulo `2 ^ 32` only, and a division is
told by its remainder.
-/

namespace PLZero

variable {a b c d q r v w : Int}

theorem toWord_modEq (v : Int) : toWord v ≡ v [ZMOD 2 ^ 32] :=
  Int.bmod_emod

/-- A word is the only one that is congruent to an integer. -/
theorem eq_toWord_of_isWord (isWord : IsWord w) (same : w ≡ v [ZMOD 2 ^ 32]) : w = toWord v := by
  obtain ⟨lower, upper⟩ := isWord
  obtain ⟨factor, difference⟩ := same.symm.dvd
  refine ((Int.bmod_eq_iff (by decide)).mpr ⟨?_, ?_, factor, difference⟩).symm
  · exact lower
  · exact Int.lt_of_le_of_lt upper (by decide)

theorem toWord_of_isWord (isWord : IsWord w) : toWord w = w :=
  (eq_toWord_of_isWord isWord rfl).symm

theorem toWord_congr (same : v ≡ w [ZMOD 2 ^ 32]) : toWord v = toWord w :=
  eq_toWord_of_isWord (.toWord v) ((toWord_modEq v).trans same)

/-- The distance of a shift is told by the count modulo `2 ^ 32`. -/
theorem shiftDistance_congr (same : v ≡ w [ZMOD 2 ^ 32]) : shiftDistance v = shiftDistance w :=
  congrArg Int.toNat (same.of_dvd (by decide) : v ≡ w [ZMOD 32])

/-- The operators between operands that wrap, division apart. -/
def BinaryOp.wrapping : List BinaryOp :=
  [add, sub, mul, lshift]

theorem BinaryOp.apply?_congr (first : a ≡ c [ZMOD 2 ^ 32]) (second : b ≡ d [ZMOD 2 ^ 32]) {op : BinaryOp}
    (wraps : op ∈ wrapping) : op.apply? a b = op.apply? c d := by
  have cases : op = add ∨ op = sub ∨ op = mul ∨ op = lshift := by simpa [wrapping] using wraps
  rcases cases with rfl | rfl | rfl | rfl
  · exact congrArg some (toWord_congr (first.add second))
  · exact congrArg some (toWord_congr (first.sub second))
  · exact congrArg some (toWord_congr (first.mul second))
  · refine congrArg some (toWord_congr ?_)
    rw [shiftDistance_congr second, Int.shiftLeft_eq, Int.shiftLeft_eq]
    exact first.mul_right _

theorem UnaryOp.apply_neg_congr (same : v ≡ w [ZMOD 2 ^ 32]) : neg.apply v = neg.apply w :=
  toWord_congr same.neg

/-- A remainder of a division by `b`: smaller than `b`, and zero or with the sign of what is divided. -/
structure IsRemainder (a b r : Int) : Prop where
  small : |r| < |b|
  sign : r = 0 ∨ r.sign = a.sign

theorem isRemainder_tmod (a : Int) (nonzero : b ≠ 0) : IsRemainder a b (a.tmod b) := by
  refine ⟨?_, ?_⟩
  · rw [← Int.natCast_natAbs, ← Int.natCast_natAbs, Int.natAbs_tmod]
    exact_mod_cast Nat.mod_lt _ (Int.natAbs_pos.mpr nonzero)
  · rw [Int.sign_tmod]
    by_cases divides : b ∣ a
    · exact .inl (Int.tmod_eq_zero_of_dvd divides)
    · exact .inr (if_neg divides)

/-- Two remainders lie on the same side of zero, so that they are less than the divisor apart. -/
theorem IsRemainder.abs_sub_lt (first : IsRemainder a b q) (second : IsRemainder a b r) : |q - r| < |b| := by
  obtain ⟨smallFirst, signFirst⟩ := first
  obtain ⟨smallSecond, signSecond⟩ := second
  rw [abs_lt] at smallFirst smallSecond ⊢
  rcases Int.lt_trichotomy a 0 with negative | rfl | positive
  · rw [Int.sign_eq_neg_one_of_neg negative, Int.sign_eq_neg_one_iff_neg] at signFirst signSecond
    omega
  · rw [Int.sign_zero, Int.sign_eq_zero_iff_zero, or_self] at signFirst signSecond
    omega
  · rw [Int.sign_eq_one_of_pos positive, Int.sign_eq_one_iff_pos] at signFirst signSecond
    omega

/-- A division is told by its remainder. -/
theorem IsRemainder.unique (nonzero : b ≠ 0) (first : IsRemainder a b (a - b * q)) (second : IsRemainder a b r)
    (divides : a = b * v + r) : v = q ∧ r = a - b * q := by
  have apart : (a - b * q) - r = b * (v - q) := by
    rw [Int.mul_sub]
    omega
  have none : (a - b * q) - r = 0 :=
    Int.eq_zero_of_abs_lt_dvd ((abs_dvd b _).mpr ⟨_, apart⟩) (first.abs_sub_lt second)
  refine ⟨?_, by omega⟩
  rw [none] at apart
  have same := (Int.mul_eq_zero.mp apart.symm).resolve_left nonzero
  omega

/-- Arithmetic with integers of any size: the word of an integer is the only one congruent to it, sums, differences,
products and shifts to the left are told by the operands modulo `2 ^ 32`, and a quotient and a remainder are told by the
size and the sign of the remainder, and wrapped when they are pushed. -/
theorem arithmetic_of_integers :
    (∀ v, IsWord (toWord v) ∧ toWord v ≡ v [ZMOD 2 ^ 32] ∧ ∀ w, IsWord w → w ≡ v [ZMOD 2 ^ 32] → w = toWord v) ∧
    (∀ a b c d, a ≡ c [ZMOD 2 ^ 32] → b ≡ d [ZMOD 2 ^ 32] →
      (∀ op ∈ BinaryOp.wrapping, op.apply? a b = op.apply? c d) ∧
        UnaryOp.neg.apply a = UnaryOp.neg.apply c) ∧
    (∀ a b, (∀ op ∈ BinaryOp.wrapping,
        op.apply? (toWord a) b = op.apply? a b ∧ op.apply? a (toWord b) = op.apply? a b) ∧
      UnaryOp.neg.apply (toWord a) = UnaryOp.neg.apply a) ∧
    ∀ a b, b ≠ 0 → ∃ q, quotient? a b = some q ∧ IsRemainder a b (a - b * q) ∧
      (∀ other r, a = b * other + r → IsRemainder a b r → other = q ∧ r = a - b * q) ∧
      ∀ machine : Machine, machine.Bounded → machine.sp + 2 < machine.stackSize →
        (machine.Faces [.of .pushConst 0 a, .of .pushConst 0 b, .of (.binary .div)] →
          ∃ after, MachineM.steps 3 machine = .ok () after ∧ machine.Gains (toWord q) after) ∧
        (machine.Faces [.of .pushConst 0 a, .of .pushConst 0 b, .of (.binary .rem)] →
          ∃ after, MachineM.steps 3 machine = .ok () after ∧ machine.Gains (toWord (a - b * q)) after) := by
  refine ⟨fun v => ⟨.toWord v, toWord_modEq v, fun w isWord same => eq_toWord_of_isWord isWord same⟩,
    fun a b c d first second => ?_, fun a b => ?_, fun a b nonzero => ?_⟩
  · exact ⟨fun op wraps => BinaryOp.apply?_congr first second wraps, UnaryOp.apply_neg_congr first⟩
  · exact ⟨fun op wraps => ⟨BinaryOp.apply?_congr (toWord_modEq a) rfl wraps,
      BinaryOp.apply?_congr rfl (toWord_modEq b) wraps⟩, UnaryOp.apply_neg_congr (toWord_modEq a)⟩
  · have isQuotient : quotient? a b = some (a.tdiv b) := if_neg nonzero
    have isRemainder : IsRemainder a b (a - b * a.tdiv b) := Int.tmod_def a b ▸ isRemainder_tmod a nonzero
    refine ⟨a.tdiv b, isQuotient, isRemainder, fun other r divides second => isRemainder.unique nonzero second divides,
      fun machine bounded room => ⟨fun faces => ?_, fun faces => ?_⟩⟩
    · have stepped := Machine.steps_binary faces bounded room
      simpa only [isQuotient, BinaryOp.apply?, Option.map_some] using stepped
    · have stepped := Machine.steps_binary faces bounded room
      simpa only [remainder?, BinaryOp.apply?, isQuotient, Option.map_some] using stepped

def dividingLargeCode : Array Instruction :=
  #[.of .pushConst 0 (-(2 ^ 40 + 7)), .of .pushConst 0 (2 ^ 33 + 3), .of (.binary .rem)]

/-- Neither operand is a word, and neither is the remainder: it has the sign of the dividend, and is wrapped. -/
theorem large_operands_divided :
    IsRemainder (-(2 ^ 40 + 7)) (2 ^ 33 + 3) (-(2 ^ 33 - 374)) ∧
      ∃ after, MachineM.steps 3 ((Machine.ofWords 8).load dividingLargeCode) = .ok () after ∧
        after.word? 4 = some 374 := by
  obtain ⟨-, -, -, division⟩ := arithmetic_of_integers
  obtain ⟨q, isQuotient, isRemainder, -, steps⟩ := division (-(2 ^ 40 + 7)) (2 ^ 33 + 3) (by decide)
  have quotient : q = -127 := (Option.some.inj isQuotient).symm
  subst quotient
  have large : frameSize ≤ (Machine.ofWords 8).stackSize := by decide
  obtain ⟨after, ran, gains⟩ := (steps _ (Machine.bounded_load large dividingLargeCode) (by decide)).2
    (Machine.faces_load rfl dividingLargeCode)
  have top : after.sp = 4 := gains.sp_eq
  have word := gains.top_eq
  rw [top] at word
  exact ⟨isRemainder, after, ran, word⟩

end PLZero
