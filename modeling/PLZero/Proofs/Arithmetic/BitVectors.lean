import PLZero.Proofs.Arithmetic.Congruence

/-!
The operators on rows of 32 bits. Between words, the results of the machine are the signed values of what the operators
do to the bits.
-/

namespace PLZero

/-- One or zero. -/
def flag (condition : Bool) : BitVec 32 :=
  if condition then 1 else 0

def UnaryOp.onBits (x : BitVec 32) : UnaryOp → BitVec 32
  | not => flag (x = 0)
  | neg => -x
  | comp => ~~~x

/-- What an operator makes of rows of bits. Division is the signed one, and the distance of a shift is told by the last
five bits of the count. -/
def BinaryOp.onBits? (x y : BitVec 32) : BinaryOp → Option (BitVec 32)
  | add => x + y
  | sub => x - y
  | mul => x * y
  | div => if y = 0 then none else x.sdiv y
  | rem => if y = 0 then none else x.srem y
  | bor => x ||| y
  | band => x &&& y
  | bxor => x ^^^ y
  | lshift => x <<< (y.toNat % 32)
  | rshift => x.sshiftRight (y.toNat % 32)
  | lt => flag (x.slt y)
  | lte => flag (x.sle y)
  | equ => flag (x = y)
  | gte => flag (y.sle x)
  | gt => flag (y.slt x)
  | neq => flag (x ≠ y)
  | lor => flag (x ≠ 0 ∨ y ≠ 0)
  | land => flag (x ≠ 0 ∧ y ≠ 0)

theorem isWord_toInt (x : BitVec 32) : IsWord x.toInt := by
  have lower := x.le_toInt
  have upper : x.toInt < 2 ^ 31 := x.toInt_lt
  unfold IsWord leastWord greatestWord
  omega

theorem toInt_flag (condition : Bool) : (flag condition).toInt = truth condition := by
  cases condition <;> rfl

theorem toInt_ofInt_eq_toWord (v : Int) : (BitVec.ofInt 32 v).toInt = toWord v :=
  BitVec.toInt_ofInt v

/-- A word is told by its bits. -/
theorem toInt_ofInt_of_isWord {a : Int} (isWord : IsWord a) : (BitVec.ofInt 32 a).toInt = a :=
  (toInt_ofInt_eq_toWord a).trans (toWord_of_isWord isWord)

theorem ofInt_not (a : Int) : BitVec.ofInt 32 (~~~a) = ~~~BitVec.ofInt 32 a := by
  cases a with
  | ofNat m => exact BitVec.ofInt_negSucc_eq_not_ofNat
  | negSucc m =>
    rw [BitVec.ofInt_negSucc_eq_not_ofNat, BitVec.not_not]
    exact BitVec.ofInt_natCast 32 m

theorem ofInt_bitAnd (a b : Int) : BitVec.ofInt 32 (bitAnd a b) = BitVec.ofInt 32 a &&& BitVec.ofInt 32 b := by
  have missing (m n : Nat) : BitVec.ofNat 32 (m ^^^ (m &&& n)) = BitVec.ofNat 32 m &&& ~~~BitVec.ofNat 32 n := by
    refine BitVec.eq_of_getLsbD_eq fun i within => ?_
    simp only [BitVec.getLsbD_ofNat, BitVec.getLsbD_and, BitVec.getLsbD_not, Nat.testBit_xor, Nat.testBit_and, within]
    cases m.testBit i <;> cases n.testBit i <;> rfl
  cases a with
  | ofNat m =>
    cases b with
    | ofNat n => exact (BitVec.ofInt_natCast 32 _).trans BitVec.ofNat_and
    | negSucc n =>
      rw [BitVec.ofInt_negSucc_eq_not_ofNat]
      exact (BitVec.ofInt_natCast 32 _).trans (missing m n)
  | negSucc m =>
    cases b with
    | ofNat n =>
      rw [BitVec.ofInt_negSucc_eq_not_ofNat, BitVec.and_comm]
      exact (BitVec.ofInt_natCast 32 _).trans (missing n m)
    | negSucc n =>
      show BitVec.ofInt 32 (.negSucc (m ||| n)) = _
      rw [BitVec.ofInt_negSucc_eq_not_ofNat, BitVec.ofInt_negSucc_eq_not_ofNat, BitVec.ofInt_negSucc_eq_not_ofNat,
        BitVec.ofNat_or, BitVec.not_or]

theorem ofInt_bitOr (a b : Int) : BitVec.ofInt 32 (bitOr a b) = BitVec.ofInt 32 a ||| BitVec.ofInt 32 b := by
  rw [bitOr, ofInt_not, ofInt_bitAnd, ofInt_not, ofInt_not, BitVec.not_and, BitVec.not_not, BitVec.not_not]

theorem ofInt_bitXor (a b : Int) : BitVec.ofInt 32 (bitXor a b) = BitVec.ofInt 32 a ^^^ BitVec.ofInt 32 b := by
  rw [bitXor, ofInt_bitAnd, ofInt_bitOr, ofInt_not, ofInt_bitAnd]
  refine BitVec.eq_of_getLsbD_eq fun i within => ?_
  simp only [BitVec.getLsbD_and, BitVec.getLsbD_or, BitVec.getLsbD_not, BitVec.getLsbD_xor, within]
  cases (BitVec.ofInt 32 a).getLsbD i <;> cases (BitVec.ofInt 32 b).getLsbD i <;> rfl

theorem toInt_not (x : BitVec 32) : (~~~x).toInt = ~~~x.toInt := by
  rw [← toWord_of_isWord (isWord_toInt x).complement, ← toInt_ofInt_eq_toWord, ofInt_not, BitVec.ofInt_toInt]

theorem toInt_and (x y : BitVec 32) : (x &&& y).toInt = bitAnd x.toInt y.toInt := by
  rw [← toWord_of_isWord ((isWord_toInt x).bitAnd (isWord_toInt y)), ← toInt_ofInt_eq_toWord, ofInt_bitAnd,
    BitVec.ofInt_toInt, BitVec.ofInt_toInt]

theorem toInt_or (x y : BitVec 32) : (x ||| y).toInt = bitOr x.toInt y.toInt := by
  rw [← toWord_of_isWord ((isWord_toInt x).bitOr (isWord_toInt y)), ← toInt_ofInt_eq_toWord, ofInt_bitOr,
    BitVec.ofInt_toInt, BitVec.ofInt_toInt]

theorem toInt_xor (x y : BitVec 32) : (x ^^^ y).toInt = bitXor x.toInt y.toInt := by
  rw [← toWord_of_isWord ((isWord_toInt x).bitXor (isWord_toInt y)), ← toInt_ofInt_eq_toWord, ofInt_bitXor,
    BitVec.ofInt_toInt, BitVec.ofInt_toInt]

theorem toInt_modEq_toNat (x : BitVec 32) : x.toInt ≡ x.toNat [ZMOD 2 ^ 32] := by
  rw [BitVec.toInt_eq_toNat_bmod]
  exact toWord_modEq x.toNat

theorem shiftDistance_toInt (y : BitVec 32) : shiftDistance y.toInt = y.toNat % 32 :=
  (shiftDistance_congr (toInt_modEq_toNat y)).trans (Int.toNat_natCast _)

theorem toInt_shiftLeft (x : BitVec 32) (distance : Nat) : (x <<< distance).toInt = toWord (x.toInt <<< distance) := by
  rw [BitVec.toInt_shiftLeft, Nat.shiftLeft_eq, Int.shiftLeft_eq, Int.natCast_mul, Int.natCast_pow]
  exact toWord_congr ((toInt_modEq_toNat x).symm.mul_right _)

theorem toInt_eq_zero_iff {x : BitVec 32} : x.toInt = 0 ↔ x = 0 := by
  rw [← BitVec.toInt_inj]
  rfl

theorem UnaryOp.apply_toInt (x : BitVec 32) (op : UnaryOp) : op.apply x.toInt = (op.onBits x).toInt := by
  cases op with
  | not => simp only [apply, onBits, toInt_flag, toInt_eq_zero_iff]
  | neg => exact BitVec.toInt_neg.symm
  | comp => exact (toInt_not x).symm

/-- Between signed values of bits, the machine has the signed value of what the operator makes of the bits. -/
theorem BinaryOp.apply?_toInt (x y : BitVec 32) (op : BinaryOp) :
    op.apply? x.toInt y.toInt = (op.onBits? x y).map BitVec.toInt := by
  cases op with
  | add => exact congrArg some (BitVec.toInt_add x y).symm
  | sub => exact congrArg some BitVec.toInt_sub.symm
  | mul => exact congrArg some (BitVec.toInt_mul x y).symm
  | div =>
    simp only [onBits?, BinaryOp.apply?, quotient?, toInt_eq_zero_iff]
    split
    · rfl
    · exact congrArg some (BitVec.toInt_sdiv x y).symm
  | rem =>
    simp only [onBits?, BinaryOp.apply?, remainder?_eq, toInt_eq_zero_iff]
    split
    · rfl
    · refine congrArg some ?_
      rw [← BitVec.toInt_srem]
      exact toWord_of_isWord (isWord_toInt _)
  | bor => exact congrArg some (toInt_or x y).symm
  | band => exact congrArg some (toInt_and x y).symm
  | bxor => exact congrArg some (toInt_xor x y).symm
  | lshift =>
    rw [onBits?, BinaryOp.apply?, shiftDistance_toInt]
    exact congrArg some (toInt_shiftLeft x _).symm
  | rshift =>
    rw [onBits?, BinaryOp.apply?, shiftDistance_toInt]
    exact congrArg some BitVec.toInt_sshiftRight.symm
  | lt | lte | gte | gt =>
    simp only [onBits?, BinaryOp.apply?, BitVec.slt_eq_decide, BitVec.sle_eq_decide, Option.map_some, toInt_flag]
  | equ | neq => simp only [onBits?, BinaryOp.apply?, BitVec.toInt_inj, ne_eq, Option.map_some, toInt_flag]
  | lor | land => simp only [onBits?, BinaryOp.apply?, ne_eq, toInt_eq_zero_iff, Option.map_some, toInt_flag]

/-- Only a division by zero has no result. -/
theorem BinaryOp.onBits?_eq_none_iff {x y : BitVec 32} {op : BinaryOp} :
    op.onBits? x y = none ↔ (op = div ∨ op = rem) ∧ y = 0 := by
  cases op with
  | div | rem => simp [onBits?]
  | _ => simp [onBits?]

theorem isWord_tdiv {a b : Int} (isWord : IsWord a) (fits : ¬(a = leastWord ∧ b = -1)) : IsWord (a.tdiv b) := by
  unfold IsWord leastWord greatestWord at *
  by_cases opposite : b = -1
  · rw [opposite, Int.tdiv_neg, Int.tdiv_one]
    omega
  · have size : (a.tdiv b).natAbs = a.natAbs / b.natAbs := Int.natAbs_tdiv a b
    have sized : b.natAbs ≠ 1 ∨ b = 1 := by omega
    rcases sized with other | rfl
    · have half : a.natAbs / b.natAbs ≤ a.natAbs / 2 := by
        rcases Nat.eq_zero_or_pos b.natAbs with none | some
        · rw [none, Nat.div_zero]
          exact Nat.zero_le _
        · exact Nat.div_le_div_left (by omega) (by decide)
      omega
    · rw [Int.tdiv_one]
      exact isWord

/-- A quotient and a remainder of words. They belong together, the remainder has the sign of the dividend, and only the
quotient of the least word by minus one does not fit. -/
theorem division_of_words {a b : Int} (first : IsWord a) (second : IsWord b) (nonzero : b ≠ 0) :
    ∃ q r, BinaryOp.div.onBits? (.ofInt 32 a) (.ofInt 32 b) = some q ∧
      BinaryOp.rem.onBits? (.ofInt 32 a) (.ofInt 32 b) = some r ∧ q.toInt = toWord (a.tdiv b) ∧ r.toInt = a.tmod b ∧
        IsRemainder a b r.toInt ∧ toWord (b * q.toInt + r.toInt) = a ∧
          (¬(a = leastWord ∧ b = -1) → q.toInt = a.tdiv b) := by
  have valueFirst := toInt_ofInt_of_isWord first
  have valueSecond := toInt_ofInt_of_isWord second
  have apart : BitVec.ofInt 32 b ≠ 0 := by
    rw [ne_eq, ← toInt_eq_zero_iff, valueSecond]
    exact nonzero
  have quotient : ((BitVec.ofInt 32 a).sdiv (.ofInt 32 b)).toInt = toWord (a.tdiv b) := by
    rw [BitVec.toInt_sdiv, valueFirst, valueSecond]
    rfl
  have remainder : ((BitVec.ofInt 32 a).srem (.ofInt 32 b)).toInt = a.tmod b := by
    rw [BitVec.toInt_srem, valueFirst, valueSecond]
  refine ⟨_, _, if_neg apart, if_neg apart, quotient, remainder, remainder ▸ isRemainder_tmod a nonzero, ?_,
    fun fits => ?_⟩
  · rw [quotient, remainder, ← toWord_of_isWord first]
    refine toWord_congr ((((toWord_modEq _).mul_left b).add_right _).trans ?_)
    rw [toWord_of_isWord first, Int.mul_tdiv_add_tmod]
  · exact quotient.trans (toWord_of_isWord (isWord_tdiv first fits))

/-- The machine calculates with words as with rows of 32 bits. Pushed as constants and taken by an operator, they leave
the signed value of what the operator makes of their bits, which is a word again. Only to divide by zero fails.
Quotients and remainders belong together, and the quotient of the least word by minus one wraps to the least word. -/
theorem operators_on_bits {a b : Int} (first : IsWord a) (second : IsWord b) :
    (∀ machine : Machine, machine.Bounded →
      (∀ op : UnaryOp, machine.sp + 1 < machine.stackSize → machine.Faces [.of .pushConst 0 a, .of (.unary op)] →
        let bits := op.onBits (.ofInt 32 a)
        IsWord bits.toInt ∧ ∃ after, MachineM.steps 2 machine = .ok () after ∧ machine.Gains bits.toInt after) ∧
      ∀ op : BinaryOp, machine.sp + 2 < machine.stackSize →
        machine.Faces [.of .pushConst 0 a, .of .pushConst 0 b, .of (.binary op)] →
        match op.onBits? (.ofInt 32 a) (.ofInt 32 b) with
        | some bits => IsWord bits.toInt ∧
          ∃ after, MachineM.steps 3 machine = .ok () after ∧ machine.Gains bits.toInt after
        | none => ∃ between after, MachineM.steps 2 machine = .ok () between ∧
          MachineM.step between = .error ⟨.divisionByZero, after.registers⟩ after) ∧
    (∀ op : BinaryOp, op.onBits? (.ofInt 32 a) (.ofInt 32 b) = none ↔ (op = .div ∨ op = .rem) ∧ b = 0) ∧
    (b ≠ 0 → ∃ q r, BinaryOp.div.onBits? (.ofInt 32 a) (.ofInt 32 b) = some q ∧
      BinaryOp.rem.onBits? (.ofInt 32 a) (.ofInt 32 b) = some r ∧ r.toInt = a.tmod b ∧ IsRemainder a b r.toInt ∧
      toWord (b * q.toInt + r.toInt) = a ∧ (¬(a = leastWord ∧ b = -1) → q.toInt = a.tdiv b) ∧
      (a = leastWord → b = -1 → q.toInt = leastWord ∧ r.toInt = 0)) := by
  have valueFirst := toInt_ofInt_of_isWord first
  have valueSecond := toInt_ofInt_of_isWord second
  refine ⟨fun machine bounded => ⟨fun op room faces => ⟨isWord_toInt _, ?_⟩, fun op room faces => ?_⟩, fun op => ?_,
    fun nonzero => ?_⟩
  · have stepped := Machine.steps_unary faces bounded room
    have applied := op.apply_toInt (.ofInt 32 a)
    rw [valueFirst] at applied
    rw [applied] at stepped
    exact stepped
  · have stepped := Machine.steps_binary faces bounded room
    have applied := op.apply?_toInt (.ofInt 32 a) (.ofInt 32 b)
    rw [valueFirst, valueSecond] at applied
    rw [applied] at stepped
    split
    · next bits isBits =>
      rw [isBits] at stepped
      exact ⟨isWord_toInt bits, stepped⟩
    · next isBits =>
      rwa [isBits] at stepped
  · rw [BinaryOp.onBits?_eq_none_iff, ← toInt_eq_zero_iff, valueSecond]
  · obtain ⟨q, r, isQuotient, isRemainder, quotient, remainder, sized, together, fits⟩ :=
      division_of_words first second nonzero
    refine ⟨q, r, isQuotient, isRemainder, remainder, sized, together, fits, fun least minus => ?_⟩
    rw [quotient, remainder, least, minus]
    decide

def overflowingCode : Array Instruction :=
  #[.of .pushConst 0 leastWord, .of .pushConst 0 (-1), .of (.binary .div)]

/-- The least word divided by minus one stays on top of the frame, and nothing remains. -/
theorem leastWord_divided :
    (∃ after, MachineM.steps 3 ((Machine.ofWords 8).load overflowingCode) = .ok () after ∧
      after.word? 4 = some leastWord) ∧
    ∃ r : BitVec 32, BinaryOp.rem.onBits? (.ofInt 32 leastWord) (.ofInt 32 (-1)) = some r ∧ r.toInt = 0 := by
  have first : IsWord leastWord := ⟨by decide, by decide⟩
  have second : IsWord (-1) := ⟨by decide, by decide⟩
  obtain ⟨steps, -, division⟩ := operators_on_bits first second
  obtain ⟨q, r, isQuotient, isRemainder, -, -, -, -, corner⟩ := division (by decide)
  obtain ⟨least, none⟩ := corner rfl rfl
  have large : frameSize ≤ (Machine.ofWords 8).stackSize := by decide
  have stepped := (steps _ (Machine.bounded_load large overflowingCode)).2 .div (by decide)
    (Machine.faces_load rfl overflowingCode)
  rw [isQuotient] at stepped
  obtain ⟨-, after, ran, gains⟩ := stepped
  have top : after.sp = 4 := gains.sp_eq
  have word := gains.top_eq
  rw [top, least] at word
  exact ⟨⟨after, ran, word⟩, r, isRemainder, none⟩

end PLZero
