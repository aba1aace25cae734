import Mathlib.Data.Nat.Bitwise
import PLZero.Arithmetic

namespace PLZero

/-- An integer that fits in a machine word. -/
def IsWord (value : Int) : Prop :=
  leastWord ≤ value ∧ value ≤ greatestWord

namespace IsWord

variable {a b : Int} {m : Nat}

theorem of_natCast (small : m < 2 ^ 31) : IsWord m := by
  unfold IsWord leastWord greatestWord
  omega

theorem zero : IsWord 0 :=
  of_natCast (m := 0) (by decide)

/-- A nonnegative word has its bits below the sign. -/
theorem ofNat_iff : IsWord (.ofNat m) ↔ m < 2 ^ 31 := by
  rw [Int.ofNat_eq_natCast]
  unfold IsWord leastWord greatestWord
  omega

/-- So has the complement of a negative one. -/
theorem negSucc_iff : IsWord (.negSucc m) ↔ m < 2 ^ 31 := by
  unfold IsWord leastWord greatestWord
  omega

theorem toWord (value : Int) : IsWord (toWord value) := by
  have lower : -(0x80000000 : Int) ≤ PLZero.toWord value := Int.le_bmod (by decide)
  have upper : PLZero.toWord value < 0x80000000 := Int.bmod_lt (by decide)
  unfold IsWord leastWord greatestWord
  omega

theorem truth (condition : Bool) : IsWord (truth condition) := by
  cases condition <;> exact of_natCast (by decide)

theorem complement (word : IsWord a) : IsWord (~~~a) := by
  cases a with
  | ofNat m => exact negSucc_iff.mpr (ofNat_iff.mp word)
  | negSucc m => exact ofNat_iff.mpr (negSucc_iff.mp word)

/-- The bits of a conjunction are taken from both sides, so none comes up in front. -/
theorem bitAnd (first : IsWord a) (second : IsWord b) : IsWord (bitAnd a b) := by
  cases a with
  | ofNat m =>
    rw [ofNat_iff] at first
    cases b with
    | ofNat n => exact ofNat_iff.mpr (Nat.and_lt_two_pow _ (ofNat_iff.mp second))
    | negSucc n => exact ofNat_iff.mpr (Nat.xor_lt_two_pow first (Nat.and_lt_two_pow _ (negSucc_iff.mp second)))
  | negSucc m =>
    rw [negSucc_iff] at first
    cases b with
    | ofNat n =>
      exact ofNat_iff.mpr (Nat.xor_lt_two_pow (ofNat_iff.mp second) (Nat.and_lt_two_pow _ first))
    | negSucc n => exact negSucc_iff.mpr (Nat.or_lt_two_pow first (negSucc_iff.mp second))

theorem bitOr (first : IsWord a) (second : IsWord b) : IsWord (bitOr a b) :=
  (first.complement.bitAnd second.complement).complement

theorem bitXor (first : IsWord a) (second : IsWord b) : IsWord (bitXor a b) :=
  (first.bitOr second).bitAnd (first.bitAnd second).complement

/-- A shift to the right brings a word nearer to zero, or to minus one. -/
theorem shiftRight (word : IsWord a) (distance : Nat) : IsWord (a >>> distance) := by
  cases a with
  | ofNat m => exact ofNat_iff.mpr (Nat.lt_of_le_of_lt (Nat.shiftRight_le _ _) (ofNat_iff.mp word))
  | negSucc m => exact negSucc_iff.mpr (Nat.lt_of_le_of_lt (Nat.shiftRight_le _ _) (negSucc_iff.mp word))

end IsWord

theorem UnaryOp.isWord_apply {a : Int} (word : IsWord a) (op : UnaryOp) : IsWord (op.apply a) := by
  cases op with
  | not => exact .truth _
  | neg => exact .toWord _
  | comp => exact word.complement

/-- The operators lead from words to words, whether they wrap or not. -/
theorem BinaryOp.isWord_apply? {a b : Int} (first : IsWord a) (second : IsWord b) (op : BinaryOp) :
    ∀ value ∈ op.apply? a b, IsWord value := by
  intro value result
  cases op with
  | div | rem =>
    obtain ⟨exact, -, rfl⟩ := Option.map_eq_some_iff.mp result
    exact .toWord exact
  | bor =>
    cases result
    exact first.bitOr second
  | band =>
    cases result
    exact first.bitAnd second
  | bxor =>
    cases result
    exact first.bitXor second
  | rshift =>
    cases result
    exact first.shiftRight _
  | add | sub | mul | lshift =>
    cases result
    exact .toWord _
  | _ =>
    cases result
    exact .truth _

end PLZero
