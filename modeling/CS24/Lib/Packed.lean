import Mathlib

/-!
# Numbers with flags in their low bits

A word that holds a multiple of `2 ^ k` and flags below `2 ^ k` is taken apart by
masks and put together by bitwise or.
-/

namespace Packed

variable {k q f m : Nat}

/-- A mask of flags sees the flags only. -/
theorem and_low (hf : f < 2 ^ k) (hm : m < 2 ^ k) : (q * 2 ^ k + f) &&& m = f &&& m := by
  apply Nat.eq_of_testBit_eq
  intro i
  rw [Nat.testBit_and, Nat.testBit_and, Nat.mul_comm, Nat.testBit_two_pow_mul_add q hf]
  by_cases hi : i < k
  · rw [if_pos hi]
  · have hbit : m.testBit i = false := Nat.testBit_lt_two_pow (hm.trans_le
      (Nat.pow_le_pow_right (by decide) (Nat.le_of_not_lt hi)))
    rw [hbit, Bool.and_false, Bool.and_false]

/-- A mask of the other bits removes the flags. -/
theorem and_high {n : Nat} (hf : f < 2 ^ k) (hq : q < 2 ^ n) :
    (q * 2 ^ k + f) &&& ((2 ^ n - 1) * 2 ^ k) = q * 2 ^ k := by
  apply Nat.eq_of_testBit_eq
  intro i
  rw [Nat.testBit_and, Nat.mul_comm, Nat.testBit_two_pow_mul_add q hf, Nat.mul_comm _ (2 ^ k),
    Nat.testBit_two_pow_mul, Nat.testBit_two_pow_mul, Nat.testBit_two_pow_sub_one]
  by_cases hi : i < k
  · rw [if_pos hi, decide_eq_false (by omega), Bool.false_and, Bool.false_and, Bool.and_false]
  · rw [if_neg hi]
    by_cases hn : i - k < n
    · simp [hn, Bool.and_comm]
    · have hbit : q.testBit (i - k) = false := Nat.testBit_lt_two_pow (hq.trans_le
        (Nat.pow_le_pow_right (by decide) (Nat.le_of_not_lt hn)))
      simp [hbit]

/-- Flags are added by bitwise or. -/
theorem or_low (hf : f < 2 ^ k) : q * 2 ^ k ||| f = q * 2 ^ k + f := by
  rw [Nat.mul_comm, Nat.two_pow_add_eq_or_of_lt hf]

end Packed
