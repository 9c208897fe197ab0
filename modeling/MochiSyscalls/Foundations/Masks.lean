import Mathlib

/-! # Masks

Keeping and clearing the low bits of a word, as remainder and quotient. -/

namespace MochiSyscalls.Foundations.Masks
set_option autoImplicit false

variable {k : ℕ} {mask : UInt64}

theorem and_mask_toNat (hmask : mask.toNat = 2 ^ k - 1) (x : UInt64) : (x &&& mask).toNat = x.toNat % 2 ^ k := by
  rw [UInt64.toNat_and, hmask]
  exact Nat.and_two_pow_sub_one_eq_mod x.toNat k

theorem and_not_mask_toNat (hmask : mask.toNat = 2 ^ k - 1) (x : UInt64) :
    (x &&& ~~~mask).toNat = 2 ^ k * (x.toNat / 2 ^ k) := by
  have hlt := x.toNat_lt
  have hnot : (~~~mask).toNat = 2 ^ 64 - (mask.toNat + 1) := by
    rw [UInt64.toNat_not, show UInt64.size = 2 ^ 64 from rfl]
    omega
  rw [UInt64.toNat_and, hnot]
  apply Nat.eq_of_testBit_eq
  intro i
  rw [Nat.testBit_and, Nat.testBit_two_pow_sub_succ mask.toNat_lt, hmask, Nat.testBit_two_pow_sub_one,
    Nat.testBit_two_pow_mul, Nat.testBit_div_two_pow]
  by_cases hhigh : i < 64
  · by_cases hi : k ≤ i
    · simp [hi, hhigh]
    · simp [hi, not_le.1 hi]
  · have hbit : x.toNat.testBit i = false :=
      Nat.testBit_lt_two_pow (lt_of_lt_of_le hlt (Nat.pow_le_pow_right (by omega) (not_lt.1 hhigh)))
    by_cases hi : k ≤ i
    · simp [hbit, hi]
    · simp [hbit, hi]

theorem or_multiple_toNat {tag x : UInt64} {q : ℕ} (htag : tag.toNat < 2 ^ k) (hx : x.toNat = 2 ^ k * q) :
    (tag ||| x).toNat = tag.toNat + 2 ^ k * q := by
  rw [UInt64.toNat_or, hx, Nat.or_comm, ← Nat.two_pow_add_eq_or_of_lt htag, Nat.add_comm]

end MochiSyscalls.Foundations.Masks
