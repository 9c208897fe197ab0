import Mathlib

/-! # Serial numbers modulo `2^32`

Counters that wrap around at 32 bits are compared by the sign of their difference. This module
relates that comparison to plain natural numbers: as long as two positions on one counter stay
less than half the circle apart, the circular order is the order of the positions.

* `adv s n`: the counter value `n` places after `s`.
* `Before a b`: `a` comes before `b` on the half circle that ends at `b`.
* `span a b`: the number of places from `a` forward to `b`.
-/

namespace MochiSyscalls.Foundations.Serial
set_option autoImplicit false

/-! ## Positions on one counter -/

variable (s : UInt32)

/-- The counter value `n` places after `s`. -/
def adv (n : ℕ) : UInt32 := s + UInt32.ofNat n

theorem adv_toNat (n : ℕ) : (adv s n).toNat = (s.toNat + n) % 2 ^ 32 := by
  unfold adv
  simp only [UInt32.toNat_add, UInt32.toNat_ofNat']
  omega

@[simp] theorem adv_zero : adv s 0 = s := by
  rw [← UInt32.toNat_inj, adv_toNat]
  have := s.toNat_lt
  omega

@[simp] theorem adv_adv (m n : ℕ) : adv (adv s m) n = adv s (m + n) := by
  rw [← UInt32.toNat_inj]
  simp only [adv_toNat]
  omega

theorem add_ofNat (n : ℕ) : s + UInt32.ofNat n = adv s n := rfl

theorem add_one : s + 1 = adv s 1 := rfl

theorem adv_inj {m n : ℕ} (hm : m < 2 ^ 32) (hn : n < 2 ^ 32) : adv s m = adv s n ↔ m = n := by
  rw [← UInt32.toNat_inj, adv_toNat, adv_toNat]
  have := s.toNat_lt
  omega

/-! ## Spans -/

variable (a : UInt32) (b : UInt32)

/-- The number of places from `a` forward to `b`. -/
def span : ℕ := (b - a).toNat

theorem span_eq : span a b = (2 ^ 32 - a.toNat + b.toNat) % 2 ^ 32 := by
  unfold span
  rw [UInt32.toNat_sub]

@[simp] theorem span_self : span a a = 0 := by
  rw [span_eq]
  have := a.toNat_lt
  omega

theorem span_eq_zero : span a b = 0 ↔ a = b := by
  rw [span_eq, ← UInt32.toNat_inj]
  have := a.toNat_lt
  have := b.toNat_lt
  omega

theorem span_adv {n : ℕ} (hn : n < 2 ^ 32) : span a (adv a n) = n := by
  rw [span_eq, adv_toNat]
  have := a.toNat_lt
  omega

theorem span_adv_adv {m n : ℕ} (hmn : m ≤ n) (hn : n - m < 2 ^ 32) : span (adv s m) (adv s n) = n - m := by
  rw [span_eq, adv_toNat, adv_toNat]
  have := s.toNat_lt
  omega

/-! ## The circular order -/

/-- `a` comes before `b`: stepping back from `b` by less than half the circle meets `a`. -/
def Before : Prop := 2 ^ 31 ≤ (a - b).toNat
  deriving Decidable

theorem before_eq : Before a b ↔ 2 ^ 31 ≤ span b a := Iff.rfl

theorem toInt32_sub_neg : (a - b).toInt32 < 0 ↔ Before a b := by
  unfold Before
  generalize a - b = d
  have hd : d.toInt32.toInt = d.toBitVec.toInt := rfl
  have hn : d.toBitVec.toNat = d.toNat := rfl
  have hz : (0 : Int32).toInt = 0 := rfl
  have := d.toNat_lt
  rw [Int32.lt_iff_toInt_lt, hd, BitVec.toInt_eq_toNat_cond, hn, hz]
  split <;> omega

theorem before_adv {m n : ℕ} (hm : m < 2 ^ 31) (hn : n < 2 ^ 31) : Before (adv s m) (adv s n) ↔ m < n := by
  rw [before_eq, span_eq, adv_toNat, adv_toNat]
  have := s.toNat_lt
  omega

theorem not_before_self : ¬ Before a a := by
  rw [before_eq, span_self]
  omega

/-! ## Windows shorter than half the circle -/

theorem mem_window_iff {lo hi : UInt32} (h : span lo hi < 2 ^ 31) (x : UInt32) :
    (¬ Before x lo ∧ ¬ Before hi x) ↔ span lo x ≤ span lo hi := by
  rw [before_eq, before_eq]
  simp only [span_eq] at h ⊢
  have := lo.toNat_lt
  have := hi.toNat_lt
  have := x.toNat_lt
  omega

theorem not_before_top_iff {lo hi x : UInt32} (h : span lo hi < 2 ^ 31) (hx : span lo x ≤ span lo hi) :
    ¬ Before x hi ↔ x = hi := by
  rw [before_eq, ← UInt32.toNat_inj]
  simp only [span_eq] at h hx ⊢
  have := lo.toNat_lt
  have := hi.toNat_lt
  have := x.toNat_lt
  omega

theorem span_lt_of_window {s u e a : UInt32} (hu : span s u < span s e) (ha : span u a ≤ span u e)
    (hne : a ≠ e) : span s a < span s e := by
  rw [Ne, ← UInt32.toNat_inj] at hne
  simp only [span_eq] at hu ha ⊢
  have := s.toNat_lt
  have := u.toNat_lt
  have := e.toNat_lt
  have := a.toNat_lt
  omega

theorem span_le_of_mem {s u e : UInt32} (hu : span s u < span s e) : span u e ≤ span s e := by
  simp only [span_eq] at hu ⊢
  have := s.toNat_lt
  have := u.toNat_lt
  have := e.toNat_lt
  omega

end MochiSyscalls.Foundations.Serial
