import Mathlib

/-! # Fixed-width words with saturating operators

The target has 64-bit addresses: sizes are natural numbers whose sums saturate at `usizeMax`, and
no allocation is larger than `isizeMax`. -/

namespace MochiSyscalls.Foundations.Words
set_option autoImplicit false

def usizeMax : ℕ := 2 ^ 64 - 1
def isizeMax : ℕ := 2 ^ 63 - 1
def u64Max : UInt64 := 0xffffffffffffffff

def usizeSaturatingAdd (a b : ℕ) : ℕ := min (a + b) usizeMax

def usizeCheckedAdd (a b : ℕ) : Option ℕ := if a + b ≤ usizeMax then some (a + b) else none

def saturatingAdd (a b : UInt64) : UInt64 := UInt64.ofNat (min (a.toNat + b.toNat) usizeMax)

def saturatingSub (a b : UInt64) : UInt64 := UInt64.ofNat (a.toNat - b.toNat)

def saturatingMul (a b : UInt64) : UInt64 := UInt64.ofNat (min (a.toNat * b.toNat) usizeMax)

def saturatingAdd8 (a b : UInt8) : UInt8 := UInt8.ofNat (min (a.toNat + b.toNat) 255)

def saturatingAdd32 (a b : UInt32) : UInt32 := UInt32.ofNat (min (a.toNat + b.toNat) (2 ^ 32 - 1))

def rotateLeft (a : UInt64) (n : ℕ) : UInt64 := ⟨a.toBitVec.rotateLeft n⟩

theorem usizeCheckedAdd_eq_some {a b c : ℕ} : usizeCheckedAdd a b = some c ↔ c = a + b ∧ c ≤ usizeMax := by
  unfold usizeCheckedAdd
  split
  · rw [Option.some.injEq]
    omega
  · refine iff_of_false nofun ?_
    omega

theorem lt_usizeSaturatingAdd {n a b : ℕ} (hn : n < usizeMax) : n < usizeSaturatingAdd a b ↔ n < a + b := by
  unfold usizeSaturatingAdd
  omega

theorem lt_usizeSaturatingAdd₂ {n a b d : ℕ} (hn : n < usizeMax) :
    n < usizeSaturatingAdd (usizeSaturatingAdd a b) d ↔ n < a + b + d := by
  rw [lt_usizeSaturatingAdd hn]
  unfold usizeSaturatingAdd
  omega

theorem saturatingAdd_toNat (a b : UInt64) : (saturatingAdd a b).toNat = min (a.toNat + b.toNat) usizeMax := by
  rw [saturatingAdd, UInt64.toNat_ofNat']
  unfold usizeMax
  omega

theorem saturatingMul_toNat (a b : UInt64) : (saturatingMul a b).toNat = min (a.toNat * b.toNat) usizeMax := by
  rw [saturatingMul, UInt64.toNat_ofNat']
  unfold usizeMax
  omega

theorem saturatingAdd32_toNat {a b : UInt32} (h : a.toNat + b.toNat < 2 ^ 32) :
    (saturatingAdd32 a b).toNat = a.toNat + b.toNat := by
  rw [saturatingAdd32, UInt32.toNat_ofNat']
  omega

theorem add32_toNat {a b : UInt32} (h : a.toNat + b.toNat < 2 ^ 32) : (a + b).toNat = a.toNat + b.toNat := by
  rw [UInt32.toNat_add]
  exact Nat.mod_eq_of_lt h

theorem isizeMax_lt_usizeMax : isizeMax < usizeMax := by decide

theorem or_shiftLeft_toNat {a b s : UInt64} (ha : a.toNat < 2 ^ s.toNat) (hb : 2 ^ s.toNat * b.toNat < 2 ^ 64)
    (hs : s.toNat < 64) : (a ||| b <<< s).toNat = a.toNat + 2 ^ s.toNat * b.toNat := by
  have hshift : (b <<< s).toNat = 2 ^ s.toNat * b.toNat := by
    rw [UInt64.toNat_shiftLeft, Nat.mod_eq_of_lt hs, Nat.shiftLeft_eq, Nat.mul_comm, Nat.mod_eq_of_lt hb]
  rw [UInt64.toNat_or, hshift, Nat.or_comm, ← Nat.two_pow_add_eq_or_of_lt ha, Nat.add_comm]

end MochiSyscalls.Foundations.Words
