import MochiSyscalls.Foundations.Bytes

/-! # One's-complement sums

The sum of the big-endian 16-bit words of a byte string, the loop that folds the carries of a
32-bit accumulator back in, and the complement of the result. Modulo 65535 folding changes nothing,
so a message that carries the complement of its own sum adds up to a multiple of 65535 and folds to
`0xffff`. -/

namespace MochiSyscalls.Foundations.OnesComplement
open Bytes List
set_option autoImplicit false

/-- The sum of the words of a byte string; an odd last byte is the high half of a word. -/
def wordSum : List UInt8 → ℕ
  | a :: b :: rest => a.toNat * 256 + b.toNat + wordSum rest
  | [a] => a.toNat * 256
  | [] => 0

theorem wordSum_append {front : List UInt8} (h : front.length % 2 = 0) (rest : List UInt8) :
    wordSum (front ++ rest) = wordSum front + wordSum rest := by
  induction front using wordSum.induct with
  | case1 a b front ih =>
    have hf : front.length % 2 = 0 := by
      simp only [length_cons] at h
      omega
    rw [cons_append, cons_append, wordSum, wordSum, ih hf]
    omega
  | case2 a => simp at h
  | case3 => simp [wordSum]

theorem two_mul_wordSum_le (bytes : List UInt8) : 2 * wordSum bytes ≤ 65535 * (bytes.length + 1) := by
  induction bytes using wordSum.induct with
  | case1 a b rest ih =>
    have ha := a.toNat_lt
    have hb := b.toNat_lt
    simp only [wordSum, length_cons]
    omega
  | case2 a =>
    have ha := a.toNat_lt
    simp only [wordSum, length_singleton]
    omega
  | case3 => simp [wordSum]

/-! ## The accumulator -/

/-- The loop over `chunks_exact(2)` and its remainder, with the accumulator's addition. -/
def sumWords (add : UInt32 → UInt32 → UInt32) : UInt32 → List UInt8 → UInt32
  | sum, a :: b :: rest => sumWords add (add sum (ofBe16 a b).toUInt32) rest
  | sum, [a] => add sum (a.toUInt32 <<< 8)
  | sum, [] => sum

theorem toNat_shiftLeft_8 (a : UInt8) : (a.toUInt32 <<< 8).toNat = a.toNat * 256 := by
  have ha := a.toNat_lt
  rw [UInt32.toNat_shiftLeft, UInt8.toNat_toUInt32]
  change a.toNat <<< 8 % 2 ^ 32 = a.toNat * 256
  rw [Nat.shiftLeft_eq]
  omega

variable {add : UInt32 → UInt32 → UInt32}

section

variable (hadd : ∀ a b, a.toNat + b.toNat < 2 ^ 32 → (add a b).toNat = a.toNat + b.toNat)
include hadd

theorem sumWords_toNat {sum : UInt32} {bytes : List UInt8} (h : sum.toNat + wordSum bytes < 2 ^ 32) :
    (sumWords add sum bytes).toNat = sum.toNat + wordSum bytes := by
  induction bytes using wordSum.induct generalizing sum with
  | case1 a b rest ih =>
    rw [wordSum] at h
    have hw : (ofBe16 a b).toUInt32.toNat = a.toNat * 256 + b.toNat := by
      rw [UInt16.toNat_toUInt32, ofBe16_toNat]
    have hs := hadd sum (ofBe16 a b).toUInt32 (by omega)
    have hrest := @ih (add sum (ofBe16 a b).toUInt32) (by omega)
    rw [sumWords, hrest, hs, hw, wordSum]
    omega
  | case2 a =>
    have hw := toNat_shiftLeft_8 a
    rw [wordSum, ← hw] at h
    rw [sumWords, hadd sum (a.toUInt32 <<< 8) h, hw, wordSum]
  | case3 => simp [sumWords, wordSum]

theorem sumWords_parts {front bytes : List UInt8} (h : front.length + bytes.length ≤ 2 ^ 17 - 2) :
    (sumWords add 0 front + sumWords add 0 bytes).toNat = wordSum front + wordSum bytes := by
  have hf := two_mul_wordSum_le front
  have hb := two_mul_wordSum_le bytes
  have h0 : (0 : UInt32).toNat = 0 := rfl
  have hf' := @sumWords_toNat add hadd 0 front (by omega)
  have hb' := @sumWords_toNat add hadd 0 bytes (by omega)
  rw [UInt32.toNat_add, hf', hb', h0]
  omega

end

theorem wordSum_toBe16 (x : UInt16) : wordSum (toBe16 x) = x.toNat := by
  have hx := x.toNat_lt
  rw [toBe16, wordSum, wordSum, UInt8.toNat_ofNat', UInt8.toNat_ofNat']
  omega

/-! ## Folding -/

variable (sum : UInt32)

def foldOnce : UInt32 := (sum &&& (0xffff : UInt32)) + (sum >>> (16 : UInt32))

/-- `while sum >> 16 != 0`: fold once; with the iterations left. -/
def foldCarry : ℕ → UInt32 → UInt32
  | 0, sum => sum
  | fuel + 1, sum => if sum >>> 16 = 0 then sum else foldCarry fuel (foldOnce sum)

theorem toNat_shiftRight_16 : (sum >>> 16).toNat = sum.toNat / 65536 := by
  rw [UInt32.toNat_shiftRight]
  change sum.toNat >>> 16 = _
  rw [Nat.shiftRight_eq_div_pow]

theorem toNat_and_ffff : (sum &&& 0xffff).toNat = sum.toNat % 65536 := by
  rw [UInt32.toNat_and]
  change sum.toNat &&& (2 ^ 16 - 1) = _
  rw [Nat.and_two_pow_sub_one_eq_mod]

theorem foldOnce_toNat : (foldOnce sum).toNat = sum.toNat % 65536 + sum.toNat / 65536 := by
  have hlt := sum.toNat_lt
  rw [foldOnce, UInt32.toNat_add, toNat_and_ffff, toNat_shiftRight_16]
  omega

theorem foldCarry_spec {fuel : ℕ} {sum : UInt32} (h : sum.toNat ≤ fuel) :
    (foldCarry fuel sum).toNat < 65536 ∧ (foldCarry fuel sum).toNat % 65535 = sum.toNat % 65535 ∧
      ((foldCarry fuel sum).toNat = 0 ↔ sum.toNat = 0) := by
  induction fuel generalizing sum with
  | zero =>
    have hz : sum.toNat = 0 := by omega
    rw [foldCarry, hz]
    decide
  | succ fuel ih =>
    unfold foldCarry
    have hlt := sum.toNat_lt
    have hhigh := toNat_shiftRight_16 sum
    split
    next hs =>
      rw [hs] at hhigh
      have h0 : (0 : UInt32).toNat = 0 := rfl
      exact ⟨by omega, rfl, Iff.rfl⟩
    next hs =>
      have hpos : 0 < sum.toNat / 65536 := by
        rw [← hhigh]
        exact Nat.pos_of_ne_zero fun he => hs (UInt32.toNat_inj.mp he)
      have hnext := foldOnce_toNat sum
      have hle : (foldOnce sum).toNat ≤ fuel := by
        rw [hnext]
        omega
      obtain ⟨h1, h2, h3⟩ := ih hle
      rw [hnext] at h2 h3
      exact ⟨h1, by omega, by omega⟩

def complement : UInt16 := ~~~(foldCarry sum.toNat sum).toUInt16

theorem complement_toNat : (complement sum).toNat = 65535 - (foldCarry sum.toNat sum).toNat := by
  obtain ⟨hlt, _⟩ := foldCarry_spec (le_refl sum.toNat)
  rw [complement, UInt16.toNat_not, UInt32.toNat_toUInt16, Nat.mod_eq_of_lt hlt]
  rfl

theorem complement_eq_zero_iff : complement sum = 0 ↔ sum.toNat % 65535 = 0 ∧ sum.toNat ≠ 0 := by
  obtain ⟨hlt, hmod, hzero⟩ := foldCarry_spec (le_refl sum.toNat)
  have hc := complement_toNat sum
  have h0 : (0 : UInt16).toNat = 0 := rfl
  rw [← UInt16.toNat_inj, hc, h0]
  omega

/-- **The checksum law.** A message whose sum was completed by its own complement passes, also when
a zero complement is written as `0xffff`. -/
theorem complement_completed {sum sum' : UInt32} {c : UInt16}
    (hc : c = complement sum ∨ (complement sum = 0 ∧ c = 0xffff))
    (hsum : sum'.toNat = sum.toNat + c.toNat) (hpos : sum'.toNat ≠ 0) : complement sum' = 0 := by
  obtain ⟨hlt, hmod, _⟩ := foldCarry_spec (le_refl sum.toNat)
  have hn := complement_toNat sum
  rw [complement_eq_zero_iff]
  refine ⟨?_, hpos⟩
  obtain rfl | ⟨hz, rfl⟩ := hc
  · omega
  · have hr := (complement_eq_zero_iff sum).mp hz
    have hf : (0xffff : UInt16).toNat = 65535 := rfl
    omega

theorem complement_field (hadd : ∀ a b, a.toNat + b.toNat < 2 ^ 32 → (add a b).toNat = a.toNat + b.toNat)
    {pseudo front rest : List UInt8} {c : UInt16} (heven : front.length % 2 = 0)
    (hlen : pseudo.length + (front.length + 2 + rest.length) ≤ 2 ^ 17 - 2) (hpos : wordSum pseudo + wordSum front ≠ 0)
    (hc : c = complement (sumWords add 0 pseudo + sumWords add 0 (front ++ (toBe16 0 ++ rest))) ∨
      (complement (sumWords add 0 pseudo + sumWords add 0 (front ++ (toBe16 0 ++ rest))) = 0 ∧ c = 0xffff)) :
    complement (sumWords add 0 pseudo + sumWords add 0 (front ++ (toBe16 c ++ rest))) = 0 := by
  have hlen' : ∀ x, pseudo.length + (front ++ (toBe16 x ++ rest)).length ≤ 2 ^ 17 - 2 := by
    intro x
    rw [length_append, length_append, toBe16_length]
    omega
  have hsum : ∀ x, (sumWords add 0 pseudo + sumWords add 0 (front ++ (toBe16 x ++ rest))).toNat =
      wordSum pseudo + (wordSum front + (x.toNat + wordSum rest)) := by
    intro x
    rw [sumWords_parts hadd (hlen' x), wordSum_append heven, wordSum_append (by rw [toBe16_length]), wordSum_toBe16]
  have h0 : (0 : UInt16).toNat = 0 := rfl
  have hs0 := hsum 0
  have hsc := hsum c
  apply complement_completed hc
  · omega
  · omega

/-! ## One changed byte -/

theorem wordSum_change (front rest : List UInt8) {a b : UInt8} (h : a ≠ b) :
    wordSum (front ++ a :: rest) % 65535 ≠ wordSum (front ++ b :: rest) % 65535 := by
  have hne : a.toNat ≠ b.toNat := fun heq => h (UInt8.toNat_inj.mp heq)
  have ha := a.toNat_lt
  have hb := b.toNat_lt
  induction front using wordSum.induct with
  | case1 x y front ih =>
    simp only [cons_append, wordSum]
    omega
  | case2 x =>
    simp only [cons_append, nil_append, wordSum]
    omega
  | case3 => cases rest <;> simp only [nil_append, wordSum] <;> omega

theorem eq_of_complement (hadd : ∀ a b, a.toNat + b.toNat < 2 ^ 32 → (add a b).toNat = a.toNat + b.toNat)
    {pseudo front rest : List UInt8} {a b : UInt8} (hlen : pseudo.length + (front ++ a :: rest).length ≤ 2 ^ 17 - 2)
    (ha : complement (sumWords add 0 pseudo + sumWords add 0 (front ++ a :: rest)) = 0)
    (hb : complement (sumWords add 0 pseudo + sumWords add 0 (front ++ b :: rest)) = 0) : a = b := by
  by_contra hne
  have hchange := wordSum_change front rest hne
  rw [complement_eq_zero_iff, sumWords_parts hadd hlen] at ha
  rw [complement_eq_zero_iff, sumWords_parts hadd (by simpa using hlen)] at hb
  omega

end MochiSyscalls.Foundations.OnesComplement
