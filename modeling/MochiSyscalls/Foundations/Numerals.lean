import MochiSyscalls.Foundations.Utf8

/-! # Numerals

`fromStrRadix` is the parser of the unsigned integer types: an optional plus sign, digits, and a bound
that is checked digit by digit. `decimal` prints a number. -/

namespace MochiSyscalls.Foundations.Numerals
open Utf8 List Option
set_option autoImplicit false

/-- `char::to_digit`. -/
def toDigit (radix : ℕ) (b : UInt8) : Option ℕ :=
  let d :=
    if within '0' '9' b then b.toNat - 48
    else if within 'a' 'z' b then b.toNat - 87
    else if within 'A' 'Z' b then b.toNat - 55
    else radix
  if d < radix then some d else none

def addDigit (radix max acc : ℕ) (b : UInt8) : Option ℕ :=
  (toDigit radix b).bind fun d => if acc * radix + d ≤ max then some (acc * radix + d) else none

/-- `from_str_radix` of an unsigned type with the largest value `max`. -/
def fromStrRadix (radix max : ℕ) (bytes : List UInt8) : Option ℕ :=
  if bytes = [] ∨ bytes = [byte '+'] ∨ bytes = [byte '-'] then none
  else
    let digits := if bytes.head? = some (byte '+') then bytes.tail else bytes
    digits.foldlM (addDigit radix max) 0

/-- `to_string`. -/
def decimal (n : ℕ) : List UInt8 := (Nat.toDigits 10 n).map byte

/-! ## The value of a numeral -/

def numeralFrom (radix acc : ℕ) (bytes : List UInt8) : Option ℕ :=
  bytes.foldlM (fun acc b => (toDigit radix b).map (acc * radix + ·)) acc

abbrev numeral (radix : ℕ) (bytes : List UInt8) : Option ℕ := numeralFrom radix 0 bytes

variable {radix max acc n : ℕ} {bytes : List UInt8}

theorem numeralFrom_cons {b : UInt8} :
    numeralFrom radix acc (b :: bytes) = (toDigit radix b).bind fun d => numeralFrom radix (acc * radix + d) bytes := by
  simp only [numeralFrom, foldlM_cons, bind_eq_bind]
  cases toDigit radix b <;> rfl

theorem numeralFrom_append {left right : List UInt8} :
    numeralFrom radix acc (left ++ right) = (numeralFrom radix acc left).bind (numeralFrom radix · right) :=
  foldlM_append

theorem le_of_numeralFrom (hradix : 0 < radix) (h : numeralFrom radix acc bytes = some n) : acc ≤ n := by
  induction bytes generalizing acc with
  | nil => exact (some.inj h).le
  | cons b bytes ih =>
    rw [numeralFrom_cons] at h
    obtain ⟨d, -, h⟩ := bind_eq_some_iff.mp h
    have hle := ih h
    have hmul := Nat.le_mul_of_pos_right acc hradix
    omega

theorem foldlM_addDigit (hradix : 0 < radix) (hacc : acc ≤ max) :
    bytes.foldlM (addDigit radix max) acc = some n ↔ numeralFrom radix acc bytes = some n ∧ n ≤ max := by
  induction bytes generalizing acc with
  | nil =>
    constructor
    · intro h
      obtain rfl := some.inj h
      exact ⟨rfl, hacc⟩
    · rintro ⟨h, -⟩
      exact h
  | cons b bytes ih =>
    rw [foldlM_cons, numeralFrom_cons, addDigit]
    cases toDigit radix b with
    | none => exact iff_of_false nofun (fun h => by cases h.1)
    | some d =>
      simp only [bind_some]
      split
      next hle => exact ih hle
      next hgt =>
        refine iff_of_false nofun fun h => ?_
        have hle := le_of_numeralFrom hradix h.1
        omega

theorem isSome_of_numeralFrom (h : numeralFrom radix acc bytes = some n) : ∀ b ∈ bytes, (toDigit radix b).isSome := by
  induction bytes generalizing acc with
  | nil => exact nofun
  | cons b bytes ih =>
    rw [numeralFrom_cons] at h
    obtain ⟨d, hd, h⟩ := bind_eq_some_iff.mp h
    exact forall_mem_cons.mpr ⟨by rw [hd]; rfl, ih h⟩

theorem numeralFrom_isSome (h : ∀ b ∈ bytes, (toDigit radix b).isSome) : (numeralFrom radix acc bytes).isSome := by
  induction bytes generalizing acc with
  | nil => rfl
  | cons b bytes ih =>
    obtain ⟨hb, hrest⟩ := forall_mem_cons.mp h
    obtain ⟨d, hd⟩ := isSome_iff_exists.mp hb
    rw [numeralFrom_cons, hd, bind_some]
    exact ih hrest

theorem fromStrRadix_eq_some (hradix : 0 < radix) (hplus : toDigit radix (byte '+') = none)
    (hminus : toDigit radix (byte '-') = none) :
    fromStrRadix radix max bytes = some n ↔
      ∃ digits, (bytes = digits ∨ bytes = byte '+' :: digits) ∧ digits ≠ [] ∧ numeral radix digits = some n ∧
        n ≤ max := by
  have hsign : ∀ {b : UInt8} {rest : List UInt8}, toDigit radix b = none → numeral radix (b :: rest) ≠ some n := by
    intro b rest hb h
    rw [numeral, numeralFrom_cons, hb] at h
    cases h
  unfold fromStrRadix
  split
  next hbytes =>
    refine iff_of_false nofun ?_
    rintro ⟨digits, rfl | rfl, hne, hnum, -⟩
    · rcases hbytes with rfl | rfl | rfl
      · exact hne rfl
      · exact hsign hplus hnum
      · exact hsign hminus hnum
    · rcases hbytes with h | h | h
      · cases h
      · exact hne (cons.inj h).2
      · exact hne (cons.inj h).2
  next hbytes =>
    push Not at hbytes
    dsimp only
    rw [foldlM_addDigit hradix (Nat.zero_le _)]
    split
    next hhead =>
      obtain ⟨rest, rfl⟩ := head?_eq_some_iff.mp hhead
      constructor
      · intro h
        exact ⟨rest, .inr rfl, fun hnil => hbytes.2.1 (by rw [hnil]), h⟩
      · rintro ⟨digits, rfl | hdigits, -, h⟩
        · exact (hsign hplus h.1).elim
        · rw [tail_cons, (cons.inj hdigits).2]
          exact h
    next hhead =>
      constructor
      · intro h
        exact ⟨bytes, .inl rfl, hbytes.1, h⟩
      · rintro ⟨digits, rfl | rfl, -, h⟩
        · exact h
        · exact absurd rfl hhead

/-! ## Printing -/

theorem toDigit_digitChar {d : ℕ} (h : d < 10) : toDigit 10 (byte d.digitChar) = some d := by
  interval_cases d <;> decide

theorem decimal_eq (n : ℕ) :
    decimal n = if n < 10 then [byte n.digitChar] else decimal (n / 10) ++ [byte (n % 10).digitChar] := by
  unfold decimal
  rw [Nat.toDigits_eq_if (by decide)]
  split
  · rfl
  · rw [map_append, map_singleton]

theorem numeral_decimal (n : ℕ) : numeral 10 (decimal n) = some n := by
  induction n using Nat.strong_induction_on with
  | h n ih =>
    rw [decimal_eq]
    split
    next hlt =>
      rw [numeral, numeralFrom_cons, toDigit_digitChar hlt, bind_some, Nat.zero_mul, Nat.zero_add]
      rfl
    next hge =>
      have htens : numeralFrom 10 0 (decimal (n / 10)) = some (n / 10) := ih (n / 10) (by omega)
      rw [numeral, numeralFrom_append, htens, bind_some, numeralFrom_cons, toDigit_digitChar (by omega),
        bind_some]
      exact congrArg some (by omega)

theorem decimal_ne_nil (n : ℕ) : decimal n ≠ [] := by
  rw [decimal_eq]
  split <;> simp

theorem decimal_digits (n : ℕ) : ∀ b ∈ decimal n, within '0' '9' b = true := by
  have hdigit : ∀ d, d < 10 → within '0' '9' (byte d.digitChar) = true := by
    intro d hd
    interval_cases d <;> decide
  induction n using Nat.strong_induction_on with
  | h n ih =>
    rw [decimal_eq]
    split
    next hlt => exact forall_mem_singleton.mpr (hdigit n hlt)
    next hge => refine forall_mem_append.mpr ⟨ih _ (by omega), forall_mem_singleton.mpr (hdigit _ (by omega))⟩

theorem fromStrRadix_decimal {n max : ℕ} (h : n ≤ max) : fromStrRadix 10 max (decimal n) = some n :=
  (fromStrRadix_eq_some (by decide) (by decide) (by decide)).mpr
    ⟨decimal n, .inl rfl, decimal_ne_nil n, numeral_decimal n, h⟩

end MochiSyscalls.Foundations.Numerals
