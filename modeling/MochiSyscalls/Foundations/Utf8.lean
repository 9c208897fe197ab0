import Mathlib

/-! # UTF-8

`valid` is the check of `core::str::from_utf8`: every character is in its shortest form, no
surrogates, nothing above U+10FFFF. -/

namespace MochiSyscalls.Foundations.Utf8
set_option autoImplicit false

def tail (b : UInt8) : Bool := 0x80 ≤ b && b ≤ 0xbf

def two (a b : UInt8) : Bool := 0xc2 ≤ a && a ≤ 0xdf && tail b

def three (a b c : UInt8) : Bool :=
  ((a == 0xe0 && 0xa0 ≤ b && b ≤ 0xbf) || (0xe1 ≤ a && a ≤ 0xec && tail b) || (a == 0xed && 0x80 ≤ b && b ≤ 0x9f) ||
    (0xee ≤ a && a ≤ 0xef && tail b)) && tail c

def four (a b c d : UInt8) : Bool :=
  ((a == 0xf0 && 0x90 ≤ b && b ≤ 0xbf) || (0xf1 ≤ a && a ≤ 0xf3 && tail b) || (a == 0xf4 && 0x80 ≤ b && b ≤ 0x8f)) &&
    tail c && tail d

def valid : List UInt8 → Bool
  | [] => true
  | a :: rest =>
    if a < 0x80 then valid rest
    else
      match rest with
      | [] => false
      | b :: rest =>
        if two a b then valid rest
        else
          match rest with
          | [] => false
          | c :: rest =>
            if three a b c then valid rest
            else
              match rest with
              | [] => false
              | d :: rest => four a b c d && valid rest

theorem valid_of_ascii {bytes : List UInt8} (h : ∀ b ∈ bytes, b < 0x80) : valid bytes = true := by
  induction bytes with
  | nil => rfl
  | cons b bytes ih =>
    unfold valid
    rw [if_pos (h b (List.mem_cons_self ..))]
    exact ih fun c hc => h c (List.mem_cons_of_mem _ hc)

/-! ## ASCII -/

/-- `b'c'`. -/
def byte (c : Char) : UInt8 := UInt8.ofNat c.toNat

/-- `b"..."` of ASCII characters. -/
def ascii (s : String) : List UInt8 := s.toList.map byte

/-- The pattern `b'lo'..=b'hi'`. -/
def within (lo hi : Char) (b : UInt8) : Bool := byte lo ≤ b && b ≤ byte hi

theorem forall_byte {P : UInt8 → Prop} (h : ∀ n < 256, P (UInt8.ofNat n)) (b : UInt8) : P b := by
  have hb := h b.toNat b.toNat_lt
  rwa [UInt8.ofNat_toNat] at hb

/-! ## Texts -/

/-- `str`: bytes that are UTF-8. -/
abbrev Text : Type := { bytes : List UInt8 // valid bytes = true }

def textOf (s : String) (h : valid (ascii s) = true) : Text := ⟨ascii s, h⟩

def fromUtf8 (bytes : List UInt8) : Option Text := if h : valid bytes = true then some ⟨bytes, h⟩ else none

theorem fromUtf8_eq_some {bytes : List UInt8} {text : Text} : fromUtf8 bytes = some text ↔ bytes = text.1 := by
  unfold fromUtf8
  constructor
  · intro h
    split at h
    · rw [← Option.some.inj h]
    · cases h
  · rintro rfl
    rw [dif_pos text.2]

end MochiSyscalls.Foundations.Utf8
