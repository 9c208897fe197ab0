import Mathlib

/-! # Byte buffers

Big-endian words, the slices of a buffer and the writes into it. A buffer is a list of bytes;
`splice` overwrites a range of it, and a write inside a known front part of the buffer is a write
into that part. -/

namespace MochiSyscalls.Foundations.Bytes
open List
set_option autoImplicit false

/-! ## Big-endian words -/

variable (x : UInt16)

def toBe16 : List UInt8 := [UInt8.ofNat (x.toNat / 256), UInt8.ofNat (x.toNat % 256)]

def ofBe16 (a b : UInt8) : UInt16 := UInt16.ofNat (a.toNat * 256 + b.toNat)

def toBe32 (x : UInt32) : List UInt8 :=
  [UInt8.ofNat (x.toNat / 16777216), UInt8.ofNat (x.toNat / 65536 % 256),
    UInt8.ofNat (x.toNat / 256 % 256), UInt8.ofNat (x.toNat % 256)]

def ofBe32 (a b c d : UInt8) : UInt32 :=
  UInt32.ofNat (a.toNat * 16777216 + b.toNat * 65536 + c.toNat * 256 + d.toNat)

@[simp] theorem toBe16_length : (toBe16 x).length = 2 := rfl

theorem ofBe16_toNat (a b : UInt8) : (ofBe16 a b).toNat = a.toNat * 256 + b.toNat := by
  have ha := a.toNat_lt
  have hb := b.toNat_lt
  rw [ofBe16, UInt16.toNat_ofNat']
  omega

theorem ofBe16_toBe16 : ofBe16 (UInt8.ofNat (x.toNat / 256)) (UInt8.ofNat (x.toNat % 256)) = x := by
  have hx := x.toNat_lt
  apply UInt16.toNat_inj.mp
  rw [ofBe16_toNat, UInt8.toNat_ofNat', UInt8.toNat_ofNat']
  omega

theorem ofBe32_toBe32 (x : UInt32) : ofBe32 (UInt8.ofNat (x.toNat / 16777216)) (UInt8.ofNat (x.toNat / 65536 % 256))
      (UInt8.ofNat (x.toNat / 256 % 256)) (UInt8.ofNat (x.toNat % 256)) = x := by
  have hx := x.toNat_lt
  apply UInt32.toNat_inj.mp
  rw [ofBe32, UInt32.toNat_ofNat', UInt8.toNat_ofNat', UInt8.toNat_ofNat', UInt8.toNat_ofNat', UInt8.toNat_ofNat']
  omega

/-! ## Writes and slices -/

/-- `out[offset..offset + bytes.len()].copy_from_slice(bytes)`, for a range inside the buffer. -/
def splice (out : List UInt8) (offset : ℕ) (bytes : List UInt8) : List UInt8 :=
  out.take offset ++ bytes ++ out.drop (offset + bytes.length)

variable (bytes : List UInt8)

/-- `bytes.get(start..stop)`. -/
def slice (start stop : ℕ) : Option (List UInt8) :=
  if start ≤ stop ∧ stop ≤ bytes.length then some ((bytes.take stop).drop start) else none

/-- `u16::from_be_bytes([bytes[offset], bytes[offset + 1]])`, `none` when an index is out of range. -/
def readU16 (offset : ℕ) : Option UInt16 := do
  let a ← bytes[offset]?
  let b ← bytes[offset + 1]?
  return ofBe16 a b

def readU32 (offset : ℕ) : Option UInt32 := do
  let a ← bytes[offset]?
  let b ← bytes[offset + 1]?
  let c ← bytes[offset + 2]?
  let d ← bytes[offset + 3]?
  return ofBe32 a b c d

theorem splice_end (front rest bytes : List UInt8) :
    splice (front ++ rest) front.length bytes = front ++ bytes ++ rest.drop bytes.length := by
  unfold splice
  rw [take_left, drop_append]
  simp

theorem slice_isSome {bytes : List UInt8} {start stop : ℕ} (h : start ≤ stop) (h' : stop ≤ bytes.length) :
    slice bytes start stop = some ((bytes.take stop).drop start) := if_pos ⟨h, h'⟩

theorem slice_eq_none {bytes : List UInt8} {start stop : ℕ} (h : slice bytes start stop = none) :
    stop < start ∨ bytes.length < stop := by
  unfold slice at h
  split at h
  · cases h
  · omega

theorem slice_length {bytes body : List UInt8} {start stop : ℕ} (h : slice bytes start stop = some body) :
    body.length = stop - start := by
  unfold slice at h
  split at h
  next hr =>
    cases h
    rw [length_drop, length_take, min_eq_left hr.2]
  · cases h

theorem readU16_isSome {bytes : List UInt8} {offset : ℕ} (h : offset + 1 < bytes.length) :
    ∃ x, readU16 bytes offset = some x := by
  unfold readU16
  rw [getElem?_eq_getElem (by omega), getElem?_eq_getElem h]
  exact ⟨_, rfl⟩

theorem readU32_isSome {bytes : List UInt8} {offset : ℕ} (h : offset + 3 < bytes.length) :
    ∃ x, readU32 bytes offset = some x := by
  unfold readU32
  rw [getElem?_eq_getElem (by omega), getElem?_eq_getElem (by omega),
    getElem?_eq_getElem (by omega), getElem?_eq_getElem h]
  exact ⟨_, rfl⟩

end MochiSyscalls.Foundations.Bytes
