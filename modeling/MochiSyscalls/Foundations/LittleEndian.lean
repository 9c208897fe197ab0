import MochiSyscalls.Foundations.Bytes

/-! # Little-endian words

`toLe n x` are the `n` bytes of a number, least significant first, and `ofLe` is the number of a
list of bytes; `readLe` reads a word inside a buffer. -/

namespace MochiSyscalls.Foundations.Bytes
open List
set_option autoImplicit false

def toLe : ℕ → ℕ → List UInt8
  | 0, _ => []
  | n + 1, x => UInt8.ofNat (x % 256) :: toLe n (x / 256)

def ofLe : List UInt8 → ℕ
  | [] => 0
  | b :: bytes => b.toNat + 256 * ofLe bytes

@[simp] theorem toLe_length (n x : ℕ) : (toLe n x).length = n := by
  induction n generalizing x with
  | zero => rfl
  | succ n ih => rw [toLe, length_cons, ih]

variable (bytes : List UInt8)

theorem ofLe_lt : ofLe bytes < 256 ^ bytes.length := by
  induction bytes with
  | nil => exact Nat.one_pos
  | cons b bytes ih =>
    have hb := b.toNat_lt
    rw [ofLe, length_cons, pow_succ]
    omega

theorem ofLe_toLe {n x : ℕ} (h : x < 256 ^ n) : ofLe (toLe n x) = x := by
  induction n generalizing x with
  | zero =>
    rw [pow_zero] at h
    rw [toLe, ofLe]
    omega
  | succ n ih =>
    rw [pow_succ] at h
    rw [toLe, ofLe, ih (by omega), UInt8.toNat_ofNat']
    omega

theorem toLe_ofLe : toLe bytes.length (ofLe bytes) = bytes := by
  induction bytes with
  | nil => rfl
  | cons b bytes ih =>
    have hb := b.toNat_lt
    rw [length_cons, toLe, ofLe, show (b.toNat + 256 * ofLe bytes) % 256 = b.toNat by omega,
      show (b.toNat + 256 * ofLe bytes) / 256 = ofLe bytes by omega, ih, UInt8.ofNat_toNat]

/-- The `n`-byte word at an offset, `none` when it is not inside the buffer. -/
def readLe (n : ℕ) (bytes : List UInt8) (offset : ℕ) : Option ℕ := (slice bytes offset (offset + n)).map ofLe

theorem readLe_isSome {n : ℕ} {bytes : List UInt8} {offset : ℕ} (h : offset + n ≤ bytes.length) :
    ∃ x, readLe n bytes offset = some x := by
  unfold readLe
  rw [slice_isSome (Nat.le_add_right _ _) h]
  exact ⟨_, rfl⟩

theorem readLe_eq_some {n x : ℕ} {bytes : List UInt8} {offset : ℕ} :
    readLe n bytes offset = some x ↔ slice bytes offset (offset + n) = some (toLe n x) ∧ x < 256 ^ n := by
  unfold readLe
  constructor
  · intro h
    obtain ⟨body, hs, rfl⟩ := Option.map_eq_some_iff.mp h
    have hlen : body.length = n := by
      rw [slice_length hs]
      omega
    have hlt := ofLe_lt body
    have hback := toLe_ofLe body
    rw [hlen] at hlt hback
    exact ⟨by rw [hs, hback], hlt⟩
  · rintro ⟨hs, hx⟩
    rw [hs, Option.map_some, ofLe_toLe hx]

/-! ## Buffers made of parts -/

/-- `[u8; n]`. -/
abbrev Fixed (n : ℕ) : Type := { bytes : List UInt8 // bytes.length = n }

theorem slice_append (front body rest : List UInt8) :
    slice (front ++ (body ++ rest)) front.length (front.length + body.length) = some body := by
  rw [slice_isSome (Nat.le_add_right _ _) (by simp only [length_append]; omega), ← append_assoc,
    take_left' (by rw [length_append]), drop_left]

theorem slice_eq_some {bytes body : List UInt8} {start stop : ℕ} : slice bytes start stop = some body ↔
      ∃ front rest, bytes = front ++ (body ++ rest) ∧ front.length = start ∧ start + body.length = stop := by
  constructor
  · intro h
    have hlen := slice_length h
    unfold slice at h
    split at h
    next hr =>
      have hbody := Option.some.inj h
      refine ⟨bytes.take start, bytes.drop stop, ?_, by rw [length_take, min_eq_left (by omega)], by omega⟩
      have hfront : bytes.take start = (bytes.take stop).take start := by rw [take_take, min_eq_left hr.1]
      rw [← hbody, ← append_assoc, hfront, take_append_drop, take_append_drop]
    · cases h
  · rintro ⟨front, rest, rfl, rfl, rfl⟩
    exact slice_append _ _ _

theorem slice_stop {bytes body : List UInt8} {start stop : ℕ} (h : slice bytes start stop = some body) :
    start + body.length = stop := by
  obtain ⟨_, _, -, -, hstop⟩ := slice_eq_some.mp h
  exact hstop

theorem slice_whole : slice bytes 0 bytes.length = some bytes :=
  slice_eq_some.mpr ⟨[], [], by simp, rfl, Nat.zero_add _⟩

theorem eq_of_slice_whole {bytes body : List UInt8} (h : slice bytes 0 bytes.length = some body) : bytes = body :=
  Option.some.inj ((slice_whole bytes).symm.trans h)

theorem slice_append_iff {bytes left right : List UInt8} {start stop : ℕ} :
    slice bytes start stop = some (left ++ right) ↔
      slice bytes start (start + left.length) = some left ∧ slice bytes (start + left.length) stop = some right := by
  simp only [slice_eq_some]
  constructor
  · rintro ⟨front, rest, rfl, rfl, rfl⟩
    refine ⟨⟨front, right ++ rest, by simp only [append_assoc], rfl, trivial⟩,
      ⟨front ++ left, rest, by simp only [append_assoc], by rw [length_append], ?_⟩⟩
    rw [length_append]
    omega
  · rintro ⟨⟨front, rest, rfl, rfl, -⟩, ⟨front', rest', heq, hlen, rfl⟩⟩
    rw [← append_assoc] at heq
    obtain ⟨rfl, rfl⟩ := append_inj heq (by rw [hlen, length_append])
    exact ⟨front, rest', by simp only [append_assoc], rfl, by rw [length_append]; omega⟩

end MochiSyscalls.Foundations.Bytes
