import MochiSyscalls.Foundations.Masks
import MochiSyscalls.Foundations.Words

/-! # Inherited descriptors

The keys and the metadata word under which a descriptor is passed to a new image
(`crates/posix-protocol/src/lib.rs`). A descriptor is an `i32` and is kept as an integer. -/

namespace MochiSyscalls.PosixProtocol
open Foundations Words Masks
set_option autoImplicit false

/-- `u64::from_le_bytes(*b"POSXFDTB")`. -/
def fdTableKey : UInt64 := 0x4254444658534f50
def fdTableVersion : UInt64 := 1

def fdHandleKeyPrefix : UInt64 := 0x504f534800000000
def fdMetadataKeyPrefix : UInt64 := 0x504f534600000000
def fdKeyIndexMask : UInt64 := 0xffffffff
def fdMetadataTag : UInt16 := 0x5046

def inheritedFdDescriptorCloexec : UInt8 := 1

structure InheritedFdMetadata where
  kind : UInt8
  openFlags : UInt32
  descriptorFlags : UInt8
  deriving DecidableEq

/-- `fd as u32 as u64`, after a prefix. -/
def keyOf (tag : UInt64) (fd : ℤ) : Option UInt64 :=
  if fd < 0 then none else some (tag ||| (UInt32.ofInt fd).toUInt64)

def fdHandleKey (fd : ℤ) : Option UInt64 := keyOf fdHandleKeyPrefix fd

def fdMetadataKey (fd : ℤ) : Option UInt64 := keyOf fdMetadataKeyPrefix fd

def standardKinds : List UInt8 := [1, 2, 3]

/-- Files, directories, streams, terminals, shared memory, sockets, devices and FIFOs. -/
def objectKinds : List UInt8 := [5, 6, 7, 8, 9, 10, 11, 12, 16, 13, 14, 15]

def validInheritedFdKind (kind : UInt8) : Bool := standardKinds.contains kind || objectKinds.contains kind

def inheritedFdKindRequiresHandle (kind : UInt8) : Option Bool :=
  if !validInheritedFdKind kind then none else some (objectKinds.contains kind)

def InheritedFdMetadata.bad (metadata : InheritedFdMetadata) : Bool :=
  !validInheritedFdKind metadata.kind || metadata.descriptorFlags &&& ~~~inheritedFdDescriptorCloexec != 0

def encodeInheritedFdMetadata (metadata : InheritedFdMetadata) : Option UInt64 :=
  if metadata.bad then none
  else
    some (metadata.openFlags.toUInt64 ||| (metadata.descriptorFlags.toUInt64 <<< 32) |||
      (metadata.kind.toUInt64 <<< 40) ||| (fdMetadataTag.toUInt64 <<< 48))

def decodeInheritedFdMetadata (value : UInt64) : Option InheritedFdMetadata :=
  if (value >>> 48).toUInt16 ≠ fdMetadataTag then none
  else
    let metadata : InheritedFdMetadata :=
      { kind := (value >>> 40).toUInt8, openFlags := value.toUInt32, descriptorFlags := (value >>> 32).toUInt8 }
    if metadata.bad then none else some metadata

def inheritedFdFromKey (key : UInt64) : Option ℤ :=
  let tag := key &&& ~~~fdKeyIndexMask
  if tag ≠ fdHandleKeyPrefix ∧ tag ≠ fdMetadataKeyPrefix then none
  else
    let index := (key &&& fdKeyIndexMask).toUInt32
    if 0x7fffffff < index then none else some index.toNat

/-! ## Keys -/

def IsFd (fd : ℤ) : Prop := 0 ≤ fd ∧ fd < 2 ^ 31

variable {fd : ℤ}

theorem ofInt_toNat (hfd : IsFd fd) : ((UInt32.ofInt fd).toNat : ℤ) = fd := by
  obtain ⟨hlow, hhigh⟩ := hfd
  rw [UInt32.ofInt, UInt32.toNat_ofNat']
  omega

variable {tag : UInt64} {upper : ℕ}

theorem or_low_toNat (htag : tag.toNat = 2 ^ 32 * upper) (low : UInt32) :
    (tag ||| low.toUInt64).toNat = 2 ^ 32 * upper + low.toNat := by
  rw [UInt64.toNat_or, UInt32.toNat_toUInt64, htag]
  exact (Nat.two_pow_add_eq_or_of_lt low.toNat_lt upper).symm

theorem keyOf_eq (htag : tag.toNat = 2 ^ 32 * upper) (hfd : IsFd fd) :
    ∃ key : UInt64, keyOf tag fd = some key ∧ (key.toNat : ℤ) = 2 ^ 32 * upper + fd := by
  refine ⟨tag ||| (UInt32.ofInt fd).toUInt64, if_neg (not_lt.2 hfd.1), ?_⟩
  have hlow := ofInt_toNat hfd
  rw [or_low_toNat htag]
  push_cast
  omega

theorem fdHandleKey_eq (hfd : IsFd fd) :
    ∃ key : UInt64, fdHandleKey fd = some key ∧ (key.toNat : ℤ) = 2 ^ 32 * 0x504f5348 + fd :=
  keyOf_eq (by decide) hfd

theorem fdMetadataKey_eq (hfd : IsFd fd) :
    ∃ key : UInt64, fdMetadataKey fd = some key ∧ (key.toNat : ℤ) = 2 ^ 32 * 0x504f5346 + fd :=
  keyOf_eq (by decide) hfd

theorem fdTableKey_toNat : fdTableKey.toNat = 0x4254444658534f50 := by decide

variable {fd' : ℤ}

section

variable (hfd : IsFd fd)
include hfd

theorem fdHandleKey_injective
    (hfd' : IsFd fd') (h : fdHandleKey fd = fdHandleKey fd') : fd = fd' := by
  obtain ⟨key, hkey, hval⟩ := fdHandleKey_eq hfd
  obtain ⟨key', hkey', hval'⟩ := fdHandleKey_eq hfd'
  rw [hkey, hkey', Option.some.injEq] at h
  subst h
  omega

theorem fdMetadataKey_injective (hfd' : IsFd fd') (h : fdMetadataKey fd = fdMetadataKey fd') : fd = fd' := by
  obtain ⟨key, hkey, hval⟩ := fdMetadataKey_eq hfd
  obtain ⟨key', hkey', hval'⟩ := fdMetadataKey_eq hfd'
  rw [hkey, hkey', Option.some.injEq] at h
  subst h
  omega

theorem fdHandleKey_ne_fdMetadataKey (hfd' : IsFd fd') : fdHandleKey fd ≠ fdMetadataKey fd' := by
  obtain ⟨key, hkey, hval⟩ := fdHandleKey_eq hfd
  obtain ⟨key', hkey', hval'⟩ := fdMetadataKey_eq hfd'
  obtain ⟨hlow, hhigh⟩ := hfd
  obtain ⟨hlow', hhigh'⟩ := hfd'
  intro h
  rw [hkey, hkey', Option.some.injEq] at h
  subst h
  omega

theorem fdHandleKey_ne_fdTableKey : fdHandleKey fd ≠ some fdTableKey := by
  obtain ⟨key, hkey, hval⟩ := fdHandleKey_eq hfd
  obtain ⟨hlow, hhigh⟩ := hfd
  intro h
  rw [hkey, Option.some.injEq] at h
  have := fdTableKey_toNat
  rw [← h] at this
  omega

theorem fdMetadataKey_ne_fdTableKey : fdMetadataKey fd ≠ some fdTableKey := by
  obtain ⟨key, hkey, hval⟩ := fdMetadataKey_eq hfd
  obtain ⟨hlow, hhigh⟩ := hfd
  intro h
  rw [hkey, Option.some.injEq] at h
  have := fdTableKey_toNat
  rw [← h] at this
  omega

end

theorem fdKeyIndexMask_toNat : fdKeyIndexMask.toNat = 2 ^ 32 - 1 := by decide

theorem inheritedFdFromKey_of_toNat {key : UInt64} (hfd : IsFd fd)
    (htag : tag.toNat = 2 ^ 32 * upper) (hkind : tag = fdHandleKeyPrefix ∨ tag = fdMetadataKeyPrefix)
    (hkey : (key.toNat : ℤ) = 2 ^ 32 * upper + fd) : inheritedFdFromKey key = some fd := by
  obtain ⟨hlow, hhigh⟩ := hfd
  have hupper : key &&& ~~~fdKeyIndexMask = tag := by
    apply UInt64.toNat_inj.1
    rw [and_not_mask_toNat fdKeyIndexMask_toNat, htag]
    omega
  have hindex : ((key &&& fdKeyIndexMask).toUInt32.toNat : ℤ) = fd := by
    rw [UInt64.toNat_toUInt32, and_mask_toNat fdKeyIndexMask_toNat]
    omega
  have hsmall : ¬ (0x7fffffff : UInt32) < (key &&& fdKeyIndexMask).toUInt32 := by
    rw [UInt32.lt_iff_toNat_lt, show (0x7fffffff : UInt32).toNat = 0x7fffffff by decide]
    omega
  unfold inheritedFdFromKey
  rw [hupper]
  simp only [if_neg hsmall, hindex]
  rw [if_neg]
  rcases hkind with rfl | rfl <;> simp

theorem inheritedFdFromKey_fdHandleKey (hfd : IsFd fd) : (fdHandleKey fd).bind inheritedFdFromKey = some fd := by
  obtain ⟨key, hkey, hval⟩ := fdHandleKey_eq hfd
  rw [hkey]
  exact inheritedFdFromKey_of_toNat hfd (by decide) (.inl rfl) hval

theorem inheritedFdFromKey_fdMetadataKey (hfd : IsFd fd) : (fdMetadataKey fd).bind inheritedFdFromKey = some fd := by
  obtain ⟨key, hkey, hval⟩ := fdMetadataKey_eq hfd
  rw [hkey]
  exact inheritedFdFromKey_of_toNat hfd (by decide) (.inr rfl) hval

/-! ## Metadata -/

theorem metadata_toNat (openFlags : UInt32) (descriptorFlags kind : UInt8) :
    (openFlags.toUInt64 ||| (descriptorFlags.toUInt64 <<< 32) ||| (kind.toUInt64 <<< 40) |||
      (fdMetadataTag.toUInt64 <<< 48)).toNat =
      openFlags.toNat + 2 ^ 32 * descriptorFlags.toNat + 2 ^ 40 * kind.toNat + 2 ^ 48 * 0x5046 := by
  have hopen := openFlags.toNat_lt
  have hdescriptor := descriptorFlags.toNat_lt
  have hkind := kind.toNat_lt
  have htag : fdMetadataTag.toUInt64.toNat = 0x5046 := by decide
  have flags := or_shiftLeft_toNat (a := openFlags.toUInt64) (b := descriptorFlags.toUInt64) (s := 32)
  rw [show (32 : UInt64).toNat = 32 by decide, UInt32.toNat_toUInt64, UInt8.toNat_toUInt64] at flags
  have kinds := or_shiftLeft_toNat (a := openFlags.toUInt64 ||| descriptorFlags.toUInt64 <<< 32)
    (b := kind.toUInt64) (s := 40)
  rw [show (40 : UInt64).toNat = 40 by decide, UInt8.toNat_toUInt64, flags (by omega) (by omega) (by omega)] at kinds
  have whole := or_shiftLeft_toNat
    (a := openFlags.toUInt64 ||| descriptorFlags.toUInt64 <<< 32 ||| kind.toUInt64 <<< 40)
    (b := fdMetadataTag.toUInt64) (s := 48)
  rw [show (48 : UInt64).toNat = 48 by decide, htag, kinds (by omega) (by omega) (by omega)] at whole
  exact whole (by omega) (by omega) (by omega)

theorem decode_encode {metadata : InheritedFdMetadata} {word : UInt64}
    (h : encodeInheritedFdMetadata metadata = some word) : decodeInheritedFdMetadata word = some metadata := by
  unfold encodeInheritedFdMetadata at h
  split at h
  · cases h
  next hgood =>
    rw [Option.some.injEq] at h
    have hword := metadata_toNat metadata.openFlags metadata.descriptorFlags metadata.kind
    rw [h] at hword
    have hopen := metadata.openFlags.toNat_lt
    have hdescriptor := metadata.descriptorFlags.toNat_lt
    have hkind := metadata.kind.toNat_lt
    have htag : (word >>> 48).toUInt16 = fdMetadataTag := by
      apply UInt16.toNat_inj.1
      rw [UInt64.toNat_toUInt16, UInt64.toNat_shiftRight, hword, Nat.shiftRight_eq_div_pow,
        show fdMetadataTag.toNat = 0x5046 by decide, show (48 : UInt64).toNat % 64 = 48 by decide]
      omega
    have hkindBits : (word >>> 40).toUInt8 = metadata.kind := by
      apply UInt8.toNat_inj.1
      rw [UInt64.toNat_toUInt8, UInt64.toNat_shiftRight, hword, Nat.shiftRight_eq_div_pow,
        show (40 : UInt64).toNat % 64 = 40 by decide]
      omega
    have hopenBits : word.toUInt32 = metadata.openFlags := by
      apply UInt32.toNat_inj.1
      rw [UInt64.toNat_toUInt32, hword]
      omega
    have hdescriptorBits : (word >>> 32).toUInt8 = metadata.descriptorFlags := by
      apply UInt8.toNat_inj.1
      rw [UInt64.toNat_toUInt8, UInt64.toNat_shiftRight, hword, Nat.shiftRight_eq_div_pow,
        show (32 : UInt64).toNat % 64 = 32 by decide]
      omega
    unfold decodeInheritedFdMetadata
    rw [if_neg (not_not_intro htag), hkindBits, hopenBits, hdescriptorBits]
    exact if_neg hgood

end MochiSyscalls.PosixProtocol
