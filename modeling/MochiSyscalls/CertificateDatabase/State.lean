import MochiSyscalls.Foundations.Effects
import MochiSyscalls.Foundations.LittleEndian
import MochiSyscalls.Foundations.Utf8

/-! # The stored state of the certificate database

`DatabaseState` and `Etag` (`crates/certificate-database/src/lib.rs`). Slices and indices are checked:
one that is out of range is a panic. The validator of etags tests the two ends of an etag on their
own, so that a single quote is both of them, and the slice between them is out of range. -/

namespace MochiSyscalls.CertificateDatabase
open Foundations Bytes Effects Outcome List
set_option autoImplicit false

def magic : ℕ := 0x494b5043
def formatVersion : ℕ := 1
def maxEtagBytes : ℕ := 128
def checksumLen : ℕ := 32
def stateLen : ℕ := 392
def checksumOffset : ℕ := stateLen - checksumLen
def trustEtagOffset : ℕ := 104
def revocationEtagOffset : ℕ := trustEtagOffset + maxEtagBytes

/-- `Sha256::digest`; nothing is assumed of it. -/
abbrev Sha256 : Type := List UInt8 → Fixed checksumLen

inductive DecodeError where
  | invalidLength (expected actual : ℕ)
  | invalidMagic (magic : UInt32)
  | unsupportedVersion (version : UInt16)
  | invalidEncodedLength (length : UInt16)
  | invalidSlot (value : UInt8)
  | nonZeroReserved
  | invalidEtagLength (length : UInt16)
  | invalidEtag
  | checksumMismatch
  deriving DecidableEq, Repr

inductive Slot where
  | a | b
  deriving DecidableEq, Repr

namespace Slot

def inactive : Slot → Slot
  | a => b
  | b => a

def code : Slot → UInt8
  | a => 0
  | b => 1

def decode (value : UInt8) : Outcome DecodeError Slot :=
  if value = 0 then .value a else if value = 1 then .value b else .failed (.invalidSlot value)

theorem inactive_ne (s : Slot) : s.inactive ≠ s := by cases s <;> decide

theorem eq_or_inactive (s t : Slot) : t = s ∨ t = s.inactive := by
  cases s <;> cases t <;> decide

theorem inactive_inactive (s : Slot) : s.inactive.inactive = s := by cases s <;> rfl

theorem decode_eq_value {value : UInt8} {s : Slot} : decode value = .value s ↔ value = s.code := by
  unfold decode
  cases s <;> split_ifs with h h' <;> simp_all [code]

end Slot

/-! ## Etags -/

def etagByte (byte : UInt8) : Bool := byte == 0x21 || (0x23 ≤ byte && byte ≤ 0x7e)

def validEtag (bytes : List UInt8) : Outcome Empty Bool :=
  if [0x57, 0x2f, 0x22].isPrefixOf bytes ∧ [0x22].isSuffixOf bytes then do
    let between ← ofOption (slice bytes 3 (bytes.length - 1))
    return between.all etagByte
  else if [0x22].isPrefixOf bytes ∧ [0x22].isSuffixOf bytes then do
    let between ← ofOption (slice bytes 1 (bytes.length - 1))
    return between.all etagByte
  else .value false

inductive EtagError where
  | tooLong | invalid
  deriving DecidableEq, Repr

/-- The used part of the array, which is empty for no etag. -/
structure Etag where
  text : List UInt8
  short : text.length ≤ maxEtagBytes
  valid : text = [] ∨ validEtag text = .value true
  deriving DecidableEq

namespace Etag

def none : Etag := ⟨[], Nat.zero_le _, .inl rfl⟩

def parse (value : List UInt8) : Outcome EtagError Etag :=
  if hlen : value.length > maxEtagBytes then .failed .tooLong
  else if value = [] then .value none
  else
    match hvalid : validEtag value with
    | .panicked => .panicked
    | .value false => .failed .invalid
    | .value true => .value ⟨value, not_lt.mp hlen, .inr hvalid⟩

end Etag

/-! ## State -/

structure SnapshotMetadata where
  snapshotVersion : UInt64
  generatedAt : UInt64
  expiresAt : UInt64
  lastCheckedAt : UInt64
  etag : Etag
  deriving DecidableEq

def SnapshotMetadata.default : SnapshotMetadata :=
  { snapshotVersion := 0, generatedAt := 0, expiresAt := 0, lastCheckedAt := 0, etag := .none }

structure DatabaseState where
  generation : UInt64
  activeTrustSlot : Slot
  activeRevocationSlot : Slot
  trust : SnapshotMetadata
  revocations : SnapshotMetadata
  deriving DecidableEq

def DatabaseState.default : DatabaseState :=
  { generation := 0, activeTrustSlot := .a, activeRevocationSlot := .a, trust := .default, revocations := .default }

def zeros (n : ℕ) : List UInt8 := List.replicate n 0

namespace SnapshotMetadata

def values (m : SnapshotMetadata) : List (List UInt8) :=
  [toLe 8 m.snapshotVersion.toNat, toLe 8 m.generatedAt.toNat, toLe 8 m.expiresAt.toNat, toLe 8 m.lastCheckedAt.toNat]

def etagField (m : SnapshotMetadata) : List UInt8 := m.etag.text ++ zeros (maxEtagBytes - m.etag.text.length)

end SnapshotMetadata

namespace DatabaseState

/-- The writes of `encode` and `encode_metadata` up to the checksum, in the order of their offsets. -/
def fields (s : DatabaseState) : List (List UInt8) :=
  [toLe 4 magic, toLe 2 formatVersion, toLe 2 stateLen, toLe 8 s.generation.toNat, [s.activeTrustSlot.code],
    [s.activeRevocationSlot.code], zeros 6] ++ s.trust.values ++ [toLe 2 s.trust.etag.text.length, zeros 6] ++
    s.revocations.values ++ [toLe 2 s.revocations.etag.text.length, zeros 6, s.trust.etagField, s.revocations.etagField]

variable (sha : Sha256)

def encode (s : DatabaseState) : List UInt8 := (s.fields ++ [(sha s.fields.flatten).1]).flatten

inductive EncodeError where
  | bufferTooSmall (required actual : ℕ)
  | invalidEtag
  deriving DecidableEq, Repr

/-- `encode`: how much it wrote, and the buffer after it. An `Etag` is valid, so that `InvalidEtag` is not returned. -/
def encodeInto (s : DatabaseState) (output : List UInt8) : Except EncodeError (ℕ × List UInt8) :=
  if output.length < stateLen then .error (.bufferTooSmall stateLen output.length)
  else .ok (stateLen, encode sha s ++ output.drop stateLen)

def decodeHeader (input : List UInt8) : Outcome DecodeError (UInt64 × Slot × Slot) := do
  reject (input.length ≠ stateLen) (.invalidLength stateLen input.length)
  let magic' ← ofOption (readLe 4 input 0)
  reject (magic' ≠ magic) (.invalidMagic (UInt32.ofNat magic'))
  let version ← ofOption (readLe 2 input 4)
  reject (version ≠ formatVersion) (.unsupportedVersion (UInt16.ofNat version))
  let encodedLength ← ofOption (readLe 2 input 6)
  reject (encodedLength ≠ stateLen) (.invalidEncodedLength (UInt16.ofNat encodedLength))
  let first ← ofOption (slice input 18 24)
  let second ← ofOption (slice input 58 64)
  let third ← ofOption (slice input 98 104)
  reject (first.any (· ≠ 0) ∨ second.any (· ≠ 0) ∨ third.any (· ≠ 0)) .nonZeroReserved
  let generation ← ofOption (readLe 8 input 8)
  let trustSlot ← ofOption input[16]?
  let trustSlot ← Slot.decode trustSlot
  let revocationSlot ← ofOption input[17]?
  let revocationSlot ← Slot.decode revocationSlot
  return (UInt64.ofNat generation, trustSlot, revocationSlot)

/-- The text of an etag, checked for its length and padding. -/
def decodeEtagText (input : List UInt8) (lengthOffset etagOffset : ℕ) : Outcome DecodeError (List UInt8) := do
  let length ← ofOption (readLe 2 input lengthOffset)
  reject (length > maxEtagBytes) (.invalidEtagLength (UInt16.ofNat length))
  let etagBytes ← ofOption (slice input etagOffset (etagOffset + maxEtagBytes))
  let padding ← ofOption (slice etagBytes length etagBytes.length)
  reject (padding.any (· ≠ 0)) .nonZeroReserved
  let etagText ← ofOption (slice etagBytes 0 length)
  reject (Utf8.valid etagText = false) .invalidEtag
  return etagText

def decodeMetadata (input : List UInt8) (valuesOffset lengthOffset etagOffset : ℕ) :
    Outcome DecodeError SnapshotMetadata := do
  let etagText ← decodeEtagText input lengthOffset etagOffset
  let etag ← (Etag.parse etagText).mapError fun _ => DecodeError.invalidEtag
  let snapshotVersion ← ofOption (readLe 8 input valuesOffset)
  let generatedAt ← ofOption (readLe 8 input (valuesOffset + 8))
  let expiresAt ← ofOption (readLe 8 input (valuesOffset + 16))
  let lastCheckedAt ← ofOption (readLe 8 input (valuesOffset + 24))
  return { snapshotVersion := UInt64.ofNat snapshotVersion, generatedAt := UInt64.ofNat generatedAt,
           expiresAt := UInt64.ofNat expiresAt, lastCheckedAt := UInt64.ofNat lastCheckedAt, etag }

def decode (input : List UInt8) : Outcome DecodeError DatabaseState := do
  let (generation, activeTrustSlot, activeRevocationSlot) ← decodeHeader input
  let trust ← decodeMetadata input 24 56 trustEtagOffset
  let revocations ← decodeMetadata input 64 96 revocationEtagOffset
  let covered ← ofOption (slice input 0 checksumOffset)
  let checksum ← ofOption (slice input checksumOffset input.length)
  reject (checksum ≠ (sha covered).1) .checksumMismatch
  return { generation, activeTrustSlot, activeRevocationSlot, trust, revocations }

end DatabaseState

/-! ## Round trip -/

theorem ascii_of_between (front : List UInt8) {bytes between : List UInt8} (hfront : ∀ b ∈ front, b < 0x80)
    (hstart : front.isPrefixOf bytes = true) (hsuffix : [0x22].isSuffixOf bytes = true)
    (hslice : slice bytes front.length (bytes.length - 1) = some between) (hall : between.all etagByte = true) :
    ∀ b ∈ bytes, b < 0x80 := by
  obtain ⟨rest, rfl⟩ := isPrefixOf_iff_prefix.mp hstart
  obtain ⟨body, hbody⟩ := isSuffixOf_iff_suffix.mp hsuffix
  have hlen : (front ++ rest).length - 1 = body.length := by
    rw [← hbody, length_append, length_singleton]
    omega
  unfold slice at hslice
  split at hslice
  next hle =>
    rw [hlen] at hle
    rw [hlen, ← hbody, take_left] at hslice
    cases hslice
    have htake : body.take front.length = front := by
      have htaken := congrArg (take front.length) hbody
      rw [take_append_of_le_length hle.1, take_left] at htaken
      exact htaken
    intro b hb
    rw [← hbody, ← take_append_drop front.length body, htake, mem_append, mem_append] at hb
    obtain (hb | hb) | hb := hb
    · exact hfront b hb
    · have hbyte := all_eq_true.mp hall b hb
      unfold etagByte at hbyte
      simp only [Bool.or_eq_true, beq_iff_eq, Bool.and_eq_true, decide_eq_true_eq] at hbyte
      obtain rfl | ⟨_, hle'⟩ := hbyte
      · decide
      · exact UInt8.lt_of_le_of_lt hle' (by decide)
    · rw [mem_singleton.mp hb]
      decide
  · cases hslice

theorem ascii_of_validEtag {bytes : List UInt8} (h : validEtag bytes = .value true) : ∀ b ∈ bytes, b < 0x80 := by
  simp only [validEtag, pure_eq] at h
  split at h
  next hends =>
    simp only [bind_eq_value, ofOption_eq_value, value.injEq] at h
    obtain ⟨between, hs, hall⟩ := h
    exact ascii_of_between [0x57, 0x2f, 0x22] (by simp) hends.1 hends.2 hs hall
  split at h
  next hends =>
    simp only [bind_eq_value, ofOption_eq_value, value.injEq] at h
    obtain ⟨between, hs, hall⟩ := h
    exact ascii_of_between [0x22] (by simp) hends.1 hends.2 hs hall
  · cases h

namespace Etag

theorem parse_eq_value {value : List UInt8} {etag : Etag} : parse value = .value etag ↔ value = etag.text := by
  obtain ⟨text, short, valid⟩ := etag
  unfold parse
  constructor
  · intro h
    split_ifs at h with hlen hempty
    · cases h
      exact hempty
    · split at h
      · cases h
      · cases h
      · cases h
        rfl
  · rintro rfl
    rw [dif_neg (not_lt.mpr short)]
    split_ifs with hempty
    · subst hempty
      rfl
    · have hvalid := valid.resolve_left hempty
      split
      · simp_all
      · simp_all
      · rfl

theorem utf8_text (etag : Etag) : Utf8.valid etag.text = true := by
  obtain hempty | hvalid := etag.valid
  · rw [hempty]
    rfl
  · exact Utf8.valid_of_ascii (ascii_of_validEtag hvalid)

end Etag

theorem SnapshotMetadata.etagField_length (m : SnapshotMetadata) : m.etagField.length = 128 := by
  have hshort : m.etag.text.length ≤ 128 := m.etag.short
  unfold etagField zeros maxEtagBytes
  rw [length_append, length_replicate]
  omega

namespace DatabaseState

def parts (sha : Sha256) (s : DatabaseState) : List (List UInt8) :=
  s.fields ++ [(sha s.fields.flatten).1]

theorem fields_length (s : DatabaseState) : s.fields.flatten.length = 360 := by
  simp [fields, SnapshotMetadata.values, zeros, SnapshotMetadata.etagField_length]

theorem encode_length (sha : Sha256) (s : DatabaseState) : (encode sha s).length = stateLen := by
  have hsum := (sha s.fields.flatten).2
  unfold encode
  rw [flatten_append, length_append, fields_length, flatten_singleton, hsum]
  rfl

section Canonical

variable (sha : Sha256) (s : DatabaseState) {input : List UInt8}

theorem encode_eq : encode sha s = (s.parts sha).flatten := rfl

theorem reserved_iff {body : List UInt8} {start stop : ℕ} (hs : slice input start stop = some body) :
    (body.any fun b => b ≠ 0) = false ↔ slice input start stop = some (zeros (stop - start)) := by
  rw [hs, Option.some.injEq, zeros, eq_replicate_iff, ← slice_length hs, any_eq_false]
  simp

theorem index_iff {i : ℕ} {b : UInt8} : input[i]? = some b ↔ slice input i (i + 1) = some [b] := by
  rw [slice_eq_some, getElem?_eq_some_iff]
  constructor
  · rintro ⟨hi, rfl⟩
    refine ⟨input.take i, input.drop (i + 1), ?_, length_take_of_le hi.le, rfl⟩
    rw [singleton_append, getElem_cons_drop, take_append_drop]
  · rintro ⟨front, rest, rfl, rfl, -⟩
    exact ⟨by simp, by simp⟩

/-- The fields in front of the metadata, and the reserved bytes. -/
def HeaderAt (input : List UInt8) (generation : UInt64) (trustSlot revocationSlot : Slot) : Prop :=
  slice input 0 4 = some (toLe 4 magic) ∧ slice input 4 6 = some (toLe 2 formatVersion) ∧
    slice input 6 8 = some (toLe 2 stateLen) ∧ slice input 8 16 = some (toLe 8 generation.toNat) ∧
    slice input 16 17 = some [trustSlot.code] ∧ slice input 17 18 = some [revocationSlot.code] ∧
    slice input 18 24 = some (zeros 6) ∧ slice input 58 64 = some (zeros 6) ∧ slice input 98 104 = some (zeros 6)

def MetadataAt (input : List UInt8) (valuesOffset lengthOffset etagOffset : ℕ) (m : SnapshotMetadata) : Prop :=
  slice input valuesOffset (valuesOffset + 32) = some m.values.flatten ∧
    slice input lengthOffset (lengthOffset + 2) = some (toLe 2 m.etag.text.length) ∧
    slice input etagOffset (etagOffset + maxEtagBytes) = some m.etagField

theorem decodeHeader_eq_value {generation : UInt64} {trustSlot revocationSlot : Slot} :
    decodeHeader input = .value (generation, trustSlot, revocationSlot) ↔
      input.length = stateLen ∧ HeaderAt input generation trustSlot revocationSlot := by
  unfold decodeHeader
  simp only [bind_eq_value, reject_eq_value, ofOption_eq_value, readLe_eq_some, index_iff, Slot.decode_eq_value, not_or,
    not_not, ne_eq, pure_eq, value.injEq, Prod.mk.injEq, Bool.not_eq_true]
  constructor
  · rintro ⟨-, hlen, _, ⟨hmagic, -⟩, -, rfl, _, ⟨hversion, -⟩, -, rfl, _, ⟨hlength, -⟩, -, rfl, first, hfirst, second,
      hsecond, third, hthird, -, ⟨hzero, hzero', hzero''⟩, g, ⟨hgeneration, hg⟩, _, htrust, _, rfl, _, hrevocation, _, rfl,
      rfl, rfl, rfl⟩
    refine ⟨hlen, hmagic, hversion, hlength, ?_, htrust, hrevocation, (reserved_iff hfirst).mp hzero,
      (reserved_iff hsecond).mp hzero', (reserved_iff hthird).mp hzero''⟩
    rwa [UInt64.toNat_ofNat_of_lt' hg]
  · rintro ⟨hlen, hmagic, hversion, hlength, hgeneration, htrust, hrevocation, hfirst, hsecond, hthird⟩
    exact ⟨(), hlen, _, ⟨hmagic, by decide⟩, (), rfl, _, ⟨hversion, by decide⟩, (), rfl, _, ⟨hlength, by decide⟩, (), rfl,
      _, hfirst, _, hsecond, _, hthird, (), ⟨(reserved_iff hfirst).mpr hfirst, (reserved_iff hsecond).mpr hsecond,
      (reserved_iff hthird).mpr hthird⟩, _, ⟨hgeneration, generation.toNat_lt⟩, _, htrust, _, rfl, _, hrevocation, _, rfl,
      UInt64.ofNat_toNat, rfl, rfl⟩

theorem decodeEtagText_eq_value {lengthOffset etagOffset : ℕ} {text : List UInt8} :
    decodeEtagText input lengthOffset etagOffset = .value text ↔ text.length ≤ maxEtagBytes ∧ Utf8.valid text = true ∧
        slice input lengthOffset (lengthOffset + 2) = some (toLe 2 text.length) ∧
        slice input etagOffset (etagOffset + maxEtagBytes) = some (text ++ zeros (maxEtagBytes - text.length)) := by
  unfold decodeEtagText
  simp only [bind_eq_value, reject_eq_value, ofOption_eq_value, readLe_eq_some, not_lt, gt_iff_lt, pure_eq,
    value.injEq, Bool.not_eq_true, Bool.not_eq_false]
  constructor
  · rintro ⟨length, ⟨hlength, -⟩, -, hshort, bytes, hbytes, padding, hpadding, -, hzero, text, htext, -, hutf8, rfl⟩
    have hlen : text.length = length := slice_length htext
    have hwidth : bytes.length = maxEtagBytes := (slice_length hbytes).trans (Nat.add_sub_cancel_left _ _)
    have hwhole : bytes = text ++ zeros (bytes.length - length) := by
      apply eq_of_slice_whole
      rw [slice_append_iff, Nat.zero_add, hlen]
      exact ⟨htext, (reserved_iff hpadding).mp hzero⟩
    subst hlen
    rw [hwidth] at hwhole
    exact ⟨hshort, hutf8, hlength, hwhole ▸ hbytes⟩
  · rintro ⟨hshort, hutf8, hlength, hbytes⟩
    have hparts := slice_append_iff.mp (slice_whole (text ++ zeros (maxEtagBytes - text.length)))
    rw [Nat.zero_add] at hparts
    refine ⟨_, ⟨hlength, lt_of_le_of_lt hshort (by decide)⟩, (), hshort, _, hbytes, _, hparts.2, (), ?_, _, hparts.1, (),
      hutf8, rfl⟩
    simp [zeros]

theorem slice_values {m : SnapshotMetadata} {offset : ℕ} : slice input offset (offset + 32) = some m.values.flatten ↔
      slice input offset (offset + 8) = some (toLe 8 m.snapshotVersion.toNat) ∧
        slice input (offset + 8) (offset + 8 + 8) = some (toLe 8 m.generatedAt.toNat) ∧
        slice input (offset + 16) (offset + 16 + 8) = some (toLe 8 m.expiresAt.toNat) ∧
        slice input (offset + 24) (offset + 24 + 8) = some (toLe 8 m.lastCheckedAt.toNat) := by
  simp only [SnapshotMetadata.values, flatten_cons, flatten_nil, append_nil, slice_append_iff, toLe_length,
    Nat.add_assoc, Nat.reduceAdd]

theorem decodeMetadata_eq_value {valuesOffset lengthOffset etagOffset : ℕ} {m : SnapshotMetadata} :
    decodeMetadata input valuesOffset lengthOffset etagOffset = .value m ↔
      MetadataAt input valuesOffset lengthOffset etagOffset m := by
  unfold decodeMetadata MetadataAt
  simp only [bind_eq_value, ofOption_eq_value, readLe_eq_some, decodeEtagText_eq_value, mapError_eq_value,
    Etag.parse_eq_value, pure_eq, value.injEq, slice_values]
  constructor
  · rintro ⟨_, ⟨-, -, hlength, hfield⟩, etag, rfl, v, ⟨hversion, hv⟩, g, ⟨hgenerated, hg⟩, e, ⟨hexpires, he⟩, c,
      ⟨hchecked, hc⟩, rfl⟩
    refine ⟨⟨?_, ?_, ?_, ?_⟩, hlength, hfield⟩
    · rwa [UInt64.toNat_ofNat_of_lt' hv]
    · rwa [UInt64.toNat_ofNat_of_lt' hg]
    · rwa [UInt64.toNat_ofNat_of_lt' he]
    · rwa [UInt64.toNat_ofNat_of_lt' hc]
  · rintro ⟨⟨hversion, hgenerated, hexpires, hchecked⟩, hlength, hfield⟩
    refine ⟨_, ⟨m.etag.short, m.etag.utf8_text, hlength, hfield⟩, m.etag, rfl, _, ⟨hversion, UInt64.toNat_lt _⟩, _,
      ⟨hgenerated, UInt64.toNat_lt _⟩, _, ⟨hexpires, UInt64.toNat_lt _⟩, _, ⟨hchecked, UInt64.toNat_lt _⟩, ?_⟩
    simp only [UInt64.ofNat_toNat]

theorem slice_fields : slice input 0 checksumOffset = some s.fields.flatten ↔
    HeaderAt input s.generation s.activeTrustSlot s.activeRevocationSlot ∧ MetadataAt input 24 56 trustEtagOffset s.trust ∧
      MetadataAt input 64 96 revocationEtagOffset s.revocations := by
  have hvalues : ∀ m : SnapshotMetadata, m.values.flatten.length = 32 := fun m => by simp [SnapshotMetadata.values]
  have hzeros : (zeros 6).length = 6 := rfl
  simp only [HeaderAt, MetadataAt, trustEtagOffset, revocationEtagOffset, maxEtagBytes, fields, flatten_append,
    flatten_cons, flatten_nil, append_nil, append_assoc, slice_append_iff, toLe_length, hvalues, hzeros,
    SnapshotMetadata.etagField_length, length_singleton, Nat.reduceAdd, Nat.zero_add, checksumOffset, stateLen,
    checksumLen, Nat.reduceSub]
  tauto

theorem decode_eq_value : decode sha input = .value s ↔ input = encode sha s := by
  have hfields : slice input 0 input.length = some (s.fields.flatten ++ (sha s.fields.flatten).1) ↔ _ := slice_append_iff
  rw [Nat.zero_add, fields_length] at hfields
  have hencode : encode sha s = s.fields.flatten ++ (sha s.fields.flatten).1 := by
    rw [encode_eq, parts, flatten_append, flatten_singleton]
  unfold decode
  simp only [bind_eq_value, reject_eq_value, ofOption_eq_value, decodeHeader_eq_value, decodeMetadata_eq_value, ne_eq,
    not_not, pure_eq, value.injEq, Prod.exists]
  constructor
  · rintro ⟨generation, trustSlot, revocationSlot, ⟨-, hheader⟩, trust, htrust, revocations, hrevocations, covered, hcovered,
      _, hsum, -, rfl, rfl⟩
    have hslice := (slice_fields ⟨generation, trustSlot, revocationSlot, trust, revocations⟩).mpr
      ⟨hheader, htrust, hrevocations⟩
    obtain rfl := Option.some.inj (hcovered.symm.trans hslice)
    rw [hencode]
    exact eq_of_slice_whole (hfields.mpr ⟨hslice, hsum⟩)
  · intro heq
    have hlen : input.length = stateLen := heq ▸ encode_length sha s
    obtain ⟨hslice, hsum⟩ := hfields.mp (by rw [← hencode, ← heq]; exact slice_whole input)
    obtain ⟨hheader, htrust, hrevocations⟩ := (slice_fields s).mp hslice
    exact ⟨_, _, _, ⟨hlen, hheader⟩, _, htrust, _, hrevocations, _, hslice, _, hsum, (), rfl, rfl⟩

theorem decode_encode : decode sha (encode sha s) = .value s := (decode_eq_value sha s).mpr rfl

/-- **One record for each state.** Encoding and decoding are inverse to each other, so every state has exactly one
accepted record. -/
theorem state_codec_bijective :
    (∀ s output n bytes, encodeInto sha s output = .ok (n, bytes) → decode sha (bytes.take n) = .value s) ∧
    (∀ input s output, decode sha input = .value s → input.length ≤ output.length →
      encodeInto sha s output = .ok (input.length, input ++ output.drop input.length)) ∧
    ∀ s, ∃! input, decode sha input = .value s := by
  refine ⟨fun s output n bytes h => ?_, fun input s output h hfits => ?_, fun s => ?_⟩
  · unfold encodeInto at h
    split_ifs at h
    cases h
    rw [← encode_length sha s, take_left]
    exact decode_encode sha s
  · obtain rfl := (decode_eq_value sha s).mp h
    rw [encode_length] at hfits ⊢
    rw [encodeInto, if_neg (not_lt.mpr hfits)]
  · exact ⟨_, decode_encode sha s, fun input h => (decode_eq_value sha s).mp h⟩

end Canonical

end DatabaseState

/-! ## Panics -/

/-- A single quote, alone or after the mark of a weak etag. -/
def LoneQuote (text : List UInt8) : Prop := text = [0x22] ∨ text = [0x57, 0x2f, 0x22]

theorem validEtag_panicked_iff (bytes : List UInt8) : validEtag bytes = .panicked ↔ LoneQuote bytes := by
  constructor
  · -- the quote in front is the last byte too
    have hempty : ∀ front rest : List UInt8, front ≠ [] →
        ((ofOption (slice (front ++ rest) front.length ((front ++ rest).length - 1)) : Outcome Empty (List UInt8)) >>=
          fun between => return between.all etagByte) = .panicked → rest = [] := by
      intro front rest hne h
      obtain h | ⟨_, _, h⟩ := bind_eq_panicked.mp h
      · have hnone := slice_eq_none (ofOption_eq_panicked.mp h)
        have hpos := length_pos_of_ne_nil hne
        rw [length_append] at hnone
        exact length_eq_zero_iff.mp (by omega)
      · cases h
    intro h
    unfold validEtag at h
    split at h
    next hends =>
      obtain ⟨rest, rfl⟩ := isPrefixOf_iff_prefix.mp hends.1
      rw [hempty _ rest (by decide) h]
      exact .inr rfl
    split at h
    next hends =>
      obtain ⟨rest, rfl⟩ := isPrefixOf_iff_prefix.mp hends.1
      rw [hempty _ rest (by decide) h]
      exact .inl rfl
    · cases h
  · rintro (rfl | rfl) <;> rfl

theorem Etag.parse_panicked_iff (value : List UInt8) : Etag.parse value = .panicked ↔ LoneQuote value := by
  constructor
  · intro h
    unfold Etag.parse at h
    split at h
    · cases h
    split at h
    · cases h
    split at h
    next hp => exact (validEtag_panicked_iff value).mp hp
    · cases h
    · cases h
  · rintro (rfl | rfl) <;> rfl

section Inside

variable {ε α : Type} {input : List UInt8}

theorem readLe_inside {n offset : ℕ} {f : ℕ → Outcome ε α} (h : offset + n ≤ input.length) (hf : ∀ x, f x ≠ .panicked) :
    (ofOption (readLe n input offset) >>= f) ≠ .panicked := by
  obtain ⟨x, hx⟩ := readLe_isSome h
  rw [hx]
  exact hf x

theorem slice_inside {start stop : ℕ} {f : List UInt8 → Outcome ε α} (h : start ≤ stop) (h' : stop ≤ input.length)
    (hf : ∀ body, slice input start stop = some body → f body ≠ .panicked) :
    (ofOption (slice input start stop) >>= f) ≠ .panicked := by
  rw [slice_isSome h h']
  exact hf _ (slice_isSome h h')

theorem index_inside {i : ℕ} {f : UInt8 → Outcome ε α} (h : i < input.length) (hf : ∀ b, f b ≠ .panicked) :
    (ofOption input[i]? >>= f) ≠ .panicked := by
  rw [getElem?_eq_getElem h]
  exact hf _

theorem reject_inside {p : Prop} [Decidable p] {e : ε} {f : Unit → Outcome ε α} (hf : ¬ p → f () ≠ .panicked) :
    (reject p e >>= f) ≠ .panicked :=
  bind_ne_panicked reject_ne_panicked fun _ h => hf (reject_eq_value.mp h)

end Inside

theorem Slot.decode_ne_panicked (value : UInt8) : Slot.decode value ≠ .panicked := by
  unfold Slot.decode
  split_ifs <;> exact nofun

namespace DatabaseState

theorem decodeHeader_ne_panicked (input : List UInt8) : decodeHeader input ≠ .panicked := by
  unfold decodeHeader
  refine reject_inside fun hl => ?_
  have hlen : input.length = 392 := not_not.mp hl
  refine readLe_inside (by omega) fun _ => ?_
  refine reject_inside fun _ => ?_
  refine readLe_inside (by omega) fun _ => ?_
  refine reject_inside fun _ => ?_
  refine readLe_inside (by omega) fun _ => ?_
  refine reject_inside fun _ => ?_
  refine slice_inside (by omega) (by omega) fun _ _ => ?_
  refine slice_inside (by omega) (by omega) fun _ _ => ?_
  refine slice_inside (by omega) (by omega) fun _ _ => ?_
  refine reject_inside fun _ => ?_
  refine readLe_inside (by omega) fun _ => ?_
  refine index_inside (by omega) fun _ => ?_
  refine bind_ne_panicked (Slot.decode_ne_panicked _) fun _ _ => ?_
  refine index_inside (by omega) fun _ => ?_
  exact bind_ne_panicked (Slot.decode_ne_panicked _) fun _ _ => nofun

theorem length_of_decodeHeader {input : List UInt8} {header : UInt64 × Slot × Slot}
    (h : decodeHeader input = .value header) : input.length = stateLen := by
  by_contra hlen
  unfold decodeHeader reject at h
  rw [if_pos hlen] at h
  cases h

theorem decodeEtagText_ne_panicked {input : List UInt8} {lengthOffset etagOffset : ℕ}
    (hlength : lengthOffset + 2 ≤ input.length) (hetag : etagOffset + maxEtagBytes ≤ input.length) :
    decodeEtagText input lengthOffset etagOffset ≠ .panicked := by
  unfold decodeEtagText
  refine readLe_inside hlength fun length => ?_
  refine reject_inside fun hl => ?_
  refine slice_inside (Nat.le_add_right _ _) hetag fun etagBytes hb => ?_
  have hlen : etagBytes.length = maxEtagBytes := by
    rw [slice_length hb]
    omega
  have hle : length ≤ etagBytes.length := hlen ▸ not_lt.mp hl
  refine slice_inside hle le_rfl fun _ _ => ?_
  refine reject_inside fun _ => ?_
  refine slice_inside (Nat.zero_le _) hle fun _ _ => ?_
  exact reject_inside fun _ => nofun

theorem decodeMetadata_panicked_iff {input : List UInt8} {valuesOffset lengthOffset etagOffset : ℕ}
    (hvalues : valuesOffset + 32 ≤ input.length) (hlength : lengthOffset + 2 ≤ input.length)
    (hetag : etagOffset + maxEtagBytes ≤ input.length) :
    decodeMetadata input valuesOffset lengthOffset etagOffset = .panicked ↔
      ∃ text, decodeEtagText input lengthOffset etagOffset = .value text ∧ LoneQuote text := by
  unfold decodeMetadata
  rw [bind_eq_panicked, or_iff_right (decodeEtagText_ne_panicked hlength hetag)]
  refine exists_congr fun text => and_congr_right fun _ => ?_
  rw [bind_eq_panicked, mapError_eq_panicked, Etag.parse_panicked_iff, or_iff_left]
  rintro ⟨etag, _, h⟩
  revert h
  refine readLe_inside (by omega) fun _ => ?_
  refine readLe_inside (by omega) fun _ => ?_
  refine readLe_inside (by omega) fun _ => ?_
  exact readLe_inside (by omega) fun _ => nofun

/-- A record with a good header whose first etag, or whose second after good metadata, is a lone quote. -/
def HoldsLoneQuote (input : List UInt8) : Prop :=
  (∃ header, decodeHeader input = .value header) ∧
    ((∃ text, decodeEtagText input 56 trustEtagOffset = .value text ∧ LoneQuote text) ∨
      ((∃ trust, decodeMetadata input 24 56 trustEtagOffset = .value trust) ∧
        ∃ text, decodeEtagText input 96 revocationEtagOffset = .value text ∧ LoneQuote text))

theorem decode_panicked_iff (sha : Sha256) (input : List UInt8) :
    decode sha input = .panicked ↔ HoldsLoneQuote input := by
  unfold decode HoldsLoneQuote
  rw [bind_eq_panicked, or_iff_right (decodeHeader_ne_panicked input), ← exists_and_right]
  refine exists_congr fun header => and_congr_right fun hheader => ?_
  have hlen : input.length = 392 := length_of_decodeHeader hheader
  have hcover : checksumOffset = 360 := rfl
  have htrust : trustEtagOffset + maxEtagBytes = 232 := rfl
  have hrevocation : revocationEtagOffset + maxEtagBytes = 360 := rfl
  obtain ⟨generation, trustSlot, revocationSlot⟩ := header
  dsimp only
  rw [bind_eq_panicked, decodeMetadata_panicked_iff (by omega) (by omega) (by omega), ← exists_and_right]
  refine or_congr_right (exists_congr fun trust => and_congr_right fun _ => ?_)
  rw [bind_eq_panicked, decodeMetadata_panicked_iff (by omega) (by omega) (by omega), or_iff_left]
  rintro ⟨revocations, _, h⟩
  revert h
  refine slice_inside (by omega) (by omega) fun _ _ => ?_
  refine slice_inside (by omega) le_rfl fun _ _ => ?_
  exact reject_inside fun _ => nofun

/-- **Where decoding panics**: exactly where it reaches an etag that is a lone quote. -/
theorem decoding_returns_iff (sha : Sha256) :
    (∀ value, Etag.parse value ≠ .panicked ↔ ¬ LoneQuote value) ∧
    ∀ input, decode sha input ≠ .panicked ↔ ¬ HoldsLoneQuote input :=
  ⟨fun value => not_congr (Etag.parse_panicked_iff value), fun input => not_congr (decode_panicked_iff sha input)⟩

end DatabaseState

namespace StateFixture

/-- A record of the empty state with an etag of one quote, and any checksum. -/
def quoted : List UInt8 :=
  toLe 4 magic ++ toLe 2 formatVersion ++ toLe 2 stateLen ++ zeros 48 ++ [1] ++ zeros 47 ++ [0x22] ++ zeros 287

theorem lone_quotes_panic : Etag.parse [0x22] = .panicked ∧ Etag.parse [0x57, 0x2f, 0x22] = .panicked ∧
    ∀ sha, DatabaseState.decode sha quoted = .panicked := by
  refine ⟨rfl, rfl, fun sha => ?_⟩
  rw [DatabaseState.decode_panicked_iff]
  exact ⟨⟨(0, .a, .a), by decide +kernel⟩, .inl ⟨[0x22], by decide +kernel, .inl rfl⟩⟩

end StateFixture

end MochiSyscalls.CertificateDatabase
