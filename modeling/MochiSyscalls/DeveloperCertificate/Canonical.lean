import MochiSyscalls.DeveloperCertificate.Wire

/-! # Certificates have one binary form

The decoder reads its parts as slices of the input, and adjacent slices join (`slice_append_iff`): what
it accepts is the `wire` of the certificate it returns. -/

namespace MochiSyscalls.DeveloperCertificate
open Foundations Bytes Effects Outcome Utf8 Words List Outcome
set_option autoImplicit false

/-! ## The decoder's steps -/

section
variable {bytes : List UInt8} {cursor length limit stop : ℕ}

theorem take_eq_value (hlimit : limit ≤ usizeMax) {chunk : List UInt8} :
    take bytes cursor length limit = .value (chunk, stop) ↔
      slice bytes cursor stop = some chunk ∧ chunk.length = length ∧ stop ≤ limit := by
  simp only [take, bind_eq_value, okOr_eq_value, usizeCheckedAdd_eq_some, reject_eq_value, ofOption_eq_value, pure_eq,
    value.injEq, Prod.mk.injEq, not_lt]
  constructor
  · rintro ⟨_, ⟨rfl, -⟩, _, hle, _, hslice, rfl, rfl⟩
    have hstop := slice_stop hslice
    exact ⟨hslice, by omega, hle⟩
  · rintro ⟨hslice, rfl, hle⟩
    have hstop := slice_stop hslice
    exact ⟨stop, ⟨hstop.symm, hle.trans hlimit⟩, (), hle, chunk, hslice, rfl, rfl⟩

theorem takeText_eq_value (hlimit : limit ≤ usizeMax) {text : Text} :
    takeText bytes cursor length limit = .value (text, stop) ↔
      slice bytes cursor stop = some text.1 ∧ text.1.length = length ∧ stop ≤ limit := by
  simp only [takeText, bind_eq_value, Prod.exists, take_eq_value hlimit, okOr_eq_value, fromUtf8_eq_some, pure_eq,
    value.injEq, Prod.mk.injEq]
  constructor
  · rintro ⟨_, _, hchunk, _, rfl, rfl, rfl⟩
    exact hchunk
  · intro h
    exact ⟨text.1, stop, h, text, rfl, rfl, rfl⟩

theorem PackageScopeKind.decode_eq_value {value : UInt8} {kind : PackageScopeKind} :
    PackageScopeKind.decode value = .value kind ↔ value = kind.code := by
  unfold PackageScopeKind.decode
  split
  next h =>
    subst h
    cases kind <;> decide
  next h =>
    split
    next h' =>
      subst h'
      cases kind <;> decide
    next h' =>
      cases kind with
      | exact => exact iff_of_false nofun h
      | prefixed => exact iff_of_false nofun h'

theorem scopeHeader_iff {header : List UInt8} (hlen : header.length = 4) {kind : PackageScopeKind} {length : ℕ} :
    (header[0]? = some kind.code ∧ header[1]? = some 0 ∧ readLe 2 header 2 = some length) ↔
      header = [kind.code, 0] ++ toLe 2 length ∧ length < 256 ^ 2 := by
  match header, hlen with
  | [a, b, c, d], _ =>
    have hslice : slice [a, b, c, d] 2 (2 + 2) = some [c, d] := rfl
    simp [readLe_eq_some, hslice, toLe, and_assoc]

theorem takeScope_eq_value (hlimit : limit ≤ usizeMax) {scope : PackageIdScope} :
    takeScope bytes limit cursor = .value (scope, stop) ↔
      slice bytes cursor stop = some (scopeBytes scope) ∧ stop ≤ limit ∧ scope.packageId.1.length < 256 ^ 2 := by
  simp only [takeScope, bind_eq_value, Prod.exists, take_eq_value hlimit, takeText_eq_value hlimit, ofOption_eq_value,
    PackageScopeKind.decode_eq_value, reject_eq_value, not_not, pure_eq, ne_eq, value.injEq, Prod.mk.injEq]
  constructor
  · rintro ⟨header, middle, ⟨hheader, hlen, -⟩, code, hcode, kind, rfl, reserved, hreserved, -, rfl, length, hlength,
      packageId, stop, ⟨hid, rfl, hstop⟩, rfl, rfl⟩
    obtain ⟨rfl, hlt⟩ := (scopeHeader_iff hlen).mp ⟨hcode, hreserved, hlength⟩
    have hmiddle := slice_stop hheader
    refine ⟨?_, hstop, hlt⟩
    rw [scopeBytes, ← append_assoc, slice_append_iff, hmiddle]
    exact ⟨hheader, hid⟩
  · rintro ⟨hslice, hle, hlt⟩
    rw [scopeBytes, ← append_assoc, slice_append_iff] at hslice
    obtain ⟨hheader, hid⟩ := hslice
    have hlen : ([scope.kind.code, 0] ++ toLe 2 scope.packageId.1.length).length = 4 := by simp
    have hstop := slice_stop hid
    obtain ⟨hcode, hreserved, hlength⟩ := (scopeHeader_iff hlen).mpr ⟨rfl, hlt⟩
    exact ⟨_, _, ⟨hheader, hlen, by omega⟩, _, hcode, _, rfl, _, hreserved, (), rfl, _, hlength, _, _, ⟨hid, rfl, hle⟩,
      rfl, rfl⟩

theorem takeCapability_eq_value (hlimit : limit ≤ usizeMax) {capability : Text} :
    takeCapability bytes limit cursor = .value (capability, stop) ↔
      slice bytes cursor stop = some (capabilityBytes capability) ∧ stop ≤ limit ∧ capability.1.length < 256 ^ 2 := by
  have hread : ∀ {chunk : List UInt8}, chunk.length = 2 → ∀ {length : ℕ}, readLe 2 chunk 0 = some length ↔
      chunk = toLe 2 length ∧ length < 256 ^ 2 := by
    intro chunk hlen length
    rw [readLe_eq_some, Nat.zero_add, ← hlen, slice_whole, Option.some.injEq]
  simp only [takeCapability, bind_eq_value, Prod.exists, take_eq_value hlimit, takeText_eq_value hlimit,
    ofOption_eq_value]
  constructor
  · rintro ⟨chunk, middle, ⟨hchunk, hlen, -⟩, length, hlength, hid, rfl, hstop⟩
    obtain ⟨rfl, hlt⟩ := (hread hlen).mp hlength
    have hmiddle := slice_stop hchunk
    refine ⟨?_, hstop, hlt⟩
    rw [capabilityBytes, slice_append_iff, hmiddle]
    exact ⟨hchunk, hid⟩
  · rintro ⟨hslice, hle, hlt⟩
    rw [capabilityBytes, slice_append_iff] at hslice
    obtain ⟨hchunk, hid⟩ := hslice
    have hstop := slice_stop hid
    have hlen : (toLe 2 capability.1.length).length = 2 := toLe_length _ _
    exact ⟨_, _, ⟨hchunk, hlen, by omega⟩, _, (hread hlen).mpr ⟨rfl, hlt⟩, hid, rfl, hle⟩

theorem takeMany_eq_value {α : Type} {item : ℕ → Outcome DecodeError (α × ℕ)} {text : α → List UInt8} {Fits : α → Prop}
    (hitem : ∀ cursor a stop, item cursor = .value (a, stop) ↔
      slice bytes cursor stop = some (text a) ∧ stop ≤ limit ∧ Fits a)
    (hlimit : limit ≤ bytes.length) {n : ℕ} {items : List α} (hcursor : cursor ≤ limit) :
    takeMany item n cursor = .value (items, stop) ↔
      slice bytes cursor stop = some (items.flatMap text) ∧ stop ≤ limit ∧ items.length = n ∧ ∀ a ∈ items, Fits a := by
  induction n generalizing cursor items with
  | zero =>
    rw [takeMany, value.injEq, Prod.mk.injEq]
    constructor
    · rintro ⟨rfl, rfl⟩
      refine ⟨?_, hcursor, rfl, nofun⟩
      rw [slice_isSome le_rfl (by omega), drop_take_self]
      rfl
    · rintro ⟨hslice, -, hlen, -⟩
      obtain rfl := eq_nil_of_length_eq_zero hlen
      exact ⟨rfl, slice_stop hslice⟩
  | succ n ih =>
    simp only [takeMany, bind_eq_value, Prod.exists, hitem, pure_eq, value.injEq, Prod.mk.injEq]
    constructor
    · rintro ⟨a, middle, ⟨ha, hmiddle, hfits⟩, rest, _, hrest, rfl, rfl⟩
      obtain ⟨hslice, hstop, rfl, hall⟩ := (ih hmiddle).mp hrest
      refine ⟨?_, hstop, rfl, forall_mem_cons.mpr ⟨hfits, hall⟩⟩
      rw [flatMap_cons, slice_append_iff, slice_stop ha]
      exact ⟨ha, hslice⟩
    · rintro ⟨hslice, hstop, hlen, hall⟩
      cases items with
      | nil => cases hlen
      | cons a rest =>
        rw [flatMap_cons, slice_append_iff] at hslice
        obtain ⟨hfits, hall⟩ := forall_mem_cons.mp hall
        have hend := slice_stop hslice.2
        refine ⟨a, _, ⟨hslice.1, by omega, hfits⟩, rest, stop, ?_, rfl, rfl⟩
        exact (ih (by omega)).mpr ⟨hslice.2, hstop, Nat.succ.inj hlen, hall⟩

theorem takeFixed_eq_value {n start : ℕ} {body : Fixed n} :
    takeFixed n bytes start stop = .value body ↔ slice bytes start stop = some body.1 := by
  simp only [takeFixed, bind_eq_value, ofOption_eq_value]
  constructor
  · rintro ⟨chunk, hslice, h⟩
    split at h
    · rw [hslice, ← value.inj h]
    · cases h
  · intro h
    exact ⟨body.1, h, dif_pos body.2⟩

end

theorem decodeHeader_eq_value {bytes : List UInt8} {d s k : ℕ} : decodeHeader bytes = .value (d, s, k) ↔
      (headerLen + signatureLen ≤ bytes.length ∧ bytes.length ≤ maxCertificateLen) ∧
      (s ≤ maxPackageScopes ∧ k ≤ maxAllowedCapabilities ∧ d < 256 ^ 2) ∧
      slice bytes 0 4 = some magic ∧ slice bytes 4 6 = some (toLe 2 formatVersion) ∧
      slice bytes 6 8 = some (toLe 2 headerLen) ∧ slice bytes 8 12 = some (toLe 4 bytes.length) ∧
      slice bytes 136 138 = some (toLe 2 d) ∧ slice bytes 138 140 = some (toLe 2 s) ∧
      slice bytes 140 142 = some (toLe 2 k) ∧ slice bytes 142 144 = some (toLe 2 0) := by
  simp only [decodeHeader, bind_eq_value, reject_eq_value, ofOption_eq_value, not_not, ne_eq, existsAndEq, true_and,
    exists_const, readLe_eq_some, pure_eq, value.injEq, Prod.mk.injEq, and_assoc, not_lt, and_true,
    offsetTotalLen, offsetReserved, offsetDeveloperIdLen, offsetScopeCount, offsetCapabilityCount, Nat.reduceAdd]
  constructor
  · rintro ⟨hmin, hmax, hmagic, hversion, -, hheader, -, htotal, -, hreserved, -, hd, hdlt, hs, -, hk, -, hsle, hkle⟩
    exact ⟨hmin, hmax, hsle, hkle, hdlt, hmagic, hversion, hheader, htotal, hd, hs, hk, hreserved⟩
  · rintro ⟨hmin, hmax, hsle, hkle, hdlt, hmagic, hversion, hheader, htotal, hd, hs, hk, hreserved⟩
    unfold maxCertificateLen at hmax
    unfold maxPackageScopes at hsle
    unfold maxAllowedCapabilities at hkle
    exact ⟨hmin, hmax, hmagic, hversion, by decide, hheader, by decide, htotal, by omega, hreserved, by decide, hd, hdlt,
      hs, by omega, hk, by omega, hsle, hkle⟩

namespace Certificate

variable {P : Primitives} {c : Certificate} {bytes : List UInt8}

theorem slice_headerBytes {n : ℕ} : slice bytes 0 headerLen = some (c.headerBytes n) ↔
      slice bytes 0 4 = some magic ∧ slice bytes 4 6 = some (toLe 2 formatVersion) ∧
      slice bytes 6 8 = some (toLe 2 headerLen) ∧ slice bytes 8 12 = some (toLe 4 n) ∧
      slice bytes 12 20 = some (toLe 8 c.serialNumber.toNat) ∧ slice bytes 20 52 = some c.issuerKeyId.1 ∧
      slice bytes 52 84 = some c.subjectKeyId.1 ∧ slice bytes 84 116 = some c.subjectPublicKey.1 ∧
      slice bytes 116 124 = some (toLe 8 c.notBefore.toNat) ∧ slice bytes 124 132 = some (toLe 8 c.notAfter.toNat) ∧
      slice bytes 132 136 = some (toLe 4 c.keyUsage.toNat) ∧ slice bytes 136 138 = some (toLe 2 c.developerId.1.length) ∧
      slice bytes 138 140 = some (toLe 2 c.packageIdScopes.length) ∧
      slice bytes 140 142 = some (toLe 2 c.allowedCapabilities.length) ∧ slice bytes 142 144 = some (toLe 2 0) := by
  simp only [headerBytes, headerFields, map_cons, map_nil, flatten_cons, flatten_nil,
    append_nil, slice_append_iff, toLe_length, c.issuerKeyId.2, c.subjectKeyId.2, c.subjectPublicKey.2,
    show magic.length = 4 from rfl, Nat.reduceAdd, headerLen]

theorem eq_wire_iff :
    bytes = c.wire ↔ signatureLen ≤ bytes.length ∧ slice bytes 0 headerLen = some (c.headerBytes bytes.length) ∧
      slice bytes headerLen (bytes.length - signatureLen) = some c.listBytes ∧
      slice bytes (bytes.length - signatureLen) bytes.length = some c.signature.1 := by
  have hparts : ∀ n, (c.headerBytes n ++ c.listBytes).length + signatureLen = c.size := by
    intro n
    rw [← c.unsigned_length, unsigned, length_append, length_append, headerBytes_length, headerBytes_length]
  constructor
  · intro h
    have hlen : bytes.length = c.size := by rw [h, c.wire_length]
    have hunsigned := c.unsigned_length
    have hwhole := slice_whole bytes
    rw [hlen, h, wire, slice_append_iff, unsigned, slice_append_iff, headerBytes_length, Nat.zero_add, Nat.zero_add,
      ← unsigned, ← wire, ← h] at hwhole
    rw [hlen, show c.size - signatureLen = c.unsigned.length by omega]
    exact ⟨by omega, hwhole.1.1, hwhole.1.2, hwhole.2⟩
  · rintro ⟨hle, hheader, hlist, hsignature⟩
    have hend := slice_stop hlist
    have hsize := hparts bytes.length
    rw [length_append, headerBytes_length] at hsize
    have hlen : bytes.length = c.size := by omega
    apply eq_of_slice_whole
    rw [wire, slice_append_iff, unsigned, slice_append_iff, headerBytes_length, Nat.zero_add, Nat.zero_add, ← unsigned,
      ← hlen]
    have hunsigned : c.unsigned.length = bytes.length - signatureLen := by rw [hlen, ← c.unsigned_length]; omega
    rw [hunsigned]
    exact ⟨⟨hheader, hlist⟩, hsignature⟩

theorem slice_listBytes {start stop : ℕ} :
    slice bytes start stop = some c.listBytes ↔ ∃ m n, slice bytes start m = some c.developerId.1 ∧
      slice bytes m n = some (c.packageIdScopes.flatMap scopeBytes) ∧
      slice bytes n stop = some (c.allowedCapabilities.flatMap capabilityBytes) := by
  rw [listBytes, slice_append_iff, slice_append_iff]
  constructor
  · rintro ⟨hdeveloper, hscopes, hcapabilities⟩
    exact ⟨_, _, hdeveloper, hscopes, hcapabilities⟩
  · rintro ⟨m, n, hdeveloper, hscopes, hcapabilities⟩
    have hm := slice_stop hdeveloper
    have hn := slice_stop hscopes
    subst hm hn
    exact ⟨hdeveloper, hscopes, hcapabilities⟩

theorem decode_eq_value : decode P bytes = .value c ↔ c.validate P = .value () ∧ bytes = c.wire := by
  by_cases hmax : bytes.length ≤ maxCertificateLen
  case neg =>
    refine iff_of_false (fun h => ?_) fun h => hmax ?_
    · obtain ⟨⟨d, s, k⟩, hheader, -⟩ := bind_eq_value.mp h
      exact hmax (decodeHeader_eq_value.mp hheader).1.2
    · rw [h.2, c.wire_length]
      exact (formed_of_validate h.1).size_le
  have hlimit : bytes.length - signatureLen ≤ usizeMax := by
    unfold maxCertificateLen at hmax
    unfold usizeMax
    omega
  have hend : bytes.length - signatureLen ≤ bytes.length := Nat.sub_le _ _
  simp only [decode, bind_eq_value, Prod.exists, decodeHeader_eq_value, takeText_eq_value hlimit, takeFixed_eq_value,
    ofOption_eq_value, readLe_eq_some, reject_eq_value, not_not, ne_eq, mapError_eq_value, pure_eq, value.injEq, eq_wire_iff,
    slice_headerBytes, slice_listBytes]
  constructor
  · rintro ⟨d, s, k, ⟨⟨hmin, -⟩, -, hmagic, hversion, hlength, htotal, hdlen, hscount, hkcount, hreserved⟩, developerId, m,
      ⟨hdeveloper, rfl, hm⟩, scopes, n, htake, capabilities, stop, htake', -, rfl, issuer, hissuer, subject, hsubject, key,
      hkey, signature, hsignature, serial, ⟨hserial, hserial'⟩, before, ⟨hbefore, hbefore'⟩, after, ⟨hafter, hafter'⟩,
      usage, ⟨husage, husage'⟩, _, hvalid, rfl⟩
    obtain ⟨hscopes, hn, rfl, -⟩ := (takeMany_eq_value (fun _ _ _ => takeScope_eq_value hlimit) hend hm).mp htake
    obtain ⟨hcapabilities, -, rfl, -⟩ :=
      (takeMany_eq_value (fun _ _ _ => takeCapability_eq_value hlimit) hend hn).mp htake'
    have hword {x : ℕ} (hx : x < 256 ^ 8) : (UInt64.ofNat x).toNat = x := UInt64.toNat_ofNat_of_lt' (by rw [UInt64.size]; omega)
    have husageNat : (UInt32.ofNat usage).toNat = usage := UInt32.toNat_ofNat_of_lt' (by rw [UInt32.size]; omega)
    simp only [hword hserial', hword hbefore', hword hafter', husageNat]
    exact ⟨hvalid, by omega, ⟨hmagic, hversion, hlength, htotal, hserial, hissuer, hsubject, hkey, hbefore, hafter, husage,
      hdlen, hscount, hkcount, hreserved⟩, ⟨m, n, hdeveloper, hscopes, hcapabilities⟩, hsignature⟩
  · rintro ⟨hvalid, hle, ⟨hmagic, hversion, hlength, htotal, hserial, hissuer, hsubject, hkey, hbefore, hafter, husage, hdlen,
      hscount, hkcount, hreserved⟩, ⟨m, n, hdeveloper, hscopes, hcapabilities⟩, hsignature⟩
    have hformed := formed_of_validate hvalid
    have hm := slice_stop hdeveloper
    have hn := slice_stop hscopes
    have hstop := slice_stop hcapabilities
    have hitem {text : Text} (ht : text.1.length ≤ maxItemLen) : text.1.length < 256 ^ 2 := by
      unfold maxItemLen at ht
      omega
    refine ⟨_, _, _, ⟨⟨by omega, hmax⟩, ⟨hformed.scopeCount, hformed.capabilityCount, by rw [hformed.developer]; decide⟩,
      hmagic, hversion, hlength, htotal, hdlen, hscount, hkcount, hreserved⟩, _, m, ⟨hdeveloper, rfl, by omega⟩, _, n,
      (takeMany_eq_value (fun _ _ _ => takeScope_eq_value hlimit) hend (by omega)).mpr
        ⟨hscopes, by omega, rfl, fun scope hs => hitem (hformed.scopes scope hs)⟩, _, _,
      (takeMany_eq_value (fun _ _ _ => takeCapability_eq_value hlimit) hend (by omega)).mpr
        ⟨hcapabilities, le_rfl, rfl, fun capability hc => hitem (hformed.capabilities capability hc)⟩, (), rfl,
      _, hissuer, _, hsubject, _, hkey, _, hsignature, _, ⟨hserial, c.serialNumber.toNat_lt⟩, _,
      ⟨hbefore, c.notBefore.toNat_lt⟩, _, ⟨hafter, c.notAfter.toNat_lt⟩, _, ⟨husage, c.keyUsage.toNat_lt⟩, (), ?_⟩
    simp only [UInt64.ofNat_toNat, UInt32.ofNat_toNat]
    exact ⟨hvalid, trivial⟩

end Certificate

/-! ## What a signature covers -/

def Certificate.resigned (c : Certificate) (signature : Fixed 64) : Certificate := { c with signature }

theorem Certificate.validate_resigned {P : Primitives} {c : Certificate} {signature : Fixed 64} :
    (c.resigned signature).validate P = c.validate P := rfl

theorem Certificate.unsigned_resigned {c : Certificate} {signature : Fixed 64} :
    (c.resigned signature).unsigned = c.unsigned := rfl

theorem Certificate.resigned_eq_of_unsigned {P : Primitives} {c₁ c₂ : Certificate} (h₁ : c₁.validate P = .value ())
    (h₂ : c₂.validate P = .value ()) (h : c₁.unsigned = c₂.unsigned) : c₁ = c₂.resigned c₁.signature := by
  have hwire : c₁.wire = (c₂.resigned c₁.signature).wire := by
    rw [wire, wire, unsigned_resigned, h]
    rfl
  have hdecode₁ := decode_eq_value.mpr ⟨h₁, rfl⟩
  have hdecode₂ : decode P (c₂.resigned c₁.signature).wire = .value (c₂.resigned c₁.signature) :=
    decode_eq_value.mpr ⟨by rw [validate_resigned, h₂], rfl⟩
  rw [hwire, hdecode₂] at hdecode₁
  exact (value.inj hdecode₁).symm

/-- **Certificates are canonical.** Encoding and decoding are inverse to each other, and a signing message determines
everything but the signature. -/
theorem certificate_canonical (P : Primitives) :
    (∀ (c : Certificate) (buffer : List UInt8) (n : ℕ) (out : List UInt8), c.encode P buffer = .value (n, out) →
      n ≤ buffer.length ∧ out.drop n = buffer.drop n ∧ decode P (out.take n) = .value c) ∧
    (∀ (bytes : List UInt8) (c : Certificate), decode P bytes = .value c → ∀ buffer : List UInt8,
      bytes.length ≤ buffer.length → ∃ out, c.encode P buffer = .value (bytes.length, out) ∧
        out.take bytes.length = bytes ∧ out.drop bytes.length = buffer.drop bytes.length) ∧
    (∀ (c₁ c₂ : Certificate) (message : List UInt8), c₁.signingMessage P = .value message →
      c₂.signingMessage P = .value message → c₁ = c₂.resigned c₁.signature) := by
  refine ⟨?_, ?_, ?_⟩
  · intro c buffer n out h
    obtain ⟨hvalid, hle, heq⟩ := Certificate.encode_eq_value.mp h
    obtain ⟨rfl, rfl⟩ := Prod.mk.inj heq
    have hlen := c.wire_length
    refine ⟨hle, drop_left' hlen, ?_⟩
    rw [take_left' hlen]
    exact Certificate.decode_eq_value.mpr ⟨hvalid, rfl⟩
  · intro bytes c h buffer hle
    obtain ⟨hvalid, rfl⟩ := Certificate.decode_eq_value.mp h
    have hlen := c.wire_length
    refine ⟨c.wire ++ buffer.drop c.size, ?_, take_left, ?_⟩
    · rw [hlen] at hle ⊢
      exact Certificate.encode_of_validate hvalid hle
    · rw [drop_left, hlen]
  · intro c₁ c₂ message h₁ h₂
    obtain ⟨hvalid₁, rfl⟩ := Certificate.signingMessage_eq_value.mp h₁
    obtain ⟨hvalid₂, heq⟩ := Certificate.signingMessage_eq_value.mp h₂
    exact Certificate.resigned_eq_of_unsigned hvalid₁ hvalid₂ (append_cancel_left heq)

/-! ## A certificate -/

namespace Fixture

/-- A hash that keeps the first bytes, and keys and signatures that are told by their first byte. -/
def primitives : Primitives where
  sha256 bytes := ⟨(bytes ++ List.replicate 32 0).take 32, by simp⟩
  isVerifyingKey key := key.1.head? == some 1
  verifyStrict _ _ signature := signature.1.head? == some 2

def rootKey : Fixed 32 := ⟨1 :: List.replicate 31 5, rfl⟩
def subjectKey : Fixed 32 := ⟨1 :: List.replicate 31 6, rfl⟩

def certificate : Certificate where
  serialNumber := 7
  issuerKeyId := keyId primitives rootKey
  developerId := textOf "0123456789ab7def8123456789abcdef" (by decide +kernel)
  subjectKeyId := keyId primitives subjectKey
  subjectPublicKey := subjectKey
  notBefore := 100
  notAfter := 200
  keyUsage := keyUsagePackageSigning
  packageIdScopes := [
    { kind := .exact, packageId := textOf "org.bar.app" (by decide +kernel) },
    { kind := .prefixed, packageId := textOf "com.foo" (by decide +kernel) }]
  allowedCapabilities := [textOf "disk.read" (by decide +kernel), textOf "net" (by decide +kernel)]
  signature := ⟨2 :: List.replicate 63 0, rfl⟩

theorem certificate_valid : certificate.validate primitives = .value () := by decide

theorem certificate_canonical_fixture : decode primitives certificate.wire = .value certificate ∧
      (∀ buffer : List UInt8, certificate.wire.length ≤ buffer.length →
        ∃ out, certificate.encode primitives buffer = .value (certificate.wire.length, out) ∧
          out.take certificate.wire.length = certificate.wire ∧
            decode primitives (out.take certificate.wire.length) = .value certificate) ∧
      certificate = certificate.resigned certificate.signature := by
  have hdecode := Certificate.decode_eq_value.mpr ⟨certificate_valid, rfl⟩
  have hmessage : certificate.signingMessage primitives = .value (domainSeparator ++ certificate.unsigned) :=
    Certificate.signingMessage_eq_value.mpr ⟨certificate_valid, rfl⟩
  obtain ⟨hback, hforth, hunique⟩ := certificate_canonical primitives
  refine ⟨hdecode, fun buffer hle => ?_, hunique _ _ _ hmessage hmessage⟩
  obtain ⟨out, hencode, htake, -⟩ := hforth _ _ hdecode buffer hle
  exact ⟨out, hencode, htake, (hback _ _ _ _ hencode).2.2⟩

end Fixture

end MochiSyscalls.DeveloperCertificate
