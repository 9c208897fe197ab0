import MochiSyscalls.DeveloperCertificate.Certificate

/-! # The binary form of a certificate

`encode`, `signing_message` and `decode` (`crates/certificate/src/lib.rs`). `wire` is the text both sides
agree on, the parts of a certificate one after the other: the encoder writes it and the decoder accepts a
byte string exactly when it is the `wire` of a valid certificate. -/

namespace MochiSyscalls.DeveloperCertificate
open Foundations Bytes Effects Outcome Utf8 Words List
set_option autoImplicit false

def magic : List UInt8 := ascii "MCER"
def formatVersion : ℕ := 1
def domainSeparator : List UInt8 := ascii "mochios-certificate-v1\x00"

def offsetTotalLen : ℕ := 8
def offsetSerial : ℕ := 12
def offsetIssuerKeyId : ℕ := 20
def offsetSubjectKeyId : ℕ := 52
def offsetSubjectPublicKey : ℕ := 84
def offsetNotBefore : ℕ := 116
def offsetNotAfter : ℕ := 124
def offsetKeyUsage : ℕ := 132
def offsetDeveloperIdLen : ℕ := 136
def offsetScopeCount : ℕ := 138
def offsetCapabilityCount : ℕ := 140
def offsetReserved : ℕ := 142

inductive EncodeError where
  | bufferTooSmall (required actual : ℕ)
  | lengthOverflow
  | invalidCertificate (error : ValidationError)
  deriving DecidableEq, Repr

inductive DecodeError where
  | tooShort (minimum actual : ℕ)
  | invalidLength (expected actual : ℕ)
  | invalidMagic (actual : List UInt8)
  | unsupportedVersion (actual : ℕ)
  | invalidHeaderLength (actual : ℕ)
  | nonZeroReserved (offset actual : ℕ)
  | invalidUtf8 (offset : ℕ)
  | unknownScopeKind (actual : UInt8)
  | validation (error : ValidationError)
  deriving DecidableEq, Repr

/-! ## Encoding -/

/-- `buffer[offset..offset + bytes.len()].copy_from_slice(bytes)`. -/
def overwrite (buffer : List UInt8) (offset : ℕ) (bytes : List UInt8) : Outcome EncodeError (List UInt8) :=
  if offset + bytes.length ≤ buffer.length then .value (splice buffer offset bytes) else .panicked

variable (s : List UInt8 × ℕ)

def writeBytes (bytes : List UInt8) : Outcome EncodeError (List UInt8 × ℕ) := do
  let stop ← okOr (usizeCheckedAdd s.2 bytes.length) .lengthOverflow
  reject (s.1.length < stop) (.bufferTooSmall stop s.1.length)
  return (splice s.1 s.2 bytes, stop)

def writeScope (scope : PackageIdScope) : Outcome EncodeError (List UInt8 × ℕ) := do
  reject (2 ^ 16 ≤ scope.packageId.1.length) .lengthOverflow
  let s ← writeBytes s [scope.kind.code, 0]
  let s ← writeBytes s (toLe 2 scope.packageId.1.length)
  writeBytes s scope.packageId.1

def writeCapability (capability : Text) : Outcome EncodeError (List UInt8 × ℕ) := do
  reject (2 ^ 16 ≤ capability.1.length) .lengthOverflow
  let s ← writeBytes s (toLe 2 capability.1.length)
  writeBytes s capability.1

namespace Certificate

/-- The fixed fields and where they are written, in the order of the writes. -/
def headerFields (c : Certificate) (totalLen : ℕ) : List (ℕ × List UInt8) :=
  [(0, magic),
    (4, toLe 2 formatVersion),
    (6, toLe 2 headerLen),
    (offsetTotalLen, toLe 4 totalLen),
    (offsetSerial, toLe 8 c.serialNumber.toNat),
    (offsetIssuerKeyId, c.issuerKeyId.1),
    (offsetSubjectKeyId, c.subjectKeyId.1),
    (offsetSubjectPublicKey, c.subjectPublicKey.1),
    (offsetNotBefore, toLe 8 c.notBefore.toNat),
    (offsetNotAfter, toLe 8 c.notAfter.toNat),
    (offsetKeyUsage, toLe 4 c.keyUsage.toNat),
    (offsetDeveloperIdLen, toLe 2 c.developerId.1.length),
    (offsetScopeCount, toLe 2 c.packageIdScopes.length),
    (offsetCapabilityCount, toLe 2 c.allowedCapabilities.length),
    (offsetReserved, toLe 2 0)]

def encodePrefix (c : Certificate) (buffer : List UInt8) (totalLen : ℕ) : Outcome EncodeError (List UInt8) := do
  reject (2 ^ 32 ≤ totalLen) .lengthOverflow
  reject (2 ^ 16 ≤ c.developerId.1.length) .lengthOverflow
  reject (2 ^ 16 ≤ c.packageIdScopes.length) .lengthOverflow
  reject (2 ^ 16 ≤ c.allowedCapabilities.length) .lengthOverflow
  let buffer ← (c.headerFields totalLen).foldlM (fun buffer field => overwrite buffer field.1 field.2) buffer
  let s ← writeBytes (buffer, headerLen) c.developerId.1
  let s ← c.packageIdScopes.foldlM writeScope s
  let s ← c.allowedCapabilities.foldlM writeCapability s
  reject (s.2 ≠ s.1.length) .lengthOverflow
  return s.1

variable (P : Primitives)

def encode (c : Certificate) (buffer : List UInt8) : Outcome EncodeError (ℕ × List UInt8) := do
  (c.validate P).mapError .invalidCertificate
  let required ← c.encodedLen.mapError .invalidCertificate
  reject (buffer.length < required) (.bufferTooSmall required buffer.length)
  let front ← ofOption (slice buffer 0 (required - signatureLen))
  let front ← c.encodePrefix front required
  let buffer ← overwrite buffer 0 front
  let buffer ← overwrite buffer (required - signatureLen) c.signature.1
  return (required, buffer)

def signingMessage (c : Certificate) : Outcome EncodeError (List UInt8) := do
  (c.validate P).mapError .invalidCertificate
  let totalLen ← c.encodedLen.mapError .invalidCertificate
  let unsignedLen := totalLen - signatureLen
  let capacity ← okOr (usizeCheckedAdd domainSeparator.length unsignedLen) .lengthOverflow
  let body ← c.encodePrefix (List.replicate (capacity - domainSeparator.length) 0) totalLen
  return domainSeparator ++ body

end Certificate

/-! ## Decoding -/

def PackageScopeKind.decode (value : UInt8) : Outcome DecodeError PackageScopeKind :=
  if value = 1 then .value exact else if value = 2 then .value prefixed else .failed (.unknownScopeKind value)

variable (bytes : List UInt8)

def take (cursor length limit : ℕ) : Outcome DecodeError (List UInt8 × ℕ) := do
  let stop ← okOr (usizeCheckedAdd cursor length) (.invalidLength usizeMax bytes.length)
  reject (limit < stop) (.tooShort (stop + signatureLen) bytes.length)
  let result ← ofOption (slice bytes cursor stop)
  return (result, stop)

/-- `take` and `core::str::from_utf8`, whose error names the offset of the text. -/
def takeText (cursor length limit : ℕ) : Outcome DecodeError (Text × ℕ) := do
  let (chunk, stop) ← take bytes cursor length limit
  let text ← okOr (fromUtf8 chunk) (.invalidUtf8 cursor)
  return (text, stop)

def takeScope (limit cursor : ℕ) : Outcome DecodeError (PackageIdScope × ℕ) := do
  let (header, cursor) ← take bytes cursor 4 limit
  let code ← ofOption header[0]?
  let kind ← PackageScopeKind.decode code
  let reserved ← ofOption header[1]?
  reject (reserved ≠ 0) (.nonZeroReserved (cursor - 3) reserved.toNat)
  let length ← ofOption (readLe 2 header 2)
  let (packageId, cursor) ← takeText bytes cursor length limit
  return ({ kind, packageId }, cursor)

def takeCapability (limit cursor : ℕ) : Outcome DecodeError (Text × ℕ) := do
  let (lengthBytes, cursor) ← take bytes cursor 2 limit
  let length ← ofOption (readLe 2 lengthBytes 0)
  takeText bytes cursor length limit

/-- A counted loop that collects items, the cursor moving over each. -/
def takeMany {α : Type} (item : ℕ → Outcome DecodeError (α × ℕ)) : ℕ → ℕ → Outcome DecodeError (List α × ℕ)
  | 0, cursor => .value ([], cursor)
  | n + 1, cursor => do
    let (a, cursor) ← item cursor
    let (items, cursor) ← takeMany item n cursor
    return (a :: items, cursor)

def takeFixed (n : ℕ) (bytes : List UInt8) (start stop : ℕ) : Outcome DecodeError (Fixed n) := do
  let body ← ofOption (slice bytes start stop)
  if h : body.length = n then .value ⟨body, h⟩ else .panicked

def decodeHeader : Outcome DecodeError (ℕ × ℕ × ℕ) := do
  reject (bytes.length < headerLen + signatureLen) (.tooShort (headerLen + signatureLen) bytes.length)
  reject (maxCertificateLen < bytes.length) (.validation .certificateTooLarge)
  let actual ← ofOption (slice bytes 0 4)
  reject (actual ≠ magic) (.invalidMagic actual)
  let version ← ofOption (readLe 2 bytes 4)
  reject (version ≠ formatVersion) (.unsupportedVersion version)
  let length ← ofOption (readLe 2 bytes 6)
  reject (length ≠ headerLen) (.invalidHeaderLength length)
  let totalLen ← ofOption (readLe 4 bytes offsetTotalLen)
  reject (totalLen ≠ bytes.length) (.invalidLength totalLen bytes.length)
  let reserved ← ofOption (readLe 2 bytes offsetReserved)
  reject (reserved ≠ 0) (.nonZeroReserved offsetReserved reserved)
  let developerLen ← ofOption (readLe 2 bytes offsetDeveloperIdLen)
  let scopeCount ← ofOption (readLe 2 bytes offsetScopeCount)
  let capabilityCount ← ofOption (readLe 2 bytes offsetCapabilityCount)
  reject (maxPackageScopes < scopeCount) (.validation .tooManyPackageScopes)
  reject (maxAllowedCapabilities < capabilityCount) (.validation .tooManyAllowedCapabilities)
  return (developerLen, scopeCount, capabilityCount)

def decode (P : Primitives) (bytes : List UInt8) : Outcome DecodeError Certificate := do
  let (developerLen, scopeCount, capabilityCount) ← decodeHeader bytes
  let bodyEnd := bytes.length - signatureLen
  let (developerId, cursor) ← takeText bytes headerLen developerLen bodyEnd
  let (packageIdScopes, cursor) ← takeMany (takeScope bytes bodyEnd) scopeCount cursor
  let (allowedCapabilities, cursor) ← takeMany (takeCapability bytes bodyEnd) capabilityCount cursor
  reject (cursor ≠ bodyEnd) (.invalidLength (cursor + signatureLen) bytes.length)
  let issuerKeyId ← takeFixed 32 bytes offsetIssuerKeyId offsetSubjectKeyId
  let subjectKeyId ← takeFixed 32 bytes offsetSubjectKeyId offsetSubjectPublicKey
  let subjectPublicKey ← takeFixed 32 bytes offsetSubjectPublicKey offsetNotBefore
  let signature ← takeFixed 64 bytes bodyEnd bytes.length
  let serialNumber ← ofOption (readLe 8 bytes offsetSerial)
  let notBefore ← ofOption (readLe 8 bytes offsetNotBefore)
  let notAfter ← ofOption (readLe 8 bytes offsetNotAfter)
  let keyUsage ← ofOption (readLe 4 bytes offsetKeyUsage)
  let certificate : Certificate := {
    serialNumber := UInt64.ofNat serialNumber
    issuerKeyId, developerId, subjectKeyId, subjectPublicKey
    notBefore := UInt64.ofNat notBefore
    notAfter := UInt64.ofNat notAfter
    keyUsage := UInt32.ofNat keyUsage
    packageIdScopes, allowedCapabilities, signature }
  (certificate.validate P).mapError .validation
  return certificate

/-! ## The text of a certificate -/

def scopeBytes (scope : PackageIdScope) : List UInt8 :=
  [scope.kind.code, 0] ++ (toLe 2 scope.packageId.1.length ++ scope.packageId.1)

def capabilityBytes (capability : Text) : List UInt8 := toLe 2 capability.1.length ++ capability.1

namespace Certificate

def headerBytes (c : Certificate) (totalLen : ℕ) : List UInt8 := ((c.headerFields totalLen).map Prod.snd).flatten

def listBytes (c : Certificate) : List UInt8 :=
  c.developerId.1 ++ (c.packageIdScopes.flatMap scopeBytes ++ c.allowedCapabilities.flatMap capabilityBytes)

def unsigned (c : Certificate) : List UInt8 := c.headerBytes c.size ++ c.listBytes

def wire (c : Certificate) : List UInt8 := c.unsigned ++ c.signature.1

theorem headerBytes_length (c : Certificate) (totalLen : ℕ) : (c.headerBytes totalLen).length = headerLen := by
  simp only [headerBytes, headerFields, map_cons, map_nil, flatten_cons, flatten_nil,
    length_append, length_nil, toLe_length, c.issuerKeyId.2, c.subjectKeyId.2, c.subjectPublicKey.2]
  rfl

theorem unsigned_length (c : Certificate) : c.unsigned.length + signatureLen = c.size := by
  have hscope : c.packageIdScopes.map (fun scope => (scopeBytes scope).length) =
      c.packageIdScopes.map (4 + ·.packageId.1.length) := by
    refine map_congr_left fun scope _ => ?_
    simp only [scopeBytes, length_append, length_cons, length_nil, toLe_length]
    omega
  have hcapability : c.allowedCapabilities.map (fun capability => (capabilityBytes capability).length) =
      c.allowedCapabilities.map (2 + ·.1.length) := by
    refine map_congr_left fun capability _ => ?_
    rw [capabilityBytes, length_append, toLe_length]
  simp only [unsigned, listBytes, length_append, headerBytes_length, length_flatMap, hscope, hcapability,
    size]
  omega

theorem wire_length (c : Certificate) : c.wire.length = c.size := by
  rw [wire, length_append, c.signature.2, ← c.unsigned_length]
  rfl

end Certificate

/-! ## The encoder writes it -/

/-- A buffer of `n` bytes that starts with what was written so far. -/
def Written (front : List UInt8) (n : ℕ) (buffer : List UInt8) : Prop := front <+: buffer ∧ buffer.length = n

variable {buffer : List UInt8} {front : List UInt8} {n : ℕ}

theorem Written.splice {bytes : List UInt8} (h : Written front n buffer)
    (hfit : front.length + bytes.length ≤ n) : Written (front ++ bytes) n (splice buffer front.length bytes) := by
  obtain ⟨⟨rest, rfl⟩, rfl⟩ := h
  rw [splice_end]
  refine ⟨prefix_append _ _, ?_⟩
  simp only [length_append, length_drop] at hfit ⊢
  omega

theorem Written.eq (h : Written front front.length buffer) : buffer = front :=
  (h.1.eq_of_length h.2.symm).symm

theorem Written.overwrite {offset : ℕ} (h : Written front n buffer)
    (bytes : List UInt8) (hoffset : front.length = offset) (hfit : front.length + bytes.length ≤ n) :
    ∃ buffer', overwrite buffer offset bytes = .value buffer' ∧ Written (front ++ bytes) n buffer' := by
  refine ⟨_, if_pos (by rw [h.2, ← hoffset]; exact hfit), ?_⟩
  rw [← hoffset]
  exact h.splice hfit

/-- Behind what a buffer holds, `write` puts a text, and moves the offset over it. -/
def Writes (n : ℕ) (write : List UInt8 × ℕ → Outcome EncodeError (List UInt8 × ℕ)) (text : List UInt8) : Prop :=
  ∀ ⦃front buffer⦄, Written front n buffer → front.length + text.length ≤ n →
    ∃ buffer', write (buffer, front.length) = .value (buffer', (front ++ text).length) ∧ Written (front ++ text) n buffer'

section

variable {f g : List UInt8 × ℕ → Outcome EncodeError (List UInt8 × ℕ)} {text text' : List UInt8}

theorem writes_bytes (hn : n ≤ usizeMax) (bytes : List UInt8) : Writes n (writeBytes · bytes) bytes := by
  intro front buffer h hfit
  refine ⟨_, ?_, h.splice hfit⟩
  have hlen : (front ++ bytes).length = _ := length_append
  simp only [writeBytes, bind_eq_value, okOr_eq_value, reject_eq_value, usizeCheckedAdd_eq_some]
  exact ⟨_, ⟨hlen, by omega⟩, (), by rw [h.2]; omega, rfl⟩

theorem Writes.then (hf : Writes n f text) (hg : Writes n g text') : Writes n (fun s => f s >>= g) (text ++ text') := by
  intro front buffer h hfit
  rw [length_append] at hfit
  obtain ⟨buffer₁, hfirst, h₁⟩ := hf h (by omega)
  obtain ⟨buffer₂, hsecond, h₂⟩ := hg h₁ (by rw [length_append]; omega)
  rw [← append_assoc]
  exact ⟨buffer₂, bind_eq_value.mpr ⟨_, hfirst, hsecond⟩, h₂⟩

theorem Writes.unless {p : Prop} [Decidable p] {e : EncodeError} (hp : ¬ p) (hf : Writes n f text) :
    Writes n (fun s => reject p e >>= fun _ => f s) text := by
  intro front buffer h hfit
  rw [reject, if_neg hp]
  exact hf h hfit

theorem Writes.foldlM {α : Type} {write : List UInt8 × ℕ → α → Outcome EncodeError (List UInt8 × ℕ)}
    {text : α → List UInt8} {items : List α} (hwrite : ∀ item ∈ items, Writes n (write · item) (text item)) :
    Writes n (items.foldlM write) (items.flatMap text) := by
  induction items with
  | nil => exact fun front buffer h _ => ⟨buffer, by simp, by simpa using h⟩
  | cons item items ih =>
    simp only [foldlM_cons, flatMap_cons]
    exact (hwrite item mem_cons_self).then (ih fun a ha => hwrite a (mem_cons_of_mem _ ha))

end

/-- Fields that are written at the offsets where the ones before them end. -/
def adjacent : ℕ → List (ℕ × List UInt8) → Prop
  | _, [] => True
  | offset, field :: fields => offset = field.1 ∧ adjacent (offset + field.2.length) fields

theorem Written.fields {fields : List (ℕ × List UInt8)} (h : Written front n buffer)
    (hadj : adjacent front.length fields) (hfit : front.length + (fields.map Prod.snd).flatten.length ≤ n) :
    ∃ buffer', fields.foldlM (fun buffer field => DeveloperCertificate.overwrite buffer field.1 field.2) buffer =
        .value buffer' ∧ Written (front ++ (fields.map Prod.snd).flatten) n buffer' := by
  induction fields generalizing front buffer with
  | nil => exact ⟨buffer, rfl, by simpa using h⟩
  | cons field fields ih =>
    rw [map_cons, flatten_cons, length_append] at hfit
    obtain ⟨hoffset, hadj⟩ := hadj
    obtain ⟨buffer₁, hfield, h₁⟩ := h.overwrite field.2 hoffset (by omega)
    rw [← length_append] at hadj
    obtain ⟨buffer₂, hfields, h₂⟩ := ih h₁ hadj (by rw [length_append]; omega)
    rw [map_cons, flatten_cons, ← append_assoc]
    exact ⟨buffer₂, by rw [foldlM_cons, hfield]; exact hfields, h₂⟩

theorem writes_scope (hn : n ≤ usizeMax) {scope : PackageIdScope} (hlen : scope.packageId.1.length ≤ maxItemLen) :
    Writes n (writeScope · scope) (scopeBytes scope) := by
  unfold maxItemLen at hlen
  exact .unless (by omega) ((writes_bytes hn _).then ((writes_bytes hn _).then (writes_bytes hn _)))

theorem writes_capability (hn : n ≤ usizeMax) {capability : Text} (hlen : capability.1.length ≤ maxItemLen) :
    Writes n (writeCapability · capability) (capabilityBytes capability) := by
  unfold maxItemLen at hlen
  exact .unless (by omega) ((writes_bytes hn _).then (writes_bytes hn _))

namespace Certificate

variable {P : Primitives} {c : Certificate}

theorem headerFields_adjacent (c : Certificate) (totalLen : ℕ) : adjacent 0 (c.headerFields totalLen) := by
  simp only [headerFields, adjacent, toLe_length, c.issuerKeyId.2, c.subjectKeyId.2, c.subjectPublicKey.2]
  decide

theorem encodePrefix_eq (h : c.Formed) (hlen : buffer.length = c.size - signatureLen) :
    c.encodePrefix buffer c.size = .value c.unsigned := by
  have hsize := h.size_le
  have hunsigned := c.unsigned_length
  have hn : buffer.length ≤ usizeMax := by
    unfold usizeMax
    unfold maxCertificateLen at hsize
    omega
  have hheader := c.headerBytes_length c.size
  have hlist : c.unsigned.length = headerLen + c.listBytes.length := by rw [unsigned, length_append, hheader]
  have h₀ : Written [] buffer.length buffer := ⟨ nil_prefix, rfl⟩
  obtain ⟨buffer₁, hfields, h₁⟩ := h₀.fields (c.headerFields_adjacent c.size)
    (by rw [← headerBytes, hheader, length_nil]; omega)
  rw [nil_append, ← headerBytes] at h₁
  have hlists : Writes buffer.length _ c.listBytes := (writes_bytes hn c.developerId.1).then
    ((Writes.foldlM fun scope hs => writes_scope hn (h.scopes scope hs)).then
      (.foldlM fun capability hc => writes_capability hn (h.capabilities capability hc)))
  obtain ⟨buffer₂, hwrite, h₂⟩ := hlists h₁ (by omega)
  rw [← unsigned, hheader] at hwrite
  rw [← unsigned] at h₂
  have hfull : c.unsigned.length = buffer.length := by omega
  obtain rfl : buffer₂ = c.unsigned := Written.eq (by rw [hfull]; exact h₂)
  simp only [bind_eq_value] at hwrite
  obtain ⟨s₁, hdeveloper, s₂, hscopes, hcapabilities⟩ := hwrite
  have hdeveloperLen := h.developer
  have hscopeCount := h.scopeCount
  have hcapabilityCount := h.capabilityCount
  unfold maxDeveloperIdLen at hdeveloperLen
  unfold maxPackageScopes at hscopeCount
  unfold maxAllowedCapabilities at hcapabilityCount
  unfold maxCertificateLen at hsize
  simp only [encodePrefix, bind_eq_value, reject_eq_value]
  exact ⟨(), by omega, (), by omega, (), by omega, (), by omega, _, hfields, _, hdeveloper, _, hscopes, _, hcapabilities,
    (), not_not.mpr rfl, rfl⟩

theorem encode_of_validate (h : c.validate P = .value ()) (hlen : c.size ≤ buffer.length) :
    c.encode P buffer = .value (c.size, c.wire ++ buffer.drop c.size) := by
  have hformed := formed_of_validate h
  have hunsigned := c.unsigned_length
  have hsignature := c.signature.2
  have hfront : slice buffer 0 (c.size - signatureLen) = some (buffer.take (c.size - signatureLen)) :=
    slice_isSome (Nat.zero_le _) (by omega)
  have hprefix : c.encodePrefix (buffer.take (c.size - signatureLen)) c.size = .value c.unsigned :=
    encodePrefix_eq hformed (by rw [length_take]; omega)
  have hbody : overwrite buffer 0 c.unsigned = .value (c.unsigned ++ buffer.drop c.unsigned.length) := by
    rw [overwrite, if_pos (by omega), splice, take_zero, nil_append, Nat.zero_add]
  have hlast : overwrite (c.unsigned ++ buffer.drop c.unsigned.length) (c.size - signatureLen) c.signature.1 =
      .value (c.wire ++ buffer.drop c.size) := by
    rw [show c.size - signatureLen = c.unsigned.length by omega, overwrite, if_pos, splice_end, drop_drop,
      hsignature, wire, ← hunsigned]
    · rfl
    · rw [length_append, length_drop]
      unfold signatureLen at hunsigned
      omega
  simp only [encode, bind_eq_value, mapError_eq_value, reject_eq_value, ofOption_eq_value]
  exact ⟨(), h, _, hformed.encodedLen, (), not_lt.mpr hlen, _, hfront, _, hprefix, _, hbody, _, hlast, rfl⟩

theorem encode_eq_value {r : ℕ × List UInt8} : c.encode P buffer = .value r ↔
      c.validate P = .value () ∧ c.size ≤ buffer.length ∧ r = (c.size, c.wire ++ buffer.drop c.size) := by
  constructor
  · intro h
    have hsteps := h
    simp only [encode, bind_eq_value, mapError_eq_value, encodedLen_eq_value, reject_eq_value, not_lt] at hsteps
    obtain ⟨_, hvalid, _, ⟨rfl, -⟩, _, hlen, -⟩ := hsteps
    rw [encode_of_validate hvalid hlen] at h
    exact ⟨hvalid, hlen, (Outcome.value.inj h).symm⟩
  · rintro ⟨hvalid, hlen, rfl⟩
    exact encode_of_validate hvalid hlen

theorem signingMessage_eq_value {message : List UInt8} :
    c.signingMessage P = .value message ↔ c.validate P = .value () ∧ message = domainSeparator ++ c.unsigned := by
  have hvalue : c.validate P = .value () → c.signingMessage P = .value (domainSeparator ++ c.unsigned) := by
    intro h
    have hformed := formed_of_validate h
    have hsize := hformed.size_le
    have hadd : usizeCheckedAdd domainSeparator.length (c.size - signatureLen) =
        some (domainSeparator.length + (c.size - signatureLen)) := by
      refine usizeCheckedAdd_eq_some.mpr ⟨rfl, ?_⟩
      rw [show domainSeparator.length = 23 from rfl]
      unfold usizeMax
      unfold maxCertificateLen at hsize
      omega
    have hbody : c.encodePrefix (replicate (domainSeparator.length + (c.size - signatureLen) -
        domainSeparator.length) 0) c.size = .value c.unsigned :=
      encodePrefix_eq hformed (by rw [length_replicate]; omega)
    simp only [signingMessage, bind_eq_value, mapError_eq_value, okOr_eq_value]
    exact ⟨(), h, _, hformed.encodedLen, _, hadd, _, hbody, rfl⟩
  constructor
  · intro h
    obtain ⟨_, hvalid, -⟩ := bind_eq_value.mp h
    have hvalid := mapError_eq_value.mp hvalid
    rw [hvalue hvalid] at h
    exact ⟨hvalid, (Outcome.value.inj h).symm⟩
  · rintro ⟨hvalid, rfl⟩
    exact hvalue hvalid

end Certificate

end MochiSyscalls.DeveloperCertificate
