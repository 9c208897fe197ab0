import MochiSyscalls.Foundations.BinarySearch
import MochiSyscalls.Foundations.Effects
import MochiSyscalls.Foundations.LittleEndian
import MochiSyscalls.Foundations.Utf8
import MochiSyscalls.Foundations.Words

/-! # Developer certificates

`DeveloperCertificate`, its validator and the checks it is used for (`crates/certificate/src/lib.rs`).
SHA-256 and Ed25519 are parameters: what is proved here holds for every choice of them. -/

namespace MochiSyscalls.DeveloperCertificate
open Foundations Bytes Effects Outcome Utf8 Words List
set_option autoImplicit false

def headerLen : ℕ := 144
def signatureLen : ℕ := 64
def keyUsagePackageSigning : UInt32 := 1
def maxCertificateLen : ℕ := 1024 * 1024
def maxDeveloperIdLen : ℕ := 32
def maxPackageScopes : ℕ := 256
def maxAllowedCapabilities : ℕ := 512
def maxItemLen : ℕ := 255

structure Primitives where
  sha256 : List UInt8 → Fixed 32
  /-- `VerifyingKey::from_bytes(..).is_ok()`. -/
  isVerifyingKey : Fixed 32 → Bool
  verifyStrict : Fixed 32 → List UInt8 → Fixed 64 → Bool

inductive ValidationError where
  | zeroSerialNumber
  | invalidDeveloperId
  | invalidSubjectPublicKey
  | subjectKeyIdMismatch
  | invalidValidityRange
  | unknownKeyUsage (actual : UInt32)
  | missingPackageScope
  | tooManyPackageScopes
  | invalidPackageScope
  | unsortedPackageScopes
  | duplicatePackageScope
  | tooManyAllowedCapabilities
  | invalidCapability
  | unsortedAllowedCapabilities
  | duplicateAllowedCapability
  | certificateTooLarge
  deriving DecidableEq, Repr

inductive PackageScopeKind where
  | exact | prefixed
  deriving DecidableEq, Repr

def PackageScopeKind.code : PackageScopeKind → UInt8
  | exact => 1
  | prefixed => 2

structure PackageIdScope where
  kind : PackageScopeKind
  packageId : Text
  deriving DecidableEq

/-- The derived order of scopes: the kind first, then the bytes of the identifier. -/
def PackageIdScope.cmp (a b : PackageIdScope) : Ordering :=
  (compare a.kind.code b.kind.code).then (compare a.packageId.1 b.packageId.1)

/-- `PackageIdScope::matches`. -/
def PackageIdScope.covers (scope : PackageIdScope) (packageId : Text) : Bool :=
  match scope.kind with
  | .exact => scope.packageId == packageId
  | .prefixed =>
    packageId == scope.packageId ||
      scope.packageId.1.isPrefixOf packageId.1 && (packageId.1.drop scope.packageId.1.length).head? == some (byte '.')

structure Certificate where
  serialNumber : UInt64
  issuerKeyId : Fixed 32
  developerId : Text
  subjectKeyId : Fixed 32
  subjectPublicKey : Fixed 32
  notBefore : UInt64
  notAfter : UInt64
  keyUsage : UInt32
  packageIdScopes : List PackageIdScope
  allowedCapabilities : List Text
  signature : Fixed 64
  deriving DecidableEq

/-! ## Validation -/

def keyId (P : Primitives) (publicKey : Fixed 32) : Fixed 32 := P.sha256 publicKey.1

def isValidDeveloperId (value : Text) : Bool :=
  value.1.length == maxDeveloperIdLen && value.1.all (fun b => within '0' '9' b || within 'a' 'f' b) &&
    value.1[12]? == some (byte '7') && value.1[16]?.any (fun b => b ∈ ascii "89ab")

def validPackageSegment (segment : List UInt8) : Bool :=
  !segment.isEmpty && segment.head? != some (byte '-') && segment.getLast? != some (byte '-') &&
    segment.all fun b => within 'a' 'z' b || within '0' '9' b || b == byte '-'

def isValidPackageId (value : Text) : Bool :=
  if value.1.isEmpty ∨ maxItemLen < value.1.length then false
  else
    match value.1.splitOn (byte '.') with
    | [] => false
    | first :: segments =>
      validPackageSegment first &&
        (segments.foldlM (fun count segment => if validPackageSegment segment then some (count + 1) else none) 0).any
          (1 ≤ ·)

def isValidCapability (value : Text) : Bool :=
  !value.1.isEmpty && value.1.length ≤ maxItemLen &&
    value.1.all fun b => within 'a' 'z' b || within '0' '9' b || b ∈ ascii ".-_"

/-- The loop of `validate_scopes` and of `validate_capabilities`: every item is valid, and each comes
after the one before it. -/
def validateItems {α : Type} [DecidableEq α] (valid : α → Bool) (cmp : α → α → Ordering)
    (invalid duplicate unsorted : ValidationError) : Option α → List α → Outcome ValidationError Unit
  | _, [] => .value ()
  | previous, item :: items => do
    reject (¬ valid item) invalid
    reject (previous = some item) duplicate
    reject (previous.any (cmp · item == .gt)) unsorted
    validateItems valid cmp invalid duplicate unsorted (some item) items

def validateScopes (scopes : List PackageIdScope) : Outcome ValidationError Unit := do
  reject (scopes.isEmpty) .missingPackageScope
  reject (maxPackageScopes < scopes.length) .tooManyPackageScopes
  validateItems (fun scope => isValidPackageId scope.packageId) PackageIdScope.cmp .invalidPackageScope
    .duplicatePackageScope .unsortedPackageScopes none scopes

def validateCapabilities (capabilities : List Text) : Outcome ValidationError Unit := do
  reject (maxAllowedCapabilities < capabilities.length) .tooManyAllowedCapabilities
  validateItems isValidCapability (fun a b => compare a.1 b.1) .invalidCapability .duplicateAllowedCapability
    .unsortedAllowedCapabilities none capabilities

namespace Certificate

variable (P : Primitives)

/-- One item of the sum of `encoded_len`: its fixed bytes and its text. -/
def addLen (fixed : ℕ) (length : ℕ) (text : Text) : Outcome ValidationError ℕ :=
  okOr (usizeCheckedAdd length fixed >>= (usizeCheckedAdd · text.1.length)) .certificateTooLarge

def encodedLen (c : Certificate) : Outcome ValidationError ℕ := do
  let length ← okOr (usizeCheckedAdd headerLen c.developerId.1.length >>= (usizeCheckedAdd · signatureLen))
    .certificateTooLarge
  let length ← c.packageIdScopes.foldlM (fun length scope => addLen 4 length scope.packageId) length
  c.allowedCapabilities.foldlM (addLen 2) length

def validate (c : Certificate) : Outcome ValidationError Unit := do
  reject (c.serialNumber = 0) .zeroSerialNumber
  reject (¬ isValidDeveloperId c.developerId) .invalidDeveloperId
  reject (¬ P.isVerifyingKey c.subjectPublicKey) .invalidSubjectPublicKey
  reject (keyId P c.subjectPublicKey ≠ c.subjectKeyId) .subjectKeyIdMismatch
  reject (c.notAfter ≤ c.notBefore) .invalidValidityRange
  reject (c.keyUsage ≠ keyUsagePackageSigning) (.unknownKeyUsage c.keyUsage)
  validateScopes c.packageIdScopes
  validateCapabilities c.allowedCapabilities
  let length ← c.encodedLen
  reject (maxCertificateLen < length) .certificateTooLarge

end Certificate

/-! ## What the validator establishes -/

section
variable {α : Type} [DecidableEq α] {valid : α → Bool} {cmp : α → α → Ordering}
  {invalid duplicate unsorted : ValidationError} {previous : Option α} {items : List α} {u : Unit}

theorem validateItems_cons {item : α} :
    validateItems valid cmp invalid duplicate unsorted previous (item :: items) = .value u ↔
      valid item = true ∧ previous ≠ some item ∧ ¬ previous.any (cmp · item == .gt) = true ∧
        validateItems valid cmp invalid duplicate unsorted (some item) items = .value u := by
  rw [validateItems]
  simp only [bind_eq_value, reject_eq_value, not_not, exists_and_left, exists_const, ne_eq]

section

variable (h : validateItems valid cmp invalid duplicate unsorted previous items = .value u)
include h

theorem validateItems_valid : ∀ a ∈ items, valid a = true := by
  induction items generalizing previous with
  | nil => exact nofun
  | cons item items ih =>
    obtain ⟨hvalid, -, -, h⟩ := validateItems_cons.mp h
    intro a ha
    rcases mem_cons.mp ha with rfl | ha
    · exact hvalid
    · exact ih h a ha

theorem validateItems_chain
    (heq : ∀ a b, cmp a b = .eq → a = b) : (previous.toList ++ items).IsChain fun a b => cmp a b = .lt := by
  induction items generalizing previous with
  | nil => cases previous <;> simp
  | cons item items ih =>
    obtain ⟨-, hdup, hsort, hrest⟩ := validateItems_cons.mp h
    cases previous with
    | none => simpa using ih hrest
    | some p =>
      have hlt : cmp p item = .lt := by
        cases hcmp : cmp p item with
        | lt => rfl
        | eq => exact absurd (by rw [heq p item hcmp]) hdup
        | gt => exact absurd (by rw [Option.any_some, hcmp]; rfl) hsort
      simpa [hlt] using ih hrest

end

end

theorem validateScopes_value {scopes : List PackageIdScope} {u : Unit} (h : validateScopes scopes = .value u) :
    scopes.length ≤ maxPackageScopes ∧ ∀ scope ∈ scopes, isValidPackageId scope.packageId = true := by
  unfold validateScopes at h
  obtain ⟨_, _, h⟩ := bind_eq_value.mp h
  obtain ⟨_, hcount, h⟩ := bind_eq_value.mp h
  rw [reject_eq_value, not_lt] at hcount
  exact ⟨hcount, validateItems_valid h⟩

theorem validateCapabilities_value {capabilities : List Text} {u : Unit}
    (h : validateCapabilities capabilities = .value u) :
    capabilities.length ≤ maxAllowedCapabilities ∧ (∀ c ∈ capabilities, isValidCapability c = true) ∧
      capabilities.IsChain fun a b => compare a.1 b.1 = .lt := by
  unfold validateCapabilities at h
  obtain ⟨_, hcount, h⟩ := bind_eq_value.mp h
  rw [reject_eq_value, not_lt] at hcount
  exact ⟨hcount, validateItems_valid h, validateItems_chain h fun a b hab =>
    Subtype.ext (Std.LawfulEqCmp.eq_of_compare hab)⟩

theorem length_of_isValidDeveloperId {value : Text} (h : isValidDeveloperId value = true) :
    value.1.length = maxDeveloperIdLen := by
  simp only [isValidDeveloperId, Bool.and_eq_true, beq_iff_eq] at h
  exact h.1.1.1

theorem length_of_isValidPackageId {value : Text} (h : isValidPackageId value = true) :
    value.1.length ≤ maxItemLen := by
  unfold isValidPackageId at h
  split at h
  · cases h
  next hlen => exact not_lt.mp fun hlt => hlen (.inr hlt)

theorem length_of_isValidCapability {value : Text} (h : isValidCapability value = true) :
    value.1.length ≤ maxItemLen := by
  simp only [isValidCapability, Bool.and_eq_true, decide_eq_true_eq] at h
  exact h.1.2

namespace Certificate

variable {P : Primitives} {c : Certificate} {u : Unit}

def size (c : Certificate) : ℕ :=
  headerLen + c.developerId.1.length + signatureLen + (c.packageIdScopes.map (4 + ·.packageId.1.length)).sum +
    (c.allowedCapabilities.map (2 + ·.1.length)).sum

theorem addLen_eq_value {fixed length n : ℕ} {text : Text} :
    addLen fixed length text = .value n ↔ n = length + (fixed + text.1.length) ∧ n ≤ usizeMax := by
  simp only [addLen, okOr_eq_value, Option.bind_eq_bind, Option.bind_eq_some_iff, usizeCheckedAdd_eq_some]
  constructor
  · rintro ⟨m, ⟨rfl, hm⟩, rfl, hn⟩
    exact ⟨by omega, hn⟩
  · rintro ⟨rfl, hn⟩
    exact ⟨_, ⟨rfl, by omega⟩, by omega, hn⟩

theorem foldlM_addLen {α : Type} {fixed : ℕ} {text : α → Text} {items : List α} {length n : ℕ}
    (hle : length ≤ usizeMax) :
    items.foldlM (fun length item => addLen fixed length (text item)) length = .value n ↔
      n = length + (items.map fun item => fixed + (text item).1.length).sum ∧ n ≤ usizeMax := by
  induction items generalizing length with
  | nil =>
    rw [foldlM_nil, pure_eq, Outcome.value.injEq]
    constructor
    · rintro rfl
      exact ⟨rfl, hle⟩
    · rintro ⟨rfl, -⟩
      rfl
  | cons item items ih =>
    rw [foldlM_cons, map_cons, sum_cons]
    constructor
    · intro h
      obtain ⟨m, hm, h⟩ := bind_eq_value.mp h
      obtain ⟨rfl, hm⟩ := addLen_eq_value.mp hm
      obtain ⟨rfl, hn⟩ := (ih hm).mp h
      exact ⟨by omega, hn⟩
    · rintro ⟨rfl, hn⟩
      have hm : length + (fixed + (text item).1.length) ≤ usizeMax := by omega
      exact bind_eq_value.mpr ⟨_, addLen_eq_value.mpr ⟨rfl, hm⟩, (ih hm).mpr ⟨by omega, hn⟩⟩

theorem encodedLen_eq_value {n : ℕ} : c.encodedLen = .value n ↔ n = c.size ∧ n ≤ usizeMax := by
  unfold encodedLen size
  constructor
  · intro h
    obtain ⟨base, hbase, h⟩ := bind_eq_value.mp h
    obtain ⟨m, hm, h⟩ := bind_eq_value.mp h
    simp only [okOr_eq_value, Option.bind_eq_bind, Option.bind_eq_some_iff, usizeCheckedAdd_eq_some] at hbase
    obtain ⟨k, ⟨rfl, -⟩, rfl, hbase⟩ := hbase
    obtain ⟨rfl, hm⟩ := (foldlM_addLen hbase).mp hm
    exact (foldlM_addLen hm).mp h
  · rintro ⟨rfl, hn⟩
    refine bind_eq_value.mpr ⟨headerLen + c.developerId.1.length + signatureLen, ?_, bind_eq_value.mpr
      ⟨_, (foldlM_addLen (by omega)).mpr ⟨rfl, by omega⟩, (foldlM_addLen (by omega)).mpr ⟨rfl, hn⟩⟩⟩
    simp only [okOr_eq_value, Option.bind_eq_bind, Option.bind_eq_some_iff, usizeCheckedAdd_eq_some]
    exact ⟨_, ⟨rfl, by omega⟩, rfl, by omega⟩

/-- What the validator establishes about sizes and order. -/
structure Formed (c : Certificate) : Prop where
  developer : c.developerId.1.length = maxDeveloperIdLen
  scopeCount : c.packageIdScopes.length ≤ maxPackageScopes
  scopes : ∀ scope ∈ c.packageIdScopes, scope.packageId.1.length ≤ maxItemLen
  capabilityCount : c.allowedCapabilities.length ≤ maxAllowedCapabilities
  capabilities : ∀ capability ∈ c.allowedCapabilities, capability.1.length ≤ maxItemLen
  sorted : c.allowedCapabilities.IsChain fun a b => compare a.1 b.1 = .lt
  size_le : c.size ≤ maxCertificateLen

theorem formed_of_validate (h : c.validate P = .value u) : c.Formed := by
  unfold validate at h
  simp only [bind_eq_value] at h
  obtain ⟨_, _, _, hdeveloper, _, _, _, _, _, _, _, _, _, hscopes, _, hcapabilities, n, hn, h⟩ := h
  obtain ⟨rfl, -⟩ := encodedLen_eq_value.mp hn
  obtain ⟨hscopeCount, hscope⟩ := validateScopes_value hscopes
  obtain ⟨hcapabilityCount, hcapability, hchain⟩ := validateCapabilities_value hcapabilities
  rw [reject_eq_value] at hdeveloper h
  exact {
    developer := length_of_isValidDeveloperId (not_not.mp hdeveloper)
    scopeCount := hscopeCount
    scopes := fun scope hs => length_of_isValidPackageId (hscope scope hs)
    capabilityCount := hcapabilityCount
    capabilities := fun capability hc => length_of_isValidCapability (hcapability capability hc)
    sorted := hchain
    size_le := not_lt.mp h }

theorem Formed.encodedLen (h : c.Formed) : c.encodedLen = .value c.size := by
  have hle := h.size_le
  refine encodedLen_eq_value.mpr ⟨rfl, hle.trans ?_⟩
  decide

end Certificate
end MochiSyscalls.DeveloperCertificate
