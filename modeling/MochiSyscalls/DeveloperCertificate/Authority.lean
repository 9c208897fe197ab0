import MochiSyscalls.DeveloperCertificate.Canonical

/-! # What a verified certificate allows

`verify` and `allows_capability` (`crates/certificate/src/lib.rs`). The capability list is searched by
halving, which is right because the validator, run again before the signature is checked, refuses lists
that are not in strict order. -/

namespace MochiSyscalls.DeveloperCertificate
open Foundations Bytes Effects Outcome Utf8 List
open BinarySearch
set_option autoImplicit false

inductive VerifyError where
  | invalidRootPublicKey
  | issuerKeyIdMismatch
  | notYetValid
  | expired
  | packageIdNotAllowed
  | invalidSignature
  deriving DecidableEq, Repr

structure VerifiedDeveloper where
  certificate : Certificate
  deriving DecidableEq

def VerifiedDeveloper.allowsCapability (v : VerifiedDeveloper) (capability : Text) : Bool :=
  (binarySearchBy (fun entry : Text => compare entry.1 capability.1) v.certificate.allowedCapabilities).isOk

namespace Certificate

def coversPackage (c : Certificate) (packageId : Text) : Bool := c.packageIdScopes.any (·.covers packageId)

def verify (P : Primitives) (c : Certificate) (rootPublicKey : Fixed 32) (unixTime : UInt64) (packageId : Text) :
    Outcome VerifyError VerifiedDeveloper := do
  reject (¬ P.isVerifyingKey rootPublicKey) .invalidRootPublicKey
  reject (keyId P rootPublicKey ≠ c.issuerKeyId) .issuerKeyIdMismatch
  let message ← (c.signingMessage P).mapError fun _ => .invalidSignature
  reject (¬ P.verifyStrict rootPublicKey message c.signature) .invalidSignature
  reject (unixTime < c.notBefore) .notYetValid
  reject (c.notAfter ≤ unixTime) .expired
  reject (¬ isValidPackageId packageId ∨ ¬ c.coversPackage packageId) .packageIdNotAllowed
  return { certificate := c }

variable {P : Primitives} {c : Certificate} {root : Fixed 32} {time : UInt64} {packageId : Text}

/-- Everything `verify` asks of the certificate itself, whatever the package. -/
structure Trusted (P : Primitives) (c : Certificate) (root : Fixed 32) (time : UInt64) : Prop where
  isKey : P.isVerifyingKey root = true
  issuer : keyId P root = c.issuerKeyId
  valid : c.validate P = .value ()
  signed : P.verifyStrict root (domainSeparator ++ c.unsigned) c.signature = true
  begun : c.notBefore ≤ time
  running : time < c.notAfter

theorem verify_eq_value {v : VerifiedDeveloper} :
    c.verify P root time packageId = .value v ↔ c.Trusted P root time ∧ isValidPackageId packageId = true ∧
      c.coversPackage packageId = true ∧ v.certificate = c := by
  simp only [verify, bind_eq_value, reject_eq_value, mapError_eq_value, signingMessage_eq_value, pure_eq,
    Outcome.value.injEq, not_not, ne_eq, not_or, exists_const, UInt64.not_le, UInt64.not_lt]
  constructor
  · rintro ⟨hkey, hissuer, message, ⟨hvalid, rfl⟩, hsigned, hbegun, hrunning, ⟨hid, hcovers⟩, rfl⟩
    exact ⟨⟨hkey, hissuer, hvalid, hsigned, hbegun, hrunning⟩, hid, hcovers, rfl⟩
  · rintro ⟨h, hid, hcovers, rfl⟩
    exact ⟨h.isKey, h.issuer, _, ⟨h.valid, rfl⟩, h.signed, h.begun, h.running, ⟨hid, hcovers⟩, rfl⟩

end Certificate

/-! ## The two tests -/

theorem PackageIdScope.covers_iff {scope : PackageIdScope} {packageId : Text} : scope.covers packageId = true ↔
      scope.kind = .exact ∧ packageId = scope.packageId ∨
      scope.kind = .prefixed ∧
        (packageId = scope.packageId ∨ ∃ rest, packageId.1 = scope.packageId.1 ++ byte '.' :: rest) := by
  unfold PackageIdScope.covers
  cases scope.kind with
  | exact =>
    simp only [reduceCtorEq, false_and, true_and, or_false, beq_iff_eq]
    exact eq_comm
  | prefixed =>
    simp only [reduceCtorEq, false_and, true_and, false_or, Bool.or_eq_true, beq_iff_eq, Bool.and_eq_true,
      isPrefixOf_iff_prefix]
    refine or_congr_right ⟨?_, ?_⟩
    · rintro ⟨⟨suffix, hsuffix⟩, hhead⟩
      rw [← hsuffix, drop_left] at hhead
      obtain ⟨rest, rfl⟩ := head?_eq_some_iff.mp hhead
      exact ⟨rest, hsuffix.symm⟩
    · rintro ⟨rest, h⟩
      refine ⟨⟨_, h.symm⟩, ?_⟩
      rw [h, drop_left]
      rfl

theorem VerifiedDeveloper.allowsCapability_iff {v : VerifiedDeveloper} (h : v.certificate.Formed) {capability : Text} :
    v.allowsCapability capability = true ↔ capability ∈ v.certificate.allowedCapabilities := by
  have hordered : Ordered (fun entry : Text => compare entry.1 capability.1) v.certificate.allowedCapabilities :=
    ordered_of_isChain h.sorted
  rw [allowsCapability, binarySearchBy_isOk hordered]
  constructor
  · rintro ⟨entry, hentry, heq⟩
    rwa [← Subtype.ext (Std.LawfulEqCmp.eq_of_compare heq)]
  · intro hmem
    exact ⟨capability, hmem, Std.ReflCmp.compare_self⟩

/-- **A verified certificate allows what its lists say**: the capabilities listed, and the packages that are an exact
scope or lie at or below a prefix scope. -/
theorem authority_checks (P : Primitives) (c : Certificate) (root : Fixed 32) (time : UInt64) (packageId : Text)
    (v : VerifiedDeveloper) (h : c.verify P root time packageId = .value v) :
    (∀ capability, v.allowsCapability capability = true ↔ capability ∈ c.allowedCapabilities) ∧
    (∀ i : Text, c.coversPackage i = true ↔ ∃ scope ∈ c.packageIdScopes, scope.kind = .exact ∧ i = scope.packageId ∨
      scope.kind = .prefixed ∧ (i = scope.packageId ∨ ∃ rest, i.1 = scope.packageId.1 ++ byte '.' :: rest)) ∧
    (∀ i : Text, c.verify P root time i = .value v ↔ isValidPackageId i = true ∧ c.coversPackage i = true) := by
  obtain ⟨htrusted, -, -, rfl⟩ := Certificate.verify_eq_value.mp h
  refine ⟨fun capability => ?_, fun i => ?_, fun i => ?_⟩
  · exact VerifiedDeveloper.allowsCapability_iff (Certificate.formed_of_validate htrusted.valid)
  · rw [Certificate.coversPackage, any_eq_true]
    exact exists_congr fun scope => and_congr_right fun _ => PackageIdScope.covers_iff
  · rw [Certificate.verify_eq_value]
    exact ⟨fun hi => ⟨hi.2.1, hi.2.2.1⟩, fun hi => ⟨htrusted, hi.1, hi.2, rfl⟩⟩

theorem authority_checks_fixture : let v : VerifiedDeveloper := { certificate := Fixture.certificate }
    let covers := fun s h => Fixture.certificate.coversPackage (textOf s h)
    v.allowsCapability (textOf "net" (by decide)) = true ∧
      v.allowsCapability (textOf "ne" (by decide)) = false ∧
      covers "com.foo.app" (by decide +kernel) = true ∧ covers "com.foobar" (by decide +kernel) = false := by
  have hverify : Fixture.certificate.verify Fixture.primitives Fixture.rootKey 150
      (textOf "com.foo" (by decide +kernel)) = .value { certificate := Fixture.certificate } := by
    decide +kernel
  obtain ⟨hcapability, hcovers, -⟩ := authority_checks _ _ _ _ _ _ hverify
  refine ⟨(hcapability _).mpr (by decide), Bool.eq_false_iff.mpr fun h => ?_,
    (hcovers _).mpr ⟨{ kind := .prefixed, packageId := textOf "com.foo" (by decide +kernel) }, ?_, ?_⟩,
    by decide⟩
  · exact absurd ((hcapability _).mp h) (by decide)
  · decide
  · exact .inr ⟨rfl, .inr ⟨ascii "app", by decide⟩⟩

end MochiSyscalls.DeveloperCertificate
