import MochiSyscalls.Foundations.Paths

/-! # Package manifests

`PackageManifest` and `validate` (`crates/package-manifest/src/types.rs`, `validation.rs`). Strings are
kept as their bytes. The validator only reads the manifest, apart from the legacy entry that it makes a
binary of. -/

namespace MochiSyscalls.PackageManifest
open Foundations Paths Utf8 List
set_option autoImplicit false

structure PackageBinary where
  path : Path
  requires : List (List UInt8)
  deriving DecidableEq

structure PackageFile where
  id : List UInt8
  path : Path
  digest : List UInt8
  mode : UInt32
  deriving DecidableEq

structure LibraryDependency where
  package : List UInt8
  developer : List UInt8
  subjectKeyId : List UInt8
  provenance : List UInt8
  abi : List UInt8
  deriving DecidableEq

structure LinuxApplication where
  entrypoint : Path
  rootfsFile : List UInt8
  writablePaths : List Path
  portalReadPaths : List Path
  portalWritePaths : List Path
  network : Option (List UInt8)
  deriving DecidableEq

structure ApplicationMetadata where
  entry : Path
  icon : Path
  resources : List Path
  deriving DecidableEq

structure Manifest where
  packageId : List UInt8
  packageName : List UInt8
  packageVersion : List UInt8
  packageKind : Option (List UInt8)
  packageAbi : Option (List UInt8)
  files : List PackageFile
  libraryDependencies : List LibraryDependency
  binaries : List PackageBinary
  application : Option ApplicationMetadata
  linux : Option LinuxApplication
  deriving DecidableEq

/-! ## Texts -/

def isValidPackageId (id : List UInt8) : Bool :=
  !id.isEmpty && id.all fun b => within 'a' 'z' b || within '0' '9' b || b == byte '.' || b == byte '-'

def isAsciiControl (b : UInt8) : Bool := b < 0x20 || b == 0x7f

def isAsciiHexdigit (b : UInt8) : Bool := within '0' '9' b || within 'a' 'f' b || within 'A' 'F' b

def LibraryDependency.valid (d : LibraryDependency) : Bool :=
  isValidPackageId d.package && !d.developer.isEmpty && !d.developer.any isAsciiControl &&
    d.subjectKeyId.length == 64 && d.subjectKeyId.all isAsciiHexdigit &&
    d.provenance ∈ [ascii "built-in", ascii "verified-package", ascii "development"] &&
    !d.abi.isEmpty && !d.abi.any isAsciiControl

/-! ## Paths -/

/-- `text.starts_with(front)`. -/
def startsWith (front text : List UInt8) : Bool := front.isPrefixOf text

/-- `text.strip_prefix(front)`. -/
def strip (front text : List UInt8) : Option (List UInt8) :=
  if startsWith front text then some (text.drop front.length) else none

theorem strip_eq_some {front text rest : List UInt8} : strip front text = some rest ↔ text = front ++ rest := by
  unfold strip startsWith
  constructor
  · intro h
    split at h
    next hfront =>
      obtain ⟨more, rfl⟩ := isPrefixOf_iff_prefix.mp hfront
      rw [drop_left] at h
      rw [Option.some.inj h]
    · cases h
  · rintro rfl
    rw [if_pos (List.isPrefixOf_iff_prefix.mpr (prefix_append _ _)), drop_left]

theorem startsWith_iff {front text : List UInt8} : startsWith front text = true ↔ ∃ rest, text = front ++ rest := by
  rw [startsWith, isPrefixOf_iff_prefix]
  exact exists_congr fun rest => eq_comm

variable (path : Path)

def properPieces : Bool := (pieces path).all fun piece => decide (Proper piece)

/-- What the two path validators share; the slash pair is the text `//`. -/
def cleanText : Bool :=
  path.getLast? != some (byte '/') && !decide (ascii "//" <:+: path) && !path.contains (byte '\\') && !path.contains 0

def isValidAbsolutePath : Bool :=
  startsWith (ascii "/") path && 1 < path.length && cleanText path && properPieces (path.drop 1)

def isValidRelativeBundlePath : Bool :=
  !path.isEmpty && !startsWith (ascii "/") path && cleanText path && properPieces path

def homeUser : Path := ascii "/home/$USER"
def applications : Path := ascii "/applications"
def libraries : Path := ascii "/libraries"

def isValidLinuxPortalPath (writable : Bool) : Bool :=
  let userHome := path == homeUser || (strip (homeUser ++ [byte '/']) path).any fun suffix =>
    !suffix.isEmpty && !suffix.contains (byte '\\') && properPieces suffix
  userHome || !writable && (path == applications || startsWith (applications ++ [byte '/']) path ||
    path == libraries || startsWith (libraries ++ [byte '/']) path)

def linuxPathsOverlap (left right : Path) : Bool :=
  left == right || (strip left right).any (startsWith (ascii "/")) || (strip right left).any (startsWith (ascii "/"))

def systemRoots : List Path := ["/dev", "/proc", "/sys", "/run", "/tmp", "/home", "/mochios"].map ascii
def exactDirectories : List Path := ["/bin", "/sbin", "/lib", "/lib64", "/usr", "/usr/bin", "/usr/lib"].map ascii
def closedDirectories : List Path := ["/bin/", "/sbin/", "/lib/", "/lib64/", "/usr/bin/", "/usr/lib/"].map ascii

def isValidWritableLinuxPath : Bool :=
  isValidAbsolutePath path &&
    !systemRoots.any (fun root => path == root || startsWith (root ++ [byte '/']) path) &&
    !(path ∈ exactDirectories) && closedDirectories.all (fun dir => !startsWith dir path) &&
    !startsWith (ascii "/mochios") path

/-! ## The validator -/

namespace Manifest

/-- The pairwise checks, which compare each item with the ones behind it. -/
def noPair {α : Type} (clash : α → α → Bool) : List α → Bool
  | [] => true
  | item :: items => items.all (fun other => !clash item other) && noPair clash items

def validName (name : List UInt8) : Bool :=
  name.length ≤ 64 && !(name ∈ [ascii ".", ascii ".."]) &&
    !name.any fun b => b == byte '/' || b == byte '\\' || b == 0 || isAsciiControl b

variable (m : Manifest)

def validApplication : Bool :=
  m.packageKind != some (ascii "application") ||
    validName m.packageName && m.application.any fun application =>
      (if m.linux.isSome then application.entry == ascii "linux:" ++ m.packageId
        else isValidRelativeBundlePath application.entry) &&
      (application.icon.isEmpty || isValidRelativeBundlePath application.icon) &&
      application.resources.all isValidRelativeBundlePath

def withLegacyEntry (legacyEntry : Option Path) (legacyRequires : List (List UInt8)) : Manifest :=
  match legacyEntry with
  | some entry =>
    if m.binaries.isEmpty then { m with binaries := [{ path := entry, requires := legacyRequires }] } else m
  | none => m

def validLists : Bool :=
  m.binaries.all (fun binary => !binary.path.isEmpty) &&
    noPair (fun left right => left.path == right.path) m.binaries &&
    m.files.all (fun file => !file.id.isEmpty && !file.path.isEmpty && !file.digest.isEmpty && file.mode != 0) &&
    m.libraryDependencies.all LibraryDependency.valid &&
    noPair (fun left right => left.package == right.package) m.libraryDependencies &&
    noPair (fun left right => left.id == right.id || left.path == right.path) m.files

def validLinux (linux : LinuxApplication) : Bool :=
  m.packageKind == some (ascii "application") && m.packageAbi == some (ascii "mboot-linux-1") &&
    isValidAbsolutePath linux.entrypoint && !linux.rootfsFile.isEmpty &&
    m.files.any (fun file => file.id == linux.rootfsFile) &&
    linux.writablePaths.all isValidWritableLinuxPath &&
    noPair linuxPathsOverlap linux.writablePaths &&
    linux.portalReadPaths.all (isValidLinuxPortalPath · false) &&
    linux.portalWritePaths.all (isValidLinuxPortalPath · true) &&
    linux.network.all (· == ascii "client")

def validate (legacyEntry : Option Path) (legacyRequires : List (List UInt8)) : Option Manifest := do
  guard ¬ (m.packageId.isEmpty ∨ m.packageName.isEmpty ∨ m.packageVersion.isEmpty)
  guard (isValidPackageId m.packageId)
  guard (validApplication m)
  let m := m.withLegacyEntry legacyEntry legacyRequires
  guard (validLists m)
  guard (m.linux.all (validLinux m))
  return m

theorem validLinux_of_validate {m m' : Manifest} {legacyEntry : Option Path} {legacyRequires : List (List UInt8)}
    (h : m.validate legacyEntry legacyRequires = some m') {linux : LinuxApplication} (hlinux : m'.linux = some linux) :
    validLinux m' linux = true := by
  simp only [validate, Option.bind_eq_bind, Option.bind_eq_some_iff, Option.pure_def, Option.some.injEq] at h
  obtain ⟨_, -, _, -, _, -, _, -, _, hguard, rfl⟩ := h
  have hall : (m.withLegacyEntry legacyEntry legacyRequires).linux.all
      (validLinux (m.withLegacyEntry legacyEntry legacyRequires)) = true := by
    simpa using hguard
  rwa [hlinux, Option.all_some] at hall

theorem noPair_iff {α : Type} {clash : α → α → Bool} {items : List α} :
    noPair clash items = true ↔ items.Pairwise fun a b => clash a b = false := by
  induction items with
  | nil => simp [noPair]
  | cons item items ih => simp [noPair, ih]

end Manifest

end MochiSyscalls.PackageManifest
