import MochiSyscalls.PackageManifest.Manifest

/-! # The paths of Linux applications

What the validator lets through: writable paths are isolated from each other and from the system's
directories, and portal paths stay in their roots, except that below `/applications` and `/libraries`
only the front of the text is compared. -/

namespace MochiSyscalls.PackageManifest
open Foundations Paths Utf8 List
set_option autoImplicit false

variable {path : Path}

theorem properPieces_iff : properPieces path = true ↔ ∀ piece ∈ pieces path, Proper piece := by
  rw [properPieces, all_eq_true]
  exact forall₂_congr fun piece _ => decide_eq_true_iff

theorem pieces_of_isValidAbsolutePath (h : isValidAbsolutePath path = true) :
    pieces path = [] :: components path ∧ ∀ name ∈ components path, Proper name := by
  simp only [isValidAbsolutePath, Bool.and_eq_true, startsWith_iff, properPieces_iff] at h
  obtain ⟨⟨⟨⟨rest, rfl⟩, -⟩, -⟩, hproper⟩ := h
  have hpieces : pieces (ascii "/" ++ rest) = [] :: pieces rest := pieces_slash rest
  have hcomponents : components (ascii "/" ++ rest) = pieces rest := by
    rw [components, hpieces, filter_cons_of_neg (by simp), filter_eq_self]
    intro piece hpiece
    have hne : piece ≠ [] := (hproper piece hpiece).1
    simpa using hne
  rw [hcomponents]
  exact ⟨hpieces, hproper⟩

theorem resolve_of_isValidAbsolutePath (h : isValidAbsolutePath path = true) : resolve path = components path := by
  obtain ⟨hpieces, hproper⟩ := pieces_of_isValidAbsolutePath h
  rw [resolve, hpieces, foldl_cons, foldl_walk_proper hproper]
  rfl

section

variable {p q : Path} (hp : isValidAbsolutePath p = true) (hq : isValidAbsolutePath q = true)
include hp hq

theorem components_le_iff : components p <+: components q ↔ q = p ∨ ∃ rest, q = p ++ byte '/' :: rest := by
  rw [← pieces_le_iff, (pieces_of_isValidAbsolutePath hp).1, (pieces_of_isValidAbsolutePath hq).1,
    cons_prefix_cons]
  exact (and_iff_right rfl).symm

theorem linuxPathsOverlap_iff :
    linuxPathsOverlap p q = true ↔ components p <+: components q ∨ components q <+: components p := by
  have hbelow : ∀ a b : Path, (strip a b).any (startsWith (ascii "/")) = true ↔ ∃ rest, b = a ++ byte '/' :: rest := by
    intro a b
    rw [Option.any_eq_true]
    constructor
    · rintro ⟨suffix, hsuffix, hslash⟩
      obtain ⟨rest, rfl⟩ := startsWith_iff.mp hslash
      exact ⟨rest, strip_eq_some.mp hsuffix⟩
    · rintro ⟨rest, rfl⟩
      exact ⟨byte '/' :: rest, strip_eq_some.mpr rfl, startsWith_iff.mpr ⟨rest, rfl⟩⟩
  rw [linuxPathsOverlap, Bool.or_eq_true, Bool.or_eq_true, beq_iff_eq, hbelow, hbelow, components_le_iff hp hq,
    components_le_iff hq hp]
  constructor
  · rintro ((rfl | h) | h)
    · exact .inl (.inl rfl)
    · exact .inl (.inr h)
    · exact .inr (.inr h)
  · rintro ((rfl | h) | (rfl | h))
    · exact .inl (.inl rfl)
    · exact .inl (.inr h)
    · exact .inl (.inl rfl)
    · exact .inr h

end

/-! ## Protected directories -/

/-- The directories of the system that an application may not write to. -/
def protectedDirectories : List Path :=
  systemRoots ++ ["/bin", "/sbin", "/lib", "/lib64", "/usr/bin", "/usr/lib"].map ascii

theorem isValidAbsolutePath_of_protected : ∀ dir ∈ protectedDirectories, isValidAbsolutePath dir = true := by
  decide

theorem refused_below : ∀ dir ∈ protectedDirectories,
    dir ∈ systemRoots ∨ dir ∈ exactDirectories ∧ dir ++ [byte '/'] ∈ closedDirectories := by
  decide

theorem refused_above : ∀ dir ∈ protectedDirectories, ∀ k < dir.length, dir[k]? = some (byte '/') →
    dir.take k = [] ∨ dir.take k ∈ exactDirectories := by
  decide

theorem refusals (h : isValidWritableLinuxPath path = true) :
    isValidAbsolutePath path = true ∧ path ∉ exactDirectories ∧
      (∀ root ∈ systemRoots, path ≠ root ∧ ∀ rest, path ≠ root ++ byte '/' :: rest) ∧
      ∀ dir ∈ closedDirectories, ∀ rest, path ≠ dir ++ rest := by
  simp only [isValidWritableLinuxPath, Bool.and_eq_true, Bool.not_eq_true', any_eq_false, all_eq_true,
    decide_eq_false_iff_not, Bool.or_eq_true, beq_iff_eq, not_or] at h
  obtain ⟨⟨⟨⟨hpath, hroots⟩, hexact⟩, hclosed⟩, -⟩ := h
  refine ⟨hpath, hexact, fun root hroot => ⟨(hroots root hroot).1, ?_⟩, fun dir hdir => ?_⟩
  · rintro rest rfl
    exact (hroots root hroot).2 (startsWith_iff.mpr ⟨rest, by rw [append_assoc]; rfl⟩)
  · rintro rest rfl
    have hfront := hclosed dir hdir
    rw [startsWith_iff.mpr ⟨rest, rfl⟩] at hfront
    cases hfront

theorem not_protected {dir : Path} (h : isValidWritableLinuxPath path = true) (hdir : dir ∈ protectedDirectories) :
    ¬ components dir <+: components path ∧ ¬ components path <+: components dir := by
  obtain ⟨hpath, hexact, hroots, hclosed⟩ := refusals h
  have hvalid := isValidAbsolutePath_of_protected dir hdir
  have hself : path ≠ dir := by
    rintro rfl
    rcases refused_below _ hdir with hroot | ⟨hmem, -⟩
    · exact (hroots _ hroot).1 rfl
    · exact hexact hmem
  rw [components_le_iff hvalid hpath, components_le_iff hpath hvalid, not_or, not_or]
  refine ⟨⟨hself, ?_⟩, hself.symm, ?_⟩
  · rintro ⟨rest, hrest⟩
    rcases refused_below _ hdir with hroot | ⟨-, hmem⟩
    · exact (hroots _ hroot).2 rest hrest
    · refine hclosed _ hmem rest ?_
      rw [hrest, append_assoc, singleton_append]
  · rintro ⟨rest, rfl⟩
    -- the path is the directory's text up to one of its slashes
    have hcut := refused_above _ hdir path.length (by simp) (by simp)
    rw [take_left] at hcut
    rcases hcut with rfl | hmem
    · cases hpath
    · exact hexact hmem

/-- **Writable paths are isolated** from each other and from the protected directories, and have no dots to resolve. -/
theorem writable_paths_isolated (m m' : Manifest) (legacyEntry : Option Path) (legacyRequires : List (List UInt8))
    (linux : LinuxApplication) (h : m.validate legacyEntry legacyRequires = some m') (hlinux : m'.linux = some linux) :
    linux.writablePaths.Pairwise (fun a b => ¬ components a <+: components b ∧ ¬ components b <+: components a) ∧
    ∀ path ∈ linux.writablePaths, resolve path = components path ∧ ∀ dir ∈ protectedDirectories,
      ¬ components dir <+: components path ∧ ¬ components path <+: components dir := by
  have hvalid := Manifest.validLinux_of_validate h hlinux
  simp only [Manifest.validLinux, Bool.and_eq_true, all_eq_true] at hvalid
  obtain ⟨⟨⟨⟨⟨-, hwritable⟩, hpairs⟩, -⟩, -⟩, -⟩ := hvalid
  have hpath : ∀ path ∈ linux.writablePaths, isValidAbsolutePath path = true :=
    fun path hmem => (refusals (hwritable path hmem)).1
  refine ⟨?_, fun path hmem => ⟨resolve_of_isValidAbsolutePath (hpath path hmem), fun dir hdir => ?_⟩⟩
  · refine (Manifest.noPair_iff.mp hpairs).imp_of_mem fun {a b} ha hb hclash => ?_
    rw [← not_or, ← linuxPathsOverlap_iff (hpath a ha) (hpath b hb), hclash]
    exact Bool.false_ne_true
  · exact not_protected (hwritable path hmem) hdir

/-! ## Portals -/

def homeComponents : List Path := [ascii "home", ascii "$USER"]

def readRoots : List (List Path) := [homeComponents, [ascii "applications"], [ascii "libraries"]]

def Confined (roots : List (List Path)) (path : Path) : Prop := ∃ root ∈ roots, root <+: resolve path

/-- A path below `/applications` or `/libraries` with its way from there. -/
def BelowShared (path : Path) (way : List Path) : Prop :=
  ∃ root ∈ [applications, libraries], ∃ rest, path = root ++ byte '/' :: rest ∧ way = pieces rest

/-- Counted over the components, the path leaves `/` for the last time by `applications`, by `libraries`, or by `home`,
and then leaves `/home` for the last time by `$USER`. -/
def ComesBack (path : Path) : Prop :=
  entered 0 0 none (pieces path) = some (ascii "applications") ∨
    entered 0 0 none (pieces path) = some (ascii "libraries") ∨
    entered 0 0 none (pieces path) = some (ascii "home") ∧ entered 1 0 none (pieces path) = some (ascii "$USER")
  deriving Decidable

theorem confined_iff_comesBack : Confined readRoots path ↔ ComesBack path := by
  have hone (name : Path) : [name] <+: resolve path ↔ (resolve path)[0]? = some name := by
    cases resolve path <;> simp [eq_comm]
  have htwo (top name : Path) : [top, name] <+: resolve path ↔
      (resolve path)[0]? = some top ∧ (resolve path)[1]? = some name := by
    rcases resolve path with _ | ⟨_, _ | ⟨_, _⟩⟩ <;> simp [eq_comm (a := top), eq_comm (a := name)]
  simp only [Confined, readRoots, homeComponents, ComesBack, ← getElem?_resolve, mem_cons, not_mem_nil, or_false,
    exists_eq_or_imp, exists_eq_left, hone, htwo]
  exact or_rotate

theorem home_of_portal (h : isValidLinuxPortalPath path true = true) : homeComponents <+: resolve path := by
  simp only [isValidLinuxPortalPath, Bool.not_true, Bool.false_and, Bool.or_false, Bool.or_eq_true, beq_iff_eq,
    Option.any_eq_true, Bool.and_eq_true, properPieces_iff] at h
  rcases h with rfl | ⟨suffix, hsuffix, -, hproper⟩
  · exact ⟨[], by decide⟩
  · rw [strip_eq_some.mp hsuffix, append_assoc, singleton_append, resolve, pieces_append, foldl_append,
      foldl_walk_proper hproper]
    exact ⟨pieces suffix, rfl⟩

theorem portal_read_cases (h : isValidLinuxPortalPath path false = true) :
    isValidLinuxPortalPath path true = true ∨ path = applications ∨ path = libraries ∨ ∃ way, BelowShared path way := by
  have hbelow : ∀ root ∈ [applications, libraries], startsWith (root ++ [byte '/']) path = true →
      ∃ way, BelowShared path way := by
    intro root hroot hfront
    obtain ⟨rest, hrest⟩ := startsWith_iff.mp hfront
    rw [append_assoc, singleton_append] at hrest
    exact ⟨pieces rest, root, hroot, rest, hrest, rfl⟩
  simp only [isValidLinuxPortalPath, Bool.not_false, Bool.true_and, Bool.or_eq_true] at h
  rcases h with h | ((h | h) | h) | h
  · refine .inl ?_
    simpa only [isValidLinuxPortalPath, Bool.not_true, Bool.false_and, Bool.or_false, Bool.or_eq_true] using h
  · exact .inr (.inl (beq_iff_eq.mp h))
  · exact .inr (.inr (.inr (hbelow applications (by simp) h)))
  · exact .inr (.inr (.inl (beq_iff_eq.mp h)))
  · exact .inr (.inr (.inr (hbelow libraries (by simp) h)))

theorem confined_of_not_climbs {way : List Path} (h : BelowShared path way) (hway : climbs 1 way = false) :
    Confined readRoots path := by
  obtain ⟨root, hroot, rest, rfl, rfl⟩ := h
  have hstart : ∃ top, [top] ∈ readRoots ∧ (pieces root).foldl walk [] = [top] := by
    simp only [mem_cons, not_mem_nil, or_false] at hroot
    rcases hroot with rfl | rfl
    · exact ⟨ascii "applications", by decide, by decide⟩
    · exact ⟨ascii "libraries", by decide, by decide⟩
  obtain ⟨top, htop, hwalk⟩ := hstart
  refine ⟨[top], htop, ?_⟩
  rw [resolve, pieces_append, foldl_append, hwalk]
  exact head_of_not_climbs hway

/-- **Portal paths.** What may be written resolves into the home directory. What may be read resolves into the three
roots exactly when the entries that climb out of `/applications` or `/libraries` come back by a root's name. -/
theorem portal_paths_confined (m m' : Manifest) (legacyEntry : Option Path) (legacyRequires : List (List UInt8))
    (linux : LinuxApplication) (h : m.validate legacyEntry legacyRequires = some m') (hlinux : m'.linux = some linux) :
    (∀ path ∈ linux.portalWritePaths, Confined [homeComponents] path) ∧
    ((∀ path ∈ linux.portalReadPaths, Confined readRoots path) ↔
      ∀ path ∈ linux.portalReadPaths, ∀ way, BelowShared path way → climbs 1 way = true → ComesBack path) ∧
    ((∀ path ∈ linux.portalReadPaths, ∀ way, BelowShared path way → dotDot ∉ way) →
      ∀ path ∈ linux.portalReadPaths, Confined readRoots path) := by
  have hvalid := Manifest.validLinux_of_validate h hlinux
  simp only [Manifest.validLinux, Bool.and_eq_true, all_eq_true] at hvalid
  obtain ⟨⟨⟨⟨⟨-, -⟩, -⟩, hread⟩, hwrite⟩, -⟩ := hvalid
  have hiff : (∀ path ∈ linux.portalReadPaths, ∀ way, BelowShared path way → climbs 1 way = true →
      ComesBack path) → ∀ path ∈ linux.portalReadPaths, Confined readRoots path := by
    intro hclimb path hmem
    rcases portal_read_cases (hread path hmem) with hhome | rfl | rfl | ⟨way, hway⟩
    · exact ⟨homeComponents, by decide, home_of_portal hhome⟩
    · exact ⟨[ascii "applications"], by decide, [], by decide⟩
    · exact ⟨[ascii "libraries"], by decide, [], by decide⟩
    · cases hc : climbs 1 way with
      | true => exact confined_iff_comesBack.mpr (hclimb path hmem way hway hc)
      | false => exact confined_of_not_climbs hway hc
  refine ⟨fun path hmem => ?_, ⟨fun hall path hmem _ _ _ => ?_, hiff⟩, fun hdots => ?_⟩
  · exact ⟨homeComponents, mem_singleton_self _, home_of_portal (hwrite path hmem)⟩
  · exact confined_iff_comesBack.mp (hall path hmem)
  · refine hiff fun path hmem way hway hc => ?_
    rw [climbs_eq_false_of_no_dotDot (hdots path hmem way hway)] at hc
    cases hc

/-! ## Manifests -/

namespace Fixture

def manifest (writable reads : List Path) : Manifest where
  packageId := ascii "org.example.editor"
  packageName := ascii "Editor"
  packageVersion := ascii "1.0"
  packageKind := some (ascii "application")
  packageAbi := some (ascii "mboot-linux-1")
  files := [{ id := ascii "rootfs", path := ascii "rootfs.img", digest := ascii "00", mode := 0o644 }]
  libraryDependencies := []
  binaries := []
  application := some { entry := ascii "linux:org.example.editor", icon := [], resources := [] }
  linux := some {
    entrypoint := ascii "/usr/bin/editor"
    rootfsFile := ascii "rootfs"
    writablePaths := writable
    portalReadPaths := reads
    portalWritePaths := [ascii "/home/$USER/Documents"]
    network := none }

theorem writable_paths_isolated_fixture :
    components (ascii "/usr/local/editor") = [ascii "usr", ascii "local", ascii "editor"] ∧
      ∀ dir ∈ protectedDirectories, ¬ components dir <+: components (ascii "/usr/local/editor") := by
  refine ⟨by decide, fun dir hdir => ?_⟩
  have hvalid : (manifest [ascii "/usr/local/editor", ascii "/usr/local/editor-cache"] []).validate none [] =
      some (manifest [ascii "/usr/local/editor", ascii "/usr/local/editor-cache"] []) := by
    decide
  obtain ⟨-, hpaths⟩ := writable_paths_isolated _ _ _ _ _ hvalid rfl
  exact ((hpaths _ mem_cons_self).2 dir hdir).1

theorem portal_paths_confined_fixture : Confined [homeComponents] (ascii "/home/$USER/Documents") ∧
    Confined readRoots (ascii "/applications/../home/./x/../$USER/fonts") := by
  have hvalid : (manifest [] [ascii "/applications/../home/./x/../$USER/fonts"]).validate none [] =
      some (manifest [] [ascii "/applications/../home/./x/../$USER/fonts"]) := by
    decide
  obtain ⟨hwrite, hread, -⟩ := portal_paths_confined _ _ _ _ _ hvalid rfl
  refine ⟨hwrite _ mem_cons_self, ?_⟩
  refine hread.mpr (fun path hmem way hway hc => ?_) _ mem_cons_self
  rw [mem_singleton.mp hmem]
  decide

/-- The text begins with `/applications/`, and the path is `/etc`. -/
theorem portal_escapes :
    (manifest [] [ascii "/applications/../etc"]).validate none [] = some (manifest [] [ascii "/applications/../etc"]) ∧
      resolve (ascii "/applications/../etc") = [ascii "etc"] ∧
      ¬ Confined readRoots (ascii "/applications/../etc") := by
  refine ⟨by decide, by decide, ?_⟩
  rintro ⟨root, hroot, hle⟩
  revert root
  decide

end Fixture

end MochiSyscalls.PackageManifest
