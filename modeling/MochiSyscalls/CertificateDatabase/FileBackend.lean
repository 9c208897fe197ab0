import MochiSyscalls.CertificateDatabase.Storage

/-! # Loading the certificate database from files

`FileBackend` (`crates/certificate-database/src/std_file.rs`), with input and output that succeed. It
refuses to read a file that is larger than its limit, and a load passes this refusal on instead of
taking the file for an unusable one. -/

namespace MochiSyscalls.CertificateDatabase
open Foundations Words Bytes Effects Outcome Eff
set_option autoImplicit false

def maxSnapshotFileBytes : ℕ := 4 * 1024 * 1024

namespace FileBackend

def limit : StoragePath → ℕ
  | .state => stateLen
  | _ => maxSnapshotFileBytes

def read (path : StoragePath) : Eff Files StorageError (Option (List UInt8)) := fun files =>
  match files path with
  | none => (.value none, files)
  | some contents =>
    let bytes := contents.take (limit path + 1)
    if bytes.length > limit path then (.failed .invalidSnapshot, files) else (.value (some bytes), files)

def writeSync (path : StoragePath) (bytes : List UInt8) : Eff Files StorageError Unit := fun files =>
  if bytes.length > limit path ∨ (path = .state ∧ bytes.length ≠ stateLen) then (.failed .invalidSnapshot, files)
  else (.value (), Function.update files path (some bytes))

end FileBackend

def fileBackend : StorageBackend Files := { read := FileBackend.read, writeSync := FileBackend.writeSync }

namespace FileBackend

def Fits (files : Files) (path : StoragePath) : Prop := ∀ bytes, files path = some bytes → bytes.length ≤ limit path

variable {path : StoragePath}

theorem read_of_fits {files : Files} (h : Fits files path) : read path files = (.value (files path), files) := by
  unfold read
  cases hf : files path with
  | none => rfl
  | some contents =>
    have hlen := h contents hf
    dsimp only
    rw [List.take_of_length_le (by omega), if_neg (by omega)]

theorem fits_of_read {files : Files} {contents : Option (List UInt8)}
    (h : (read path files).1 = .value contents) : Fits files path := by
  intro bytes hf
  unfold read at h
  rw [hf] at h
  dsimp only at h
  by_contra hlen
  rw [if_pos (by rw [List.length_take]; omega)] at h
  cases h

theorem reads_of_fits {files : Files} (h : Fits files path) :
    Reads fileBackend files (fun b => b = files) False path := by
  rintro b rfl
  unfold after
  rw [show fileBackend.read path b = _ from read_of_fits h]
  exact ⟨rfl, .inl rfl⟩

theorem reads_or_fails (files : Files) (path : StoragePath) :
    Reads fileBackend files (fun b => b = files) True path := by
  rintro b rfl
  unfold after
  by_cases hfits : Fits b path
  · rw [show fileBackend.read path b = _ from read_of_fits hfits]
    exact ⟨rfl, .inl rfl⟩
  · show (read path b).2 = b ∧ Answers True (b path) (read path b).1
    cases hr : (read path b).1 with
    | value contents => exact absurd (fits_of_read hr) hfits
    | failed e =>
      refine ⟨?_, .inr ⟨trivial, e, rfl⟩⟩
      unfold read
      split
      · rfl
      · dsimp only
        split <;> rfl
    | panicked =>
      unfold read at hr
      split at hr
      · cases hr
      · dsimp only at hr
        split at hr <;> cases hr

theorem writeState_succeeds (sha : Sha256) (s : DatabaseState) (files : Files) :
    (writeState sha fileBackend s files).1 = .value () := by
  have hlen : (s.encode sha).length = 392 := s.encode_length sha
  have hno : ¬ ((s.encode sha).length > limit .state ∨
      (StoragePath.state = .state ∧ (s.encode sha).length ≠ stateLen)) := by
    rw [hlen]
    decide
  show (writeSync .state (s.encode sha) files).1 = _
  unfold writeSync
  rw [if_neg hno]

end FileBackend

open FileBackend

section

variable {ν φ : Type} {validator : SnapshotValidator ν} {phase : ν → φ}
  {verdict : φ → Verdict} {advance : φ → SnapshotKind → List UInt8 → φ} {files : Files} {sha : Sha256} {p : φ}

/-- What a load needs of the files it reads: their limits, no panic of the decoder, and a generation that a repair can
raise. -/
structure Loadable (sha : Sha256) (verdict : Verdict) (files : Files) (stored : Option DatabaseState) : Prop where
  state : Fits files .state
  decodes : storedState sha (files .state) = .value stored
  first : ∀ kind, Fits files (slotPath kind (firstSlot stored kind))
  second : ∀ kind, describes stored kind (candidateAt verdict files kind (firstSlot stored kind)) = false →
    Fits files (slotPath kind (firstSlot stored kind).inactive)
  generation : (applySelected stored (chosen verdict files stored .trust) (chosen verdict files stored .revocations)).2 =
    true → (stored.getD .default).generation ≠ u64Max

variable {stored : Option DatabaseState}

theorem loadReads_of_fits {v : Verdict}
    (hstate : Fits files .state) (hfirst : ∀ kind, Fits files (slotPath kind (firstSlot stored kind)))
    (hsecond : ∀ kind, describes stored kind (candidateAt v files kind (firstSlot stored kind)) = false →
      Fits files (slotPath kind (firstSlot stored kind).inactive)) :
    LoadReads fileBackend v files (fun b => b = files) False stored :=
  ⟨reads_of_fits hstate, fun kind => reads_of_fits (hfirst kind), fun kind hd => reads_of_fits (hsecond kind hd)⟩

theorem load_of_reads (sha : Sha256) (hv : Phased validator phase verdict advance) {n : ν}
    (hdecodes : storedState sha (files .state) = .value stored)
    (hreads : LoadReads fileBackend (loadVerdict verdict advance (phase n) files stored) files (fun b => b = files) False
      stored) :
    let v := loadVerdict verdict advance (phase n) files stored
    let selected := applySelected stored (chosen v files stored .trust) (chosen v files stored .revocations)
    Eff.after (loadDatabase sha fileBackend validator) (fun r _ =>
      (selected.2 = true ∧ selected.1.generation = u64Max ∧ r = .failed .generationOverflow) ∨
      (¬ (selected.2 = true ∧ selected.1.generation = u64Max) ∧ ∃ loaded, r = .value loaded ∧
        ∀ kind, loaded.snapshot kind = (chosen v files stored kind).map Candidate.bytes)) (files, n) := by
  intro v selected
  unfold loadDatabase loadDatabaseInner
  refine after_bind_of_answers (readSnapshots_spec hv hdecodes hreads ⟨rfl, rfl⟩) (fun w hw => ?_)
    fun _ _ _ => False.elim
  rw [after_bind, after_onFst]
  refine repairLoaded_spec ?_ ?_ ?_
  · intro hr
    refine .inr ⟨fun hc => ?_, _, rfl, fun kind => by cases kind <;> rfl⟩
    exact Bool.false_ne_true (hr.symm.trans hc.1)
  · exact fun hr hg => .inl ⟨hr, hg, rfl⟩
  · intro hr hg
    unfold after
    rw [writeState_succeeds]
    exact .inr ⟨fun hc => hg hc.2, _, rfl, fun kind => by cases kind <;> rfl⟩

/-! ## What a load that returns has read -/

variable {c : Option Candidate} {w : Files × ν}

theorem loadCandidate_value {kind : SnapshotKind} {slot : Slot} (hw : w.1 = files)
    (h : (loadCandidate fileBackend validator kind slot w).1 = .value c) : Fits files (slotPath kind slot) := by
  obtain ⟨contents, hread, _⟩ := bind_value h
  rw [← hw]
  exact fits_of_read hread

/-- The reads of one kind that a load makes are within their limits. -/
def KindFits (v : Verdict) (files : Files) (stored : Option DatabaseState) (kind : SnapshotKind) : Prop :=
  Fits files (slotPath kind (firstSlot stored kind)) ∧
    (describes stored kind (candidateAt v files kind (firstSlot stored kind)) = false →
      Fits files (slotPath kind (firstSlot stored kind).inactive))

section

variable (hv : Phased validator phase verdict advance) {kind : SnapshotKind}
  (hw : w.1 = files ∧ phase w.2 = p)
  (h : (loadKind fileBackend validator kind stored w).1 = .value c)
include hv hw h

theorem loadKind_value : KindFits (verdict p) files stored kind := by
  obtain ⟨first, hfirst, h⟩ := bind_value h
  have hfits := loadCandidate_value hw.1 hfirst
  refine ⟨hfits, fun hd => ?_⟩
  obtain ⟨hworld, hanswer | ⟨hno, _⟩⟩ := loadCandidate_spec hv (reads_of_fits hfits) hw
  · cases hfirst.symm.trans hanswer
    rw [if_neg (by rw [hd]; exact Bool.false_ne_true)] at h
    obtain ⟨second, hsecond, _⟩ := bind_value h
    exact loadCandidate_value hworld.1 hsecond
  · exact hno.elim

theorem loadKind_selects :
    ((loadKind fileBackend validator kind stored w).2.1 = files ∧
      phase (loadKind fileBackend validator kind stored w).2.2 = p) ∧ c = chosen (verdict p) files stored kind := by
  obtain ⟨hworld, hanswer | ⟨_, e, hfailed⟩⟩ :=
    loadKind_spec hv (reads_or_fails files _) (fun _ => reads_or_fails files _) hw
  · exact ⟨hworld, value.inj (h.symm.trans hanswer)⟩
  · rw [h] at hfailed
    cases hfailed

end

theorem readSnapshots_value (hv : Phased validator phase verdict advance) {n : ν}
    {selected : Option DatabaseState × Option Candidate × Option Candidate}
    (h : (readSnapshots sha fileBackend validator (files, n)).1 = .value selected) :
    ∃ stored, Fits files .state ∧ storedState sha (files .state) = .value stored ∧
      ∀ kind, KindFits (loadVerdict verdict advance (phase n) files stored) files stored kind := by
  unfold readSnapshots at h
  obtain ⟨contents, hread, h⟩ := bind_value h
  have hstate : Fits files .state := fits_of_read hread
  obtain ⟨stored, hstored, h⟩ := bind_value h
  obtain ⟨trust, htrust, h⟩ := bind_value h
  obtain ⟨_, _, h⟩ := bind_value h
  obtain ⟨revocations, hrevocations, _⟩ := bind_value h
  have hworld : (onFst (fileBackend.read .state) (files, n)).2.1 = files ∧
      phase (onFst (fileBackend.read .state) (files, n)).2.2 = phase n :=
    ⟨((reads_or_fails files .state) files rfl).1, rfl⟩
  have hcontents : contents = files .state := by
    have hvalue := congrArg Prod.fst (read_of_fits hstate)
    exact value.inj (hread.symm.trans hvalue)
  obtain ⟨hworld', rfl⟩ := loadKind_selects hv hworld htrust
  have hactive : (activateLoaded validator .trust (chosen (verdict (phase n)) files stored .trust) _).2.1 = files ∧
      phase (activateLoaded validator .trust (chosen (verdict (phase n)) files stored .trust) _).2.2 = _ :=
    (activateLoaded_spec (I := fun b => b = files) hv hworld' False).1
  refine ⟨stored, hstate, hcontents ▸ hstored, fun kind => ?_⟩
  cases kind with
  | trust => exact loadKind_value hv hworld htrust
  | revocations => exact loadKind_value hv hactive hrevocations

/-- **When a load from files returns**: exactly on loadable files, and then a kind with a valid slot has a valid
snapshot. -/
theorem load_returns_iff (hv : Phased validator phase verdict advance) (files : Files) (n : ν) :
    ((∃ loaded, (loadDatabase sha fileBackend validator (files, n)).1 = .value loaded) ↔
      ∃ stored, Loadable sha (loadVerdict verdict advance (phase n) files stored) files stored) ∧
    ∀ loaded, (loadDatabase sha fileBackend validator (files, n)).1 = .value loaded →
      ∃ stored, storedState sha (files .state) = .value stored ∧
        ∀ kind slot, (candidateAt (loadVerdict verdict advance (phase n) files stored) files kind slot).isSome →
          ∃ bytes, loaded.snapshot kind = some bytes ∧
            (loadVerdict verdict advance (phase n) files stored kind bytes).isSome := by
  have hload : ∀ stored, Fits files .state → storedState sha (files .state) = .value stored →
      (∀ kind, KindFits (loadVerdict verdict advance (phase n) files stored) files stored kind) → _ :=
    fun stored hstate hdecodes hslots => load_of_reads sha hv hdecodes
      (loadReads_of_fits hstate (fun kind => (hslots kind).1) fun kind => (hslots kind).2)
  have hread : ∀ loaded, (loadDatabase sha fileBackend validator (files, n)).1 = .value loaded → _ :=
    fun loaded h => readSnapshots_value hv (bind_value h).choose_spec.1
  refine ⟨⟨?_, ?_⟩, ?_⟩
  · rintro ⟨loaded, h⟩
    obtain ⟨stored, hstate, hdecodes, hslots⟩ := hread loaded h
    refine ⟨stored, hstate, hdecodes, fun kind => (hslots kind).1, fun kind => (hslots kind).2, ?_⟩
    intro hrecovered hgeneration
    obtain ⟨_, _, hfailed⟩ | ⟨hno, _⟩ := hload stored hstate hdecodes hslots
    · rw [h] at hfailed
      cases hfailed
    · exact hno ⟨hrecovered, (applySelected_generation ..).trans hgeneration⟩
  · rintro ⟨stored, hl⟩
    obtain ⟨hr, hg, _⟩ | ⟨_, loaded, h, _⟩ :=
      hload stored hl.state hl.decodes fun kind => ⟨hl.first kind, hl.second kind⟩
    · exact absurd ((applySelected_generation ..).symm.trans hg) (hl.generation hr)
    · exact ⟨loaded, h⟩
  · intro loaded h
    obtain ⟨stored, hstate, hdecodes, hslots⟩ := hread loaded h
    refine ⟨stored, hdecodes, fun kind slot hslot => ?_⟩
    obtain ⟨_, _, hfailed⟩ | ⟨_, loaded', h', hsnapshot⟩ := hload stored hstate hdecodes hslots
    · rw [h] at hfailed
      cases hfailed
    · cases h.symm.trans h'
      obtain ⟨c, hc⟩ := Option.isSome_iff_exists.mp (chosen_isSome hslot stored)
      refine ⟨c.bytes, by rw [hsnapshot, hc]; rfl, ?_⟩
      rw [verdict_of_chosen hc]
      rfl

end

namespace StorageFixture

def longState : Files
  | .state => some (zeros 393)
  | .trustA => some [1, 0]
  | _ => none

theorem long_state_fails : (candidateAt verdict longState .trust .a).isSome ∧
    (loadDatabase sha fileBackend (plainValidator verdict) (longState, ())).1 = .failed .invalidSnapshot := by
  decide +kernel

def shortState : Files
  | .state => some (zeros 7)
  | .trustA => some [1, 0]
  | _ => none

theorem load_returns_fixture :
    ∃ loaded, (loadDatabase sha fileBackend (plainValidator verdict) (shortState, ())).1 = .value loaded := by
  refine (load_returns_iff (plainValidator_phased verdict) shortState ()).1.mpr
    ⟨none, ?_, by decide, ?_, ?_, fun _ => by decide⟩
  · intro bytes h
    cases h
    decide
  · rintro (_ | _) bytes h
    · cases h
      decide
    · cases h
  · rintro (_ | _) _ bytes h <;> cases h

end StorageFixture

end MochiSyscalls.CertificateDatabase
