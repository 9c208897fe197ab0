import MochiSyscalls.CertificateDatabase.State
import MochiSyscalls.Foundations.Words

/-! # The storage of the certificate database

`load_database`, `persist_snapshot` and `mark_checked` (`crates/certificate-database/src/storage.rs`)
over any backend and any validator. Each kind of snapshot has two slots; a new snapshot goes to the
slot that is not active, and the state file, which names the active slots, is written last.

For a validator whose verdicts depend on the snapshot and a phase, what a load selects is a function of the
files: the slot that the state names, when it holds the snapshot that the state describes, and the
newest valid slot otherwise. -/

namespace MochiSyscalls.CertificateDatabase
open Foundations Words Bytes Effects Outcome Eff
set_option autoImplicit false

inductive SnapshotKind where
  | trust | revocations
  deriving DecidableEq, Repr

/-- The five files under `DATABASE_DIRECTORY`. -/
inductive StoragePath where
  | state | trustA | trustB | revocationsA | revocationsB
  deriving DecidableEq, Repr

structure ValidatedSnapshot where
  snapshotVersion : UInt64
  generatedAt : UInt64
  expiresAt : UInt64
  deriving DecidableEq, Repr

/-- What a validator finds in the bytes of a snapshot. -/
abbrev Verdict : Type := SnapshotKind → List UInt8 → Option ValidatedSnapshot

inductive StorageError where
  | backend | invalidSnapshot | snapshotRollback | writeBackMismatch | stateEncoding | generationOverflow
  deriving DecidableEq, Repr

structure StorageBackend (β : Type) where
  read : StoragePath → Eff β StorageError (Option (List UInt8))
  writeSync : StoragePath → List UInt8 → Eff β StorageError Unit

structure SnapshotValidator (ν : Type) where
  validate : SnapshotKind → List UInt8 → Eff ν StorageError ValidatedSnapshot
  activate : SnapshotKind → List UInt8 → Eff ν StorageError Unit

structure LoadedDatabase where
  state : DatabaseState
  trust : Option (List UInt8)
  revocations : Option (List UInt8)
  recovered : Bool
  deriving DecidableEq

def LoadedDatabase.snapshot (loaded : LoadedDatabase) : SnapshotKind → Option (List UInt8)
  | .trust => loaded.trust
  | .revocations => loaded.revocations

structure Candidate where
  slot : Slot
  metadata : ValidatedSnapshot
  bytes : List UInt8
  deriving DecidableEq

/-! ## State and slots -/

def slotPath : SnapshotKind → Slot → StoragePath
  | .trust, .a => .trustA
  | .trust, .b => .trustB
  | .revocations, .a => .revocationsA
  | .revocations, .b => .revocationsB

namespace DatabaseState

def activeSlot (s : DatabaseState) : SnapshotKind → Slot
  | .trust => s.activeTrustSlot
  | .revocations => s.activeRevocationSlot

def metadata (s : DatabaseState) : SnapshotKind → SnapshotMetadata
  | .trust => s.trust
  | .revocations => s.revocations

/-- The writes through `active_slot_mut` and `metadata_mut`. -/
def update (s : DatabaseState) (kind : SnapshotKind) (slot : Slot) (m : SnapshotMetadata) : DatabaseState :=
  match kind with
  | .trust => { s with activeTrustSlot := slot, trust := m }
  | .revocations => { s with activeRevocationSlot := slot, revocations := m }

end DatabaseState

def metadataMatches (stored : SnapshotMetadata) (validated : ValidatedSnapshot) : Bool :=
  stored.snapshotVersion == validated.snapshotVersion && stored.generatedAt == validated.generatedAt &&
    stored.expiresAt == validated.expiresAt

def ValidatedSnapshot.newer (second first : ValidatedSnapshot) : Prop :=
  first.snapshotVersion < second.snapshotVersion ∨
    (first.snapshotVersion = second.snapshotVersion ∧ first.generatedAt < second.generatedAt)
  deriving Decidable

def newest : Option Candidate → Option Candidate → Option Candidate
  | some first, some second => if second.metadata.newer first.metadata then some second else some first
  | some candidate, none => some candidate
  | none, some candidate => some candidate
  | none, none => none

/-- The metadata of a candidate, with what the state knows of the same snapshot. -/
def loadedMetadata (old : SnapshotMetadata) (candidate : Candidate) : SnapshotMetadata :=
  let same := metadataMatches old candidate.metadata
  { snapshotVersion := candidate.metadata.snapshotVersion, generatedAt := candidate.metadata.generatedAt,
    expiresAt := candidate.metadata.expiresAt, lastCheckedAt := if same then old.lastCheckedAt else 0,
    etag := if same then old.etag else .none }

def applyLoaded (s : DatabaseState) (kind : SnapshotKind) (candidate : Option Candidate) : DatabaseState × Bool :=
  let (slot, next) := match candidate with
    | some candidate => (candidate.slot, loadedMetadata (s.metadata kind) candidate)
    | none => (.a, .default)
  (s.update kind slot next, decide (s.activeSlot kind ≠ slot) || decide (s.metadata kind ≠ next))

/-! ## Operations -/

section Operations

variable {β ν : Type} (sha : Sha256) (backend : StorageBackend β) (validator : SnapshotValidator ν)

def writeState (s : DatabaseState) : Eff β StorageError Unit := backend.writeSync .state (s.encode sha)

/-- The state of the state file; one that does not decode counts as absent. -/
def storedState : Option (List UInt8) → Outcome StorageError (Option DatabaseState)
  | none => .value none
  | some bytes => (DatabaseState.decode sha bytes).toOption

variable (kind : SnapshotKind)

def loadCandidate (slot : Slot) : Eff (β × ν) StorageError (Option Candidate) := do
  match ← Eff.onFst (backend.read (slotPath kind slot)) with
  | none => return none
  | some bytes =>
    let metadata ← Eff.onSnd (validator.validate kind bytes).toOption
    return metadata.map fun metadata => { slot, metadata, bytes }

variable (state : Option DatabaseState)

def describes (kind : SnapshotKind) (candidate : Option Candidate) : Bool :=
  state.any fun s => candidate.any fun c => metadataMatches (s.metadata kind) c.metadata

def firstSlot (kind : SnapshotKind) : Slot :=
  (state.map fun s => s.activeSlot kind).getD .a

def loadKind : Eff (β × ν) StorageError (Option Candidate) := do
  let first ← loadCandidate backend validator kind (firstSlot state kind)
  if describes state kind first then return first
  let second ← loadCandidate backend validator kind (firstSlot state kind).inactive
  return newest first second

def activateLoaded : Option Candidate → Eff (β × ν) StorageError Unit
  | none => return ()
  | some candidate => Eff.onSnd (validator.activate kind candidate.bytes)

/-- The first half of a load: the stored state and the selected snapshots. -/
def readSnapshots : Eff (β × ν) StorageError (Option DatabaseState × Option Candidate × Option Candidate) := do
  let bytes ← Eff.onFst (backend.read .state)
  let stored ← Eff.lift (storedState sha bytes)
  let trust ← loadKind backend validator .trust stored
  activateLoaded validator .trust trust
  let revocations ← loadKind backend validator .revocations stored
  activateLoaded validator .revocations revocations
  return (stored, trust, revocations)

/-- What a load makes of the stored state and the selected snapshots, and whether this is a
recovery. -/
def applySelected (stored : Option DatabaseState) (trust revocations : Option Candidate) : DatabaseState × Bool :=
  let (state, trustChanged) := applyLoaded (stored.getD .default) .trust trust
  let (state, revocationsChanged) := applyLoaded state .revocations revocations
  (state, stored.isNone || trustChanged || revocationsChanged)

/-- The second half of a load: the repair of the state file. -/
def repairLoaded (repairState : Bool) (state : DatabaseState) (recovered : Bool) : Eff β StorageError DatabaseState :=
  if recovered && repairState then do
    Eff.lift (reject (state.generation = u64Max) .generationOverflow)
    let state := { state with generation := state.generation + 1 }
    writeState sha backend state
    return state
  else return state

def loadDatabaseInner (repairState : Bool) : Eff (β × ν) StorageError LoadedDatabase := do
  let (stored, trust, revocations) ← readSnapshots sha backend validator
  let (state, recovered) := applySelected stored trust revocations
  let state ← Eff.onFst (repairLoaded sha backend repairState state recovered)
  return { state, trust := trust.map Candidate.bytes, revocations := revocations.map Candidate.bytes, recovered }

def loadDatabase : Eff (β × ν) StorageError LoadedDatabase := loadDatabaseInner sha backend validator true

def loadDatabaseReadOnly : Eff (β × ν) StorageError LoadedDatabase := loadDatabaseInner sha backend validator false

def DatabaseState.persisted (s : DatabaseState) (kind : SnapshotKind) (validated : ValidatedSnapshot) (etag : Etag)
    (lastCheckedAt : UInt64) : DatabaseState :=
  { s with generation := s.generation + 1 }.update kind (s.activeSlot kind).inactive
    { snapshotVersion := validated.snapshotVersion, generatedAt := validated.generatedAt,
      expiresAt := validated.expiresAt, lastCheckedAt, etag }

def DatabaseState.rollsBack (s : DatabaseState) (kind : SnapshotKind) (validated : ValidatedSnapshot) : Prop :=
  (s.metadata kind).snapshotVersion ≠ 0 ∧ validated.snapshotVersion ≤ (s.metadata kind).snapshotVersion

instance (s : DatabaseState) (kind : SnapshotKind) (validated : ValidatedSnapshot) :
    Decidable (s.rollsBack kind validated) := inferInstanceAs (Decidable (_ ∧ _))

def persistSnapshot (bytes : List UInt8) (etag : Etag) (lastCheckedAt : UInt64) :
    Eff ((β × ν) × DatabaseState) StorageError Slot := do
  let state := (← Eff.get).2
  let validated ← Eff.onFst (Eff.onSnd (validator.validate kind bytes))
  Eff.lift (reject (state.rollsBack kind validated) .snapshotRollback)
  let target := (state.activeSlot kind).inactive
  Eff.onFst (Eff.onFst (backend.writeSync (slotPath kind target) bytes))
  let written ← Eff.onFst (Eff.onFst (backend.read (slotPath kind target)))
  Eff.lift (reject (written ≠ some bytes) .writeBackMismatch)
  let writtenMetadata ← Eff.onFst (Eff.onSnd (validator.validate kind bytes))
  Eff.lift (reject (writtenMetadata ≠ validated) .writeBackMismatch)
  Eff.lift (reject (state.generation = u64Max) .generationOverflow)
  let next := state.persisted kind validated etag lastCheckedAt
  Eff.onFst (Eff.onFst (writeState sha backend next))
  Eff.onSnd (Eff.set next)
  return target

def DatabaseState.checked (s : DatabaseState) (kind : SnapshotKind) (lastCheckedAt : UInt64) : DatabaseState :=
  { s with generation := s.generation + 1 }.update kind (s.activeSlot kind) { s.metadata kind with lastCheckedAt }

def markChecked (lastCheckedAt : UInt64) : Eff (β × DatabaseState) StorageError Unit := do
  let state := (← Eff.get).2
  Eff.lift (reject ((state.metadata kind).snapshotVersion = 0) .invalidSnapshot)
  Eff.lift (reject (state.generation = u64Max) .generationOverflow)
  let next := state.checked kind lastCheckedAt
  Eff.onFst (writeState sha backend next)
  Eff.onSnd (Eff.set next)

/-- A persist or a check that fails leaves the caller's state as it was, on any backend. -/
theorem persistSnapshot_kept (bytes : List UInt8) (etag : Etag) (lastCheckedAt : UInt64) (w : (β × ν) × DatabaseState) :
    Eff.after (persistSnapshot sha backend validator kind bytes etag lastCheckedAt)
      (fun r w' => r.isValue = false → w'.2 = w.2) w := by
  have hw : w.2 = w.2 := rfl
  unfold persistSnapshot
  repeat refine after_bind_kept (by assumption) fun _ _ _ => ?_
  rintro ⟨⟩

theorem markChecked_kept (lastCheckedAt : UInt64) (w : β × DatabaseState) :
    Eff.after (markChecked sha backend kind lastCheckedAt) (fun r w' => r.isValue = false → w'.2 = w.2) w := by
  have hw : w.2 = w.2 := rfl
  unfold markChecked
  repeat refine after_bind_kept (by assumption) fun _ _ _ => ?_
  rintro ⟨⟩

end Operations

theorem storedState_encode (sha : Sha256) (s : DatabaseState) :
    storedState sha (some (s.encode sha)) = .value (some s) := by
  unfold storedState
  dsimp only
  rw [DatabaseState.decode_encode]
  rfl

theorem applyLoaded_generation (s : DatabaseState) (kind : SnapshotKind) (candidate : Option Candidate) :
    (applyLoaded s kind candidate).1.generation = s.generation := by
  unfold applyLoaded DatabaseState.update
  cases kind <;> rfl

theorem applySelected_generation (stored : Option DatabaseState) (trust revocations : Option Candidate) :
    (applySelected stored trust revocations).1.generation = (stored.getD .default).generation := by
  unfold applySelected
  dsimp only
  rw [applyLoaded_generation, applyLoaded_generation]

theorem applyLoaded_of_unchanged {s : DatabaseState} {kind : SnapshotKind} {candidate : Option Candidate}
    (h : (applyLoaded s kind candidate).2 = false) : (applyLoaded s kind candidate).1 = s := by
  unfold applyLoaded at h ⊢
  dsimp only at h ⊢
  simp only [Bool.or_eq_false_iff, decide_eq_false_iff_not, not_not] at h
  rw [← h.1, ← h.2]
  unfold DatabaseState.update DatabaseState.activeSlot DatabaseState.metadata
  cases kind <;> rfl

variable {stored : Option DatabaseState}

theorem applySelected_of_unchanged {trust revocations : Option Candidate}
    (h : (applySelected stored trust revocations).2 = false) :
    stored = some (applySelected stored trust revocations).1 := by
  unfold applySelected at h ⊢
  dsimp only at h ⊢
  simp only [Bool.or_eq_false_iff] at h
  rw [applyLoaded_of_unchanged h.2, applyLoaded_of_unchanged h.1.2]
  cases stored with
  | none => cases h.1.1
  | some s => rfl

theorem applySelected_kind (stored : Option DatabaseState) (selected : SnapshotKind → Option Candidate)
    (kind : SnapshotKind) :
    let s := (applySelected stored (selected .trust) (selected .revocations)).1
    (selected kind = none → s.activeSlot kind = .a ∧ s.metadata kind = .default) ∧ ∀ c, selected kind = some c →
        s.activeSlot kind = c.slot ∧ s.metadata kind = loadedMetadata ((stored.getD .default).metadata kind) c := by
  have hupdate : ∀ (s : DatabaseState) (slot : Slot) (m : SnapshotMetadata),
      (s.update kind slot m).activeSlot kind = slot ∧ (s.update kind slot m).metadata kind = m := by
    intro s slot m
    cases kind <;> exact ⟨rfl, rfl⟩
  unfold applySelected applyLoaded
  cases kind with
  | trust =>
    refine ⟨fun h => ?_, fun c h => ?_⟩
    · rw [h]
      exact hupdate (stored.getD .default) _ _
    · rw [h]
      exact hupdate (stored.getD .default) _ _
  | revocations =>
    refine ⟨fun h => ?_, fun c h => ?_⟩
    · rw [h]
      exact hupdate _ _ _
    · rw [h]
      exact hupdate _ _ _

/-! ## Selection

What a load selects, as a function of the files and of the verdicts on them. -/

def Files : Type := StoragePath → Option (List UInt8)

/-- A validator whose verdicts depend on the snapshot and on a phase that only an activation moves; it activates what it
accepts. -/
structure Phased {ν φ : Type} (validator : SnapshotValidator ν) (phase : ν → φ) (verdict : φ → Verdict)
    (advance : φ → SnapshotKind → List UInt8 → φ) : Prop where
  answer : ∀ kind bytes n, ((validator.validate kind bytes).toOption n).1 = .value (verdict (phase n) kind bytes)
  stay : ∀ kind bytes n, phase (validator.validate kind bytes n).2 = phase n
  activates : ∀ {kind bytes n m}, verdict (phase n) kind bytes = some m → (validator.activate kind bytes n).1 = .value ()
  moves : ∀ kind bytes n, phase (validator.activate kind bytes n).2 = advance (phase n) kind bytes

section

variable {ν φ : Type} {validator : SnapshotValidator ν} {phase : ν → φ} {verdict : φ → Verdict}
  {advance : φ → SnapshotKind → List UInt8 → φ} (hv : Phased validator phase verdict advance) {kind : SnapshotKind}
  {bytes : List UInt8} {n : ν}
include hv

theorem Phased.accepts {m : ValidatedSnapshot} (h : verdict (phase n) kind bytes = some m) :
    (validator.validate kind bytes n).1 = .value m := by
  have hanswer := hv.answer kind bytes n
  rw [h, Eff.toOption] at hanswer
  cases hr : (validator.validate kind bytes n).1 <;> rw [hr] at hanswer <;> cases hanswer
  rfl

theorem Phased.refuses (h : verdict (phase n) kind bytes = none) :
    ∃ e, (validator.validate kind bytes n).1 = .failed e := by
  have hanswer := hv.answer kind bytes n
  rw [h, Eff.toOption] at hanswer
  cases hr : (validator.validate kind bytes n).1 <;> rw [hr] at hanswer <;> cases hanswer
  exact ⟨_, rfl⟩

end

def plainValidator (verdict : Verdict) : SnapshotValidator Unit where
  validate kind bytes := Eff.lift <|
    match verdict kind bytes with
    | some m => .value m
    | none => .failed .invalidSnapshot
  activate _ _ := return ()

theorem plainValidator_phased (verdict : Verdict) :
    Phased (plainValidator verdict) (fun _ => ()) (fun _ => verdict) (fun _ _ _ => ()) where
  answer kind bytes n := by
    unfold plainValidator Eff.toOption lift
    dsimp only
    cases verdict kind bytes <;> rfl
  stay _ _ _ := rfl
  activates _ := rfl
  moves _ _ _ := rfl

section Selection

variable (verdict : Verdict)

def candidateAt (files : Files) (kind : SnapshotKind) (slot : Slot) : Option Candidate :=
  (files (slotPath kind slot)).bind fun bytes => (verdict kind bytes).map fun metadata => { slot, metadata, bytes }

def chosen (files : Files) (stored : Option DatabaseState) (kind : SnapshotKind) : Option Candidate :=
  let first := candidateAt verdict files kind (firstSlot stored kind)
  if describes stored kind first then first
  else newest first (candidateAt verdict files kind (firstSlot stored kind).inactive)

variable {verdict}

theorem candidateAt_eq_some {files : Files} {kind : SnapshotKind} {slot : Slot} {c : Candidate} :
    candidateAt verdict files kind slot = some c ↔
      c.slot = slot ∧ files (slotPath kind slot) = some c.bytes ∧ verdict kind c.bytes = some c.metadata := by
  unfold candidateAt
  constructor
  · intro h
    obtain ⟨bytes, hb, h⟩ := Option.bind_eq_some_iff.mp h
    obtain ⟨metadata, hm, rfl⟩ := Option.map_eq_some_iff.mp h
    exact ⟨rfl, hb, hm⟩
  · rintro ⟨rfl, hb, hm⟩
    rw [hb, Option.bind_some, hm]
    rfl

theorem newest_cases (first second : Option Candidate) : newest first second = first ∨ newest first second = second := by
  unfold newest
  split
  · split
    · exact .inr rfl
    · exact .inl rfl
  · exact .inl rfl
  · exact .inr rfl
  · exact .inl rfl

theorem chosen_cases (files : Files) (stored : Option DatabaseState) (kind : SnapshotKind) :
    ∃ slot, chosen verdict files stored kind = candidateAt verdict files kind slot := by
  unfold chosen
  dsimp only
  split
  · exact ⟨_, rfl⟩
  · obtain h | h := newest_cases (candidateAt verdict files kind (firstSlot stored kind))
      (candidateAt verdict files kind (firstSlot stored kind).inactive)
    · exact ⟨_, h⟩
    · exact ⟨_, h⟩

theorem chosen_isSome {files : Files} {kind : SnapshotKind} {slot : Slot}
    (h : (candidateAt verdict files kind slot).isSome) (stored : Option DatabaseState) :
    (chosen verdict files stored kind).isSome := by
  have hnewest : ∀ first second : Option Candidate, first.isSome ∨ second.isSome → (newest first second).isSome := by
    intro first second h
    cases first <;> cases second
    · simp at h
    · rfl
    · rfl
    · unfold newest
      dsimp only
      split <;> rfl
  unfold chosen
  dsimp only
  split
  next hd =>
    unfold describes at hd
    cases hc : candidateAt verdict files kind (firstSlot stored kind) with
    | some c => rfl
    | none =>
      rw [hc] at hd
      cases stored <;> cases hd
  · refine hnewest _ _ ?_
    obtain rfl | rfl := Slot.eq_or_inactive (firstSlot stored kind) slot
    · exact .inl h
    · exact .inr h

theorem verdict_of_chosen {files : Files} {kind : SnapshotKind} {c : Candidate}
    (h : chosen verdict files stored kind = some c) : verdict kind c.bytes = some c.metadata := by
  obtain ⟨slot, hslot⟩ := chosen_cases files stored kind
  exact (candidateAt_eq_some.mp (hslot.symm.trans h)).2.2

def activated {φ : Type} (advance : φ → SnapshotKind → List UInt8 → φ) (p : φ) (kind : SnapshotKind) : Option Candidate → φ
  | none => p
  | some c => advance p kind c.bytes

/-- The verdicts in a load that starts in a phase: those on revocations follow the activation of the
trust snapshot. -/
def loadVerdict {φ : Type} (verdict : φ → Verdict) (advance : φ → SnapshotKind → List UInt8 → φ) (p : φ) (files : Files)
    (stored : Option DatabaseState) : Verdict
  | .trust => verdict p .trust
  | .revocations => verdict (activated advance p .trust (chosen (verdict p) files stored .trust)) .revocations

end Selection

/-! ## The operations select what the files say -/

section Reading

variable {β ν φ : Type} {backend : StorageBackend β} {validator : SnapshotValidator ν} {phase : ν → φ}
  {verdict : φ → Verdict} {advance : φ → SnapshotKind → List UInt8 → φ}
  {files : Files} {sha : Sha256} {I : β → Prop} {mayFail : Prop} {p : φ}

/-- Reading a file keeps the invariant of the backend and answers with its contents. -/
def Reads (backend : StorageBackend β) (files : Files) (I : β → Prop) (mayFail : Prop) (path : StoragePath) : Prop :=
  ∀ b, I b → Eff.after (backend.read path) (fun r b' => I b' ∧ Answers mayFail (files path) r) b

variable {w : β × ν}

theorem reads_onFst {path : StoragePath} (hread : Reads backend files I mayFail path) (hw : I w.1 ∧ phase w.2 = p) :
    Eff.after ((backend.read path).onFst : Eff (β × ν) StorageError (Option (List UInt8)))
      (fun r w' => (I w'.1 ∧ phase w'.2 = p) ∧ Answers mayFail (files path) r) w := by
  obtain ⟨hb, hanswer⟩ := hread w.1 hw.1
  exact ⟨⟨hb, hw.2⟩, hanswer⟩

section

variable (hv : Phased validator phase verdict advance) {kind : SnapshotKind}
include hv

theorem loadCandidate_spec {slot : Slot}
    (hread : Reads backend files I mayFail (slotPath kind slot)) (hw : I w.1 ∧ phase w.2 = p) :
    Eff.after (loadCandidate backend validator kind slot)
      (fun r w' => (I w'.1 ∧ phase w'.2 = p) ∧ Answers mayFail (candidateAt (verdict p) files kind slot) r) w := by
  unfold loadCandidate candidateAt
  refine after_bind_of_answers (reads_onFst hread hw) ?_ fun w' e hw' hmay => ⟨hw', .inr ⟨hmay, e, rfl⟩⟩
  intro w' hw'
  cases files (slotPath kind slot) with
  | none => exact ⟨hw', .inl rfl⟩
  | some bytes =>
    have hval := hv.answer kind bytes w'.2
    have hstay := (hv.stay kind bytes w'.2).trans hw'.2
    rw [hw'.2] at hval
    have hanswer : after (validator.validate kind bytes).toOption.onSnd
        (fun r w => (I w.1 ∧ phase w.2 = p) ∧ Answers (ε := StorageError) False (verdict p kind bytes) r) w' :=
      ⟨⟨hw'.1, hstay⟩, .inl hval⟩
    exact after_bind_of_answers hanswer (fun w'' hw'' => ⟨hw'', .inl rfl⟩) (fun _ _ _ => False.elim)

theorem loadKind_spec
    (hfirst : Reads backend files I mayFail (slotPath kind (firstSlot stored kind)))
    (hsecond : describes stored kind (candidateAt (verdict p) files kind (firstSlot stored kind)) = false →
      Reads backend files I mayFail (slotPath kind (firstSlot stored kind).inactive)) (hw : I w.1 ∧ phase w.2 = p) :
    Eff.after (loadKind backend validator kind stored)
      (fun r w' => (I w'.1 ∧ phase w'.2 = p) ∧ Answers mayFail (chosen (verdict p) files stored kind) r) w := by
  unfold loadKind chosen
  refine after_bind_of_answers (loadCandidate_spec hv hfirst hw) ?_ fun w' e hw' hmay =>
    ⟨hw', .inr ⟨hmay, e, rfl⟩⟩
  intro w' hw'
  cases hd : describes stored kind (candidateAt (verdict p) files kind (firstSlot stored kind)) with
  | true => exact ⟨hw', .inl (if_pos hd ▸ rfl)⟩
  | false =>
    rw [if_neg Bool.false_ne_true]
    refine after_bind_of_answers (loadCandidate_spec hv (hsecond hd) hw') ?_ fun w' e hw' hmay =>
      ⟨hw', .inr ⟨hmay, e, rfl⟩⟩
    exact fun w'' hw'' => ⟨hw'', .inl (by dsimp only; rw [hd]; rfl)⟩

theorem activateLoaded_spec (hw : I w.1 ∧ phase w.2 = p) (mayFail : Prop) :
    Eff.after (activateLoaded validator kind (chosen (verdict p) files stored kind))
      (fun r w' => (I w'.1 ∧ phase w'.2 = activated advance p kind (chosen (verdict p) files stored kind)) ∧
        Answers mayFail () r) w := by
  cases hc : chosen (verdict p) files stored kind with
  | none => exact ⟨hw, .inl rfl⟩
  | some c =>
    have hverdict := verdict_of_chosen hc
    rw [← hw.2] at hverdict
    refine ⟨⟨hw.1, ?_⟩, .inl (hv.activates hverdict)⟩
    rw [activated, ← hw.2]
    exact hv.moves kind c.bytes w.2

end

/-- The reads of a load: the state file, the first slot of each kind, and the second where the first is not the one
described. -/
structure LoadReads (backend : StorageBackend β) (verdict : Verdict)
    (files : Files) (I : β → Prop) (mayFail : Prop) (stored : Option DatabaseState) : Prop where
  state : Reads backend files I mayFail .state
  first : ∀ kind, Reads backend files I mayFail (slotPath kind (firstSlot stored kind))
  second : ∀ kind, describes stored kind (candidateAt verdict files kind (firstSlot stored kind)) = false →
    Reads backend files I mayFail (slotPath kind (firstSlot stored kind).inactive)

section

variable {v v' : Verdict} {kind : SnapshotKind}
  (h : ∀ slot bytes, files (slotPath kind slot) = some bytes → v kind bytes = v' kind bytes)
include h

theorem candidateAt_congr (slot : Slot) : candidateAt v files kind slot = candidateAt v' files kind slot := by
  unfold candidateAt
  cases hf : files (slotPath kind slot) with
  | none => rfl
  | some bytes => rw [Option.bind_some, Option.bind_some, h slot bytes hf]

theorem chosen_congr (stored : Option DatabaseState) : chosen v files stored kind = chosen v' files stored kind := by
  unfold chosen
  rw [candidateAt_congr h, candidateAt_congr h]

end

theorem readSnapshots_spec (hv : Phased validator phase verdict advance)
    (hstored : storedState sha (files .state) = .value stored)
    (hreads : LoadReads backend (loadVerdict verdict advance p files stored) files I mayFail stored)
    (hw : I w.1 ∧ phase w.2 = p) :
    Eff.after (readSnapshots sha backend validator) (fun r w' => I w'.1 ∧
      Answers mayFail (stored, chosen (loadVerdict verdict advance p files stored) files stored .trust,
        chosen (loadVerdict verdict advance p files stored) files stored .revocations) r) w := by
  have hfail : ∀ (q : φ) (w' : β × ν) (e : StorageError), I w'.1 ∧ phase w'.2 = q → mayFail → I w'.1 ∧ Answers mayFail
      (stored, chosen (loadVerdict verdict advance p files stored) files stored .trust,
        chosen (loadVerdict verdict advance p files stored) files stored .revocations) (.failed e) :=
    fun _ w' e hw' hmay => ⟨hw'.1, .inr ⟨hmay, e, rfl⟩⟩
  have htrust : ∀ slot bytes, files (slotPath .trust slot) = some bytes →
      loadVerdict verdict advance p files stored .trust bytes = verdict p .trust bytes := fun _ _ _ => rfl
  have hrevocations : ∀ slot bytes, files (slotPath .revocations slot) = some bytes →
      loadVerdict verdict advance p files stored .revocations bytes =
        verdict (activated advance p .trust (chosen (verdict p) files stored .trust)) .revocations bytes :=
    fun _ _ _ => rfl
  have hsecond := hreads.second .revocations
  rw [candidateAt_congr hrevocations] at hsecond
  rw [chosen_congr htrust, chosen_congr hrevocations] at hfail ⊢
  unfold readSnapshots
  refine after_bind_of_answers (reads_onFst hreads.state hw) (fun w' hw' => ?_) (hfail p)
  refine after_bind_of_answers (P := fun w => I w.1 ∧ phase w.2 = p) (after_lift.mpr ⟨hw', .inl hstored⟩)
    (fun w' hw' => ?_) (hfail p)
  refine after_bind_of_answers (loadKind_spec hv (hreads.first _) (hreads.second _) hw') (fun w' hw' => ?_) (hfail _)
  refine after_bind_of_answers (activateLoaded_spec hv hw' mayFail) (fun w' hw' => ?_) (hfail _)
  refine after_bind_of_answers (loadKind_spec hv (hreads.first _) hsecond hw') (fun w' hw' => ?_) (hfail _)
  refine after_bind_of_answers (activateLoaded_spec hv hw' mayFail) (fun w' hw' => ?_) (hfail _)
  exact ⟨hw'.1, .inl rfl⟩

def DatabaseState.repaired (s : DatabaseState) : DatabaseState := { s with generation := s.generation + 1 }

theorem repairLoaded_spec {state : DatabaseState} {recovered : Bool} {b : β}
    {Q : Outcome StorageError DatabaseState → β → Prop} (hplain : recovered = false → Q (.value state) b)
    (hoverflow : recovered = true → state.generation = u64Max → Q (.failed .generationOverflow) b)
    (hwrite : recovered = true → state.generation ≠ u64Max →
      Eff.after (writeState sha backend state.repaired) (Eff.next (fun _ => pure state.repaired) Q) b) :
    Eff.after (repairLoaded sha backend true state recovered) Q b := by
  unfold repairLoaded
  cases recovered with
  | false => exact hplain rfl
  | true =>
    rw [Bool.and_true, if_pos rfl, after_bind, after_lift]
    unfold reject
    split
    next hg => exact hoverflow rfl hg
    next hg =>
      rw [next_value, after_bind]
      exact hwrite rfl hg

end Reading

namespace StorageFixture

def verdict : Verdict
  | _, [version, time] => some { snapshotVersion := version.toUInt64, generatedAt := time.toUInt64, expiresAt := 0 }
  | _, _ => none

def sha : Sha256 := fun _ => ⟨zeros 32, rfl⟩

end StorageFixture

end MochiSyscalls.CertificateDatabase
