import MochiSyscalls.CertificateDatabase.Storage

/-! # The operations of the database on a disk that fails

Every access to the disk may fail. A failing write leaves the file as it was, or torn: with contents
that the validator refuses in a slot and that do not decode in the state file. For each operation,
the relation between the files before it and what it returns and leaves. -/

namespace MochiSyscalls.CertificateDatabase
open Foundations Words Bytes Effects Outcome Eff
set_option autoImplicit false

section

variable (sha : Sha256) (verdict : Verdict)

structure Tear where
  contents : StoragePath → List UInt8
  state : ∃ e, DatabaseState.decode sha (contents .state) = .failed e
  slot : ∀ kind slot, verdict kind (contents (slotPath kind slot)) = none

inductive Fault where
  | done | failed | torn (tear : Tear sha verdict)

/-- The files, and what the next accesses do; the accesses after these succeed. -/
structure Disk where
  files : Files
  plan : List (Fault sha verdict)

end

section

variable {sha : Sha256} {verdict : Verdict}

namespace Disk

def read (path : StoragePath) : Eff (Disk sha verdict) StorageError (Option (List UInt8)) := fun disk =>
  match disk.plan.headD .done with
  | .done => (.value (disk.files path), ⟨disk.files, disk.plan.tail⟩)
  | _ => (.failed .backend, ⟨disk.files, disk.plan.tail⟩)

def writeSync (path : StoragePath) (bytes : List UInt8) : Eff (Disk sha verdict) StorageError Unit := fun disk =>
  match disk.plan.headD .done with
  | .done => (.value (), ⟨Function.update disk.files path (some bytes), disk.plan.tail⟩)
  | .failed => (.failed .backend, ⟨disk.files, disk.plan.tail⟩)
  | .torn tear => (.failed .backend, ⟨Function.update disk.files path (some (tear.contents path)), disk.plan.tail⟩)

end Disk

variable (sha verdict) in
def diskBackend : StorageBackend (Disk sha verdict) := { read := Disk.read, writeSync := Disk.writeSync }

/-! ## Accesses -/

/-- The disk has these files, and in a quiet run nothing more fails. -/
def Disk.Has (files : Files) (quiet : Prop) (disk : Disk sha verdict) : Prop :=
  disk.files = files ∧ (quiet → disk.plan = [])

theorem disk_reads (files : Files) (quiet : Prop) (path : StoragePath) :
    Reads (diskBackend sha verdict) files (Disk.Has files quiet) (¬ quiet) path := by
  rintro disk ⟨hfiles, hquiet⟩
  show Disk.Has files quiet (Disk.read path disk).2 ∧ Answers (¬ quiet) (files path) (Disk.read path disk).1
  have htail : quiet → disk.plan.tail = [] := fun hq => by rw [hquiet hq]; rfl
  have hfail : disk.plan.headD .done ≠ .done → ¬ quiet := by
    intro hne hq
    rw [hquiet hq] at hne
    exact hne rfl
  unfold Disk.read
  cases hp : disk.plan.headD .done with
  | done =>
    refine ⟨⟨hfiles, htail⟩, .inl ?_⟩
    rw [← hfiles]
  | failed | torn tear => exact ⟨⟨hfiles, htail⟩, .inr ⟨hfail (by rw [hp]; exact nofun), _, rfl⟩⟩

inductive Broken (sha : Sha256) (verdict : Verdict) (files : Files) (path : StoragePath) : Files → Prop where
  | unchanged : Broken sha verdict files path files
  | torn (tear : Tear sha verdict) :
    Broken sha verdict files path (Function.update files path (some (tear.contents path)))

variable {disk : Disk sha verdict}

theorem disk_writes {files : Files} {quiet : Prop} (path : StoragePath) (bytes : List UInt8)
    (h : disk.Has files quiet) :
    Eff.after ((diskBackend sha verdict).writeSync path bytes) (fun r disk' =>
      (r = .value () ∧ disk'.Has (Function.update files path (some bytes)) quiet) ∨
      (¬ quiet ∧ r = .failed .backend ∧ Broken sha verdict files path disk'.files)) disk := by
  obtain ⟨rfl, hquiet⟩ := h
  have hfail : disk.plan.headD .done ≠ .done → ¬ quiet := by
    intro hne hq
    rw [hquiet hq] at hne
    exact hne rfl
  show (((Disk.writeSync path bytes disk).1 = _ ∧ Disk.Has _ _ (Disk.writeSync path bytes disk).2) ∨
    (¬ quiet ∧ (Disk.writeSync path bytes disk).1 = _ ∧ Broken sha verdict _ _ (Disk.writeSync path bytes disk).2.files))
  unfold Disk.writeSync
  cases hp : disk.plan.headD .done with
  | done => exact .inl ⟨rfl, rfl, fun hq => by rw [hquiet hq]; rfl⟩
  | failed => exact .inr ⟨hfail (by rw [hp]; exact nofun), rfl, .unchanged⟩
  | torn tear => exact .inr ⟨hfail (by rw [hp]; exact nofun), rfl, .torn tear⟩

/-! ## Operations -/

section

variable {ν φ : Type} {validator : SnapshotValidator ν} {phase : ν → φ} {judge : φ → Verdict}
  {advance : φ → SnapshotKind → List UInt8 → φ} {files : Files} {quiet : Prop}

inductive Loads (sha : Sha256) (verdict : Verdict)
    (files : Files) (stored : Option DatabaseState) (selected : DatabaseState × Bool) :
    Outcome StorageError LoadedDatabase → Files → Prop where
  | failed (e : StorageError) : Loads sha verdict files stored selected (.failed e) files
  | kept (loaded : LoadedDatabase) (hstate : loaded.state = selected.1) (hkept : selected.2 = false)
      (hsnapshot : ∀ kind, loaded.snapshot kind = (chosen verdict files stored kind).map Candidate.bytes) :
    Loads sha verdict files stored selected (.value loaded) files
  | unrepaired (e : StorageError) {files' : Files} (hbroken : Broken sha verdict files .state files') :
    Loads sha verdict files stored selected (.failed e) files'
  | repaired (loaded : LoadedDatabase) (hstate : loaded.state = selected.1.repaired)
      (hgeneration : selected.1.generation ≠ u64Max)
      (hsnapshot : ∀ kind, loaded.snapshot kind = (chosen verdict files stored kind).map Candidate.bytes) :
    Loads sha verdict files stored selected (.value loaded)
      (Function.update files .state (some (selected.1.repaired.encode sha)))

variable {files' : Files}

theorem Loads.snapshot {stored : Option DatabaseState} {selected : DatabaseState × Bool} {loaded : LoadedDatabase}
    (h : Loads sha verdict files stored selected (.value loaded) files') (kind : SnapshotKind) :
    loaded.snapshot kind = (chosen verdict files stored kind).map Candidate.bytes := by
  cases h with
  | kept _ _ _ hsnapshot | repaired _ _ _ hsnapshot => exact hsnapshot kind

/-- In the phase in which a load starts, it judges every slot as the one verdict does. -/
def LoadJudges (judge : φ → Verdict) (advance : φ → SnapshotKind → List UInt8 → φ) (verdict : Verdict) (p : φ)
    (files : Files) (stored : Option DatabaseState) : Prop :=
  ∀ kind slot bytes, files (slotPath kind slot) = some bytes →
    loadVerdict judge advance p files stored kind bytes = verdict kind bytes

theorem load_loads (hv : Phased validator phase judge advance) {stored : Option DatabaseState}
    (hstored : storedState sha (files .state) = .value stored) (hd : disk.Has files quiet) {n : ν}
    (hjudges : LoadJudges judge advance verdict (phase n) files stored) :
    let selected := applySelected stored (chosen verdict files stored .trust) (chosen verdict files stored .revocations)
    Eff.after (loadDatabase sha (diskBackend sha verdict) validator) (fun r w =>
      Loads sha verdict files stored selected r w.1.files ∧
        (quiet → selected.1.generation ≠ u64Max → ∃ loaded, r = .value loaded)) (disk, n) := by
  intro selected
  have hread : after (readSnapshots sha (diskBackend sha verdict) validator) (fun r w => Disk.Has files quiet w.1 ∧
      Answers (¬ quiet) (stored, chosen verdict files stored .trust, chosen verdict files stored .revocations) r)
      (disk, n) := by
    rw [← chosen_congr (hjudges .trust), ← chosen_congr (hjudges .revocations)]
    refine readSnapshots_spec hv hstored ?_ ⟨hd, rfl⟩
    exact ⟨disk_reads files quiet _, fun _ => disk_reads files quiet _, fun _ _ => disk_reads files quiet _⟩
  unfold loadDatabase loadDatabaseInner
  refine after_bind_of_answers hread (fun w hw => ?_) fun w e hw hfail => ?_
  · rw [after_bind, after_onFst]
    refine repairLoaded_spec ?_ ?_ ?_
    · intro hkept
      refine ⟨?_, fun _ _ => ⟨_, rfl⟩⟩
      show Loads sha verdict files stored selected (.value _) w.1.files
      rw [hw.1]
      exact .kept _ rfl hkept fun kind => by cases kind <;> rfl
    · intro _ hg
      refine ⟨?_, fun _ hno => absurd hg hno⟩
      show Loads sha verdict files stored selected (.failed _) w.1.files
      rw [hw.1]
      exact .failed _
    · intro _ hg
      refine (disk_writes .state (selected.1.repaired.encode sha) hw).imp fun r disk' hr => ?_
      obtain ⟨rfl, hd'⟩ | ⟨hno, rfl, hbroken⟩ := hr
      · refine ⟨?_, fun _ _ => ⟨_, rfl⟩⟩
        show Loads sha verdict files stored selected (.value _) disk'.files
        rw [hd'.1]
        exact .repaired _ rfl hg fun kind => by cases kind <;> rfl
      · exact ⟨.unrepaired _ hbroken, fun hq => absurd hq hno⟩
  · refine ⟨?_, fun hq => absurd hq hfail⟩
    rw [hw.1]
    exact .failed e

def DatabaseState.Takes (verdict : Verdict) (s : DatabaseState) (kind : SnapshotKind) (bytes : List UInt8) : Prop :=
  ∃ m, verdict kind bytes = some m ∧ ¬ s.rollsBack kind m

instance (s : DatabaseState) (kind : SnapshotKind) (bytes : List UInt8) : Decidable (s.Takes verdict kind bytes) :=
  match h : verdict kind bytes with
  | none => isFalse fun ⟨m, hm, _⟩ => by rw [h] at hm; cases hm
  | some m =>
    if hr : s.rollsBack kind m then isFalse fun ⟨m', hm, hnew⟩ => by rw [h] at hm; cases hm; exact hnew hr
    else isTrue ⟨m, h, hr⟩

/-- What a persist returns and leaves; the last part is the caller's state. -/
inductive Persists (sha : Sha256) (verdict : Verdict)
    (files : Files) (state : DatabaseState) (kind : SnapshotKind) (bytes : List UInt8) (etag : Etag)
    (lastCheckedAt : UInt64) : Outcome StorageError Slot → Files → DatabaseState → Prop where
  | refused (e : StorageError) (hno : ¬ state.Takes verdict kind bytes) :
    Persists sha verdict files state kind bytes etag lastCheckedAt (.failed e) files state
  | unwritten (e : StorageError) {files' : Files} (htakes : state.Takes verdict kind bytes)
      (hbroken : Broken sha verdict files (slotPath kind (state.activeSlot kind).inactive) files') :
    Persists sha verdict files state kind bytes etag lastCheckedAt (.failed e) files' state
  | uncommitted (e : StorageError) {files' : Files} (htakes : state.Takes verdict kind bytes)
      (hbroken : Broken sha verdict (Function.update files (slotPath kind (state.activeSlot kind).inactive) (some bytes))
        .state files') :
    Persists sha verdict files state kind bytes etag lastCheckedAt (.failed e) files' state
  | done {m : ValidatedSnapshot} (hm : verdict kind bytes = some m) (hnew : ¬ state.rollsBack kind m)
      (hgeneration : state.generation ≠ u64Max) :
    Persists sha verdict files state kind bytes etag lastCheckedAt (.value (state.activeSlot kind).inactive)
      (Function.update (Function.update files (slotPath kind (state.activeSlot kind).inactive) (some bytes)) .state
        (some ((state.persisted kind m etag lastCheckedAt).encode sha))) (state.persisted kind m etag lastCheckedAt)

theorem persist_persists (hv : Phased validator phase judge advance) (state : DatabaseState) (kind : SnapshotKind)
    (bytes : List UInt8) (etag : Etag) (lastCheckedAt : UInt64) (hd : disk.Has files quiet) {n : ν}
    (hjudges : judge (phase n) kind bytes = verdict kind bytes) :
    Eff.after (persistSnapshot sha (diskBackend sha verdict) validator kind bytes etag lastCheckedAt) (fun r w =>
      Persists sha verdict files state kind bytes etag lastCheckedAt r w.1.1.files w.2 ∧
        (quiet → state.Takes verdict kind bytes → state.generation ≠ u64Max → ∃ slot, r = .value slot))
      ((disk, n), state) := by
  unfold persistSnapshot
  refine after_bind_of_value rfl ?_
  cases hm : verdict kind bytes with
  | none =>
    have hno : ¬ state.Takes verdict kind bytes := by
      rintro ⟨m, h, _⟩
      rw [hm] at h
      cases h
    obtain ⟨e, he⟩ := hv.refuses (hjudges.trans hm)
    exact after_bind_of_failed he ⟨hd.1 ▸ .refused e hno, fun _ htakes => absurd htakes hno⟩
  | some m =>
    refine after_bind_of_value (hv.accepts (hjudges.trans hm)) ?_
    refine after_bind_reject (fun hold => ?_) fun hnew => ?_
    · have hno : ¬ state.Takes verdict kind bytes := by
        rintro ⟨m', h, hnew⟩
        rw [hm] at h
        cases h
        exact hnew hold
      exact ⟨hd.1 ▸ .refused _ hno, fun _ htakes => absurd htakes hno⟩
    have htakes : state.Takes verdict kind bytes := ⟨m, hm, hnew⟩
    -- the slot that is not active
    obtain ⟨hr, hd⟩ | ⟨hno, hr, hbroken⟩ := disk_writes (slotPath kind (state.activeSlot kind).inactive) bytes hd
    swap
    · exact after_bind_of_failed hr ⟨.unwritten _ htakes hbroken, fun hq => absurd hq hno⟩
    refine after_bind_of_value hr ?_
    -- its contents, read back
    obtain ⟨hd, hr | ⟨hno, e, hr⟩⟩ := disk_reads _ quiet (slotPath kind (state.activeSlot kind).inactive) _ hd
    swap
    · exact after_bind_of_failed hr ⟨.uncommitted _ htakes (hd.1 ▸ .unchanged), fun hq => absurd hq hno⟩
    refine after_bind_of_value (hr.trans (congrArg value (Function.update_self ..))) ?_
    refine after_bind_reject (fun hne => absurd rfl hne) fun _ => ?_
    refine after_bind_of_value (hv.accepts ((congrArg (judge · kind bytes) (hv.stay ..)).trans (hjudges.trans hm))) ?_
    refine after_bind_reject (fun hne => absurd rfl hne) fun _ => ?_
    refine after_bind_reject (fun hg => ?_) fun hg => ?_
    · exact ⟨.uncommitted _ htakes (hd.1 ▸ .unchanged), fun _ _ hno => absurd hg hno⟩
    -- the state file
    obtain ⟨hr, hd⟩ | ⟨hno, hr, hbroken⟩ :=
      disk_writes .state ((state.persisted kind m etag lastCheckedAt).encode sha) hd
    swap
    · exact after_bind_of_failed hr ⟨.uncommitted _ htakes hbroken, fun hq => absurd hq hno⟩
    refine after_bind_of_value hr ?_
    refine after_bind_of_value rfl ?_
    exact ⟨hd.1 ▸ .done hm hnew hg, fun _ _ _ => ⟨_, rfl⟩⟩

/-- What a check that found nothing new returns and leaves; the last part is the caller's state. -/
inductive Checks (sha : Sha256) (verdict : Verdict)
    (files : Files) (state : DatabaseState) (kind : SnapshotKind) (lastCheckedAt : UInt64) :
    Outcome StorageError Unit → Files → DatabaseState → Prop where
  | failed (e : StorageError) {files' : Files} (hbroken : Broken sha verdict files .state files') :
    Checks sha verdict files state kind lastCheckedAt (.failed e) files' state
  | done (hgeneration : state.generation ≠ u64Max) :
    Checks sha verdict files state kind lastCheckedAt (.value ())
      (Function.update files .state (some ((state.checked kind lastCheckedAt).encode sha)))
      (state.checked kind lastCheckedAt)

theorem check_checks (state : DatabaseState) (kind : SnapshotKind) (lastCheckedAt : UInt64)
    (hd : disk.Has files quiet) :
    Eff.after (markChecked sha (diskBackend sha verdict) kind lastCheckedAt) (fun r w =>
      Checks sha verdict files state kind lastCheckedAt r w.1.files w.2) (disk, state) := by
  unfold markChecked
  refine after_bind_of_value rfl ?_
  refine after_bind_reject (fun _ => hd.1 ▸ .failed _ .unchanged) fun _ => ?_
  refine after_bind_reject (fun _ => hd.1 ▸ .failed _ .unchanged) fun hg => ?_
  obtain ⟨hr, hd⟩ | ⟨_, hr, hbroken⟩ := disk_writes .state ((state.checked kind lastCheckedAt).encode sha) hd
  · have hdone : Checks sha verdict files state kind lastCheckedAt (.value ()) _ _ := .done hg
    rw [← hd.1] at hdone
    exact after_bind_of_value hr hdone
  · exact after_bind_of_failed hr (.failed _ hbroken)

end

end

end MochiSyscalls.CertificateDatabase
