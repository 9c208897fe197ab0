import MochiSyscalls.CertificateDatabase.SnapshotGuard
import MochiSyscalls.Foundations.Runs

/-! # Crash safety of the certificate database

Runs of load, persist and check, in which every access to the disk may fail and every operation may
be cut off. -/

namespace MochiSyscalls.CertificateDatabase
open Foundations Words Bytes Effects Outcome List Function
set_option autoImplicit false

/-! ## Runs -/

inductive Command where
  | load
  | persist (kind : SnapshotKind) (bytes : List UInt8) (etag : Etag) (lastCheckedAt : UInt64)
  | check (kind : SnapshotKind) (lastCheckedAt : UInt64)

/-- The caller's state is lost when an operation is cut off. -/
structure System (ν : Type) where
  files : Files
  validator : ν
  memory : Option DatabaseState
  ledger : Ledger

section

variable (sha : Sha256) (verdict : Verdict)

/-- One operation: what the disk does during it, and the state the validator restarts in when it is cut off. -/
structure Operation (ν : Type) where
  command : Command
  plan : List (Fault sha verdict)
  cut : Option ν

end

structure Performed (ν : Type) where
  succeeded : Bool
  files : Files
  validator : ν
  memory : Option DatabaseState

section

variable {ν : Type} {sha : Sha256} {verdict : Verdict} (validator : SnapshotValidator ν)

def System.perform (s : System ν) (plan : List (Fault sha verdict)) : Command → Performed ν
  | .load =>
    let after := loadDatabase sha (diskBackend sha verdict) validator (⟨s.files, plan⟩, s.validator)
    ⟨after.1.isValue, after.2.1.files, after.2.2, loadedState s.memory after.1⟩
  | .persist kind bytes etag lastCheckedAt =>
    match s.memory with
    | none => ⟨false, s.files, s.validator, none⟩
    | some state =>
      let after := persistSnapshot sha (diskBackend sha verdict) validator kind bytes etag lastCheckedAt
        ((⟨s.files, plan⟩, s.validator), state)
      ⟨after.1.isValue, after.2.1.1.files, after.2.1.2, some after.2.2⟩
  | .check kind lastCheckedAt =>
    match s.memory with
    | none => ⟨false, s.files, s.validator, none⟩
    | some state =>
      let after := markChecked sha (diskBackend sha verdict) kind lastCheckedAt (⟨s.files, plan⟩, state)
      ⟨after.1.isValue, after.2.1.files, s.validator, some after.2.2⟩

def Ledger.record (ledger : Ledger) (verdict : Verdict) (memory : Option DatabaseState) (returned : Bool) :
    Command → Ledger
  | .persist kind bytes _ _ =>
    match memory with
    | none => ledger
    | some state =>
      if state.Takes verdict kind bytes then
        if returned then ledger.committed kind bytes else ledger.offered kind bytes
      else ledger
  | _ => ledger

def System.step (s : System ν) (op : Operation sha verdict ν) : System ν :=
  let done := s.perform validator op.plan op.command
  { files := done.files, validator := op.cut.getD done.validator,
    memory := if op.cut.isSome then none else done.memory,
    ledger := s.ledger.record verdict s.memory (done.succeeded && op.cut.isNone) op.command }

end

/-! ## Runs are safe -/

section

variable {sha : Sha256} {verdict : Verdict} {kind : SnapshotKind} {stored : Option DatabaseState} {count : ℕ}
  {ν φ : Type} {validator : SnapshotValidator ν} {phase : ν → φ} {judge : φ → Verdict}
  {advance : φ → SnapshotKind → List UInt8 → φ} {s : System ν}

/-- In the phase it is in, the validator judges what the command shows it as the one verdict does. -/
def System.Judges (sha : Sha256) (phase : ν → φ) (judge : φ → Verdict) (advance : φ → SnapshotKind → List UInt8 → φ)
    (verdict : Verdict) (s : System ν) : Command → Prop
  | .load => ∀ stored, storedState sha (s.files .state) = .value stored →
      LoadJudges judge advance verdict (phase s.validator) s.files stored
  | .persist kind bytes _ _ => judge (phase s.validator) kind bytes = verdict kind bytes
  | .check _ _ => True

section

variable (hv : Phased validator phase judge advance)
  (hversion : ∀ kind bytes m, verdict kind bytes = some m → m.snapshotVersion ≠ 0)
  (h : Consistent sha verdict s.files s.ledger stored s.memory count)
include hv hversion h

theorem System.perform_consistent (plan : List (Fault sha verdict)) {command : Command}
    (hjudges : s.Judges sha phase judge advance verdict command) (returned : Bool)
    (hreturned : returned = true → (s.perform validator plan command).succeeded = true) :
    ∃ stored', Consistent sha verdict (s.perform validator plan command).files
      (s.ledger.record verdict s.memory returned command) stored' (s.perform validator plan command).memory
      (count + 1) := by
  have hdisk : Disk.Has s.files False (⟨s.files, plan⟩ : Disk sha verdict) := ⟨rfl, False.elim⟩
  cases command with
  | load => exact h.load (load_loads hv h.decodes hdisk (hjudges _ h.decodes)).1
  | persist kind bytes etag lastCheckedAt =>
    unfold System.perform Ledger.record at *
    cases hmemory : s.memory with
    | none =>
      rw [hmemory] at h
      exact ⟨stored, h.mono (Nat.le_succ count)⟩
    | some state =>
      rw [hmemory] at h hreturned
      exact h.persist hversion (persist_persists hv state kind bytes etag lastCheckedAt hdisk hjudges).1 hreturned
  | check kind lastCheckedAt =>
    unfold System.perform Ledger.record at *
    cases hmemory : s.memory with
    | none =>
      rw [hmemory] at h
      exact ⟨stored, h.mono (Nat.le_succ count)⟩
    | some state =>
      rw [hmemory] at h
      exact h.check (check_checks state kind lastCheckedAt hdisk)

theorem System.step_consistent {op : Operation sha verdict ν}
    (hjudges : s.Judges sha phase judge advance verdict op.command) :
    ∃ stored', Consistent sha verdict (s.step validator op).files (s.step validator op).ledger stored'
      (s.step validator op).memory (count + 1) := by
  obtain ⟨stored', h'⟩ := perform_consistent hv hversion h op.plan hjudges
    ((s.perform validator op.plan op.command).succeeded && op.cut.isNone)
    fun hr => (Bool.and_eq_true_iff.mp hr).1
  unfold System.step
  refine ⟨stored', ?_⟩
  dsimp only
  split
  · exact h'.forget
  · exact h'

end

theorem System.perform_memory (s : System ν) (plan : List (Fault sha verdict)) (command : Command)
    (hfail : (s.perform validator plan command).succeeded = false) :
    (s.perform validator plan command).memory = s.memory := by
  cases command with
  | load =>
    unfold System.perform loadedState at *
    dsimp only at hfail ⊢
    split
    next he =>
      rw [he] at hfail
      cases hfail
    · rfl
  | persist kind bytes etag lastCheckedAt =>
    unfold System.perform at *
    cases hmemory : s.memory with
    | none => rfl
    | some state =>
      rw [hmemory] at hfail
      exact congrArg some (persistSnapshot_kept _ _ _ _ bytes etag lastCheckedAt _ hfail)
  | check kind lastCheckedAt =>
    unfold System.perform at *
    cases hmemory : s.memory with
    | none => rfl
    | some state =>
      rw [hmemory] at hfail
      exact congrArg some (markChecked_kept _ _ _ lastCheckedAt _ hfail)

/-- A run begins before a load, on files whose state file does not make the decoder panic, or on none. -/
structure System.Begins (sha : Sha256) (s : System ν) (stored : Option DatabaseState) : Prop where
  ledger : s.ledger = .empty
  decodes : storedState sha (s.files .state) = .value stored
  memory : s.memory = none ∨ (s.memory = some .default ∧ ∀ path, s.files path = none)

theorem System.Begins.consistent (verdict : Verdict) (h : s.Begins sha stored) :
    Consistent sha verdict s.files s.ledger stored s.memory (stored.getD .default).generation.toNat := by
  have hlast : ∀ kind, ¬ (s.ledger.last kind).isSome := by
    intro kind
    rw [h.ledger]
    exact Bool.false_ne_true
  have hstored : ∀ state, stored = some state → state.generation.toNat ≤ (stored.getD .default).generation.toNat := by
    rintro state rfl
    exact le_rfl
  refine ⟨h.decodes, fun kind => ⟨.a, fun hl => absurd hl (hlast kind)⟩, ?_,
    fun _ _ kind hl => absurd hl (hlast kind), ?_, ?_⟩
  · intro state hs kind
    obtain hnone | ⟨hdefault, hfiles⟩ := h.memory
    · rw [hnone] at hs
      cases hs
    · rw [hdefault] at hs
      cases hs
      refine ⟨.inl ⟨by cases kind <;> rfl, ?_⟩, fun hl => absurd hl (hlast kind)⟩
      unfold candidateAt
      rw [hfiles]
      rfl
  · intro state state' hs hs'
    obtain hnone | ⟨_, hfiles⟩ := h.memory
    · rw [hnone] at hs'
      cases hs'
    · have hdecodes := h.decodes
      rw [hfiles, hs] at hdecodes
      cases hdecodes
  · rintro state (hs | hs)
    · exact hstored state hs
    · obtain hnone | ⟨hdefault, _⟩ := h.memory
      · rw [hnone] at hs
        cases hs
      · rw [hdefault] at hs
        cases hs
        exact Nat.zero_le _

open Runs

theorem System.run_consistent (hv : Phased validator phase judge advance)
    (hversion : ∀ kind bytes m, verdict kind bytes = some m → m.snapshotVersion ≠ 0)
    (h : Consistent sha verdict s.files s.ledger stored s.memory count) {ops : List (Operation sha verdict ν)}
    (hjudges : Along (System.step validator) (fun s op => s.Judges sha phase judge advance verdict op.command) s ops) :
    ∃ stored', Consistent sha verdict (run (System.step validator) s ops).files
      (run (System.step validator) s ops).ledger stored' (run (System.step validator) s ops).memory (count + ops.length) := by
  induction ops generalizing s stored count with
  | nil => exact ⟨stored, h⟩
  | cons op ops ih =>
    obtain ⟨stored', h'⟩ := step_consistent hv hversion h hjudges.1
    obtain ⟨stored'', h''⟩ := ih h' hjudges.2
    rw [length_cons, Nat.add_comm ops.length 1, ← Nat.add_assoc]
    exact ⟨stored'', h''⟩

def Operation.Clean (op : Operation sha verdict ν) : Prop := op.plan = [] ∧ op.cut = none

theorem generation_ne_max {generation : UInt64} (h : generation.toNat < 2 ^ 64 - 1) : generation ≠ u64Max := by
  rintro rfl
  exact absurd h (by decide)

theorem System.step_since_of_clean (hv : Phased validator phase judge advance)
    (h : Consistent sha verdict s.files s.ledger stored s.memory count) (hcount : count < 2 ^ 64 - 1)
    (hsince : ∀ kind, s.ledger.since kind = []) {op : Operation sha verdict ν}
    (hjudges : s.Judges sha phase judge advance verdict op.command) (hop : op.Clean) (kind : SnapshotKind) :
    (s.step validator op).ledger.since kind = [] := by
  obtain ⟨command, plan, cut⟩ := op
  obtain ⟨rfl, rfl⟩ : plan = [] ∧ cut = none := hop
  show (s.ledger.record verdict s.memory ((s.perform validator [] command).succeeded && true) command).since kind = []
  rw [Bool.and_true]
  cases command with
  | load | check => exact hsince kind
  | persist kind' bytes etag lastCheckedAt =>
    unfold System.perform Ledger.record
    cases hmemory : s.memory with
    | none => exact hsince kind
    | some state =>
      dsimp only
      split
      next htakes =>
        have hdisk : Disk.Has s.files True (⟨s.files, []⟩ : Disk sha verdict) := ⟨rfl, fun _ => rfl⟩
        have hgeneration := generation_ne_max ((h.generation state (.inr hmemory)).trans_lt hcount)
        obtain ⟨slot, hr⟩ :=
          (persist_persists hv state kind' bytes etag lastCheckedAt hdisk hjudges).2 trivial htakes hgeneration
        split
        · unfold Ledger.committed
          dsimp only
          by_cases hk : kind = kind'
          · rw [hk, update_self]
          · rw [update_of_ne hk]
            exact hsince kind
        next hno => exact absurd (congrArg isValue hr) hno
      · exact hsince kind

theorem System.run_since_of_clean (hv : Phased validator phase judge advance)
    (hversion : ∀ kind bytes m, verdict kind bytes = some m → m.snapshotVersion ≠ 0)
    (h : Consistent sha verdict s.files s.ledger stored s.memory count) {ops : List (Operation sha verdict ν)}
    (hjudges : Along (System.step validator) (fun s op => s.Judges sha phase judge advance verdict op.command) s ops)
    (hcount : count + ops.length < 2 ^ 64 - 1) (hsince : ∀ kind, s.ledger.since kind = [])
    (hops : ∀ op ∈ ops, op.Clean) (kind : SnapshotKind) :
    (run (System.step validator) s ops).ledger.since kind = [] := by
  induction ops generalizing s stored count with
  | nil => exact hsince kind
  | cons op ops ih =>
    rw [length_cons] at hcount
    obtain ⟨stored', h'⟩ := step_consistent hv hversion h hjudges.1
    refine ih h' hjudges.2 (by omega) ?_ fun o ho => hops o (mem_cons_of_mem _ ho)
    exact step_since_of_clean hv h (by omega) hsince hjudges.1 (hops op mem_cons_self)

theorem System.mem_since_step {op : Operation sha verdict ν} {bytes : List UInt8}
    (h : bytes ∈ (s.step validator op).ledger.since kind) :
    bytes ∈ s.ledger.since kind ∨ ∃ etag lastCheckedAt, op.command = .persist kind bytes etag lastCheckedAt := by
  obtain ⟨command, plan, cut⟩ := op
  replace h : bytes ∈ (s.ledger.record verdict s.memory _ command).since kind := h
  cases command with
  | load | check => exact .inl h
  | persist kind' bytes' etag lastCheckedAt =>
    unfold Ledger.record at h
    cases hmemory : s.memory with
    | none =>
      rw [hmemory] at h
      exact .inl h
    | some state =>
      rw [hmemory] at h
      -- a persist that returns empties its own kind's list, any other adds its bytes to it
      dsimp only [Ledger.committed, Ledger.offered] at h
      split_ifs at h <;> grind [update_apply]

/-- **Crash safety.** After any run with failing accesses, torn writes and operations cut off, in which the validator
does not change its verdict on a snapshot, a load returns a valid snapshot of every kind that was persisted: the last
one, or one whose persist did not return since. -/
theorem System.crash_safety (hv : Phased validator phase judge advance)
    (hversion : ∀ kind bytes m, verdict kind bytes = some m → m.snapshotVersion ≠ 0) {s₀ : System ν}
    {stored : Option DatabaseState} (hbegins : s₀.Begins sha stored) (ops : List (Operation sha verdict ν))
    (hjudges : Along (System.step validator) (fun s op => s.Judges sha phase judge advance verdict op.command) s₀ ops)
    (hlength : (stored.getD .default).generation.toNat + ops.length < 2 ^ 64 - 1) :
    let s := run (System.step validator) s₀ ops
    (∀ n, ({ s with validator := n } : System ν).Judges sha phase judge advance verdict .load →
      ∃ loaded, (loadDatabase sha (diskBackend sha verdict) validator (⟨s.files, []⟩, n)).1 = .value loaded ∧
        ∀ kind last, s.ledger.last kind = some last → ∃ bytes, loaded.snapshot kind = some bytes ∧
          (verdict kind bytes).isSome ∧ (bytes = last ∨ bytes ∈ s.ledger.since kind)) ∧
    (∀ before op, ops = before ++ [op] → (∀ o ∈ before, o.Clean) → ∀ kind bytes, bytes ∈ s.ledger.since kind →
      ∃ etag lastCheckedAt, op.command = .persist kind bytes etag lastCheckedAt) ∧
    ∀ (s : System ν) (plan : List (Fault sha verdict)) command, (s.perform validator plan command).succeeded = false →
      (s.perform validator plan command).memory = s.memory := by
  intro s
  have hconsistent := hbegins.consistent verdict
  refine ⟨fun n hload => ?_, ?_, perform_memory⟩
  · obtain ⟨stored', h⟩ := run_consistent hv hversion hconsistent hjudges
    have hdisk : Disk.Has s.files True (⟨s.files, []⟩ : Disk sha verdict) := ⟨rfl, fun _ => rfl⟩
    obtain ⟨hloads, hreturns⟩ := load_loads hv h.decodes hdisk (hload _ h.decodes)
    have hgeneration : (applySelected stored' (chosen verdict s.files stored' .trust)
        (chosen verdict s.files stored' .revocations)).1.generation ≠ u64Max := by
      refine generation_ne_max ?_
      rw [applySelected_generation]
      cases hs : stored' with
      | none => decide
      | some state => exact (h.generation state (.inl hs)).trans_lt hlength
    obtain ⟨loaded, hr⟩ := hreturns trivial hgeneration
    refine ⟨loaded, hr, fun kind last hlast => ?_⟩
    have hsnapshot : loaded.snapshot kind = (chosen verdict s.files stored' kind).map Candidate.bytes := by
      rw [hr] at hloads
      exact hloads.snapshot kind
    cases hc : chosen verdict s.files stored' kind with
    | none =>
      have hnone := (selected_none h hc).2
      rw [hlast] at hnone
      cases hnone
    | some c =>
      obtain ⟨hheld, hholds⟩ := selected_some h hc
      obtain ⟨c', hc'⟩ := hholds (by rw [hlast]; rfl)
      cases hheld.symm.trans hc'.held
      refine ⟨c.bytes, by rw [hsnapshot, hc]; rfl, by rw [verdict_of_chosen hc]; rfl, ?_⟩
      refine hc'.good.imp_left fun hgood => ?_
      exact Option.some.inj (hgood.symm.trans hlast)
  · rintro before op rfl hclean kind bytes hbytes
    rw [length_append, length_singleton] at hlength
    have hjudged := ((along_append _ _ _ _).mp hjudges).1
    have hnil := run_since_of_clean hv hversion hconsistent hjudged (by omega) (fun kind => by rw [hbegins.ledger]; rfl)
      hclean kind
    have hstep : s = (run (System.step validator) s₀ before).step validator op := run_snoc ..
    rw [hstep] at hbytes
    obtain hold | hpersist := mem_since_step hbytes
    · rw [hnil] at hold
      cases hold
    · exact hpersist

end

namespace StorageFixture
open Runs

def numbered : Verdict
  | kind, version :: rest => if version = 0 then none else verdict kind (version :: rest)
  | _, [] => none

theorem numbered_version (kind : SnapshotKind) (bytes : List UInt8) (m : ValidatedSnapshot)
    (h : numbered kind bytes = some m) : m.snapshotVersion ≠ 0 := by
  unfold numbered at h
  split at h
  next version rest =>
    split at h
    · cases h
    next hversion =>
      unfold verdict at h
      split at h
      next heq =>
        cases heq
        cases h
        intro hzero
        refine hversion (UInt8.toNat_inj.mp ?_)
        have hnat := congrArg UInt64.toNat hzero
        rwa [UInt8.toNat_toUInt64] at hnat
      · cases h
  · cases h

variable {ν : Type} (v : Verdict)

def tear (h : ∀ kind, v kind [] = none) : Tear sha v where
  contents _ := []
  state := ⟨.invalidLength 392 0, by decide⟩
  slot kind _ := h kind

def fresh (n : ν) : System ν := { files := fun _ => none, validator := n, memory := some .default, ledger := .empty }

theorem fresh_begins (n : ν) : (fresh n).Begins sha none := ⟨rfl, rfl, .inr ⟨rfl, fun _ => rfl⟩⟩

def persist (kind : SnapshotKind) (bytes : List UInt8) (plan : List (Fault sha v)) : Operation sha v ν :=
  { command := .persist kind bytes .none 0, plan, cut := none }

def returned (kind : SnapshotKind) : Outcome StorageError LoadedDatabase → Option (List UInt8)
  | .value loaded => loaded.snapshot kind
  | _ => none

/-- A persist that tears the state file. -/
def torn (kind : SnapshotKind) (h : ∀ kind, v kind [] = none) : Operation sha v ν :=
  persist v kind [1, 0] [.done, .done, .torn (tear v h)]

/-- Version zero marks a kind without a snapshot, so a persist does not compare with it. -/
def zeroed : System Unit := run (System.step (plainValidator verdict)) (fresh ())
  [persist verdict .trust [0, 10] [], persist verdict .trust [0, 5] [], torn verdict .revocations fun _ => rfl]

/-- The files already hold a snapshot that the default state does not know. -/
def stale : System Unit := run (System.step (plainValidator numbered))
  { fresh () with files := Function.update (fresh ()).files .trustA (some [9, 0]) }
  [persist numbered .trust [1, 0] [], torn numbered .revocations fun _ => rfl]

def refusing : SnapshotValidator Unit :=
  { plainValidator numbered with activate := fun _ _ n => (.failed .invalidSnapshot, n) }

def refused : System Unit := run (System.step refusing) (fresh ())
  [persist numbered .trust [1, 0] [], torn numbered .revocations fun _ => rfl]

/-- Once a snapshot is active no other is accepted. -/
def sealing : SnapshotValidator Bool where
  validate kind bytes active :=
    (if active then .failed .invalidSnapshot else ((plainValidator numbered).validate kind bytes ()).1, active)
  activate _ _ _ := (.value (), true)

def sealed : System Bool := run (System.step sealing) (fresh false)
  [persist numbered .revocations [1, 0] [], torn numbered .trust fun _ => rfl]

/-- The state file has the generation before the last. -/
def spent : System Unit := run (System.step (plainValidator numbered))
  { fresh () with
    files := Function.update (fresh ()).files .state
      (some ({ DatabaseState.default with generation := u64Max - 1 }.encode sha))
    memory := none }
  [{ command := .load, plan := [], cut := none }, persist numbered .trust [1, 0] [],
    persist numbered .revocations [1, 0] []]

def loadFrom (validator : SnapshotValidator ν) (s : System ν) : Outcome StorageError LoadedDatabase :=
  (loadDatabase sha (diskBackend sha v) validator (⟨s.files, []⟩, s.validator)).1

/-- A snapshot of version zero is lost to an older one, and so is one persisted from a state that is not the files'; with
the generation used up, uncommitted revocations make every load fail, as does an activation that is refused; revocations
that are refused once the trust list is active are lost. -/
theorem conditions_needed :
    (zeroed.ledger.last .trust = some [0, 5] ∧ zeroed.ledger.since .trust = [] ∧
      returned .trust (loadFrom verdict (plainValidator verdict) zeroed) = some [0, 10]) ∧
    (spent.ledger.last .trust = some [1, 0] ∧
      loadFrom numbered (plainValidator numbered) spent = .failed .generationOverflow) ∧
    (stale.ledger.last .trust = some [1, 0] ∧ stale.ledger.since .trust = [] ∧
      returned .trust (loadFrom numbered (plainValidator numbered) stale) = some [9, 0]) ∧
    (refused.ledger.last .trust = some [1, 0] ∧ loadFrom numbered refusing refused = .failed .invalidSnapshot) ∧
    sealed.ledger.last .revocations = some [1, 0] ∧
      returned .revocations (loadFrom numbered sealing sealed) = none := by
  refine ⟨by decide, ?_, by decide, by decide, by decide⟩
  decide +kernel

/-- A second persist is cut off while it writes the state file. -/
def cutRun : List (Operation sha numbered Unit) :=
  [persist numbered .trust [1, 5] [],
    { command := .persist .trust [2, 6] .none 0, plan := [.done, .done, .torn (tear numbered fun _ => rfl)],
      cut := some () }]

theorem crash_safety_fixture :
    ∃ loaded bytes, loadFrom numbered (plainValidator numbered)
        (run (System.step (plainValidator numbered)) (fresh ()) cutRun) = .value loaded ∧
      loaded.snapshot .trust = some bytes ∧ (bytes = [1, 5] ∨ bytes = [2, 6]) := by
  obtain ⟨hload, hlast, _⟩ := System.crash_safety (plainValidator_phased numbered) numbered_version (fresh_begins ())
    cutRun ⟨rfl, rfl, trivial⟩ (by decide)
  obtain ⟨loaded, hr, hsnapshot⟩ := hload () (by rintro _ _ (_ | _) _ _ _ <;> rfl)
  obtain ⟨bytes, hbytes, _, hgood⟩ := hsnapshot .trust [1, 5] (by decide)
  refine ⟨loaded, bytes, hr, hbytes, hgood.imp_right fun hsince => ?_⟩
  obtain ⟨_, _, hcommand⟩ := hlast [_] _ rfl (by simp [Operation.Clean, persist]) .trust bytes hsince
  cases hcommand
  rfl

end StorageFixture

end MochiSyscalls.CertificateDatabase
