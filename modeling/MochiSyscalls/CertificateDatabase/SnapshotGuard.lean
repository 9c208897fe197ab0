import MochiSyscalls.CertificateDatabase.FaultyDisk

/-! # The guarded slots of the certificate database

For each kind one slot is guarded: it holds the last snapshot that was persisted or one whose persist
did not return since, and the other slot holds such a snapshot, an older one or nothing valid. The
caller's state and the state file name the guarded slot, and a write goes to the other one. Every
operation keeps this, whatever the disk does. -/

namespace MochiSyscalls.CertificateDatabase
open Foundations Words Bytes Effects Outcome Function
set_option autoImplicit false

/-- The last snapshot of each kind whose persist returned `Ok`, and the ones taken to be persisted since. -/
structure Ledger where
  last : SnapshotKind → Option (List UInt8)
  since : SnapshotKind → List (List UInt8)

namespace Ledger

def empty : Ledger := { last := fun _ => none, since := fun _ => [] }

def offered (ledger : Ledger) (kind : SnapshotKind) (bytes : List UInt8) : Ledger :=
  { ledger with since := Function.update ledger.since kind (ledger.since kind ++ [bytes]) }

def committed (ledger : Ledger) (kind : SnapshotKind) (bytes : List UInt8) : Ledger :=
  { last := Function.update ledger.last kind (some bytes), since := Function.update ledger.since kind [] }

def Good (ledger : Ledger) (kind : SnapshotKind) (bytes : List UInt8) : Prop :=
  ledger.last kind = some bytes ∨ bytes ∈ ledger.since kind

end Ledger

/-! ## Slots under writes -/

theorem slotPath_inj {kind kind' : SnapshotKind} {slot slot' : Slot} (h : slotPath kind slot = slotPath kind' slot') :
    kind = kind' ∧ slot = slot' := by
  cases kind <;> cases kind' <;> cases slot <;> cases slot' <;> first | exact ⟨rfl, rfl⟩ | cases h

theorem slotPath_ne_state (kind : SnapshotKind) (slot : Slot) : slotPath kind slot ≠ .state := by
  cases kind <;> cases slot <;> exact nofun

section

variable {sha : Sha256} {verdict : Verdict}
  {files files' : Files} {ledger ledger' : Ledger} {kind : SnapshotKind} {slot : Slot}

theorem candidateAt_update_of_ne {path : StoragePath} (h : slotPath kind slot ≠ path) (contents : Option (List UInt8)) :
    candidateAt verdict (Function.update files path contents) kind slot = candidateAt verdict files kind slot := by
  unfold candidateAt
  rw [show update files path contents (slotPath kind slot) = files (slotPath kind slot) from
    update_of_ne h ..]

theorem candidateAt_update_self (bytes : List UInt8) :
    candidateAt verdict (Function.update files (slotPath kind slot) (some bytes)) kind slot =
      (verdict kind bytes).map fun metadata => { slot, metadata, bytes } := by
  unfold candidateAt
  rw [show update files (slotPath kind slot) (some bytes) (slotPath kind slot) = some bytes from
    update_self ..]
  rfl

variable {c : Candidate}

theorem slot_of_candidateAt (h : candidateAt verdict files kind slot = some c) : c.slot = slot :=
  (candidateAt_eq_some.mp h).1

theorem Broken.of_state (h : Broken sha verdict files .state files') {stored : Option DatabaseState}
    (hstored : storedState sha (files .state) = .value stored) :
    (∀ kind slot, candidateAt verdict files' kind slot = candidateAt verdict files kind slot) ∧
      (storedState sha (files' .state) = .value stored ∨ storedState sha (files' .state) = .value none) := by
  cases h with
  | unchanged => exact ⟨fun _ _ => rfl, .inl hstored⟩
  | torn tear =>
    refine ⟨fun kind slot => candidateAt_update_of_ne (slotPath_ne_state kind slot) _, .inr ?_⟩
    obtain ⟨e, he⟩ := tear.state
    rw [show update files .state (some (tear.contents .state)) .state = _ from update_self ..]
    show (DatabaseState.decode sha (tear.contents .state)).toOption = _
    rw [he]
    rfl

theorem Broken.of_slot (h : Broken sha verdict files (slotPath kind slot) files') : files' .state = files .state ∧
      (∀ kind' slot', ¬ (kind' = kind ∧ slot' = slot) →
        candidateAt verdict files' kind' slot' = candidateAt verdict files kind' slot') ∧
      (candidateAt verdict files' kind slot = candidateAt verdict files kind slot ∨
        candidateAt verdict files' kind slot = none) := by
  cases h with
  | unchanged => exact ⟨rfl, fun _ _ _ => rfl, .inl rfl⟩
  | torn tear =>
    refine ⟨update_of_ne (slotPath_ne_state kind slot).symm .., fun kind' slot' hne => ?_, .inr ?_⟩
    · exact candidateAt_update_of_ne (fun h => hne (slotPath_inj h)) _
    · rw [candidateAt_update_self, tear.slot]
      rfl

/-! ## The guarded slot -/

/-- The slot holds a good snapshot, and the other slot a good one, an older one or none. -/
structure Guarded (verdict : Verdict) (files : Files) (ledger : Ledger)
    (kind : SnapshotKind) (slot : Slot) (c : Candidate) : Prop where
  held : candidateAt verdict files kind slot = some c
  good : ledger.Good kind c.bytes
  other : ∀ c', candidateAt verdict files kind slot.inactive = some c' →
    ledger.Good kind c'.bytes ∨ c'.metadata.snapshotVersion < c.metadata.snapshotVersion

def Holds (verdict : Verdict) (files : Files) (ledger : Ledger) (kind : SnapshotKind) (slot : Slot) : Prop :=
  (ledger.last kind).isSome → ∃ c, Guarded verdict files ledger kind slot c

def Agrees (verdict : Verdict) (files : Files) (state : DatabaseState) (kind : SnapshotKind) : Prop :=
  ((state.metadata kind).snapshotVersion = 0 ∧ candidateAt verdict files kind (state.activeSlot kind) = none) ∨
    ∃ c, candidateAt verdict files kind (state.activeSlot kind) = some c ∧
      metadataMatches (state.metadata kind) c.metadata = true

def Sits (verdict : Verdict) (files : Files) (ledger : Ledger) (state : DatabaseState) (kind : SnapshotKind) : Prop :=
  Agrees verdict files state kind ∧ Holds verdict files ledger kind (state.activeSlot kind)

def Ledger.Extends (ledger' ledger : Ledger) : Prop :=
  ledger'.last = ledger.last ∧ ∀ kind bytes, bytes ∈ ledger.since kind → bytes ∈ ledger'.since kind

variable {bytes : List UInt8}

theorem Ledger.Extends.good (h : ledger'.Extends ledger) (hgood : ledger.Good kind bytes) :
    ledger'.Good kind bytes := by
  unfold Ledger.Good
  rw [h.1]
  exact hgood.imp_right (h.2 kind bytes)

theorem Holds.congr (hext : ledger'.Extends ledger) (h : Holds verdict files ledger kind slot)
    (hsame : candidateAt verdict files' kind slot = candidateAt verdict files kind slot)
    (hother : ∀ c', candidateAt verdict files' kind slot.inactive = some c' →
      candidateAt verdict files kind slot.inactive = some c' ∨ ledger'.Good kind c'.bytes) :
    Holds verdict files' ledger' kind slot := by
  intro hlast
  rw [hext.1] at hlast
  obtain ⟨c, hc⟩ := h hlast
  refine ⟨c, hsame.trans hc.held, hext.good hc.good, fun c' hc' => ?_⟩
  obtain hold | hgood := hother c' hc'
  · exact (hc.other c' hold).imp_left hext.good
  · exact .inl hgood

variable {state : DatabaseState}

theorem Sits.congr (hext : ledger'.Extends ledger) (h : Sits verdict files ledger state kind)
    (hsame : candidateAt verdict files' kind (state.activeSlot kind) =
      candidateAt verdict files kind (state.activeSlot kind))
    (hother : ∀ c', candidateAt verdict files' kind (state.activeSlot kind).inactive = some c' →
      candidateAt verdict files kind (state.activeSlot kind).inactive = some c' ∨ ledger'.Good kind c'.bytes) :
    Sits verdict files' ledger' state kind := by
  refine ⟨?_, h.2.congr hext hsame hother⟩
  unfold Agrees
  rw [hsame]
  exact h.1

theorem Sits.of_slots (h : Sits verdict files ledger state kind)
    (hslots : ∀ slot, candidateAt verdict files' kind slot = candidateAt verdict files kind slot) :
    Sits verdict files' ledger state kind :=
  h.congr ⟨rfl, fun _ _ h => h⟩ (hslots _) fun _ hc => .inl ((hslots _).symm.trans hc)

variable {state' : DatabaseState}

theorem Sits.of_state (h : Sits verdict files ledger state kind)
    (hslot : state'.activeSlot kind = state.activeSlot kind)
    (hmetadata : ∀ m, metadataMatches (state'.metadata kind) m = metadataMatches (state.metadata kind) m)
    (hversion : (state'.metadata kind).snapshotVersion = (state.metadata kind).snapshotVersion) :
    Sits verdict files ledger state' kind := by
  unfold Sits Agrees at h ⊢
  rw [hslot, hversion]
  simp only [hmetadata]
  exact h

/-! ## What a load selects -/

theorem newest_of_older {c' : Candidate} (h : c'.metadata.snapshotVersion < c.metadata.snapshotVersion) :
    newest (some c) (some c') = some c ∧ newest (some c') (some c) = some c := by
  have hno : ¬ c'.metadata.newer c.metadata := by
    rintro (hlt | ⟨heq, _⟩)
    · exact UInt64.lt_asymm h hlt
    · exact UInt64.lt_irrefl _ (heq ▸ h)
  exact ⟨if_neg hno, if_pos (.inl h)⟩

theorem Guarded.newest (h : Guarded verdict files ledger kind slot c) (first : Slot) :
    ∃ c', newest (candidateAt verdict files kind first) (candidateAt verdict files kind first.inactive) = some c' ∧
      Guarded verdict files ledger kind c'.slot c' := by
  have hself : Guarded verdict files ledger kind c.slot c := by
    rw [slot_of_candidateAt h.held]
    exact h
  have hslots : (candidateAt verdict files kind first = some c ∧
      candidateAt verdict files kind first.inactive = candidateAt verdict files kind slot.inactive) ∨
      (candidateAt verdict files kind first = candidateAt verdict files kind slot.inactive ∧
        candidateAt verdict files kind first.inactive = some c) := by
    obtain rfl | rfl := Slot.eq_or_inactive slot first
    · exact .inl ⟨h.held, rfl⟩
    · rw [Slot.inactive_inactive]
      exact .inr ⟨rfl, h.held⟩
  cases hother : candidateAt verdict files kind slot.inactive with
  | none =>
    rw [hother] at hslots
    obtain ⟨hx, hy⟩ | ⟨hx, hy⟩ := hslots <;> rw [hx, hy] <;> exact ⟨c, rfl, hself⟩
  | some c' =>
    rw [hother] at hslots
    obtain hgood | hold := h.other c' hother
    · have hself' : Guarded verdict files ledger kind c'.slot c' := by
        rw [slot_of_candidateAt hother]
        refine ⟨hother, hgood, fun c'' hc'' => .inl ?_⟩
        rw [Slot.inactive_inactive, h.held] at hc''
        cases hc''
        exact h.good
      obtain ⟨hx, hy⟩ | ⟨hx, hy⟩ := hslots <;> rw [hx, hy]
      · exact (newest_cases (some c) (some c')).elim (⟨c, ·, hself⟩) (⟨c', ·, hself'⟩)
      · exact (newest_cases (some c') (some c)).elim (⟨c', ·, hself'⟩) (⟨c, ·, hself⟩)
    · obtain ⟨hn, hn'⟩ := newest_of_older hold
      obtain ⟨hx, hy⟩ | ⟨hx, hy⟩ := hslots <;> rw [hx, hy]
      · exact ⟨c, hn, hself⟩
      · exact ⟨c, hn', hself⟩

/-! ## Consistency

What every operation keeps, whatever the disk does. -/

structure Consistent (sha : Sha256) (verdict : Verdict) (files : Files) (ledger : Ledger)
    (stored memory : Option DatabaseState) (count : ℕ) : Prop where
  decodes : storedState sha (files .state) = .value stored
  safe : ∀ kind, ∃ slot, Holds verdict files ledger kind slot
  held : ∀ s, memory = some s → ∀ kind, Sits verdict files ledger s kind
  kept : ∀ s, stored = some s → ∀ kind, (ledger.last kind).isSome → Sits verdict files ledger s kind
  same : ∀ s s', stored = some s → memory = some s' → s = s'
  generation : ∀ s, stored = some s ∨ memory = some s → s.generation.toNat ≤ count

variable {stored memory : Option DatabaseState} {count : ℕ}

section

variable (h : Consistent sha verdict files ledger stored memory count)
include h

theorem selected_none (hc : chosen verdict files stored kind = none) :
    (∀ slot, candidateAt verdict files kind slot = none) ∧ ledger.last kind = none := by
  have hnone : ∀ slot, candidateAt verdict files kind slot = none := by
    intro slot
    by_contra hne
    have hsome := chosen_isSome (Option.isSome_iff_ne_none.mpr hne) stored
    rw [hc] at hsome
    cases hsome
  refine ⟨hnone, ?_⟩
  by_contra hlast
  obtain ⟨slot, hslot⟩ := h.safe kind
  obtain ⟨c, hguard⟩ := hslot (Option.isSome_iff_ne_none.mpr hlast)
  have hheld := hguard.held
  rw [hnone] at hheld
  cases hheld

theorem selected_some (hc : chosen verdict files stored kind = some c) :
    candidateAt verdict files kind c.slot = some c ∧ Holds verdict files ledger kind c.slot := by
  obtain ⟨slot, hslot⟩ : ∃ slot, chosen verdict files stored kind = candidateAt verdict files kind slot :=
    chosen_cases files stored kind
  rw [hc] at hslot
  refine ⟨by rw [slot_of_candidateAt hslot.symm]; exact hslot.symm, fun hlast => ?_⟩
  obtain ⟨slot', hsafe⟩ := h.safe kind
  obtain ⟨c', hguard⟩ := hsafe hlast
  obtain ⟨c'', hnewest, hguard''⟩ := hguard.newest (firstSlot stored kind)
  unfold chosen at hc
  dsimp only at hc
  split at hc
  · -- the slot that the state names holds what the state describes
    rename_i hdescribes
    cases stored with
    | none => cases hdescribes
    | some s =>
      obtain ⟨c₁, hc₁⟩ := (h.kept s rfl kind hlast).2 hlast
      have heq : candidateAt verdict files kind (s.activeSlot kind) = some c := hc
      rw [slot_of_candidateAt heq]
      exact ⟨c₁, hc₁⟩
  · cases hnewest.symm.trans hc
    exact ⟨_, hguard''⟩

end

theorem metadataMatches_loaded (old : SnapshotMetadata) (c : Candidate) :
    metadataMatches (loadedMetadata old c) c.metadata = true := by
  unfold metadataMatches loadedMetadata
  simp

theorem Consistent.selected (h : Consistent sha verdict files ledger stored memory count) (kind : SnapshotKind) :
    Sits verdict files ledger
      (applySelected stored (chosen verdict files stored .trust) (chosen verdict files stored .revocations)).1 kind := by
  obtain ⟨hnone, hsome⟩ := applySelected_kind stored (chosen verdict files stored) kind
  unfold Sits Agrees
  cases hc : chosen verdict files stored kind with
  | none =>
    obtain ⟨hslot, hmetadata⟩ := hnone hc
    obtain ⟨hempty, hlast⟩ := selected_none h hc
    rw [hslot, hmetadata]
    refine ⟨.inl ⟨rfl, hempty _⟩, fun hsome => ?_⟩
    rw [hlast] at hsome
    cases hsome
  | some c =>
    obtain ⟨hslot, hmetadata⟩ := hsome c hc
    obtain ⟨hheld, hholds⟩ := selected_some h hc
    rw [hslot, hmetadata]
    exact ⟨.inr ⟨c, hheld, metadataMatches_loaded _ c⟩, hholds⟩

/-! ## What the operations keep -/

def loadedState (memory : Option DatabaseState) : Outcome StorageError LoadedDatabase → Option DatabaseState
  | .value loaded => some loaded.state
  | _ => memory

theorem Consistent.mono {count' : ℕ} (h : Consistent sha verdict files ledger stored memory count)
    (hle : count ≤ count') : Consistent sha verdict files ledger stored memory count' :=
  ⟨h.decodes, h.safe, h.held, h.kept, h.same, fun s hs => (h.generation s hs).trans hle⟩

theorem Consistent.forget (h : Consistent sha verdict files ledger stored memory count) :
    Consistent sha verdict files ledger stored none count := by
  refine ⟨h.decodes, h.safe, nofun, h.kept, nofun, ?_⟩
  rintro s (hs | hs)
  · exact h.generation s (.inl hs)
  · cases hs

theorem Ledger.Extends.refl (ledger : Ledger) : ledger.Extends ledger := ⟨rfl, fun _ _ h => h⟩

theorem Consistent.broken_state (h : Consistent sha verdict files ledger stored memory count)
    (hbroken : Broken sha verdict files .state files') :
    ∃ stored', Consistent sha verdict files' ledger stored' memory count := by
  obtain ⟨hslots, hstored⟩ := hbroken.of_state h.decodes
  have hholds : ∀ {kind slot}, Holds verdict files ledger kind slot → Holds verdict files' ledger kind slot :=
    fun hh => hh.congr (.refl ledger) (hslots ..) fun c' hc' => .inl ((hslots ..).symm.trans hc')
  have hsits : ∀ {s kind}, Sits verdict files ledger s kind → Sits verdict files' ledger s kind :=
    fun hs => hs.of_slots (hslots _)
  have hsafe : ∀ kind, ∃ slot, Holds verdict files' ledger kind slot := fun kind => (h.safe kind).imp fun _ => hholds
  obtain hstored | hstored := hstored
  · exact ⟨stored, hstored, hsafe, fun s hs kind => hsits (h.held s hs kind),
      fun s hs kind hlast => hsits (h.kept s hs kind hlast), h.same, h.generation⟩
  · refine ⟨none, hstored, hsafe, fun s hs kind => hsits (h.held s hs kind), nofun, nofun, ?_⟩
    rintro s (hs | hs)
    · cases hs
    · exact h.generation s (.inr hs)

theorem consistent_commit (hsits : ∀ kind, Sits verdict files ledger state kind)
    (hgeneration : state.generation.toNat ≤ count) :
    Consistent sha verdict (Function.update files .state (some (state.encode sha))) ledger (some state) (some state)
      count := by
  have hslots : ∀ kind slot, candidateAt verdict (update files .state (some (state.encode sha))) kind slot =
      candidateAt verdict files kind slot := fun kind slot => candidateAt_update_of_ne (slotPath_ne_state kind slot) _
  have hsits' := fun kind => (hsits kind).of_slots (hslots kind)
  refine ⟨?_, fun kind => ⟨_, (hsits' kind).2⟩, ?_, ?_, ?_, ?_⟩
  · rw [show update files .state (some (state.encode sha)) .state = _ from update_self ..]
    exact storedState_encode sha state
  · rintro s ⟨⟩
    exact hsits'
  · rintro s ⟨⟩ kind _
    exact hsits' kind
  · rintro s s' ⟨⟩ ⟨⟩
    rfl
  · rintro s (⟨⟨⟩⟩ | ⟨⟨⟩⟩) <;> exact hgeneration

theorem generation_succ {generation : UInt64} (h : generation ≠ u64Max) : (generation + 1).toNat = generation.toNat + 1 := by
  have hne : generation.toNat ≠ u64Max.toNat := fun he => h (UInt64.toNat_inj.mp he)
  have hmax : u64Max.toNat = 18446744073709551615 := by decide
  have hone : (1 : UInt64).toNat = 1 := by decide
  have hlt := generation.toNat_lt
  rw [UInt64.toNat_add, hone]
  omega

theorem Consistent.next_generation (h : Consistent sha verdict files ledger stored (some state) count)
    (hgeneration : state.generation ≠ u64Max) : (state.generation + 1).toNat ≤ count + 1 := by
  rw [generation_succ hgeneration]
  exact Nat.succ_le_succ (h.generation state (.inr rfl))

theorem Consistent.load (h : Consistent sha verdict files ledger stored memory count)
    {r : Outcome StorageError LoadedDatabase} (hloads : Loads sha verdict files stored
      (applySelected stored (chosen verdict files stored .trust) (chosen verdict files stored .revocations)) r files') :
    ∃ stored', Consistent sha verdict files' ledger stored' (loadedState memory r) (count + 1) := by
  have hsits := h.selected
  cases hloads with
  | failed e => exact ⟨stored, h.mono (Nat.le_succ _)⟩
  | unrepaired e hbroken => exact (h.mono (Nat.le_succ _)).broken_state hbroken
  | kept loaded hstate hkept hsnapshot =>
    have hstored := applySelected_of_unchanged hkept
    refine ⟨stored, h.decodes, h.safe, ?_, h.kept, ?_, ?_⟩
    · rintro s ⟨⟩
      rw [hstate]
      exact hsits
    · rintro s s' hs ⟨⟩
      rw [hstate]
      exact Option.some.inj (hs.symm.trans hstored)
    · rintro s (hs | ⟨⟨⟩⟩)
      · exact (h.generation s (.inl hs)).trans (Nat.le_succ _)
      · rw [hstate]
        exact (h.generation _ (.inl hstored)).trans (Nat.le_succ _)
  | repaired loaded hstate hgeneration hsnapshot =>
    have hnext : (applySelected stored (chosen verdict files stored .trust)
        (chosen verdict files stored .revocations)).1.repaired.generation.toNat ≤ count + 1 := by
      refine (generation_succ hgeneration).le.trans (Nat.succ_le_succ ?_)
      rw [applySelected_generation]
      cases hs : stored with
      | none => exact Nat.zero_le _
      | some s => exact h.generation s (.inl hs)
    unfold loadedState
    dsimp only
    rw [hstate]
    exact ⟨_, consistent_commit (fun kind => (hsits kind).of_state rfl (fun _ => rfl) rfl) hnext⟩

variable {lastCheckedAt : UInt64}

theorem Consistent.check (h : Consistent sha verdict files ledger stored (some state) count) {r : Outcome StorageError Unit}
    (hchecks : Checks sha verdict files state kind lastCheckedAt r files' state') :
    ∃ stored', Consistent sha verdict files' ledger stored' (some state') (count + 1) := by
  cases hchecks with
  | failed e hbroken => exact (h.mono (Nat.le_succ _)).broken_state hbroken
  | done hgeneration =>
    refine ⟨_, consistent_commit (fun kind' => (h.held state rfl kind').of_state ?_ ?_ ?_) ?_⟩
    · cases kind <;> cases kind' <;> rfl
    · intro m
      cases kind <;> cases kind' <;> rfl
    · cases kind <;> cases kind' <;> rfl
    · rw [show (state.checked kind lastCheckedAt).generation = state.generation + 1 by cases kind <;> rfl]
      exact h.next_generation hgeneration

theorem Ledger.offered_extends (ledger : Ledger) (kind : SnapshotKind) (bytes : List UInt8) :
    (ledger.offered kind bytes).Extends ledger := by
  refine ⟨rfl, fun kind' bytes' hb => ?_⟩
  unfold Ledger.offered
  dsimp only
  by_cases hk : kind' = kind
  · subst hk
    rw [update_self]
    exact List.mem_append_left _ hb
  · rw [update_of_ne hk]
    exact hb

theorem Ledger.offered_good (ledger : Ledger) (kind : SnapshotKind) (bytes : List UInt8) :
    (ledger.offered kind bytes).Good kind bytes := by
  refine .inr ?_
  unfold Ledger.offered
  dsimp only
  rw [update_self]
  exact List.mem_append_right _ (List.mem_singleton_self bytes)

section

variable (h : Consistent sha verdict files ledger stored (some state) count)
include h

theorem Consistent.write_slot (hext : ledger'.Extends ledger) (hstate : files' .state = files .state)
    (hslots : ∀ kind' slot', ¬ (kind' = kind ∧ slot' = (state.activeSlot kind).inactive) →
      candidateAt verdict files' kind' slot' = candidateAt verdict files kind' slot')
    (htarget : ∀ c', candidateAt verdict files' kind (state.activeSlot kind).inactive = some c' →
      candidateAt verdict files kind (state.activeSlot kind).inactive = some c' ∨ ledger'.Good kind c'.bytes) :
    Consistent sha verdict files' ledger' stored (some state) count := by
  have hsits : ∀ kind', Sits verdict files' ledger' state kind' := by
    intro kind'
    refine (h.held state rfl kind').congr hext (hslots _ _ ?_) fun c' hc' => ?_
    · rintro ⟨rfl, hslot⟩
      exact Slot.inactive_ne _ hslot.symm
    · by_cases hk : kind' = kind
      · subst hk
        exact htarget c' hc'
      · rw [hslots _ _ fun hkk => hk hkk.1] at hc'
        exact .inl hc'
  refine ⟨hstate ▸ h.decodes, fun kind' => ⟨_, (hsits kind').2⟩, ?_, ?_, h.same, h.generation⟩
  · rintro s ⟨⟩
    exact hsits
  · intro s hs kind' _
    rw [h.same s state hs rfl]
    exact hsits kind'

theorem Consistent.broken_slot
    (hbroken : Broken sha verdict files (slotPath kind (state.activeSlot kind).inactive) files') :
    Consistent sha verdict files' (ledger.offered kind bytes) stored (some state) count := by
  obtain ⟨hstate, hslots, htarget⟩ := hbroken.of_slot
  refine h.write_slot (ledger.offered_extends kind bytes) hstate hslots fun c' hc' => .inl ?_
  obtain htarget | htarget := htarget
  · exact htarget.symm.trans hc'
  · rw [htarget] at hc'
    cases hc'

theorem Consistent.written_slot :
    Consistent sha verdict (Function.update files (slotPath kind (state.activeSlot kind).inactive) (some bytes))
      (ledger.offered kind bytes) stored (some state) count := by
  refine h.write_slot (ledger.offered_extends kind bytes) (update_of_ne (slotPath_ne_state _ _).symm ..)
    (fun kind' slot' hne => candidateAt_update_of_ne (fun hp => hne (slotPath_inj hp)) _) fun c' hc' => .inr ?_
  rw [candidateAt_update_self] at hc'
  obtain ⟨m, _, rfl⟩ := Option.map_eq_some_iff.mp hc'
  exact ledger.offered_good kind bytes

end

theorem Sits.of_ledger (h : Sits verdict files ledger state kind)
    (hlast : ledger'.last kind = ledger.last kind) (hsince : ledger'.since kind = ledger.since kind) :
    Sits verdict files ledger' state kind := by
  have hgood : ∀ bytes, ledger'.Good kind bytes ↔ ledger.Good kind bytes := by
    intro bytes
    unfold Ledger.Good
    rw [hlast, hsince]
  refine ⟨h.1, fun hl => ?_⟩
  rw [hlast] at hl
  obtain ⟨c, hc⟩ := h.2 hl
  exact ⟨c, hc.held, (hgood _).mpr hc.good, fun c' hc' => (hc.other c' hc').imp_left (hgood _).mpr⟩

theorem persisted_of_ne (state : DatabaseState) {kind' : SnapshotKind} (hne : kind' ≠ kind) (m : ValidatedSnapshot)
    (etag : Etag) (lastCheckedAt : UInt64) :
    (state.persisted kind m etag lastCheckedAt).activeSlot kind' = state.activeSlot kind' ∧
      (state.persisted kind m etag lastCheckedAt).metadata kind' = state.metadata kind' := by
  cases kind <;> cases kind' <;> first | exact ⟨rfl, rfl⟩ | exact absurd rfl hne

section

variable (hversion : ∀ kind bytes m, verdict kind bytes = some m → m.snapshotVersion ≠ 0)
include hversion

theorem sits_persisted {m : ValidatedSnapshot} {etag : Etag}
    (hm : verdict kind bytes = some m) (hnew : ¬ state.rollsBack kind m)
    (h : Consistent sha verdict files ledger stored (some state) count) (hgood : ledger'.Good kind bytes)
    (hsame : ∀ kind' ≠ kind, ledger'.last kind' = ledger.last kind' ∧ ledger'.since kind' = ledger.since kind')
    (kind' : SnapshotKind) :
    Sits verdict (Function.update files (slotPath kind (state.activeSlot kind).inactive) (some bytes)) ledger'
      (state.persisted kind m etag lastCheckedAt) kind' := by
  by_cases hk : kind' = kind
  · subst hk
    have hslot : (state.persisted kind' m etag lastCheckedAt).activeSlot kind' = (state.activeSlot kind').inactive := by
      cases kind' <;> rfl
    have hmetadata : (state.persisted kind' m etag lastCheckedAt).metadata kind' =
        ⟨m.snapshotVersion, m.generatedAt, m.expiresAt, lastCheckedAt, etag⟩ := by
      cases kind' <;> rfl
    have hheld : candidateAt verdict
        (update files (slotPath kind' (state.activeSlot kind').inactive) (some bytes)) kind'
        (state.activeSlot kind').inactive = some { slot := (state.activeSlot kind').inactive, metadata := m, bytes } := by
      rw [candidateAt_update_self, hm]
      rfl
    unfold Sits Agrees
    rw [hslot, hmetadata]
    refine ⟨.inr ⟨_, hheld, ?_⟩, fun _ => ⟨_, hheld, hgood, fun c' hc' => .inr ?_⟩⟩
    · unfold metadataMatches
      simp
    · rw [Slot.inactive_inactive, candidateAt_update_of_ne fun hp => Slot.inactive_ne _ (slotPath_inj hp).2.symm] at hc'
      obtain ⟨_, hnone⟩ | ⟨c, hc, hmatches⟩ := (h.held state rfl kind').1
      · rw [hnone] at hc'
        cases hc'
      · cases hc.symm.trans hc'
        unfold metadataMatches at hmatches
        simp only [Bool.and_eq_true, beq_iff_eq] at hmatches
        have hnonzero := hversion _ _ _ (candidateAt_eq_some.mp hc).2.2
        rw [← hmatches.1.1] at hnonzero ⊢
        exact UInt64.not_le.mp fun hle => hnew ⟨hnonzero, hle⟩
  · have hslots : ∀ slot, candidateAt verdict
        (update files (slotPath kind (state.activeSlot kind).inactive) (some bytes)) kind' slot =
        candidateAt verdict files kind' slot :=
      fun slot => candidateAt_update_of_ne (fun hp => hk (slotPath_inj hp).1) _
    obtain ⟨hslot, hmetadata⟩ := persisted_of_ne state hk m etag lastCheckedAt
    have hstate := ((h.held state rfl kind').of_slots hslots).of_state hslot (fun _ => by rw [hmetadata]) (by rw [hmetadata])
    exact hstate.of_ledger (hsame kind' hk).1 (hsame kind' hk).2

theorem Consistent.persist {etag : Etag}
    {r : Outcome StorageError Slot} (h : Consistent sha verdict files ledger stored (some state) count)
    (hpersists : Persists sha verdict files state kind bytes etag lastCheckedAt r files' state') {returned : Bool}
    (hreturned : returned = true → r.isValue = true) :
    ∃ stored', Consistent sha verdict files' (if state.Takes verdict kind bytes then
        if returned = true then ledger.committed kind bytes else ledger.offered kind bytes
      else ledger) stored' (some state') (count + 1) := by
  have h' := h.mono (Nat.le_succ count)
  cases hpersists with
  | refused e hno =>
    rw [if_neg hno]
    exact ⟨stored, h'⟩
  | unwritten e htakes hbroken =>
    rw [if_pos htakes, if_neg fun hr => Bool.false_ne_true (hreturned hr)]
    exact ⟨stored, h'.broken_slot hbroken⟩
  | uncommitted e htakes hbroken =>
    rw [if_pos htakes, if_neg fun hr => Bool.false_ne_true (hreturned hr)]
    exact h'.written_slot.broken_state hbroken
  | @done m hm hnew hgeneration =>
    have hnext : (state.persisted kind m etag lastCheckedAt).generation.toNat ≤ count + 1 := by
      rw [show (state.persisted kind m etag lastCheckedAt).generation = state.generation + 1 by cases kind <;> rfl]
      exact h.next_generation hgeneration
    rw [if_pos ⟨m, hm, hnew⟩]
    refine ⟨_, consistent_commit (sits_persisted hversion hm hnew h ?_ ?_) hnext⟩
    · split
      · exact .inl (update_self ..)
      · exact ledger.offered_good kind bytes
    · intro kind' hne
      split
      · exact ⟨update_of_ne hne .., update_of_ne hne ..⟩
      · exact ⟨rfl, update_of_ne hne ..⟩

end

end

end MochiSyscalls.CertificateDatabase
