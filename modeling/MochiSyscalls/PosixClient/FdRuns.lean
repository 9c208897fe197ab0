import MochiSyscalls.PosixClient.FdOperations

/-! # Runs of a descriptor table

The history of a table beside the table: the tokens issued and spent, the handles the caller holds, and the
handles closed. A caller uses tokens of this table only and passes in handles it holds; on an error it keeps
them. A cloned handle is a new one. -/

namespace MochiSyscalls.PosixClient
open Foundations Leases List
set_option autoImplicit false

variable {H ε : Type}

/-- One call, with what `clone_handle` would answer. -/
inductive Call (H ε : Type) where
  | reserveReplacement (fd : ℤ)
  | commitReplacement (replacement : FdReplacement) (entry : Entry H)
  | cancelReplacement (replacement : FdReplacement)
  | reserveFrom (minimum limit : ℤ)
  | commitReservation (reservation : FdReservation) (entry : Entry H)
  | cancelReservation (reservation : FdReservation)
  | reservePairFrom (minimum limit : ℤ)
  | commitPair (first second : FdReservation) (entry₁ entry₂ : Entry H)
  | reserveUpTo (minimum limit : ℤ) (maximum : ℕ)
  | commitGroup (group : FdReservations) (entries : List (Entry H)) (outputLen : ℕ)
  | cancelGroup (group : FdReservations)
  | clearReservations
  | install (entry : Entry H)
  | installFrom (minimum limit : ℤ) (entry : Entry H)
  | installAt (fd : ℤ) (entry : Entry H)
  | setDescriptorFlags (fd : ℤ) (flags : UInt32)
  | take (fd : ℤ)
  | close (fd : ℤ)
  | duplicate (fd : ℤ) (clone : H → UInt64 → Except ε H)
  | duplicateFrom (fd minimum limit : ℤ) (closeOnExec : Bool) (clone : H → UInt64 → Except ε H)
  | duplicateTo (sourceFd targetFd : ℤ) (clone : H → UInt64 → Except ε H)
  | duplicateForSpawn (sourceFd targetFd : ℤ) (clone : H → UInt64 → Except ε H)
  | closeForSpawn (fd : ℤ)
  | closeOnExec

namespace Call

def commits : Call H ε → List Token
  | .commitReplacement r _ => [.replacement r]
  | .commitReservation r _ => [.single r]
  | .commitPair r₁ r₂ _ _ => [.single r₁, .single r₂]
  | .commitGroup g _ _ => [.group g]
  | _ => []

def cancels : Call H ε → List Token
  | .cancelReplacement r => [.replacement r]
  | .cancelReservation r => [.single r]
  | .cancelGroup g => [.group g]
  | _ => []

def passed : Call H ε → List H
  | .commitReplacement _ entry => [entry.handle]
  | .commitReservation _ entry => [entry.handle]
  | .commitPair _ _ entry₁ entry₂ => [entry₁.handle, entry₂.handle]
  | .commitGroup _ entries _ => entries.map Entry.handle
  | .install entry => [entry.handle]
  | .installFrom _ _ entry => [entry.handle]
  | .installAt _ entry => [entry.handle]
  | _ => []

end Call

/-- How a call ended: the table, the tokens it issued and spent, and the handles that changed place. -/
structure Report (H : Type) where
  failed : Bool
  table : FdTable H
  issued : List Token := []
  spent : List Token := []
  taken : List H := []
  returned : List H := []
  cloned : List H := []
  closed : List H := []

def operations (clone : H → UInt64 → Except ε H) : HandleOps H ε := { clone, cloned := [], closed := [] }

def noClone : HandleOps H ε := operations fun h _ => .ok h

def report {α : Type} (result : Except (FdError ε) α × FdTable H × HandleOps H ε) (taken : List H) : Report H :=
  match result with
  | (.error _, table, o) => { failed := true, table, cloned := o.cloned, closed := o.closed }
  | (.ok _, table, o) => { failed := false, table, taken, cloned := o.cloned, closed := o.closed }

def perform (t : FdTable H) : Call H ε → Report H
  | .reserveReplacement fd =>
    match t.reserveReplacement fd with
    | (.error _, table) => { failed := true, table }
    | (.ok (r, _), table) => { failed := false, table, issued := [.replacement r] }
  | .commitReplacement r entry =>
    match t.commitReplacement r entry with
    | (.error _, table) => { failed := true, table }
    | (.ok displaced, table) =>
      { failed := false, table, spent := [.replacement r], taken := [entry.handle],
        returned := (displaced.map Entry.handle).toList }
  | .cancelReplacement r =>
    { failed := !(t.cancelReplacement r).1, table := (t.cancelReplacement r).2, spent := [.replacement r] }
  | .reserveFrom minimum limit =>
    match t.reserveFrom minimum limit with
    | (.error _, table) => { failed := true, table }
    | (.ok r, table) => { failed := false, table, issued := [.single r] }
  | .commitReservation r entry =>
    match t.commitReservation r entry with
    | (.error _, table) => { failed := true, table }
    | (.ok _, table) => { failed := false, table, spent := [.single r], taken := [entry.handle] }
  | .cancelReservation r =>
    { failed := !(t.cancelReservation r).1, table := (t.cancelReservation r).2, spent := [.single r] }
  | .reservePairFrom minimum limit =>
    match t.reservePairFrom minimum limit with
    | (.error _, table) => { failed := true, table }
    | (.ok (r₁, r₂), table) => { failed := false, table, issued := [.single r₁, .single r₂] }
  | .commitPair r₁ r₂ entry₁ entry₂ =>
    match t.commitPair r₁ r₂ entry₁ entry₂ with
    | (.error _, table) => { failed := true, table }
    | (.ok _, table) =>
      { failed := false, table, spent := [.single r₁, .single r₂], taken := [entry₁.handle, entry₂.handle] }
  | .reserveUpTo minimum limit maximum =>
    match t.reserveUpTo minimum limit maximum with
    | (.error _, table) => { failed := true, table }
    | (.ok g, table) => { failed := false, table, issued := [.group g] }
  | .commitGroup g entries outputLen =>
    match t.commitGroup g entries outputLen with
    | (.error _, table) => { failed := true, table }
    | (.ok _, table) => { failed := false, table, spent := [.group g], taken := entries.map Entry.handle }
  | .cancelGroup g => { failed := false, table := (t.cancelGroup g).2, spent := [.group g] }
  | .clearReservations => { failed := false, table := t.clearReservations }
  | .install entry =>
    match t.install entry with
    | (.error _, table) => { failed := true, table }
    | (.ok _, table) => { failed := false, table, taken := [entry.handle] }
  | .installFrom minimum limit entry =>
    match t.installFrom minimum limit entry with
    | (.error _, table) => { failed := true, table }
    | (.ok _, table) => { failed := false, table, taken := [entry.handle] }
  | .installAt fd entry => report (t.installAt fd entry (noClone : HandleOps H ε)) [entry.handle]
  | .setDescriptorFlags fd flags =>
    match (t.setDescriptorFlags fd flags : Except (FdError ε) Unit × FdTable H) with
    | (.error _, table) => { failed := true, table }
    | (.ok _, table) => { failed := false, table }
  | .take fd =>
    match (t.take fd : Except (FdError ε) (Entry H) × FdTable H) with
    | (.error _, table) => { failed := true, table }
    | (.ok entry, table) => { failed := false, table, returned := [entry.handle] }
  | .close fd => report (t.close fd (noClone : HandleOps H ε)) []
  | .duplicate fd clone => report (t.duplicate fd (operations clone)) []
  | .duplicateFrom fd minimum limit closeOnExec clone =>
    report (t.duplicateFrom fd minimum limit closeOnExec (operations clone)) []
  | .duplicateTo sourceFd targetFd clone => report (t.duplicateTo sourceFd targetFd (operations clone)) []
  | .duplicateForSpawn sourceFd targetFd clone => report (t.duplicateForSpawn sourceFd targetFd (operations clone)) []
  | .closeForSpawn fd =>
    { failed := false, table := (t.closeForSpawn fd (noClone : HandleOps H ε)).1,
      cloned := (t.closeForSpawn fd (noClone : HandleOps H ε)).2.cloned,
      closed := (t.closeForSpawn fd (noClone : HandleOps H ε)).2.closed }
  | .closeOnExec =>
    { failed := false, table := (t.closeOnExec (noClone : HandleOps H ε)).1,
      cloned := (t.closeOnExec (noClone : HandleOps H ε)).2.cloned,
      closed := (t.closeOnExec (noClone : HandleOps H ε)).2.closed }

/-! ## One call -/

/-- What holds of a call that does not clear all reservations. -/
structure Sound (t : FdTable H) (c : Call H ε) (r : Report H) : Prop where
  effects : Effects t r.issued r.spent r.table
  spent : ∀ tok ∈ r.spent, tok ∈ c.commits ∨ tok ∈ c.cancels ∧ r.table.entries = t.entries
  cancelled : ∀ tok ∈ c.cancels, tok ∈ r.spent
  committed : r.failed = false → ∀ tok ∈ c.commits, tok ∈ r.spent ∧ tok.lease.Live t.reservations
  failed : r.failed = true → r.table.entries = t.entries ∧ r.taken = [] ∧ r.returned = [] ∧
    (c.commits ≠ [] → r.table = t ∧ r.spent = [])
  taken : r.taken = [] ∨ r.taken = c.passed
  conserved : r.table.handles + r.closed + r.returned = t.handles + r.taken + r.cloned

variable {c : Call H ε} {t : FdTable H}

theorem Sound.refused (hcancels : c.cancels = []) : Sound t c { failed := true, table := t } where
  effects := .nil t
  spent := nofun
  cancelled := by
    rw [hcancels]
    nofun
  committed := nofun
  failed _ := ⟨rfl, rfl, rfl, fun _ => ⟨rfl, rfl⟩⟩
  taken := .inl rfl
  conserved := rfl

variable {t' : FdTable H}

theorem Sound.issued {tokens : List Token} (hcommits : c.commits = [])
    (hcancels : c.cancels = []) (heffects : Effects t tokens [] t') (hentries : t'.entries = t.entries) :
    Sound t c { failed := false, table := t', issued := tokens } where
  effects := heffects
  spent := nofun
  cancelled := by
    rw [hcancels]
    nofun
  committed := by
    rw [hcommits]
    nofun
  failed := nofun
  taken := .inl rfl
  conserved := by
    dsimp only
    rw [FdTable.handles_congr hentries]

theorem Sound.cancelled_one {tok : Token} {failed : Bool} (hcommits : c.commits = [])
    (hcancels : c.cancels = [tok]) (heffect : Effect t [] [tok] t') (hentries : t'.entries = t.entries) :
    Sound t c { failed, table := t', spent := [tok] } where
  effects := heffect.effects
  spent _ h := .inr ⟨hcancels ▸ h, hentries⟩
  cancelled _ h := hcancels ▸ h
  committed := by
    rw [hcommits]
    nofun
  failed _ := ⟨hentries, rfl, rfl, fun hne => absurd hcommits hne⟩
  taken := .inl rfl
  conserved := by
    dsimp only
    rw [FdTable.handles_congr hentries]

theorem Sound.committed_all {returned : List H} (hcancels : c.cancels = [])
    (heffects : Effects t [] c.commits t') (hlive : ∀ tok ∈ c.commits, tok.lease.Live t.reservations)
    (hhandles : t'.handles + returned = t.handles + c.passed) :
    Sound t c { failed := false, table := t', spent := c.commits, taken := c.passed, returned } where
  effects := heffects
  spent tok htok := .inl htok
  cancelled := by
    rw [hcancels]
    nofun
  committed _ tok htok := ⟨htok, hlive tok htok⟩
  failed := nofun
  taken := .inr rfl
  conserved := by
    dsimp only
    rw [Multiset.coe_nil, add_zero, add_zero]
    exact hhandles

theorem Sound.edited {o o' : HandleOps H ε} {failed : Bool} {taken returned : List H}
    (hcommits : c.commits = []) (hcancels : c.cancels = []) (hcloned : o.cloned = []) (hclosed : o.closed = [])
    (hedit : Edit t o t' o' taken returned) (htaken : taken = [] ∨ taken = c.passed)
    (hfailed : failed = true → t'.entries = t.entries ∧ taken = [] ∧ returned = []) :
    Sound t c { failed, table := t', taken, returned, cloned := o'.cloned, closed := o'.closed } where
  effects := (Effect.edit hedit.reservations hedit.next hedit.entries).effects
  spent := nofun
  cancelled := by
    rw [hcancels]
    nofun
  committed := by
    rw [hcommits]
    nofun
  failed h := ⟨(hfailed h).1, (hfailed h).2.1, (hfailed h).2.2, fun hne => absurd hcommits hne⟩
  taken := htaken
  conserved := by
    have hconserved := hedit.conserved
    rw [hcloned, hclosed, Multiset.coe_nil, add_zero, add_zero] at hconserved
    exact hconserved

theorem report_sound {α : Type} (clone : H → UInt64 → Except ε H)
    {result : Except (FdError ε) α × FdTable H × HandleOps H ε} (hcommits : c.commits = []) (hcancels : c.cancels = [])
    (h : (∃ e t', result = (.error e, t', operations clone) ∧ t'.entries = t.entries ∧
        Edit t (operations clone) t' (operations clone) [] []) ∨
      ∃ a t' o', result = (.ok a, t', o') ∧ Edit t (operations clone) t' o' c.passed []) :
    Sound t c (report result c.passed) := by
  rcases h with ⟨e, t', rfl, hentries, hedit⟩ | ⟨a, t', o', rfl, hedit⟩
  · exact .edited hcommits hcancels rfl rfl hedit (.inl rfl) fun _ => ⟨hentries, rfl, rfl⟩
  · exact .edited hcommits hcancels rfl rfl hedit (.inr rfl) nofun

theorem report_sound_of_same {α : Type} (clone : H → UInt64 → Except ε H)
    {result : Except (FdError ε) α × FdTable H × HandleOps H ε} (hcommits : c.commits = []) (hcancels : c.cancels = [])
    (h : (∃ e, result = (.error e, t, operations clone)) ∨
      ∃ a t' o', result = (.ok a, t', o') ∧ Edit t (operations clone) t' o' c.passed []) :
    Sound t c (report result c.passed) :=
  report_sound clone hcommits hcancels (h.imp_left fun ⟨e, h⟩ => ⟨e, t, h, rfl, .refl _ _⟩)

theorem live_singleton {stamp : Slot → ℕ} {index : Slot} {generation : ℕ} (h : stamp index = generation) :
    Lease.Live ⟨[index], generation⟩ stamp := by
  intro i hi
  rw [mem_singleton.mp hi]
  exact h

/-- **Every call but `clear_reservations` is sound**, on a table whose pending opens and groups hold empty slots. -/
theorem perform_sound (hclear : c ≠ .clearReservations)
    (hempty : ∀ tok ∈ c.cancels, tok.Exclusive → ∀ index, tok.Holds t index → t.entries index = none) :
    Sound t c (perform t c) := by
  cases c with
  | reserveReplacement fd =>
    rcases t.reserveReplacement_cases fd with ⟨e, h⟩ | ⟨index, generation, -, hlt, hfree, h⟩ <;> rw [perform, h]
    · exact .refused rfl
    · exact .issued rfl rfl (Effect.grant_slot hlt hfree rfl False.elim).effects rfl
  | commitReplacement r entry =>
    rcases t.commitReplacement_cases r entry with h | ⟨heq, h⟩ <;> rw [perform, h]
    · exact .refused rfl
    · exact .committed_all rfl (FdTable.publish_effect entry rfl heq).effects
        (forall_mem_singleton.mpr (live_singleton heq)) (t.handles_publish r.index entry)
  | cancelReplacement r =>
    obtain ⟨heffect, hentries⟩ := t.cancelReplacement_effect r
    exact .cancelled_one rfl rfl heffect hentries
  | reserveFrom minimum limit =>
    rcases t.reserveFrom_cases minimum limit with ⟨e, h⟩ | ⟨r, t', h, heffect, hentries⟩ <;> rw [perform, h]
    · exact .refused rfl
    · exact .issued rfl rfl heffect.effects hentries
  | commitReservation r entry =>
    rcases t.commitReservation_cases r entry with h | ⟨heq, hnone, h⟩ <;> rw [perform, h]
    · exact .refused rfl
    · have hhandles := t.handles_publish r.index entry
      rw [hnone, slotHandles_none] at hhandles
      exact .committed_all rfl (FdTable.publish_effect entry rfl heq).effects
        (forall_mem_singleton.mpr (live_singleton heq)) hhandles
  | cancelReservation r =>
    obtain ⟨heffect, hentries⟩ := t.cancelReservation_effect r (hempty _ mem_cons_self trivial)
    exact .cancelled_one rfl rfl heffect hentries
  | reservePairFrom minimum limit =>
    rcases t.reservePairFrom_cases minimum limit with ⟨e, h⟩ | ⟨r₁, r₂, t', h, heffects, hentries⟩ <;> rw [perform, h]
    · exact .refused rfl
    · exact .issued rfl rfl heffects hentries
  | commitPair r₁ r₂ entry₁ entry₂ =>
    rcases t.commitPair_cases r₁ r₂ entry₁ entry₂ with h | ⟨hne, ⟨heq₁, hnone₁⟩, ⟨heq₂, hnone₂⟩, h⟩ <;> rw [perform, h]
    · exact .refused rfl
    · have heq₂' : (t.publish r₁.index entry₁).reservations r₂.index = r₂.generation :=
        (t.setReservation_of_ne hne 0).trans heq₂
      have hnone₂' : (t.publish r₁.index entry₁).entries r₂.index = none :=
        ((t.setReservation r₁.index 0).setEntry_of_ne hne (some entry₁)).trans hnone₂
      have hhandles₁ := t.handles_publish r₁.index entry₁
      have hhandles₂ := (t.publish r₁.index entry₁).handles_publish r₂.index entry₂
      rw [hnone₁, slotHandles_none, add_zero] at hhandles₁
      rw [hnone₂', slotHandles_none, hhandles₁, add_assoc] at hhandles₂
      exact .committed_all rfl
        (.cons (FdTable.publish_effect entry₁ rfl heq₁) (FdTable.publish_effect entry₂ rfl heq₂').effects)
        (forall_mem_cons.mpr ⟨live_singleton heq₁, forall_mem_singleton.mpr (live_singleton heq₂)⟩) hhandles₂
  | reserveUpTo minimum limit maximum =>
    rcases t.reserveUpTo_cases minimum limit maximum with ⟨e, h⟩ | ⟨g, t', h, heffect, hentries⟩ <;> rw [perform, h]
    · exact .refused rfl
    · exact .issued rfl rfl heffect.effects hentries
  | commitGroup g entries outputLen =>
    rcases t.commitGroup_cases g entries outputLen with h | ⟨hlive, output, t', h, heffect, hhandles⟩ <;>
      rw [perform, h]
    · exact .refused rfl
    · exact .committed_all rfl heffect.effects (forall_mem_singleton.mpr hlive) ((add_zero _).trans hhandles)
  | cancelGroup g =>
    obtain ⟨heffect, hentries⟩ := t.cancelGroup_effect g (hempty _ mem_cons_self trivial)
    exact .cancelled_one rfl rfl heffect hentries
  | clearReservations => exact absurd rfl hclear
  | install entry =>
    rcases t.installFrom_cases 0 defaultFdLimit entry (noClone : HandleOps H ε) with ⟨e, h⟩ | ⟨fd, t', h, hedit⟩ <;>
      rw [perform, FdTable.install, h]
    · exact .refused rfl
    · exact .edited rfl rfl rfl rfl hedit (.inr rfl) nofun
  | installFrom minimum limit entry =>
    rcases t.installFrom_cases minimum limit entry (noClone : HandleOps H ε) with ⟨e, h⟩ | ⟨fd, t', h, hedit⟩ <;>
      rw [perform, h]
    · exact .refused rfl
    · exact .edited rfl rfl rfl rfl hedit (.inr rfl) nofun
  | installAt fd entry => exact report_sound_of_same (fun h _ => .ok h) rfl rfl (t.installAt_cases fd entry noClone)
  | setDescriptorFlags fd flags =>
    rcases t.setDescriptorFlags_cases fd flags (noClone : HandleOps H ε) with ⟨e, h⟩ | ⟨t', h, hedit⟩ <;>
      rw [perform, h]
    · exact .refused rfl
    · exact .edited rfl rfl rfl rfl hedit (.inl rfl) nofun
  | take fd =>
    rcases t.take_cases fd (noClone : HandleOps H ε) with ⟨e, h⟩ | ⟨entry, t', h, hedit⟩ <;> rw [perform, h]
    · exact .refused rfl
    · exact .edited rfl rfl rfl rfl hedit (.inl rfl) nofun
  | close fd => exact report_sound_of_same (fun h _ => .ok h) rfl rfl (t.close_cases fd noClone)
  | duplicate fd clone =>
    exact report_sound_of_same clone rfl rfl (t.duplicateFrom_cases fd 0 defaultFdLimit false (operations clone))
  | duplicateFrom fd minimum limit cloexec clone =>
    exact report_sound_of_same clone rfl rfl (t.duplicateFrom_cases fd minimum limit cloexec (operations clone))
  | duplicateTo sourceFd targetFd clone =>
    refine report_sound clone rfl rfl ((t.duplicateTo_cases sourceFd targetFd (operations clone)).imp_right ?_)
    exact fun ⟨result, t', o', h, hedit, _⟩ => ⟨result, t', o', h, hedit⟩
  | duplicateForSpawn sourceFd targetFd clone =>
    exact report_sound clone rfl rfl (t.duplicateForSpawn_cases sourceFd targetFd (operations clone))
  | closeForSpawn fd =>
    exact .edited rfl rfl rfl rfl (t.closeForSpawn_edit fd noClone) (.inl rfl) nofun
  | closeOnExec =>
    exact .edited rfl rfl rfl rfl (FdTable.foldl_execSlot_edit _ (t, noClone)) (.inl rfl) nofun

/-! ## Whole runs -/

def Call.clears : Call H ε → Bool
  | .clearReservations => true
  | _ => false

/-- The table with the tokens issued, committed, cancelled and cleared, and the handles held by the caller, cloned and
closed. -/
structure FdHistory (H : Type) where
  table : FdTable H
  issued : List Token
  spent : List Token
  held : Multiset H
  cloned : Multiset H
  closed : Multiset H

namespace FdHistory

def new (stock : Multiset H) : FdHistory H :=
  { table := .new, issued := [], spent := [], held := stock, cloned := 0, closed := 0 }

/-- The caller uses tokens of this table and passes in handles it holds. -/
structure Allowed (h : FdHistory H) (c : Call H ε) : Prop where
  tokens : ∀ tok ∈ c.commits ++ c.cancels, tok ∈ h.issued
  handles : (c.passed : Multiset H) ≤ h.held

structure Consistent (stock : Multiset H) (h : FdHistory H) : Prop where
  ledger : (ledger h.table h.issued h.spent).Consistent
  exclusive : ExclusiveEmpty h.table h.issued
  conserved : h.table.handles + h.held + h.closed = stock + h.cloned

theorem new_consistent (stock : Multiset H) : Consistent stock (new stock) where
  ledger := Ledger.new_consistent
  exclusive tok htok := absurd htok not_mem_nil
  conserved := by
    have hempty : (FdTable.new : FdTable H).handles = 0 := Finset.sum_eq_zero fun _ _ => rfl
    change (FdTable.new : FdTable H).handles + stock + 0 = stock + 0
    rw [hempty, zero_add]

variable {c : Call H ε} {h : FdHistory H} {stock : Multiset H}

theorem Consistent.sound (hh : h.Consistent stock)
    (hc : h.Allowed c) (hclear : c ≠ .clearReservations) : Sound h.table c (perform h.table c) :=
  perform_sound hclear fun tok htok => hh.exclusive tok (hc.tokens tok (mem_append_right _ htok))

theorem clears_eq_false (hclear : c ≠ .clearReservations) : c.clears = false := by
  cases c <;> first | rfl | exact absurd rfl hclear

theorem ne_clear {tok : Token} (htok : tok ∈ c.commits ++ c.cancels) : c ≠ .clearReservations := by
  rintro rfl
  exact absurd htok not_mem_nil

theorem Consistent.spent_fails (hh : h.Consistent stock)
    (hc : h.Allowed c) {tok : Token} (hspent : tok ∈ h.spent) (hslots : tok.lease.slots ≠ [])
    (hcommit : tok ∈ c.commits) : (perform h.table c).failed = true ∧ (perform h.table c).table = h.table := by
  have hsound := hh.sound hc (ne_clear (mem_append_left _ hcommit))
  have hfailed : (perform h.table c).failed = true := by
    by_contra hok
    obtain ⟨index, hindex⟩ := exists_mem_of_ne_nil _ hslots
    have hlive := (hsound.committed (Bool.not_eq_true _ ▸ hok) tok hcommit).2
    exact hh.ledger.ended _ (mem_map_of_mem hspent) index hindex (hlive index hindex)
  exact ⟨hfailed, ((hsound.failed hfailed).2.2.2 (ne_nil_of_mem hcommit)).1⟩

theorem foldl_cancelSlot_of_ended {t : FdTable H} {generation : ℕ} {indices : List Slot}
    (h : ∀ index ∈ indices, t.reservations index ≠ generation) (released : ℕ) :
    indices.foldl (FdTable.cancelSlot generation) (t, released) = (t, released) := by
  induction indices with
  | nil => rfl
  | cons index indices ih =>
    obtain ⟨hindex, h⟩ := forall_mem_cons.mp h
    rw [foldl_cons, FdTable.cancelSlot, if_neg fun hlive => hindex hlive.1, ih h]

theorem Consistent.spent_cancelled (hh : h.Consistent stock) {tok : Token} (hspent : tok ∈ h.spent)
    (hcancel : tok ∈ c.cancels) : (perform h.table c).table = h.table := by
  have hended := hh.ledger.ended _ (mem_map_of_mem hspent)
  cases c with
  | cancelReplacement r =>
    cases mem_singleton.mp hcancel
    exact congrArg Prod.snd (if_pos (hended r.index mem_cons_self))
  | cancelReservation r =>
    cases mem_singleton.mp hcancel
    exact congrArg Prod.snd (if_pos (.inl (hended r.index mem_cons_self)))
  | cancelGroup g =>
    cases mem_singleton.mp hcancel
    exact congrArg Prod.fst (foldl_cancelSlot_of_ended hended 0)
  | _ => cases hcancel

theorem perform_commitGroup_empty (t : FdTable H) {g : FdReservations} (hempty : g.indices = [])
    (entries : List (Entry H)) (outputLen : ℕ) : (perform t (.commitGroup g entries outputLen : Call H ε)).table = t ∧
      (entries = [] → (perform t (.commitGroup g entries outputLen : Call H ε)).failed = false) := by
  rw [perform, FdTable.commitGroup, hempty]
  cases entries with
  | nil =>
    rw [if_neg (by simp)]
    exact ⟨rfl, fun _ => rfl⟩
  | cons entry entries =>
    rw [if_pos (.inl (Nat.zero_lt_succ _))]
    exact ⟨rfl, by rintro ⟨⟩⟩

variable [DecidableEq H]

def step (h : FdHistory H) (c : Call H ε) : FdHistory H :=
  let r := perform h.table c
  { table := r.table
    issued := h.issued ++ r.issued
    spent := h.spent ++ if c.clears then h.issued else r.spent
    held := h.held - r.taken + r.returned
    cloned := h.cloned + r.cloned
    closed := h.closed + r.closed }

inductive Reachable (stock : Multiset H) : FdHistory H → Prop
  | new : Reachable stock (new stock)
  | step {h : FdHistory H} (c : Call H ε) (hreach : Reachable stock h) (hc : h.Allowed c) : Reachable stock (h.step c)

theorem clear_consistent (hh : h.Consistent stock) : (h.step (.clearReservations : Call H ε)).Consistent stock where
  ledger := by
    have hclear := hh.ledger.clear
    change (PosixClient.ledger h.table.clearReservations (h.issued ++ []) (h.spent ++ h.issued)).Consistent
    rw [append_nil]
    simp only [PosixClient.ledger, map_append]
    exact hclear
  exclusive := by
    change ExclusiveEmpty h.table.clearReservations (h.issued ++ [])
    rw [append_nil]
    intro tok htok _ index hholds
    have hpos := (hh.ledger.generation _ (mem_map_of_mem htok) (ne_nil_of_mem hholds.1)).1
    have hzero : 0 = tok.lease.generation := hholds.2
    omega
  conserved := by
    change h.table.handles + (h.held - 0 + 0) + (h.closed + 0) = stock + (h.cloned + 0)
    rw [tsub_zero, add_zero, add_zero, add_zero]
    exact hh.conserved

theorem step_spent (hclear : c ≠ .clearReservations) : (h.step c).spent = h.spent ++ (perform h.table c).spent := by
  rw [step, clears_eq_false hclear]
  rfl

theorem step_consistent (hh : h.Consistent stock) (hc : h.Allowed c) : (h.step c).Consistent stock := by
  by_cases hclear : c = .clearReservations
  · rw [hclear]
    exact clear_consistent hh
  have hsound := hh.sound hc hclear
  have hspent : ∀ tok ∈ (perform h.table c).spent, tok ∈ h.issued := by
    intro tok htok
    rcases hsound.spent tok htok with hcommit | ⟨hcancel, -⟩
    · exact hc.tokens tok (mem_append_left _ hcommit)
    · exact hc.tokens tok (mem_append_right _ hcancel)
  have htaken : ((perform h.table c).taken : Multiset H) ≤ h.held := by
    rcases hsound.taken with hnone | hall
    · rw [hnone]
      exact Multiset.zero_le _
    · rw [hall]
      exact hc.handles
  refine ⟨?_, hsound.effects.exclusiveEmpty hspent hh.ledger hh.exclusive, ?_⟩
  · rw [step_spent hclear]
    exact (hsound.effects.steps hspent).consistent hh.ledger
  -- the handles a call takes over leave the caller's stock
  have hbefore := hh.conserved
  unfold step
  generalize perform h.table c = r at *
  change r.table.handles + (h.held - r.taken + r.returned) + (h.closed + r.closed) = stock + (h.cloned + r.cloned)
  obtain ⟨kept, hkept⟩ := exists_add_of_le htaken
  rw [hkept] at hbefore ⊢
  rw [add_tsub_cancel_left]
  calc r.table.handles + (kept + r.returned) + (h.closed + r.closed)
      = (r.table.handles + r.closed + r.returned) + (kept + h.closed) := by abel
    _ = (h.table.handles + (r.taken + kept) + h.closed) + r.cloned := by
        rw [hsound.conserved]
        abel
    _ = stock + (h.cloned + r.cloned) := by
        rw [hbefore]
        abel

theorem Reachable.consistent (hreach : Reachable (ε := ε) stock h) : h.Consistent stock := by
  induction hreach with
  | new => exact new_consistent stock
  | step c _ hc ih => exact step_consistent ih hc

theorem Consistent.frame (hh : h.Consistent stock)
    (hc : h.Allowed c) {index : Slot} (hreserved : h.table.reservations index ≠ 0)
    (hother : ∀ tok ∈ c.commits, ¬ tok.Holds h.table index) :
    SameHandle (h.table.entries index) ((h.step c).table.entries index) ∧
      (c.clears = false → (∀ tok ∈ c.cancels, ¬ tok.Holds h.table index) →
        (h.step c).table.reservations index = h.table.reservations index) := by
  by_cases hclear : c = .clearReservations
  · rw [hclear]
    exact ⟨rfl, nofun⟩
  have hsound := hh.sound hc hclear
  constructor
  · by_cases hcancel : ∃ tok ∈ (perform h.table c).spent, tok ∉ c.commits
    · -- a cancellation leaves all entries as they are
      obtain ⟨tok, htok, hnot⟩ := hcancel
      rcases hsound.spent tok htok with hcommit | ⟨-, hentries⟩
      · exact absurd hcommit hnot
      · exact congrArg (Option.map Entry.handle) (congrFun hentries index).symm
    · refine (hsound.effects.frame hreserved fun tok htok => hother tok ?_).1
      by_contra hnot
      exact hcancel ⟨tok, htok, hnot⟩
  · intro _ hcancels
    refine (hsound.effects.frame hreserved fun tok htok => ?_).2
    rcases hsound.spent tok htok with hcommit | ⟨hcancel, -⟩
    · exact hother tok hcommit
    · exact hcancels tok hcancel

/-- **Reservations are atomic and no handle is lost**, in every run and for every next call. -/
theorem reservations_atomic (stock : Multiset H) (h : FdHistory H) (hreach : Reachable (ε := ε) stock h) (c : Call H ε)
    (hc : h.Allowed c) :
    (∀ index, h.table.reservations index ≠ 0 → (∀ tok ∈ c.commits, ¬ tok.Holds h.table index) →
      SameHandle (h.table.entries index) ((h.step c).table.entries index) ∧
        (c.clears = false → (∀ tok ∈ c.cancels, ¬ tok.Holds h.table index) →
          (h.step c).table.reservations index = h.table.reservations index)) ∧
    ((perform h.table c).failed = false → ∀ tok ∈ c.commits, tok ∈ (h.step c).spent) ∧
    (∀ tok ∈ c.cancels, tok ∈ (h.step c).spent) ∧ (c.clears = true → ∀ tok ∈ h.issued, tok ∈ (h.step c).spent) ∧
    (∀ tok ∈ h.spent, tok.lease.slots ≠ [] → tok ∈ c.commits →
      (perform h.table c).failed = true ∧ (h.step c).table = h.table) ∧
    (∀ tok ∈ h.spent, tok ∈ c.cancels → (h.step c).table = h.table) ∧
    (∀ g entries outputLen, c = .commitGroup g entries outputLen → g.indices = [] → (h.step c).table = h.table ∧
      (entries = [] → (perform h.table c).failed = false)) ∧
    ((perform h.table c).failed = true → (h.step c).table.entries = h.table.entries) ∧
    (h.step c).table.handles + (h.step c).held + (h.step c).closed = stock + (h.step c).cloned ∧
    ((stock + (h.step c).cloned).Nodup → ((h.step c).table.handles + (h.step c).held + (h.step c).closed).Nodup) := by
  have hh := hreach.consistent
  have hnext := (step_consistent hh hc).conserved
  refine ⟨fun index hreserved hother => hh.frame hc hreserved hother, fun hok tok htok => ?_, fun tok htok => ?_,
    fun hclears tok htok => ?_, fun tok hspent hslots hcommit => ?_, fun tok => hh.spent_cancelled, ?_,
    fun hfailed => ?_, hnext, fun hnodup => ?_⟩
  · have hclear := ne_clear (mem_append_left _ htok)
    rw [step_spent hclear]
    exact mem_append_right _ ((hh.sound hc hclear).committed hok tok htok).1
  · have hclear := ne_clear (mem_append_right _ htok)
    rw [step_spent hclear]
    exact mem_append_right _ ((hh.sound hc hclear).cancelled tok htok)
  · rw [step, hclears]
    exact mem_append_right _ htok
  · exact hh.spent_fails hc hspent hslots hcommit
  · rintro g entries outputLen rfl hempty
    exact perform_commitGroup_empty h.table hempty entries outputLen
  · by_cases hclear : c = .clearReservations
    · rw [hclear]
      rfl
    · exact ((hh.sound hc hclear).failed hfailed).1
  · rw [hnext]
    exact hnodup

end FdHistory

namespace FdFixture

def first : Slot := ⟨0, by decide⟩

def reserved : FdHistory ℕ := (FdHistory.new {7}).step (.reserveFrom 0 4 : Call ℕ Empty)

def commit : Call ℕ Empty := .commitReservation ⟨first, 1⟩ ⟨7, 0, 0⟩

theorem reserved_reachable : FdHistory.Reachable (ε := Empty) {7} reserved :=
  .step _ .new ⟨nofun, Multiset.zero_le _⟩

theorem commit_allowed : reserved.Allowed commit := ⟨by decide, by decide⟩

theorem reservations_atomic_commit : Token.single ⟨first, 1⟩ ∈ (reserved.step commit).spent ∧
    (reserved.step commit).table.handles + (reserved.step commit).held + (reserved.step commit).closed =
      {7} + (reserved.step commit).cloned := by
  obtain ⟨-, hspent, -, -, -, -, -, -, hhandles, -⟩ :=
    FdHistory.reservations_atomic {7} reserved reserved_reachable commit commit_allowed
  exact ⟨hspent (by decide) _ (by decide), hhandles⟩

/-- A group without slots, as a full range gives it, commits again and again. -/
theorem empty_group_commits_again : let commit : Call ℕ Empty := .commitGroup ⟨[], 0, List.nodup_nil⟩ [] 0
    let h := ((FdHistory.new 0).step (.reserveUpTo 0 0 0 : Call ℕ Empty)).step commit
    Token.group ⟨[], 0, List.nodup_nil⟩ ∈ h.issued ∧ Token.group ⟨[], 0, List.nodup_nil⟩ ∈ h.spent ∧
      (perform h.table commit).failed = false := by
  decide

end FdFixture

end MochiSyscalls.PosixClient
