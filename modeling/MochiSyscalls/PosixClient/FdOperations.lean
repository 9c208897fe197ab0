import MochiSyscalls.PosixClient.FdEffects

/-! # The operations by their effects

For every operation: the effects on the table, what a refused one leaves, and where the handles went. -/

namespace MochiSyscalls.PosixClient
open Foundations Words Leases List Function
set_option autoImplicit false

variable {H ε : Type}

/-! ## Granting and taking back -/

theorem grant_singleton (stamp : Slot → ℕ) (index : Slot) (generation : ℕ) :
    Lease.grant ⟨[index], generation⟩ stamp = Function.update stamp index generation := by
  funext i
  rw [Lease.grant, update_apply]
  simp only [mem_singleton]

variable {generation : ℕ} {index : Slot}

theorem release_singleton {stamp : Slot → ℕ} (h : stamp index = generation) :
    Lease.release ⟨[index], generation⟩ stamp = Function.update stamp index 0 := by
  funext i
  rw [Lease.release, update_apply]
  simp only [mem_singleton]
  by_cases hi : i = index
  · rw [if_pos hi, if_pos ⟨hi, by rw [hi]; exact h⟩]
  · rw [if_neg hi, if_neg fun hp => hi hp.1]

theorem release_singleton_of_ne {stamp : Slot → ℕ} (h : stamp index ≠ generation) :
    Lease.release ⟨[index], generation⟩ stamp = stamp :=
  Lease.release_eq_of_dead fun i hi => by
    rw [mem_singleton.mp hi]
    exact h

namespace FdTable

theorem foldl_setReservation (indices : List Slot) (generation : ℕ) (t : FdTable H) :
    indices.foldl (fun t index => t.setReservation index generation) t =
      { t with reservations := Lease.grant ⟨indices, generation⟩ t.reservations } := by
  induction indices generalizing t with
  | nil => rfl
  | cons index indices ih =>
    rw [foldl_cons, ih]
    congr 1
    funext i
    simp only [Lease.grant, mem_cons, setReservation, update_apply]
    by_cases hi : i ∈ indices
    · rw [if_pos hi, if_pos (.inr hi)]
    · rw [if_neg hi]
      by_cases hidx : i = index
      · rw [if_pos hidx, if_pos (.inl hidx)]
      · rw [if_neg hidx, if_neg (not_or.mpr ⟨hidx, hi⟩)]

theorem mem_freeSlots {t : FdTable H} {minimum limit : ℤ} (h : index ∈ t.freeSlots minimum limit) :
    t.entries index = none ∧ t.reservations index = 0 := by
  have hfree := (mem_filter.mp h).2
  simp only [isFree, Bool.and_eq_true, Option.isNone_iff_eq_none, beq_iff_eq, decide_eq_true_eq] at hfree
  exact hfree.2.2

theorem free_of_freeSlots {t : FdTable H} {minimum limit : ℤ} {rest : List Slot}
    (h : t.freeSlots minimum limit = index :: rest) : t.entries index = none ∧ t.reservations index = 0 :=
  mem_freeSlots (h ▸ mem_cons_self)

theorem next_lt {next step : ℕ} (h : usizeCheckedAdd next step = some generation) (hstep : 0 < step) :
    next < generation := by
  obtain ⟨rfl, -⟩ := usizeCheckedAdd_eq_some.mp h
  omega

end FdTable

section

variable {t : FdTable H} (hlt : t.nextReservation < generation) (hfree : t.reservations index = 0)
include hlt hfree

theorem Effect.grant_slot {tok : Token} (htok : tok.lease = ⟨[index], generation⟩)
    (hempty : tok.Exclusive → t.entries index = none) :
    Effect t [tok] [] ({ t with nextReservation := generation }.setReservation index generation) := by
  have hgrant := Effect.grant t tok
  rw [htok, grant_singleton] at hgrant
  exact hgrant hlt (forall_mem_singleton.mpr hfree) fun h => forall_mem_singleton.mpr (hempty h)

theorem Effect.grant_single (hnone : t.entries index = none) :
    Effect t [.single ⟨index, generation⟩] []
      ({ t with nextReservation := generation }.setReservation index generation) :=
  .grant_slot hlt hfree rfl fun _ => hnone

end

namespace FdTable

/-! ## The operations that issue tokens -/

variable (t : FdTable H) (fd : ℤ)

theorem reserveReplacement_cases : (∃ e, t.reserveReplacement fd = (.error e, t)) ∨
    ∃ index generation, slotOf fd = some index ∧ t.nextReservation < generation ∧ t.reservations index = 0 ∧
      t.reserveReplacement fd = (.ok (⟨index, generation⟩, t.entries index),
        { t with nextReservation := generation }.setReservation index generation) := by
  unfold reserveReplacement
  cases slotOf fd with
  | none => exact .inl ⟨_, rfl⟩
  | some index =>
    dsimp only
    split
    · exact .inl ⟨_, rfl⟩
    next hfree =>
      rw [not_not] at hfree
      cases hadd : usizeCheckedAdd t.nextReservation 1 with
      | none => exact .inl ⟨_, rfl⟩
      | some generation => exact .inr ⟨index, generation, rfl, next_lt hadd Nat.one_pos, hfree, rfl⟩

theorem reserveFrom_cases (minimum limit : ℤ) : (∃ e, t.reserveFrom minimum limit = (.error e, t)) ∨
    ∃ r t', t.reserveFrom minimum limit = (.ok r, t') ∧ Effect t [.single r] [] t' ∧ t'.entries = t.entries := by
  unfold reserveFrom
  split
  · exact .inl ⟨_, rfl⟩
  · cases hslots : t.freeSlots minimum limit with
    | nil => exact .inl ⟨_, rfl⟩
    | cons index rest =>
      obtain ⟨hnone, hfree⟩ := free_of_freeSlots hslots
      cases hadd : usizeCheckedAdd t.nextReservation 1 with
      | none => exact .inl ⟨_, rfl⟩
      | some generation =>
        exact .inr ⟨⟨index, generation⟩, _, rfl, .grant_single (next_lt hadd Nat.one_pos) hfree hnone, rfl⟩

theorem reservePairFrom_cases (minimum limit : ℤ) : (∃ e, t.reservePairFrom minimum limit = (.error e, t)) ∨
    ∃ r₁ r₂ t', t.reservePairFrom minimum limit = (.ok (r₁, r₂), t') ∧ Effects t [.single r₁, .single r₂] [] t' ∧
      t'.entries = t.entries := by
  unfold reservePairFrom
  split
  · exact .inl ⟨_, rfl⟩
  · have hnodup := t.freeSlots_nodup minimum limit
    have hfrees : ∀ index ∈ t.freeSlots minimum limit, t.entries index = none ∧ t.reservations index = 0 :=
      fun index hindex => mem_freeSlots hindex
    match hslots : t.freeSlots minimum limit with
    | [] => exact .inl ⟨_, rfl⟩
    | [_] => exact .inl ⟨_, rfl⟩
    | first :: second :: rest =>
      rw [hslots] at hnodup hfrees
      obtain ⟨hnone₁, hfree₁⟩ := hfrees first mem_cons_self
      obtain ⟨hnone₂, hfree₂⟩ := hfrees second (mem_cons_of_mem _ mem_cons_self)
      have hne : second ≠ first := fun heq => (nodup_cons.mp hnodup).1 (by rw [heq]; exact mem_cons_self)
      cases hadd : usizeCheckedAdd t.nextReservation 2 with
      | none => exact .inl ⟨_, rfl⟩
      | some generation =>
        obtain ⟨hgen, -⟩ := usizeCheckedAdd_eq_some.mp hadd
        -- one grant after the other
        have hgrant₁ := Effect.grant_single (show t.nextReservation < generation - 1 by omega) hfree₁ hnone₁
        have hfree₂' : ({ t with nextReservation := generation - 1 }.setReservation first (generation - 1)).reservations
            second = 0 := (setReservation_of_ne _ hne _).trans hfree₂
        have hgrant₂ := Effect.grant_single (show generation - 1 < generation by omega) hfree₂' hnone₂
        exact .inr ⟨⟨first, generation - 1⟩, ⟨second, generation⟩, _, rfl, .cons hgrant₁ hgrant₂.effects, rfl⟩

theorem reserveUpTo_cases (minimum limit : ℤ) (maximum : ℕ) :
    (∃ e, t.reserveUpTo minimum limit maximum = (.error e, t)) ∨
    ∃ g t', t.reserveUpTo minimum limit maximum = (.ok g, t') ∧ Effect t [.group g] [] t' ∧ t'.entries = t.entries := by
  unfold reserveUpTo
  split
  · exact .inl ⟨_, rfl⟩
  · dsimp only
    split
    · exact .inr ⟨_, _, rfl, .idle t _ rfl, rfl⟩
    · cases hadd : usizeCheckedAdd t.nextReservation 1 with
      | none => exact .inl ⟨_, rfl⟩
      | some generation =>
        have hfrees : ∀ index ∈ (t.freeSlots minimum limit).take maximum,
            t.entries index = none ∧ t.reservations index = 0 := fun index hindex =>
          mem_freeSlots ((take_subset _ _) hindex)
        have hnodup := (t.freeSlots_nodup minimum limit).sublist (take_sublist maximum _)
        refine .inr ⟨⟨_, generation, hnodup⟩, _, rfl, ?_, ?_⟩
        · rw [foldl_setReservation]
          exact .grant t (.group ⟨_, generation, hnodup⟩) (next_lt hadd Nat.one_pos) (fun i hi => (hfrees i hi).2)
            (fun _ i hi => (hfrees i hi).1)
        · rw [foldl_setReservation]

/-! ## Cancellations -/

section

variable {t : FdTable H} {tok : Token} (htok : tok.lease = ⟨[index], generation⟩)
include htok

theorem release_dead (h : t.reservations index ≠ generation) : Effect t [] [tok] t := by
  have hrelease := Effect.release t tok t.entries fun _ _ => rfl
  rw [htok, release_singleton_of_ne h] at hrelease
  exact hrelease

theorem release_live (h : t.reservations index = generation) : Effect t [] [tok] (t.setReservation index 0) := by
  have hrelease := Effect.release t tok t.entries fun _ _ => rfl
  rw [htok, release_singleton h] at hrelease
  exact hrelease

end

theorem cancelReplacement_effect (r : FdReplacement) :
    Effect t [] [.replacement r] (t.cancelReplacement r).2 ∧ (t.cancelReplacement r).2.entries = t.entries := by
  unfold cancelReplacement
  split
  next hne => exact ⟨release_dead rfl hne, rfl⟩
  next heq => exact ⟨release_live rfl (not_not.mp heq), rfl⟩

theorem cancelReservation_effect (r : FdReservation)
    (hempty : ∀ index, (Token.single r).Holds t index → t.entries index = none) :
    Effect t [] [.single r] (t.cancelReservation r).2 ∧ (t.cancelReservation r).2.entries = t.entries := by
  unfold cancelReservation
  split
  next hor =>
    refine ⟨release_dead rfl fun heq => ?_, rfl⟩
    rcases hor with hne | hsome
    · exact hne heq
    · rw [hempty r.index ⟨mem_singleton_self _, heq⟩] at hsome
      cases hsome
  next heq => exact ⟨release_live rfl (not_not.mp (not_or.mp heq).1), rfl⟩

theorem foldl_cancelSlot {indices : List Slot} {s : FdTable H × ℕ}
    (hempty : ∀ index ∈ indices, s.1.reservations index = generation → s.1.entries index = none) :
    (indices.foldl (cancelSlot generation) s).1 =
      ⟨s.1.entries, Lease.release ⟨indices, generation⟩ s.1.reservations, s.1.nextReservation⟩ := by
  induction indices generalizing s with
  | nil =>
    rw [Lease.release_eq_of_dead nofun]
    rfl
  | cons index indices ih =>
    obtain ⟨hfirst, hrest⟩ := forall_mem_cons.mp hempty
    rw [foldl_cons]
    have hstep : (cancelSlot generation s index).1 =
        ⟨s.1.entries, Lease.release ⟨[index], generation⟩ s.1.reservations, s.1.nextReservation⟩ := by
      unfold cancelSlot
      by_cases heq : s.1.reservations index = generation
      · rw [if_pos ⟨heq, by rw [hfirst heq]; rfl⟩, release_singleton heq]
        rfl
      · rw [if_neg (fun hp => heq hp.1), release_singleton_of_ne heq]
    have hnext : ∀ i ∈ indices, (cancelSlot generation s index).1.reservations i = generation →
        (cancelSlot generation s index).1.entries i = none := by
      rw [hstep]
      intro i hi heq
      refine hrest i hi ?_
      dsimp only at heq
      unfold Lease.release at heq
      split at heq
      next hp => exact hp.2
      · exact heq
    rw [ih hnext, hstep, Lease.release_cons index indices]

theorem cancelGroup_effect (g : FdReservations)
    (hempty : ∀ index, (Token.group g).Holds t index → t.entries index = none) :
    Effect t [] [.group g] (t.cancelGroup g).2 ∧ (t.cancelGroup g).2.entries = t.entries := by
  have hfold := foldl_cancelSlot (s := (t, 0)) fun index hindex heq => hempty index ⟨hindex, heq⟩
  have htable : (t.cancelGroup g).2 =
      ⟨t.entries, Lease.release ⟨g.indices, g.generation⟩ t.reservations, t.nextReservation⟩ := hfold
  rw [htable]
  exact ⟨.release t (.group g) t.entries fun _ _ => rfl, rfl⟩

/-! ## Commits -/

theorem publish_effect {t : FdTable H} {tok : Token} (entry : Entry H)
    (htok : tok.lease = ⟨[index], generation⟩) (h : t.reservations index = generation) :
    Effect t [] [tok] (t.publish index entry) := by
  have hrelease := Effect.release t tok (update t.entries index (some entry)) fun i hi => by
    refine update_of_ne ?_ _ _
    rintro rfl
    rw [Token.Holds, htok] at hi
    exact hi ⟨mem_singleton_self _, h⟩
  rw [htok, release_singleton h] at hrelease
  exact hrelease

theorem handles_publish (index : Slot) (entry : Entry H) :
    (t.publish index entry).handles + slotHandles (t.entries index) = t.handles + {entry.handle} :=
  (t.setReservation index 0).handles_setEntry index (some entry)

theorem commitReplacement_cases (r : FdReplacement) (entry : Entry H) :
    (t.commitReplacement r entry = (.error .invalidDescriptor, t)) ∨
    (t.reservations r.index = r.generation ∧
      t.commitReplacement r entry = (.ok (t.entries r.index), t.publish r.index entry)) := by
  unfold commitReplacement
  split
  · exact .inl rfl
  next heq => exact .inr ⟨not_not.mp heq, rfl⟩

theorem commitReservation_cases (r : FdReservation) (entry : Entry H) :
    (t.commitReservation r entry = (.error .invalidDescriptor, t)) ∨
    (t.reservations r.index = r.generation ∧ t.entries r.index = none ∧
      t.commitReservation r entry = (.ok (label r.index), t.publish r.index entry)) := by
  unfold commitReservation cancelReservation
  by_cases hor : t.reservations r.index ≠ r.generation ∨ (t.entries r.index).isSome = true
  · rw [if_pos hor]
    exact .inl rfl
  · rw [if_neg hor]
    rw [not_or, not_not, Bool.not_eq_true, Option.isSome_eq_false_iff, Option.isNone_iff_eq_none] at hor
    exact .inr ⟨hor.1, hor.2, rfl⟩

theorem commitPair_cases (r₁ r₂ : FdReservation) (entry₁ entry₂ : Entry H) :
    (t.commitPair r₁ r₂ entry₁ entry₂ = (.error .invalidDescriptor, t)) ∨
    (r₂.index ≠ r₁.index ∧ (t.reservations r₁.index = r₁.generation ∧ t.entries r₁.index = none) ∧
      (t.reservations r₂.index = r₂.generation ∧ t.entries r₂.index = none) ∧
      t.commitPair r₁ r₂ entry₁ entry₂ =
        (.ok (label r₁.index, label r₂.index), (t.publish r₁.index entry₁).publish r₂.index entry₂)) := by
  unfold commitPair
  split
  · exact .inl rfl
  next hor =>
    simp only [any_cons, any_nil, Bool.or_false, Bool.or_eq_true, bne_iff_ne, not_or, not_not,
      Bool.not_eq_true, Option.isSome_eq_false_iff, Option.isNone_iff_eq_none] at hor
    exact .inr ⟨fun heq => hor.1 heq.symm, hor.2.1, hor.2.2, rfl⟩

theorem publishAll_spec {indices : List Slot} (hnodup : indices.Nodup) {entries : List (Entry H)}
    (hlen : entries.length ≤ indices.length) {t : FdTable H} (hnone : ∀ index ∈ indices, t.entries index = none) :
    (t.publishAll indices entries).reservations = (fun i => if i ∈ indices then 0 else t.reservations i) ∧
    (t.publishAll indices entries).nextReservation = t.nextReservation ∧
    (∀ i, i ∉ indices → (t.publishAll indices entries).entries i = t.entries i) ∧
    (t.publishAll indices entries).handles = t.handles + ↑(entries.map Entry.handle) := by
  induction indices generalizing entries t with
  | nil =>
    obtain rfl := length_eq_zero_iff.mp (Nat.le_zero.mp hlen)
    exact ⟨rfl, rfl, fun i _ => rfl, (add_zero _).symm⟩
  | cons index indices ih =>
    obtain ⟨hnew, hnodup⟩ := nodup_cons.mp hnodup
    obtain ⟨hfirst, hrest⟩ := forall_mem_cons.mp hnone
    have hstamps : ∀ stamp : Slot → ℕ, (fun i => if i ∈ indices then 0 else update stamp index 0 i) =
        fun i => if i ∈ index :: indices then 0 else stamp i := by
      intro stamp
      funext i
      simp only [mem_cons, update_apply]
      by_cases hi : i ∈ indices
      · rw [if_pos hi, if_pos (.inr hi)]
      · by_cases hidx : i = index
        · rw [if_neg hi, if_pos hidx, if_pos (.inl hidx)]
        · rw [if_neg hi, if_neg hidx, if_neg (not_or.mpr ⟨hidx, hi⟩)]
    cases entries with
    | nil =>
      have hempty : ∀ i ∈ indices, (t.setReservation index 0).entries i = none := hrest
      obtain ⟨hres, hnext, hkeep, hhandles⟩ := ih hnodup (show ([] : List (Entry H)).length ≤ _ from Nat.zero_le _) hempty
      refine ⟨hres.trans (hstamps t.reservations), hnext, fun i hi => ?_, hhandles⟩
      rw [mem_cons, not_or] at hi
      exact hkeep i hi.2
    | cons entry entries =>
      have hnone' : ∀ i ∈ indices, (t.publish index entry).entries i = none := by
        intro i hi
        have hne : i ≠ index := by
          rintro rfl
          exact hnew hi
        exact (setEntry_of_ne _ hne _).trans (hrest i hi)
      obtain ⟨hres, hnext, hkeep, hhandles⟩ := ih hnodup (Nat.le_of_succ_le_succ hlen) hnone'
      refine ⟨hres.trans (hstamps t.reservations), hnext, fun i hi => ?_, hhandles.trans ?_⟩
      · rw [mem_cons, not_or] at hi
        exact (hkeep i hi.2).trans (setEntry_of_ne _ hi.1 _)
      · have hpublish := t.handles_publish index entry
        rw [hfirst, slotHandles_none, add_zero] at hpublish
        rw [hpublish, map_cons, ← Multiset.cons_coe, ← Multiset.singleton_add, add_assoc]

theorem commitGroup_cases (g : FdReservations) (entries : List (Entry H)) (outputLen : ℕ) :
    (t.commitGroup g entries outputLen = (.error .invalidDescriptor, t)) ∨
    ((Token.group g).lease.Live t.reservations ∧ ∃ output t', t.commitGroup g entries outputLen = (.ok output, t') ∧
      Effect t [] [.group g] t' ∧ t'.handles = t.handles + ↑(entries.map Entry.handle)) := by
  unfold commitGroup
  split
  · exact .inl rfl
  next hor =>
    simp only [not_or, Nat.not_lt, any_eq_true, not_exists, not_and, Bool.or_eq_true, bne_iff_ne, not_not,
      Bool.not_eq_true, Option.isSome_eq_false_iff, Option.isNone_iff_eq_none] at hor
    obtain ⟨hlen, -, hall⟩ := hor
    have hlive : (Token.group g).lease.Live t.reservations := fun i hi => (hall i hi).1
    obtain ⟨hres, hnext, hkeep, hhandles⟩ := publishAll_spec g.nodup hlen fun i hi => (hall i hi).2
    refine .inr ⟨hlive, _, _, rfl, ?_, hhandles⟩
    have hrelease := Effect.release t (.group g) (t.publishAll g.indices entries).entries fun i hi =>
      hkeep i fun hmem => hi ⟨hmem, hlive i hmem⟩
    rw [Lease.release_of_live hlive] at hrelease
    have htable : t.publishAll g.indices entries =
        ⟨(t.publishAll g.indices entries).entries, fun i => if i ∈ g.indices then 0 else t.reservations i,
          t.nextReservation⟩ := by
      rw [← hres, ← hnext]
    rw [htable]
    exact hrelease

/-! ## Edits -/

theorem installFrom_cases (minimum limit : ℤ) (entry : Entry H) (o : HandleOps H ε) :
    (∃ e, t.installFrom minimum limit entry = (.error e, t)) ∨
    ∃ fd t', t.installFrom minimum limit entry = (.ok fd, t') ∧ Edit t o t' o [entry.handle] [] := by
  unfold installFrom
  split
  · exact .inl ⟨_, rfl⟩
  split
  · exact .inl ⟨_, rfl⟩
  cases hslots : t.freeSlots minimum limit with
  | nil => exact .inl ⟨_, rfl⟩
  | cons index rest =>
    obtain ⟨hnone, hfree⟩ := free_of_freeSlots hslots
    refine .inr ⟨_, _, rfl, .setEntry hfree ?_⟩
    rw [hnone, slotHandles_some, slotHandles_none, Multiset.coe_nil, Multiset.coe_singleton]
    abel

theorem closeDisplaced_log (displaced : Option (Entry H)) (o : HandleOps H ε) :
    ((closeDisplaced displaced o).closed : Multiset H) = ↑o.closed + slotHandles displaced ∧
      (closeDisplaced displaced o).cloned = o.cloned := by
  cases displaced with
  | none => exact ⟨(add_zero _).symm, rfl⟩
  | some replaced => exact ⟨Multiset.coe_add _ _ |>.symm, rfl⟩

theorem installAt_cases (entry : Entry H) (o : HandleOps H ε) : (∃ e, t.installAt fd entry o = (.error e, t, o)) ∨
    ∃ a t' o', t.installAt fd entry o = (.ok a, t', o') ∧ Edit t o t' o' [entry.handle] [] := by
  unfold installAt
  split
  · exact .inl ⟨_, rfl⟩
  next index _ =>
    split
    · exact .inl ⟨_, rfl⟩
    next hfree =>
      obtain ⟨hclosed, hcloned⟩ := closeDisplaced_log (t.entries index) o
      refine .inr ⟨(), _, _, rfl, .setEntry (not_not.mp hfree) ?_⟩
      rw [hclosed, hcloned, slotHandles_some, Multiset.coe_nil, Multiset.coe_singleton]
      abel

theorem setDescriptorFlags_cases (flags : UInt32) (o : HandleOps H ε) :
    (∃ e : FdError ε, t.setDescriptorFlags fd flags = (.error e, t)) ∨
    ∃ t', (t.setDescriptorFlags fd flags : Except (FdError ε) Unit × FdTable H) = (.ok (), t') ∧
      Edit t o t' o [] [] := by
  unfold setDescriptorFlags
  split
  · exact .inl ⟨_, rfl⟩
  split
  · exact .inl ⟨_, rfl⟩
  next hentry => exact .inr ⟨_, rfl, .setFlags o hentry flags⟩

variable (o : HandleOps H ε)

theorem take_cases : (∃ e : FdError ε, t.take fd = (.error e, t)) ∨
    ∃ entry t', (t.take fd : Except (FdError ε) (Entry H) × FdTable H) = (.ok entry, t') ∧
      Edit t o t' o [] [entry.handle] := by
  unfold take
  split
  · exact .inl ⟨_, rfl⟩
  split
  · exact .inl ⟨_, rfl⟩
  next entry hentry =>
    split
    · exact .inl ⟨_, rfl⟩
    next hfree =>
      refine .inr ⟨entry, _, rfl, .setEntry (not_not.mp hfree) ?_⟩
      rw [hentry, slotHandles_some, slotHandles_none, Multiset.coe_nil, Multiset.coe_singleton]
      abel

theorem edit_closeHandle {t t' : FdTable H} {o : HandleOps H ε} {handle : H} (h : Edit t o t' o [] [handle]) :
    Edit t o t' (o.closeHandle handle) [] [] where
  reservations := h.reservations
  next := h.next
  entries := h.entries
  conserved := by
    have hc := h.conserved
    rw [HandleOps.closeHandle, ← Multiset.coe_add, ← add_assoc, Multiset.coe_nil, add_zero]
    exact hc

theorem close_cases : (∃ e, t.close fd o = (.error e, t, o)) ∨
    ∃ a t' o', t.close fd o = (.ok a, t', o') ∧ Edit t o t' o' [] [] := by
  unfold close
  rcases t.take_cases fd o with ⟨e, htake⟩ | ⟨entry, t', htake, hedit⟩
  · rw [htake]
    exact .inl ⟨e, rfl⟩
  · rw [htake]
    exact .inr ⟨(), t', _, rfl, edit_closeHandle hedit⟩

/-! ## Duplicates -/

theorem cloneHandle_cases (handle : H) (rights : UInt64) : (∃ e, o.cloneHandle handle rights = (.error e, o)) ∨
    ∃ h, o.cloneHandle handle rights = (.ok h, { o with cloned := o.cloned ++ [h] }) := by
  unfold HandleOps.cloneHandle
  cases o.clone handle rights with
  | error e => exact .inl ⟨e, rfl⟩
  | ok h => exact .inr ⟨h, rfl⟩

theorem duplicateFrom_cases (minimum limit : ℤ) (cloexec : Bool) (o : HandleOps H ε) :
    (∃ e, t.duplicateFrom fd minimum limit cloexec o = (.error e, t, o)) ∨
    ∃ result t' o', t.duplicateFrom fd minimum limit cloexec o = (.ok result, t', o') ∧ Edit t o t' o' [] [] := by
  unfold duplicateFrom
  cases t.get fd with
  | none => exact .inl ⟨_, rfl⟩
  | some source =>
    dsimp only
    split
    · exact .inl ⟨_, rfl⟩
    cases hslots : t.freeSlots minimum limit with
    | nil => exact .inl ⟨_, rfl⟩
    | cons index rest =>
      obtain ⟨hnone, hfree⟩ := free_of_freeSlots hslots
      dsimp only
      rcases cloneHandle_cases o source.handle source.rights with ⟨e, hclone⟩ | ⟨h, hclone⟩
      · rw [hclone]
        exact .inl ⟨_, rfl⟩
      · rw [hclone]
        refine .inr ⟨_, _, _, rfl, .setEntry hfree ?_⟩
        rw [hnone, slotHandles_some, slotHandles_none, Multiset.coe_nil, ← Multiset.coe_add, Multiset.coe_singleton]
        abel

theorem edit_skip {t t' : FdTable H} {o o' : HandleOps H ε} (h : Edit t o t' o' [] [])
    (hle : t.nextReservation ≤ generation) : Edit t o { t' with nextReservation := generation } o' [] [] :=
  ⟨h.reservations, hle, h.entries, h.conserved⟩

theorem setReservation_undone {t : FdTable H} (h : t.reservations index = 0) (generation : ℕ) :
    ({ t with nextReservation := generation }.setReservation index generation).setReservation index 0 =
      { t with nextReservation := generation } := by
  have hstamps : update (update t.reservations index generation) index 0 = t.reservations := by
    rw [update_idem, ← h, update_eq_self]
  simp only [setReservation, hstamps]

theorem duplicateTo_cases (sourceFd targetFd : ℤ) (o : HandleOps H ε) :
    (∃ e t', t.duplicateTo sourceFd targetFd o = (.error e, t', o) ∧ t'.entries = t.entries ∧ Edit t o t' o [] []) ∨
    ∃ result t' o', t.duplicateTo sourceFd targetFd o = (.ok result, t', o') ∧ Edit t o t' o' [] [] ∧
      ∃ index entry, slotOf result = some index ∧ t'.entries index = some entry := by
  have hrefuse : ∀ e, ∃ e' t', ((.error e, t, o) : Except (FdError ε) ℤ × FdTable H × HandleOps H ε) = (.error e', t', o) ∧
      t'.entries = t.entries ∧ Edit t o t' o [] [] := fun e => ⟨e, t, rfl, rfl, .refl t o⟩
  unfold duplicateTo
  split
  · exact .inl (hrefuse _)
  split
  next hsame =>
    cases hget : t.get sourceFd with
    | none => exact .inl (hrefuse _)
    | some source =>
      obtain ⟨index, hslot, hentry⟩ := Option.bind_eq_some_iff.mp hget
      rw [hsame] at hslot
      exact .inr ⟨_, _, _, rfl, .refl t o, index, source, hslot, hentry⟩
  cases t.get sourceFd with
  | none => exact .inl (hrefuse _)
  | some source =>
    dsimp only
    rcases t.reserveReplacement_cases targetFd with ⟨e, hreserve⟩ | ⟨index, generation, hslot, hlt, hfree, hreserve⟩
    · rw [hreserve]
      exact .inl (hrefuse _)
    have hundone := setReservation_undone hfree generation
    rw [hreserve]
    dsimp only
    rcases cloneHandle_cases o source.handle source.rights with ⟨e, hclone⟩ | ⟨h, hclone⟩
    · -- the reservation is cancelled again
      rw [hclone]
      dsimp only
      rw [cancelReplacement, if_neg (not_not_intro (setReservation_self _ _ _)), hundone]
      exact .inl ⟨_, _, rfl, rfl, edit_skip (.refl t o) hlt.le⟩
    · -- the reservation is committed
      rw [hclone]
      dsimp only
      rw [commitReplacement, if_neg (not_not_intro (setReservation_self _ _ _)), hundone]
      obtain ⟨hclosed, hcloned⟩ := closeDisplaced_log (t.entries index) { o with cloned := o.cloned ++ [h] }
      have hedit : Edit t o (t.setEntry index (some ⟨h, source.rights, source.descriptorFlags &&& ~~~fdCloexec⟩))
          (closeDisplaced (t.entries index) { o with cloned := o.cloned ++ [h] }) [] [] := by
        refine .setEntry hfree ?_
        rw [hclosed, hcloned, slotHandles_some, Multiset.coe_nil, ← Multiset.coe_add, Multiset.coe_singleton]
        abel
      exact .inr ⟨_, _, _, rfl, edit_skip hedit hlt.le, index, _, hslot, setEntry_self _ _ _⟩

theorem duplicateForSpawn_cases (sourceFd targetFd : ℤ) (o : HandleOps H ε) :
    (∃ e t', t.duplicateForSpawn sourceFd targetFd o = (.error e, t', o) ∧ t'.entries = t.entries ∧
      Edit t o t' o [] []) ∨
    ∃ result t' o', t.duplicateForSpawn sourceFd targetFd o = (.ok result, t', o') ∧ Edit t o t' o' [] [] := by
  unfold duplicateForSpawn
  rcases t.duplicateTo_cases sourceFd targetFd o with ⟨e, t', hdup, hentries, hedit⟩ |
    ⟨result, t', o', hdup, hedit, index, entry, hslot, hentry⟩
  · rw [hdup]
    exact .inl ⟨e, t', rfl, hentries, hedit⟩
  · rw [hdup]
    dsimp only
    rw [hslot]
    dsimp only
    rw [hentry]
    exact .inr ⟨_, _, _, rfl, hedit.trans (.setFlags o' hentry _)⟩

theorem closeForSpawn_edit : Edit t o (t.closeForSpawn fd o).1 (t.closeForSpawn fd o).2 [] [] := by
  unfold closeForSpawn
  split
  · rcases t.close_cases fd o with ⟨e, hclose⟩ | ⟨_, t', o', hclose, hedit⟩
    · rw [hclose]
      exact .refl t o
    · rw [hclose]
      exact hedit
  · exact .refl t o

theorem execSlot_edit (s : FdTable H × HandleOps H ε) (index : Slot) :
    Edit s.1 s.2 (execSlot s index).1 (execSlot s index).2 [] [] := by
  unfold execSlot
  cases hentry : s.1.entries index with
  | none => exact .refl _ _
  | some entry =>
    dsimp only
    split
    next hexec =>
      refine .setEntry hexec.1 ?_
      rw [hentry, HandleOps.closeHandle, ← Multiset.coe_add, slotHandles_some, slotHandles_none, Multiset.coe_nil,
        Multiset.coe_singleton]
      abel
    · exact .refl _ _

theorem foldl_execSlot_edit (indices : List Slot) (s : FdTable H × HandleOps H ε) :
    Edit s.1 s.2 (indices.foldl execSlot s).1 (indices.foldl execSlot s).2 [] [] := by
  induction indices generalizing s with
  | nil => exact .refl _ _
  | cons index indices ih => exact (execSlot_edit s index).trans (ih (execSlot s index))

end FdTable

end MochiSyscalls.PosixClient
