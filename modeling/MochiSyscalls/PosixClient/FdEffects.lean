import MochiSyscalls.Foundations.Leases
import MochiSyscalls.PosixClient.FdTable

/-! # What an operation does to the table

Every operation is a chain of a few effects: an edit of slots that are not reserved, a token granted, taken
back by its commit or its cancellation, or all tokens lost. The reservations of the table are leases of its
slots, and what leases keep holds for whole chains. -/

namespace MochiSyscalls.PosixClient
open Foundations Words Leases List
set_option autoImplicit false

variable {H ε : Type}

inductive Token where
  | single (reservation : FdReservation)
  | replacement (replacement : FdReplacement)
  | group (group : FdReservations)
  deriving DecidableEq

namespace Token

def lease : Token → Lease Slot
  | .single r => { slots := [r.index], generation := r.generation }
  | .replacement r => { slots := [r.index], generation := r.generation }
  | .group g => { slots := g.indices, generation := g.generation }

/-- The slots of the token are empty while it is pending: it is not a replacement. -/
def Exclusive : Token → Prop
  | .replacement _ => False
  | _ => True

def Holds (tok : Token) (t : FdTable H) (index : Slot) : Prop :=
  index ∈ tok.lease.slots ∧ t.reservations index = tok.lease.generation

end Token

/-- The slot holds the same handle as before, or none as before. -/
def SameHandle (entry entry' : Option (Entry H)) : Prop := entry.map Entry.handle = entry'.map Entry.handle

theorem SameHandle.eq_none {entry entry' : Option (Entry H)} (h : SameHandle entry entry') (hnone : entry = none) :
    entry' = none := by
  rw [SameHandle, hnone] at h
  exact Option.map_eq_none_iff.mp h.symm

/-! ## Effects -/

/-- One effect, with the tokens it issues and takes back. -/
inductive Effect : FdTable H → List Token → List Token → FdTable H → Prop
  | edit {t t' : FdTable H} (hreservations : t'.reservations = t.reservations)
      (hnext : t.nextReservation ≤ t'.nextReservation)
      (hentries : ∀ index, t.reservations index ≠ 0 → SameHandle (t.entries index) (t'.entries index)) :
    Effect t [] [] t'
  | grant (t : FdTable H) (tok : Token) (hnew : t.nextReservation < tok.lease.generation)
      (hfree : ∀ index ∈ tok.lease.slots, t.reservations index = 0)
      (hempty : tok.Exclusive → ∀ index ∈ tok.lease.slots, t.entries index = none) :
    Effect t [tok] [] { t with reservations := tok.lease.grant t.reservations, nextReservation := tok.lease.generation }
  | idle (t : FdTable H) (tok : Token) (h : tok.lease.slots = []) : Effect t [tok] [] t
  | release (t : FdTable H) (tok : Token) (entries : Slot → Option (Entry H))
      (hentries : ∀ index, ¬ tok.Holds t index → entries index = t.entries index) :
    Effect t [] [tok] { t with entries, reservations := tok.lease.release t.reservations }

inductive Effects : FdTable H → List Token → List Token → FdTable H → Prop
  | nil (t : FdTable H) : Effects t [] [] t
  | cons {t t₁ t' : FdTable H} {issued issued' released released' : List Token} (h : Effect t issued released t₁)
      (hrest : Effects t₁ issued' released' t') : Effects t (issued ++ issued') (released ++ released') t'

variable {t t' : FdTable H} {released : List Token} {issued : List Token}

theorem Effect.effects (h : Effect t issued released t') : Effects t issued released t' := by
  have hcons := Effects.cons h (.nil t')
  rwa [append_nil, append_nil] at hcons

/-! ### The leases -/

def ledger (t : FdTable H) (issued spent : List Token) : Ledger Slot :=
  { stamp := t.reservations, next := t.nextReservation, issued := issued.map Token.lease,
    ended := spent.map Token.lease }

theorem Effect.steps (h : Effect t issued released t')
    {before spent : List Token} (hissued : ∀ tok ∈ released, tok ∈ before) :
    Ledger.Steps (ledger t before spent) (ledger t' (before ++ issued) (spent ++ released)) := by
  cases h with
  | edit hreservations hnext hentries =>
    have hstep := Ledger.Step.skip (ledger t before spent) t'.nextReservation hnext
    simp only [append_nil, ledger, hreservations]
    exact .single hstep
  | grant tok hnew hfree hempty =>
    have hstep := Ledger.Step.grant (ledger t before spent) tok.lease hnew hfree
    simp only [append_nil, ledger, map_append, map_cons, map_nil]
    exact .single hstep
  | idle tok hnone =>
    have hstep := Ledger.Step.idle (ledger t before spent) tok.lease hnone
    simp only [append_nil, ledger, map_append, map_cons, map_nil]
    exact .single hstep
  | release tok entries hentries =>
    have hmem := mem_map_of_mem (f := Token.lease) (hissued tok mem_cons_self)
    have hstep := Ledger.Step.release (ledger t before spent) tok.lease hmem
    simp only [append_nil, ledger, map_append, map_cons, map_nil]
    exact .single hstep

theorem Effects.steps (h : Effects t issued released t')
    {before spent : List Token} (hissued : ∀ tok ∈ released, tok ∈ before) :
    Ledger.Steps (ledger t before spent) (ledger t' (before ++ issued) (spent ++ released)) := by
  induction h generalizing before spent with
  | nil t => rw [append_nil, append_nil]
  | cons h _ ih =>
    obtain ⟨hfirst, hrest⟩ := forall_mem_append.mp hissued
    rw [← append_assoc, ← append_assoc]
    exact (h.steps hfirst).trans (ih fun tok htok => mem_append_left _ (hrest tok htok))

/-! ### Empty slots -/

/-- The slots that a pending open or a group holds are empty. -/
def ExclusiveEmpty (t : FdTable H) (issued : List Token) : Prop :=
  ∀ tok ∈ issued, tok.Exclusive → ∀ index, tok.Holds t index → t.entries index = none

theorem Effect.exclusiveEmpty (h : Effect t issued released t')
    {before spent : List Token} (hledger : (ledger t before spent).Consistent) (hempty : ExclusiveEmpty t before) :
    ExclusiveEmpty t' (before ++ issued) := by
  have hgeneration : ∀ tok ∈ before, ∀ index ∈ tok.lease.slots, 0 < tok.lease.generation :=
    fun tok htok index hindex =>
      (hledger.generation _ (mem_map_of_mem htok) (ne_nil_of_mem hindex)).1
  cases h with
  | edit hreservations hnext hentries =>
    rw [append_nil]
    intro tok htok hexclusive index hholds
    have hold : tok.Holds t index := by
      rw [Token.Holds, hreservations] at hholds
      exact hholds
    have hpos := hgeneration tok htok index hold.1
    refine (hentries index ?_).eq_none (hempty tok htok hexclusive index hold)
    rw [hold.2]
    omega
  | grant tok hnew hfree hnone =>
    intro tok' htok' hexclusive index hholds
    rcases Rows.mem_snoc.mp htok' with htok' | rfl
    · refine hempty tok' htok' hexclusive index ⟨hholds.1, ?_⟩
      exact (hledger.grant_other hnew hfree (mem_map_of_mem htok') hholds.1).mp hholds.2
    · exact hnone hexclusive index hholds.1
  | idle tok hslots =>
    intro tok' htok' hexclusive index hholds
    rcases Rows.mem_snoc.mp htok' with htok' | rfl
    · exact hempty tok' htok' hexclusive index hholds
    · rw [Token.Holds, hslots] at hholds
      exact absurd hholds.1 not_mem_nil
  | release tok entries hentries =>
    rw [append_nil]
    intro tok' htok' hexclusive index hholds
    have hpos := hgeneration tok' htok' index hholds.1
    -- a slot that still carries a generation was not among those taken back
    have hkept : ¬ tok.Holds t index ∧ t.reservations index = tok'.lease.generation := by
      have hstamp : tok.lease.release t.reservations index = tok'.lease.generation := hholds.2
      unfold Lease.release at hstamp
      split at hstamp
      · omega
      next hnot => exact ⟨hnot, hstamp⟩
    exact (hentries index hkept.1).trans (hempty tok' htok' hexclusive index ⟨hholds.1, hkept.2⟩)

theorem Effects.exclusiveEmpty (h : Effects t issued released t')
    {before spent : List Token} (hissued : ∀ tok ∈ released, tok ∈ before)
    (hledger : (ledger t before spent).Consistent) (hempty : ExclusiveEmpty t before) :
    ExclusiveEmpty t' (before ++ issued) := by
  induction h generalizing before spent with
  | nil t =>
    rw [append_nil]
    exact hempty
  | cons h _ ih =>
    obtain ⟨hfirst, hrest⟩ := forall_mem_append.mp hissued
    have htail := ih (fun tok htok => mem_append_left _ (hrest tok htok)) ((h.steps hfirst).consistent hledger)
      (h.exclusiveEmpty hledger hempty)
    rwa [append_assoc] at htail

/-! ### Reserved slots -/

variable {index : Slot}

theorem Effect.frame (h : Effect t issued released t')
    (hreserved : t.reservations index ≠ 0) (hother : ∀ tok ∈ released, ¬ tok.Holds t index) :
    SameHandle (t.entries index) (t'.entries index) ∧ t'.reservations index = t.reservations index := by
  cases h with
  | edit hreservations hnext hentries => exact ⟨hentries index hreserved, congrFun hreservations index⟩
  | grant tok hnew hfree hempty => exact ⟨rfl, if_neg fun hindex => hreserved (hfree index hindex)⟩
  | idle tok hslots => exact ⟨rfl, rfl⟩
  | release tok entries hentries =>
    have hnot := hother tok mem_cons_self
    exact ⟨congrArg (Option.map Entry.handle) (hentries index hnot).symm, if_neg hnot⟩

theorem Effects.frame (h : Effects t issued released t') (hreserved : t.reservations index ≠ 0)
    (hother : ∀ tok ∈ released, ¬ tok.Holds t index) :
    SameHandle (t.entries index) (t'.entries index) ∧ t'.reservations index = t.reservations index := by
  induction h with
  | nil t => exact ⟨rfl, rfl⟩
  | cons h _ ih =>
    obtain ⟨hfirst, hrest⟩ := forall_mem_append.mp hother
    obtain ⟨hsame, hstamp⟩ := h.frame hreserved hfirst
    obtain ⟨hsame', hstamp'⟩ := ih (by rw [hstamp]; exact hreserved) fun tok htok hholds =>
      hrest tok htok ⟨hholds.1, hstamp.symm.trans hholds.2⟩
    exact ⟨hsame.trans hsame', hstamp'.trans hstamp⟩

/-! ## Handles -/

def slotHandles (entry : Option (Entry H)) : Multiset H := ↑(entry.map Entry.handle).toList

@[simp]
theorem slotHandles_none : slotHandles (none : Option (Entry H)) = 0 := rfl

@[simp]
theorem slotHandles_some (entry : Entry H) : slotHandles (some entry) = {entry.handle} := rfl

def FdTable.handles (t : FdTable H) : Multiset H := ∑ index, slotHandles (t.entries index)

theorem FdTable.handles_congr (h : t'.entries = t.entries) : t'.handles = t.handles := by
  rw [FdTable.handles, h, FdTable.handles]

theorem FdTable.handles_setEntry (t : FdTable H) (index : Slot) (entry : Option (Entry H)) :
    (t.setEntry index entry).handles + slotHandles (t.entries index) = t.handles + slotHandles entry := by
  have hrest : ∑ i ∈ Finset.univ.erase index, slotHandles ((t.setEntry index entry).entries i) =
      ∑ i ∈ Finset.univ.erase index, slotHandles (t.entries i) := by
    refine Finset.sum_congr rfl fun i hi => ?_
    rw [t.setEntry_of_ne (Finset.ne_of_mem_erase hi)]
  rw [FdTable.handles, FdTable.handles, ← Finset.add_sum_erase _ _ (Finset.mem_univ index),
    ← Finset.add_sum_erase _ (fun i => slotHandles (t.entries i)) (Finset.mem_univ index), hrest, t.setEntry_self]
  abel

/-- An operation that leaves the reservations alone, with the handles it takes over and returns. -/
structure Edit (t : FdTable H) (o : HandleOps H ε) (t' : FdTable H) (o' : HandleOps H ε) (taken returned : List H) :
    Prop where
  reservations : t'.reservations = t.reservations
  next : t.nextReservation ≤ t'.nextReservation
  entries : ∀ index, t.reservations index ≠ 0 → SameHandle (t.entries index) (t'.entries index)
  conserved : t'.handles + o'.closed + returned + o.cloned = t.handles + o.closed + taken + o'.cloned

namespace Edit

theorem refl (t : FdTable H) (o : HandleOps H ε) : Edit t o t o [] [] :=
  ⟨rfl, le_rfl, fun _ _ => rfl, rfl⟩

variable {o o' : HandleOps H ε} {t : FdTable H}

theorem trans {t₁ t' : FdTable H} {o₁ : HandleOps H ε} {taken returned : List H}
    (h : Edit t o t₁ o₁ [] []) (h' : Edit t₁ o₁ t' o' taken returned) : Edit t o t' o' taken returned where
  reservations := h'.reservations.trans h.reservations
  next := h.next.trans h'.next
  entries index hindex := (h.entries index hindex).trans (h'.entries index (by rw [h.reservations]; exact hindex))
  conserved := by
    have h₁ : t₁.handles + o₁.closed + o.cloned = t.handles + o.closed + o₁.cloned := by
      have hc := h.conserved
      rwa [Multiset.coe_nil, add_zero, add_zero] at hc
    have h₂ := h'.conserved
    refine add_right_cancel (b := t₁.handles + o₁.closed + ↑o₁.cloned) ?_
    calc t'.handles + o'.closed + returned + o.cloned + (t₁.handles + o₁.closed + o₁.cloned)
        = (t'.handles + o'.closed + returned + o₁.cloned) + (t₁.handles + o₁.closed + o.cloned) := by abel
      _ = (t₁.handles + o₁.closed + taken + o'.cloned) + (t.handles + o.closed + o₁.cloned) := by rw [h₁, h₂]
      _ = t.handles + o.closed + taken + o'.cloned + (t₁.handles + o₁.closed + o₁.cloned) := by abel

theorem setEntry {taken returned : List H} {entry : Option (Entry H)} (hfree : t.reservations index = 0)
    (hslot : slotHandles entry + o'.closed + returned + o.cloned =
      slotHandles (t.entries index) + o.closed + taken + o'.cloned) :
    Edit t o (t.setEntry index entry) o' taken returned where
  reservations := rfl
  next := le_rfl
  entries i hi := by
    have hne : i ≠ index := by
      rintro rfl
      exact hi hfree
    rw [SameHandle, t.setEntry_of_ne hne]
  conserved := by
    have hset := t.handles_setEntry index entry
    refine add_right_cancel (b := slotHandles (t.entries index)) ?_
    calc (t.setEntry index entry).handles + o'.closed + returned + o.cloned + slotHandles (t.entries index)
        = ((t.setEntry index entry).handles + slotHandles (t.entries index)) + (o'.closed + returned + o.cloned) := by abel
      _ = t.handles + (slotHandles entry + o'.closed + returned + o.cloned) := by
        rw [hset]
        abel
      _ = t.handles + o.closed + taken + o'.cloned + slotHandles (t.entries index) := by
        rw [hslot]
        abel

theorem setFlags (o : HandleOps H ε) {entry : Entry H} (h : t.entries index = some entry)
    (flags : UInt32) : Edit t o (t.setEntry index (some { entry with descriptorFlags := flags })) o [] [] where
  reservations := rfl
  next := le_rfl
  entries i _ := by
    by_cases hi : i = index
    · rw [SameHandle, hi, h, t.setEntry_self]
      rfl
    · rw [SameHandle, t.setEntry_of_ne hi]
  conserved := by
    have hset := t.handles_setEntry index (some { entry with descriptorFlags := flags })
    have hsame : slotHandles (t.entries index) = slotHandles (some { entry with descriptorFlags := flags }) := by
      rw [h]
      rfl
    rw [hsame] at hset
    rw [add_right_cancel hset]

end Edit

end MochiSyscalls.PosixClient
