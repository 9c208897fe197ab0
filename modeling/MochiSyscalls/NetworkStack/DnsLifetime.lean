import MochiSyscalls.NetworkStack.DnsCoherence

/-! # Lifetimes in the DNS cache

Every set that a lookup returns is one that was inserted, or its terminal copy, grown older: its
lifetime and that of its SOA are what the time since the insert has left of them. Putting a
looked-up set back at the same instant keeps its origin, so that no deadline moves later. -/

namespace MochiSyscalls.NetworkStack
open Foundations Words List
set_option autoImplicit false

/-! ## Older copies of a set -/

namespace DnsRecordSet

def bare (s : DnsRecordSet) : DnsRecordSet :=
  { s with kind := .a, ttlSeconds := 0,
           negative := s.negative.map fun n => { n with soa := n.soa.map fun soa => { soa with ttl := 0 } } }

/-- The sets that `insert_records` stores for a set: itself, and the terminal copy of an aliased
negative answer. -/
def Copy (r o : DnsRecordSet) : Prop :=
  o = r ∨ ∃ soa, r.soa = some soa ∧ r.canonicalName ≠ r.question ∧ o = r.terminal soa

/-- `s` at the time `now` is the set `o` of the time `since` grown older. -/
structure Older (o : DnsRecordSet) (since : ℕ) (s : DnsRecordSet) (now : ℕ) : Prop where
  same : s.bare = o.bare
  kind : s.kind = o.kind ∨ o.nameError = true
  ttl : 1000 * s.ttlSeconds.toNat ≤ since + 1000 * o.ttlSeconds.toNat - now
  soaTtl : ∀ soa', s.soa = some soa' → ∃ soa, o.soa = some soa ∧
    1000 * soa'.ttl.toNat ≤ since + 1000 * soa.ttl.toNat - now

theorem Older.refl (s : DnsRecordSet) (now : ℕ) : s.Older now s now :=
  ⟨rfl, .inl rfl, by omega, fun soa h => ⟨soa, h, by omega⟩⟩

section Bare

variable {s o : DnsRecordSet} (h : s.bare = o.bare)
include h

theorem question_of_bare : s.question = o.question := congrArg (fun x => x.question) h

theorem canonicalName_of_bare : s.canonicalName = o.canonicalName := congrArg (fun x => x.canonicalName) h

theorem aliases_of_bare : s.aliases = o.aliases := congrArg (fun x => x.aliases) h

theorem values_of_bare : s.values = o.values := congrArg (fun x => x.values) h

theorem nameError_of_bare : s.nameError = o.nameError := by
  have hkind : s.negative.map DnsNegative.kind = o.negative.map DnsNegative.kind := by
    have hneg := congrArg (fun x => x.negative.map DnsNegative.kind) h
    dsimp only [bare] at hneg
    rw [Option.map_map, Option.map_map] at hneg
    exact hneg
  have hany : ∀ n : Option DnsNegative, (n.any fun x => x.kind = .nameError) =
      (n.map DnsNegative.kind).any fun k => k = .nameError := by
    intro n
    cases n <;> rfl
  unfold nameError
  rw [aliases_of_bare h, hany, hany, hkind]

end Bare

theorem Older.terminal {r o s : DnsRecordSet} {since now : ℕ} (hcopy : r.Copy o) (h : o.Older since s now)
    {soa' : DnsSoa} (hsoa : s.soa = some soa') (hne : s.canonicalName ≠ s.question) :
    ∃ o', r.Copy o' ∧ o'.Older since (s.terminal soa') now := by
  rw [canonicalName_of_bare h.same, question_of_bare h.same] at hne
  obtain rfl | ⟨_, _, _, rfl⟩ := hcopy
  · obtain ⟨soa, hsoa', hle⟩ := h.soaTtl soa' hsoa
    refine ⟨o.terminal soa, .inr ⟨soa, hsoa', hne, rfl⟩, ?_, ?_, hle, h.soaTtl⟩
    · exact congrArg (fun x : DnsRecordSet => { x with question := x.canonicalName, aliases := [] }) h.same
    · refine h.kind.imp_right fun herr => ?_
      unfold nameError at herr ⊢
      rw [Bool.and_eq_true] at herr
      exact herr.2
  · exact absurd rfl hne

end DnsRecordSet

/-! ## Entries -/

/-- An entry stored by the time `clock` goes back to an insert of the list. -/
def CacheEntry.Backed (inserted : List (DnsRecordSet × UInt64)) (clock : UInt64) (e : CacheEntry) : Prop :=
  ∃ r since, (r, since) ∈ inserted ∧ since ≤ clock ∧ ∃ o, r.Copy o ∧ e.records.bare = o.bare ∧
    (e.records.kind = o.kind ∨ o.nameError = true) ∧
    e.expiresAt.toNat ≤ since.toNat + 1000 * o.ttlSeconds.toNat ∧
    ∀ d, e.soaExpiresAt = some d → ∃ soa, o.soa = some soa ∧
      d.toNat ≤ max (since.toNat + 1000 * soa.ttl.toNat) clock.toNat

def DnsRecordSet.Descends (inserted : List (DnsRecordSet × UInt64)) (now : UInt64) (s : DnsRecordSet) : Prop :=
  ∃ r since, (r, since) ∈ inserted ∧ since ≤ now ∧ ∃ o, r.Copy o ∧ o.Older since.toNat s now.toNat

variable {inserted : List (DnsRecordSet × UInt64)} {e : CacheEntry}

theorem CacheEntry.Backed.mono {inserted' : List (DnsRecordSet × UInt64)} {clock clock' : UInt64}
    (h : e.Backed inserted clock) (hsub : inserted ⊆ inserted') (hle : clock ≤ clock') : e.Backed inserted' clock' := by
  obtain ⟨r, since, hm, hs, o, hcopy, hb, hk, ht, hsoa⟩ := h
  refine ⟨r, since, hsub hm, UInt64.le_trans hs hle, o, hcopy, hb, hk, ht, ?_⟩
  intro d hd
  obtain ⟨soa, hso, hle'⟩ := hsoa d hd
  rw [UInt64.le_iff_toNat_le] at hle
  exact ⟨soa, hso, by omega⟩

theorem DnsRecordSet.Descends.made {now : UInt64} {s : DnsRecordSet}
    (h : s.Descends inserted now) (hstored : ¬ DnsCache.transient s now) :
    (CacheEntry.made s now).Backed inserted now := by
  obtain ⟨r, since, hm, hs, o, hcopy, hold⟩ := h
  have hz : s.ttlSeconds.toNat ≠ (0 : UInt32).toNat := fun hc => hstored (.inl (UInt32.toNat_inj.mp hc))
  have hz0 : (0 : UInt32).toNat = 0 := rfl
  refine ⟨r, since, hm, hs, o, hcopy, hold.same, hold.kind, ?_, ?_⟩
  · have httl := hold.ttl
    dsimp only [CacheEntry.made]
    rw [deadline_toNat]
    omega
  · intro d hd
    obtain ⟨soa', hsoa', rfl⟩ := Option.map_eq_some_iff.mp hd
    obtain ⟨soa, hsoa, hle⟩ := hold.soaTtl soa' hsoa'
    refine ⟨soa, hsoa, ?_⟩
    rw [deadline_toNat]
    omega

variable {kind : DnsRecordType}

theorem CacheEntry.aged_spec {now : UInt64} {s : DnsRecordSet} (h : e.aged kind now = some s) :
    s.bare = e.records.bare ∧ s.kind = kind ∧ s.ttlSeconds = secondsLeft e.expiresAt now ∧
      ∀ soa', s.soa = some soa' → ∃ d, e.soaExpiresAt = some d ∧ soa'.ttl = secondsLeft d now := by
  unfold CacheEntry.aged at h
  dsimp only at h
  split at h
  next negativeKind soa hneg =>
    split at h
    · cases h
    next d hd =>
      cases h
      refine ⟨?_, rfl, rfl, ?_⟩
      · unfold DnsRecordSet.bare
        rw [hneg]
        rfl
      · intro soa' hsoa'
        cases hsoa'
        exact ⟨d, hd, rfl⟩
  next hneg =>
    cases h
    refine ⟨rfl, rfl, rfl, ?_⟩
    intro soa' hsoa'
    obtain ⟨n, hn, hs⟩ := Option.bind_eq_some_iff.mp hsoa'
    exact absurd (hn.trans (by rw [← hs])) (hneg n.kind soa')

theorem CacheEntry.Backed.aged {clock now : UInt64}
    (h : e.Backed inserted clock) (hclock : clock ≤ now) {name : DnsRecordName}
    (hlive : now < e.expiresAt) (hanswers : e.answers name kind = true) {s : DnsRecordSet}
    (hs : e.aged kind now = some s) :
    ∃ r since, (r, since) ∈ inserted ∧ since ≤ now ∧ ∃ o, r.Copy o ∧ o.Older since.toNat s now.toNat ∧
      now.toNat < since.toNat + 1000 * o.ttlSeconds.toNat := by
  obtain ⟨r, since, hm, hsince, o, hcopy, hb, hk, ht, hsoa⟩ := h
  obtain ⟨hbare, hkind, httl, hsoattl⟩ := aged_spec hs
  rw [UInt64.lt_iff_toNat_lt] at hlive
  rw [UInt64.le_iff_toNat_le] at hclock
  refine ⟨r, since, hm, ?_, o, hcopy, ⟨hbare.trans hb, ?_, ?_, ?_⟩, by omega⟩
  · rw [UInt64.le_iff_toNat_le] at hsince ⊢
    omega
  · unfold CacheEntry.answers at hanswers
    rw [Bool.and_eq_true, Bool.or_eq_true, decide_eq_true_eq, decide_eq_true_eq] at hanswers
    obtain hsame | herr := hanswers.2
    · rw [hkind, ← hsame]
      exact hk
    · exact .inr ((DnsRecordSet.nameError_of_bare hb).symm.trans herr)
  · rw [httl, secondsLeft_toNat]
    omega
  · intro soa' hsoa'
    obtain ⟨d, hd, he⟩ := hsoattl soa' hsoa'
    obtain ⟨soa, hso, hle⟩ := hsoa d hd
    refine ⟨soa, hso, ?_⟩
    rw [he, secondsLeft_toNat]
    omega

/-! ## Runs -/

/-- A cache with the sets that were inserted from outside and the time of the last operation. -/
structure DnsCacheHistory where
  cache : DnsCache
  inserted : List (DnsRecordSet × UInt64)
  clock : UInt64

/-- The operations; `reinsert` puts the set that a lookup returns back at the same instant. -/
inductive DnsCacheEvent where
  | insertRecords (s : DnsRecordSet) (now : UInt64)
  | lookupRecords (name : DnsRecordName) (kind : DnsRecordType) (now : UInt64)
  | reinsert (name : DnsRecordName) (kind : DnsRecordType) (now : UInt64)

def DnsCacheEvent.now : DnsCacheEvent → UInt64
  | .insertRecords _ now => now
  | .lookupRecords _ _ now => now
  | .reinsert _ _ now => now

def DnsCache.reinsert (c : DnsCache) (name : DnsRecordName) (kind : DnsRecordType) (now : UInt64) : DnsCache :=
  match c.lookupRecords name kind now with
  | (c, none) => c
  | (c, some s) => (c.insertRecords s now).1

namespace DnsCacheHistory

def new (capacity : ℕ) : DnsCacheHistory := { cache := .new capacity, inserted := [], clock := 0 }

def step (h : DnsCacheHistory) (event : DnsCacheEvent) : DnsCacheHistory :=
  match event with
  | .insertRecords s now =>
    { cache := (h.cache.insertRecords s now).1, inserted := h.inserted ++ [(s, now)], clock := now }
  | .lookupRecords name kind now => { h with cache := (h.cache.lookupRecords name kind now).1, clock := now }
  | .reinsert name kind now => { h with cache := h.cache.reinsert name kind now, clock := now }

def Timely (h : DnsCacheHistory) (event : DnsCacheEvent) : Prop := h.clock ≤ event.now

def Traced (h : DnsCacheHistory) : Prop := ∀ e ∈ h.cache.entries, e.Backed h.inserted h.clock

end DnsCacheHistory

theorem DnsCache.lookupRecords_spec {c : DnsCache} {name : DnsRecordName} {now : UInt64}
    {s : DnsRecordSet} (h : (c.lookupRecords name kind now).2 = some s) :
    ∃ e ∈ c.entries, now < e.expiresAt ∧ e.answers name kind = true ∧ e.aged kind now = some s := by
  obtain ⟨e, hfind, hs⟩ := Option.bind_eq_some_iff.mp h
  have hm := mem_filter.mp (mem_of_find?_eq_some hfind)
  have hanswers := find?_some (p := fun e : CacheEntry => e.answers name kind) hfind
  exact ⟨e, hm.1, of_decide_eq_true hm.2, hanswers, hs⟩

theorem DnsCache.insertRecords_backed {now : UInt64} {c : DnsCache}
    (hc : ∀ e ∈ c.entries, e.Backed inserted now) {s : DnsRecordSet} (hs : s.Descends inserted now) :
    ∀ e ∈ (c.insertRecords s now).1.entries, e.Backed inserted now := by
  refine DnsCache.insertRecords_invariant (P := fun c => ∀ e ∈ c.entries, e.Backed inserted now)
    (W := DnsRecordSet.Descends inserted now) ?_ hs ?_ hc
  · intro c x hc hx e he
    obtain ⟨r, heq⟩ | ⟨hstored, _, heq⟩ := c.insertOne_cases x now
    · rw [heq] at he
      exact hc e ((c.kept_sublist x now).subset he)
    · rw [heq] at he
      obtain he | rfl := Rows.mem_snoc.mp he
      · exact hc e ((c.kept_sublist x now).subset ((evict_suffix c.capacity _).subset he))
      · exact hx.made hstored
  · intro soa' hsoa' hne
    obtain ⟨r, since, hm, hle, o, hcopy, hold⟩ := hs
    obtain ⟨o', hcopy', hold'⟩ := hold.terminal hcopy hsoa' hne
    exact ⟨r, since, hm, hle, o', hcopy', hold'⟩

namespace DnsCacheHistory

theorem Traced.step {h : DnsCacheHistory} (ht : h.Traced) {event : DnsCacheEvent} (htime : h.Timely event) :
    (h.step event).Traced := by
  unfold Timely at htime
  cases event with
  | insertRecords s now =>
    have hsub : h.inserted ⊆ h.inserted ++ [(s, now)] := subset_append_left ..
    have hlog : (s, now) ∈ h.inserted ++ [(s, now)] := mem_append_right _ (mem_singleton_self _)
    exact DnsCache.insertRecords_backed (fun e he => (ht e he).mono hsub htime)
      ⟨s, now, hlog, UInt64.le_refl now, s, .inl rfl, .refl s now.toNat⟩
  | lookupRecords name kind now =>
    exact fun e he => (ht e (filter_sublist.subset he)).mono (List.Subset.refl _) htime
  | reinsert name kind now =>
    have hlive : ∀ e ∈ (h.cache.lookupRecords name kind now).1.entries, e.Backed h.inserted now :=
      fun e he => (ht e (filter_sublist.subset he)).mono (List.Subset.refl _) htime
    show ∀ e ∈ (h.cache.reinsert name kind now).entries, e.Backed h.inserted now
    unfold DnsCache.reinsert
    split
    next c hl =>
      rw [hl] at hlive
      exact hlive
    next c s hl =>
      obtain ⟨e, hm, hexp, hans, hs⟩ := DnsCache.lookupRecords_spec (congrArg Prod.snd hl)
      obtain ⟨r, since, hr, hle, o, hcopy, hold, _⟩ := (ht e hm).aged htime hexp hans hs
      rw [hl] at hlive
      exact DnsCache.insertRecords_backed hlive ⟨r, since, hr, hle, o, hcopy, hold⟩

/-- **A lifetime is never extended.** What a lookup returns goes back to an insert, with at most the lifetime the time
since has left of it. -/
theorem lifetime_never_extended (capacity : ℕ) (events : List DnsCacheEvent)
    (htimes : Runs.Along step Timely (new capacity) events) (name : DnsRecordName) (kind : DnsRecordType) (now : UInt64)
    (hnow : (Runs.run step (new capacity) events).clock ≤ now) (s : DnsRecordSet)
    (hs : ((Runs.run step (new capacity) events).cache.lookupRecords name kind now).2 = some s) :
    ∃ r t₀, (r, t₀) ∈ (Runs.run step (new capacity) events).inserted ∧ t₀ ≤ now ∧ ∃ o, r.Copy o ∧
      s.question = o.question ∧ s.values = o.values ∧ s.aliases = o.aliases ∧ s.canonicalName = o.canonicalName ∧
      s.bare = o.bare ∧ (s.kind = o.kind ∨ o.nameError = true) ∧
      now.toNat < t₀.toNat + 1000 * o.ttlSeconds.toNat ∧
      1000 * s.ttlSeconds.toNat ≤ 1000 * o.ttlSeconds.toNat - (now.toNat - t₀.toNat) ∧
      ∀ soa', s.soa = some soa' → ∃ soa, o.soa = some soa ∧
        1000 * soa'.ttl.toNat ≤ 1000 * soa.ttl.toNat - (now.toNat - t₀.toNat) := by
  have htraced : (Runs.run step (new capacity) events).Traced :=
    Runs.along_invariant step (fun _ _ ht htime => ht.step htime) (show (new capacity).Traced from nofun) htimes
  obtain ⟨e, hm, hlive, hans, haged⟩ := DnsCache.lookupRecords_spec hs
  obtain ⟨r, t₀, hr, hle, o, hcopy, hold, hin⟩ := (htraced e hm).aged hnow hlive hans haged
  have hle' := UInt64.le_iff_toNat_le.mp hle
  refine ⟨r, t₀, hr, hle, o, hcopy, DnsRecordSet.question_of_bare hold.same, DnsRecordSet.values_of_bare hold.same,
    DnsRecordSet.aliases_of_bare hold.same, DnsRecordSet.canonicalName_of_bare hold.same, hold.same, hold.kind, hin,
    ?_, ?_⟩
  · have httl := hold.ttl
    omega
  · intro soa' hsoa'
    obtain ⟨soa, hso, hsoale⟩ := hold.soaTtl soa' hsoa'
    exact ⟨soa, hso, by omega⟩

end DnsCacheHistory

namespace DnsFixture

/-- NODATA for `a` with 50 seconds to live, looked up and put back after 20.5 seconds. -/
def putBack : List DnsCacheEvent := [.insertRecords noDataA 0, .reinsert ⟨nameA⟩ .a 20500]

def agedNoDataA : DnsRecordSet :=
  { noDataA with ttlSeconds := 19, negative := some { kind := .noData, soa := some { soaRoot with ttl := 19 } } }

theorem lifetime_never_extended_fixture :
    ∃ r t₀, (r, t₀) ∈ [(noDataA, (0 : UInt64))] ∧ ∃ o, r.Copy o ∧ agedNoDataA.bare = o.bare ∧
      1000 * 19 ≤ 1000 * o.ttlSeconds.toNat - (30000 - t₀.toNat) := by
  have htimes : Runs.Along DnsCacheHistory.step DnsCacheHistory.Timely (DnsCacheHistory.new 4) putBack :=
    ⟨show (0 : UInt64) ≤ 0 by decide, show (0 : UInt64) ≤ 20500 by decide, trivial⟩
  obtain ⟨r, t₀, hm, _, o, hcopy, _, _, _, _, hbare, _, _, httl, _⟩ :=
    DnsCacheHistory.lifetime_never_extended 4 putBack htimes ⟨nameA⟩ .a 30000 (by decide) agedNoDataA (by decide)
  exact ⟨r, t₀, hm, o, hcopy, hbare, httl⟩

end DnsFixture

end MochiSyscalls.NetworkStack
