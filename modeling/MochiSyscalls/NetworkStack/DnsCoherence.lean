import MochiSyscalls.Foundations.Rows
import MochiSyscalls.NetworkStack.DnsCache

/-! # Coherence of the DNS cache

The sets that `decode_dns_answer` and `follow_answer` produce, and what a cache of such sets keeps
over every run: its capacity, at most one answer for each question and type, and, as long as no
aliased values meet a NODATA entry for their canonical name, no two entries that contradict each
other. -/

namespace MochiSyscalls.NetworkStack
open Foundations Words Loops Rows List Option DnsRecordSet Bool
set_option autoImplicit false

/-! ## Sets that come from answers -/

/-- Values exclude a negative part, and the alias path starts at the question or is empty. -/
structure DnsRecordSet.Proper (s : DnsRecordSet) : Prop where
  positive : s.values ≠ [] → s.negative = none
  direct : s.question = s.canonicalName → s.aliases = []
  aliased : s.question ≠ s.canonicalName → s.question ∈ s.aliases

/-- The sets that `decode_dns_answer` and `follow_answer` return. -/
inductive Produced : DnsRecordSet → Prop
  | decode {packet : List UInt8} {transactionId : UInt16} {name : DnsRecordName} {kind : DnsRecordType}
      {s : DnsRecordSet} : decodeDnsAnswer packet transactionId name kind = .ok s → Produced s
  | follow {s answer s' : DnsRecordSet} {elapsedMs : UInt64} : Produced s → Produced answer →
      s.followAnswer answer elapsedMs = .ok s' → Produced s'

variable {name : DnsRecordName}

theorem aliasLoop_path {records : List DnsRecord} {path : AliasPath}
    (h : (aliasLoop records).run { canonical := name, visited := [], ttl := none } = .ok path) :
    ∃ front, path.visited = front ++ [path.canonical] ∧ path.canonical ∉ front ∧
      ((front = [] ∧ path.canonical = name) ∨ name ∈ front) := by
  refine Loop.run_invariant (P := fun p : AliasPath => (p.visited = [] ∧ p.canonical = name) ∨ name ∈ p.visited)
    (Q := fun p : AliasPath => ∃ front, p.visited = front ++ [p.canonical] ∧ p.canonical ∉ front ∧
      ((front = [] ∧ p.canonical = name) ∨ name ∈ front)) ?_ ?_ (.inl ⟨rfl, rfl⟩) h
  · intro p p' hp hb
    obtain ⟨_, hv, _⟩ := aliasBody_again hb
    right
    rw [hv, mem_append, mem_singleton]
    obtain ⟨_, hc⟩ | hm := hp
    · exact .inr hc.symm
    · exact .inl hm
  · intro p p' hp hb
    obtain ⟨hn, hv, hc⟩ := aliasBody_done hb
    exact ⟨p.visited, by rw [hv, hc], hc ▸ hn, hc ▸ hp⟩

variable {s : DnsRecordSet}

theorem decodeDnsAnswer_proper {packet : List UInt8} {transactionId : UInt16}
    {kind : DnsRecordType} (h : decodeDnsAnswer packet transactionId name kind = .ok s) : s.Proper := by
  obtain ⟨m, hm, hr⟩ := bind_eq_ok.mp h
  obtain ⟨path, soa, hpath, hq, _, hc, hv, ha, _, hn, _⟩ := resolveAnswer_ok hr
  rw [decodeMessage_question hm] at hq
  obtain ⟨front, hvisited, hnot, hstart⟩ := aliasLoop_path hpath
  rw [hvisited, dropLast_concat] at ha
  refine ⟨fun hne => negativeAnswer_of_values hv hne hn, ?_, ?_⟩
  · intro he
    rw [hq, hc] at he
    obtain ⟨hf, _⟩ | hm := hstart
    · rw [ha, hf]
    · exact absurd (he ▸ hm) hnot
  · intro hne
    rw [hq, hc] at hne
    obtain ⟨_, hc'⟩ | hm := hstart
    · exact absurd hc'.symm hne
    · rw [hq, ha]
      exact hm

theorem joinAlias_subset {names aliases aliases' : List DnsRecordName}
    (h : names.foldlM DnsRecordSet.joinAlias aliases = .ok aliases') : aliases ⊆ aliases' := by
  induction names generalizing aliases with
  | nil =>
    cases h
    exact List.Subset.refl _
  | cons name names ih =>
    rw [foldlM_cons, bind_eq_ok] at h
    obtain ⟨next, hn, h⟩ := h
    unfold joinAlias at hn
    split at hn
    · cases hn
    · cases hn
      exact List.Subset.trans (subset_append_left ..) (ih h)

theorem followAnswer_proper {answer s' : DnsRecordSet} {elapsedMs : UInt64} (hs : s.Proper)
    (hanswer : answer.Proper) (h : s.followAnswer answer elapsedMs = .ok s') : s'.Proper := by
  simp only [followAnswer, bind_eq_ok, reject_eq_ok] at h
  obtain ⟨_, hcheck, aliases, hjoin, _, hloop, _, _, hs'⟩ := h
  cases hs'
  have hquestion : s.question ∈ aliases :=
    joinAlias_subset hjoin (hs.aliased fun he => hcheck (.inr (.inr (.inl he.symm))))
  refine ⟨hanswer.positive, ?_, fun _ => hquestion⟩
  intro he
  exact absurd (he ▸ hquestion) hloop

theorem Produced.proper (h : Produced s) : s.Proper := by
  induction h with
  | decode h => exact decodeDnsAnswer_proper h
  | follow _ _ h ih ih' => exact followAnswer_proper ih ih' h

theorem ipv4_proper (name : DnsName) (address : Address) (ttl : UInt32) : (DnsRecordSet.ipv4 name address ttl).Proper :=
  ⟨fun _ => rfl, fun _ => rfl, fun h => absurd rfl h⟩

theorem DnsRecordSet.Proper.terminal (h : s.Proper) (soa : DnsSoa) : (s.terminal soa).Proper :=
  ⟨h.positive, fun _ => rfl, fun hne => absurd rfl hne⟩

/-! ## Contradictions -/

/-- A terminal negative set that applies to a type, and values of that type at its name. -/
def DnsRecordSet.Contradicts (n p : DnsRecordSet) : Prop :=
  (n.negative.any fun x => x.kind = .nameError ∨ (x.kind = .noData ∧ n.kind = p.kind)) ∧
    n.question = n.canonicalName ∧ p.values ≠ [] ∧ p.canonicalName = n.question
  deriving Decidable

/-- The pair the conflict test misses: a NODATA set, and values of its type at its name reached through an alias. -/
def DnsRecordSet.Masks (n p : DnsRecordSet) : Prop :=
  (n.negative.any fun x => x.kind = .noData) ∧ n.question = n.canonicalName ∧ n.kind = p.kind ∧ p.values ≠ [] ∧
    p.canonicalName = n.question ∧ p.question ≠ p.canonicalName

theorem nameError_of_terminal {n : DnsRecordSet} (hn : n.Proper) (ht : n.question = n.canonicalName)
    (hk : n.negative.any fun x => x.kind = .nameError) : n.nameError = true := by
  unfold nameError
  rw [hn.direct ht, hk]
  rfl

variable {old : DnsRecordSet}

theorem conflict_of_contradicts (hs : s.Proper) (h : s.Contradicts old) : old.conflict s = true := by
  obtain ⟨hk, ht, _, hc⟩ := h
  have hsome : s.negative.isSome = true := by
    cases hneg : s.negative with
    | none =>
      rw [hneg] at hk
      cases hk
    | some _ => rfl
  have happlies : old.kind = s.kind ∨ s.nameError = true := by
    cases hneg : s.negative with
    | none =>
      rw [hneg] at hsome
      cases hsome
    | some x =>
      rw [hneg, any_some, decide_eq_true_eq] at hk
      obtain hk | ⟨_, hk⟩ := hk
      · exact .inr (nameError_of_terminal hs ht (by rw [hneg, any_some, decide_eq_true_eq]; exact hk))
      · exact .inl hk.symm
  unfold conflict
  simp only [or_eq_true, and_eq_true, decide_eq_true_eq]
  exact .inl (.inr ⟨⟨⟨hsome, ht⟩, hc⟩, happlies⟩)

theorem conflict_or_masks (hold : old.Proper) (hs : s.Proper) (h : old.Contradicts s) :
    old.conflict s = true ∨ old.Masks s := by
  obtain ⟨hk, ht, hv, hc⟩ := h
  have hneg := hs.positive hv
  unfold conflict
  simp only [or_eq_true, and_eq_true, decide_eq_true_eq]
  cases hx : old.negative with
  | none =>
    rw [hx] at hk
    cases hk
  | some x =>
    rw [hx, any_some, decide_eq_true_eq] at hk
    obtain hk | ⟨hk, hkind⟩ := hk
    · have herror := nameError_of_terminal hold ht (by rw [hx, any_some, decide_eq_true_eq]; exact hk)
      exact .inl (.inr ⟨⟨herror, hc.symm⟩, .inl (by rw [hneg]; rfl)⟩)
    · by_cases hq : s.question = s.canonicalName
      · exact .inl (.inl (.inl ⟨hc.symm.trans hq.symm, .inl (.inl hkind)⟩))
      · right
        exact ⟨by rw [hx, any_some, decide_eq_true_eq]; exact hk, ht, hkind, hv, hc, hq⟩

namespace DnsCache

def Coherent (c : DnsCache) : Prop := ∀ e ∈ c.entries, ∀ f ∈ c.entries, ¬ e.records.Contradicts f.records
  deriving Decidable

structure Sound (c : DnsCache) : Prop where
  proper : ∀ e ∈ c.entries, e.records.Proper
  single : c.entries.Pairwise fun e f => ∀ name kind, ¬ (e.answers name kind = true ∧ f.answers name kind = true)
  bounded : c.entries.length ≤ c.capacity

theorem sound_new (capacity : ℕ) : (new capacity).Sound := ⟨nofun, List.Pairwise.nil, Nat.zero_le _⟩

variable {c : DnsCache} {entries : List CacheEntry}

theorem Sound.sublist (h : c.Sound) (hsub : entries.Sublist c.entries) : Sound { c with entries } :=
  ⟨fun e he => h.proper e (hsub.subset he), h.single.sublist hsub, hsub.length_le.trans h.bounded⟩

theorem conflict_of_answers {e f : CacheEntry} {kind : DnsRecordType}
    (he : e.answers name kind = true) (hf : f.answers name kind = true) : e.records.conflict f.records = true := by
  unfold CacheEntry.answers at he hf
  unfold conflict
  simp only [or_eq_true, and_eq_true, decide_eq_true_eq] at he hf ⊢
  obtain ⟨hq, hk⟩ := he
  obtain ⟨hq', hk'⟩ := hf
  refine .inl (.inl ⟨hq.trans hq'.symm, ?_⟩)
  obtain hk | hk := hk
  · obtain hk' | hk' := hk'
    · exact .inl (.inl (hk.trans hk'.symm))
    · exact .inr hk'
  · exact .inl (.inr hk)

variable {s : DnsRecordSet} {now : UInt64}

theorem mem_kept {e : CacheEntry} :
    e ∈ c.kept s now ↔ e ∈ c.entries ∧ now < e.expiresAt ∧ e.records.conflict s = false := by
  unfold kept
  rw [mem_filter, and_eq_true, decide_eq_true_eq, not_eq_true']

theorem kept_sublist (c : DnsCache) (s : DnsRecordSet) (now : UInt64) : (c.kept s now).Sublist c.entries :=
  filter_sublist

theorem Sound.insertOne (h : c.Sound) (hs : s.Proper) (now : UInt64) : (c.insertOne s now).1.Sound := by
  obtain ⟨r, he⟩ | ⟨_, hcap, he⟩ := c.insertOne_cases s now
  · rw [he]
    exact h.sublist (c.kept_sublist s now)
  rw [he]
  have hsub := (evict_suffix c.capacity (c.kept s now)).sublist
  have hold := h.sublist (hsub.trans (c.kept_sublist s now))
  have hlen := evict_length hcap (c.kept s now)
  refine ⟨?_, ?_, ?_⟩
  · intro e he
    obtain he | rfl := mem_snoc.mp he
    · exact hold.proper e he
    · exact hs
  · refine pairwise_snoc hold.single fun e he name kind hboth => ?_
    have hfree := (mem_kept.mp (hsub.subset he)).2.2
    have hconf := conflict_of_answers hboth.1 hboth.2
    rw [CacheEntry.made, hfree] at hconf
    cases hconf
  · dsimp only
    rw [length_append, length_singleton]
    omega

theorem Sound.insertRecords (h : c.Sound) (hs : s.Proper) (now : UInt64) : (c.insertRecords s now).1.Sound :=
  insertRecords_invariant (fun _ _ hc hx => hc.insertOne hx now) hs (fun soa _ _ => hs.terminal soa) h

/-- An insert meets no live NODATA entry for the canonical name and the type of values that come through an alias. -/
def Clear (c : DnsCache) (s : DnsRecordSet) (now : UInt64) : Prop :=
  s.ttlSeconds ≠ 0 → ∀ e ∈ c.entries, now < e.expiresAt → ¬ e.records.Masks s

theorem Coherent.sublist (h : c.Coherent) (hsub : entries.Sublist c.entries) : Coherent { c with entries } :=
  fun e he f hf => h e (hsub.subset he) f (hsub.subset hf)

section

variable (h : c.Coherent) (hc : c.Sound) (hs : s.Proper) (hclear : c.Clear s now)
include h hc hs hclear

theorem Coherent.insertOne : (c.insertOne s now).1.Coherent := by
  obtain ⟨r, he⟩ | ⟨ht, _, he⟩ := c.insertOne_cases s now
  · rw [he]
    exact h.sublist (c.kept_sublist s now)
  rw [he]
  have hkept : ∀ e ∈ evict c.capacity (c.kept s now), e ∈ c.kept s now :=
    fun e he => (evict_suffix c.capacity (c.kept s now)).subset he
  intro e he f hf
  obtain he | rfl := mem_snoc.mp he
  · obtain ⟨hm, hlive, hfree⟩ := mem_kept.mp (hkept e he)
    obtain hf | hf := mem_append.mp hf
    · exact h e hm f (mem_kept.mp (hkept f hf)).1
    · -- an old entry and the new set
      rw [mem_singleton.mp hf]
      intro hcontra
      obtain hconf | hmask := conflict_or_masks (hc.proper e hm) hs hcontra
      · rw [hfree] at hconf
        cases hconf
      · exact hclear (fun hz => ht (.inl hz)) e hm hlive hmask
  · obtain hf | hf := mem_append.mp hf
    · -- the new set and an old entry
      intro hcontra
      have hfree := (mem_kept.mp (hkept f hf)).2.2
      have hconf := conflict_of_contradicts hs hcontra
      rw [hfree] at hconf
      cases hconf
    · -- a set with values has no negative part
      rw [mem_singleton.mp hf]
      rintro ⟨hk, _, hv, _⟩
      have hnone := hs.positive hv
      dsimp only [CacheEntry.made] at hk
      rw [hnone] at hk
      cases hk

theorem Coherent.insertRecords : (c.insertRecords s now).1.Coherent := by
  by_cases hv : s.values = []
  · -- a negative set and its terminal copy mask nothing
    have hkeep : ∀ (c : DnsCache) (x : DnsRecordSet), (c.Coherent ∧ c.Sound) → (x.Proper ∧ x.values = []) →
        (c.insertOne x now).1.Coherent ∧ (c.insertOne x now).1.Sound :=
      fun c x hc hx => ⟨hc.1.insertOne hc.2 hx.1 (fun _ e _ _ hm => hm.2.2.2.1 hx.2), hc.2.insertOne hx.1 now⟩
    exact (insertRecords_invariant (P := fun c => c.Coherent ∧ c.Sound) hkeep ⟨hs, hv⟩
      (fun soa _ _ => ⟨hs.terminal soa, hv⟩) ⟨h, hc⟩).1
  · have hsoa : s.soa = none := by
      unfold soa
      rw [hs.positive hv]
      rfl
    unfold DnsCache.insertRecords
    rw [hsoa]
    exact h.insertOne hc hs hclear

end

theorem conflict_of_masks {old : DnsRecordSet} (hs : s.Proper) (h : old.Masks s) : old.conflict s = false := by
  obtain ⟨hk, ht, _, hv, hc, hq⟩ := h
  have hneg := hs.positive hv
  have herror : old.nameError = false := by
    unfold nameError
    cases hx : old.negative with
    | none => exact and_false _
    | some x =>
      rw [hx, any_some, decide_eq_true_eq] at hk
      rw [any_some, hk]
      exact and_false _
  have hquestion : ¬ old.question = s.question := fun he => hq (he.symm.trans hc.symm)
  unfold conflict
  rw [herror, hneg, decide_eq_false hquestion]
  rfl

theorem evict_of_length_lt {capacity : ℕ} (h : entries.length < capacity) : evict capacity entries = entries := by
  cases entries with
  | nil => rfl
  | cons e entries =>
    unfold evict
    rw [if_neg (not_le.mpr h)]

theorem incoherent_of_not_clear (hs : s.Proper) (hnow : now ≠ u64Max)
    (hroom : c.entries.length < c.capacity) (h : ¬ c.Clear s now) : ¬ (c.insertRecords s now).1.Coherent := by
  unfold Clear at h
  push Not at h
  obtain ⟨hz, e, hm, hlive, hmask⟩ := h
  have hv := hmask.2.2.2.1
  have hsoa : s.soa = none := by
    unfold soa
    rw [hs.positive hv]
    rfl
  have hstored : ¬ transient s now := by
    rintro (ht | ⟨ht, _⟩ | ht)
    · exact hz ht
    · exact hv ht
    · exact UInt64.not_le.mpr (lt_deadline hnow hz) ht
  have hkept : e ∈ c.kept s now := mem_kept.mpr ⟨hm, hlive, conflict_of_masks hs hmask⟩
  have hlen : (c.kept s now).length < c.capacity := ((c.kept_sublist s now).length_le).trans_lt hroom
  unfold DnsCache.insertRecords
  rw [hsoa]
  unfold DnsCache.insertOne
  dsimp only
  rw [if_neg hstored, if_neg (by omega), evict_of_length_lt hlen]
  intro hco
  obtain ⟨hk, ht, hkind, _, hc, _⟩ := hmask
  refine hco e (mem_append_left _ hkept) (CacheEntry.made s now)
    (mem_append_right _ (mem_singleton_self _)) ⟨?_, ht, hv, hc⟩
  cases hx : e.records.negative with
  | none =>
    rw [hx] at hk
    cases hk
  | some x =>
    rw [hx, any_some, decide_eq_true_eq] at hk
    rw [any_some, decide_eq_true_eq]
    exact .inr ⟨hk, hkind⟩

end DnsCache

/-! ## Runs -/

/-- The operations of a run; the sets inserted come from answers. -/
inductive DnsCacheOp where
  | insertRecords (s : { s : DnsRecordSet // Produced s }) (now : UInt64)
  | insert (name : DnsName) (address : Address) (ttlSeconds : UInt32) (now : UInt64)
  | lookupRecords (name : DnsRecordName) (kind : DnsRecordType) (now : UInt64)

namespace DnsCache

def step (c : DnsCache) : DnsCacheOp → DnsCache
  | .insertRecords s now => (c.insertRecords s now).1
  | .insert name address ttlSeconds now => (c.insert name address ttlSeconds now).1
  | .lookupRecords name kind now => (c.lookupRecords name kind now).1

def ClearStep (c : DnsCache) : DnsCacheOp → Prop
  | .insertRecords s now => c.Clear s now
  | _ => True

variable {c : DnsCache}

theorem Sound.step (h : c.Sound) (op : DnsCacheOp) : (c.step op).Sound := by
  cases op with
  | insertRecords s now => exact h.insertRecords s.2.proper now
  | insert name address ttlSeconds now => exact h.insertRecords (ipv4_proper name address ttlSeconds) now
  | lookupRecords name kind now => exact h.sublist filter_sublist

theorem Coherent.step (h : c.Coherent) (hc : c.Sound) {op : DnsCacheOp} (hop : c.ClearStep op) :
    (c.step op).Coherent := by
  cases op with
  | insertRecords s now => exact h.insertRecords hc s.2.proper hop
  | insert name address ttlSeconds now =>
    exact h.insertRecords hc (ipv4_proper name address ttlSeconds) fun _ e _ _ hm => hm.2.2.2.2.2 rfl
  | lookupRecords name kind now => exact h.sublist filter_sublist

theorem capacity_step (c : DnsCache) (op : DnsCacheOp) : (c.step op).capacity = c.capacity := by
  have hone : ∀ (c : DnsCache) s now, (c.insertOne s now).1.capacity = c.capacity := by
    intro c s now
    obtain ⟨r, he⟩ | ⟨_, _, he⟩ := c.insertOne_cases s now <;> rw [he]
  have hrecords : ∀ s now, (c.insertRecords s now).1.capacity = c.capacity := by
    intro s now
    exact insertRecords_invariant (P := fun c' => c'.capacity = c.capacity) (W := fun _ => True)
      (fun c' x hc _ => (hone c' x now).trans hc) trivial (fun _ _ _ => trivial) rfl
  cases op with
  | insertRecords s now => exact hrecords s now
  | insert name address ttlSeconds now => exact hrecords _ now
  | lookupRecords name kind now => rfl

/-- **Coherence of the cache.** The capacity holds and a question has at most one answer; no entry contradicts another,
unless aliased values are inserted beside a live NODATA entry for their canonical name and type. -/
theorem cache_coherence (capacity : ℕ) (ops : List DnsCacheOp) :
    (Runs.run step (new capacity) ops).entries.length ≤ capacity ∧
    (∀ name kind, ((Runs.run step (new capacity) ops).entries.filter fun e => e.answers name kind = true).length ≤ 1) ∧
    (Runs.Along step ClearStep (new capacity) ops → (Runs.run step (new capacity) ops).Coherent) ∧
    ∀ s : { s : DnsRecordSet // Produced s }, ∀ now, now ≠ u64Max →
      (Runs.run step (new capacity) ops).entries.length < capacity →
      ¬ (Runs.run step (new capacity) ops).Clear s now →
      ¬ (Runs.run step (new capacity) (ops ++ [.insertRecords s now])).Coherent := by
  have hsound : (Runs.run step (new capacity) ops).Sound :=
    Runs.run_invariant step (fun _ op h => h.step op) (sound_new capacity) ops
  have hcap : (Runs.run step (new capacity) ops).capacity = capacity :=
    Runs.run_invariant step (P := fun c => c.capacity = capacity) (fun c op h => (c.capacity_step op).trans h) rfl ops
  refine ⟨hsound.bounded.trans hcap.le, ?_, ?_, ?_⟩
  · intro name kind
    exact filter_length_le_one hsound.single fun e f he hf hr => hr name kind ⟨he, hf⟩
  · intro hclear
    have hempty : (new capacity).Coherent := nofun
    have hboth := Runs.along_invariant step (P := fun c => c.Coherent ∧ c.Sound)
      (fun c op hc hop => ⟨hc.1.step hc.2 hop, hc.2.step op⟩) ⟨hempty, sound_new capacity⟩ hclear
    exact hboth.1
  · intro s now hnow hroom hclear
    rw [Runs.run_snoc]
    exact incoherent_of_not_clear s.2.proper hnow (hroom.trans_le hcap.ge) hclear

end DnsCache

namespace DnsFixture

def noDataPacket : List UInt8 := header 0 0 1 ++ question nameA ++ soaRecord

def noDataA : DnsRecordSet :=
  { question := ⟨nameA⟩, kind := .a, canonicalName := ⟨nameA⟩, values := [], aliases := [], ttlSeconds := 50,
    negative := some { kind := .noData, soa := some soaRoot } }

theorem noDataA_produced : Produced noDataA :=
  Produced.decode (show decodeDnsAnswer noDataPacket 7 ⟨nameA⟩ .a = .ok noDataA by decide)

theorem aliasedA_produced : Produced aliasedA :=
  Produced.decode (show decodeDnsAnswer answer 7 ⟨nameB⟩ .a = .ok aliasedA by decide)

/-- NODATA for `a` first, then the address of `a` through its alias `b`. -/
theorem nodata_beside_aliased_values : ¬ (Runs.run DnsCache.step (DnsCache.new 4)
      [.insertRecords ⟨noDataA, noDataA_produced⟩ 0, .insertRecords ⟨aliasedA, aliasedA_produced⟩ 0]).Coherent := by
  decide

theorem cache_coherence_fixture : (Runs.run DnsCache.step (DnsCache.new 4)
      [.insertRecords ⟨aliasedA, aliasedA_produced⟩ 0, .insertRecords ⟨noDataA, noDataA_produced⟩ 0]).Coherent := by
  refine (DnsCache.cache_coherence 4 _).2.2.1 ⟨fun _ e he => ?_, fun _ e _ _ hm => hm.2.2.2.1 rfl, trivial⟩
  cases he

end DnsFixture

end MochiSyscalls.NetworkStack
