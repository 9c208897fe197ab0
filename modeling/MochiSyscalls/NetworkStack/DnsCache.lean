import MochiSyscalls.Foundations.Runs
import MochiSyscalls.Foundations.Words
import MochiSyscalls.NetworkStack.DnsAnswer

/-! # The DNS cache

`DnsCache` with `DnsRecordSet::follow_answer` (`crates/network-stack/src/dns/records.rs`). An insert
first removes the entries that expired or conflict with the new set, so that a question of a type
has at most one answer. The conflict test misses one pair of entries that contradict each other: a
NODATA entry and values of its type that were reached through an alias. -/

namespace MochiSyscalls.NetworkStack
open Foundations Words Loops
set_option autoImplicit false

/-! ## Record sets -/

/-- A host name, `label.label`. -/
structure DnsName where
  text : List UInt8
  deriving DecidableEq, Repr

variable (name : DnsName)

/-- `DnsRecordName::from(&DnsName)`. -/
def DnsRecordName.ofName : DnsRecordName :=
  ⟨((name.text.splitOn 46).flatMap fun label => UInt8.ofNat label.length :: label) ++ [0]⟩

namespace DnsRecordSet

def ipv4 (address : Address) (ttl : UInt32) : DnsRecordSet :=
  { question := .ofName name, kind := .a, canonicalName := .ofName name, values := [.ipv4 address], aliases := [],
    ttlSeconds := normalizeTtl ttl, negative := none }

/-- The names of the second answer may not repeat one of the path. -/
def joinAlias (aliases : List DnsRecordName) (name : DnsRecordName) : Except DnsError (List DnsRecordName) :=
  if name ∈ aliases then .error .aliasLoop else .ok (aliases ++ [name])

variable (s : DnsRecordSet)

def followAnswer (answer : DnsRecordSet) (elapsedMs : UInt64) : Except DnsError DnsRecordSet := do
  reject (s.values ≠ [] ∨ s.negative.isSome ∨ s.canonicalName = s.question ∨ s.canonicalName ≠ answer.question ∨
    s.kind ≠ answer.kind) .questionMismatch
  let aliases ← answer.aliases.foldlM joinAlias s.aliases
  reject (answer.canonicalName ∈ aliases) .aliasLoop
  reject (aliases.length > dnsMaxAliasDepth) .aliasDepth
  let remaining := UInt32.ofNat ((s.ttlSeconds.toNat * 1000 - elapsedMs.toNat) / 1000)
  return { answer with ttlSeconds := min answer.ttlSeconds remaining, question := s.question, aliases }

def soa : Option DnsSoa := s.negative.bind DnsNegative.soa

/-- The copy of an aliased negative answer under its terminal name. -/
def terminal (soa : DnsSoa) : DnsRecordSet :=
  { s with question := s.canonicalName, aliases := [], ttlSeconds := soa.ttl }

def nameError : Bool :=
  decide (s.aliases = []) && s.negative.any fun n => n.kind = .nameError

/-- The conflict test of `insert_one` between an old set and a new one. -/
def conflict (old new : DnsRecordSet) : Bool :=
  (decide (old.question = new.question) && (decide (old.kind = new.kind) || old.nameError || new.nameError)) ||
  ((new.negative.isSome && decide (new.question = new.canonicalName)) &&
    decide (old.canonicalName = new.question) && (decide (old.kind = new.kind) || new.nameError)) ||
  (old.nameError && decide (old.question = new.canonicalName) &&
    (new.negative.isNone || new.negative.any fun n => n.kind = .noData))

end DnsRecordSet

/-! ## The cache -/

structure CacheEntry where
  records : DnsRecordSet
  expiresAt : UInt64
  soaExpiresAt : Option UInt64
  deriving DecidableEq

structure DnsCache where
  entries : List CacheEntry
  capacity : ℕ
  deriving DecidableEq

/-- `now.saturating_add(u64::from(ttl) * 1000)`. -/
def deadline (now : UInt64) (ttl : UInt32) : UInt64 := saturatingAdd now (ttl.toUInt64 * 1000)

/-- The whole seconds left before a deadline, as a `u32`. -/
def secondsLeft (deadline now : UInt64) : UInt32 :=
  UInt32.ofNat (min ((deadline.toNat - now.toNat) / 1000) (2 ^ 32 - 1))

theorem deadline_toNat (now : UInt64) (ttl : UInt32) :
    (deadline now ttl).toNat = min (now.toNat + ttl.toNat * 1000) (2 ^ 64 - 1) := by
  have httl := ttl.toNat_lt
  have hk : (1000 : UInt64).toNat = 1000 := rfl
  have hm : (ttl.toUInt64 * 1000).toNat = ttl.toNat * 1000 := by
    rw [UInt64.toNat_mul, UInt32.toNat_toUInt64, hk]
    omega
  rw [deadline, saturatingAdd_toNat, hm]
  rfl

theorem lt_deadline {now : UInt64} {ttl : UInt32} (hnow : now ≠ u64Max) (httl : ttl ≠ 0) : now < deadline now ttl := by
  have hlt := now.toNat_lt
  have hn : now.toNat ≠ u64Max.toNat := fun hc => hnow (UInt64.toNat_inj.mp hc)
  have hmax : u64Max.toNat = 2 ^ 64 - 1 := rfl
  have ht : ttl.toNat ≠ (0 : UInt32).toNat := fun hc => httl (UInt32.toNat_inj.mp hc)
  have hz : (0 : UInt32).toNat = 0 := rfl
  rw [UInt64.lt_iff_toNat_lt, deadline_toNat]
  omega

theorem secondsLeft_toNat (d now : UInt64) :
    (secondsLeft d now).toNat = min ((d.toNat - now.toNat) / 1000) (2 ^ 32 - 1) := by
  unfold secondsLeft
  rw [UInt32.toNat_ofNat']
  omega

namespace CacheEntry

def answers (e : CacheEntry) (name : DnsRecordName) (kind : DnsRecordType) : Bool :=
  decide (e.records.question = name) && (decide (e.records.kind = kind) || e.records.nameError)

def aged (e : CacheEntry) (kind : DnsRecordType) (now : UInt64) : Option DnsRecordSet :=
  let records := { e.records with kind, ttlSeconds := secondsLeft e.expiresAt now }
  match e.records.negative with
  | some ⟨negativeKind, some soa⟩ =>
    match e.soaExpiresAt with
    | none => none
    | some soaDeadline =>
      some { records with
        negative := some { kind := negativeKind, soa := some { soa with ttl := secondsLeft soaDeadline now } } }
  | _ => some records

def made (s : DnsRecordSet) (now : UInt64) : CacheEntry :=
  { records := s, expiresAt := deadline now s.ttlSeconds,
    soaExpiresAt := s.soa.map fun soa => deadline now soa.ttl }

end CacheEntry

namespace DnsCache

def new (capacity : ℕ) : DnsCache := { entries := [], capacity }

variable (c : DnsCache)

def lookupRecords (name : DnsRecordName) (kind : DnsRecordType) (now : UInt64) : DnsCache × Option DnsRecordSet :=
  let entries := c.entries.filter fun e => now < e.expiresAt
  ({ c with entries }, (entries.find? fun e => e.answers name kind).bind fun e => e.aged kind now)

/-- `while entries.len() >= capacity { entries.pop_front() }`. -/
def evict (capacity : ℕ) : List CacheEntry → List CacheEntry
  | [] => []
  | e :: entries => if (e :: entries).length ≥ capacity then evict capacity entries else e :: entries

def kept (s : DnsRecordSet) (now : UInt64) : List CacheEntry :=
  c.entries.filter fun e => decide (now < e.expiresAt) && !e.records.conflict s

def transient (s : DnsRecordSet) (now : UInt64) : Prop :=
  s.ttlSeconds = 0 ∨ (s.values = [] ∧ s.soa = none) ∨ deadline now s.ttlSeconds ≤ now
  deriving Decidable

def insertOne (s : DnsRecordSet) (now : UInt64) : DnsCache × Except DnsError Unit :=
  let entries := c.kept s now
  if transient s now then ({ c with entries }, .ok ())
  else if c.capacity = 0 then ({ c with entries }, .error .cacheCapacity)
  else ({ c with entries := evict c.capacity entries ++ [CacheEntry.made s now] }, .ok ())

def insertRecords (s : DnsRecordSet) (now : UInt64) : DnsCache × Except DnsError Unit :=
  match s.soa with
  | none => c.insertOne s now
  | some soa =>
    if s.canonicalName ≠ s.question then
      match c.insertOne (s.terminal soa) now with
      | (c, .error e) => (c, .error e)
      | (c, .ok _) => if c.capacity = 1 then (c, .ok ()) else c.insertOne s now
    else c.insertOne s now

def insert (name : DnsName) (address : Address) (ttlSeconds : UInt32) (now : UInt64) :
    DnsCache × Except DnsError Unit :=
  c.insertRecords (.ipv4 name address ttlSeconds) now

/-! ## What an insert does -/

theorem evict_suffix (capacity : ℕ) (entries : List CacheEntry) : evict capacity entries <:+ entries := by
  induction entries with
  | nil => exact List.suffix_refl []
  | cons e entries ih =>
    unfold evict
    split
    · exact ih.trans (List.suffix_cons e entries)
    · exact List.suffix_refl _

theorem evict_length {capacity : ℕ} (h : capacity ≠ 0) (entries : List CacheEntry) :
    (evict capacity entries).length < capacity := by
  induction entries with
  | nil => exact Nat.pos_of_ne_zero h
  | cons e entries ih =>
    unfold evict
    split
    · exact ih
    · omega

theorem insertOne_cases (s : DnsRecordSet) (now : UInt64) :
    (∃ r, c.insertOne s now = ({ c with entries := c.kept s now }, r)) ∨
    (¬ transient s now ∧ c.capacity ≠ 0 ∧ c.insertOne s now =
      ({ c with entries := evict c.capacity (c.kept s now) ++ [CacheEntry.made s now] }, .ok ())) := by
  unfold insertOne
  split
  · exact .inl ⟨_, rfl⟩
  rename_i ht
  split
  · exact .inl ⟨_, rfl⟩
  next hc => exact .inr ⟨ht, hc, rfl⟩

theorem insertRecords_cases (s : DnsRecordSet) (now : UInt64) : (c.insertRecords s now).1 = (c.insertOne s now).1 ∨
    ∃ soa, s.soa = some soa ∧ s.canonicalName ≠ s.question ∧
      ((c.insertRecords s now).1 = (c.insertOne (s.terminal soa) now).1 ∨
        (c.insertRecords s now).1 = ((c.insertOne (s.terminal soa) now).1.insertOne s now).1) := by
  unfold insertRecords
  split
  · exact .inl rfl
  rename_i soa hsoa
  split
  next hne =>
    refine .inr ⟨soa, hsoa, hne, ?_⟩
    split
    next he =>
      rw [he]
      exact .inl rfl
    next he =>
      rw [he]
      split
      · exact .inl rfl
      · exact .inr rfl
  · exact .inl rfl

theorem insertRecords_invariant {P : DnsCache → Prop} {W : DnsRecordSet → Prop} {now : UInt64}
    (hone : ∀ c x, P c → W x → P (c.insertOne x now).1) {s : DnsRecordSet} (hs : W s)
    (hterminal : ∀ soa, s.soa = some soa → s.canonicalName ≠ s.question → W (s.terminal soa)) {c : DnsCache}
    (h : P c) : P (c.insertRecords s now).1 := by
  obtain he | ⟨soa, hsoa, hne, he | he⟩ := c.insertRecords_cases s now
  · rw [he]
    exact hone c s h hs
  · rw [he]
    exact hone c _ h (hterminal soa hsoa hne)
  · rw [he]
    exact hone _ s (hone c _ h (hterminal soa hsoa hne)) hs

end DnsCache

end MochiSyscalls.NetworkStack
