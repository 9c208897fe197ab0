import MochiSyscalls.NetworkStack.DnsMessage

/-! # The answer of a DNS message

The second half of `decode_dns_answer`: the alias path from the question to its canonical name, the
values found there, and the negative answer with the closest SOA (`crates/network-stack/src/dns/records.rs`,
`dns/negative.rs`). The alias path and the values depend on the records of the answer section as a
multiset, and on nothing else. -/

namespace MochiSyscalls.NetworkStack
open Foundations.Loops List
set_option autoImplicit false

inductive DnsNegativeKind where
  | nameError
  | noData
  deriving DecidableEq, Repr

structure DnsNegative where
  kind : DnsNegativeKind
  soa : Option DnsSoa
  deriving DecidableEq, Repr

structure DnsRecordSet where
  question : DnsRecordName
  kind : DnsRecordType
  canonicalName : DnsRecordName
  values : List DnsRecordValue
  aliases : List DnsRecordName
  ttlSeconds : UInt32
  negative : Option DnsNegative
  deriving DecidableEq

/-! ## Aliases -/

/-- `ttl.map_or(new, |old| old.min(new))`. -/
def lowerTtl (ttl : Option UInt32) (new : UInt32) : Option UInt32 :=
  match ttl with
  | none => some new
  | some old => some (min old new)

def scanAlias (s : Option DnsRecordName × Option UInt32) (r : DnsRecord) :
    Except DnsError (Option DnsRecordName × Option UInt32) :=
  match r.data with
  | .aliasTo name =>
    if s.1.any (· ≠ name) then .error .conflictingAlias else .ok (some name, lowerTtl s.2 r.ttl)
  | _ => .ok s

/-- The records that may stand beside a CNAME: DNSSEC companions. -/
def dnssecTypes : List UInt16 := [24, 25, 30, 46, 47]

def companion : RecordData → Bool
  | .other recordType => decide (recordType ∈ dnssecTypes)
  | _ => false

def excludesAlias : RecordData → Bool
  | .aliasTo _ => false
  | data => !companion data

structure AliasPath where
  canonical : DnsRecordName
  visited : List DnsRecordName
  ttl : Option UInt32

variable (records : List DnsRecord)

def ownedBy (name : DnsRecordName) : List DnsRecord :=
  records.filter fun r => r.owner = name

def aliasBody (p : AliasPath) : Except DnsError (Pass AliasPath AliasPath) :=
  if p.canonical ∈ p.visited then .error .aliasLoop
  else
    let visited := p.visited ++ [p.canonical]
    match (ownedBy records p.canonical).foldlM scanAlias (none, p.ttl) with
    | .error e => .error e
    | .ok (none, ttl) => .ok (.done { p with visited, ttl })
    | .ok (some target, ttl) =>
      if (ownedBy records p.canonical).any fun r => excludesAlias r.data then .error .conflictingAlias
      else if visited.length > dnsMaxAliasDepth then .error .aliasDepth
      else .ok (.again { canonical := target, visited, ttl })

theorem aliasBody_again {records : List DnsRecord} {p p' : AliasPath} (h : aliasBody records p = .ok (.again p')) :
    p.canonical ∉ p.visited ∧ p'.visited = p.visited ++ [p.canonical] ∧ p'.visited.length ≤ dnsMaxAliasDepth := by
  unfold aliasBody at h
  split at h
  · cases h
  rename_i hv
  dsimp only at h
  split at h
  · cases h
  · cases h
  split at h
  · cases h
  split at h
  · cases h
  rename_i hd
  cases h
  exact ⟨hv, rfl, not_lt.mp hd⟩

theorem aliasBody_done {records : List DnsRecord} {p p' : AliasPath} (h : aliasBody records p = .ok (.done p')) :
    p.canonical ∉ p.visited ∧ p'.visited = p.visited ++ [p.canonical] ∧ p'.canonical = p.canonical := by
  unfold aliasBody at h
  split at h
  · cases h
  rename_i hv
  dsimp only at h
  split at h
  · cases h
  · cases h
    exact ⟨hv, rfl, rfl⟩
  split at h
  · cases h
  split at h
  · cases h
  · cases h

def aliasLoop : Loop AliasPath AliasPath DnsError where
  body := aliasBody records
  measure p := dnsMaxAliasDepth + 1 - p.visited.length
  descends p p' h := by
    obtain ⟨_, hv, hd⟩ := aliasBody_again h
    rw [hv, List.length_append, List.length_singleton] at hd ⊢
    omega

/-! ## Values and negative answers -/

variable (kind : DnsRecordType)

/-- One record of the collection of the values at the canonical name. -/
def collectValue (s : List DnsRecordValue × Option UInt32) (r : DnsRecord) : List DnsRecordValue × Option UInt32 :=
  match r.data with
  | .value recordKind value =>
    if recordKind = kind then
      (if value ∈ s.1 then s.1 else s.1 ++ [value], lowerTtl s.2 r.ttl)
    else s
  | _ => s

/-- The suffixes of a name, from a label on; a name ends with the root label. -/
def coversLoop (zone name : List UInt8) : Loop ℕ Bool Empty where
  body offset :=
    if name.drop offset = zone then .ok (.done true)
    else
      match name[offset]? with
      | none => .ok (.done false)
      | some length => if length = 0 then .ok (.done false) else .ok (.again (offset + 1 + length.toNat))
  measure offset := name.length - offset
  descends offset offset' h := by
    split at h
    · cases h
    split at h
    · cases h
    rename_i hlen
    obtain ⟨hlt, _⟩ := List.getElem?_eq_some_iff.mp hlen
    split at h
    · cases h
    · cases h
      exact Nat.sub_lt_sub_left hlt (Nat.lt_add_right _ (lt_add_one _))

/-- The zone holds the name: the name is a suffix at a label. -/
def covers (zone name : DnsRecordName) : Bool :=
  match (coversLoop zone.wire name.wire).run 0 with
  | .ok b => b

/-- `max_by_key`: the last of the elements with the greatest key. -/
def maxByKey {α : Type} (key : α → ℕ) (xs : List α) : Option α :=
  xs.foldl (fun best x =>
    match best with
    | none => some x
    | some b => if key b ≤ key x then some x else some b) none

/-- One SOA of the same owner: all but the lifetime must agree, and the shortest lifetime counts. -/
def agree (found soa : DnsSoa) : Except DnsError DnsSoa :=
  if { found with ttl := soa.ttl } ≠ soa then .error .invalidHeader
  else .ok { found with ttl := min found.ttl soa.ttl }

def closest (soas : List DnsSoa) (name : DnsRecordName) : Except DnsError (Option DnsSoa) :=
  match maxByKey (fun soa : DnsSoa => soa.owner.wire.length) (soas.filter fun soa => covers soa.owner name) with
  | none => .ok none
  | some found => ((soas.filter fun soa => soa.owner = found.owner).foldlM agree found).map some

def negativeAnswer (m : DnsMessage) (canonical : DnsRecordName) (values : List DnsRecordValue)
    (aliases : List DnsRecordName) (soa : Option DnsSoa) : Except DnsError (Option DnsNegative) :=
  if m.responseCode = .nameError then
    if (ownedBy m.records canonical).any fun r => !companion r.data then .error .invalidHeader
    else .ok (some { kind := .nameError, soa })
  else if values = [] ∧ (soa.isSome ∨ aliases = []) then .ok (some { kind := .noData, soa })
  else .ok none

def negativeTtl (negative : Option DnsNegative) (ttl : Option UInt32) : Option UInt32 :=
  match negative with
  | none => ttl
  | some n => lowerTtl ttl (n.soa.elim 0 DnsSoa.ttl)

/-- The second half of `decode_dns_answer`. -/
def resolveAnswer (m : DnsMessage) (expectedName : DnsRecordName) (kind : DnsRecordType) :
    Except DnsError DnsRecordSet := do
  let path ← (aliasLoop m.records).run { canonical := expectedName, visited := [], ttl := none }
  let found := (ownedBy m.records path.canonical).foldl (collectValue kind) ([], path.ttl)
  let aliases := path.visited.dropLast
  let soa ← closest m.soas path.canonical
  let negative ← negativeAnswer m path.canonical found.1 aliases soa
  return {
    question := m.question
    kind
    canonicalName := path.canonical
    values := found.1
    aliases
    ttlSeconds := (negativeTtl negative found.2).getD 0
    negative }

def decodeDnsAnswer (packet : List UInt8) (transactionId : UInt16) (expectedName : DnsRecordName)
    (kind : DnsRecordType) : Except DnsError DnsRecordSet := do
  let m ← decodeMessage packet transactionId expectedName kind
  resolveAnswer m expectedName kind

/-! ## The order of the records -/

theorem lowerTtl_comm (ttl : Option UInt32) (a b : UInt32) :
    lowerTtl (lowerTtl ttl a) b = lowerTtl (lowerTtl ttl b) a := by
  cases ttl with
  | none => exact congrArg some (Std.Commutative.comm a b)
  | some old =>
    have hmin : min (min old a) b = min (min old b) a := by ac_rfl
    exact congrArg some hmin

theorem scanAlias_comm (s : Option DnsRecordName × Option UInt32) (r r' : DnsRecord) :
    (scanAlias s r >>= (scanAlias · r')) = (scanAlias s r' >>= (scanAlias · r)) := by
  have hskip : ∀ s r, (∀ name, r.data ≠ .aliasTo name) → scanAlias s r = .ok s := by
    intro s r hr
    unfold scanAlias
    split
    next name hd => exact absurd hd (hr name)
    · rfl
  have hscan : ∀ s r name, r.data = .aliasTo name → scanAlias s r =
      if s.1.any (· ≠ name) then .error .conflictingAlias else .ok (some name, lowerTtl s.2 r.ttl) := by
    intro s r name hd
    unfold scanAlias
    rw [hd]
  by_cases hr : ∃ name, r.data = .aliasTo name
  swap
  · have hr := fun s => hskip s r (not_exists.mp hr)
    simp only [hr]
    exact (bind_pure (scanAlias s r')).symm
  by_cases hr' : ∃ name, r'.data = .aliasTo name
  swap
  · have hr' := fun s => hskip s r' (not_exists.mp hr')
    simp only [hr']
    exact bind_pure (scanAlias s r)
  obtain ⟨name, hd⟩ := hr
  obtain ⟨name', hd'⟩ := hr'
  simp only [hscan _ r name hd, hscan _ r' name' hd']
  -- the target of both scans is one name, or both fail
  by_cases he : name = name'
  · subst he
    split
    · rfl
    · change (if _ then _ else _) = (if _ then _ else _)
      simp [lowerTtl_comm]
  · obtain ⟨target, ttl⟩ := s
    cases target with
    | none => simp [he, Ne.symm he, bind, Except.bind]
    | some old =>
      by_cases h : old = name
      · subst h
        simp [he, bind, Except.bind]
      · by_cases h' : old = name'
        · subst h'
          simp [h, bind, Except.bind]
        · simp [h, h', bind, Except.bind]

theorem aliasBody_perm {records records' : List DnsRecord} (h : records.Perm records') (p : AliasPath) :
    aliasBody records p = aliasBody records' p := by
  have howned : (ownedBy records p.canonical).Perm (ownedBy records' p.canonical) := h.filter _
  unfold aliasBody
  rw [foldlM_perm scanAlias_comm howned, howned.any_eq]

def collectTtl (ttl : Option UInt32) (r : DnsRecord) : Option UInt32 :=
  match r.data with
  | .value recordKind _ => if recordKind = kind then lowerTtl ttl r.ttl else ttl
  | _ => ttl

theorem collectValue_ttl (rs : List DnsRecord) (s : List DnsRecordValue × Option UInt32) :
    (rs.foldl (collectValue kind) s).2 = rs.foldl (collectTtl kind) s.2 := by
  induction rs generalizing s with
  | nil => rfl
  | cons r rs ih =>
    have hstep : (collectValue kind s r).2 = collectTtl kind s.2 r := by
      unfold collectValue collectTtl
      split
      · split <;> rfl
      · rfl
    rw [foldl_cons, foldl_cons, ih, hstep]

theorem collectTtl_comm (ttl : Option UInt32) (r r' : DnsRecord) :
    collectTtl kind (collectTtl kind ttl r) r' = collectTtl kind (collectTtl kind ttl r') r := by
  unfold collectTtl
  cases r.data with
  | value k _ =>
    cases r'.data with
    | value k' _ =>
      by_cases hk : k = kind <;> by_cases hk' : k' = kind <;> simp only [hk, hk', if_true, if_false]
      exact lowerTtl_comm ttl r.ttl r'.ttl
    | aliasTo _ | other _ => rfl
  | aliasTo _ | other _ => rfl

theorem mem_collectValue {kind : DnsRecordType} {rs : List DnsRecord} {s : List DnsRecordValue × Option UInt32}
    {v : DnsRecordValue} : v ∈ (rs.foldl (collectValue kind) s).1 ↔ v ∈ s.1 ∨ ∃ r ∈ rs, r.data = .value kind v := by
  induction rs generalizing s with
  | nil => simp
  | cons r rs ih =>
    have hstep : v ∈ (collectValue kind s r).1 ↔ v ∈ s.1 ∨ r.data = .value kind v := by
      unfold collectValue
      split
      next recordKind value hd =>
        rw [hd]
        split
        next hk =>
          subst hk
          split
          next hm =>
            constructor
            · exact .inl
            · rintro (h | h)
              · exact h
              · cases h
                exact hm
          · rw [mem_append, mem_singleton]
            constructor
            · rintro (h | rfl)
              · exact .inl h
              · exact .inr rfl
            · rintro (h | h)
              · exact .inl h
              · cases h
                exact .inr rfl
        next hk =>
          constructor
          · exact .inl
          · rintro (h | h)
            · exact h
            · cases h
              exact absurd rfl hk
      next hd =>
        constructor
        · exact .inl
        · rintro (h | h)
          · exact h
          · exact absurd h (hd kind v)
    rw [foldl_cons, ih, hstep, or_assoc]
    simp only [mem_cons, exists_eq_or_imp]

/-! ## What an answer says -/

variable {name : DnsRecordName} {m : DnsMessage}

theorem resolveAnswer_ok {kind : DnsRecordType} {s : DnsRecordSet} (h : resolveAnswer m name kind = .ok s) :
    ∃ path soa, (aliasLoop m.records).run { canonical := name, visited := [], ttl := none } = .ok path ∧
      s.question = m.question ∧ s.kind = kind ∧ s.canonicalName = path.canonical ∧
      s.values = ((ownedBy m.records path.canonical).foldl (collectValue kind) ([], path.ttl)).1 ∧
      s.aliases = path.visited.dropLast ∧ closest m.soas path.canonical = .ok soa ∧
      negativeAnswer m path.canonical s.values s.aliases soa = .ok s.negative ∧
      s.ttlSeconds = (negativeTtl s.negative
        ((ownedBy m.records path.canonical).foldl (collectValue kind) ([], path.ttl)).2).getD 0 := by
  unfold resolveAnswer at h
  simp only [bind_eq_ok] at h
  obtain ⟨path, hpath, soa, hsoa, negative, hneg, h⟩ := h
  cases h
  exact ⟨path, soa, hpath, rfl, rfl, rfl, rfl, rfl, hsoa, hneg, rfl⟩

theorem negativeAnswer_of_values {path : AliasPath} {kind : DnsRecordType}
    {values : List DnsRecordValue} {aliases : List DnsRecordName} {soa : Option DnsSoa} {n : Option DnsNegative}
    (hvalues : values = ((ownedBy m.records path.canonical).foldl (collectValue kind) ([], path.ttl)).1)
    (hne : values ≠ []) (h : negativeAnswer m path.canonical values aliases soa = .ok n) : n = none := by
  unfold negativeAnswer at h
  split at h
  · -- a value at the canonical name is data that a name error excludes
    obtain ⟨v, hv⟩ := exists_mem_of_ne_nil values hne
    rw [hvalues, mem_collectValue] at hv
    obtain hv | ⟨r, hr, hd⟩ := hv
    · cases hv
    have hany : (ownedBy m.records path.canonical).any (fun r => !companion r.data) = true := by
      rw [any_eq_true]
      exact ⟨r, hr, by rw [hd]; rfl⟩
    rw [if_pos hany] at h
    cases h
  · rw [if_neg fun hc => hne hc.1] at h
    cases h
    rfl

variable {e : DnsError}

theorem closest_error {soas : List DnsSoa} (h : closest soas name = .error e) : e = .invalidHeader := by
  unfold closest at h
  split at h
  · cases h
  rename_i found _
  cases hs : (soas.filter fun soa => soa.owner = found.owner).foldlM agree found with
  | ok soa =>
    rw [hs] at h
    cases h
  | error e' =>
    rw [hs] at h
    cases h
    refine foldlM_error (P := fun e => e = .invalidHeader) ?_ hs
    intro s soa e he
    unfold agree at he
    split at he
    · cases he
      rfl
    · cases he

theorem negativeAnswer_error {canonical : DnsRecordName} {values : List DnsRecordValue}
    {aliases : List DnsRecordName} {soa : Option DnsSoa}
    (h : negativeAnswer m canonical values aliases soa = .error e) : e = .invalidHeader := by
  unfold negativeAnswer at h
  split at h
  · split at h
    · cases h
      rfl
    · cases h
  · split at h <;> cases h

theorem resolveAnswer_error {kind : DnsRecordType}
    (h : resolveAnswer m name kind = .error e) (he : e ≠ .invalidHeader) :
    (aliasLoop m.records).run { canonical := name, visited := [], ttl := none } = .error e := by
  unfold resolveAnswer at h
  obtain h | ⟨path, _, h⟩ := bind_eq_error.mp h
  · exact h
  obtain h | ⟨soa, _, h⟩ := bind_eq_error.mp h
  · exact absurd (closest_error h) he
  obtain h | ⟨negative, _, h⟩ := bind_eq_error.mp h
  · exact absurd (negativeAnswer_error h) he
  · cases h

theorem decodeDnsAnswer_eq {packet : List UInt8} {transactionId : UInt16}
    {kind : DnsRecordType} (h : decodeMessage packet transactionId name kind = .ok m) :
    decodeDnsAnswer packet transactionId name kind = resolveAnswer m name kind := by
  unfold decodeDnsAnswer
  rw [h]
  rfl

/-- **Only the answer section answers.** Messages whose answer sections hold the same records, in any order, have the
same answer, and with values the same lifetime. -/
theorem answer_section_answers {packet packet' : List UInt8} {transactionId : UInt16} {name : DnsRecordName}
    {kind : DnsRecordType} {m m' : DnsMessage} (hm : decodeMessage packet transactionId name kind = .ok m)
    (hm' : decodeMessage packet' transactionId name kind = .ok m') (hrecords : m.records.Perm m'.records) :
    (∀ s s', decodeDnsAnswer packet transactionId name kind = .ok s →
      decodeDnsAnswer packet' transactionId name kind = .ok s' →
      s.question = s'.question ∧ s.kind = s'.kind ∧ s.canonicalName = s'.canonicalName ∧ s.aliases = s'.aliases ∧
      (∀ v, v ∈ s.values ↔ v ∈ s'.values) ∧ (s.values ≠ [] → s.ttlSeconds = s'.ttlSeconds)) ∧
    ∀ e ∈ [DnsError.aliasLoop, .aliasDepth, .conflictingAlias],
      decodeDnsAnswer packet transactionId name kind = .error e →
      decodeDnsAnswer packet' transactionId name kind = .error e := by
  rw [decodeDnsAnswer_eq hm, decodeDnsAnswer_eq hm']
  have hloop : ∀ p, (aliasLoop m.records).run p = (aliasLoop m'.records).run p :=
    Loop.run_congr (aliasBody_perm hrecords)
  constructor
  · intro s s' hs hs'
    obtain ⟨path, soa, hpath, hq, hk, hc, hv, ha, _, hn, ht⟩ := resolveAnswer_ok hs
    obtain ⟨path', soa', hpath', hq', hk', hc', hv', ha', _, hn', ht'⟩ := resolveAnswer_ok hs'
    rw [hloop, hpath'] at hpath
    cases hpath
    have howned : (ownedBy m.records path.canonical).Perm (ownedBy m'.records path.canonical) := hrecords.filter _
    have hvalues : ∀ v, v ∈ s.values ↔ v ∈ s'.values := by
      intro v
      rw [hv, hv', mem_collectValue, mem_collectValue]
      simp only [howned.mem_iff]
    refine ⟨?_, hk.trans hk'.symm, hc.trans hc'.symm, ha.trans ha'.symm, hvalues, ?_⟩
    · rw [hq, hq', decodeMessage_question hm, decodeMessage_question hm']
    · intro hne
      have hne' : s'.values ≠ [] := by
        obtain ⟨v, hm⟩ := exists_mem_of_ne_nil _ hne
        exact ne_nil_of_mem ((hvalues v).mp hm)
      rw [negativeAnswer_of_values hv hne hn] at ht
      rw [negativeAnswer_of_values hv' hne' hn'] at ht'
      have httl := howned.foldl_eq' (f := collectTtl kind) (fun r _ r' _ t => collectTtl_comm kind t r r') path.ttl
      rw [ht, ht', negativeTtl, negativeTtl, collectValue_ttl, collectValue_ttl, httl]
  · intro e he h
    have hne : e ≠ .invalidHeader := by
      rintro rfl
      simp at he
    have hrun := resolveAnswer_error h hne
    rw [hloop] at hrun
    unfold resolveAnswer
    rw [hrun]
    rfl

namespace DnsFixture

def header (code answers authorities : UInt8) : List UInt8 :=
  [0, 7, 0x81, 0x80 ||| code, 0, 1, 0, answers, 0, authorities, 0, 0]

def nameA : List UInt8 := [1, 97, 0]
def nameB : List UInt8 := [1, 98, 0]

def question (name : List UInt8) : List UInt8 := name ++ [0, 1, 0, 1]

/-- `b CNAME a`, 60 seconds. -/
def aliasRecord : List UInt8 := nameB ++ [0, 5, 0, 1, 0, 0, 0, 60, 0, 3] ++ nameA

/-- `a A 10.0.2.3`, 30 seconds. -/
def addressRecord : List UInt8 := nameA ++ [0, 1, 0, 1, 0, 0, 0, 30, 0, 4, 10, 0, 2, 3]

/-- The SOA of the root, 60 seconds with a minimum of 50. -/
def soaRecord : List UInt8 :=
  [0, 0, 6, 0, 1, 0, 0, 0, 60, 0, 22, 0, 0, 0, 0, 0, 1, 0, 0, 0, 2, 0, 0, 0, 3, 0, 0, 0, 4, 0, 0, 0, 50]

def answer : List UInt8 := header 0 2 0 ++ question nameB ++ aliasRecord ++ addressRecord

def shuffled : List UInt8 := header 0 2 1 ++ question nameB ++ addressRecord ++ aliasRecord ++ soaRecord

def recordB : DnsRecord := { owner := ⟨nameB⟩, data := .aliasTo ⟨nameA⟩, ttl := 60 }
def recordA : DnsRecord := { owner := ⟨nameA⟩, data := .value .a (.ipv4 ⟨10, 0, 2, 3⟩), ttl := 30 }

def soaRoot : DnsSoa :=
  { owner := ⟨[0]⟩, primary := ⟨[0]⟩, mailbox := ⟨[0]⟩, serial := 1, refresh := 2, retry := 3, expire := 4,
    minimum := 50, ttl := 50 }

def aliasedA : DnsRecordSet :=
  { question := ⟨nameB⟩, kind := .a, canonicalName := ⟨nameA⟩, values := [.ipv4 ⟨10, 0, 2, 3⟩], aliases := [⟨nameB⟩],
    ttlSeconds := 30, negative := none }

theorem answer_section_answers_fixture :
    decodeMessage answer 7 ⟨nameB⟩ .a = .ok ⟨⟨nameB⟩, .noError, [recordB, recordA], []⟩ ∧
    decodeMessage shuffled 7 ⟨nameB⟩ .a = .ok ⟨⟨nameB⟩, .noError, [recordA, recordB], [soaRoot]⟩ ∧
    ∀ s s', decodeDnsAnswer answer 7 ⟨nameB⟩ .a = .ok s → decodeDnsAnswer shuffled 7 ⟨nameB⟩ .a = .ok s' →
      s.canonicalName = s'.canonicalName ∧ (s.values ≠ [] → s.ttlSeconds = s'.ttlSeconds) := by
  have hm : decodeMessage answer 7 ⟨nameB⟩ .a = .ok ⟨⟨nameB⟩, .noError, [recordB, recordA], []⟩ := by
    decide
  have hm' : decodeMessage shuffled 7 ⟨nameB⟩ .a = .ok ⟨⟨nameB⟩, .noError, [recordA, recordB], [soaRoot]⟩ := by
    decide
  refine ⟨hm, hm', ?_⟩
  intro s s' hs hs'
  obtain ⟨_, _, hc, _, _, ht⟩ := (answer_section_answers hm hm' (List.Perm.swap ..)).1 s s' hs hs'
  exact ⟨hc, ht⟩

end DnsFixture

end MochiSyscalls.NetworkStack
