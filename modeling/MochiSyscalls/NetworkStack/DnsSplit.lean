import MochiSyscalls.NetworkStack.DnsCoherence

/-! # Alias chains over two responses

A chain of aliases that ends one response and goes on in the next: `follow_answer` joins the two sets to the set that a
single response with all the records would give. The alias loop over both lists walks the first list as if it were
alone, and then the second list with the path so far in front of its own. -/

namespace MochiSyscalls.NetworkStack
open Foundations Loops Rows List
set_option autoImplicit false

def owners (records : List DnsRecord) : List DnsRecordName := records.map DnsRecord.owner

/-- The records are the steps of one alias path, each of which has a record. -/
structure OnAliasPath (records : List DnsRecord) (names : List DnsRecordName) : Prop where
  chain : names.IsChain fun a b => ∃ r ∈ records, r.owner = a ∧ r.data = .aliasTo b
  steps : ∀ r ∈ records, ∃ target, [r.owner, target] <:+: names ∧ r.data = .aliasTo target

/-! ## One pass -/

section Pass

variable {records records' : List DnsRecord} {p p' : AliasPath}

theorem aliasBody_congr (h : ownedBy records p.canonical = ownedBy records' p.canonical) :
    aliasBody records p = aliasBody records' p := by
  unfold aliasBody
  rw [h]

theorem mem_owners {name : DnsRecordName} : name ∈ owners records ↔ ownedBy records name ≠ [] := by
  simp [owners, ownedBy, filter_eq_nil_iff]

theorem aliasBody_unowned (h : p.canonical ∉ owners records) :
    aliasBody records p = if p.canonical ∈ p.visited then .error .aliasLoop
      else .ok (.done { p with visited := p.visited ++ [p.canonical] }) := by
  rw [mem_owners, not_not] at h
  unfold aliasBody
  rw [h]
  rfl

theorem scanAlias_target {rs : List DnsRecord} {s s' : Option DnsRecordName × Option UInt32}
    (h : rs.foldlM scanAlias s = .ok s') :
    (∀ name, s.1 = some name ∨ (∃ r ∈ rs, r.data = .aliasTo name) → s'.1 = some name) ∧
      ∀ name, s'.1 = some name → s.1 = some name ∨ ∃ r ∈ rs, r.data = .aliasTo name := by
  induction rs generalizing s with
  | nil =>
    obtain rfl := Except.ok.inj h
    simp
  | cons r rs ih =>
    rw [foldlM_cons] at h
    obtain ⟨t, ht, h⟩ := bind_eq_ok.1 h
    obtain ⟨hto, hfrom⟩ := ih h
    have hstep : ∀ name, t.1 = some name ↔ s.1 = some name ∨ r.data = .aliasTo name := by
      unfold scanAlias at ht
      split at ht
      next target hdata =>
        split at ht
        · cases ht
        next hsame =>
          cases ht
          intro name
          cases hs : s.1 with
          | none => simp [hdata]
          | some old =>
            obtain rfl : old = target := by simpa [hs] using hsame
            simp [hdata]
      next hdata =>
        cases ht
        exact fun name => ⟨.inl, fun h => h.resolve_right (hdata name)⟩
    constructor
    · rintro name (hs | ⟨q, hq, hdata⟩)
      · exact hto name (.inl ((hstep name).2 (.inl hs)))
      · rcases mem_cons.1 hq with rfl | hq
        · exact hto name (.inl ((hstep name).2 (.inr hdata)))
        · exact hto name (.inr ⟨q, hq, hdata⟩)
    · intro name hname
      rcases hfrom name hname with ht | ⟨q, hq, hdata⟩
      · exact ((hstep name).1 ht).imp_right fun hdata => ⟨r, mem_cons_self, hdata⟩
      · exact .inr ⟨q, mem_cons_of_mem _ hq, hdata⟩

theorem aliasBody_again_target (h : aliasBody records p = .ok (.again p')) :
    ∃ r ∈ records, r.owner = p.canonical ∧ r.data = .aliasTo p'.canonical := by
  unfold aliasBody at h
  split at h
  · cases h
  dsimp only at h
  split at h
  · cases h
  · cases h
  next hscan =>
    split_ifs at h
    cases h
    rcases (scanAlias_target hscan).2 _ rfl with hnone | ⟨r, hr, hdata⟩
    · cases hnone
    · obtain ⟨hr, howner⟩ := mem_filter.1 hr
      exact ⟨r, hr, of_decide_eq_true howner, hdata⟩

theorem aliasBody_done_owner (h : aliasBody records p = .ok (.done p')) {r : DnsRecord} (hr : r ∈ records)
    (howner : r.owner = p.canonical) (target : DnsRecordName) : r.data ≠ .aliasTo target := by
  unfold aliasBody at h
  split at h
  · cases h
  dsimp only at h
  split at h
  · cases h
  next hscan =>
    intro hdata
    have hfound := (scanAlias_target hscan).1 target (.inr ⟨r, mem_filter.2 ⟨hr, decide_eq_true howner⟩, hdata⟩)
    cases hfound
  next =>
    split_ifs at h
    cases h

end Pass

/-! ## Lifetimes -/

def joinTtl : Option UInt32 → Option UInt32 → Option UInt32
  | none, u => u
  | some t, none => some t
  | some t, some u => some (min t u)

theorem lowerTtl_join (t u : Option UInt32) (x : UInt32) : lowerTtl (joinTtl t u) x = joinTtl t (lowerTtl u x) := by
  cases t with
  | none => rfl
  | some t =>
    cases u with
    | none => rfl
    | some u => exact congrArg some (Std.Associative.assoc t u x)

theorem scanAlias_join (t : Option UInt32) (rs : List DnsRecord) (s : Option DnsRecordName × Option UInt32) :
    rs.foldlM scanAlias (s.1, joinTtl t s.2) = (rs.foldlM scanAlias s).map fun s => (s.1, joinTtl t s.2) := by
  induction rs generalizing s with
  | nil => rfl
  | cons r rs ih =>
    rw [foldlM_cons, foldlM_cons]
    have hstep : scanAlias (s.1, joinTtl t s.2) r = (scanAlias s r).map fun s => (s.1, joinTtl t s.2) := by
      unfold scanAlias
      split
      · dsimp only
        split
        · rfl
        · rw [lowerTtl_join]
          rfl
      · rfl
    rw [hstep]
    cases scanAlias s r with
    | error e => rfl
    | ok s' => exact ih s'

theorem collectValue_join (kind : DnsRecordType) (t : Option UInt32) (rs : List DnsRecord)
    (s : List DnsRecordValue × Option UInt32) :
    rs.foldl (collectValue kind) (s.1, joinTtl t s.2) =
      ((rs.foldl (collectValue kind) s).1, joinTtl t (rs.foldl (collectValue kind) s).2) := by
  induction rs generalizing s with
  | nil => rfl
  | cons r rs ih =>
    have hstep : collectValue kind (s.1, joinTtl t s.2) r =
        ((collectValue kind s r).1, joinTtl t (collectValue kind s r).2) := by
      unfold collectValue
      split
      · split
        · rw [lowerTtl_join]
        · rfl
      · rfl
    rw [foldl_cons, hstep, ih]
    rfl

theorem scanAlias_ttl {rs : List DnsRecord} {s s' : Option DnsRecordName × Option UInt32} (hs : s.1 = none ∨ s.2.isSome)
    (h : rs.foldlM scanAlias s = .ok s') : s'.1 = none ∨ s'.2.isSome := by
  refine foldlM_invariant (P := fun s => s.1 = none ∨ s.2.isSome) (fun s r s' hs h => ?_) hs h
  unfold scanAlias at h
  split at h
  · split_ifs at h
    cases h
    right
    unfold lowerTtl
    split <;> rfl
  · cases h
    exact hs

theorem aliasBody_again_ttl {records : List DnsRecord} {p p' : AliasPath} (h : aliasBody records p = .ok (.again p')) :
    p'.ttl.isSome := by
  unfold aliasBody at h
  split at h
  · cases h
  dsimp only at h
  split at h
  · cases h
  · cases h
  next hscan =>
    split_ifs at h
    cases h
    exact (scanAlias_ttl (.inl rfl) hscan).resolve_left nofun

theorem collectValue_isSome (kind : DnsRecordType) (rs : List DnsRecord) {s : List DnsRecordValue × Option UInt32}
    (hs : s.1 = [] ∨ s.2.isSome) :
    (rs.foldl (collectValue kind) s).1 = [] ∨ (rs.foldl (collectValue kind) s).2.isSome := by
  induction rs generalizing s with
  | nil => exact hs
  | cons r rs ih =>
    refine ih ?_
    unfold collectValue
    split
    · split
      · right
        dsimp only [lowerTtl]
        split <;> rfl
      · exact hs
    · exact hs

/-! ## The two parts of the walk -/

theorem aliasLoop_walk {records : List DnsRecord} {p r : AliasPath} (h : (aliasLoop records).run p = .ok r)
    (hnodup : p.visited.Nodup) (howned : ∀ v ∈ p.visited, v ∈ owners records)
    (hdepth : p.visited.length ≤ dnsMaxAliasDepth) :
    r.visited = r.visited.dropLast ++ [r.canonical] ∧ r.visited.Nodup ∧ (∀ v ∈ r.visited.dropLast, v ∈ owners records) ∧
      p.visited.length ≤ r.visited.dropLast.length ∧ r.visited.dropLast.length ≤ dnsMaxAliasDepth := by
  refine Loop.run_invariant (P := fun s : AliasPath => s.visited.Nodup ∧ (∀ v ∈ s.visited, v ∈ owners records) ∧
      p.visited.length ≤ s.visited.length ∧ s.visited.length ≤ dnsMaxAliasDepth)
    (Q := fun r : AliasPath => r.visited = r.visited.dropLast ++ [r.canonical] ∧ r.visited.Nodup ∧
      (∀ v ∈ r.visited.dropLast, v ∈ owners records) ∧ p.visited.length ≤ r.visited.dropLast.length ∧
      r.visited.dropLast.length ≤ dnsMaxAliasDepth) ?_ ?_ ⟨hnodup, howned, le_rfl, hdepth⟩ h
  · rintro s s' ⟨hs, howned, hle, _⟩ hagain
    obtain ⟨hnew, hvisited, hdepth⟩ := aliasBody_again hagain
    obtain ⟨a, ha, howner, _⟩ := aliasBody_again_target hagain
    rw [hvisited] at hdepth ⊢
    refine ⟨nodup_snoc hs hnew, ?_, ?_, hdepth⟩
    · intro v hv
      rcases mem_snoc.1 hv with hv | rfl
      · exact howned v hv
      · rw [← howner]
        exact mem_map_of_mem ha
    · rw [length_append]
      omega
  · rintro s r ⟨hs, howned, hle, hdepth⟩ hdone
    obtain ⟨hnew, hvisited, hcanonical⟩ := aliasBody_done hdone
    rw [hvisited, hcanonical, dropLast_concat]
    exact ⟨rfl, nodup_snoc hs hnew, howned, hle, hdepth⟩

section Walk

variable {R₁ R₂ : List DnsRecord} (hapart : ∀ r ∈ R₂, r.owner ∉ owners R₁)

include hapart in
theorem aliasLoop_front (halias : ∀ r ∈ R₁, ∃ name, r.data = .aliasTo name) (p : AliasPath)
    (hvisited : ∀ v ∈ p.visited, v ∈ owners R₁) (httl : p.visited = [] ∨ p.ttl.isSome) :
    ((aliasLoop (R₁ ++ R₂)).run p = (aliasLoop R₁).run p >>= fun q =>
      (aliasLoop (R₁ ++ R₂)).run { q with visited := q.visited.dropLast }) ∧
    ∀ q, (aliasLoop R₁).run p = .ok q → q.canonical ∉ owners R₁ ∧ (q.visited.dropLast = [] ∨ q.ttl.isSome) := by
  induction p using (aliasLoop R₁).pass_induction with
  | h p ih =>
    by_cases howner : p.canonical ∈ owners R₁
    · have hback : ownedBy R₂ p.canonical = [] := by
        by_contra hne
        obtain ⟨r, hr, heq⟩ := mem_map.1 (mem_owners.2 hne)
        exact hapart r hr (heq ▸ howner)
      have hbody : aliasBody (R₁ ++ R₂) p = aliasBody R₁ p :=
        aliasBody_congr (by rw [ownedBy, filter_append]; exact (congrArg _ hback).trans (append_nil _))
      obtain ⟨r, hr, heq⟩ := mem_map.1 howner
      obtain ⟨name, hdata⟩ := halias r hr
      rw [Loop.run_eq, Loop.run_eq (aliasLoop R₁), show (aliasLoop (R₁ ++ R₂)).body p = _ from hbody]
      change _ ∧ _
      cases hstep : (aliasLoop R₁).body p with
      | error e =>
        rw [show aliasBody R₁ p = .error e from hstep]
        exact ⟨rfl, nofun⟩
      | ok pass =>
        rw [show aliasBody R₁ p = .ok pass from hstep]
        cases pass with
        | done q => exact absurd hdata (aliasBody_done_owner hstep hr heq name)
        | again p' =>
          have hnext := (aliasBody_again hstep).2.1
          refine ih p' hstep (fun v hv => ?_) (.inr (aliasBody_again_ttl hstep))
          rw [hnext] at hv
          rcases mem_snoc.1 hv with hv | rfl
          · exact hvisited v hv
          · exact howner
    · have hdone := (aliasBody_unowned howner).trans (if_neg (mt (hvisited _) howner))
      have hrun : (aliasLoop R₁).run p = .ok { p with visited := p.visited ++ [p.canonical] } :=
        Loop.run_eq_ok.2 (.inl hdone)
      rw [hrun]
      refine ⟨?_, ?_⟩
      · change _ = (aliasLoop (R₁ ++ R₂)).run { p with visited := (p.visited ++ [p.canonical]).dropLast }
        rw [dropLast_concat]
      · rintro q hq
        obtain rfl := Except.ok.inj hq
        rw [dropLast_concat]
        exact ⟨howner, httl⟩

def behind (front p : AliasPath) : AliasPath :=
  { p with visited := front.visited ++ p.visited, ttl := joinTtl front.ttl p.ttl }

variable {front p r : AliasPath} (hfront : ∀ v ∈ front.visited, v ∈ owners R₁)

include hfront in
theorem aliasBody_behind (hback : p.canonical ∉ owners R₁) :
    aliasBody (R₁ ++ R₂) (behind front p) = match aliasBody R₂ p with
      | .error e => .error e
      | .ok (.done p') => .ok (.done (behind front p'))
      | .ok (.again p') =>
        if front.visited.length + p'.visited.length > dnsMaxAliasDepth then .error .aliasDepth
        else .ok (.again (behind front p')) := by
  have howned : ownedBy (R₁ ++ R₂) p.canonical = ownedBy R₂ p.canonical := by
    rw [mem_owners, not_not] at hback
    rw [ownedBy, filter_append]
    exact congrArg (· ++ _) hback
  have hmem : p.canonical ∈ front.visited ++ p.visited ↔ p.canonical ∈ p.visited :=
    mem_append.trans (or_iff_right fun h => hback (hfront _ h))
  rw [show aliasBody (R₁ ++ R₂) (behind front p) = aliasBody R₂ (behind front p) from aliasBody_congr howned]
  simp only [aliasBody, behind, hmem, scanAlias_join front.ttl _ (none, p.ttl)]
  by_cases hloop : p.canonical ∈ p.visited
  · rw [if_pos hloop, if_pos hloop]
  rw [if_neg hloop, if_neg hloop]
  cases (ownedBy R₂ p.canonical).foldlM scanAlias (none, p.ttl) with
  | error e => rfl
  | ok s =>
    obtain ⟨_ | target, ttl⟩ := s
    · simp only [Except.map, append_assoc]
    · simp only [Except.map, append_assoc, length_append]
      by_cases hany : ((ownedBy R₂ p.canonical).any fun r => excludesAlias r.data) = true
      · rw [if_pos hany, if_pos hany]
      rw [if_neg hany, if_neg hany]
      by_cases hdepth : p.visited.length + [p.canonical].length > dnsMaxAliasDepth
      · rw [if_pos hdepth, if_pos (by omega)]
      · rw [if_neg hdepth]
        dsimp only
        rw [length_append]

include hapart hfront in
theorem aliasLoop_behind (hrun : (aliasLoop R₂).run p = .ok r) (hend : r.canonical ∈ owners R₂)
    (hroom : front.visited.length + p.visited.length ≤ dnsMaxAliasDepth) (hnodup : p.visited.Nodup)
    (howned : ∀ v ∈ p.visited, v ∈ owners R₂) :
    (aliasLoop (R₁ ++ R₂)).run (behind front p) =
      if front.visited.length + r.visited.dropLast.length > dnsMaxAliasDepth then .error .aliasDepth
      else .ok (behind front r) := by
  have hnot : ∀ name ∈ owners R₂, name ∉ owners R₁ := by
    intro name hname
    obtain ⟨r, hr, rfl⟩ := mem_map.1 hname
    exact hapart r hr
  induction p using (aliasLoop R₂).pass_induction with
  | h p ih =>
    rw [Loop.run_eq, show (aliasLoop (R₁ ++ R₂)).body (behind front p) = aliasBody _ _ from rfl]
    rcases Loop.run_eq_ok.1 hrun with hdone | ⟨p', hagain, hrun⟩
    · obtain ⟨_, hvisited, hcanonical⟩ := aliasBody_done hdone
      rw [aliasBody_behind hfront (hnot _ (hcanonical ▸ hend)), show aliasBody R₂ p = _ from hdone, hvisited,
        dropLast_concat, if_neg (not_lt.2 hroom)]
    · obtain ⟨a, ha, howner, _⟩ := aliasBody_again_target hagain
      have hmine : p.canonical ∈ owners R₂ := howner ▸ mem_map_of_mem ha
      obtain ⟨hnew, hvisited, hdepth⟩ := aliasBody_again hagain
      have hnodup' : p'.visited.Nodup := by
        rw [hvisited]
        exact nodup_snoc hnodup hnew
      have howned' : ∀ v ∈ p'.visited, v ∈ owners R₂ := by
        intro v hv
        rw [hvisited] at hv
        rcases mem_snoc.1 hv with hv | rfl
        · exact howned v hv
        · exact hmine
      have hlonger := (aliasLoop_walk hrun hnodup' howned' hdepth).2.2.2.1
      rw [aliasBody_behind hfront (hnot _ hmine), show aliasBody R₂ p = _ from hagain]
      dsimp only
      by_cases hlong : front.visited.length + p'.visited.length > dnsMaxAliasDepth
      · rw [if_pos hlong, if_pos (by omega)]
      · rw [if_neg hlong]
        exact ih p' hagain hrun (not_lt.1 hlong) hnodup' howned'

end Walk

/-! ## The sets -/

/-- The set of a message without errors and authorities, from the path of its aliases. -/
def pathSet (question : DnsRecordName) (kind : DnsRecordType) (records : List DnsRecord) (path : AliasPath) :
    DnsRecordSet :=
  let found := (ownedBy records path.canonical).foldl (collectValue kind) ([], path.ttl)
  let negative := if found.1 = [] ∧ path.visited.dropLast = [] then some ⟨.noData, none⟩ else none
  { question, kind, canonicalName := path.canonical, values := found.1, aliases := path.visited.dropLast,
    ttlSeconds := (negativeTtl negative found.2).getD 0, negative }

theorem resolveAnswer_noError (question name : DnsRecordName) (kind : DnsRecordType) (records : List DnsRecord) :
    resolveAnswer ⟨question, .noError, records, []⟩ name kind =
      ((aliasLoop records).run { canonical := name, visited := [], ttl := none }).map
        (pathSet question kind records) := by
  have hnegative : ∀ c v a, negativeAnswer ⟨question, .noError, records, []⟩ c v a none =
      .ok (if v = [] ∧ a = [] then some ⟨.noData, none⟩ else none) := by
    intro c v a
    unfold negativeAnswer
    rw [if_neg nofun]
    by_cases h : v = [] ∧ a = []
    · rw [if_pos h, if_pos ⟨h.1, .inr h.2⟩]
    · rw [if_neg h, if_neg (by simpa using h)]
  unfold resolveAnswer
  cases (aliasLoop records).run { canonical := name, visited := [], ttl := none } with
  | error e => rfl
  | ok path =>
    change negativeAnswer _ _ _ _ none >>= _ = _
    rw [hnegative]
    rfl

theorem pathSet_of_not_empty {question : DnsRecordName} {kind : DnsRecordType} {records : List DnsRecord}
    {path : AliasPath} {found : List DnsRecordValue × Option UInt32}
    (hfound : (ownedBy records path.canonical).foldl (collectValue kind) ([], path.ttl) = found)
    (h : ¬ (found.1 = [] ∧ path.visited.dropLast = [])) :
    pathSet question kind records path =
      ⟨question, kind, path.canonical, found.1, path.visited.dropLast, found.2.getD 0, none⟩ := by
  unfold pathSet
  rw [hfound]
  dsimp only
  rw [if_neg h]
  rfl

variable {names : List DnsRecordName}

theorem joinAlias_apart {aliases : List DnsRecordName} (h : (aliases ++ names).Nodup) :
    names.foldlM DnsRecordSet.joinAlias aliases = .ok (aliases ++ names) := by
  induction names generalizing aliases with
  | nil => rw [append_nil]; rfl
  | cons name names ih =>
    have hnew : name ∉ aliases := fun hmem => (nodup_append.1 h).2.2 name hmem name mem_cons_self rfl
    rw [append_cons] at h ⊢
    rw [foldlM_cons, DnsRecordSet.joinAlias, if_neg hnew]
    exact ih h

theorem remaining_zero (t : UInt32) : UInt32.ofNat ((t.toNat * 1000 - (0 : UInt64).toNat) / 1000) = t := by
  rw [show (0 : UInt64).toNat = 0 from rfl, Nat.sub_zero, Nat.mul_div_cancel _ (by omega), UInt32.ofNat_toNat]

variable {q : AliasPath}

theorem followAnswer_pathSet {R₁ R₂ : List DnsRecord} {question : DnsRecordName} {kind : DnsRecordType}
    {r : AliasPath} {t : UInt32} (hopen : q.canonical ∉ owners R₁) (hquestion : q.canonical ≠ question)
    (hpath : q.visited.dropLast ≠ []) (httl : q.ttl = some t) (hlast : r.visited = r.visited.dropLast ++ [r.canonical])
    (hnodup : (q.visited.dropLast ++ r.visited).Nodup) (hend : r.canonical ∉ owners R₁)
    (hvalues : (pathSet q.canonical kind R₂ r).values ≠ []) :
    (pathSet question kind R₁ q).followAnswer (pathSet q.canonical kind R₂ r) 0 =
      if q.visited.dropLast.length + r.visited.dropLast.length > dnsMaxAliasDepth then .error .aliasDepth
      else .ok (pathSet question kind (R₁ ++ R₂) (behind { q with visited := q.visited.dropLast } r)) := by
  set V := q.visited.dropLast
  set found := (ownedBy R₂ r.canonical).foldl (collectValue kind) ([], r.ttl) with hfound
  have hne : found.1 ≠ [] := hvalues
  obtain ⟨u, hu⟩ := Option.isSome_iff_exists.1
    ((collectValue_isSome kind (ownedBy R₂ r.canonical) (s := ([], r.ttl)) (.inl rfl)).resolve_left hne)
  have hjoined : (ownedBy (R₁ ++ R₂) r.canonical).foldl (collectValue kind) ([], joinTtl (some t) r.ttl) =
      (found.1, some (min t u)) := by
    rw [mem_owners, not_not] at hend
    rw [ownedBy, filter_append, show filter _ R₁ = [] from hend, nil_append]
    exact (collectValue_join kind (some t) _ ([], r.ttl)).trans (congrArg (fun w => (found.1, joinTtl (some t) w)) hu)
  have hfirst : pathSet question kind R₁ q = ⟨question, kind, q.canonical, [], V, t, none⟩ := by
    rw [mem_owners, not_not] at hopen
    rw [pathSet_of_not_empty (by rw [hopen]) (fun h => hpath h.2), httl]
    rfl
  have hsecond : pathSet q.canonical kind R₂ r =
      ⟨q.canonical, kind, r.canonical, found.1, r.visited.dropLast, u, none⟩ := by
    rw [pathSet_of_not_empty hfound.symm (fun h => hne h.1), show found.2 = some u from hu]
    rfl
  have hboth : pathSet question kind (R₁ ++ R₂) (behind { q with visited := V } r) =
      ⟨question, kind, r.canonical, found.1, V ++ r.visited.dropLast, min t u, none⟩ := by
    have hends : (V ++ r.visited).dropLast = V ++ r.visited.dropLast := by
      rw [hlast, ← append_assoc, dropLast_concat, dropLast_concat]
    rw [pathSet_of_not_empty (show _ = (found.1, some (min t u)) by rw [← hjoined, ← httl]; rfl) (fun h => hne h.1)]
    exact congrArg (fun aliases => DnsRecordSet.mk question kind r.canonical found.1 aliases (min t u) none) hends
  have hapart : (V ++ r.visited.dropLast ++ [r.canonical]).Nodup := by rwa [append_assoc, ← hlast]
  have hnot : r.canonical ∉ V ++ r.visited.dropLast := fun hmem =>
    (nodup_append.1 hapart).2.2 _ hmem _ (mem_singleton_self _) rfl
  have hmin : min u t = min t u := Std.Commutative.comm u t
  rw [hfirst, hsecond, hboth]
  unfold DnsRecordSet.followAnswer
  dsimp only
  rw [reject, if_neg (by simpa using hquestion), joinAlias_apart (nodup_append.1 hapart).1]
  change reject _ _ >>= _ = _
  rw [reject, if_neg hnot]
  change reject _ _ >>= _ = _
  rw [reject, length_append, remaining_zero, hmin]
  by_cases hlong : V.length + r.visited.dropLast.length > dnsMaxAliasDepth
  · rw [if_pos hlong, if_pos hlong]
    rfl
  · rw [if_neg hlong, if_neg hlong]
    rfl

variable {R : List DnsRecord}

section

variable (h : OnAliasPath R names)
include h

theorem OnAliasPath.mem {r : DnsRecord}
    (hr : r ∈ R) {target : DnsRecordName} (hdata : r.data = .aliasTo target) : target ∈ names := by
  obtain ⟨t, hin, ht⟩ := h.steps r hr
  obtain rfl : t = target := by simpa [hdata] using ht.symm
  exact hin.subset (by simp)

theorem OnAliasPath.last
    {name last : DnsRecordName} (hmem : name ∈ names) (hopen : name ∉ owners R) (hlast : names.getLast? = some last) :
    name = last := by
  obtain ⟨front, back, rfl⟩ := append_of_mem hmem
  cases back with
  | nil => simpa using hlast
  | cons next back =>
    obtain ⟨r, hr, rfl, _⟩ := (isChain_append.1 h.chain).2.1.rel
    exact absurd (mem_map_of_mem hr) hopen

theorem OnAliasPath.head
    {name : DnsRecordName} (hhead : names.head? = some name) (hne : R ≠ []) : name ∈ owners R := by
  obtain ⟨r, hr⟩ := exists_mem_of_ne_nil _ hne
  obtain ⟨target, hin, _⟩ := h.steps r hr
  have hlen := hin.length_le
  match names, h.chain, hhead, hlen with
  | first :: next :: _, hchain, hhead, _ =>
    obtain ⟨r, hr, howner, _⟩ := hchain.rel
    exact Option.some.inj hhead ▸ howner ▸ mem_map_of_mem hr

theorem OnAliasPath.walk {p : AliasPath}
    (hp : p.canonical ∈ names) (hrun : (aliasLoop R).run p = .ok q) : q.canonical ∈ names := by
  refine Loop.run_invariant (P := fun s : AliasPath => s.canonical ∈ names)
    (Q := fun s : AliasPath => s.canonical ∈ names) ?_ ?_ hp hrun
  · intro s s' _ hagain
    obtain ⟨a, ha, _, hdata⟩ := aliasBody_again_target hagain
    exact h.mem ha hdata
  · intro s s' hs hdone
    exact (aliasBody_done hdone).2.2 ▸ hs

end

/-- **A chain of aliases over two responses gives what one response would give.** -/
theorem decodeDnsAnswer_split {packet packet₁ packet₂ : List UInt8} {id id₁ id₂ : UInt16}
    {question name : DnsRecordName} {kind : DnsRecordType} {R₁ R₂ : List DnsRecord} {second : DnsRecordSet}
    (hpath : OnAliasPath R₁ names) (hhead : names.head? = some question) (hlast : names.getLast? = some name)
    (hne : R₁ ≠ []) (hapart : ∀ r ∈ R₂, r.owner ∉ owners R₁)
    (hboth : decodeMessage packet id question kind = .ok ⟨question, .noError, R₁ ++ R₂, []⟩)
    (hfirst : decodeMessage packet₁ id₁ question kind = .ok ⟨question, .noError, R₁, []⟩)
    (hsecond : decodeMessage packet₂ id₂ name kind = .ok ⟨name, .noError, R₂, []⟩)
    (hanswer : decodeDnsAnswer packet₂ id₂ name kind = .ok second) (hvalues : second.values ≠ []) :
    decodeDnsAnswer packet id question kind =
      decodeDnsAnswer packet₁ id₁ question kind >>= fun first => first.followAnswer second 0 := by
  have halias : ∀ r ∈ R₁, ∃ target, r.data = .aliasTo target := fun r hr => (hpath.steps r hr).imp fun _ h => h.2
  have hquestion : question ∈ owners R₁ := hpath.head hhead hne
  unfold decodeDnsAnswer at hanswer ⊢
  rw [hsecond] at hanswer
  rw [hboth, hfirst]
  change resolveAnswer _ _ _ = resolveAnswer _ _ _ >>= _
  replace hanswer : resolveAnswer _ _ _ = .ok second := hanswer
  rw [resolveAnswer_noError] at hanswer ⊢
  rw [resolveAnswer_noError]
  cases hr : (aliasLoop R₂).run ⟨name, [], none⟩ with
  | error e => rw [hr] at hanswer; cases hanswer
  | ok r =>
  rw [hr] at hanswer
  obtain rfl := Except.ok.inj hanswer
  obtain ⟨hfront, hdone⟩ := aliasLoop_front hapart halias ⟨question, [], none⟩ nofun (.inl rfl)
  rw [hfront]
  cases hq : (aliasLoop R₁).run ⟨question, [], none⟩ with
  | error e => rfl
  | ok q =>
  obtain ⟨hopen, httl⟩ := hdone q hq
  obtain ⟨hvisited, hnodup, howned, _, hdepth⟩ := aliasLoop_walk hq nodup_nil nofun (Nat.zero_le _)
  obtain ⟨hvisited', hnodup', howned', _, _⟩ := aliasLoop_walk hr nodup_nil nofun (Nat.zero_le _)
  have hend : r.canonical ∈ owners R₂ := by
    rw [mem_owners]
    intro hnone
    exact hvalues (by simp [pathSet, hnone])
  have hnot : ∀ v ∈ owners R₂, v ∉ owners R₁ := by
    intro v hv
    obtain ⟨r, hr, rfl⟩ := mem_map.1 hv
    exact hapart r hr
  have howned'' : ∀ v ∈ r.visited, v ∈ owners R₂ := by
    intro v hv
    rw [hvisited'] at hv
    rcases mem_snoc.1 hv with hv | rfl
    · exact howned' v hv
    · exact hend
  obtain rfl : q.canonical = name := hpath.last (hpath.walk (mem_of_mem_head? hhead) hq) hopen hlast
  have hne' : q.visited.dropLast ≠ [] := by
    obtain ⟨front, hfront, _, hcases⟩ := aliasLoop_path hq
    rw [hfront, dropLast_concat]
    rcases hcases with ⟨_, heq⟩ | hmem
    · exact absurd (heq ▸ hquestion) hopen
    · exact ne_nil_of_mem hmem
  obtain ⟨t, ht⟩ := Option.isSome_iff_exists.1 (httl.resolve_left hne')
  change Except.map _ ((aliasLoop (R₁ ++ R₂)).run { q with visited := q.visited.dropLast }) = _
  have hstart : { q with visited := q.visited.dropLast } =
      behind { q with visited := q.visited.dropLast } ⟨q.canonical, [], none⟩ := by
    simp [behind, ht, joinTtl]
  rw [hstart, aliasLoop_behind hapart howned hr hend (by simpa using hdepth) nodup_nil nofun]
  refine Eq.trans ?_ (followAnswer_pathSet hopen (fun h => hopen (h ▸ hquestion)) hne' ht hvisited' ?_
    (hnot _ hend) hvalues).symm
  · split
    · rfl
    · rfl
  · refine nodup_append.2 ⟨hnodup.sublist (dropLast_sublist _), hnodup', ?_⟩
    rintro v hv _ hw rfl
    exact hnot v (howned'' v hw) (howned v hv)

namespace DnsFixture

def aliasPacket : List UInt8 := header 0 1 0 ++ question nameB ++ aliasRecord
def addressPacket : List UInt8 := header 0 1 0 ++ question nameA ++ addressRecord
def emptyPacket : List UInt8 := header 0 0 0 ++ question nameA

def addressA : DnsRecordSet :=
  { question := ⟨nameA⟩, kind := .a, canonicalName := ⟨nameA⟩, values := [.ipv4 ⟨10, 0, 2, 3⟩], aliases := [],
    ttlSeconds := 30, negative := none }

theorem decodeDnsAnswer_split_alias :
    (decodeDnsAnswer aliasPacket 7 ⟨nameB⟩ .a >>= fun first => first.followAnswer addressA 0) = .ok aliasedA := by
  have hpath : OnAliasPath [recordB] [⟨nameB⟩, ⟨nameA⟩] :=
    ⟨.cons_cons ⟨recordB, mem_cons_self, rfl, rfl⟩ (.singleton _), fun r hr => by
      obtain rfl := mem_singleton.1 hr
      exact ⟨⟨nameA⟩, infix_rfl, rfl⟩⟩
  have hsplit := decodeDnsAnswer_split hpath rfl rfl nofun (by decide)
    (show decodeMessage answer 7 _ .a = .ok ⟨_, .noError, [recordB] ++ [recordA], []⟩ by decide)
    (show decodeMessage aliasPacket 7 _ .a = _ by decide) (show decodeMessage addressPacket 7 _ .a = _ by decide)
    (show decodeDnsAnswer addressPacket 7 _ .a = .ok addressA by decide) (by decide)
  rw [← hsplit]
  decide

/-- With no alias in the first response, the second set is not joined to it. -/
theorem followAnswer_without_alias :
    OnAliasPath [] [⟨nameA⟩] ∧ decodeDnsAnswer addressPacket 7 ⟨nameA⟩ .a = .ok addressA ∧
      (decodeDnsAnswer emptyPacket 7 ⟨nameA⟩ .a >>= fun first => first.followAnswer addressA 0) =
        .error .questionMismatch :=
  ⟨⟨.singleton _, nofun⟩, by decide, by decide⟩

end DnsFixture

end MochiSyscalls.NetworkStack
