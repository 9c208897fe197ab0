import MochiSyscalls.Foundations.Rows
import MochiSyscalls.Foundations.Runs
import MochiSyscalls.HttpClient.Url

/-! # Redirects

`RedirectTracker` (`crates/http-client/src/url.rs`). A location that begins with a slash is put behind the host header
of the URL and parsed again: the slash ends the authority, so the authority is the header, and the header is parsed
to the host name and the port it was made from. -/

namespace MochiSyscalls.HttpClient
open Foundations Checked Loops Numerals Utf8 List HttpsUrl
set_option autoImplicit false

def maxRedirects : ℕ := 3

structure RedirectTracker where
  visited : List (List UInt8)

namespace RedirectTracker

def new : RedirectTracker := ⟨[]⟩

variable (ipv4 : List UInt8 → Bool)

/-- The URL of a location, before the tracker looks at it. -/
def target (url : HttpsUrl) (location : List UInt8) : Except HttpError HttpsUrl :=
  if (ascii "https://").isPrefixOf location then HttpsUrl.parse ipv4 location
  else if location.head? = some (byte '/') then HttpsUrl.parse ipv4 (ascii "https://" ++ (url.hostHeader ++ location))
  else .error .redirectUnsupported

-- the proof `follow` uses to decide membership
local instance lawful : LawfulBEq (List UInt8) := inferInstance

def follow (t : RedirectTracker) (url : HttpsUrl) (location : List UInt8) :
    Except HttpError HttpsUrl × RedirectTracker :=
  let checked : Except HttpError HttpsUrl := do
    reject ((ascii "http://").isPrefixOf location) .redirectDowngrade
    let next ← target ipv4 url location
    reject (maxRedirects ≤ t.visited.length) .redirectLimit
    reject (next.original ∈ t.visited) .redirectLoop
    return next
  match checked with
  | .error e => (.error e, t)
  | .ok next => (.ok next, ⟨t.visited ++ [next.original]⟩)

end RedirectTracker

/-! ## The header is parsed back -/

def hostByte (b : UInt8) : Bool := isAlphanumeric b || b == byte '-' || b == byte '.'

def lower (b : UInt8) : UInt8 := if within 'A' 'Z' b then b + 32 else b

theorem lowercase_eq (text : List UInt8) : lowercase text = text.map lower := rfl

theorem lower_byte : ∀ b : UInt8, (lower b == byte '.') = (b == byte '.') ∧ (lower b == byte '-') = (b == byte '-') ∧
    isAlphanumeric (lower b) = isAlphanumeric b ∧ within '0' '9' (lower b) = within '0' '9' b ∧ lower (lower b) = lower b ∧
    (within '0' '9' b || b == byte '.' → lower b = b) := forall_byte (by decide +kernel)

theorem hostByte_plain : ∀ b : UInt8, hostByte b = true → Clean b ∧ endsAuthority b = false ∧ b ≠ byte '@' ∧
    b ≠ byte ':' ∧ b ≠ byte '[' ∧ b ≠ byte '*' := by
  unfold Clean
  exact forall_byte (by decide +kernel)

theorem digit_plain : ∀ b : UInt8, within '0' '9' b = true → hostByte b = true ∧ b ≠ byte '.' :=
  forall_byte (by decide +kernel)

theorem splitOnP_map {α β : Type} (f : α → β) (p : β → Bool) (text : List α) :
    (text.map f).splitOnP p = (text.splitOnP fun a => p (f a)).map (List.map f) := by
  induction text with
  | nil => simp
  | cons a text ih =>
    rw [map_cons, splitOnP_cons_eq_if_modifyHead, splitOnP_cons_eq_if_modifyHead, ih]
    split
    · rfl
    · cases text.splitOnP fun a => p (f a) <;> rfl

theorem splitOn_lowercase (host : List UInt8) :
    (lowercase host).splitOn (byte '.') = (host.splitOn (byte '.')).map lowercase := by
  rw [lowercase_eq, splitOn, splitOnP_map]
  simp only [lower_byte]
  rfl

theorem badLabel_lowercase (label : List UInt8) : badLabel (lowercase label) = badLabel label := by
  have hends : ∀ o : Option UInt8, (o.map lower == some (byte '-')) = (o == some (byte '-')) := by
    rintro (_ | b)
    · rfl
    · exact (lower_byte b).2.1
  simp only [badLabel, lowercase_eq, isEmpty_map, length_map, head?_map, getLast?_map, all_map,
    Function.comp_def, hends, lower_byte]

variable {ipv4 : List UInt8 → Bool} {host hostname : List UInt8} {port : ℕ}

theorem hostname_plain (h : validateHostname ipv4 host = .ok ()) :
    (∀ b ∈ host, hostByte b = true) ∧ host ≠ [] ∧ host.getLast? ≠ some (byte '.') := by
  obtain ⟨_, -, h⟩ := bind_eq_ok.mp h
  have hlabels : ∀ label ∈ host.splitOn (byte '.'), badLabel label = false := by
    simpa using reject_eq_ok.mp h
  have hempty : [] ∉ host.splitOn (byte '.') := fun hmem => by simpa [badLabel] using hlabels _ hmem
  refine ⟨fun b hb => ?_, ?_, fun hlast => ?_⟩
  · rw [← host.intercalate_splitOn (byte '.')] at hb
    rcases Lines.mem_intercalate hb with rfl | ⟨label, hlabel, hb⟩
    · decide
    · have hgood := hlabels label hlabel
      simp only [badLabel, Bool.or_eq_false_iff, Bool.not_eq_false', all_eq_true] at hgood
      rw [hostByte, hgood.2 b hb]
      rfl
  · rintro rfl
    exact hempty (by simp)
  · obtain ⟨front, rfl⟩ := getLast?_eq_some_iff.mp hlast
    exact hempty (by rw [splitOn_append_cons_self]; simp)

theorem lowercase_plain (h : ∀ b ∈ host, hostByte b = true) : ∀ b ∈ lowercase host, hostByte b = true := by
  intro b hb
  obtain ⟨c, hc, rfl⟩ := mem_map.mp hb
  have hbyte := h c hc
  rw [hostByte, ← (lower_byte c).1, ← (lower_byte c).2.1, ← (lower_byte c).2.2.1] at hbyte
  exact hbyte

theorem validateHostname_lowercase (hipv4 : ∀ host, ipv4 (lowercase host) = ipv4 host)
    (h : validateHostname ipv4 host = .ok ()) : validateHostname ipv4 (lowercase host) = .ok () := by
  have hplain := lowercase_plain (hostname_plain h).1
  have hstar : byte '*' ∉ lowercase host := fun hb => (hostByte_plain _ (hplain _ hb)).2.2.2.2.2 rfl
  obtain ⟨_, hhost, hlabels⟩ := bind_eq_ok.mp h
  rw [reject_eq_ok, not_or, not_or] at hhost
  rw [reject_eq_ok] at hlabels
  refine reject_bind ?_ (reject_eq_ok.mpr ?_)
  · rw [hipv4, lowercase, length_map, not_or, not_or]
    exact ⟨hhost.1, hhost.2.1, hstar⟩
  · rw [splitOn_lowercase, any_map]
    simpa only [Function.comp_def, badLabel_lowercase] using hlabels

theorem port_of_splitAuthority {authority : List UInt8} (h : splitAuthority authority = .ok (host, port)) :
    port ≠ 0 ∧ port ≤ 2 ^ 16 - 1 := by
  unfold splitAuthority at h
  split at h
  · simp only [bind_eq_ok] at h
    obtain ⟨_, -, n, hn, _, hzero, h⟩ := h
    obtain ⟨-, rfl⟩ := Prod.mk.inj (Except.ok.inj h)
    obtain ⟨_, -, -, -, hle⟩ := (fromStrRadix_eq_some (by decide) (by decide) (by decide)).mp (okOr_eq_ok.mp hn)
    exact ⟨reject_eq_ok.mp hzero, hle⟩
  · obtain ⟨-, rfl⟩ := Prod.mk.inj (Except.ok.inj h)
    decide

theorem splitAuthority_bare (h : byte ':' ∉ host) : splitAuthority host = .ok (host, 443) := by
  rw [splitAuthority, rcut, cut_of_notMem (by rwa [mem_reverse])]
  rfl

theorem splitAuthority_port (h : byte ':' ∉ host) (hzero : port ≠ 0) (hport : port ≤ 2 ^ 16 - 1) :
    splitAuthority (host ++ byte ':' :: decimal port) = .ok (host, port) := by
  have hdigits : byte ':' ∉ (decimal port).reverse := fun hb =>
    absurd (decimal_digits port _ (List.mem_reverse.mp hb)) (by decide)
  have hcut : rcut (byte ':') (host ++ byte ':' :: decimal port) = some (host, decimal port) := by
    rw [rcut, List.reverse_append, List.reverse_cons, List.append_assoc, List.singleton_append, cut_append hdigits]
    simp
  rw [splitAuthority, hcut]
  refine reject_bind ?_ (bind_ok (okOr_eq_ok.mpr (fromStrRadix_decimal hport)) (reject_bind hzero rfl))
  rw [not_or, List.isEmpty_iff]
  exact ⟨h, decimal_ne_nil port⟩

theorem parseAuthority_hostHeader (hipv4 : ∀ host, ipv4 (lowercase host) = ipv4 host) {url : HttpsUrl}
    {authority : List UInt8} (h : parseAuthority ipv4 authority = .ok (url.hostname, url.port)) :
    parseAuthority ipv4 url.hostHeader = .ok (url.hostname, url.port) ∧
      ∀ b ∈ url.hostHeader, Clean b ∧ endsAuthority b = false ∧ b ≠ byte '@' := by
  obtain ⟨-, host, hsplit, hvalid, hname⟩ := parseAuthority_eq_ok.mp h
  obtain ⟨hzero, hport⟩ := port_of_splitAuthority hsplit
  have hlower := validateHostname_lowercase hipv4 hvalid
  rw [← hname] at hlower
  obtain ⟨hplain, hne, hlast⟩ := hostname_plain hlower
  have hcolon : byte ':' ∉ url.hostname := fun hb => (hostByte_plain _ (hplain _ hb)).2.2.2.1 rfl
  have hbracket : url.hostname.head? ≠ some (byte '[') := fun hhead =>
    (hostByte_plain _ (hplain _ (mem_of_head? hhead))).2.2.2.2.1 rfl
  have hsame : url.hostname = lowercase url.hostname := by
    simp only [hname, lowercase_eq, map_map, Function.comp_def, lower_byte]
  have hbytes : ∀ b, hostByte b = true → Clean b ∧ endsAuthority b = false ∧ b ≠ byte '@' := fun b hb =>
    ⟨(hostByte_plain b hb).1, (hostByte_plain b hb).2.1, (hostByte_plain b hb).2.2.1⟩
  unfold hostHeader
  split
  next hdefault =>
    rw [hdefault]
    exact ⟨parseAuthority_eq_ok.mpr ⟨⟨hne, hbracket, hlast⟩, _, splitAuthority_bare hcolon, hlower, hsame⟩,
      fun b hb => hbytes b (hplain b hb)⟩
  next =>
    refine ⟨parseAuthority_eq_ok.mpr ⟨⟨by simp, ?_, ?_⟩, _, splitAuthority_port hcolon hzero hport, hlower, hsame⟩, ?_⟩
    · rwa [head?_append_of_ne_nil _ hne]
    · rw [append_cons, getLast?_append_of_ne_nil _ (decimal_ne_nil _)]
      intro hdot
      exact (digit_plain _ (decimal_digits _ _ (mem_of_getLast? hdot))).2 rfl
    · intro b hb
      rcases mem_append.mp hb with hb | hb
      · exact hbytes b (hplain b hb)
      · rcases mem_cons.mp hb with rfl | hb
        · unfold Clean
          decide
        · exact hbytes b (digit_plain b (decimal_digits _ b hb)).1

/-! ## Redirects -/

namespace RedirectTracker

variable {t : RedirectTracker} {url next : HttpsUrl} {location : List UInt8}

theorem follow_cases (ipv4 : List UInt8 → Bool) (t : RedirectTracker) (url : HttpsUrl) (location : List UInt8) :
    (∃ e, t.follow ipv4 url location = (.error e, t)) ∨ ∃ next,
      t.follow ipv4 url location = (.ok next, ⟨t.visited ++ [next.original]⟩) ∧ target ipv4 url location = .ok next ∧
        t.visited.length < maxRedirects ∧ next.original ∉ t.visited := by
  unfold follow
  dsimp only
  split
  · exact .inl ⟨_, rfl⟩
  next next h =>
    simp only [bind_eq_ok] at h
    obtain ⟨_, -, _, htarget, _, hlimit, _, hloop, h⟩ := h
    obtain rfl := Except.ok.inj h
    exact .inr ⟨_, rfl, htarget, not_le.mp (reject_eq_ok.mp hlimit), reject_eq_ok.mp hloop⟩

theorem follow_eq_ok (h : (t.follow ipv4 url location).1 = .ok next) : target ipv4 url location = .ok next := by
  rcases follow_cases ipv4 t url location with ⟨e, he⟩ | ⟨_, he, htarget, -⟩
  · rw [he] at h
    cases h
  · rw [he] at h
    rw [htarget, ← Except.ok.inj h]

theorem parse_of_target (h : target ipv4 url location = .ok next) : ∃ input, HttpsUrl.parse ipv4 input = .ok next := by
  unfold target at h
  split_ifs at h
  · exact ⟨_, h⟩
  · exact ⟨_, h⟩

theorem target_contained (hipv4 : ∀ host, ipv4 (lowercase host) = ipv4 host) {input : List UInt8}
    (hurl : HttpsUrl.parse ipv4 input = .ok url) (hslash : location.head? = some (byte '/'))
    (h : target ipv4 url location = .ok next) : next.hostname = url.hostname ∧ next.port = url.port := by
  obtain ⟨-, -, _, _, -, -, -, -, hauthority, -⟩ := parse_eq_ok.mp hurl
  obtain ⟨hheader, hplain⟩ := parseAuthority_hostHeader hipv4 hauthority
  have hrelative : ¬ (ascii "https://").isPrefixOf location = true := by
    rw [List.isPrefixOf_iff_prefix]
    rintro ⟨rest, rfl⟩
    cases hslash
  rw [target, if_neg hrelative, if_pos hslash] at h
  obtain ⟨-, -, authority, rest, htext, hfront, hrest, -, hnext, -⟩ := parse_eq_ok.mp h
  have hsplit := (splitAt_authority hfront hrest).1
  rw [← append_cancel_left htext, (splitAt_authority (fun b hb => (hplain b hb).2.1) fun b hb => ?_).1] at hsplit
  · rw [← hsplit, hheader] at hnext
    obtain ⟨hname, hport⟩ := Prod.mk.inj (Except.ok.inj hnext)
    exact ⟨hname.symm, hport.symm⟩
  · rw [hslash] at hb
    rw [← Option.some.inj hb]
    decide

/-- The tracker and the URLs it has returned, over the calls. -/
def step (ipv4 : List UInt8 → Bool) (s : RedirectTracker × List HttpsUrl) (call : HttpsUrl × List UInt8) :
    RedirectTracker × List HttpsUrl :=
  match s.1.follow ipv4 call.1 call.2 with
  | (.ok next, t) => (t, s.2 ++ [next])
  | (.error _, t) => (t, s.2)

theorem run_returned (calls : List (HttpsUrl × List UInt8)) : let s := Runs.run (step ipv4) (new, []) calls
    s.1.visited = s.2.map HttpsUrl.original ∧ (s.2.map HttpsUrl.original).Nodup ∧ s.2.length ≤ maxRedirects := by
  refine Runs.run_invariant (step ipv4) (s := (new, [])) (P := fun s => s.1.visited = s.2.map original ∧
    (s.2.map original).Nodup ∧ s.2.length ≤ maxRedirects) ?_ ⟨rfl, nodup_nil, Nat.zero_le _⟩ calls
  rintro ⟨t, urls⟩ ⟨url, location⟩ ⟨hvisited, hnodup, hlen⟩
  rcases follow_cases ipv4 t url location with
    ⟨e, he⟩ | ⟨next, he, -, hlimit, hloop⟩
  · rw [step, he]
    exact ⟨hvisited, hnodup, hlen⟩
  · rw [step, he]
    dsimp only at hvisited hnodup ⊢
    rw [hvisited] at hlimit hloop ⊢
    rw [length_map] at hlimit
    rw [map_append, length_append]
    exact ⟨rfl, Rows.nodup_snoc hnodup hloop, hlimit⟩

end RedirectTracker

theorem pathOf_self {path : List UInt8} (h : path.head? = some (byte '/')) : pathOf path = path := by
  obtain ⟨rest, rfl⟩ := head?_eq_some_iff.mp h
  rfl

theorem pathOf_subset (rest : List UInt8) : ∀ b ∈ pathOf rest, b = byte '/' ∨ b ∈ rest := by
  unfold pathOf
  split_ifs
  · exact fun b hb => .inl (mem_singleton.mp hb)
  · exact fun b hb => mem_cons.mp hb
  · exact fun b hb => .inr hb

/-- **Redirects stay where they belong.** A parsed URL put together again keeps host, port and path, a location that
begins with a slash keeps the host and the port, and at most `MAX_REDIRECTS` https URLs are returned. -/
theorem redirects_contained (hipv4 : ∀ host, ipv4 (lowercase host) = ipv4 host) :
    (∀ input url, HttpsUrl.parse ipv4 input = .ok url →
      (ascii "https://" ++ (url.hostHeader ++ url.path)).length ≤ maxUrlLen →
      ∃ url', HttpsUrl.parse ipv4 (ascii "https://" ++ (url.hostHeader ++ url.path)) = .ok url' ∧
        url'.hostname = url.hostname ∧ url'.port = url.port ∧ url'.path = url.path) ∧
    (∀ input url, HttpsUrl.parse ipv4 input = .ok url → ∀ (t : RedirectTracker) location next,
      (t.follow ipv4 url location).1 = .ok next →
      (location.head? = some (byte '/') → next.hostname = url.hostname ∧ next.port = url.port) ∧
        ascii "https://" <+: next.original ∧ ∃ input', HttpsUrl.parse ipv4 input' = .ok next) ∧
    ∀ calls, let returned := (Runs.run (RedirectTracker.step ipv4) (.new, []) calls).2
      (returned.map HttpsUrl.original).Nodup ∧ returned.length ≤ maxRedirects := by
  refine ⟨fun input url hurl hlen => ?_, fun input url hurl t location next h => ?_, fun calls =>
    (RedirectTracker.run_returned calls).2⟩
  · obtain ⟨-, hclean, _, rest, rfl, -, -, -, hauthority, hpathLen, hslash, hpath, -⟩ := parse_eq_ok.mp hurl
    obtain ⟨hheader, hplain⟩ := parseAuthority_hostHeader hipv4 hauthority
    have hself : pathOf url.path = url.path := pathOf_self (hpath ▸ hslash)
    refine ⟨⟨ascii "https://" ++ (url.hostHeader ++ url.path), url.hostname, url.port, url.path⟩,
      parse_eq_ok.mpr ⟨hlen, ?_, _, _, rfl, fun b hb => (hplain b hb).2.1, ?_, fun hb => (hplain _ hb).2.2 rfl,
        hheader, ?_, ?_, hself.symm, rfl⟩, rfl, rfl, rfl⟩
    · intro b hb
      rcases mem_append.mp hb with hb | hb
      · exact hclean b (mem_append_left _ hb)
      rcases mem_append.mp hb with hb | hb
      · exact (hplain b hb).1
      · rw [hpath] at hb
        rcases pathOf_subset rest b hb with rfl | hb
        · unfold Clean
          decide
        · exact hclean b (mem_append_right _ (mem_append_right _ hb))
    · intro b hb
      rw [hpath, hslash] at hb
      rw [← Option.some.inj hb]
      decide
    · rwa [hself, hpath]
    · rwa [hself, hpath]
  · have htarget := RedirectTracker.follow_eq_ok h
    obtain ⟨input', hnext⟩ := RedirectTracker.parse_of_target htarget
    obtain ⟨-, -, _, _, rfl, -, -, -, -, -, -, -, horiginal⟩ := parse_eq_ok.mp hnext
    exact ⟨fun hslash => RedirectTracker.target_contained hipv4 hurl hslash htarget,
      horiginal ▸ prefix_append _ _, _, hnext⟩

/-! ## A redirect -/

namespace RedirectFixture

def dottedQuad (host : List UInt8) : Bool :=
  (host.all fun b => within '0' '9' b || b == byte '.') && (host.splitOn (byte '.')).length == 4 &&
    (host.splitOn (byte '.')).all fun part =>
      (fromStrRadix 10 255 part).isSome && (part.length == 1 || part.head? != some (byte '0'))

theorem dottedQuad_lowercase (host : List UInt8) : dottedQuad (lowercase host) = dottedQuad host := by
  have hall : (lowercase host).all (fun b => within '0' '9' b || b == byte '.') =
      host.all fun b => within '0' '9' b || b == byte '.' := by
    simp only [lowercase_eq, all_map, Function.comp_def, lower_byte]
  cases h : host.all fun b => within '0' '9' b || b == byte '.' with
  | false => simp only [dottedQuad, hall, h, Bool.false_and]
  | true =>
    have hsame : ∀ b ∈ host, lower b = id b := fun b hb => (lower_byte b).2.2.2.2.2 (all_eq_true.mp h b hb)
    rw [lowercase_eq, map_congr_left hsame, map_id]

def url : HttpsUrl := ⟨ascii "https://Example.com:8443/a?b", ascii "example.com", 8443, ascii "/a?b"⟩

def next : HttpsUrl := ⟨ascii "https://example.com:8443//evil@host:1", ascii "example.com", 8443, ascii "//evil@host:1"⟩

theorem redirects_contained_slashes :
    (∃ url', HttpsUrl.parse dottedQuad (ascii "https://" ++ (url.hostHeader ++ url.path)) = .ok url' ∧
      url'.hostname = url.hostname ∧ url'.port = url.port ∧ url'.path = url.path) ∧
    (RedirectTracker.new.follow dottedQuad url (ascii "//evil@host:1")).1 = .ok next ∧
    next.hostname = url.hostname ∧ next.port = url.port := by
  obtain ⟨hback, hstay, -⟩ := redirects_contained dottedQuad_lowercase
  have hurl : HttpsUrl.parse dottedQuad (ascii "https://Example.com:8443/a?b") = .ok url := by decide +kernel
  have hnext : (RedirectTracker.new.follow dottedQuad url (ascii "//evil@host:1")).1 = .ok next := by decide +kernel
  exact ⟨hback _ _ hurl (by decide +kernel), hnext, (hstay _ _ hurl _ _ _ hnext).1 rfl⟩

end RedirectFixture

end MochiSyscalls.HttpClient
