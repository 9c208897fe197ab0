import MochiSyscalls.HttpClient.FieldLines

/-! # URLs

`HttpsUrl::parse` (`crates/http-client/src/url.rs`). The address parser of the standard library is a
parameter: `ipv4` says which host names are IPv4 addresses. What reaches a request from a URL has no control
character, because the whole text of the URL has none. -/

namespace MochiSyscalls.HttpClient
open Foundations Checked Loops Numerals Utf8 List
set_option autoImplicit false

def maxUrlLen : ℕ := 2048
def maxHostnameLen : ℕ := 253
def maxPathLen : ℕ := 1536

structure HttpsUrl where
  original : List UInt8
  hostname : List UInt8
  port : ℕ
  path : List UInt8
  deriving DecidableEq

variable (b : UInt8)

/-- `is_ascii_control`. -/
def isControl : Bool := b < 0x20 || b == 0x7f

def isAlphanumeric : Bool := within '0' '9' b || within 'a' 'z' b || within 'A' 'Z' b

/-- `rsplit_once`: the text in front of the last separator, and the one behind it. -/
def rcut (separator : UInt8) (text : List UInt8) : Option (List UInt8 × List UInt8) :=
  let (back, front) := cut separator text.reverse
  front.map fun front => (front.reverse, back.reverse)

def badLabel (label : List UInt8) : Bool :=
  label.isEmpty || 63 < label.length || label.head? == some (byte '-') || label.getLast? == some (byte '-') ||
    !label.all fun b => isAlphanumeric b || b == byte '-'

section Parse

variable (ipv4 : List UInt8 → Bool)

def validateHostname (hostname : List UInt8) : Except HttpError Unit := do
  reject (maxHostnameLen < hostname.length ∨ ipv4 hostname ∨ byte '*' ∈ hostname) .invalidHostname
  reject ((hostname.splitOn (byte '.')).any badLabel) .invalidHostname

/-- The host name and the port, before the host name is checked. -/
def splitAuthority (authority : List UInt8) : Except HttpError (List UInt8 × ℕ) :=
  match rcut (byte ':') authority with
  | some (host, rawPort) => do
    reject (byte ':' ∈ host ∨ rawPort.isEmpty) .invalidPort
    let port ← okOr (fromStrRadix 10 (2 ^ 16 - 1) rawPort) .invalidPort
    reject (port = 0) .invalidPort
    return (host, port)
  | none => .ok (authority, 443)

def parseAuthority (authority : List UInt8) : Except HttpError (List UInt8 × ℕ) := do
  reject (authority.isEmpty ∨ authority.head? = some (byte '[') ∨ authority.getLast? = some (byte '.')) .invalidHostname
  let (hostname, port) ← splitAuthority authority
  validateHostname ipv4 hostname
  return (lowercase hostname, port)

variable (input : List UInt8)

def build (hostname : List UInt8) (port : ℕ) (path : List UInt8) : Except HttpError HttpsUrl := do
  reject (maxPathLen < path.length ∨ path.head? ≠ some (byte '/')) .invalidPath
  return { original := input, hostname, port, path }

/-- The path of a request: a query alone gets a slash, nothing becomes one. -/
def pathOf (rest : List UInt8) : List UInt8 :=
  if rest = [] then ascii "/"
  else if rest.head? = some (byte '?') then byte '/' :: rest
  else rest

def stripScheme : Option (List UInt8) :=
  if (ascii "https://").isPrefixOf input then some (input.drop 8) else none

def endsAuthority : Bool := b == byte '/' || b == byte '?'

def HttpsUrl.parse : Except HttpError HttpsUrl := do
  reject (maxUrlLen < input.length) .urlTooLong
  reject (input.any fun b => isControl b || b == byte ' ') .invalidUrl
  reject (byte '#' ∈ input) .fragmentForbidden
  let authorityAndPath ← okOr (stripScheme input) .unsupportedScheme
  let authority := authorityAndPath.takeWhile (!endsAuthority ·)
  reject (byte '@' ∈ authority) .userInfoForbidden
  let (hostname, port) ← parseAuthority ipv4 authority
  build input hostname port (pathOf (authorityAndPath.dropWhile (!endsAuthority ·)))

end Parse

def HttpsUrl.hostHeader (url : HttpsUrl) : List UInt8 :=
  if url.port = 443 then url.hostname else url.hostname ++ byte ':' :: decimal url.port

/-! ## No control characters -/

def Printable (text : List UInt8) : Prop := ∀ b ∈ text, isControl b = false

theorem Printable.append {left right : List UInt8} (h : Printable left) (h' : Printable right) :
    Printable (left ++ right) := by
  intro b hb
  rcases mem_append.mp hb with hb | hb
  · exact h b hb
  · exact h' b hb

theorem Printable.subset {text part : List UInt8} (h : Printable text) (hsub : part ⊆ text) : Printable part :=
  fun b hb => h b (hsub hb)

theorem Printable.lowercase {text : List UInt8} (h : Printable text) : Printable (lowercase text) := by
  intro b hb
  obtain ⟨c, hc, rfl⟩ := mem_map.mp hb
  have hcase : ∀ c : UInt8, isControl c = false → isControl (if within 'A' 'Z' c then c + 32 else c) = false :=
    forall_byte (by decide +kernel)
  exact hcase c (h c hc)

theorem printable_decimal (n : ℕ) : Printable (decimal n) := by
  intro b hb
  have hdigit : ∀ b : UInt8, within '0' '9' b = true → isControl b = false := forall_byte (by decide +kernel)
  exact hdigit b (decimal_digits n b hb)

theorem rcut_subset {separator : UInt8} {text front back : List UInt8} (h : rcut separator text = some (front, back)) :
    front ⊆ text := by
  rcases cut_cases separator text.reverse with ⟨-, hcut⟩ | ⟨last, rest, heq, -, hcut⟩
  · rw [rcut, hcut] at h
    cases h
  · rw [rcut, hcut] at h
    obtain ⟨rfl, -⟩ := Prod.mk.inj (Option.some.inj h)
    intro b hb
    rw [← mem_reverse, heq]
    exact mem_append_right _ (mem_cons_of_mem _ (mem_reverse.mp hb))

theorem splitAuthority_subset {authority hostname : List UInt8} {port : ℕ}
    (h : splitAuthority authority = .ok (hostname, port)) : hostname ⊆ authority := by
  unfold splitAuthority at h
  split at h
  next host rawPort hcut =>
    iterate 3 obtain ⟨_, _, h⟩ := bind_eq_ok.mp h
    obtain ⟨rfl, -⟩ := Prod.mk.inj (Except.ok.inj h)
    exact rcut_subset hcut
  · obtain ⟨rfl, -⟩ := Prod.mk.inj (Except.ok.inj h)
    exact List.Subset.refl _

variable {ipv4 : List UInt8 → Bool}

/-! ## The parts of a URL -/

def Clean : Prop := isControl b = false ∧ b ≠ byte ' ' ∧ b ≠ byte '#'

theorem stripScheme_eq_some {input text : List UInt8} :
    stripScheme input = some text ↔ input = ascii "https://" ++ text := by
  have hlen : (ascii "https://").length = 8 := rfl
  unfold stripScheme
  constructor
  · intro h
    split_ifs at h with hstart
    obtain ⟨rest, rfl⟩ := isPrefixOf_iff_prefix.mp hstart
    rw [← Option.some.inj h, drop_left' hlen]
  · rintro rfl
    rw [if_pos (List.isPrefixOf_iff_prefix.mpr (prefix_append _ _)), drop_left' hlen]

theorem splitAt_authority {authority rest : List UInt8} (hfront : ∀ b ∈ authority, endsAuthority b = false)
    (hrest : ∀ b ∈ rest.head?, endsAuthority b = true) : (authority ++ rest).takeWhile (!endsAuthority ·) = authority ∧
      (authority ++ rest).dropWhile (!endsAuthority ·) = rest := by
  have hall : ∀ b ∈ authority, (!endsAuthority b) = true := fun b hb => by rw [hfront b hb]; rfl
  rw [takeWhile_append_of_pos hall, dropWhile_append_of_pos hall]
  cases rest with
  | nil => simp
  | cons b rest => simp [hrest b rfl]

variable {url : HttpsUrl}

theorem HttpsUrl.parse_eq_ok {input : List UInt8} :
    HttpsUrl.parse ipv4 input = .ok url ↔ input.length ≤ maxUrlLen ∧ (∀ b ∈ input, Clean b) ∧ ∃ authority rest,
      input = ascii "https://" ++ (authority ++ rest) ∧ (∀ b ∈ authority, endsAuthority b = false) ∧
      (∀ b ∈ rest.head?, endsAuthority b = true) ∧ byte '@' ∉ authority ∧
      parseAuthority ipv4 authority = .ok (url.hostname, url.port) ∧ (pathOf rest).length ≤ maxPathLen ∧
      (pathOf rest).head? = some (byte '/') ∧ url.path = pathOf rest ∧ url.original = input := by
  constructor
  · intro h
    simp only [HttpsUrl.parse, bind_eq_ok] at h
    obtain ⟨_, hlen, _, hclean, _, hhash, text, hscheme, _, hat, ⟨hostname, port⟩, hauthority, h⟩ := h
    obtain ⟨_, hpath, h⟩ := bind_eq_ok.mp h
    obtain rfl := Except.ok.inj h
    rw [reject_eq_ok] at hlen hclean hhash hat hpath
    rw [not_or, not_lt, not_not] at hpath
    refine ⟨not_lt.mp hlen, fun b hb => ?_, text.takeWhile (!endsAuthority ·), text.dropWhile (!endsAuthority ·), ?_, ?_, ?_,
      hat, hauthority, hpath.1, hpath.2, rfl, rfl⟩
    · have hbyte : ¬ (isControl b || b == byte ' ') = true := fun hdirty => hclean (any_eq_true.mpr ⟨b, hb, hdirty⟩)
      rw [Bool.or_eq_true, not_or, Bool.not_eq_true, beq_iff_eq] at hbyte
      exact ⟨hbyte.1, hbyte.2, fun heq => hhash (heq ▸ hb)⟩
    · rw [takeWhile_append_dropWhile]
      exact stripScheme_eq_some.mp (okOr_eq_ok.mp hscheme)
    · intro b hb
      simpa using mem_takeWhile_imp hb
    · intro b hb
      have hstop := head?_dropWhile_not (!endsAuthority ·) text
      rw [Option.mem_def.mp hb] at hstop
      simpa using hstop
  · rintro ⟨hlen, hclean, authority, rest, rfl, hfront, hrest, hat, hauthority, hpath, hslash, hurl, horiginal⟩
    have hany : ¬ (ascii "https://" ++ (authority ++ rest)).any (fun b => isControl b || b == byte ' ') = true := by
      rw [any_eq_true]
      rintro ⟨b, hb, hdirty⟩
      simp [(hclean b hb).1, (hclean b hb).2.1] at hdirty
    unfold HttpsUrl.parse build
    refine reject_bind (not_lt.mpr hlen) (reject_bind hany (reject_bind (fun hb => (hclean _ hb).2.2 rfl) (bind_eq_ok.mpr
        ⟨_, okOr_eq_ok.mpr (stripScheme_eq_some.mpr rfl), ?_⟩)))
    dsimp only
    rw [(splitAt_authority hfront hrest).1, (splitAt_authority hfront hrest).2]
    refine reject_bind hat (bind_ok hauthority (bind_eq_ok.mpr
      ⟨(), reject_eq_ok.mpr (by rw [not_or, not_lt, not_not]; exact ⟨hpath, hslash⟩), ?_⟩))
    rw [← horiginal, ← hurl]
    rfl

theorem parseAuthority_eq_ok {authority hostname : List UInt8} {port : ℕ} :
    parseAuthority ipv4 authority = .ok (hostname, port) ↔
      (authority ≠ [] ∧ authority.head? ≠ some (byte '[') ∧ authority.getLast? ≠ some (byte '.')) ∧ ∃ host,
        splitAuthority authority = .ok (host, port) ∧ validateHostname ipv4 host = .ok () ∧ hostname = lowercase host := by
  unfold parseAuthority
  constructor
  · intro h
    simp only [bind_eq_ok] at h
    obtain ⟨_, hends, ⟨host, _⟩, hsplit, _, hvalid, h⟩ := h
    obtain ⟨rfl, rfl⟩ := Prod.mk.inj (Except.ok.inj h)
    rw [reject_eq_ok, not_or, not_or, List.isEmpty_iff] at hends
    exact ⟨hends, host, hsplit, hvalid, rfl⟩
  · rintro ⟨hends, host, hsplit, hvalid, rfl⟩
    refine reject_bind ?_ (bind_ok hsplit (bind_ok hvalid rfl))
    rw [not_or, not_or, List.isEmpty_iff]
    exact hends

theorem HttpsUrl.parse_printable {input : List UInt8} (h : HttpsUrl.parse ipv4 input = .ok url) :
    Printable url.hostname ∧ Printable url.path := by
  obtain ⟨-, hclean, authority, rest, rfl, -, -, -, hauthority, -, -, hpath, -⟩ := HttpsUrl.parse_eq_ok.mp h
  obtain ⟨-, host, hsplit, -, hhost⟩ := parseAuthority_eq_ok.mp hauthority
  have hinput : Printable (ascii "https://" ++ (authority ++ rest)) := fun b hb => (hclean b hb).1
  have htail := hinput.subset (subset_append_right _ _)
  rw [hhost, hpath]
  constructor
  · exact ((htail.subset (subset_append_left _ _)).subset (splitAuthority_subset hsplit)).lowercase
  · have hrest := htail.subset (subset_append_right authority rest)
    unfold pathOf
    split_ifs
    · exact fun b hb => by
        rw [mem_singleton.mp hb]
        decide
    · exact forall_mem_cons.mpr ⟨by decide, hrest⟩
    · exact hrest

theorem HttpsUrl.hostHeader_printable (h : Printable url.hostname) : Printable url.hostHeader := by
  unfold HttpsUrl.hostHeader
  split
  · exact h
  · exact h.append (forall_mem_cons.mpr ⟨by decide, printable_decimal _⟩)

end MochiSyscalls.HttpClient
