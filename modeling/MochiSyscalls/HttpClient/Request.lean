import MochiSyscalls.HttpClient.Url

/-! # Requests

`encode_request` (`crates/http-client/src/request.rs`). A request that is encoded is a request line and field
lines, a blank line, and the body; the lines are the ones listed by `fieldLines`, and no byte of a URL or of
a header ends a line early. The header `Transfer-Encoding` is neither refused nor managed. -/

namespace MochiSyscalls.HttpClient
open Foundations Checked Delimiters Loops Numerals Utf8 List
open Words
set_option autoImplicit false

inductive Method where
  | get
  | post
  deriving DecidableEq

def Method.wire : Method → List UInt8
  | .get => ascii "GET"
  | .post => ascii "POST"

structure Header where
  name : List UInt8
  value : List UInt8
  deriving DecidableEq

def pushLine (destination line : List UInt8) : Except HttpError (List UInt8) :=
  let destination := destination ++ line ++ crlf
  if maxHeaderBytes < destination.length then .error .headersTooLarge else .ok destination

def validateHeader (header : Header) : Except HttpError Unit := do
  reject (header.name.isEmpty ∨ ¬ header.name.all isTokenByte) .invalidHeaderName
  reject (header.value.any fun b =>
    b == byte '\r' || b == byte '\n' || (b < 0x20 && b != byte '\t') || b == 0x7f) .invalidHeaderValue

def isManaged (name : List UInt8) : Bool :=
  sameText name (ascii "host") || sameText name (ascii "content-length") || sameText name (ascii "connection") ||
    sameText name (ascii "user-agent") || sameText name (ascii "accept")

/-- The checks on a header that is not refused by itself, and the content type after it. -/
def nextContentType (url : HttpsUrl) (body : List UInt8) (contentType : Option (List UInt8)) (header : Header) :
    Except HttpError (Option (List UInt8)) :=
  if sameText header.name (ascii "host") then do
    reject (¬ sameText header.value url.hostHeader) .hostnameMismatch
    return contentType
  else if sameText header.name (ascii "content-length") then do
    let declared ← okOr (fromStrRadix 10 usizeMax header.value) .contentLengthMismatch
    reject (declared ≠ body.length) .contentLengthMismatch
    return contentType
  else if sameText header.name (ascii "connection") then do
    reject (¬ sameText header.value (ascii "close")) .invalidHeaderValue
    return contentType
  else if sameText header.name (ascii "content-type") then .ok (some header.value)
  else .ok contentType

def checkHeader (url : HttpsUrl) (body : List UInt8) (contentType : Option (List UInt8)) (header : Header) :
    Except HttpError (Option (List UInt8)) := do
  validateHeader header
  nextContentType url body contentType header

/-- `format!("{}: {}", header.name, header.value)`. -/
def Header.line (header : Header) : List UInt8 := header.name ++ (ascii ": " ++ header.value)

def pushHeader (request : List UInt8) (header : Header) : Except HttpError (List UInt8) :=
  if isManaged header.name then .ok request else pushLine request header.line

def pushContentType (contentType : Option (List UInt8)) (request : List UInt8) : Except HttpError (List UInt8) :=
  if contentType.isNone then pushLine request (ascii "Content-Type: application/octet-stream") else .ok request

def pushFraming (method : Method) (contentType : Option (List UInt8)) (body request : List UInt8) :
    Except HttpError (List UInt8) :=
  if method = .post then do
    let request ← pushContentType contentType request
    pushLine request (ascii "Content-Length: " ++ decimal body.length)
  else .ok request

def requestLine (method : Method) (url : HttpsUrl) : List UInt8 :=
  method.wire ++ (ascii " " ++ (url.path ++ ascii " HTTP/1.1"))

def encodeRequest (method : Method) (url : HttpsUrl) (headers : List Header) (body : List UInt8) :
    Except HttpError (List UInt8) := do
  reject (maxBodyBytes < body.length ∨ (method = .get ∧ body ≠ [])) .bodyTooLarge
  reject (maxHeaderCount < headers.length) .tooManyHeaders
  let contentType ← headers.foldlM (checkHeader url body) none
  let request ← pushLine [] (requestLine method url)
  let request ← pushLine request (ascii "Host: " ++ url.hostHeader)
  let request ← pushLine request (ascii "User-Agent: mochiOS/0.1")
  let request ← pushLine request (ascii "Accept: */*")
  let request ← pushLine request (ascii "Connection: close")
  let request ← headers.foldlM pushHeader request
  let request ← pushFraming method contentType body request
  let request := request ++ crlf
  reject (maxHeaderBytes < request.length) .headersTooLarge
  return request ++ body

/-! ## The lines of a request -/

def fixedFields (url : HttpsUrl) : List Header :=
  [⟨ascii "Host", url.hostHeader⟩, ⟨ascii "User-Agent", ascii "mochiOS/0.1"⟩, ⟨ascii "Accept", ascii "*/*"⟩,
    ⟨ascii "Connection", ascii "close"⟩]

def framingFields (method : Method) (contentType : Option (List UInt8)) (body : List UInt8) : List Header :=
  if method = .post then
    (if contentType.isNone then [⟨ascii "Content-Type", ascii "application/octet-stream"⟩] else []) ++
      [⟨ascii "Content-Length", decimal body.length⟩]
  else []

def fields (method : Method) (url : HttpsUrl) (headers : List Header) (contentType : Option (List UInt8))
    (body : List UInt8) : List Header :=
  fixedFields url ++ (headers.filter (!isManaged ·.name) ++ framingFields method contentType body)

theorem pushLine_eq_ok {destination line result : List UInt8} (h : pushLine destination line = .ok result) :
    result = destination ++ (line ++ crlf) := by
  unfold pushLine at h
  dsimp only at h
  split at h
  · cases h
  · rw [← Except.ok.inj h, append_assoc]

variable {headers : List Header}

theorem pushHeader_foldlM {request result : List UInt8} (h : headers.foldlM pushHeader request = .ok result) :
    result = request ++ ((headers.filter (!isManaged ·.name)).map Header.line).flatMap (· ++ crlf) := by
  induction headers generalizing request with
  | nil =>
    obtain rfl := Except.ok.inj h
    exact (append_nil _).symm
  | cons header headers ih =>
    rw [foldlM_cons] at h
    obtain ⟨next, hnext, h⟩ := bind_eq_ok.mp h
    have hrest := ih h
    unfold pushHeader at hnext
    split at hnext
    next hmanaged => rw [filter_cons_of_neg (by rw [hmanaged]; decide), hrest, ← Except.ok.inj hnext]
    next hmanaged =>
      rw [Bool.not_eq_true] at hmanaged
      rw [filter_cons_of_pos (by rw [hmanaged]; rfl), hrest, pushLine_eq_ok hnext, map_cons, flatMap_cons,
        append_assoc]

variable {contentType : Option (List UInt8)} {method : Method} {body : List UInt8}

theorem pushFraming_eq_ok {request result : List UInt8} (h : pushFraming method contentType body request = .ok result) :
    result = request ++ ((framingFields method contentType body).map Header.line).flatMap (· ++ crlf) := by
  unfold pushFraming at h
  unfold framingFields
  split at h
  next hpost =>
    obtain ⟨next, hnext, h⟩ := bind_eq_ok.mp h
    rw [if_pos hpost, map_append, flatMap_append, ← append_assoc]
    unfold pushContentType at hnext
    split at hnext
    next hnone =>
      rw [if_pos hnone, pushLine_eq_ok h, pushLine_eq_ok hnext]
      simp only [map_cons, map_nil, flatMap_cons, flatMap_nil, append_nil]
      rfl
    next hsome =>
      rw [if_neg hsome, pushLine_eq_ok h, ← Except.ok.inj hnext]
      simp only [map_cons, map_nil, flatMap_cons, flatMap_nil, append_nil]
      rfl
  next hget => rw [if_neg hget, ← Except.ok.inj h, map_nil, flatMap_nil, append_nil]

variable {url : HttpsUrl}

theorem encodeRequest_eq_ok {output : List UInt8} (h : encodeRequest method url headers body = .ok output) :
    (method = .get → body = []) ∧ body.length ≤ maxBodyBytes ∧
      ∃ contentType, headers.foldlM (checkHeader url body) none = .ok contentType ∧
        output = lineBlock (requestLine method url :: (fields method url headers contentType body).map Header.line) ++
          body := by
  simp only [encodeRequest, bind_eq_ok] at h
  obtain ⟨_, hbody, _, _, contentType, hcheck, r₁, h₁, r₂, h₂, r₃, h₃, r₄, h₄, r₅, h₅, r₆, h₆, r₇, h₇, _, _,
    h⟩ := h
  rw [reject_eq_ok, not_or, not_and, not_not, Nat.not_lt] at hbody
  refine ⟨hbody.2, hbody.1, contentType, hcheck, ?_⟩
  rw [← Except.ok.inj h, pushFraming_eq_ok h₇, pushHeader_foldlM h₆, pushLine_eq_ok h₅, pushLine_eq_ok h₄,
    pushLine_eq_ok h₃, pushLine_eq_ok h₂, pushLine_eq_ok h₁, lineBlock, fields, fixedFields]
  simp only [map_append, map_cons, flatMap_cons, flatMap_append, append_assoc, nil_append,
    cons_append]
  rfl

/-! ## Checked headers -/

/-- A field that stays on its line: a token, and a value without line ends. -/
structure Header.Safe (header : Header) : Prop where
  name_token : ∀ b ∈ header.name, isTokenByte b = true
  value_line : (13 : UInt8) ∉ header.value ∧ (10 : UInt8) ∉ header.value

variable {header : Header}

theorem validateHeader_safe {u : Unit} (h : validateHeader header = .ok u) : header.Safe := by
  obtain ⟨_, hname, h⟩ := bind_eq_ok.mp h
  rw [reject_eq_ok, not_or, not_not, all_eq_true] at hname
  rw [reject_eq_ok, any_eq_true, not_exists] at h
  refine ⟨hname.2, fun hmem => ?_, fun hmem => ?_⟩
  · exact h 13 ⟨hmem, by decide⟩
  · exact h 10 ⟨hmem, by decide⟩

theorem checkHeader_foldlM_safe
    {result : Option (List UInt8)} (h : headers.foldlM (checkHeader url body) contentType = .ok result) :
    ∀ header ∈ headers, header.Safe := by
  induction headers generalizing contentType with
  | nil => exact nofun
  | cons header headers ih =>
    rw [foldlM_cons] at h
    obtain ⟨next, hnext, h⟩ := bind_eq_ok.mp h
    obtain ⟨u, hvalid, -⟩ := bind_eq_ok.mp hnext
    exact forall_mem_cons.mpr ⟨validateHeader_safe hvalid, ih h⟩

theorem Printable.no_line_end {text : List UInt8} (h : Printable text) : (13 : UInt8) ∉ text ∧ (10 : UInt8) ∉ text :=
  ⟨fun hmem => absurd (h _ hmem) (by decide), fun hmem => absurd (h _ hmem) (by decide)⟩

theorem fields_safe (hhost : Printable url.hostHeader) (hsafe : ∀ header ∈ headers, header.Safe) :
    ∀ field ∈ fields method url headers contentType body, field.Safe := by
  have hhostName : ∀ b ∈ ascii "Host", isTokenByte b = true := by decide +kernel
  have hlengthName : ∀ b ∈ ascii "Content-Length", isTokenByte b = true := by decide +kernel
  unfold fields fixedFields framingFields
  rw [forall_mem_append, forall_mem_append]
  refine ⟨?_, fun field hfield => hsafe field (mem_filter.mp hfield).1, ?_⟩
  · simp only [forall_mem_cons]
    exact ⟨⟨hhostName, hhost.no_line_end⟩, ⟨by decide +kernel, by decide +kernel⟩,
      ⟨by decide +kernel, by decide +kernel⟩, ⟨by decide +kernel, by decide +kernel⟩, nofun⟩
  · split
    · rw [forall_mem_append]
      refine ⟨?_, ?_⟩
      · split
        · rw [forall_mem_singleton]
          exact ⟨by decide +kernel, by decide +kernel⟩
        · exact nofun
      · rw [forall_mem_singleton]
        exact ⟨hlengthName, (printable_decimal _).no_line_end⟩
    · exact nofun

theorem Header.Safe.line_safe (h : header.Safe) :
    header.line ≠ [] ∧ (13 : UInt8) ∉ header.line ∧ (10 : UInt8) ∉ header.line := by
  unfold Header.line
  simp only [mem_append, not_or]
  refine ⟨append_ne_nil_of_right_ne_nil _ (cons_ne_nil _ _), ?_, ?_⟩
  · exact ⟨fun hmem => absurd (h.name_token _ hmem) (by decide), by decide, h.value_line.1⟩
  · exact ⟨fun hmem => absurd (h.name_token _ hmem) (by decide), by decide, h.value_line.2⟩

theorem requestLine_safe (h : Printable url.path) :
    requestLine method url ≠ [] ∧ (13 : UInt8) ∉ requestLine method url ∧ (10 : UInt8) ∉ requestLine method url := by
  have hpath := h.no_line_end
  unfold requestLine
  cases method with
  | get | post =>
    refine ⟨append_ne_nil_of_left_ne_nil (cons_ne_nil _ _) _, ?_, ?_⟩
    · simp only [mem_append, not_or]
      exact ⟨by decide, by decide, hpath.1, by decide⟩
    · simp only [mem_append, not_or]
      exact ⟨by decide, by decide, hpath.2, by decide⟩

/-! ## Fields by name -/

def isField (name line : List UInt8) : Bool := sameText (cut (byte ':') line).1 name

variable {name : List UInt8}

theorem isField_line (h : header.Safe) : isField name header.line = sameText header.name name := by
  have hcolon : byte ':' ∉ header.name := fun hmem => absurd (h.name_token _ hmem) (by decide)
  rw [isField, Header.line, show ascii ": " ++ header.value = byte ':' :: (byte ' ' :: header.value) from rfl,
    cut_append hcolon]

theorem filter_isField (h : ∀ header ∈ headers, header.Safe) :
    (headers.map Header.line).filter (isField name) = (headers.filter (sameText ·.name name)).map Header.line := by
  rw [filter_map]
  congr 1
  exact filter_congr fun header hheader => isField_line (h header hheader)

theorem filter_managed (hname : ∀ text, sameText text name = true → isManaged text = true) :
    (headers.filter (!isManaged ·.name)).filter (sameText ·.name name) = [] := by
  rw [filter_filter, filter_eq_nil_iff]
  intro header _ h
  rw [Bool.and_eq_true, Bool.not_eq_true'] at h
  rw [hname _ h.1] at h
  exact absurd h.2 Bool.noConfusion

theorem lines_managed (hsafe : ∀ field ∈ fields method url headers contentType body, field.Safe)
    (hname : ∀ text, sameText text name = true → isManaged text = true) :
    ((fields method url headers contentType body).map Header.line).filter (isField name) =
      ((fixedFields url).filter (sameText ·.name name) ++
        (framingFields method contentType body).filter (sameText ·.name name)).map Header.line := by
  rw [filter_isField hsafe, fields, filter_append, filter_append, filter_managed hname, nil_append]

theorem framing_fields_other
    (htype : sameText (ascii "Content-Type") name = false) (hlength : sameText (ascii "Content-Length") name = false) :
    (framingFields method contentType body).filter (sameText ·.name name) = [] := by
  rw [filter_eq_nil_iff]
  unfold framingFields
  split
  · rw [forall_mem_append]
    refine ⟨?_, ?_⟩
    · split
      · rw [forall_mem_singleton, htype]
        exact Bool.false_ne_true
      · exact nofun
    · rw [forall_mem_singleton, hlength]
      exact Bool.false_ne_true
  · exact nofun

section

variable (hsafe : ∀ field ∈ fields method url headers contentType body, field.Safe)
include hsafe

theorem lines_fixed (hname : ∀ text, sameText text name = true → isManaged text = true)
    (htype : sameText (ascii "Content-Type") name = false) (hlength : sameText (ascii "Content-Length") name = false)
    (hone : ((fixedFields url).filter (sameText ·.name name)).length = 1) :
    (((fields method url headers contentType body).map Header.line).filter (isField name)).length = 1 := by
  rw [lines_managed hsafe hname, framing_fields_other htype hlength, append_nil, length_map, hone]

theorem lines_contentLength :
    ((fields method url headers contentType body).map Header.line).filter (isField (ascii "content-length")) =
      if method = .post then [ascii "Content-Length: " ++ decimal body.length] else [] := by
  have hname : ∀ text, sameText text (ascii "content-length") = true → isManaged text = true := by
    intro text h
    simp only [isManaged, h, Bool.or_true, Bool.true_or]
  rw [lines_managed hsafe hname]
  unfold framingFields
  split
  · split <;> rfl
  · rfl

theorem lines_transferEncoding :
    ((fields method url headers contentType body).map Header.line).filter (isField (ascii "transfer-encoding")) = [] ↔
      ∀ header ∈ headers, sameText header.name (ascii "transfer-encoding") = false := by
  have hfixed : (fixedFields url).filter (sameText ·.name (ascii "transfer-encoding")) = [] := rfl
  have hframing : (framingFields method contentType body).filter (sameText ·.name (ascii "transfer-encoding")) = [] :=
    framing_fields_other (by decide) (by decide)
  -- no managed name is this one
  have hmanaged : ∀ text, sameText text (ascii "transfer-encoding") = true → isManaged text = false := by
    intro text h
    rw [sameText, beq_iff_eq] at h
    simp only [isManaged, sameText, h]
    decide
  rw [filter_isField hsafe, fields, filter_append, filter_append, hfixed, hframing, nil_append,
    append_nil, map_eq_nil_iff, filter_filter, filter_eq_nil_iff]
  constructor
  · intro h header hheader
    by_contra hname
    rw [Bool.not_eq_false] at hname
    refine h header hheader ?_
    rw [hname, hmanaged _ hname]
    rfl
  · intro h header hheader
    rw [h header hheader]
    exact Bool.false_ne_true

end

/-! ## Framing -/

/-- The body a server reads behind the blank line: up to the end of the transfer coding, or as long as the content
length says. -/
def serverBody (lines : List (List UInt8)) (rest : List UInt8) : Option (List UInt8) :=
  if lines.any (isField (ascii "transfer-encoding")) then none
  else
    match lines.filter (isField (ascii "content-length")) with
    | [] => some []
    | [line] => (numeral 10 (trimBlanks ((cut (byte ':') line).2.getD []))).map rest.take
    | _ => none

theorem trimBlanks_decimal (n : ℕ) : trimBlanks (byte ' ' :: decimal n) = decimal n := by
  have hblank : ∀ b : UInt8, within '0' '9' b = true → isBlank b = false := forall_byte (by decide +kernel)
  have hdrop : ∀ text : List UInt8, (∀ b ∈ text, isBlank b = false) → text.dropWhile isBlank = text := by
    intro text h
    cases text with
    | nil => rfl
    | cons b text =>
      refine dropWhile_cons_of_neg ?_
      rw [h b mem_cons_self]
      exact Bool.false_ne_true
  have hdigits : ∀ b ∈ decimal n, isBlank b = false := fun b hb => hblank b (decimal_digits n b hb)
  rw [trimBlanks, dropWhile_cons_of_pos (by decide), hdrop _ hdigits, rdropWhile,
    hdrop _ (fun b hb => hdigits b (mem_reverse.mp hb)), reverse_reverse]

theorem serverBody_eq (hsafe : ∀ field ∈ fields method url headers contentType body, field.Safe)
    (hget : method = .get → body = []) :
    serverBody ((fields method url headers contentType body).map Header.line) body = some body ↔
      ∀ header ∈ headers, sameText header.name (ascii "transfer-encoding") = false := by
  have hany : ∀ lines : List (List UInt8), lines.any (isField (ascii "transfer-encoding")) = true ↔
      ¬ lines.filter (isField (ascii "transfer-encoding")) = [] := by
    intro lines
    rw [any_eq_true, filter_eq_nil_iff]
    simp only [not_forall, not_not, exists_prop]
  rw [← lines_transferEncoding hsafe]
  unfold serverBody
  by_cases hte : ((fields method url headers contentType body).map Header.line).filter
      (isField (ascii "transfer-encoding")) = []
  · refine iff_of_true ?_ hte
    rw [if_neg (by rw [hany, not_not]; exact hte), lines_contentLength hsafe]
    cases method with
    | get =>
      rw [hget rfl]
      rfl
    | post =>
      have hcut : cut (byte ':') (ascii "Content-Length: " ++ decimal body.length) =
          (ascii "Content-Length", some (byte ' ' :: decimal body.length)) := by
        rw [show ascii "Content-Length: " ++ decimal body.length =
          ascii "Content-Length" ++ byte ':' :: (byte ' ' :: decimal body.length) from rfl, cut_append (by decide)]
      rw [if_pos rfl]
      dsimp only
      rw [hcut, Option.getD_some, trimBlanks_decimal, numeral_decimal, Option.map_some, take_length]
  · refine iff_of_false ?_ hte
    rw [if_pos ((hany _).mpr hte)]
    intro h
    cases h

variable (ipv4 : List UInt8 → Bool)

/-- **An encoded request is framed as it was meant, unless a header names a transfer coding.** -/
theorem request_framing (input : List UInt8) (url : HttpsUrl) (hurl : HttpsUrl.parse ipv4 input = .ok url)
    (method : Method) (headers : List Header) (body output : List UInt8)
    (h : encodeRequest method url headers body = .ok output) :
    ∃ k contentType lines, headers.foldlM (checkHeader url body) none = .ok contentType ∧
      lines = (fields method url headers contentType body).map Header.line ∧
      find blankLine output = some k ∧ splitPair 13 10 (output.take k) = requestLine method url :: lines ∧
      (∀ line ∈ requestLine method url :: lines, (13 : UInt8) ∉ line ∧ (10 : UInt8) ∉ line) ∧
      output.drop (k + 4) = body ∧
      (lines.filter (isField (ascii "host"))).length = 1 ∧
      (lines.filter (isField (ascii "connection"))).length = 1 ∧
      (lines.filter (isField (ascii "user-agent"))).length = 1 ∧
      lines.filter (isField (ascii "content-length")) =
        (if method = .post then [ascii "Content-Length: " ++ decimal body.length] else []) ∧
      (lines.filter (isField (ascii "transfer-encoding")) = [] ↔
        ∀ header ∈ headers, sameText header.name (ascii "transfer-encoding") = false) ∧
      (serverBody lines (output.drop (k + 4)) = some body ↔
        ∀ header ∈ headers, sameText header.name (ascii "transfer-encoding") = false) := by
  obtain ⟨hget, -, contentType, hcheck, houtput⟩ := encodeRequest_eq_ok h
  obtain ⟨hhostname, hpath⟩ := HttpsUrl.parse_printable hurl
  have hsafe : ∀ field ∈ fields method url headers contentType body, field.Safe :=
    fields_safe (HttpsUrl.hostHeader_printable hhostname) (checkHeader_foldlM_safe hcheck)
  obtain ⟨lines, hlines⟩ : ∃ lines, lines = (fields method url headers contentType body).map Header.line := ⟨_, rfl⟩
  have hall : ∀ line ∈ requestLine method url :: lines, line ≠ [] ∧ (13 : UInt8) ∉ line ∧ (10 : UInt8) ∉ line := by
    refine forall_mem_cons.mpr ⟨requestLine_safe hpath, fun line hline => ?_⟩
    rw [hlines] at hline
    obtain ⟨field, hfield, rfl⟩ := mem_map.mp hline
    exact (hsafe field hfield).line_safe
  have hne : requestLine method url :: lines ≠ [] := cons_ne_nil _ _
  have hfind := find_blankLine_lineBlock hne fun line hline => ⟨(hall line hline).1, (hall line hline).2.1⟩
  have hfour := four_le_lineBlock hne
  rw [← hlines] at houtput
  have htake : output.take ((lineBlock (requestLine method url :: lines)).length - 4) =
      crlf.intercalate (requestLine method url :: lines) := by
    rw [houtput, lineBlock_eq hne, append_assoc, length_append, show blankLine.length = 4 from rfl,
      Nat.add_sub_cancel, take_left]
  have hdrop : output.drop ((lineBlock (requestLine method url :: lines)).length - 4 + 4) = body := by
    rw [Nat.sub_add_cancel hfour, houtput, drop_left]
  have hmanaged : ∀ name ∈ [ascii "host", ascii "connection", ascii "user-agent"], ∀ text,
      sameText text name = true → isManaged text = true := by
    intro name hname text htext
    simp only [mem_cons, not_mem_nil, or_false] at hname
    rcases hname with rfl | rfl | rfl <;> simp only [isManaged, htext, Bool.or_true, Bool.true_or]
  refine ⟨_, contentType, lines, hcheck, hlines, ?_, ?_, fun line hline => (hall line hline).2, hdrop, ?_⟩
  · rw [houtput]
    exact find_append blankLine_ne_nil hfind
  · rw [htake]
    exact splitPair_intercalate hne fun line hline => (hall line hline).2.1
  · rw [hdrop, hlines]
    refine ⟨?_, ?_, ?_, lines_contentLength hsafe, lines_transferEncoding hsafe, serverBody_eq hsafe hget⟩
    · exact lines_fixed hsafe (hmanaged _ (by decide)) (by decide) (by decide) rfl
    · exact lines_fixed hsafe (hmanaged _ (by decide)) (by decide) (by decide) rfl
    · exact lines_fixed hsafe (hmanaged _ (by decide)) (by decide) (by decide) rfl

namespace Fixture

def apiUrl : HttpsUrl :=
  { original := ascii "https://Example.com/api", hostname := ascii "example.com", port := 443, path := ascii "/api" }

def apiRequest : List UInt8 :=
  ascii "POST /api HTTP/1.1\r\nHost: example.com\r\nUser-Agent: mochiOS/0.1\r\nAccept: */*\r\nConnection: close\r\n" ++
    ascii "X-Id: 7\r\nContent-Type: application/octet-stream\r\nContent-Length: 2\r\n\r\n\x7b\x7d"

def smuggled : List UInt8 := ascii "0\r\n\r\nGET / HTTP/1.1\r\n\r\n"

theorem request_framing_api : ∃ lines, serverBody lines (ascii "\x7b\x7d") = some (ascii "\x7b\x7d") ∧
    (lines.filter (isField (ascii "host"))).length = 1 ∧
    lines.filter (isField (ascii "content-length")) = [ascii "Content-Length: 2"] := by
  obtain ⟨k, contentType, lines, -, -, -, -, -, hbody, hhost, -, -, hlength, -, hserver⟩ :=
    request_framing (fun _ => false) (ascii "https://Example.com/api") apiUrl (by decide) .post
      [⟨ascii "X-Id", ascii "7"⟩] (ascii "\x7b\x7d") apiRequest (by decide +kernel)
  rw [hbody] at hserver
  exact ⟨lines, hserver.mpr (by decide), hhost, hlength⟩

/-- `Transfer-Encoding: chunked` is emitted next to `Content-Length`; a server that follows the coding takes what
follows the zero chunk for another request. -/
theorem transferEncoding_emitted : HttpsUrl.parse (fun _ => false) (ascii "https://Example.com/api") = .ok apiUrl ∧
    encodeRequest .post apiUrl [⟨ascii "Transfer-Encoding", ascii "chunked"⟩] smuggled = .ok
      (ascii "POST /api HTTP/1.1\r\nHost: example.com\r\nUser-Agent: mochiOS/0.1\r\nAccept: */*\r\nConnection: close\r\n" ++
        ascii "Transfer-Encoding: chunked\r\nContent-Type: application/octet-stream\r\nContent-Length: 23\r\n\r\n" ++
        smuggled) ∧
    isField (ascii "transfer-encoding") (ascii "Transfer-Encoding: chunked") = true := by
  exact ⟨by decide +kernel, by decide +kernel, by decide +kernel⟩

end Fixture

end MochiSyscalls.HttpClient
