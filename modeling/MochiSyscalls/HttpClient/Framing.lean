import MochiSyscalls.HttpClient.ChunkedFraming

/-! # Framing

How a response is framed, compared with RFC 9112. A text has at most one parse as a chunked message, so the
decoder agrees with the RFC on a payload exactly when the parse it has, if any, is without a sign where it is
within the decoder's own limits. A content length is `1*DIGIT`, or a plus sign in front of that. -/

namespace MochiSyscalls.HttpClient
open Foundations Checked Delimiters Loops Numerals Utf8 List
open Words
set_option autoImplicit false

/-! ## One text, one message -/

theorem SizeLine.Formed.split_eq {l l' : SizeLine} {after after' : List UInt8} (h : l.Formed) (h' : l'.Formed)
    (heq : l.text ++ (crlf ++ after) = l'.text ++ (crlf ++ after')) : l = l' ∧ after = after' := by
  have hfind : find crlf (l.text ++ (crlf ++ after)) = some l.text.length := find_crlf_append h.one_line
  rw [heq, find_crlf_append h'.one_line] at hfind
  obtain ⟨htext, hrest⟩ := append_inj heq (Option.some.inj hfind).symm
  exact ⟨h.ext_of_text h' htext, append_cancel_left hrest⟩

theorem Message.Formed.ext_of_text {m m' : Message} (hm : m.Formed) (hm' : m'.Formed) (h : m.text = m'.text) : m = m' := by
  obtain ⟨chunks, last, lines⟩ := m
  obtain ⟨chunks', last', lines'⟩ := m'
  induction chunks generalizing chunks' with
  | nil =>
    cases chunks' with
    | nil =>
      obtain ⟨hlast, htrailers⟩ := hm.last.split_eq hm'.last h
      have hsplit := congrArg (splitPair 13 10) htrailers
      rw [splitPair_lineBlock fun line hline => (hm.trailers line hline).plain,
        splitPair_lineBlock fun line hline => (hm'.trailers line hline).plain] at hsplit
      exact congrArg₂ (Message.mk []) hlast (append_cancel_right hsplit)
    | cons c' chunks' =>
      -- a line of value zero is not the line of a chunk
      have hc' := hm'.chunks c' mem_cons_self
      simp only [Message.text, flatMap_cons, flatMap_nil, nil_append, Chunk.text, append_assoc] at h
      obtain ⟨hline, -⟩ := hm.last.split_eq hc'.line h
      exact absurd (hline ▸ hm.last_zero) hc'.positive
  | cons c chunks ih =>
    have hc := hm.chunks c mem_cons_self
    cases chunks' with
    | nil =>
      simp only [Message.text, flatMap_cons, flatMap_nil, nil_append, Chunk.text, append_assoc] at h
      obtain ⟨hline, -⟩ := hc.line.split_eq hm'.last h
      exact absurd (hline ▸ hm'.last_zero) hc.positive
    | cons c' chunks' =>
      have hc' := hm'.chunks c' mem_cons_self
      simp only [Message.text, flatMap_cons, Chunk.text, append_assoc] at h
      obtain ⟨hline, h⟩ := hc.line.split_eq hc'.line h
      have hlen : c.data.length = c'.data.length := by rw [hc.length, hc'.length, hline]
      obtain ⟨hdata, h⟩ := append_inj h hlen
      obtain ⟨-, hchunks⟩ := forall_mem_cons.mp hm.chunks
      obtain ⟨-, hchunks'⟩ := forall_mem_cons.mp hm'.chunks
      have hrest := ih ⟨hchunks, hm.last, hm.last_zero, hm.trailers⟩ chunks'
        ⟨hchunks', hm'.last, hm'.last_zero, hm'.trailers⟩ (append_cancel_left h)
      obtain ⟨rfl, rfl, rfl⟩ := Message.mk.inj hrest
      cases c
      cases c'
      simp only at hline hdata
      rw [hline, hdata]

/-! ## Content lengths -/

/-- `1*DIGIT`. -/
def IsDecimal (value : List UInt8) : Prop := value ≠ [] ∧ ∀ b ∈ value, within '0' '9' b = true

theorem within_digit_iff : ∀ b : UInt8, within '0' '9' b = (toDigit 10 b).isSome := forall_byte (by decide +kernel)

theorem isDecimal_iff {value : List UInt8} {max n : ℕ} (h : fromStrRadix 10 max value = some n) :
    IsDecimal value ↔ value.head? ≠ some (byte '+') := by
  obtain ⟨digits, hvalue, hne, hnum, -⟩ := (fromStrRadix_eq_some (by decide) (by decide) (by decide)).mp h
  constructor
  · rintro ⟨-, hdigits⟩ hhead
    exact absurd (hdigits _ (mem_of_head? hhead)) (by decide)
  · intro hhead
    rcases hvalue with rfl | rfl
    · refine ⟨hne, fun b hb => ?_⟩
      rw [within_digit_iff]
      exact isSome_of_numeralFrom hnum b hb
    · exact absurd rfl hhead

def LengthsRead (headers : List (List UInt8 × List UInt8)) : Prop :=
  ∀ value, (ascii "content-length", value) ∈ headers → ∃ max n, fromStrRadix 10 max value = some n

theorem LengthsRead.push {headers : List (List UInt8 × List UInt8)} {name value : List UInt8} (h : LengthsRead headers)
    (hvalue : sameText name (ascii "content-length") = true → ∃ max n, fromStrRadix 10 max value = some n) :
    LengthsRead (headers ++ [(lowercase name, value)]) := by
  intro v hv
  rw [mem_append, mem_singleton, Prod.mk.injEq] at hv
  rcases hv with hv | ⟨hname, rfl⟩
  · exact h v hv
  · refine hvalue ?_
    rw [sameText, ← hname]
    decide

theorem Head.addLine_lengthsRead {s s' : Head} {line : List UInt8} (hs : LengthsRead s.headers)
    (h : s.addLine line = .ok s') : LengthsRead s'.headers := by
  simp only [Head.addLine, bind_eq_ok] at h
  obtain ⟨_, _, _, _, ⟨name, value⟩, _, length, hlength, chunked, _, h⟩ := h
  obtain rfl := Except.ok.inj h
  refine hs.push fun hname => ?_
  rw [Head.nextContentLength, if_pos hname] at hlength
  obtain ⟨n, hn, -⟩ := bind_eq_ok.mp hlength
  exact ⟨_, n, okOr_eq_ok.mp hn⟩

theorem StreamLines.addLine_lengthsRead {s s' : StreamLines} {line : List UInt8} (hs : LengthsRead s.headers)
    (h : s.addLine line = .ok s') : LengthsRead s'.headers := by
  simp only [StreamLines.addLine, bind_eq_ok] at h
  obtain ⟨_, _, _, _, ⟨name, value⟩, _, _, _, _, _, length, hlength, h⟩ := h
  obtain rfl := Except.ok.inj h
  refine hs.push fun hname => ?_
  rw [StreamLines.nextContentLength, if_pos hname] at hlength
  obtain ⟨n, hn, -⟩ := bind_eq_ok.mp hlength
  exact ⟨_, n, okOr_eq_ok.mp hn⟩

theorem lengthsRead_nil : LengthsRead [] := nofun

theorem decodeResponse_lengthsRead {bytes : List UInt8} {endOfStream : Bool} {response : HttpResponse}
    (h : decodeResponse bytes endOfStream = .ok response) : LengthsRead response.headers := by
  simp only [decodeResponse, bind_eq_ok] at h
  obtain ⟨headerEnd, _, _, _, ⟨status, reason, s⟩, hhead, body, _, h⟩ := h
  obtain rfl := Except.ok.inj h
  simp only [decodeHead, bind_eq_ok] at hhead
  obtain ⟨_, _, statusLine, _, ⟨_, _⟩, _, t, hfold, _, _, hhead⟩ := hhead
  obtain ⟨-, -, rfl⟩ := Prod.mk.inj (Except.ok.inj hhead) |>.imp_right Prod.mk.inj
  exact foldlM_invariant (P := fun s : Head => LengthsRead s.headers) (fun _ _ _ => Head.addLine_lengthsRead)
    lengthsRead_nil hfold

theorem parseStreamHead_lengthsRead {bytes : List UInt8} {head : StreamHead} (h : parseStreamHead bytes = .ok head) :
    LengthsRead head.headers := by
  simp only [parseStreamHead, bind_eq_ok] at h
  obtain ⟨_, _, _, _, statusLine, _, ⟨status, _⟩, _, _, _, _, _, s, hfold, length, _, h⟩ := h
  obtain rfl := Except.ok.inj h
  exact foldlM_invariant (P := fun s : StreamLines => LengthsRead s.headers)
    (fun _ _ _ => StreamLines.addLine_lengthsRead) lengthsRead_nil hfold

/-! ## Against the RFC -/

theorem decodeChunked_text {m : Message} (hm : m.Formed) (hw : m.Within) {body : List UInt8} :
    decodeChunked m.text true = .ok body ↔ m.Small ∧ body = m.data := by
  rw [decodeChunked_eq_ok]
  constructor
  · rintro ⟨m', hm', -, hs, htext, hbody⟩
    rw [hm.ext_of_text hm' htext]
    exact ⟨hs, hbody⟩
  · rintro ⟨hs, hbody⟩
    exact ⟨m, hm, hw, hs, rfl, hbody⟩

theorem rfc9112_text {m : Message} (hm : m.Formed) {body : List UInt8} :
    Rfc9112 m.text body ↔ m.Unsigned ∧ body = m.data := by
  constructor
  · rintro ⟨m', hm', hu, htext, hbody⟩
    rw [hm.ext_of_text hm' htext]
    exact ⟨hu, hbody⟩
  · rintro ⟨hu, hbody⟩
    exact ⟨m, hm, hu, rfl, hbody⟩

/-- **Chunked payloads are framed as the RFC says, and content lengths are `1*DIGIT`, but for signs and for
the limits the decoder has beyond the documented ones.** -/
theorem framing_exact (payload : List UInt8) (hwithin : ∀ m : Message, m.Formed → payload = m.text → m.Within) :
    ((∀ body, decodeChunked payload true = .ok body ↔ Rfc9112 payload body) ↔
      ∀ m : Message, m.Formed → payload = m.text → (m.Small ↔ m.Unsigned)) ∧
    (∀ bytes endOfStream response, decodeResponse bytes endOfStream = .ok response →
      ∀ value, (ascii "content-length", value) ∈ response.headers → (IsDecimal value ↔ value.head? ≠ some (byte '+'))) ∧
    ∀ bytes head, parseStreamHead bytes = .ok head → ∀ value, (ascii "content-length", value) ∈ head.headers →
        (IsDecimal value ↔ value.head? ≠ some (byte '+')) := by
  refine ⟨⟨?_, ?_⟩, ?_, ?_⟩
  · rintro h m hm rfl
    have hdata := h m.data
    rw [decodeChunked_text hm (hwithin m hm rfl), rfc9112_text hm, and_iff_left rfl, and_iff_left rfl] at hdata
    exact hdata
  · intro h body
    by_cases hparse : ∃ m : Message, m.Formed ∧ payload = m.text
    · obtain ⟨m, hm, rfl⟩ := hparse
      rw [decodeChunked_text hm (hwithin m hm rfl), rfc9112_text hm, h m hm rfl]
    · -- without a parse, both refuse
      refine iff_of_false (fun hok => hparse ?_) fun hrfc => hparse ?_
      · obtain ⟨m, hm, -, -, htext, -⟩ := decodeChunked_eq_ok.mp hok
        exact ⟨m, hm, htext⟩
      · obtain ⟨m, hm, -, htext, -⟩ := hrfc
        exact ⟨m, hm, htext⟩
  · intro bytes endOfStream response h value hvalue
    obtain ⟨max, n, hread⟩ := decodeResponse_lengthsRead h value hvalue
    exact isDecimal_iff hread
  · intro bytes head h value hvalue
    obtain ⟨max, n, hread⟩ := parseStreamHead_lengthsRead h value hvalue
    exact isDecimal_iff hread

namespace Fixture

variable (signed : Bool)

def hello : Message :=
  { chunks := [{ line := { signed, digits := ascii "5", ext := some (ascii "x") }, data := ascii "hello" }]
    last := { signed := false, digits := ascii "0", ext := none }
    trailers := [ascii "A: b"] }

theorem hello_formed : (hello signed).Formed := by
  have hchunk : ∀ c ∈ (hello signed).chunks, c.Formed := by
    intro c hc
    rw [mem_singleton.mp hc]
    cases signed
    · exact ⟨⟨by decide, by decide +kernel, by decide +kernel⟩, by decide +kernel, by decide +kernel⟩
    · exact ⟨⟨by decide, by decide +kernel, by decide +kernel⟩, by decide +kernel, by decide +kernel⟩
  have hlast : (SizeLine.mk false (ascii "0") none).Formed := ⟨by decide, by decide +kernel, by decide +kernel⟩
  have hzero : (SizeLine.mk false (ascii "0") none).value = 0 := by decide
  refine ⟨hchunk, hlast, hzero, fun line hline => ?_⟩
  rw [mem_singleton.mp hline]
  exact ⟨ascii "A", ascii " b", by decide +kernel, by decide, by decide +kernel, by decide +kernel⟩

theorem hello_within : (hello signed).Within := by
  cases signed
  · exact ⟨by decide, by decide, by decide, by decide, by decide⟩
  · exact ⟨by decide, by decide, by decide, by decide, by decide⟩

theorem framing_exact_hello :
    ((∀ body, decodeChunked (hello false).text true = .ok body ↔ Rfc9112 (hello false).text body) ↔
      ∀ m : Message, m.Formed → (hello false).text = m.text → (m.Small ↔ m.Unsigned)) ∧
    decodeChunked (hello false).text true = .ok (ascii "hello") := by
  refine ⟨(framing_exact (hello false).text fun m hm htext => ?_).1, by decide +kernel⟩
  rw [← (hello_formed false).ext_of_text hm htext]
  exact hello_within false

def signedResponse : List UInt8 := ascii "HTTP/1.1 200 OK\r\nContent-Length: +5\r\n\r\nhello"

/-- A sign is accepted in front of a chunk size and of a content length. -/
theorem sign_accepted : (∀ m : Message, m.Formed → (hello true).text = m.text → m.Within) ∧
    decodeChunked (hello true).text true = .ok (ascii "hello") ∧ ¬ Rfc9112 (hello true).text (ascii "hello") ∧
    decodeResponse signedResponse false =
      .ok { statusCode := 200, reason := ascii "OK", headers := [(ascii "content-length", ascii "+5")],
            body := ascii "hello" } ∧
    parseStreamHead (signedResponse.take 39) =
      .ok { statusCode := 200, headers := [(ascii "content-length", ascii "+5")], contentLength := 5 } ∧
    ¬ IsDecimal (ascii "+5") := by
  refine ⟨fun m hm htext => ?_, by decide +kernel, fun hrfc => ?_, by decide +kernel, by decide +kernel, ?_⟩
  · rw [← (hello_formed true).ext_of_text hm htext]
    exact hello_within true
  · have hunsigned := ((rfc9112_text (hello_formed true)).mp hrfc).1
    exact absurd (hunsigned _ mem_cons_self) (by decide)
  · exact fun h => absurd (h.2 (byte '+') (by decide)) (by decide)

end Fixture

end MochiSyscalls.HttpClient
