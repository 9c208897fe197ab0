import MochiSyscalls.HttpClient.ChunkedFraming

/-! # Incremental decoding

A response that is accepted before the end of the stream is incomplete at every earlier byte: no check for
malformed data fires on a message that is only cut off. -/

namespace MochiSyscalls.HttpClient
open Foundations Checked Delimiters Loops Utf8 List
set_option autoImplicit false

theorem front_cases {q t left right : List UInt8} (h : q ++ t = left ++ right) :
    q.length < left.length ∨ ∃ more, q = left ++ more ∧ right = more ++ t := by
  rcases append_eq_append_iff.mp h with ⟨gap, hleft, ht⟩ | ⟨more, hq, hright⟩
  · cases gap with
    | nil => exact .inr ⟨[], by rw [hleft, append_nil, append_nil], ht.symm⟩
    | cons b gap =>
      left
      rw [hleft, length_append, length_cons]
      omega
  · exact .inr ⟨more, hq, hright⟩

/-! ## Chunked bodies -/

theorem takeChunkLine_front {l : SizeLine} {q t after : List UInt8} (hl : l.Formed) (hacc : l.Accepted)
    (h : q ++ t = l.text ++ (crlf ++ after)) :
    takeChunkLine false q = .error .incomplete ∨
      ∃ more, after = more ++ t ∧ takeChunkLine false q = .ok (l.value, more) := by
  have hfind : find crlf (q ++ t) = some l.text.length := by
    rw [h]
    exact find_crlf_append hl.one_line
  rw [← append_assoc] at h
  rcases front_cases h with hshort | ⟨more, rfl, hafter⟩
  · left
    rw [length_append] at hshort
    rw [takeChunkLine, find_none_of_append crlf_ne_nil hfind hshort]
    rfl
  · right
    rw [append_assoc]
    exact ⟨more, hafter, takeChunkLine_eq_ok.mpr ⟨l, hl, hacc, rfl, rfl⟩⟩

theorem takeChunkData_front {q t data after : List UInt8} {bodyLen : ℕ} (hlimit : bodyLen + data.length ≤ maxBodyBytes)
    (h : q ++ t = data ++ (crlf ++ after)) :
    takeChunkData false q data.length bodyLen = .error .incomplete ∨
      ∃ more, after = more ++ t ∧ takeChunkData false q data.length bodyLen = .ok (data, more) := by
  rw [← append_assoc] at h
  rcases front_cases h with hshort | ⟨more, rfl, hafter⟩
  · left
    rw [length_append, show crlf.length = 2 from rfl] at hshort
    rw [takeChunkData, reject, if_pos hshort]
    rfl
  · right
    rw [append_assoc]
    exact ⟨more, hafter, takeChunkData_eq_ok.mpr ⟨rfl, hlimit, rfl⟩⟩

theorem trailerEnd_front {lines : List (List UInt8)} {q t : List UInt8} (hlines : ∀ line ∈ lines, HeaderLine line)
    (ht : t ≠ []) (h : q ++ t = lineBlock lines) : trailerEnd q = none := by
  have htlen := length_pos_iff.mpr ht
  have hlen := congrArg length h
  rw [length_append] at hlen
  have hfind : find blankLine q = none := by
    by_cases hne : lines = []
    · rw [hne, show (lineBlock []).length = 2 from rfl] at hlen
      rw [find_eq_none blankLine_ne_nil]
      intro j hp
      have hle := hp.length_le
      rw [length_drop, show blankLine.length = 4 from rfl] at hle
      omega
    · have hfour := four_le_lineBlock hne
      have hlong : find blankLine (q ++ t) = some ((lineBlock lines).length - 4) := by
        rw [h]
        exact find_blankLine_lineBlock hne fun line hline => (hlines line hline).plain
      refine find_none_of_append blankLine_ne_nil hlong ?_
      rw [show blankLine.length = 4 from rfl]
      omega
  have hstart : ¬ crlf.isPrefixOf q = true := by
    rw [List.isPrefixOf_iff_prefix]
    intro hp
    by_cases hne : lines = []
    · -- the section is the empty line, and `q` is shorter
      rw [hne, show (lineBlock []).length = 2 from rfl] at hlen
      have hle := hp.length_le
      rw [show crlf.length = 2 from rfl] at hle
      omega
    · have hlong : crlf <+: lineBlock lines := by
        rw [← h]
        exact hp.trans (prefix_append _ _)
      exact no_return_first hne (fun line hline => (hlines line hline).plain) _ hlong
  rw [trailerEnd, hfind, if_neg hstart]
  rfl

theorem run_front {m : Message} (hm : m.Formed) (haccs : ∀ l ∈ m.sizeLines, l.Accepted) {s : Chunked} {t : List UInt8}
    (hdata : s.body.length + m.data.length ≤ maxBodyBytes) (ht : t ≠ []) (h : s.rest ++ t = m.text) :
    (chunkedLoop false).run s = .error .incomplete := by
  obtain ⟨chunks, last, lines⟩ := m
  induction chunks generalizing s with
  | nil =>
    have hpass : s.pass false = .error .incomplete := by
      rcases takeChunkLine_front hm.last (haccs last (mem_singleton_self _)) h with hline | ⟨more, hmore, hline⟩
      · exact bind_eq_error.mpr (.inl hline)
      · refine bind_eq_error.mpr (.inr ⟨_, hline, ?_⟩)
        dsimp only
        rw [if_pos hm.last_zero]
        refine bind_eq_error.mpr (.inl (bind_eq_error.mpr (.inl ?_)))
        rw [trailerEnd_front hm.trailers ht hmore.symm]
        rfl
    rw [Loop.run_eq, show (chunkedLoop false).body s = .error .incomplete from hpass]
  | cons c chunks ih =>
    obtain ⟨hc, hchunks⟩ := forall_mem_cons.mp hm.chunks
    obtain ⟨hacc, haccs⟩ := forall_mem_cons.mp haccs
    rw [Message.data, flatMap_cons, length_append] at hdata
    simp only [Message.text, flatMap_cons, Chunk.text, append_assoc] at h
    rcases takeChunkLine_front hc.line hacc h with hline | ⟨more, hmore, hline⟩
    · have hpass : s.pass false = .error .incomplete := bind_eq_error.mpr (.inl hline)
      rw [Loop.run_eq, show (chunkedLoop false).body s = .error .incomplete from hpass]
    have hlimit : s.body.length + c.data.length ≤ maxBodyBytes := by omega
    rcases takeChunkData_front hlimit hmore.symm with hshort | ⟨rest, hrest, htake⟩
    · have hpass : s.pass false = .error .incomplete := by
        refine bind_eq_error.mpr (.inr ⟨_, hline, ?_⟩)
        dsimp only
        rw [if_neg hc.positive, ← hc.length]
        exact bind_eq_error.mpr (.inl hshort)
      rw [Loop.run_eq, show (chunkedLoop false).body s = .error .incomplete from hpass]
    · have hpass : s.pass false = .ok (.again { rest, body := s.body ++ c.data }) := by
        refine bind_ok hline ?_
        dsimp only
        rw [if_neg hc.positive, ← hc.length]
        exact bind_ok htake rfl
      rw [Loop.run_eq, show (chunkedLoop false).body s = .ok (.again { rest, body := s.body ++ c.data }) from hpass]
      refine ih ⟨hchunks, hm.last, hm.last_zero, hm.trailers⟩ haccs ?_ hrest.symm
      rw [length_append]
      exact (Nat.add_assoc _ _ _).trans_le hdata

theorem decodeChunked_front {q t body : List UInt8} (ht : t ≠ []) (h : decodeChunked (q ++ t) false = .ok body) :
    decodeChunked q false = .error .incomplete := by
  obtain ⟨m, hm, hw, hs, htext, -⟩ := decodeChunked_eq_ok.mp h
  obtain ⟨haccs, -, hdata⟩ := Message.limits_iff.mp ⟨hw, hs⟩
  refine run_front hm haccs ?_ ht htext
  rw [length_nil, Nat.zero_add]
  exact hdata

/-! ## Responses -/

theorem decodeBody_front {status : ℕ} {s : Head} {q t body : List UInt8} (ht : t ≠ [])
    (h : decodeBody status s (q ++ t) false = .ok body) : decodeBody status s q false = .error .incomplete := by
  unfold decodeBody at h ⊢
  split at h
  · -- a response without a body has nothing to cut off
    obtain ⟨_, hempty, -⟩ := bind_eq_ok.mp h
    rw [reject_eq_ok, not_not] at hempty
    exact absurd (append_eq_nil_iff.mp hempty).2 ht
  rename_i hbody
  rw [if_neg hbody]
  split at h
  next hchunked =>
    rw [if_pos hchunked]
    exact decodeChunked_front ht h
  rename_i hchunked
  rw [if_neg hchunked]
  cases hlength : s.contentLength with
  | none =>
    rw [hlength] at h
    cases h
  | some length =>
    rw [hlength] at h
    obtain ⟨_, _, h⟩ := bind_eq_ok.mp h
    obtain ⟨_, hexact, -⟩ := bind_eq_ok.mp h
    rw [reject_eq_ok, not_not, length_append] at hexact
    have htlen := length_pos_iff.mpr ht
    have hshort : q.length < length := by omega
    refine bind_eq_error.mpr (.inl ?_)
    rw [reject, if_pos hshort]
    rfl

theorem decodeResponse_front {m p : List UInt8} {response : HttpResponse} (h : decodeResponse m false = .ok response)
    (hp : p <+: m) (hne : p ≠ m) : decodeResponse p false = .error .incomplete := by
  obtain ⟨t, rfl⟩ := hp
  have ht : t ≠ [] := by
    rintro rfl
    exact hne (append_nil _).symm
  simp only [decodeResponse, bind_eq_ok] at h
  obtain ⟨headerEnd, hfind, _, hlimit, ⟨status, reason, s⟩, hhead, body, hbody, -⟩ := h
  rw [okOr_eq_ok] at hfind
  have hheader := reject_eq_ok.mp hlimit
  rcases Nat.lt_or_ge p.length (headerEnd + 4) with hshort | hlong
  · -- cut off within the head
    refine bind_eq_error.mpr (.inl ?_)
    rw [find_none_of_append blankLine_ne_nil hfind hshort, if_neg (by omega)]
    rfl
  · refine bind_eq_error.mpr (.inr ⟨headerEnd, okOr_eq_ok.mpr (find_of_append blankLine_ne_nil hfind hlong), ?_⟩)
    refine bind_eq_error.mpr (.inr ⟨(), hlimit, ?_⟩)
    rw [take_append_of_le_length (by omega)] at hhead
    refine bind_eq_error.mpr (.inr ⟨_, hhead, bind_eq_error.mpr (.inl ?_)⟩)
    rw [drop_append_of_le_length hlong] at hbody
    exact decodeBody_front ht hbody

/-- A caller that appends what arrives and tries again while the response is incomplete. -/
def retry (received : List UInt8) : List (List UInt8) → Except HttpError HttpResponse
  | [] => .error .incomplete
  | piece :: pieces =>
    match decodeResponse (received ++ piece) false with
    | .error .incomplete => retry (received ++ piece) pieces
    | result => result

theorem retry_eq {m received : List UInt8} {response : HttpResponse} (h : decodeResponse m false = .ok response)
    {pieces : List (List UInt8)} (hne : received ≠ m) (hm : received ++ pieces.flatten = m) :
    retry received pieces = .ok response := by
  induction pieces generalizing received with
  | nil => exact absurd ((append_nil _).symm.trans hm) hne
  | cons piece pieces ih =>
    rw [flatten_cons, ← append_assoc] at hm
    rw [retry]
    by_cases hall : received ++ piece = m
    · rw [hall, h]
    · rw [decodeResponse_front h ⟨_, hm⟩ hall]
      exact ih hall hm

/-- **Every strict prefix of an accepted response is incomplete, so a caller that tries again obtains it.** -/
theorem incremental_decoding (m : List UInt8) (response : HttpResponse) (h : decodeResponse m false = .ok response) :
    (∀ p, p <+: m → p ≠ m → decodeResponse p false = .error .incomplete) ∧
    ∀ pieces : List (List UInt8), pieces.flatten = m → retry [] pieces = .ok response := by
  refine ⟨fun p hp hne => decodeResponse_front h hp hne, fun pieces hm => retry_eq h ?_ hm⟩
  rintro rfl
  cases h

namespace Fixture

def chunkedResponse : List UInt8 :=
  ascii "HTTP/1.1 200 OK\r\nTransfer-Encoding: chunked\r\n\r\n5;x\r\nhello\r\n0\r\nA: b\r\n\r\n"

theorem incremental_decoding_chunked : decodeResponse (chunkedResponse.take 60) false = .error .incomplete ∧
    retry [] [chunkedResponse.take 20, (chunkedResponse.drop 20).take 50, chunkedResponse.drop 70] =
      .ok { statusCode := 200, reason := ascii "OK", headers := [(ascii "transfer-encoding", ascii "chunked")],
            body := ascii "hello" } := by
  obtain ⟨hfront, hretry⟩ := incremental_decoding chunkedResponse
    { statusCode := 200, reason := ascii "OK", headers := [(ascii "transfer-encoding", ascii "chunked")],
      body := ascii "hello" } (by decide +kernel)
  exact ⟨hfront _ (List.take_prefix _ _) (by decide), hretry _ (by decide)⟩

end Fixture

end MochiSyscalls.HttpClient
