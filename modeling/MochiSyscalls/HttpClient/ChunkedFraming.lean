import MochiSyscalls.HttpClient.FieldLines

/-! # Chunked framing

`Message` is a chunked body as RFC 9112 writes it, taken apart: the chunks with their size lines, the last
chunk, and the trailer lines. A size line may also carry a plus sign, which the RFC does not have: this is
the grammar the decoder implements, and the texts of two different messages differ. -/

namespace MochiSyscalls.HttpClient
open Foundations Checked Delimiters Loops Numerals Utf8 List
open Words
set_option autoImplicit false

/-! ## The grammar -/

def isHexDigit (b : UInt8) : Bool := within '0' '9' b || within 'a' 'f' b || within 'A' 'F' b

structure SizeLine where
  signed : Bool
  digits : List UInt8
  ext : Option (List UInt8)
  deriving DecidableEq

namespace SizeLine

def sizeText (l : SizeLine) : List UInt8 := if l.signed then byte '+' :: l.digits else l.digits

def text (l : SizeLine) : List UInt8 :=
  l.sizeText ++ match l.ext with
    | none => []
    | some ext => byte ';' :: ext

def value (l : SizeLine) : ℕ := (numeral 16 l.digits).getD 0

/-- `1*HEXDIG`, and no line end in the extension. -/
structure Formed (l : SizeLine) : Prop where
  digits_ne_nil : l.digits ≠ []
  digits_hex : ∀ b ∈ l.digits, isHexDigit b = true
  one_line : find crlf l.text = none

end SizeLine

structure Chunk where
  line : SizeLine
  data : List UInt8
  deriving DecidableEq

structure Chunk.Formed (c : Chunk) : Prop where
  line : c.line.Formed
  length : c.data.length = c.line.value
  positive : c.line.value ≠ 0

def Chunk.text (c : Chunk) : List UInt8 := c.line.text ++ (crlf ++ (c.data ++ crlf))

structure Message where
  chunks : List Chunk
  last : SizeLine
  trailers : List (List UInt8)
  deriving DecidableEq

namespace Message

variable (m : Message)

def text : List UInt8 := m.chunks.flatMap Chunk.text ++ (m.last.text ++ (crlf ++ lineBlock m.trailers))

def data : List UInt8 := m.chunks.flatMap Chunk.data

def sizeLines : List SizeLine := m.chunks.map Chunk.line ++ [m.last]

structure Formed (m : Message) : Prop where
  chunks : ∀ c ∈ m.chunks, c.Formed
  last : m.last.Formed
  last_zero : m.last.value = 0
  trailers : ∀ line ∈ m.trailers, HeaderLine line

def Unsigned : Prop := ∀ l ∈ m.sizeLines, l.signed = false

/-- The size limits of the client: chunks, body, trailers, lines. -/
structure Within (m : Message) : Prop where
  chunk : ∀ l ∈ m.sizeLines, l.value ≤ maxChunkBytes
  body : m.data.length ≤ maxBodyBytes
  trailers : (lineBlock m.trailers).length ≤ maxTrailerBytes
  sizeLine : ∀ l ∈ m.sizeLines, l.text.length ≤ maxHeaderLineLen
  trailerLine : ∀ line ∈ m.trailers, line.length ≤ maxHeaderLineLen

/-- What the decoder asks beyond them: short size texts, UTF-8, and not too many trailer lines. -/
structure Small (m : Message) : Prop where
  size : ∀ l ∈ m.sizeLines, l.sizeText.length ≤ 16
  line_utf8 : ∀ l ∈ m.sizeLines, valid l.text = true
  trailer_utf8 : valid (crlf.intercalate m.trailers) = true
  trailer_count : m.trailers.length ≤ maxHeaderCount

end Message

/-- A payload framed as RFC 9112 says, with the body it carries. -/
def Rfc9112 (payload body : List UInt8) : Prop := ∃ m : Message, m.Formed ∧ m.Unsigned ∧ payload = m.text ∧ body = m.data

/-! ## Size lines -/

theorem isHexDigit_iff : ∀ b : UInt8, isHexDigit b = (toDigit 16 b).isSome := forall_byte (by decide +kernel)

theorem hexDigit_ne {b : UInt8} (h : isHexDigit b = true) : b ≠ byte ';' ∧ b ≠ byte '+' := by
  constructor
  · rintro rfl
    revert h
    decide
  · rintro rfl
    revert h
    decide

namespace SizeLine

variable {l : SizeLine}

theorem Formed.value_eq (h : l.Formed) : numeral 16 l.digits = some l.value := by
  have hsome : (numeral 16 l.digits).isSome := numeralFrom_isSome fun b hb => by
    rw [← isHexDigit_iff]
    exact h.digits_hex b hb
  obtain ⟨n, hn⟩ := Option.isSome_iff_exists.mp hsome
  rw [value, hn, Option.getD_some]

theorem Formed.separator (h : l.Formed) : byte ';' ∉ l.sizeText := by
  have hdigits : byte ';' ∉ l.digits := fun hmem => (hexDigit_ne (h.digits_hex _ hmem)).1 rfl
  unfold sizeText
  split
  · rw [mem_cons, not_or]
    exact ⟨by decide, hdigits⟩
  · exact hdigits

theorem Formed.cut_text (h : l.Formed) : cut (byte ';') l.text = (l.sizeText, l.ext) := by
  unfold text
  split
  next hext => rw [append_nil, hext, cut_of_notMem h.separator]
  next ext hext => rw [hext, cut_append h.separator]

theorem Formed.sizeText_ne_nil (h : l.Formed) : l.sizeText ≠ [] := by
  unfold sizeText
  split
  · exact cons_ne_nil _ _
  · exact h.digits_ne_nil

theorem Formed.ext_of_text {l' : SizeLine} (h : l.Formed) (h' : l'.Formed) (htext : l.text = l'.text) : l = l' := by
  have hcut := h.cut_text
  rw [htext, h'.cut_text] at hcut
  obtain ⟨hsize, hext⟩ := Prod.mk.inj hcut
  have hhead : ∀ {l : SizeLine}, l.Formed → l.signed = decide (l.sizeText.head? = some (byte '+')) := by
    intro l h
    unfold sizeText
    cases hs : l.signed with
    | true => rfl
    | false =>
      symm
      rw [decide_eq_false_iff_not]
      intro hplus
      exact (hexDigit_ne (h.digits_hex _ (mem_of_head? hplus))).2 rfl
  have hsigned : l.signed = l'.signed := by rw [hhead h, hhead h', hsize]
  have hdigits : l.digits = l'.digits := by
    unfold sizeText at hsize
    rw [hsigned] at hsize
    cases hs : l'.signed with
    | true =>
      rw [hs] at hsize
      exact (cons.inj hsize).2.symm
    | false =>
      rw [hs] at hsize
      exact hsize.symm
  cases l
  cases l'
  simp only at hsigned hdigits hext
  rw [hsigned, hdigits, hext]

structure Accepted (l : SizeLine) : Prop where
  value : l.value ≤ maxChunkBytes
  length : l.text.length ≤ maxHeaderLineLen
  size : l.sizeText.length ≤ 16
  utf8 : valid l.text = true

theorem exists_of_fromStrRadix {line : List UInt8} {size : ℕ} (hline : find crlf line = none)
    (h : fromStrRadix 16 usizeMax (cut (byte ';') line).1 = some size) :
    ∃ l : SizeLine, l.Formed ∧ l.value = size ∧ l.text = line ∧ l.sizeText = (cut (byte ';') line).1 := by
  obtain ⟨digits, hsize, hne, hnum, -⟩ := (fromStrRadix_eq_some (by decide) (by decide) (by decide)).mp h
  obtain ⟨signed, hsize⟩ : ∃ signed : Bool, (cut (byte ';') line).1 = if signed then byte '+' :: digits else digits := by
    rcases hsize with hsize | hsize
    · exact ⟨false, hsize⟩
    · exact ⟨true, hsize⟩
  have htext : (SizeLine.mk signed digits (cut (byte ';') line).2).text = line := by
    rcases cut_cases (byte ';') line with ⟨-, hcut⟩ | ⟨front, rest, heq, -, hcut⟩
    · rw [hcut] at hsize ⊢
      rw [text, sizeText, ← hsize, append_nil]
    · rw [hcut] at hsize ⊢
      rw [text, sizeText, ← hsize, heq]
  have hhex : ∀ b ∈ digits, isHexDigit b = true := fun b hb => by
    rw [isHexDigit_iff]
    exact isSome_of_numeralFrom hnum b hb
  exact ⟨⟨signed, digits, (cut (byte ';') line).2⟩, ⟨hne, hhex, by rw [htext]; exact hline⟩, by rw [value, hnum]; rfl,
    htext, hsize.symm⟩

theorem Formed.fromStrRadix (h : l.Formed) (hle : l.value ≤ usizeMax) :
    fromStrRadix 16 usizeMax l.sizeText = some l.value := by
  refine (fromStrRadix_eq_some (by decide) (by decide) (by decide)).mpr ⟨l.digits, ?_, h.digits_ne_nil, h.value_eq, hle⟩
  unfold sizeText
  cases l.signed with
  | true => exact .inr rfl
  | false => exact .inl rfl

end SizeLine

variable {rest : List UInt8}

theorem find_crlf_take {k : ℕ} (h : find crlf rest = some k) : find crlf (rest.take k) = none := by
  have hshort : (rest.take k).length < k + crlf.length := by
    rw [length_take]
    exact Nat.lt_add_right_iff_pos.mpr (by decide) |>.trans_le' (Nat.min_le_left _ _)
  rw [← take_append_drop k rest] at h
  exact find_none_of_append crlf_ne_nil h hshort

theorem find_crlf_append {line after : List UInt8} (h : find crlf line = none) :
    find crlf (line ++ (crlf ++ after)) = some line.length := by
  refine (find_eq_some crlf_ne_nil).mpr ⟨?_, fun j hj hat => ?_⟩
  · rw [drop_left]
    exact prefix_append _ _
  · rcases Nat.lt_or_ge (j + 1) line.length with hlt | hge
    · rw [prefix_drop_append _ (show j + crlf.length ≤ line.length from hlt)] at hat
      exact (find_eq_none crlf_ne_nil).mp h j hat
    · -- the line would end in a carriage return, and the line feed be another one
      have hend : j + 1 - line.length = 0 := by omega
      obtain ⟨t, ht⟩ := hat
      have hsecond : ((line ++ (crlf ++ after)).drop j)[1]? = some 10 := by
        rw [← ht]
        rfl
      rw [getElem?_drop, getElem?_append_right (by omega), hend] at hsecond
      cases hsecond

variable {endOfStream : Bool}

theorem takeChunkLine_eq_ok {after : List UInt8} {size : ℕ} : takeChunkLine endOfStream rest = .ok (size, after) ↔
      ∃ l : SizeLine, l.Formed ∧ l.Accepted ∧ l.value = size ∧ rest = l.text ++ (crlf ++ after) := by
  constructor
  · intro h
    simp only [takeChunkLine, bind_eq_ok] at h
    obtain ⟨lineEnd, hfind, _, hlen, _, hvalid, _, hshort, n, hnum, _, hchunk, h⟩ := h
    rw [okOr_eq_ok] at hfind hnum
    rw [reject_eq_ok] at hlen hvalid hshort hchunk
    obtain ⟨rfl, rfl⟩ := Prod.mk.inj (Except.ok.inj h)
    obtain ⟨heq, hfit⟩ := eq_of_find crlf_ne_nil hfind
    have htake : (rest.take lineEnd).length = lineEnd := length_take_of_le (by omega)
    obtain ⟨l, hformed, hvalue, htext, hsize⟩ := SizeLine.exists_of_fromStrRadix (find_crlf_take hfind) hnum
    refine ⟨l, hformed, ⟨?_, ?_, ?_, ?_⟩, hvalue, ?_⟩
    · rw [hvalue]
      exact Nat.le_of_not_lt hchunk
    · rw [htext, htake]
      exact Nat.le_of_not_lt hlen
    · rw [hsize]
      exact Nat.le_of_not_lt (not_or.mp hshort).2
    · rw [htext]
      exact not_not.mp hvalid
    · rw [htext, ← append_assoc]
      exact heq
  · rintro ⟨l, hformed, hacc, rfl, rfl⟩
    have htake : (l.text ++ (crlf ++ after)).take l.text.length = l.text := take_left
    have hdrop : (l.text ++ (crlf ++ after)).drop (l.text.length + 2) = after := by
      rw [← append_assoc]
      exact drop_left' (by rw [length_append]; rfl)
    refine bind_ok (okOr_eq_ok.mpr (find_crlf_append hformed.one_line)) ?_
    rw [htake, hdrop]
    dsimp only
    rw [hformed.cut_text]
    refine reject_bind (Nat.not_lt_of_le hacc.length) ?_
    refine reject_bind (not_not_intro hacc.utf8) ?_
    refine reject_bind ?_ ?_
    · rw [List.isEmpty_iff, not_or]
      exact ⟨hformed.sizeText_ne_nil, Nat.not_lt_of_le hacc.size⟩
    refine bind_ok (okOr_eq_ok.mpr (hformed.fromStrRadix (hacc.value.trans (by decide)))) ?_
    exact reject_bind (Nat.not_lt_of_le hacc.value) rfl

/-! ## Trailers -/

variable {lines : List (List UInt8)}

theorem foldlM_validateTrailerLine {count total : ℕ} (hcount : count ≤ maxHeaderCount) :
    lines.foldlM validateTrailerLine count = .ok total ↔ total = count + lines.length ∧ total ≤ maxHeaderCount ∧
        ∀ line ∈ lines, HeaderLine line ∧ line.length ≤ maxHeaderLineLen := by
  induction lines generalizing count with
  | nil =>
    rw [foldlM_nil]
    constructor
    · intro h
      obtain rfl := Except.ok.inj h
      exact ⟨rfl, hcount, nofun⟩
    · rintro ⟨rfl, -⟩
      rfl
  | cons line lines ih =>
    rw [foldlM_cons, forall_mem_cons, length_cons]
    constructor
    · intro h
      obtain ⟨next, hline, h⟩ := bind_eq_ok.mp h
      obtain ⟨_, hlimit, hline⟩ := bind_eq_ok.mp hline
      obtain ⟨header, hheader, hline⟩ := bind_eq_ok.mp hline
      rw [reject_eq_ok, not_or, Nat.not_lt, Nat.not_lt] at hlimit
      obtain rfl := Except.ok.inj hline
      obtain ⟨rfl, htotal, hrest⟩ := (ih hlimit.1).mp h
      exact ⟨by omega, htotal, ⟨headerLine_iff.mpr ⟨header, hheader⟩, hlimit.2⟩, hrest⟩
    · rintro ⟨rfl, htotal, ⟨hline, hlen⟩, hrest⟩
      obtain ⟨header, hheader⟩ := headerLine_iff.mp hline
      refine bind_ok (a := count + 1) ?_ ((ih (by omega)).mpr ⟨by omega, htotal, hrest⟩)
      refine reject_bind ?_ (bind_ok hheader rfl)
      omega

structure TrailersAccepted (lines : List (List UInt8)) : Prop where
  length : (lineBlock lines).length ≤ maxTrailerBytes
  line : ∀ line ∈ lines, line.length ≤ maxHeaderLineLen
  count : lines.length ≤ maxHeaderCount
  utf8 : valid (crlf.intercalate lines) = true

theorem exists_of_validateTrailers {bytes : List UInt8} (hlen : bytes.length ≤ maxTrailerBytes)
    (h : validateTrailers bytes = .ok ()) :
    ∃ lines, (∀ line ∈ lines, HeaderLine line) ∧ TrailersAccepted lines ∧ bytes = lineBlock lines := by
  unfold validateTrailers at h
  split at h
  next heq =>
    refine ⟨[], by simp, ⟨by decide, ?_, by decide, by decide⟩, heq⟩
    simp
  · obtain ⟨_, hsuffix, h⟩ := bind_eq_ok.mp h
    obtain ⟨_, hvalid, h⟩ := bind_eq_ok.mp h
    obtain ⟨total, hlines, -⟩ := bind_eq_ok.mp h
    rw [reject_eq_ok, not_not] at hsuffix hvalid
    obtain ⟨content, rfl⟩ := isSuffixOf_iff_suffix.mp hsuffix
    have hcontent : (content ++ blankLine).take ((content ++ blankLine).length - 4) = content := by
      rw [length_append]
      exact take_left' (by rw [show blankLine.length = 4 from rfl]; omega)
    rw [hcontent] at hvalid hlines
    obtain ⟨htotal, hcount, hall⟩ := (foldlM_validateTrailerLine (Nat.zero_le _)).mp hlines
    have hjoin : crlf.intercalate (splitPair 13 10 content) = content := intercalate_splitPair content
    have heq : content ++ blankLine = lineBlock (splitPair 13 10 content) := by
      rw [lineBlock_eq (splitPair_ne_nil _), hjoin]
    refine ⟨splitPair 13 10 content, fun line hline => (hall line hline).1, ⟨?_, ?_, ?_, ?_⟩, heq⟩
    · rw [← heq]
      exact hlen
    · exact fun line hline => (hall line hline).2
    · omega
    · rw [hjoin]
      exact hvalid

theorem validateTrailers_lineBlock (hlines : ∀ line ∈ lines, HeaderLine line)
    (h : TrailersAccepted lines) : validateTrailers (lineBlock lines) = .ok () := by
  by_cases hne : lines = []
  · rw [hne]
    rfl
  · have hsplit : splitPair 13 10 (crlf.intercalate lines) = lines :=
      splitPair_intercalate hne fun line hline => (hlines line hline).notMem
    have hcontent : (crlf.intercalate lines ++ blankLine).take ((crlf.intercalate lines ++ blankLine).length - 4) =
        crlf.intercalate lines := by
      rw [length_append]
      exact take_left' (by rw [show blankLine.length = 4 from rfl]; omega)
    have hlong : crlf.intercalate lines ++ blankLine ≠ crlf := by
      intro heq
      have hlen := congrArg length heq
      rw [length_append, show blankLine.length = 4 from rfl, show crlf.length = 2 from rfl] at hlen
      omega
    rw [lineBlock_eq hne, validateTrailers, if_neg hlong]
    refine reject_bind (not_not_intro ?_) ?_
    · exact isSuffixOf_iff_suffix.mpr (suffix_append _ _)
    rw [hcontent]
    refine reject_bind (not_not_intro h.utf8) ?_
    rw [hsplit]
    refine bind_ok (a := lines.length) ((foldlM_validateTrailerLine (Nat.zero_le _)).mpr ?_) rfl
    exact ⟨(Nat.zero_add _).symm, h.count, fun line hline => ⟨hlines line hline, h.line line hline⟩⟩

theorem trailerEnd_lineBlock (hlines : ∀ line ∈ lines, HeaderLine line) :
    trailerEnd (lineBlock lines) = some (lineBlock lines).length := by
  by_cases hne : lines = []
  · rw [hne]
    rfl
  · rw [trailerEnd, find_blankLine_lineBlock hne fun line hline => (hlines line hline).plain, Option.map_some,
      Option.some_or, Nat.sub_add_cancel (four_le_lineBlock hne)]

theorem finishChunked_eq_ok {u : Unit} : finishChunked endOfStream rest = .ok u ↔
      ∃ lines, (∀ line ∈ lines, HeaderLine line) ∧ TrailersAccepted lines ∧ rest = lineBlock lines := by
  constructor
  · intro h
    simp only [finishChunked, bind_eq_ok] at h
    obtain ⟨stop, -, _, hlen, _, hlines, h⟩ := h
    rw [reject_eq_ok, Nat.not_lt] at hlen
    rw [reject_eq_ok, not_not] at h
    rw [h] at hlen
    rw [h, take_length] at hlines
    exact exists_of_validateTrailers hlen hlines
  · rintro ⟨lines, hlines, hacc, rfl⟩
    refine bind_ok (okOr_eq_ok.mpr (trailerEnd_lineBlock hlines)) ?_
    refine reject_bind (Nat.not_lt_of_le hacc.length) ?_
    rw [take_length]
    exact bind_ok (validateTrailers_lineBlock hlines hacc) (reject_eq_ok.mpr (not_not_intro rfl))

/-! ## Chunks -/

theorem takeChunkData_eq_ok {data after : List UInt8} {size bodyLen : ℕ} :
    takeChunkData endOfStream rest size bodyLen = .ok (data, after) ↔
      data.length = size ∧ bodyLen + size ≤ maxBodyBytes ∧ rest = data ++ (crlf ++ after) := by
  constructor
  · intro h
    simp only [takeChunkData, bind_eq_ok] at h
    obtain ⟨_, hfit, _, hend, _, hlimit, h⟩ := h
    rw [reject_eq_ok, Nat.not_lt] at hfit hlimit
    rw [reject_eq_ok, not_not] at hend
    obtain ⟨rfl, rfl⟩ := Prod.mk.inj (Except.ok.inj h)
    refine ⟨length_take_of_le (by omega), hlimit, ?_⟩
    rw [← hend, ← drop_drop, take_append_drop, take_append_drop]
  · rintro ⟨rfl, hlimit, rfl⟩
    have htake : (data ++ (crlf ++ after)).take data.length = data := take_left
    have hdrop : (data ++ (crlf ++ after)).drop data.length = crlf ++ after := drop_left
    have hafter : (data ++ (crlf ++ after)).drop (data.length + 2) = after := by
      rw [← drop_drop, hdrop]
      rfl
    refine reject_bind ?_ ?_
    · rw [length_append, length_append, show crlf.length = 2 from rfl]
      omega
    refine reject_bind (not_not_intro ?_) ?_
    · rw [hdrop]
      rfl
    refine reject_bind (Nat.not_lt_of_le hlimit) ?_
    rw [htake, hafter]
    rfl

theorem Chunked.pass_eq_done {s : Chunked} {body : List UInt8} : s.pass endOfStream = .ok (.done body) ↔
      ∃ (l : SizeLine) (lines : List (List UInt8)), l.Formed ∧ l.Accepted ∧ l.value = 0 ∧
        (∀ line ∈ lines, HeaderLine line) ∧ TrailersAccepted lines ∧
        s.rest = l.text ++ (crlf ++ lineBlock lines) ∧ body = s.body := by
  constructor
  · intro h
    obtain ⟨⟨size, rest⟩, hline, h⟩ := bind_eq_ok.mp h
    obtain ⟨l, hformed, hacc, hvalue, hrest⟩ := takeChunkLine_eq_ok.mp hline
    dsimp only at h
    split at h
    next hzero =>
      obtain ⟨_, hfinish, h⟩ := bind_eq_ok.mp h
      obtain ⟨lines, hlines, htrailers, heq⟩ := finishChunked_eq_ok.mp hfinish
      rw [heq] at hrest
      exact ⟨l, lines, hformed, hacc, hvalue.trans hzero, hlines, htrailers, hrest,
        (Pass.done.inj (Except.ok.inj h)).symm⟩
    · obtain ⟨_, _, h⟩ := bind_eq_ok.mp h
      cases h
  · rintro ⟨l, lines, hformed, hacc, hzero, hlines, htrailers, hrest, rfl⟩
    refine bind_ok (takeChunkLine_eq_ok.mpr ⟨l, hformed, hacc, hzero, hrest⟩) ?_
    exact bind_ok (a := ()) (finishChunked_eq_ok.mpr ⟨lines, hlines, htrailers, rfl⟩) rfl

theorem Chunked.pass_eq_again {s s' : Chunked} : s.pass endOfStream = .ok (.again s') ↔
      ∃ c : Chunk, c.Formed ∧ c.line.Accepted ∧ s.body.length + c.data.length ≤ maxBodyBytes ∧
        s.rest = c.text ++ s'.rest ∧ s'.body = s.body ++ c.data := by
  constructor
  · intro h
    obtain ⟨⟨size, rest⟩, hline, h⟩ := bind_eq_ok.mp h
    obtain ⟨l, hformed, hacc, hvalue, hrest⟩ := takeChunkLine_eq_ok.mp hline
    dsimp only at h
    split at h
    · obtain ⟨_, _, h⟩ := bind_eq_ok.mp h
      cases h
    next hpos =>
      obtain ⟨⟨data, after⟩, hdata, h⟩ := bind_eq_ok.mp h
      obtain ⟨hlen, hlimit, heq⟩ := takeChunkData_eq_ok.mp hdata
      obtain rfl := Pass.again.inj (Except.ok.inj h)
      refine ⟨⟨l, data⟩, ⟨hformed, hlen.trans hvalue.symm, ?_⟩, hacc, ?_, ?_, rfl⟩
      · rw [hvalue]
        exact hpos
      · rw [hlen]
        exact hlimit
      · rw [hrest, heq, Chunk.text]
        simp only [append_assoc]
  · rintro ⟨c, hformed, hacc, hlimit, hrest, hbody⟩
    have hline : s.rest = c.line.text ++ (crlf ++ (c.data ++ (crlf ++ s'.rest))) := by
      rw [hrest, Chunk.text]
      simp only [append_assoc]
    refine bind_ok (takeChunkLine_eq_ok.mpr ⟨c.line, hformed.line, hacc, rfl, hline⟩) ?_
    dsimp only
    rw [if_neg hformed.positive]
    refine bind_ok (takeChunkData_eq_ok.mpr ⟨hformed.length, ?_, rfl⟩) ?_
    · rw [← hformed.length]
      exact hlimit
    · rw [← hbody]
      rfl

/-! ## The decoder implements the grammar -/

namespace Message

theorem limits_iff {m : Message} : m.Within ∧ m.Small ↔
      (∀ l ∈ m.sizeLines, l.Accepted) ∧ TrailersAccepted m.trailers ∧ m.data.length ≤ maxBodyBytes := by
  constructor
  · rintro ⟨hw, hs⟩
    exact ⟨fun l hl => ⟨hw.chunk l hl, hw.sizeLine l hl, hs.size l hl, hs.line_utf8 l hl⟩,
      ⟨hw.trailers, hw.trailerLine, hs.trailer_count, hs.trailer_utf8⟩, hw.body⟩
  · rintro ⟨hl, ht, hb⟩
    exact ⟨⟨fun l h => (hl l h).value, hb, ht.length, fun l h => (hl l h).length, ht.line⟩,
      fun l h => (hl l h).size, fun l h => (hl l h).utf8, ht.utf8, ht.count⟩

end Message

theorem run_eq_ok (s : Chunked) {body : List UInt8} (hs : s.body.length ≤ maxBodyBytes) :
    (chunkedLoop endOfStream).run s = .ok body ↔
      ∃ m : Message, m.Formed ∧ (∀ l ∈ m.sizeLines, l.Accepted) ∧ TrailersAccepted m.trailers ∧
        s.body.length + m.data.length ≤ maxBodyBytes ∧ s.rest = m.text ∧ body = s.body ++ m.data := by
  constructor
  · intro h
    induction s using (chunkedLoop endOfStream).pass_induction with
    | h s ih =>
      rw [Loop.run_eq] at h
      split at h
      · cases h
      next b hpass =>
        obtain rfl := Except.ok.inj h
        obtain ⟨l, lines, hl, hacc, hzero, hlines, htrailers, hrest, hbody⟩ := Chunked.pass_eq_done.mp hpass
        refine ⟨⟨[], l, lines⟩, ⟨?_, hl, hzero, hlines⟩, ?_, htrailers, hs, hrest, ?_⟩
        · exact nofun
        · exact fun l' hl' => by rwa [mem_singleton.mp hl']
        · exact hbody.trans (append_nil _).symm
      next s' hpass =>
        obtain ⟨c, hc, hacc, hlimit, hrest, hbody⟩ := Chunked.pass_eq_again.mp hpass
        have hlen : s'.body.length = s.body.length + c.data.length := by rw [hbody, length_append]
        obtain ⟨m, hm, haccs, htrailers, hdata, htext, hout⟩ := ih s' hpass (hlen ▸ hlimit) h
        refine ⟨{ m with chunks := c :: m.chunks }, ⟨forall_mem_cons.mpr ⟨hc, hm.chunks⟩, hm.last, hm.last_zero,
          hm.trailers⟩, forall_mem_cons.mpr ⟨hacc, haccs⟩, htrailers, ?_, ?_, ?_⟩
        · rw [Message.data, flatMap_cons, length_append]
          rw [hlen, Message.data] at hdata
          omega
        · rw [hrest, htext, Message.text, Message.text, flatMap_cons, append_assoc]
        · rw [hout, hbody, Message.data, Message.data, flatMap_cons, append_assoc]
  · rintro ⟨m, hm, haccs, htrailers, hdata, htext, rfl⟩
    obtain ⟨chunks, last, lines⟩ := m
    induction chunks generalizing s with
    | nil =>
      have hdone : s.pass endOfStream = .ok (.done s.body) :=
        Chunked.pass_eq_done.mpr ⟨last, lines, hm.last, haccs last (mem_singleton_self _), hm.last_zero,
          hm.trailers, htrailers, htext, rfl⟩
      rw [Loop.run_eq, show (chunkedLoop endOfStream).body s = .ok (.done s.body) from hdone]
      exact congrArg Except.ok (append_nil _).symm
    | cons c chunks ih =>
      obtain ⟨hc, hchunks⟩ := forall_mem_cons.mp hm.chunks
      obtain ⟨hacc, haccs⟩ := forall_mem_cons.mp haccs
      rw [Message.data, flatMap_cons, length_append] at hdata
      rw [Message.text, flatMap_cons, append_assoc] at htext
      let s' : Chunked := { rest := (Message.mk chunks last lines).text, body := s.body ++ c.data }
      have hagain : s.pass endOfStream = .ok (.again s') :=
        Chunked.pass_eq_again.mpr ⟨c, hc, hacc, by omega, htext, rfl⟩
      have hlen : s'.body.length = s.body.length + c.data.length := length_append
      rw [Loop.run_eq, show (chunkedLoop endOfStream).body s = .ok (.again s') from hagain]
      refine (ih s' (by omega) ⟨hchunks, hm.last, hm.last_zero, hm.trailers⟩ haccs htrailers ?_ rfl).trans ?_
      · rw [hlen]
        exact (Nat.add_assoc _ _ _).trans_le hdata
      · rw [Message.data, Message.data, flatMap_cons, append_assoc]

/-- **The decoder accepts the texts of the messages within its limits, and returns their data.** -/
theorem decodeChunked_eq_ok {payload body : List UInt8} : decodeChunked payload endOfStream = .ok body ↔
      ∃ m : Message, m.Formed ∧ m.Within ∧ m.Small ∧ payload = m.text ∧ body = m.data := by
  rw [decodeChunked, run_eq_ok _ (Nat.zero_le _)]
  constructor
  · rintro ⟨m, hm, haccs, htrailers, hdata, htext, hbody⟩
    rw [length_nil, Nat.zero_add] at hdata
    obtain ⟨hw, hs⟩ := Message.limits_iff.mpr ⟨haccs, htrailers, hdata⟩
    exact ⟨m, hm, hw, hs, htext, hbody⟩
  · rintro ⟨m, hm, hw, hs, htext, hbody⟩
    obtain ⟨haccs, htrailers, hdata⟩ := Message.limits_iff.mp ⟨hw, hs⟩
    refine ⟨m, hm, haccs, htrailers, ?_, htext, hbody⟩
    rw [length_nil, Nat.zero_add]
    exact hdata

end MochiSyscalls.HttpClient
