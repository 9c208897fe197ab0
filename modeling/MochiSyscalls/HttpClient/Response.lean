import MochiSyscalls.Foundations.Checked
import MochiSyscalls.Foundations.Delimiters
import MochiSyscalls.Foundations.Lines
import MochiSyscalls.Foundations.Numerals
import MochiSyscalls.Foundations.Words

/-! # Responses

The buffered decoder `decode_response`, the parsers it is made of, and the head parser of streamed responses
(`crates/http-client/src/response.rs`). Texts are kept as their bytes. The chunked decoder is a loop over what
is left of the payload; its sums of lengths are below the size of a slice and do not overflow. -/

namespace MochiSyscalls.HttpClient
open Foundations Checked Delimiters Loops Numerals Utf8
open Words
set_option autoImplicit false

def maxStatusLineLen : ℕ := 1024
def maxHeaderLineLen : ℕ := 4096
def maxHeaderCount : ℕ := 64
def maxHeaderBytes : ℕ := 16 * 1024
def maxTrailerBytes : ℕ := 8 * 1024
def maxBodyBytes : ℕ := 4 * 1024 * 1024
def maxChunkBytes : ℕ := 256 * 1024

inductive HttpError where
  | invalidUrl
  | unsupportedScheme
  | userInfoForbidden
  | fragmentForbidden
  | invalidHostname
  | invalidPort
  | invalidPath
  | urlTooLong
  | invalidMethod
  | invalidHeaderName
  | invalidHeaderValue
  | hostnameMismatch
  | contentLengthMismatch
  | headersTooLarge
  | tooManyHeaders
  | invalidStatusLine
  | unsupportedHttpVersion
  | invalidStatusCode
  | invalidResponseHeader
  | conflictingContentLength
  | conflictingFraming
  | unsupportedTransferEncoding
  | unsupportedContentEncoding
  | unexpectedStatus
  | streamPoisoned
  | invalidChunkSize
  | chunkTooLarge
  | invalidChunkTerminator
  | trailersTooLarge
  | bodyTooLarge
  | unexpectedEnd
  | trailingData
  | incomplete
  | redirectUnsupported
  | redirectLoop
  | redirectLimit
  | redirectDowngrade
  deriving DecidableEq, Repr

def crlf : List UInt8 := [13, 10]
def blankLine : List UInt8 := [13, 10, 13, 10]

variable (endOfStream : Bool)

def missing : HttpError := if endOfStream then .unexpectedEnd else .incomplete

/-! ## Lines -/

/-- The text in front of the first separator, and the one behind it. -/
def cut (separator : UInt8) (text : List UInt8) : List UInt8 × Option (List UInt8) :=
  match text.dropWhile (· != separator) with
  | [] => (text, none)
  | _ :: rest => (text.takeWhile (· != separator), some rest)

def parseStatusLine (line : List UInt8) : Except HttpError (ℕ × List UInt8) := do
  reject (maxStatusLineLen < line.length) .invalidStatusLine
  let (version, rest) := cut (byte ' ') line
  reject (version ≠ ascii "HTTP/1.1") .unsupportedHttpVersion
  let rest ← okOr rest .invalidStatusLine
  let (rawStatus, reason) := cut (byte ' ') rest
  reject (rawStatus.length ≠ 3 ∨ ¬ rawStatus.all (within '0' '9')) .invalidStatusCode
  let status ← okOr (fromStrRadix 10 (2 ^ 16 - 1) rawStatus) .invalidStatusCode
  reject (¬ (100 ≤ status ∧ status ≤ 599)) .invalidStatusCode
  let reason := reason.getD []
  reject (reason.any fun b => b < 0x20 || b == 0x7f) .invalidStatusLine
  return (status, reason)

def isTokenByte (b : UInt8) : Bool :=
  within '0' '9' b || within 'a' 'z' b || within 'A' 'Z' b || b ∈ ascii "!#$%&'*+-.^_`|~"

def isBlank (b : UInt8) : Bool := b == byte ' ' || b == byte '\t'

/-- `trim_matches([' ', '\t'])`. -/
def trimBlanks (value : List UInt8) : List UInt8 := (value.dropWhile isBlank).rdropWhile isBlank

def isValueByte (b : UInt8) : Bool := !((b < 0x20 && b != byte '\t') || b == 0x7f)

def parseHeader (line : List UInt8) : Except HttpError (List UInt8 × List UInt8) := do
  let (name, value) := cut (byte ':') line
  let value ← okOr value .invalidResponseHeader
  reject (name.isEmpty ∨ ¬ name.all isTokenByte) .invalidResponseHeader
  let value := trimBlanks value
  reject (¬ value.all isValueByte) .invalidResponseHeader
  return (name, value)

/-- `to_ascii_lowercase`. -/
def lowercase (text : List UInt8) : List UInt8 := text.map fun b => if within 'A' 'Z' b then b + 32 else b

/-- `eq_ignore_ascii_case`. -/
def sameText (left right : List UInt8) : Bool := lowercase left == lowercase right

/-! ## The head -/

structure Head where
  headers : List (List UInt8 × List UInt8)
  contentLength : Option ℕ
  chunked : Bool
  deriving DecidableEq

/-- The content length after a header, and the same for the chunked flag. -/
def Head.nextContentLength (s : Head) (name value : List UInt8) : Except HttpError (Option ℕ) :=
  if sameText name (ascii "content-length") then do
    let parsed ← okOr (fromStrRadix 10 usizeMax value) .conflictingContentLength
    reject (maxBodyBytes < parsed) .bodyTooLarge
    reject (s.contentLength.any (· != parsed)) .conflictingContentLength
    return some parsed
  else .ok s.contentLength

def Head.nextChunked (s : Head) (name value : List UInt8) : Except HttpError Bool :=
  if sameText name (ascii "transfer-encoding") then do
    reject (¬ sameText value (ascii "chunked") ∨ s.chunked) .unsupportedTransferEncoding
    return true
  else .ok s.chunked

def Head.addLine (s : Head) (line : List UInt8) : Except HttpError Head := do
  reject (maxHeaderLineLen < line.length) .headersTooLarge
  reject (maxHeaderCount ≤ s.headers.length) .tooManyHeaders
  let (name, value) ← parseHeader line
  let contentLength ← s.nextContentLength name value
  let chunked ← s.nextChunked name value
  return { headers := s.headers ++ [(lowercase name, value)], contentLength, chunked }

def decodeHead (head : List UInt8) : Except HttpError (ℕ × List UInt8 × Head) := do
  reject (¬ valid head) .invalidResponseHeader
  let lines := splitPair 13 10 head
  let statusLine ← okOr lines.head? .invalidStatusLine
  let (statusCode, reason) ← parseStatusLine statusLine
  let s ← lines.tail.foldlM Head.addLine { headers := [], contentLength := none, chunked := false }
  reject (s.chunked ∧ s.contentLength.isSome) .conflictingFraming
  return (statusCode, reason, s)

/-! ## Chunked bodies -/

def validateTrailerLine (count : ℕ) (line : List UInt8) : Except HttpError ℕ := do
  reject (maxHeaderCount < count + 1 ∨ maxHeaderLineLen < line.length) .trailersTooLarge
  let _ ← parseHeader line
  return count + 1

variable (bytes : List UInt8)

def validateTrailers : Except HttpError Unit :=
  if bytes = crlf then .ok ()
  else do
    reject (¬ blankLine.isSuffixOf bytes) .invalidResponseHeader
    let content := bytes.take (bytes.length - 4)
    reject (¬ valid content) .invalidResponseHeader
    let _ ← (splitPair 13 10 content).foldlM validateTrailerLine 0
    return ()

variable (rest : List UInt8)

/-- The length of the trailer section, where it is complete. -/
def trailerEnd : Option ℕ :=
  ((find blankLine rest).map (· + 4)).or (if crlf.isPrefixOf rest then some 2 else none)

/-- The line of a chunk: the size it announces, and what follows the line. -/
def takeChunkLine : Except HttpError (ℕ × List UInt8) := do
  let lineEnd ← okOr (find crlf rest) (missing endOfStream)
  reject (maxHeaderLineLen < lineEnd) .invalidChunkSize
  let line := rest.take lineEnd
  reject (¬ valid line) .invalidChunkSize
  let sizeText := (cut (byte ';') line).1
  reject (sizeText.isEmpty ∨ 16 < sizeText.length) .invalidChunkSize
  let size ← okOr (fromStrRadix 16 usizeMax sizeText) .invalidChunkSize
  reject (maxChunkBytes < size) .chunkTooLarge
  return (size, rest.drop (lineEnd + 2))

/-- Behind the last chunk: the trailers, and nothing after them. -/
def finishChunked : Except HttpError Unit := do
  let stop ← okOr (trailerEnd rest) (missing endOfStream)
  reject (maxTrailerBytes < stop) .trailersTooLarge
  validateTrailers (rest.take stop)
  reject (stop ≠ rest.length) .trailingData

def takeChunkData (size bodyLen : ℕ) : Except HttpError (List UInt8 × List UInt8) := do
  reject (rest.length < size + 2) (missing endOfStream)
  reject ((rest.drop size).take 2 ≠ crlf) .invalidChunkTerminator
  reject (maxBodyBytes < bodyLen + size) .bodyTooLarge
  return (rest.take size, rest.drop (size + 2))

structure Chunked where
  rest : List UInt8
  body : List UInt8

def Chunked.pass (s : Chunked) : Except HttpError (Pass Chunked (List UInt8)) := do
  let (size, rest) ← takeChunkLine endOfStream s.rest
  if size = 0 then do
    finishChunked endOfStream rest
    return .done s.body
  else do
    let (data, rest) ← takeChunkData endOfStream rest size s.body.length
    return .again { rest, body := s.body ++ data }

theorem crlf_ne_nil : crlf ≠ [] := List.cons_ne_nil _ _

theorem blankLine_ne_nil : blankLine ≠ [] := List.cons_ne_nil _ _

theorem takeChunkLine_length {endOfStream : Bool} {rest after : List UInt8} {size : ℕ}
    (h : takeChunkLine endOfStream rest = .ok (size, after)) : after.length < rest.length := by
  obtain ⟨lineEnd, hfind, h⟩ := bind_eq_ok.mp h
  iterate 5 obtain ⟨_, _, h⟩ := bind_eq_ok.mp h
  obtain ⟨-, rfl⟩ := Prod.mk.inj (Except.ok.inj h)
  obtain ⟨-, hlen⟩ := eq_of_find crlf_ne_nil (okOr_eq_ok.mp hfind)
  rw [show crlf.length = 2 from rfl] at hlen
  rw [List.length_drop]
  omega

theorem takeChunkData_length {endOfStream : Bool} {rest data after : List UInt8} {size bodyLen : ℕ}
    (h : takeChunkData endOfStream rest size bodyLen = .ok (data, after)) : after.length ≤ rest.length := by
  iterate 3 obtain ⟨_, _, h⟩ := bind_eq_ok.mp h
  obtain ⟨-, rfl⟩ := Prod.mk.inj (Except.ok.inj h)
  rw [List.length_drop]
  exact Nat.sub_le _ _

theorem Chunked.pass_descends {endOfStream : Bool} {s s' : Chunked} (h : s.pass endOfStream = .ok (.again s')) :
    s'.rest.length < s.rest.length := by
  obtain ⟨⟨size, rest⟩, hline, h⟩ := bind_eq_ok.mp h
  have hlt := takeChunkLine_length hline
  dsimp only at h
  split at h
  · obtain ⟨_, _, h⟩ := bind_eq_ok.mp h
    cases h
  · obtain ⟨⟨data, after⟩, hdata, h⟩ := bind_eq_ok.mp h
    have hle := takeChunkData_length hdata
    obtain rfl := Pass.again.inj (Except.ok.inj h)
    exact Nat.lt_of_le_of_lt hle hlt

def chunkedLoop : Loop Chunked (List UInt8) HttpError where
  body := Chunked.pass endOfStream
  measure s := s.rest.length
  descends _ _ h := Chunked.pass_descends h

def decodeChunked (payload : List UInt8) (endOfStream : Bool) : Except HttpError (List UInt8) :=
  (chunkedLoop endOfStream).run { rest := payload, body := [] }

/-! ## Responses -/

structure HttpResponse where
  statusCode : ℕ
  reason : List UInt8
  headers : List (List UInt8 × List UInt8)
  body : List UInt8
  deriving DecidableEq

variable (status : ℕ)

def responseHasNoBody : Bool := (100 ≤ status && status < 200) || status == 204 || status == 304

def decodeBody (s : Head) (payload : List UInt8) (endOfStream : Bool) : Except HttpError (List UInt8) :=
  if responseHasNoBody status then do
    reject (payload ≠ []) .trailingData
    return []
  else if s.chunked then decodeChunked payload endOfStream
  else
    match s.contentLength with
    | some length => do
      reject (payload.length < length) (missing endOfStream)
      reject (payload.length ≠ length) .trailingData
      return payload
    | none => do
      reject (¬ endOfStream) .incomplete
      reject (maxBodyBytes < payload.length) .bodyTooLarge
      return payload

def decodeResponse (endOfStream : Bool) : Except HttpError HttpResponse := do
  let headerEnd ← okOr (find blankLine bytes)
    (if maxHeaderBytes < bytes.length then .headersTooLarge else missing endOfStream)
  reject (maxHeaderBytes < headerEnd + 4) .headersTooLarge
  let (statusCode, reason, s) ← decodeHead (bytes.take headerEnd)
  let body ← decodeBody statusCode s (bytes.drop (headerEnd + 4)) endOfStream
  return { statusCode, reason, headers := s.headers, body }

/-! ## Streamed responses -/

structure StreamHead where
  statusCode : ℕ
  headers : List (List UInt8 × List UInt8)
  contentLength : ℕ
  deriving DecidableEq

structure StreamLines where
  headers : List (List UInt8 × List UInt8)
  contentLength : Option ℕ
  deriving DecidableEq

def StreamLines.nextContentLength (s : StreamLines) (name value : List UInt8) : Except HttpError (Option ℕ) :=
  if sameText name (ascii "content-length") then do
    let length ← okOr (fromStrRadix 10 (2 ^ 64 - 1) value) .conflictingContentLength
    reject (s.contentLength.any (· != length)) .conflictingContentLength
    return some length
  else .ok s.contentLength

def StreamLines.addLine (s : StreamLines) (line : List UInt8) : Except HttpError StreamLines := do
  reject (maxHeaderLineLen < line.length) .headersTooLarge
  reject (maxHeaderCount ≤ s.headers.length) .tooManyHeaders
  let (name, value) ← parseHeader line
  reject (sameText name (ascii "transfer-encoding")) .unsupportedTransferEncoding
  reject (sameText name (ascii "content-encoding") ∧ ¬ sameText value (ascii "identity")) .unsupportedContentEncoding
  let contentLength ← s.nextContentLength name value
  return { headers := s.headers ++ [(lowercase name, value)], contentLength }

def streamLength (contentLength : Option ℕ) : Except HttpError ℕ :=
  if responseHasNoBody status then do
    reject (contentLength.any (· != 0)) .conflictingContentLength
    return 0
  else okOr contentLength .conflictingContentLength

def parseStreamHead : Except HttpError StreamHead := do
  reject (¬ blankLine.isSuffixOf bytes) .incomplete
  let head := bytes.take (bytes.length - 4)
  reject (¬ valid head) .invalidResponseHeader
  let lines := splitPair 13 10 head
  let statusLine ← okOr lines.head? .invalidStatusLine
  let (statusCode, _) ← parseStatusLine statusLine
  reject (statusCode ∈ [301, 302, 303, 307, 308]) .redirectUnsupported
  reject (statusCode ≠ 200) .unexpectedStatus
  let s ← lines.tail.foldlM StreamLines.addLine { headers := [], contentLength := none }
  let contentLength ← streamLength statusCode s.contentLength
  return { statusCode, headers := s.headers, contentLength }

end MochiSyscalls.HttpClient
