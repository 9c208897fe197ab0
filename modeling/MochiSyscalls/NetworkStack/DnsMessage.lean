import MochiSyscalls.Foundations.Loops
import MochiSyscalls.NetworkStack.Packet

/-! # DNS messages

The wire part of `decode_dns_answer` with `decode_record_name`, `DnsSoa::decode` and the record
types it knows (`crates/network-stack/src/dns.rs`, `dns/records.rs`, `dns/negative.rs`): from a
packet to the response code, the records of the answer section and the SOA records of the authority
section. -/

namespace MochiSyscalls.NetworkStack
open Foundations Bytes Loops
set_option autoImplicit false

def dnsHeaderLen : ℕ := 12
def dnsMaxWireMessageLen : ℕ := 65535
def dnsMaxAliasDepth : ℕ := 16
def maxNameWireLen : ℕ := 255

inductive DnsResponseCode where
  | noError
  | formatError
  | serverFailure
  | nameError
  | notImplemented
  | refused
  deriving DecidableEq, Repr

inductive DnsError where
  | emptyName
  | nameTooLong
  | labelTooLong
  | emptyLabel
  | invalidCharacter
  | invalidHyphen
  | bufferTooSmall
  | messageTooLarge
  | truncated
  | invalidHeader
  | transactionMismatch
  | questionMismatch
  | response (code : DnsResponseCode)
  | unsupportedResponseCode (code : UInt8)
  | unsupportedExtendedResponseCode (code : UInt16)
  | unsupportedRecord
  | invalidRecordLength
  | pointerOutOfBounds
  | pointerLoop
  | invalidPointer
  | truncatedResponse
  | aliasLoop
  | aliasDepth
  | conflictingAlias
  | noData
  | cacheCapacity
  | timeout
  | retryLimit
  deriving DecidableEq, Repr

/-- An uncompressed, absolute name with ASCII letters in lower case. -/
structure DnsRecordName where
  wire : List UInt8
  deriving DecidableEq, Repr

inductive DnsRecordType where
  | a
  | ns
  | soa
  | ptr
  | mx
  | txt
  | aaaa
  | srv
  deriving DecidableEq, Repr

def DnsRecordType.code : DnsRecordType → UInt16
  | .a => 1
  | .ns => 2
  | .soa => 6
  | .ptr => 12
  | .mx => 15
  | .txt => 16
  | .aaaa => 28
  | .srv => 33

inductive DnsRecordValue where
  | ipv4 (address : Address)
  | ipv6 (octets : { b : List UInt8 // b.length = 16 })
  | name (target : DnsRecordName)
  | rdata (bytes : List UInt8)
  deriving DecidableEq

structure DnsSoa where
  owner : DnsRecordName
  primary : DnsRecordName
  mailbox : DnsRecordName
  serial : UInt32
  refresh : UInt32
  retry : UInt32
  expire : UInt32
  minimum : UInt32
  ttl : UInt32
  deriving DecidableEq, Repr

/-- `RecordData`; `aliasTo` is the source's `Alias`. -/
inductive RecordData where
  | value (kind : DnsRecordType) (value : DnsRecordValue)
  | aliasTo (name : DnsRecordName)
  | other (recordType : UInt16)
  deriving DecidableEq

structure DnsRecord where
  owner : DnsRecordName
  data : RecordData
  ttl : UInt32
  deriving DecidableEq

/-! ## Reads -/

def okOr {α : Type} (o : Option α) (e : DnsError) : Except DnsError α :=
  match o with
  | some a => .ok a
  | none => .error e

def reject (c : Prop) [Decidable c] (e : DnsError) : Except DnsError Unit := if c then .error e else .ok ()

theorem reject_eq_ok {c : Prop} [Decidable c] {e : DnsError} {u : Unit} : reject c e = .ok u ↔ ¬ c := by
  unfold reject
  split <;> simp [*]

variable (packet : List UInt8)

def dnsReadU16 (offset : ℕ) : Except DnsError UInt16 := okOr (readU16 packet offset) .truncated

def dnsReadU32 (offset : ℕ) : Except DnsError UInt32 := okOr (readU32 packet offset) .truncated

def toAsciiLowercase (b : UInt8) : UInt8 := if 65 ≤ b ∧ b ≤ 90 then b + 32 else b

def decodeResponseCode (code : UInt8) : Except DnsError DnsResponseCode :=
  match code.toNat with
  | 0 => .ok .noError
  | 1 => .ok .formatError
  | 2 => .ok .serverFailure
  | 3 => .ok .nameError
  | 4 => .ok .notImplemented
  | 5 => .ok .refused
  | _ => .error (.unsupportedResponseCode code)

def normalizeTtl (ttl : UInt32) : UInt32 := if ttl &&& 0x80000000 ≠ 0 then 0 else ttl

/-! ## Names -/

/-- The variables of the loop in `decode_record_name`. -/
structure NameCursor where
  wire : List UInt8
  offset : ℕ
  next : Option ℕ
  ceiling : ℕ

/-- A compression pointer: the suffix must precede the name that contains it. -/
def followPointer (boundary : ℕ) (length : UInt8) (c : NameCursor) : Except DnsError NameCursor :=
  if c.offset + 2 > boundary then .error .truncated
  else
    match packet[c.offset + 1]? with
    | none => .error .truncated
    | some low =>
      let target := (length &&& 63).toNat * 256 + low.toNat
      if target ≥ packet.length then .error .pointerOutOfBounds
      else if target = c.offset then .error .pointerLoop
      else if target < dnsHeaderLen ∨ target > c.offset then .error .invalidPointer
      else if target ≥ c.ceiling then .error .pointerLoop
      else .ok { c with ceiling := target, next := some (c.next.getD (c.offset + 2)), offset := target }

def nameStep (boundary : ℕ) (c : NameCursor) : Except DnsError (Pass NameCursor (DnsRecordName × ℕ)) :=
  if c.offset ≥ boundary then .error .truncated
  else
    match packet[c.offset]? with
    | none => .error .truncated
    | some length =>
      if length &&& 0xc0 = 0xc0 then (followPointer packet boundary length c).map .again
      else if length &&& 0xc0 ≠ 0 then .error .invalidHeader
      else
        let stop := c.offset + 1 + length.toNat
        if stop > boundary then .error .truncated
        else
          match slice packet (c.offset + 1) stop with
          | none => .error .truncated
          | some label =>
            if c.wire.length + 1 + label.length > maxNameWireLen then .error .nameTooLong
            else
              let wire := c.wire ++ length :: label.map toAsciiLowercase
              if length = 0 then .ok (.done (⟨wire⟩, c.next.getD stop))
              else .ok (.again { c with wire, offset := stop })

/-- One pass of `decode_record_name`: the limit holds up to the first pointer. -/
def nameBody (limit : ℕ) (c : NameCursor) : Except DnsError (Pass NameCursor (DnsRecordName × ℕ)) :=
  nameStep packet (if c.next.isNone then limit else packet.length) c

theorem followPointer_ok {packet : List UInt8} {boundary : ℕ} {length : UInt8} {c c' : NameCursor}
    (h : followPointer packet boundary length c = .ok c') : c'.wire = c.wire ∧ c'.ceiling < c.ceiling := by
  unfold followPointer at h
  split at h
  · cases h
  split at h
  · cases h
  dsimp only at h
  split at h
  · cases h
  split at h
  · cases h
  split at h
  · cases h
  split at h
  · cases h
  rename_i hc
  cases h
  exact ⟨rfl, not_le.mp hc⟩

theorem nameStep_again {packet : List UInt8} {boundary : ℕ} {c c' : NameCursor}
    (h : nameStep packet boundary c = .ok (.again c')) :
    (c'.wire = c.wire ∧ c'.ceiling < c.ceiling) ∨
      (c'.ceiling = c.ceiling ∧ c.wire.length < c'.wire.length ∧ c'.wire.length ≤ maxNameWireLen) := by
  unfold nameStep at h
  split at h
  · cases h
  split at h
  · cases h
  rename_i length _
  split at h
  · left
    cases hp : followPointer packet boundary length c with
    | error e =>
      rw [hp] at h
      cases h
    | ok d =>
      rw [hp] at h
      cases h
      exact followPointer_ok hp
  split at h
  · cases h
  dsimp only at h
  split at h
  · cases h
  split at h
  · cases h
  rename_i label _
  split at h
  · cases h
  rename_i hlen
  split at h
  · cases h
  cases h
  right
  have hw : (c.wire ++ length :: label.map toAsciiLowercase).length = c.wire.length + 1 + label.length := by
    simp only [List.length_append, List.length_cons, List.length_map]
    omega
  dsimp only
  rw [hw]
  exact ⟨rfl, by omega, not_lt.mp hlen⟩

def nameLoop (limit : ℕ) : Loop NameCursor (DnsRecordName × ℕ) DnsError where
  body := nameBody packet limit
  measure c := c.ceiling * 257 + (256 - c.wire.length)
  descends c c' h := by
    obtain ⟨hw, hc⟩ | ⟨hc, hlt, hle⟩ := nameStep_again h
    · rw [hw]
      omega
    · have hmax : maxNameWireLen = 255 := rfl
      rw [hc]
      omega

def decodeRecordName (start limit : ℕ) : Except DnsError (DnsRecordName × ℕ) :=
  (nameLoop packet limit).run { wire := [], offset := start, next := none, ceiling := start }

/-! ## Record data -/

def DnsSoa.decode (owner : DnsRecordName) (ttl : UInt32) (start stop : ℕ) : Except DnsError DnsSoa := do
  let (primary, next) ← decodeRecordName packet start stop
  let (mailbox, next) ← decodeRecordName packet next stop
  reject (next + 20 ≠ stop) .invalidRecordLength
  let minimum ← dnsReadU32 packet (next + 16)
  let serial ← dnsReadU32 packet next
  let refresh ← dnsReadU32 packet (next + 4)
  let retry ← dnsReadU32 packet (next + 8)
  let expire ← dnsReadU32 packet (next + 12)
  return { owner, primary, mailbox, serial, refresh, retry, expire, minimum, ttl := min ttl (normalizeTtl minimum) }

/-- The RDATA of an SOA record with its names decompressed. -/
def DnsSoa.rdata (soa : DnsSoa) : List UInt8 :=
  soa.primary.wire ++ soa.mailbox.wire ++ toBe32 soa.serial ++ toBe32 soa.refresh ++ toBe32 soa.retry ++
    toBe32 soa.expire ++ toBe32 soa.minimum

variable (data : List UInt8)

def optionLoop : Loop ℕ Unit DnsError where
  body option :=
    if option < data.length then
      match dnsReadU16 data (option + 2) with
      | .error e => .error e
      | .ok length =>
        if option + 4 + length.toNat ≤ data.length then .ok (.again (option + 4 + length.toNat))
        else .error .invalidRecordLength
    else .ok (.done ())
  measure option := data.length - option
  descends option option' h := by
    split at h
    · split at h
      · cases h
      split at h
      · cases h
        omega
      · cases h
    · cases h

def txtLoop : Loop ℕ Unit DnsError where
  body next :=
    match data[next]? with
    | none => .ok (.done ())
    | some length =>
      if next + 1 + length.toNat > data.length then .error .invalidRecordLength
      else .ok (.again (next + 1 + length.toNat))
  measure next := data.length - next
  descends next next' h := by
    split at h
    · cases h
    split at h
    · cases h
    · cases h
      omega

def decodeTarget (start stop : ℕ) : Except DnsError DnsRecordName := do
  let (target, consumed) ← decodeRecordName packet start stop
  reject (consumed ≠ stop) .invalidRecordLength
  return target

def decodeService (kind : DnsRecordType) (fields start stop : ℕ) : Except DnsError RecordData := do
  reject (data.length < fields + 1) .invalidRecordLength
  let target ← decodeTarget packet (start + fields) stop
  return .value kind (.rdata (data.take fields ++ target.wire))

/-- The record data of class IN, with the SOA of an SOA record. -/
def decodeRecordData (owner : DnsRecordName) (ttl : UInt32) (recordType : UInt16)
    (start stop : ℕ) (data : List UInt8) : Except DnsError (RecordData × Option DnsSoa) :=
  match recordType.toNat with
  | 6 => do
    let soa ← DnsSoa.decode packet owner ttl start stop
    return (.value .soa (.rdata soa.rdata), some soa)
  | 1 =>
    match data with
    | [a, b, c, d] => .ok (.value .a (.ipv4 ⟨a, b, c, d⟩), none)
    | _ => .error .invalidRecordLength
  | 28 =>
    if h : data.length = 16 then .ok (.value .aaaa (.ipv6 ⟨data, h⟩), none) else .error .invalidRecordLength
  | 2 => do
    let target ← decodeTarget packet start stop
    return (.value .ns (.name target), none)
  | 5 => do
    let target ← decodeTarget packet start stop
    return (.aliasTo target, none)
  | 12 => do
    let target ← decodeTarget packet start stop
    return (.value .ptr (.name target), none)
  | 15 => do
    let decoded ← decodeService packet data .mx 2 start stop
    return (decoded, none)
  | 33 => do
    let decoded ← decodeService packet data .srv 6 start stop
    return (decoded, none)
  | 16 => do
    reject (data = []) .invalidRecordLength
    (txtLoop data).run 0
    return (.value .txt (.rdata data), none)
  | _ => .ok (.other recordType, none)

/-! ## Sections -/

structure DnsSections where
  offset : ℕ
  records : List DnsRecord
  soas : List DnsSoa
  optSeen : Bool

/-- The checks of an OPT record: once, in the additional section, at the root, with no extended
response code. -/
def checkOpt (flags : UInt16) (authorityEnd index : ℕ) (optSeen : Bool) (owner : DnsRecordName)
    (rawTtl : UInt32) (data : List UInt8) : Except DnsError Unit := do
  reject (optSeen ∨ index < authorityEnd ∨ owner.wire ≠ [0]) .invalidHeader
  let code : UInt16 := ((rawTtl >>> 24).toUInt16 <<< 4) ||| (flags &&& 15)
  reject (code > 15) (.unsupportedExtendedResponseCode code)
  (optionLoop data).run 0

def decodeRecord (flags : UInt16) (answers authorityEnd : ℕ) (s : DnsSections) (index : ℕ) :
    Except DnsError DnsSections := do
  let (owner, next) ← decodeRecordName packet s.offset packet.length
  let recordType ← dnsReadU16 packet next
  let recordClass ← dnsReadU16 packet (next + 2)
  let rawTtl ← dnsReadU32 packet (next + 4)
  let ttl := normalizeTtl rawTtl
  let length ← dnsReadU16 packet (next + 8)
  let start := next + 10
  let stop := start + length.toNat
  let data ← okOr (slice packet start stop) .truncated
  if recordType = 41 then checkOpt flags authorityEnd index s.optSeen owner rawTtl data
  let (decoded, soa) ←
    if recordClass ≠ 1 then pure (RecordData.other recordType, none)
    else decodeRecordData packet owner ttl recordType start stop data
  return {
    offset := stop
    records := if index < answers ∧ recordClass = 1 then s.records ++ [{ owner, data := decoded, ttl }] else s.records
    soas := if answers ≤ index ∧ index < authorityEnd then s.soas ++ soa.toList else s.soas
    optSeen := s.optSeen || recordType == 41 }

/-- A decoded message: the question, the response code, the answers and the SOAs of the authority
section. -/
structure DnsMessage where
  question : DnsRecordName
  responseCode : DnsResponseCode
  records : List DnsRecord
  soas : List DnsSoa
  deriving DecidableEq

/-- The header and the question of a message, and the offset of its first record. -/
structure DnsQuestion where
  flags : UInt16
  name : DnsRecordName
  offset : ℕ

/-- The checks of `decode_dns_answer` on the header and the question. -/
def decodeQuestion (transactionId : UInt16) (expectedName : DnsRecordName)
    (kind : DnsRecordType) : Except DnsError DnsQuestion := do
  reject (packet.length > dnsMaxWireMessageLen) .messageTooLarge
  reject (packet.length < dnsHeaderLen) .truncated
  let id ← dnsReadU16 packet 0
  reject (id ≠ transactionId) .transactionMismatch
  let flags ← dnsReadU16 packet 2
  reject (flags &&& 0x8000 = 0 ∨ flags &&& 0x7840 ≠ 0) .invalidHeader
  let questions ← dnsReadU16 packet 4
  reject (questions ≠ 1) .questionMismatch
  let (question, offset) ← decodeRecordName packet dnsHeaderLen packet.length
  reject (question ≠ expectedName) .questionMismatch
  let questionType ← dnsReadU16 packet offset
  reject (questionType ≠ kind.code) .questionMismatch
  let questionClass ← dnsReadU16 packet (offset + 2)
  reject (questionClass ≠ 1) .questionMismatch
  reject (flags &&& 0x0200 ≠ 0) .truncatedResponse
  return { flags, name := question, offset := offset + 4 }

/-- The first half of `decode_dns_answer`: everything but the resolution of the answer. -/
def decodeMessage (transactionId : UInt16) (expectedName : DnsRecordName)
    (kind : DnsRecordType) : Except DnsError DnsMessage := do
  let q ← decodeQuestion packet transactionId expectedName kind
  let responseCode ← decodeResponseCode (q.flags &&& 15).toUInt8
  let answers ← dnsReadU16 packet 6
  let authorities ← dnsReadU16 packet 8
  let additionals ← dnsReadU16 packet 10
  let authorityEnd := answers.toNat + authorities.toNat
  let count := authorityEnd + additionals.toNat
  reject (count > (packet.length - q.offset) / 11) .truncated
  let sections ← (List.range count).foldlM (decodeRecord packet q.flags answers.toNat authorityEnd)
    { offset := q.offset, records := [], soas := [], optSeen := false }
  reject (sections.offset ≠ packet.length) .invalidHeader
  reject (responseCode ≠ .noError ∧ responseCode ≠ .nameError) (.response responseCode)
  return { question := q.name, responseCode, records := sections.records, soas := sections.soas }

section

variable {packet : List UInt8} {transactionId : UInt16} {name : DnsRecordName}
  {kind : DnsRecordType}

theorem decodeQuestion_name
    {q : DnsQuestion} (h : decodeQuestion packet transactionId name kind = .ok q) : q.name = name := by
  simp only [decodeQuestion, bind_eq_ok, reject_eq_ok] at h
  obtain ⟨_, _, _, _, _, _, _, _, _, _, _, _, _, _, _, _, found, _, _, hname, _, _, _, _, _, _, _, _, _, _, hq⟩ := h
  cases hq
  exact not_not.mp hname

theorem decodeMessage_question
    {m : DnsMessage} (h : decodeMessage packet transactionId name kind = .ok m) : m.question = name := by
  simp only [decodeMessage, bind_eq_ok] at h
  obtain ⟨q, hq, _, _, _, _, _, _, _, _, _, _, _, _, _, _, _, _, hm⟩ := h
  cases hm
  exact decodeQuestion_name hq

end

end MochiSyscalls.NetworkStack
