import MochiSyscalls.NetworkStack.TcpSegment

/-! # TCP segments on the wire

`TcpSegment::encode` and `TcpSegment::decode` with `parse_options` and `tcp_checksum`
(`crates/network-stack/src/tcp.rs`). Decoding reads the packet through indexes and slices and
returns `none` where one of them would be out of range. -/

namespace MochiSyscalls.NetworkStack
open Foundations Words Bytes OnesComplement List Option
set_option autoImplicit false

def partialChecksum (bytes : List UInt8) : UInt32 := sumWords saturatingAdd32 0 bytes

def tcpChecksum (source destination : Address) (tcpLength : UInt16) (packet : List UInt8) : UInt16 :=
  complement (partialChecksum (pseudoHeader source destination tcpProtocol tcpLength) + partialChecksum packet)

/-! ## Options -/

/-- The loop of `parse_options`, with the iterations left. -/
def parseOptionsFrom (options : List UInt8) : ℕ → ℕ → TcpOptions → Option (Except PacketError TcpOptions)
  | fuel, offset, parsed =>
    if offset < options.length then
      match fuel with
      | 0 => none
      | fuel + 1 =>
        match options[offset]? with
        | none => none
        | some kind =>
          if kind = 0 then some (.ok parsed)
          else if kind = 1 then parseOptionsFrom options fuel (offset + 1) parsed
          else
            match options[offset + 1]? with
            | none => some (.error .invalidHeader)
            | some length =>
              let stop := offset + length.toNat
              if length < 2 then some (.error .invalidHeader)
              else if stop > usizeMax then some (.error .invalidLength)
              else
                match slice options (offset + 2) stop with
                | none => some (.error .invalidHeader)
                | some body =>
                  if kind = 2 then
                    if length ≠ 4 then some (.error .invalidHeader)
                    else
                      match readU16 body 0 with
                      | none => none
                      | some mss => parseOptionsFrom options fuel stop { parsed with maximumSegmentSize := some mss }
                  else parseOptionsFrom options fuel stop parsed
    else some (.ok parsed)

theorem parseOptionsFrom_isSome {options : List UInt8} {fuel offset : ℕ} (parsed : TcpOptions)
    (h : options.length ≤ offset + fuel) : ∃ r, parseOptionsFrom options fuel offset parsed = some r := by
  induction fuel generalizing offset parsed with
  | zero =>
    unfold parseOptionsFrom
    rw [if_neg (by omega)]
    exact ⟨_, rfl⟩
  | succ fuel ih =>
    unfold parseOptionsFrom
    split
    next hlt =>
      rw [getElem?_eq_getElem hlt]
      dsimp only
      split
      · exact ⟨_, rfl⟩
      split
      · exact ih parsed (by omega)
      split
      · exact ⟨_, rfl⟩
      rename_i length hlength
      split
      · exact ⟨_, rfl⟩
      rename_i h2
      have htwo : 2 ≤ length.toNat := by
        rw [UInt8.lt_iff_toNat_lt] at h2
        exact not_lt.mp h2
      split
      · exact ⟨_, rfl⟩
      split
      · exact ⟨_, rfl⟩
      rename_i body hbody
      split
      · split
        · exact ⟨_, rfl⟩
        next hfour =>
          -- a maximum segment size option has a body of two bytes
          have hlen := slice_length hbody
          have h4 : length.toNat = 4 := congrArg UInt8.toNat (not_not.mp hfour)
          obtain ⟨mss, hmss⟩ := @readU16_isSome body 0 (by omega)
          rw [hmss]
          exact ih _ (by omega)
      · exact ih _ (by omega)
    · exact ⟨_, rfl⟩

/-- Every iteration moves the offset forward, so `options.len()` of them are enough. -/
def parseOptions (options : List UInt8) : Option (Except PacketError TcpOptions) :=
  parseOptionsFrom options options.length 0 {}

theorem parseOptions_isSome (options : List UInt8) : ∃ r, parseOptions options = some r :=
  parseOptionsFrom_isSome {} (by omega)

namespace TcpSegment

/-! ## Encoding -/

variable (s : TcpSegment)

def writeHeader (headerLength : ℕ) (out : List UInt8) : List UInt8 :=
  let out := splice out 0 (List.replicate headerLength 0)
  let out := splice out 0 (toBe16 s.sourcePort)
  let out := splice out 2 (toBe16 s.destinationPort)
  let out := splice out 4 (toBe32 s.sequence)
  let out := splice out 8 (toBe32 s.acknowledgment)
  let out := splice out 12 [UInt8.ofNat (headerLength / 4) <<< 4]
  let out := splice out 13 [(s.flags &&& 0xff).toUInt8]
  let out := if hasFlag s.flags 0x100 then splice out 12 [out.getD 12 0 ||| 1] else out
  let out := splice out 14 (toBe16 s.window)
  let out := splice out 18 (toBe16 s.urgentPointer)
  match s.options.maximumSegmentSize with
  | some mss => splice (splice out 20 [2, 4]) 22 (toBe16 mss)
  | none => out

def headerLength : ℕ :=
  tcpHeaderLen + (if s.options.maximumSegmentSize.isSome then 4 else 0)

/-- `encode` into a buffer: the buffer afterwards and the result. -/
def encode (source destination : Address) (out : List UInt8) : List UInt8 × Except PacketError ℕ :=
  let total := s.headerLength + s.payload.length
  if hasFlag s.flags (~~~tcpSupportedFlags) ∨ s.urgentPointer ≠ 0 then (out, .error .unsupported)
  else if total > 65535 then (out, .error .invalidLength)
  else if out.length < total then (out, .error .truncated)
  else
    let out := s.writeHeader s.headerLength out
    let out := splice out s.headerLength s.payload
    let checksum := tcpChecksum source destination (UInt16.ofNat total) (out.take total)
    (splice out 16 (toBe16 checksum), .ok total)

/-! ## Decoding -/

/-- The fields of a packet whose header has been checked. -/
def readFields (packet : List UInt8) (headerLength : ℕ) (flags urgentPointer : UInt16) :
    Option (Except PacketError TcpSegment) := do
  let sourcePort ← readU16 packet 0
  let destinationPort ← readU16 packet 2
  let sequence ← readU32 packet 4
  let acknowledgment ← readU32 packet 8
  let window ← readU16 packet 14
  let area ← slice packet tcpHeaderLen headerLength
  let options ← parseOptions area
  let payload ← slice packet headerLength packet.length
  return options.map fun options =>
    { sourcePort, destinationPort, sequence, acknowledgment, flags, window, urgentPointer, options, payload }

/-- `decode`; `none` when an index or a slice is out of range. -/
def decode (source destination : Address) (packet : List UInt8) : Option (Except PacketError TcpSegment) :=
  if packet.length < tcpHeaderLen then some (.error .truncated)
  else
    packet[12]?.bind fun b12 =>
      let dataOffset := (b12 >>> 4).toNat
      let headerLength := dataOffset * 4
      if ¬ (5 ≤ dataOffset ∧ dataOffset ≤ 15) then some (.error .invalidHeader)
      else if headerLength > packet.length then some (.error .truncated)
      else if packet.length > 65535 then some (.error .invalidLength)
      else if tcpChecksum source destination (UInt16.ofNat packet.length) packet ≠ 0 then
        some (.error .invalidChecksum)
      else
        packet[13]?.bind fun b13 =>
          let flags := b13.toUInt16 ||| ((b12 &&& 1).toUInt16 <<< 8)
          (readU16 packet 18).bind fun urgentPointer =>
            if hasFlag flags (~~~tcpSupportedFlags) ∨ urgentPointer ≠ 0 then some (.error .unsupported)
            else readFields packet headerLength flags urgentPointer

/-! ## Decoding reads inside the packet -/

theorem readFields_isSome {packet : List UInt8} {headerLength : ℕ} (h20 : tcpHeaderLen ≤ headerLength)
    (hlen : headerLength ≤ packet.length) (flags urgentPointer : UInt16) :
    ∃ r, readFields packet headerLength flags urgentPointer = some r ∧
      ∀ s, r = .ok s → s.payload = packet.drop headerLength ∧
        parseOptions ((packet.take headerLength).drop tcpHeaderLen) = some (.ok s.options) := by
  have hp : 20 ≤ packet.length := h20.trans hlen
  obtain ⟨sourcePort, h0⟩ := @readU16_isSome packet 0 (by omega)
  obtain ⟨destinationPort, h2⟩ := @readU16_isSome packet 2 (by omega)
  obtain ⟨sequence, h4⟩ := @readU32_isSome packet 4 (by omega)
  obtain ⟨acknowledgment, h8⟩ := @readU32_isSome packet 8 (by omega)
  obtain ⟨window, h14⟩ := @readU16_isSome packet 14 (by omega)
  obtain ⟨options, ho⟩ := parseOptions_isSome ((packet.take headerLength).drop tcpHeaderLen)
  have hpayload := slice_isSome hlen (le_refl packet.length)
  rw [take_length] at hpayload
  unfold readFields
  simp only [h0, h2, h4, h8, h14, slice_isSome h20 hlen, ho, hpayload, Option.bind_eq_bind,
    Option.bind_some, Option.pure_def]
  refine ⟨_, rfl, ?_⟩
  intro s hs
  cases options with
  | error e => cases hs
  | ok options =>
    cases hs
    exact ⟨rfl, rfl⟩

theorem decode_isSome (source destination : Address) (packet : List UInt8) :
    ∃ r, decode source destination packet = some r ∧
      ∀ s, r = .ok s → ∃ (b12 : UInt8) (headerLength : ℕ), packet[12]? = some b12 ∧ headerLength = (b12 >>> 4).toNat * 4 ∧
        tcpHeaderLen ≤ headerLength ∧ headerLength ≤ packet.length ∧ s.payload = packet.drop headerLength ∧
        parseOptions ((packet.take headerLength).drop tcpHeaderLen) = some (.ok s.options) := by
  unfold decode
  split
  · exact ⟨_, rfl, nofun⟩
  rename_i hp
  have h20 : 20 ≤ packet.length := not_lt.mp hp
  have h12 : packet[12]? = some packet[12] := getElem?_eq_getElem (by omega)
  rw [h12, bind_some]
  dsimp only
  split
  · exact ⟨_, rfl, nofun⟩
  rename_i hoffset
  split
  · exact ⟨_, rfl, nofun⟩
  rename_i hlen
  split
  · exact ⟨_, rfl, nofun⟩
  split
  · exact ⟨_, rfl, nofun⟩
  obtain ⟨urgentPointer, h18⟩ := @readU16_isSome packet 18 (by omega)
  rw [getElem?_eq_getElem (show 13 < packet.length by omega), bind_some, h18, bind_some]
  split
  · exact ⟨_, rfl, nofun⟩
  have hh : tcpHeaderLen ≤ (packet[12] >>> 4).toNat * 4 := by
    change 20 ≤ _
    omega
  obtain ⟨r, hr, hok⟩ := readFields_isSome hh (not_lt.mp hlen) _ urgentPointer
  exact ⟨r, hr, fun s hs => ⟨_, _, rfl, rfl, hh, not_lt.mp hlen, hok s hs⟩⟩

/-! ## The bytes of a segment -/

def optionBytes : List UInt8 :=
  match s.options.maximumSegmentSize with
  | some mss => [2, 4] ++ toBe16 mss
  | none => []

/-- The header of a segment with supported flags, before its checksum. -/
def frontBytes : List UInt8 :=
  toBe16 s.sourcePort ++ toBe16 s.destinationPort ++ toBe32 s.sequence ++ toBe32 s.acknowledgment ++
    [UInt8.ofNat (s.headerLength / 4) <<< 4, (s.flags &&& 0xff).toUInt8] ++ toBe16 s.window

variable (checksum : UInt16)

def headerBytes : List UInt8 :=
  s.frontBytes ++ (toBe16 checksum ++ (toBe16 s.urgentPointer ++ s.optionBytes))

theorem headerLength_cases : (s.options.maximumSegmentSize = none ∧ s.headerLength = 20 ∧ s.optionBytes = []) ∨
    ∃ mss, s.options.maximumSegmentSize = some mss ∧ s.headerLength = 24 ∧ s.optionBytes = [2, 4] ++ toBe16 mss := by
  unfold headerLength optionBytes
  cases s.options.maximumSegmentSize with
  | none => exact .inl ⟨rfl, rfl, rfl⟩
  | some mss => exact .inr ⟨mss, rfl, rfl, rfl⟩

theorem headerBytes_length : (s.headerBytes checksum).length = s.headerLength := by
  unfold headerBytes frontBytes
  obtain ⟨_, hh, ho⟩ | ⟨mss, _, hh, ho⟩ := s.headerLength_cases <;> rw [hh, ho] <;> rfl

theorem supported_flags {flags : UInt16} (h : hasFlag flags (~~~tcpSupportedFlags) = false) :
    flags &&& tcpSupportedFlags = flags := by
  have h0 : flags &&& ~~~tcpSupportedFlags = 0 := by simpa [hasFlag] using h
  have hm : tcpSupportedFlags ||| ~~~tcpSupportedFlags = 0xffff := by decide
  calc flags &&& tcpSupportedFlags
      = (flags &&& tcpSupportedFlags) ||| (flags &&& ~~~tcpSupportedFlags) := by rw [h0, UInt16.or_zero]
    _ = flags &&& (tcpSupportedFlags ||| ~~~tcpSupportedFlags) := by
        apply UInt16.toBitVec_inj.mp
        rw [UInt16.toBitVec_or, UInt16.toBitVec_and, UInt16.toBitVec_and, UInt16.toBitVec_and, UInt16.toBitVec_or]
        exact BitVec.and_or_distrib_left.symm
    _ = flags := by rw [hm]; exact UInt16.and_neg_one

theorem writeHeader_eq {s : TcpSegment} (h : hasFlag s.flags (~~~tcpSupportedFlags) = false) (out : List UInt8) :
    s.writeHeader s.headerLength out = s.headerBytes 0 ++ out.drop s.headerLength := by
  have h100 : hasFlag s.flags 0x100 = false := by
    unfold hasFlag
    rw [← supported_flags h, UInt16.and_assoc]
    simp [show tcpSupportedFlags &&& 0x100 = 0 by decide]
  unfold writeHeader headerBytes frontBytes
  simp only [h100]
  obtain ⟨hm, hh, ho⟩ | ⟨mss, hm, hh, ho⟩ := s.headerLength_cases <;> rw [hm, hh, ho] <;>
    simp [splice, toBe16, toBe32, replicate]

theorem splice_checksum (rest : List UInt8) :
    splice (s.headerBytes 0 ++ rest) 16 (toBe16 checksum) = s.headerBytes checksum ++ rest := by
  unfold headerBytes frontBytes
  obtain ⟨_, hh, ho⟩ | ⟨mss, _, hh, ho⟩ := s.headerLength_cases <;> rw [hh, ho] <;> rfl

/-- The segments `encode` takes, and the buffers it can write them to. -/
def Encodable (out : List UInt8) : Prop :=
  hasFlag s.flags (~~~tcpSupportedFlags) = false ∧ s.urgentPointer = 0 ∧
    s.headerLength + s.payload.length ≤ 65535 ∧ s.headerLength + s.payload.length ≤ out.length

def checksumOf (source destination : Address) : UInt16 :=
  tcpChecksum source destination (UInt16.ofNat (s.headerLength + s.payload.length)) (s.headerBytes 0 ++ s.payload)

theorem encode_of_encodable {s : TcpSegment} {out : List UInt8} (h : s.Encodable out) (source destination : Address) :
    s.encode source destination out = (s.headerBytes (s.checksumOf source destination) ++
        (s.payload ++ out.drop (s.headerLength + s.payload.length)),
        .ok (s.headerLength + s.payload.length)) := by
  obtain ⟨hf, hu, ht, ho⟩ := h
  have hpayload : splice (s.headerBytes 0 ++ out.drop s.headerLength) s.headerLength s.payload =
      s.headerBytes 0 ++ (s.payload ++ out.drop (s.headerLength + s.payload.length)) := by
    have he := splice_end (s.headerBytes 0) (out.drop s.headerLength) s.payload
    rw [headerBytes_length, drop_drop, append_assoc] at he
    exact he
  have htake : (s.headerBytes 0 ++ (s.payload ++ out.drop (s.headerLength + s.payload.length))).take
      (s.headerLength + s.payload.length) = s.headerBytes 0 ++ s.payload := by
    rw [← append_assoc]
    apply take_left'
    rw [length_append, headerBytes_length]
  unfold encode checksumOf
  rw [if_neg (by simp [hf, hu]), if_neg (not_lt.mpr ht), if_neg (not_lt.mpr ho)]
  dsimp only
  rw [writeHeader_eq hf, hpayload, htake, splice_checksum]

theorem encodable_of_encode {s : TcpSegment} {source destination : Address} {out out' : List UInt8} {n : ℕ}
    (h : s.encode source destination out = (out', .ok n)) : s.Encodable out := by
  unfold encode at h
  dsimp only at h
  split at h
  · cases h
  rename_i hf
  split at h
  · cases h
  rename_i ht
  split at h
  · cases h
  rename_i ho
  obtain ⟨hflags, hurgent⟩ := not_or.mp hf
  exact ⟨by simpa using hflags, not_not.mp hurgent, not_lt.mp ht, not_lt.mp ho⟩

/-! ## The checksum of a segment -/

theorem tcpChecksum_headerBytes {s : TcpSegment} (h : s.headerLength + s.payload.length ≤ 65535)
    (source destination : Address) :
    tcpChecksum source destination (UInt16.ofNat (s.headerLength + s.payload.length))
      (s.headerBytes (s.checksumOf source destination) ++ s.payload) = 0 := by
  have hpos := pseudoHeader_pos source destination (show tcpProtocol.toNat ≠ 0 by decide)
    (UInt16.ofNat (s.headerLength + s.payload.length))
  have hfront : s.frontBytes.length = 16 := rfl
  have hassoc : ∀ checksum, s.headerBytes checksum ++ s.payload =
      s.frontBytes ++ (toBe16 checksum ++ (toBe16 s.urgentPointer ++ s.optionBytes ++ s.payload)) := by
    intro checksum
    simp only [headerBytes, append_assoc]
  have hlen : 18 + (toBe16 s.urgentPointer ++ s.optionBytes ++ s.payload).length =
      s.headerLength + s.payload.length := by
    have hh := congrArg length (hassoc 0)
    rw [length_append, headerBytes_length, length_append, length_append, hfront, toBe16_length] at hh
    omega
  have hc : s.checksumOf source destination = tcpChecksum source destination
      (UInt16.ofNat (s.headerLength + s.payload.length)) (s.headerBytes 0 ++ s.payload) := rfl
  unfold tcpChecksum partialChecksum at hc ⊢
  rw [hassoc] at hc ⊢
  apply complement_field (fun a b => saturatingAdd32_toNat) (by rw [hfront])
  · rw [pseudoHeader_length]
    omega
  · omega
  · exact .inl hc

/-! ## The round trip -/

theorem flags_round_trip {flags : UInt16} (h : hasFlag flags (~~~tcpSupportedFlags) = false) {b12 : UInt8}
    (hb : b12 &&& 1 = 0) : (flags &&& 0xff).toUInt8.toUInt16 ||| ((b12 &&& 1).toUInt16 <<< 8) = flags := by
  have hlt : flags.toNat < 256 := by
    have hle : flags.toNat &&& tcpSupportedFlags.toNat ≤ tcpSupportedFlags.toNat := Nat.and_le_right
    rw [← UInt16.toNat_and, supported_flags h] at hle
    exact lt_of_le_of_lt hle (by decide)
  have hz : (0 : UInt8).toUInt16 <<< 8 = 0 := by decide
  rw [hb, hz, UInt16.or_zero]
  apply UInt16.toNat_inj.mp
  rw [UInt8.toNat_toUInt16, UInt16.toNat_toUInt8, UInt16.toNat_and]
  change (flags.toNat &&& (2 ^ 8 - 1)) % 256 = flags.toNat
  rw [Nat.and_two_pow_sub_one_eq_mod]
  omega

theorem parseOptions_optionBytes : parseOptions s.optionBytes = some (.ok s.options) := by
  unfold optionBytes
  cases hm : s.options with
  | mk mss =>
    cases mss with
    | none => rfl
    | some mss =>
      have hp : parseOptions ([2, 4] ++ toBe16 mss) =
          some (.ok { maximumSegmentSize := some (ofBe16 (UInt8.ofNat (mss.toNat / 256))
            (UInt8.ofNat (mss.toNat % 256))) }) := rfl
      rw [ofBe16_toBe16] at hp
      exact hp

theorem offset_round_trip : ((UInt8.ofNat (s.headerLength / 4) <<< 4) >>> 4).toNat * 4 = s.headerLength ∧
      (UInt8.ofNat (s.headerLength / 4) <<< 4) &&& 1 = 0 ∧ 20 ≤ s.headerLength ∧ s.headerLength ≤ 24 := by
  obtain ⟨_, hh, _⟩ | ⟨mss, _, hh, _⟩ := s.headerLength_cases <;> rw [hh] <;> decide

theorem readFields_headerBytes :
    readFields (s.headerBytes checksum ++ s.payload) s.headerLength s.flags s.urgentPointer = some (.ok s) := by
  obtain ⟨_, _, h20, _⟩ := s.offset_round_trip
  have hlen : (s.headerBytes checksum ++ s.payload).length = s.headerLength + s.payload.length := by
    rw [length_append, headerBytes_length]
  have h0 : readU16 (s.headerBytes checksum ++ s.payload) 0 = some s.sourcePort :=
    congrArg some (ofBe16_toBe16 s.sourcePort)
  have h2 : readU16 (s.headerBytes checksum ++ s.payload) 2 = some s.destinationPort :=
    congrArg some (ofBe16_toBe16 s.destinationPort)
  have h4 : readU32 (s.headerBytes checksum ++ s.payload) 4 = some s.sequence :=
    congrArg some (ofBe32_toBe32 s.sequence)
  have h8 : readU32 (s.headerBytes checksum ++ s.payload) 8 = some s.acknowledgment :=
    congrArg some (ofBe32_toBe32 s.acknowledgment)
  have h14 : readU16 (s.headerBytes checksum ++ s.payload) 14 = some s.window :=
    congrArg some (ofBe16_toBe16 s.window)
  have harea : slice (s.headerBytes checksum ++ s.payload) tcpHeaderLen s.headerLength = some s.optionBytes := by
    have hin : s.headerLength ≤ (s.headerBytes checksum ++ s.payload).length := by omega
    have hslice : slice (s.headerBytes checksum ++ s.payload) tcpHeaderLen s.headerLength = _ := slice_isSome h20 hin
    rw [hslice, take_left' (headerBytes_length s checksum)]
    rfl
  have hpayload : slice (s.headerBytes checksum ++ s.payload) s.headerLength
      (s.headerBytes checksum ++ s.payload).length = some s.payload := by
    rw [slice_isSome (by omega) le_rfl, take_length, drop_left' (headerBytes_length s checksum)]
  unfold readFields
  simp only [h0, h2, h4, h8, h14, harea, hpayload, parseOptions_optionBytes, Option.bind_eq_bind,
    Option.bind_some, Option.pure_def]
  rfl

theorem decode_headerBytes {s : TcpSegment} (hf : hasFlag s.flags (~~~tcpSupportedFlags) = false)
    (hu : s.urgentPointer = 0) (ht : s.headerLength + s.payload.length ≤ 65535) (source destination : Address) :
    decode source destination (s.headerBytes (s.checksumOf source destination) ++ s.payload) = some (.ok s) := by
  have hsum := tcpChecksum_headerBytes ht source destination
  have hlen : (s.headerBytes (s.checksumOf source destination) ++ s.payload).length =
      s.headerLength + s.payload.length := by rw [length_append, headerBytes_length]
  have hfields := s.readFields_headerBytes (s.checksumOf source destination)
  obtain ⟨hoffset, hlow, h20, h24⟩ := s.offset_round_trip
  have h12 : (s.headerBytes (s.checksumOf source destination) ++ s.payload)[12]? =
      some (UInt8.ofNat (s.headerLength / 4) <<< 4) := rfl
  have h13 : (s.headerBytes (s.checksumOf source destination) ++ s.payload)[13]? =
      some (s.flags &&& 0xff).toUInt8 := rfl
  have h18 : readU16 (s.headerBytes (s.checksumOf source destination) ++ s.payload) 18 = some s.urgentPointer :=
    congrArg some (ofBe16_toBe16 s.urgentPointer)
  unfold decode
  rw [if_neg (by rw [hlen]; exact not_lt.mpr (by change 20 ≤ _; omega)), h12, bind_some]
  dsimp only
  rw [hoffset, hlen, if_neg (by omega), if_neg (by omega), if_neg (by omega), if_neg (not_not.mpr hsum), h13,
    bind_some, h18, bind_some, flags_round_trip hf hlow, if_neg (by simp [hf, hu]), hfields]

/-- **The wire round trip.** `encode` succeeds exactly on supported segments that fit, `decode` returns them, and it
reads no byte outside any packet. -/
theorem wire_round_trip (source destination : Address) : (∀ (s : TcpSegment) (out : List UInt8),
      (s.Encodable out ↔ ∃ out' n, s.encode source destination out = (out', .ok n)) ∧
      ∀ out' n, s.encode source destination out = (out', .ok n) →
        decode source destination (out'.take n) = some (.ok s)) ∧
    ∀ packet : List UInt8, ∃ r, decode source destination packet = some r ∧
      ∀ s, r = .ok s → ∃ (b12 : UInt8) (headerLength : ℕ), packet[12]? = some b12 ∧
        headerLength = (b12 >>> 4).toNat * 4 ∧ tcpHeaderLen ≤ headerLength ∧
        headerLength + s.payload.length = packet.length ∧ packet = packet.take headerLength ++ s.payload ∧
        parseOptions ((packet.take headerLength).drop tcpHeaderLen) = some (.ok s.options) := by
  refine ⟨fun s out => ⟨⟨fun h => ⟨_, _, encode_of_encodable h source destination⟩, ?_⟩, ?_⟩, ?_⟩
  · rintro ⟨out', n, h⟩
    exact encodable_of_encode h
  · intro out' n h
    have henc := encodable_of_encode h
    rw [encode_of_encodable henc source destination] at h
    cases h
    rw [← append_assoc, take_left' (by rw [length_append, headerBytes_length])]
    exact decode_headerBytes henc.1 henc.2.1 henc.2.2.1 source destination
  · intro packet
    obtain ⟨r, hr, hok⟩ := decode_isSome source destination packet
    refine ⟨r, hr, fun s hs => ?_⟩
    obtain ⟨b12, headerLength, h12, hh, h20, hlen, hpayload, hoptions⟩ := hok s hs
    refine ⟨b12, headerLength, h12, hh, h20, ?_, ?_, hoptions⟩
    · rw [hpayload, length_drop]
      omega
    · rw [hpayload, take_append_drop]

theorem decode_checked {source destination : Address} {packet : List UInt8} {s : TcpSegment}
    (h : decode source destination packet = some (.ok s)) :
    packet.length ≤ 65535 ∧ tcpChecksum source destination (UInt16.ofNat packet.length) packet = 0 := by
  simp only [decode, bind_eq_some_iff, guard_eq_ok] at h
  obtain ⟨-, _, -, -, -, hlen, hsum, -⟩ := h
  exact ⟨not_lt.mp hlen, not_not.mp hsum⟩

/-- No byte of a segment, in its header, its options or its payload, can be changed on the way. -/
theorem corrupted_segment_rejected (source destination : Address) (front rest : List UInt8) (a b : UInt8)
    (s : TcpSegment) (hs : decode source destination (front ++ a :: rest) = some (.ok s)) (hne : a ≠ b) :
    ∃ e, decode source destination (front ++ b :: rest) = some (.error e) := by
  obtain ⟨r, hr, -⟩ := decode_isSome source destination (front ++ b :: rest)
  cases r with
  | error e => exact ⟨e, hr⟩
  | ok s' =>
    obtain ⟨hlen, hsum⟩ := decode_checked hs
    obtain ⟨-, hsum'⟩ := decode_checked hr
    have hlength : (front ++ b :: rest).length = (front ++ a :: rest).length := by simp
    rw [hlength] at hsum'
    refine absurd (eq_of_complement (fun _ _ => saturatingAdd32_toNat) ?_ hsum hsum') hne
    rw [pseudoHeader_length]
    omega

end TcpSegment

namespace WireFixture

def syn : TcpSegment :=
  { sourcePort := 40000, destinationPort := 80, sequence := 1, acknowledgment := 0, flags := tcpFlagSyn,
    window := 4096, urgentPointer := 0, options := { maximumSegmentSize := some 1460 }, payload := [0x6f, 0x64, 0x64] }

def near : Address := ⟨10, 0, 2, 15⟩
def far : Address := ⟨10, 0, 2, 2⟩

theorem wire_round_trip_syn : syn.Encodable (List.replicate 64 0xaa) ∧
      TcpSegment.decode near far ((syn.encode near far (List.replicate 64 0xaa)).1.take 27) = some (.ok syn) :=
  ⟨⟨rfl, rfl, by decide, by decide⟩, ((TcpSegment.wire_round_trip near far).1 syn (replicate 64 0xaa)).2 _ 27 rfl⟩

theorem corrupted_segment_rejected_syn :
    ∃ e, TcpSegment.decode near far (syn.frontBytes.take 13 ++ 3 :: (syn.frontBytes.drop 14 ++
      (toBe16 (syn.checksumOf near far) ++ (toBe16 0 ++ syn.optionBytes ++ syn.payload)))) = some (.error e) := by
  have hsyn := @TcpSegment.decode_headerBytes syn rfl rfl (by decide) near far
  generalize syn.checksumOf near far = checksum at hsyn ⊢
  exact TcpSegment.corrupted_segment_rejected near far _ _ 2 3 syn hsyn (by decide)

end WireFixture

end MochiSyscalls.NetworkStack
