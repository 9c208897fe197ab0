import MochiSyscalls.NetworkStack.Ipv4

/-! # UDP datagrams in IPv4 packets

`UdpDatagram::encode` and `UdpDatagram::decode` with `partial` and `checksum_parts_valid`
(`crates/network-stack/src/udp.rs`). A zero checksum field means that the sender computed none, so
a checksum that comes out as zero is sent as `0xffff`. -/

namespace MochiSyscalls.NetworkStack
open Foundations Words Bytes OnesComplement List
set_option autoImplicit false

structure UdpDatagram where
  sourcePort : UInt16
  destinationPort : UInt16
  payload : List UInt8
  deriving DecidableEq, Repr

/-- `partial` of `udp.rs`. -/
def partialSum (b : List UInt8) : UInt32 := sumWords (· + ·) 0 b

def checksumPartsValid (a b : List UInt8) : Bool := complement (partialSum a + partialSum b) == 0

namespace UdpDatagram

/-! ## Encoding and decoding -/

variable (d : UdpDatagram)

def writeHeader (len : UInt16) (out : List UInt8) : List UInt8 :=
  let out := splice out 0 (List.replicate 8 0)
  let out := splice out 0 (toBe16 d.sourcePort)
  let out := splice out 2 (toBe16 d.destinationPort)
  splice out 4 (toBe16 len)

/-- `encode` into a buffer: the buffer afterwards and the result. -/
def encode (source destination : Address) (out : List UInt8) : List UInt8 × Except PacketError ℕ :=
  let len := 8 + d.payload.length
  if len > 65535 then (out, .error .invalidLength)
  else if out.length < len then (out, .error .truncated)
  else
    let out := d.writeHeader (UInt16.ofNat len) out
    let out := splice out 8 d.payload
    let c := complement (partialSum (pseudoHeader source destination 17 (UInt16.ofNat len)) +
      partialSum (out.take len))
    let c := if c = 0 then 0xffff else c
    (splice out 6 (toBe16 c), .ok len)

/-- `decode`; `none` when an index or a slice is out of range. -/
def decode (source destination : Address) (b : List UInt8) : Option (Except PacketError UdpDatagram) :=
  if b.length < 8 then some (.error .truncated)
  else
    (readU16 b 4).bind fun len16 =>
      let len := len16.toNat
      if len < 8 ∨ len > b.length then some (.error .invalidLength)
      else
        (readU16 b 6).bind fun received =>
          (slice b 0 len).bind fun covered =>
            if received ≠ 0 ∧
                ¬ checksumPartsValid (pseudoHeader source destination 17 (UInt16.ofNat len)) covered then
              some (.error .invalidChecksum)
            else do
              let sourcePort ← readU16 b 0
              let destinationPort ← readU16 b 2
              let payload ← slice b 8 len
              return .ok { sourcePort, destinationPort, payload }

/-! ## The bytes of a datagram -/

def frontBytes : List UInt8 :=
  toBe16 d.sourcePort ++ toBe16 d.destinationPort ++ toBe16 (UInt16.ofNat (8 + d.payload.length))

variable (c : UInt16)

def bytes : List UInt8 := d.frontBytes ++ (toBe16 c ++ d.payload)

theorem frontBytes_length : d.frontBytes.length = 6 := rfl

theorem bytes_length : (d.bytes c).length = 8 + d.payload.length := by
  rw [bytes, length_append, length_append, frontBytes_length, toBe16_length]
  omega

/-- The checksum of a datagram, before a zero is replaced. -/
def checksumOf (source destination : Address) : UInt16 :=
  complement (partialSum (pseudoHeader source destination 17 (UInt16.ofNat (8 + d.payload.length))) +
    partialSum (d.bytes 0))

def sentChecksum (source destination : Address) : UInt16 :=
  if d.checksumOf source destination = 0 then 0xffff else d.checksumOf source destination

theorem splice_payload (out : List UInt8) :
    splice (d.writeHeader (UInt16.ofNat (8 + d.payload.length)) out) 8 d.payload =
      d.bytes 0 ++ out.drop (8 + d.payload.length) := by
  have hw : d.writeHeader (UInt16.ofNat (8 + d.payload.length)) out = (d.frontBytes ++ toBe16 0) ++ out.drop 8 := by
    simp [writeHeader, frontBytes, splice, toBe16, replicate]
  have hs := splice_end (d.frontBytes ++ toBe16 0) (out.drop 8) d.payload
  rw [drop_drop, append_assoc d.frontBytes] at hs
  rw [hw]
  exact hs

theorem splice_checksum (rest : List UInt8) : splice (d.bytes 0 ++ rest) 6 (toBe16 c) = d.bytes c ++ rest := rfl

theorem encode_eq_ok {d : UdpDatagram} {source destination : Address} {out out' : List UInt8} {n : ℕ}
    (he : d.encode source destination out = (out', .ok n)) :
    n = 8 + d.payload.length ∧ n ≤ 65535 ∧ out'.take n = d.bytes (d.sentChecksum source destination) := by
  unfold encode at he
  dsimp only at he
  split at he
  · cases he
  rename_i hmax
  split at he
  · cases he
  obtain ⟨hout, hn⟩ := Prod.mk.inj he
  have hn : 8 + d.payload.length = n := Except.ok.inj hn
  subst hn
  refine ⟨rfl, not_lt.mp hmax, ?_⟩
  rw [splice_payload, take_left' (d.bytes_length 0), splice_checksum] at hout
  rw [← hout]
  exact take_left' (d.bytes_length _)

/-! ## The checksum of a datagram -/

theorem sentChecksum_ne_zero (source destination : Address) : d.sentChecksum source destination ≠ 0 := by
  unfold sentChecksum
  split
  · decide
  · assumption

section

variable {d : UdpDatagram} (h : 8 + d.payload.length ≤ 65535) (source destination : Address)
include h

theorem checksumPartsValid_bytes :
    checksumPartsValid (pseudoHeader source destination 17 (UInt16.ofNat (8 + d.payload.length)))
      (d.bytes (d.sentChecksum source destination)) = true := by
  have hpos := pseudoHeader_pos source destination (show (17 : UInt8).toNat ≠ 0 by decide)
    (UInt16.ofNat (8 + d.payload.length))
  unfold checksumPartsValid
  rw [beq_iff_eq]
  apply complement_field (fun _ _ => add32_toNat) (by rw [frontBytes_length])
  · rw [pseudoHeader_length, frontBytes_length]
    omega
  · omega
  · -- the field holds the complement, or `0xffff` for a complement of zero
    unfold sentChecksum
    split
    next hz => exact .inr ⟨hz, rfl⟩
    · exact .inl rfl

theorem decode_bytes : decode source destination (d.bytes (d.sentChecksum source destination)) = some (.ok d) := by
  have hvalid := checksumPartsValid_bytes h source destination
  have hlen := d.bytes_length (d.sentChecksum source destination)
  have h16 : (UInt16.ofNat (8 + d.payload.length)).toNat = 8 + d.payload.length :=
    UInt16.toNat_ofNat_of_lt' (by change _ < 65536; omega)
  generalize d.sentChecksum source destination = c at hvalid hlen
  have h0 : readU16 (d.bytes c) 0 = some d.sourcePort := congrArg some (ofBe16_toBe16 d.sourcePort)
  have h2 : readU16 (d.bytes c) 2 = some d.destinationPort := congrArg some (ofBe16_toBe16 d.destinationPort)
  have h4 : readU16 (d.bytes c) 4 = some (UInt16.ofNat (8 + d.payload.length)) :=
    congrArg some (ofBe16_toBe16 _)
  have h6 : readU16 (d.bytes c) 6 = some c := congrArg some (ofBe16_toBe16 c)
  have hwhole : (d.bytes c).take (8 + d.payload.length) = d.bytes c := by rw [← hlen, take_length]
  have hpayload : slice (d.bytes c) 8 (8 + d.payload.length) = some d.payload := by
    rw [slice_isSome (by omega) (by omega), hwhole]
    rfl
  unfold decode
  rw [if_neg (by omega), h4, Option.bind_some]
  dsimp only
  rw [h16, if_neg (by omega), h6, Option.bind_some, slice_isSome (Nat.zero_le _) (by omega), Option.bind_some,
    drop_zero, hwhole, if_neg fun hc => hc.2 hvalid]
  simp only [h0, h2, hpayload, Option.bind_eq_bind, Option.bind_some, Option.pure_def]

end

/-- **UDP in IPv4.** What both encoders produce, padded by anything, decodes to what was encoded; the checksum on the
wire is never zero. -/
theorem ipv4_round_trip (h : Ipv4Header) (d : UdpDatagram) (padding : List UInt8)
    {udpOut udpOut' ipOut ipOut' : List UInt8} {n m : ℕ} (hprotocol : h.protocol = 17) (httl : h.ttl ≠ 0)
    (hudp : d.encode h.source h.destination udpOut = (udpOut', .ok n))
    (hip : h.encode (udpOut'.take n) ipOut = (ipOut', .ok m)) :
    ∃ h' b, Ipv4Header.decode (ipOut'.take m ++ padding) = some (.ok (h', b)) ∧ h' = h ∧ h'.protocol = 17 ∧
      readU16 b 6 = some (d.sentChecksum h.source h.destination) ∧ d.sentChecksum h.source h.destination ≠ 0 ∧
      (d.checksumOf h.source h.destination = 0 → d.sentChecksum h.source h.destination = 0xffff) ∧
      decode h'.source h'.destination b = some (.ok d) := by
  obtain ⟨rfl, hmax, hbytes⟩ := encode_eq_ok hudp
  rw [hbytes] at hip
  obtain ⟨rfl, hmax', hpacket⟩ := Ipv4Header.encode_eq_ok hip
  rw [hpacket]
  refine ⟨h, d.bytes (d.sentChecksum h.source h.destination), Ipv4Header.decode_headerBytes httl hmax' padding,
    rfl, hprotocol, congrArg some (ofBe16_toBe16 _), sentChecksum_ne_zero d _ _, fun hz => if_pos hz,
    decode_bytes hmax h.source h.destination⟩

end UdpDatagram

namespace UdpFixture

def header : Ipv4Header :=
  { source := ⟨10, 0, 2, 15⟩, destination := ⟨10, 0, 2, 2⟩, protocol := 17, ttl := 64, identification := 7 }

def datagram : UdpDatagram := { sourcePort := 4000, destinationPort := 53, payload := [208, 242, 7] }

def encoded : List UInt8 × Except PacketError ℕ :=
  datagram.encode header.source header.destination (List.replicate 16 0xaa)

def packet : List UInt8 × Except PacketError ℕ := header.encode (encoded.1.take 11) (List.replicate 40 0xaa)

theorem ipv4_round_trip_zero_checksum : datagram.checksumOf header.source header.destination = 0 ∧
      ∃ h' b, Ipv4Header.decode (packet.1.take 31 ++ [1, 2, 3]) = some (.ok (h', b)) ∧ h' = header ∧
        h'.protocol = 17 ∧ readU16 b 6 = some 0xffff ∧
        UdpDatagram.decode h'.source h'.destination b = some (.ok datagram) := by
  have hz : datagram.checksumOf header.source header.destination = 0 := by decide
  refine ⟨hz, ?_⟩
  have hudp : datagram.encode header.source header.destination (replicate 16 0xaa) = (encoded.1, .ok 11) := rfl
  have hip : header.encode (encoded.1.take 11) (replicate 40 0xaa) = (packet.1, .ok 31) := rfl
  obtain ⟨h', b, hd, he, hp, hr, _, hs, hu⟩ :=
    UdpDatagram.ipv4_round_trip header datagram [1, 2, 3] rfl (by decide) hudp hip
  rw [hs hz] at hr
  exact ⟨h', b, hd, he, hp, hr, hu⟩

end UdpFixture

end MochiSyscalls.NetworkStack
