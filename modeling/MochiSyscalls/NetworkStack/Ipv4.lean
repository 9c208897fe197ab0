import MochiSyscalls.Foundations.Words
import MochiSyscalls.NetworkStack.Packet

/-! # IPv4 packets

`Ipv4Header::encode` and `Ipv4Header::decode` (`crates/network-stack/src/ipv4.rs`). A packet has a
header of twenty bytes without options and is never a fragment; the total length cuts the payload
out of a frame that may be padded. -/

namespace MochiSyscalls.NetworkStack
open Foundations Words Bytes OnesComplement List Option
set_option autoImplicit false

def ipv4HeaderLen : ℕ := 20

structure Ipv4Header where
  source : Address
  destination : Address
  protocol : UInt8
  ttl : UInt8
  identification : UInt16
  deriving DecidableEq, Repr

namespace Ipv4Header

/-! ## Encoding and decoding -/

variable (h : Ipv4Header) (total : UInt16)

/-- The writes of `encode` before the checksum. -/
def writeFields (out : List UInt8) : List UInt8 :=
  let out := splice out 0 (List.replicate 20 0)
  let out := splice out 0 [0x45]
  let out := splice out 2 (toBe16 total)
  let out := splice out 4 (toBe16 h.identification)
  let out := splice out 6 (toBe16 0x4000)
  let out := splice out 8 [h.ttl]
  let out := splice out 9 [h.protocol]
  let out := splice out 12 h.source.octets
  splice out 16 h.destination.octets

/-- `encode` into a buffer: the buffer afterwards and the result. -/
def encode (payload out : List UInt8) : List UInt8 × Except PacketError ℕ :=
  let len := ipv4HeaderLen + payload.length
  if len > 65535 then (out, .error .invalidLength)
  else if out.length < len then (out, .error .truncated)
  else
    let out := h.writeFields (UInt16.ofNat len) out
    let out := splice out 10 (toBe16 (checksum (out.take 20)))
    (splice out 20 payload, .ok len)

/-- The fields of a packet whose header has been checked. -/
def readFields (packet : List UInt8) (ttl : UInt8) (total : ℕ) : Option (Ipv4Header × List UInt8) := do
  let source ← readAddress packet 12
  let destination ← readAddress packet 16
  let protocol ← packet[9]?
  let identification ← readU16 packet 4
  let payload ← slice packet 20 total
  return ({ source, destination, protocol, ttl, identification }, payload)

/-- `decode`; `none` when an index or a slice is out of range. -/
def decode (packet : List UInt8) : Option (Except PacketError (Ipv4Header × List UInt8)) :=
  if packet.length < ipv4HeaderLen then some (.error .truncated)
  else
    packet[0]?.bind fun b0 =>
      if b0 ≠ 0x45 then some (.error .invalidHeader)
      else
        (readU16 packet 2).bind fun total16 =>
          let total := total16.toNat
          if total < ipv4HeaderLen ∨ total > packet.length then some (.error .invalidLength)
          else
            (readU16 packet 6).bind fun frag =>
              if frag &&& 0x3fff ≠ 0 then some (.error .unsupported)
              else
                packet[8]?.bind fun ttl =>
                  if ttl = 0 then some (.error .invalidHeader)
                  else
                    (slice packet 0 ipv4HeaderLen).bind fun header =>
                      if ¬ checksumValid header then some (.error .invalidChecksum)
                      else (readFields packet ttl total).map .ok

/-! ## The bytes of a packet -/

def frontBytes : List UInt8 :=
  [0x45, 0] ++ toBe16 total ++ toBe16 h.identification ++ toBe16 0x4000 ++ [h.ttl, h.protocol]

variable (sum : UInt16)

def headerBytes : List UInt8 :=
  h.frontBytes total ++ (toBe16 sum ++ (h.source.octets ++ h.destination.octets))

theorem headerBytes_length : (h.headerBytes total sum).length = 20 := rfl

theorem writeFields_eq (out : List UInt8) : h.writeFields total out = h.headerBytes total 0 ++ out.drop 20 := by
  simp [writeFields, headerBytes, frontBytes, splice, toBe16, Address.octets, replicate]

theorem splice_checksum (rest : List UInt8) :
    splice (h.headerBytes total 0 ++ rest) 10 (toBe16 sum) = h.headerBytes total sum ++ rest := rfl

theorem encode_eq_ok {h : Ipv4Header} {payload out out' : List UInt8} {n : ℕ}
    (he : h.encode payload out = (out', .ok n)) :
    n = 20 + payload.length ∧ n ≤ 65535 ∧
      out'.take n = h.headerBytes (UInt16.ofNat n) (checksum (h.headerBytes (UInt16.ofNat n) 0)) ++ payload := by
  unfold encode ipv4HeaderLen at he
  dsimp only at he
  split at he
  · cases he
  rename_i hmax
  split at he
  · cases he
  obtain ⟨hout, hn⟩ := Prod.mk.inj he
  have hn : 20 + payload.length = n := Except.ok.inj hn
  subst hn
  refine ⟨rfl, not_lt.mp hmax, ?_⟩
  have hs := splice_end (h.headerBytes (UInt16.ofNat (20 + payload.length))
    (checksum (h.headerBytes (UInt16.ofNat (20 + payload.length)) 0))) (out.drop 20) payload
  rw [headerBytes_length] at hs
  rw [writeFields_eq, take_left' (headerBytes_length h _ 0), splice_checksum, hs] at hout
  rw [← hout]
  apply take_left'
  rw [length_append, headerBytes_length]

theorem checksum_headerBytes : checksum (h.headerBytes total (checksum (h.headerBytes total 0))) = 0 := by
  have hfront : (h.frontBytes total).length = 10 := rfl
  have hpos : wordSum [] + wordSum (h.frontBytes total) ≠ 0 := by
    have hv : (0x45 : UInt8).toNat = 69 := rfl
    rw [frontBytes, append_assoc, append_assoc, append_assoc, cons_append, cons_append,
      wordSum, wordSum, hv]
    omega
  have haddresses : (h.source.octets ++ h.destination.octets).length = 8 := rfl
  have hlaw := @complement_field (· + ·) (fun _ _ => add32_toNat) [] (h.frontBytes total)
    (h.source.octets ++ h.destination.octets) (checksum (h.headerBytes total 0)) (by rw [hfront])
    (by rw [hfront, haddresses]; decide) hpos
  have hnil : ∀ bytes, sumWords (· + ·) 0 [] + sumWords (· + ·) 0 bytes = sumWords (· + ·) 0 bytes :=
    fun bytes => UInt32.zero_add _
  rw [hnil, hnil] at hlaw
  exact hlaw (.inl rfl)

theorem decode_headerBytes {h : Ipv4Header} (httl : h.ttl ≠ 0) {payload : List UInt8}
    (hlen : 20 + payload.length ≤ 65535) (padding : List UInt8) :
    decode (h.headerBytes (UInt16.ofNat (20 + payload.length))
      (checksum (h.headerBytes (UInt16.ofNat (20 + payload.length)) 0)) ++ payload ++ padding) =
        some (.ok (h, payload)) := by
  have htotal : (UInt16.ofNat (20 + payload.length)).toNat = 20 + payload.length :=
    UInt16.toNat_ofNat_of_lt' (by change _ < 65536; omega)
  have hsum := h.checksum_headerBytes (UInt16.ofNat (20 + payload.length))
  generalize checksum (h.headerBytes (UInt16.ofNat (20 + payload.length)) 0) = sum at hsum
  generalize UInt16.ofNat (20 + payload.length) = total at htotal hsum
  have hframe : (h.headerBytes total sum ++ payload ++ padding).length = 20 + payload.length + padding.length := by
    rw [length_append, length_append, headerBytes_length]
  have hheader : (h.headerBytes total sum ++ payload ++ padding).take 20 = h.headerBytes total sum := by
    rw [append_assoc, take_left' (headerBytes_length h total sum)]
  have hpayload : slice (h.headerBytes total sum ++ payload ++ padding) 20 (20 + payload.length) = some payload := by
    rw [slice_isSome (by omega) (by omega), take_left' (by rw [length_append, headerBytes_length]),
      drop_left' (headerBytes_length h total sum)]
  have h0 : (h.headerBytes total sum ++ payload ++ padding)[0]? = some 0x45 := rfl
  have h2 : readU16 (h.headerBytes total sum ++ payload ++ padding) 2 = some total :=
    congrArg some (ofBe16_toBe16 total)
  have h4 : readU16 (h.headerBytes total sum ++ payload ++ padding) 4 = some h.identification :=
    congrArg some (ofBe16_toBe16 h.identification)
  have h6 : readU16 (h.headerBytes total sum ++ payload ++ padding) 6 = some 0x4000 :=
    congrArg some (ofBe16_toBe16 0x4000)
  have h8 : (h.headerBytes total sum ++ payload ++ padding)[8]? = some h.ttl := rfl
  have h9 : (h.headerBytes total sum ++ payload ++ padding)[9]? = some h.protocol := rfl
  have h12 : readAddress (h.headerBytes total sum ++ payload ++ padding) 12 = some h.source := rfl
  have h16 : readAddress (h.headerBytes total sum ++ payload ++ padding) 16 = some h.destination := rfl
  unfold decode readFields ipv4HeaderLen
  rw [if_neg (by omega), h0, bind_some, if_neg (not_not.mpr rfl), h2, bind_some]
  dsimp only
  rw [htotal, if_neg (by omega), h6, bind_some, if_neg (by decide), h8, bind_some, if_neg httl,
    slice_isSome (Nat.zero_le 20) (by omega), bind_some, drop_zero, hheader,
    if_neg (by simp [checksumValid, hsum])]
  simp only [h4, h9, h12, h16, hpayload, Option.bind_eq_bind, Option.bind_some, Option.pure_def, Option.map_some]

theorem decode_checked {packet : List UInt8} {r : Ipv4Header × List UInt8} (h : decode packet = some (.ok r)) :
    checksum (packet.take 20) = 0 := by
  simp only [decode, bind_eq_some_iff, guard_eq_ok] at h
  obtain ⟨hlen, _, -, -, _, -, -, _, -, -, _, -, -, header, hslice, hsum, -⟩ := h
  cases (slice_isSome (Nat.zero_le 20) (not_lt.mp hlen)).symm.trans hslice
  simpa [checksumValid] using hsum

/-- No byte of the header can be changed on the way. -/
theorem corrupted_header_rejected (front rest : List UInt8) (a b : UInt8) (r r' : Ipv4Header × List UInt8)
    (h : decode (front ++ a :: rest) = some (.ok r)) (hheader : front.length < 20) (hne : a ≠ b) :
    decode (front ++ b :: rest) ≠ some (.ok r') := by
  intro h'
  have htake (c : UInt8) : (front ++ c :: rest).take 20 = front ++ c :: rest.take (20 - front.length - 1) := by
    rw [take_append, take_of_length_le hheader.le, take_cons (Nat.sub_pos_of_lt hheader)]
  have hempty (bytes : List UInt8) : complement (sumWords (· + ·) 0 [] + sumWords (· + ·) 0 bytes) = checksum bytes :=
    congrArg complement (UInt32.zero_add _)
  have hsum := decode_checked h
  have hsum' := decode_checked h'
  rw [htake, ← hempty] at hsum hsum'
  refine hne (eq_of_complement (fun _ _ => add32_toNat) ?_ hsum hsum')
  simp only [length_nil, length_append, length_cons, length_take]
  omega

theorem corrupted_header_rejected_ttl : decode ([0x45, 0, 0, 20, 0, 0, 0x40, 0] ++ 63 :: ([17, 0x3a, 0xda] ++
    List.replicate 8 0)) ≠ some (.ok (⟨.any, .any, 17, 63, 0⟩, [])) :=
  corrupted_header_rejected _ _ 64 63 (⟨.any, .any, 17, 64, 0⟩, []) _ rfl (by decide) (by decide)

end Ipv4Header

end MochiSyscalls.NetworkStack
