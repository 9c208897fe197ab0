import MochiSyscalls.Foundations.OnesComplement

/-! # Packets: errors, addresses and checksums

`PacketError` (`crates/network-stack/src/lib.rs`), the four octets of an address, `checksum` and
`checksum_valid` (`checksum.rs`), and the pseudo header that the TCP and UDP checksums cover. -/

namespace MochiSyscalls.NetworkStack
open Foundations Bytes OnesComplement
set_option autoImplicit false

inductive PacketError where
  | truncated
  | invalidHeader
  | invalidLength
  | invalidChecksum
  | unsupported
  | mismatch
  | capacity
  deriving DecidableEq, Repr

/-- An IPv4 address, `[u8; 4]` in the source. -/
structure Address where
  octet0 : UInt8
  octet1 : UInt8
  octet2 : UInt8
  octet3 : UInt8
  deriving DecidableEq, Repr

def Address.octets (a : Address) : List UInt8 := [a.octet0, a.octet1, a.octet2, a.octet3]

def Address.any : Address := ⟨0, 0, 0, 0⟩

/-- The early returns of a decoder. -/
theorem guard_eq_ok {α : Type} {p : Prop} [Decidable p] {e : PacketError} {o : Option (Except PacketError α)} {a : α} :
    (if p then some (.error e) else o) = some (.ok a) ↔ ¬ p ∧ o = some (.ok a) := by
  split <;> simp [*]

variable (bytes : List UInt8)

/-- The four bytes at an offset, `none` when an index is out of range. -/
def readAddress (offset : ℕ) : Option Address := do
  let a ← bytes[offset]?
  let b ← bytes[offset + 1]?
  let c ← bytes[offset + 2]?
  let d ← bytes[offset + 3]?
  return ⟨a, b, c, d⟩

/-! ## Checksums -/

def checksum : UInt16 := complement (sumWords (· + ·) 0 bytes)

def checksumValid : Bool := checksum bytes == 0

def pseudoHeader (source destination : Address) (protocol : UInt8) (length : UInt16) : List UInt8 :=
  source.octets ++ destination.octets ++ [0, protocol] ++ toBe16 length

theorem pseudoHeader_length (source destination : Address) (protocol : UInt8) (length : UInt16) :
    (pseudoHeader source destination protocol length).length = 12 := rfl

theorem pseudoHeader_pos (source destination : Address) {protocol : UInt8} (h : protocol.toNat ≠ 0)
    (length : UInt16) : wordSum (pseudoHeader source destination protocol length) ≠ 0 := by
  have hz : (0 : UInt8).toNat = 0 := rfl
  have h8 : (source.octets ++ destination.octets).length = 8 := rfl
  unfold pseudoHeader
  rw [List.append_assoc, wordSum_append (by rw [h8]), List.cons_append, List.cons_append, wordSum, hz]
  omega

end MochiSyscalls.NetworkStack
