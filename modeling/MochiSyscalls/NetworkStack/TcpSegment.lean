import MochiSyscalls.Foundations.Words
import MochiSyscalls.NetworkStack.Packet

/-! # TCP segments as the transport sees them

The decoded form of a segment (`TcpSegment`), the record handed to the wire (`TcpTransmit`), the
flag words and the checks `validate_segment`, `validate_syn` and `acceptable_sequence`
(`crates/network-stack/src/tcp.rs`, `tcp/passive.rs`). -/

namespace MochiSyscalls.NetworkStack
open Foundations.Words
set_option autoImplicit false

/-! ## Flags -/

def tcpProtocol : UInt8 := 6
def tcpHeaderLen : ℕ := 20
def tcpFlagFin : UInt16 := 0x001
def tcpFlagSyn : UInt16 := 0x002
def tcpFlagRst : UInt16 := 0x004
def tcpFlagPsh : UInt16 := 0x008
def tcpFlagAck : UInt16 := 0x010
def tcpSupportedFlags : UInt16 :=
  tcpFlagFin ||| tcpFlagSyn ||| tcpFlagRst ||| tcpFlagPsh ||| tcpFlagAck

/-- `flags & flag != 0`. -/
def hasFlag (flags flag : UInt16) : Bool := flags &&& flag != 0

/-! ## Records -/

structure TcpOptions where
  maximumSegmentSize : Option UInt16 := none
  deriving DecidableEq, Repr

structure TcpSegment where
  sourcePort : UInt16
  destinationPort : UInt16
  sequence : UInt32
  acknowledgment : UInt32
  flags : UInt16
  window : UInt16
  urgentPointer : UInt16
  options : TcpOptions
  payload : List UInt8
  deriving DecidableEq, Repr

structure TcpTuple where
  localAddress : Address
  localPort : UInt16
  remoteAddress : Address
  remotePort : UInt16
  deriving DecidableEq, Repr

structure TcpTransmit where
  sequence : UInt32
  acknowledgment : UInt32
  flags : UInt16
  window : UInt16
  options : TcpOptions
  payload : List UInt8
  retransmission : Bool
  deriving DecidableEq, Repr

inductive TcpState where
  | closed
  | synSent
  | synReceived
  | established
  | finWait1
  | finWait2
  | closeWait
  | lastAck
  | timeWait
  | reset
  deriving DecidableEq, Repr

inductive TcpReceiveResult where
  | accepted
  | acknowledge
  | duplicateAck
  | duplicateSegment
  | outOfOrder
  | reset
  | closed
  deriving DecidableEq, Repr

inductive TcpConnectionError where
  | invalidState
  | invalidAcknowledgment
  | sendBufferFull
  | receiveBufferFull
  | timeout
  | retryLimit
  | connectionReset
  | capacity
  | portUnavailable
  | entropyUnavailable
  | ownership
  | notFound
  deriving DecidableEq, Repr

/-! ## Sequence tests -/

/-- `(left.wrapping_sub(right) as i32) < 0`. -/
def sequenceBefore (left right : UInt32) : Bool := decide ((left - right).toInt32 < 0)

def sequenceAfter (left right : UInt32) : Bool := sequenceBefore right left

/-! ## Admission checks of `tcp/passive.rs` -/

def validateSegment (tuple : TcpTuple) (segment : TcpSegment) : Except TcpConnectionError Unit :=
  let header := tcpHeaderLen + (if segment.options.maximumSegmentSize.isSome then 4 else 0)
  if tuple.localPort = 0 ∨ tuple.remotePort = 0 ∨ segment.sourcePort ≠ tuple.remotePort ∨
      segment.destinationPort ≠ tuple.localPort ∨ hasFlag segment.flags (~~~tcpSupportedFlags) ∨
      segment.payload.length > 65535 - header ∨ segment.urgentPointer ≠ 0 then
    .error .invalidState
  else .ok ()

def validateSyn (tuple : TcpTuple) (segment : TcpSegment) : Except TcpConnectionError Unit :=
  match validateSegment tuple segment with
  | .error e => .error e
  | .ok () => if segment.flags &&& ~~~tcpFlagPsh ≠ tcpFlagSyn then .error .invalidState else .ok ()

/-- The `u32` length of `acceptable_sequence`: payload plus FIN, `none` when it does not fit. -/
def sequenceLength (segment : TcpSegment) : Option UInt32 :=
  let fin := if hasFlag segment.flags tcpFlagFin then 1 else 0
  if segment.payload.length < 2 ^ 32 ∧ segment.payload.length + fin < 2 ^ 32 then
    some (UInt32.ofNat (segment.payload.length + fin))
  else none

def acceptableSequence (next : UInt32) (window : UInt16) (segment : TcpSegment) : Bool :=
  match sequenceLength segment with
  | none => false
  | some length =>
    if window = 0 then length == 0 && segment.sequence == next
    else
      let inside := fun sequence : UInt32 => decide ((sequence - next).toNat < window.toNat)
      inside segment.sequence || (length != 0 && inside (segment.sequence + (length - 1)))

/-! ## What the admission checks let through -/

theorem validateSyn_ok {tuple : TcpTuple} {segment : TcpSegment} (h : validateSyn tuple segment = .ok ()) :
    validateSegment tuple segment = .ok () ∧ segment.flags &&& ~~~tcpFlagPsh = tcpFlagSyn := by
  unfold validateSyn at h
  split at h
  · cases h
  next hv =>
    split at h
    · cases h
    next hf => exact ⟨hv, not_not.mp hf⟩

theorem hasFlag_mask {flags flag : UInt16} (h : ~~~tcpFlagPsh &&& flag = flag) :
    hasFlag flags flag = hasFlag (flags &&& ~~~tcpFlagPsh) flag := by
  unfold hasFlag
  rw [UInt16.and_assoc, h]

theorem syn_flags {flags : UInt16} (h : flags &&& ~~~tcpFlagPsh = tcpFlagSyn) :
    hasFlag flags tcpFlagSyn = true ∧ hasFlag flags tcpFlagRst = false ∧
      hasFlag flags tcpFlagAck = false ∧ hasFlag flags tcpFlagFin = false := by
  refine ⟨?_, ?_, ?_, ?_⟩ <;> rw [hasFlag_mask (by decide), h] <;> decide

theorem hasFlag_of_synAck {flags : UInt16} (h : flags &&& (tcpFlagSyn ||| tcpFlagAck) = tcpFlagSyn ||| tcpFlagAck) :
    hasFlag flags tcpFlagAck = true := by
  have hm : (tcpFlagSyn ||| tcpFlagAck) &&& tcpFlagAck = tcpFlagAck := by decide
  unfold hasFlag
  rw [← hm, ← UInt16.and_assoc, h]
  decide

end MochiSyscalls.NetworkStack
