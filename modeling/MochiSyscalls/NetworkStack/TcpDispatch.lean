import MochiSyscalls.NetworkStack.TcpTable

/-! # Receive routing

`receive_packet` of `crates/network-stack/src/tcp/dispatch.rs`: a decoded segment goes to the live
connection of its tuple, to a listener, or is answered with a reset. The outcome records whether
the entropy closure was called. -/

namespace MochiSyscalls.NetworkStack
open Foundations Words Rows
set_option autoImplicit false

structure TcpDispatch where
  connection : Option UInt64
  event : Option TcpReceiveResult
  reply : Option TcpTransmit
  deriving DecidableEq, Repr

def TcpDispatch.silent (connection : Option UInt64) : TcpDispatch :=
  { connection, event := none, reply := none }

def plainAck (c : TcpConnection) : TcpTransmit :=
  { sequence := c.sendNext, acknowledgment := c.receiveNext, flags := tcpFlagAck,
    window := c.localWindow, options := {}, payload := [], retransmission := false }

def reset (segment : TcpSegment) : TcpTransmit :=
  let ack := hasFlag segment.flags tcpFlagAck
  { sequence := if ack then segment.acknowledgment else 0,
    acknowledgment :=
      if ack then 0
      else segment.sequence + UInt32.ofNat segment.payload.length + flagUnit segment.flags tcpFlagSyn +
        flagUnit segment.flags tcpFlagFin,
    flags := tcpFlagRst ||| (if ack then 0 else tcpFlagAck),
    window := 0, options := {}, payload := [], retransmission := false }

/-- TCP answers no unspecified, multicast or limited-broadcast address. -/
def Address.Unanswered (a : Address) : Prop := a.octet0 = 0 ∨ a.octet0 ≥ 224
  deriving Decidable

namespace TcpConnection

/-- A retransmission of the SYN that opened this connection. -/
def duplicateSyn (c : TcpConnection) (segment : TcpSegment) : Prop :=
  c.state = .synReceived ∧ segment.flags &&& ~~~tcpFlagPsh = tcpFlagSyn ∧
    segment.sequence + 1 + UInt32.ofNat c.receiveBuffer.length = c.receiveNext
  deriving Decidable

/-- The answers `receive_packet` gives for a live connection by itself; `none` when the segment goes on to
`receive_segment`. -/
def screen (c : TcpConnection) (segment : TcpSegment) : Option TcpDispatch :=
  let dispatch := TcpDispatch.silent (some c.handle)
  let rst := hasFlag segment.flags tcpFlagRst
  let syn := hasFlag segment.flags tcpFlagSyn
  let ack := hasFlag segment.flags tcpFlagAck
  if c.state = .synSent then
    if ack ∧ segment.acknowledgment ≠ c.sendNext then
      some { dispatch with reply := if rst then none else some (reset segment) }
    else if ¬ rst ∧ ¬ syn then some dispatch
    else none
  else if rst then
    if segment.sequence ≠ c.receiveNext then
      if (segment.sequence - c.receiveNext).toNat < c.localWindow.toNat then
        some { dispatch with reply := some (plainAck c) }
      else some dispatch
    else none
  else if (syn ∧ ¬ c.duplicateSyn segment ∧ ¬ c.duplicateSynAck segment) ∨
      (¬ syn ∧ ¬ acceptableSequence c.receiveNext c.localWindow segment) then
    some { dispatch with reply := some (plainAck c), event := some .outOfOrder }
  else if ¬ syn ∧ ¬ ack then some dispatch
  else none

/-- The answer after `receive_segment`: `c` is the connection before it, `after` the one under its handle afterwards. -/
def answer (c after : TcpConnection) (segment : TcpSegment)
    (received : Except TcpConnectionError TcpReceiveResult) : Except TcpConnectionError TcpDispatch :=
  let dispatch := TcpDispatch.silent (some c.handle)
  match received with
  | .ok event =>
    let reply :=
      if event = .acknowledge ∨ event = .duplicateSegment ∨ event = .outOfOrder then
        some (if c.state = .synReceived ∧ hasFlag segment.flags tcpFlagSyn then after.passiveSynAck
          else plainAck after)
      else none
    .ok { dispatch with event := some event, reply }
  | .error .invalidAcknowledgment =>
    let reply :=
      if hasFlag segment.flags tcpFlagRst then none
      else if c.state = .synSent ∨ c.state = .synReceived then
        if hasFlag segment.flags tcpFlagAck then some (reset segment) else none
      else some (plainAck after)
    .ok { dispatch with reply }
  | .error e => .error e

end TcpConnection

/-- The table `receive_packet` leaves behind, its result, and whether it called `entropy`. -/
structure PacketOutcome where
  table : TcpConnectionTable
  result : Except TcpConnectionError TcpDispatch
  drew : Bool
  deriving DecidableEq

namespace TcpConnectionTable

variable (alloc : Allocator) (t : TcpConnectionTable)

/-- `receive_packet` for a tuple with the live connection `c`. -/
def routeConnection (c : TcpConnection) (tuple : TcpTuple) (segment : TcpSegment) (now : UInt64) : PacketOutcome :=
  match c.screen segment with
  | some dispatch => { table := t, result := .ok dispatch, drew := false }
  | none =>
    let received := t.receiveSegment alloc tuple segment now
    match received.1.connections.find? fun after => after.handle = c.handle with
    | none => { table := received.1, result := .error .notFound, drew := false }
    | some after => { table := received.1, result := c.answer after segment received.2, drew := false }

variable (tuple : TcpTuple)

/-- The end of `receive_packet` for an admissible SYN, with the value `entropy` returned. -/
def openConnection (segment : TcpSegment) (now random : UInt64) : Option PacketOutcome :=
  match t.allocateHandle (rotateLeft random 17) with
  | .error e => some { table := t, result := .error e, drew := true }
  | .ok handle =>
    match receiveSyn alloc t handle tuple segment (random >>> 32).toUInt32 with
    | none => none
    | some (t, .error e) => some { table := t, result := .error e, drew := true }
    | some (t, .ok _) =>
      match t.findTupleMut tuple with
      | none => some { table := t, result := .error .notFound, drew := true }
      | some (i, c) =>
        let polled := c.pollTransmit now
        some
          { table := t.setConnection i polled.1,
            result := polled.2.map fun reply =>
              { connection := some handle, event := some .acknowledge, reply },
            drew := true }

/-- `receive_packet` for a tuple without a live connection. -/
def routeListener (segment : TcpSegment) (now : UInt64) (entropy : Option UInt64) : Option PacketOutcome :=
  let dispatch := TcpDispatch.silent none
  if hasFlag segment.flags tcpFlagRst then some { table := t, result := .ok dispatch, drew := false }
  else if (t.matchingListener tuple).isNone ∨ hasFlag segment.flags tcpFlagAck then
    some { table := t, result := .ok { dispatch with reply := some (reset segment) }, drew := false }
  else if segment.flags &&& ~~~tcpFlagPsh ≠ tcpFlagSyn then
    some { table := t, result := .ok dispatch, drew := false }
  else
    match t.admitSyn tuple segment.payload.length with
    | (t, .error e) => some { table := t, result := .error e, drew := false }
    | (t, .ok ()) =>
      match entropy with
      | none => some { table := t, result := .error .entropyUnavailable, drew := true }
      | some random => t.openConnection alloc tuple segment now random

def receivePacket (segment : TcpSegment) (now : UInt64) (entropy : Option UInt64) : Option PacketOutcome :=
  match validateSegment tuple segment with
  | .error e => some { table := t, result := .error e, drew := false }
  | .ok () =>
    if tuple.localAddress.Unanswered ∨ tuple.remoteAddress.Unanswered then
      some { table := t, result := .error .invalidState, drew := false }
    else
      match t.findTupleMut tuple with
      | some (_, c) => some (t.routeConnection alloc c tuple segment now)
      | none => t.routeListener alloc tuple segment now entropy

end TcpConnectionTable

end MochiSyscalls.NetworkStack
