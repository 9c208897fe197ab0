import MochiSyscalls.NetworkStack.TcpSteps
import MochiSyscalls.Foundations.Runs

/-! # A connection with its history

The operations of one connection as the inputs of a step function, next to a record of what an
observer of the calls sees: the bytes `queue_send` accepted, the payloads that left `outstanding`,
the bytes put into the receive buffer, the bytes `receive` handed out, the transmissions made, and
whether a FIN of the peer was consumed. The record is computed from the connection before and after
each call and from the call's result only. -/

namespace MochiSyscalls.NetworkStack
open Foundations.Runs
set_option autoImplicit false

inductive TcpOp where
  | queueSend (bytes : List UInt8)
  | requestClose
  | pollTransmit (now : UInt64)
  | acknowledgment
  | onSegment (segment : TcpSegment) (now : UInt64)
  | receive (size : ℕ)
  | discardReceived
  | tick (now : UInt64)
  | abort
  deriving DecidableEq, Repr

structure TcpHistory where
  connection : TcpConnection
  /-- bytes accepted by `queue_send` -/
  accepted : List UInt8
  /-- payloads of the segments removed from `outstanding` -/
  released : List UInt8
  /-- bytes ever put into the receive buffer -/
  appended : List UInt8
  /-- bytes handed out by `receive` -/
  delivered : List UInt8
  /-- a FIN of the peer was consumed -/
  finConsumed : Bool
  /-- the peer's initial sequence number, once known -/
  peerInitial : Option UInt32
  /-- every segment formed by `poll_transmit` or `acknowledgment` -/
  transmitted : List TcpTransmit
  deriving DecidableEq, Repr

namespace TcpHistory

/-- The states a connection enters by consuming a FIN, or later. -/
def FinSeen (state : TcpState) : Prop := state = .closeWait ∨ state = .lastAck ∨ state = .timeWait
  deriving Decidable

/-- The history of a connection just built; SYN text counts as appended. -/
def start (c : TcpConnection) (peerInitial : Option UInt32) : TcpHistory :=
  { connection := c, accepted := [], released := [], appended := c.receiveBuffer, delivered := [],
    finConsumed := false, peerInitial, transmitted := [] }

/-- The transmission in the result of `poll_transmit`. -/
def emitted : Except TcpConnectionError (Option TcpTransmit) → List TcpTransmit
  | .ok (some t) => [t]
  | _ => []

/-- The payloads of the segments at the front of `before` that are gone in `after`. -/
def popped (before after : TcpConnection) : List UInt8 :=
  (before.outstanding.take (before.outstanding.length - after.outstanding.length)).flatMap (·.payload)

/-- The record of a call of `on_segment` that led from `h.connection` to `after`. -/
def observe (h : TcpHistory) (segment : TcpSegment) (after : TcpConnection) : TcpHistory :=
  { h with
    connection := after,
    released := h.released ++ popped h.connection after,
    appended := h.appended ++ after.receiveBuffer.drop h.connection.receiveBuffer.length,
    finConsumed := h.finConsumed || decide (FinSeen after.state),
    peerInitial := if h.connection.state = .synSent ∧ after.state = .established then some segment.sequence
      else h.peerInitial }

def step (h : TcpHistory) : TcpOp → TcpHistory
  | .queueSend bytes =>
    { h with
      connection := (h.connection.queueSend bytes).1,
      accepted := match (h.connection.queueSend bytes).2 with
        | .ok () => h.accepted ++ bytes
        | .error _ => h.accepted }
  | .requestClose => { h with connection := h.connection.requestClose.1 }
  | .pollTransmit now =>
    { h with
      connection := (h.connection.pollTransmit now).1,
      transmitted := h.transmitted ++ emitted (h.connection.pollTransmit now).2 }
  | .acknowledgment => { h with transmitted := h.transmitted ++ [h.connection.acknowledgment] }
  | .onSegment segment now => h.observe segment (h.connection.onSegment segment now).1
  | .receive size =>
    { h with
      connection := (h.connection.receive size).1,
      delivered := h.delivered ++ (h.connection.receive size).2 }
  | .discardReceived => { h with connection := h.connection.discardReceived }
  | .tick now => { h with connection := (h.connection.tick now).1 }
  | .abort => { h with connection := h.connection.abort }

/-- The connections the two constructors build, with their empty history. -/
inductive Built : TcpHistory → Prop
  | connect {alloc : Allocator} {handle owner : UInt64} {tuple : TcpTuple} {initialSequence : UInt32}
      {localMss : UInt16} {sendCapacity receiveCapacity : ℕ} {retransmitTimeout : UInt64}
      {retryLimit : UInt8} {c : TcpConnection} :
      TcpConnection.tryConnect alloc handle owner tuple initialSequence localMss sendCapacity
        receiveCapacity retransmitTimeout retryLimit = .ok c → Built (start c none)
  | accept {alloc : Allocator} {handle owner : UInt64} {tuple : TcpTuple} {initialSequence : UInt32}
      {config : TcpListenConfig} {segment : TcpSegment} {c : TcpConnection} :
      TcpConnection.acceptSyn alloc handle owner tuple initialSequence config segment = .ok c →
      Built (start c (some segment.sequence))

end TcpHistory

/-! ## The fixture of the source's unit tests -/

namespace TcpFixture

def localAddress : Address := ⟨10, 0, 2, 15⟩
def remoteAddress : Address := ⟨10, 0, 2, 2⟩

def tuple : TcpTuple :=
  { localAddress, localPort := 50000, remoteAddress, remotePort := 80 }

/-- `segment(flags, sequence, acknowledgment, payload)` of the tests. -/
def segment (flags : UInt16) (sequence acknowledgment : UInt32) (payload : List UInt8) : TcpSegment :=
  { sourcePort := 80, destinationPort := 50000, sequence, acknowledgment, flags, window := 4096,
    urgentPointer := 0, options := {}, payload }

def syn : OutstandingSegment :=
  { sequence := 100, acknowledgment := 0, flags := tcpFlagSyn, options := { maximumSegmentSize := some 8 },
    payload := [], sentAt := none, retries := 0 }

/-- `connection(send_capacity, receive_capacity)` of the tests, as `try_connect` returns it. -/
def connection (sendCapacity receiveCapacity : ℕ) : TcpConnection :=
  { handle := 1, owner := 7, tuple, state := .synSent, sendUnacknowledged := 100, sendNext := 101,
    receiveNext := 0, peerWindow := 0, peerMss := 8, localMss := 8, sendCapacity, receiveCapacity,
    sendBuffer := [], receiveBuffer := [], outstanding := [syn], closeRequested := false,
    retransmitTimeout := 100, retryLimit := 2, timeWaitUntil := none }

def history (sendCapacity receiveCapacity : ℕ) : TcpHistory :=
  TcpHistory.start (connection sendCapacity receiveCapacity) none

theorem history_built : TcpHistory.Built (history 32 32) :=
  .connect (show TcpConnection.tryConnect (fun _ => true) 1 7 tuple 100 8 32 32 100 2 = _ by decide)

/-- The SYN/ACK that establishes the fixture, as in `establish` of the tests. -/
def synAck : TcpSegment :=
  { segment (tcpFlagSyn ||| tcpFlagAck) 500 101 [] with options := { maximumSegmentSize := some 4 } }

def listenConfig : TcpListenConfig :=
  { backlog := 2, localMss := 8, sendCapacity := 32, receiveCapacity := 32, retransmitTimeout := 100,
    retryLimit := 2 }

end TcpFixture

end MochiSyscalls.NetworkStack
