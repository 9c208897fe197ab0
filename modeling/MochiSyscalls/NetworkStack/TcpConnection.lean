import MochiSyscalls.NetworkStack.TcpSegment

/-! # One TCP connection

`TcpConnection` of `crates/network-stack/src/tcp.rs` with its passive half (`tcp/passive.rs`). A
method with `&mut self` becomes a function that returns the new connection next to its result, so
that an early `return Err(..)` keeps exactly the assignments made before it. -/

namespace MochiSyscalls.NetworkStack
open Foundations.Words
set_option autoImplicit false

structure OutstandingSegment where
  sequence : UInt32
  acknowledgment : UInt32
  flags : UInt16
  options : TcpOptions
  payload : List UInt8
  sentAt : Option UInt64
  retries : UInt8
  deriving DecidableEq, Repr

/-- `u32::from(flags & flag != 0)`. -/
def flagUnit (flags flag : UInt16) : UInt32 := if hasFlag flags flag then 1 else 0

def OutstandingSegment.sequenceEnd (s : OutstandingSegment) : UInt32 :=
  s.sequence + UInt32.ofNat s.payload.length + flagUnit s.flags tcpFlagSyn + flagUnit s.flags tcpFlagFin

structure TcpConnection where
  handle : UInt64
  owner : UInt64
  tuple : TcpTuple
  state : TcpState
  sendUnacknowledged : UInt32
  sendNext : UInt32
  receiveNext : UInt32
  peerWindow : UInt16
  peerMss : UInt16
  localMss : UInt16
  sendCapacity : ℕ
  receiveCapacity : ℕ
  sendBuffer : List UInt8
  receiveBuffer : List UInt8
  outstanding : List OutstandingSegment
  closeRequested : Bool
  retransmitTimeout : UInt64
  retryLimit : UInt8
  timeWaitUntil : Option UInt64
  deriving DecidableEq, Repr

/-! ## Storage -/

/-- The storage requests an operation can make of the allocator, each at most once per call. -/
inductive Storage where
  | sendBuffer
  | receiveBuffer
  | outstanding
  | listeners
  | pending
  | ready
  deriving DecidableEq, Repr

abbrev Allocator := Storage → Bool

variable (alloc : Allocator)

/-- `try_reserve`: refused by the allocator, or because the size exceeds `isize::MAX`. -/
def Allocator.tryReserve (storage : Storage) (size : ℕ) : Bool :=
  decide (size ≤ isizeMax) && alloc storage

/-! ## Opening -/

structure TcpListenConfig where
  backlog : ℕ
  localMss : UInt16
  sendCapacity : ℕ
  receiveCapacity : ℕ
  retransmitTimeout : UInt64
  retryLimit : UInt8
  deriving DecidableEq, Repr

namespace TcpConnection

def tryConnect (handle owner : UInt64) (tuple : TcpTuple) (initialSequence : UInt32)
    (localMss : UInt16) (sendCapacity receiveCapacity : ℕ) (retransmitTimeout : UInt64)
    (retryLimit : UInt8) : Except TcpConnectionError TcpConnection :=
  if handle = 0 ∨ tuple.localPort = 0 ∨ tuple.remotePort = 0 ∨ localMss = 0 then .error .invalidState
  else if !alloc.tryReserve .sendBuffer sendCapacity then .error .capacity
  else if !alloc.tryReserve .receiveBuffer receiveCapacity then .error .capacity
  else if !alloc.tryReserve .outstanding 1 then .error .capacity
  else
    let syn : OutstandingSegment :=
      { sequence := initialSequence, acknowledgment := 0, flags := tcpFlagSyn,
        options := { maximumSegmentSize := some localMss }, payload := [], sentAt := none, retries := 0 }
    .ok
      { handle, owner, tuple, state := .synSent,
        sendUnacknowledged := initialSequence, sendNext := initialSequence + 1, receiveNext := 0,
        peerWindow := 0, peerMss := localMss, localMss, sendCapacity, receiveCapacity,
        sendBuffer := [], receiveBuffer := [], outstanding := [syn], closeRequested := false,
        retransmitTimeout, retryLimit, timeWaitUntil := none }

def acceptSyn (handle owner : UInt64) (tuple : TcpTuple) (initialSequence : UInt32)
    (config : TcpListenConfig) (segment : TcpSegment) : Except TcpConnectionError TcpConnection :=
  match validateSyn tuple segment with
  | .error e => .error e
  | .ok () =>
    if handle = 0 ∨ config.localMss = 0 then .error .invalidState
    else if segment.payload.length > config.receiveCapacity then .error .receiveBufferFull
    else if !alloc.tryReserve .sendBuffer config.sendCapacity then .error .capacity
    else if !alloc.tryReserve .receiveBuffer config.receiveCapacity then .error .capacity
    else if !alloc.tryReserve .outstanding 1 then .error .capacity
    else
      let receiveNext := segment.sequence + 1 + UInt32.ofNat segment.payload.length
      let synAck : OutstandingSegment :=
        { sequence := initialSequence, acknowledgment := receiveNext, flags := tcpFlagSyn ||| tcpFlagAck,
          options := { maximumSegmentSize := some config.localMss }, payload := [], sentAt := none,
          retries := 0 }
      -- SYN text is kept, but delivered only once the connection is established
      .ok
        { handle, owner, tuple, state := .synReceived,
          sendUnacknowledged := initialSequence, sendNext := initialSequence + 1, receiveNext,
          peerWindow := segment.window,
          peerMss := max (segment.options.maximumSegmentSize.getD 536) 1,
          localMss := config.localMss, sendCapacity := config.sendCapacity,
          receiveCapacity := config.receiveCapacity, sendBuffer := [], receiveBuffer := segment.payload,
          outstanding := [synAck], closeRequested := false,
          retransmitTimeout := config.retransmitTimeout, retryLimit := config.retryLimit,
          timeWaitUntil := none }

/-! ## The user's side -/

variable (c : TcpConnection)

/-- `matches!(self.state, TcpState::Established | TcpState::CloseWait)`. -/
def canSend : Prop := c.state = .established ∨ c.state = .closeWait
  deriving Decidable

def inFlight : ℕ :=
  c.outstanding.foldl (fun total segment => usizeSaturatingAdd total segment.payload.length) 0

def queueSend (bytes : List UInt8) : TcpConnection × Except TcpConnectionError Unit :=
  if ¬ c.canSend then (c, .error .invalidState)
  else if usizeSaturatingAdd (usizeSaturatingAdd c.inFlight c.sendBuffer.length) bytes.length >
      c.sendCapacity then (c, .error .sendBufferFull)
  else ({ c with sendBuffer := c.sendBuffer ++ bytes }, .ok ())

def requestClose : TcpConnection × Except TcpConnectionError Unit :=
  if ¬ c.canSend then (c, .error .invalidState)
  else ({ c with closeRequested := true }, .ok ())

/-- `receive` into a buffer of `size` bytes: the bytes handed out. -/
def receive (size : ℕ) : TcpConnection × List UInt8 :=
  if c.state = .synReceived then (c, [])
  else
    let length := min size c.receiveBuffer.length
    ({ c with receiveBuffer := c.receiveBuffer.drop length }, c.receiveBuffer.take length)

def discardReceived : TcpConnection := { c with receiveBuffer := [] }

def localWindow : UInt16 :=
  UInt16.ofNat (min (c.receiveCapacity - c.receiveBuffer.length) 65535)

def abort : TcpConnection :=
  { c with state := .reset, outstanding := [], sendBuffer := [], receiveBuffer := [] }

def tick (now : UInt64) : TcpConnection × TcpReceiveResult :=
  if c.state = .timeWait ∧ c.timeWaitUntil.any (fun limit => limit ≤ now) then
    ({ c with state := .closed }, .closed)
  else (c, .accepted)

/-! ## Transmission -/

def passiveSynAck : TcpTransmit :=
  { sequence := c.sendUnacknowledged, acknowledgment := c.receiveNext,
    flags := tcpFlagSyn ||| tcpFlagAck, window := c.localWindow,
    options := { maximumSegmentSize := some c.localMss }, payload := [], retransmission := true }

def acknowledgment : TcpTransmit :=
  if c.state = .synReceived then c.passiveSynAck
  else
    { sequence := c.sendNext, acknowledgment := c.receiveNext, flags := tcpFlagAck,
      window := c.localWindow, options := {}, payload := [], retransmission := false }

def transmitFrom (segment : OutstandingSegment) (window : UInt16) (retransmission : Bool) : TcpTransmit :=
  { sequence := segment.sequence, acknowledgment := segment.acknowledgment, flags := segment.flags,
    window, options := segment.options, payload := segment.payload, retransmission }

/-- The back-off before the next transmission of a segment. -/
def retransmitDelay (segment : OutstandingSegment) : UInt64 :=
  saturatingMul c.retransmitTimeout (UInt64.ofNat (2 ^ min segment.retries.toNat 20))

/-- `poll_transmit` when the front of `outstanding` is `segment`. -/
def pollOutstanding (segment : OutstandingSegment) (rest : List OutstandingSegment)
    (now : UInt64) : TcpConnection × Except TcpConnectionError (Option TcpTransmit) :=
  match segment.sentAt with
  | none =>
    let sent := { segment with sentAt := some now }
    ({ c with outstanding := sent :: rest }, .ok (some (transmitFrom sent c.localWindow false)))
  | some sentAt =>
    if saturatingSub now sentAt < c.retransmitDelay segment then (c, .ok none)
    else if segment.retries ≥ c.retryLimit then
      ({ c with receiveBuffer := if c.state = .synReceived then [] else c.receiveBuffer, state := .reset },
        .error .retryLimit)
    else
      let sent := { segment with retries := saturatingAdd8 segment.retries 1, sentAt := some now }
      ({ c with outstanding := sent :: rest }, .ok (some (transmitFrom sent c.localWindow true)))

/-- `self.local_mss.min(self.peer_mss).min(self.peer_window)`. -/
def maximumPayload : ℕ := (min (min c.localMss c.peerMss) c.peerWindow).toNat

def dataSegment (now : UInt64) : OutstandingSegment :=
  { sequence := c.sendNext, acknowledgment := c.receiveNext, flags := tcpFlagAck ||| tcpFlagPsh,
    options := {}, payload := c.sendBuffer.take (min c.maximumPayload c.sendBuffer.length),
    sentAt := some now, retries := 0 }

def pollData (now : UInt64) : TcpConnection × Except TcpConnectionError (Option TcpTransmit) :=
  if c.peerWindow = 0 then (c, .ok none)
  else if c.maximumPayload = 0 then (c, .ok none)
  else
    let segment := c.dataSegment now
    ({ c with
        sendBuffer := c.sendBuffer.drop (min c.maximumPayload c.sendBuffer.length),
        sendNext := segment.sequenceEnd,
        outstanding := c.outstanding ++ [segment] },
      .ok (some (transmitFrom segment c.localWindow false)))

def finSegment (now : UInt64) : OutstandingSegment :=
  { sequence := c.sendNext, acknowledgment := c.receiveNext, flags := tcpFlagFin ||| tcpFlagAck,
    options := {}, payload := [], sentAt := some now, retries := 0 }

def pollFin (now : UInt64) : TcpConnection × Except TcpConnectionError (Option TcpTransmit) :=
  let segment := c.finSegment now
  ({ c with
      sendNext := c.sendNext + 1,
      state := if c.state = .closeWait then .lastAck else .finWait1,
      outstanding := c.outstanding ++ [segment] },
    .ok (some (transmitFrom segment c.localWindow false)))

def pollTransmit (now : UInt64) : TcpConnection × Except TcpConnectionError (Option TcpTransmit) :=
  match c.outstanding with
  | segment :: rest => c.pollOutstanding segment rest now
  | [] =>
    if c.canSend ∧ c.sendBuffer ≠ [] then c.pollData now
    else if c.closeRequested ∧ c.sendBuffer = [] ∧ c.canSend then c.pollFin now
    else (c, .ok none)

/-! ## Reception -/

def acked (acknowledgment : UInt32) : TcpConnection :=
  { c with
    sendUnacknowledged := acknowledgment,
    outstanding := c.outstanding.dropWhile fun s => !sequenceAfter s.sequenceEnd acknowledgment }

def acknowledge (acknowledgment : UInt32) : TcpConnection × Except TcpConnectionError Unit :=
  if sequenceBefore acknowledgment c.sendUnacknowledged ∨ sequenceAfter acknowledgment c.sendNext then
    (c, .error .invalidAcknowledgment)
  else (c.acked acknowledgment, .ok ())

variable (segment : TcpSegment)

/-- The RST branch of `on_segment`. -/
def onReset : TcpConnection × Except TcpConnectionError TcpReceiveResult :=
  if (c.state = .synSent ∧ (¬ hasFlag segment.flags tcpFlagAck ∨ segment.acknowledgment ≠ c.sendNext)) ∨
      (c.state ≠ .synSent ∧ segment.sequence ≠ c.receiveNext) then
    (c, .error .invalidAcknowledgment)
  else (c.abort, .ok .reset)

/-- The SynSent branch of `on_segment`. -/
def onSynSent : TcpConnection × Except TcpConnectionError TcpReceiveResult :=
  if segment.flags &&& (tcpFlagSyn ||| tcpFlagAck) ≠ tcpFlagSyn ||| tcpFlagAck ∨
      segment.acknowledgment ≠ c.sendNext then
    (c, .error .invalidAcknowledgment)
  else
    match c.acknowledge segment.acknowledgment with
    | (c, .error e) => (c, .error e)
    | (c, .ok ()) =>
      ({ c with
          receiveNext := segment.sequence + 1,
          peerWindow := segment.window,
          peerMss := match segment.options.maximumSegmentSize with
            | some mss => max mss 1
            | none => c.peerMss,
          state := .established },
        .ok .acknowledge)

/-- A stage of `on_segment` either returns or goes on with the result so far. -/
inductive Flow where
  | done (result : Except TcpConnectionError TcpReceiveResult)
  | next (result : TcpReceiveResult)

def onAcknowledgment : TcpConnection × Flow :=
  if ¬ hasFlag segment.flags tcpFlagAck then (c, .next .accepted)
  else if segment.acknowledgment = c.sendUnacknowledged then
    ({ c with peerWindow := segment.window }, .next .duplicateAck)
  else
    match c.acknowledge segment.acknowledgment with
    | (c, .error e) => (c, .done (.error e))
    | (c, .ok ()) =>
      if c.state = .finWait1 ∧ segment.acknowledgment = c.sendNext then
        ({ c with state := .finWait2, peerWindow := segment.window }, .next .accepted)
      else if c.state = .lastAck ∧ segment.acknowledgment = c.sendNext then
        ({ c with state := .closed }, .done (.ok .closed))
      else ({ c with peerWindow := segment.window }, .next .accepted)

def onPayload (result : TcpReceiveResult) : TcpConnection × Flow :=
  if segment.payload = [] then (c, .next result)
  else if segment.sequence = c.receiveNext then
    if usizeSaturatingAdd c.receiveBuffer.length segment.payload.length > c.receiveCapacity then
      (c, .done (.error .receiveBufferFull))
    else
      ({ c with
          receiveBuffer := c.receiveBuffer ++ segment.payload,
          receiveNext := c.receiveNext + UInt32.ofNat segment.payload.length },
        .next .acknowledge)
  else if sequenceBefore segment.sequence c.receiveNext then (c, .next .duplicateSegment)
  else (c, .next .outOfOrder)

def onFin (now : UInt64) (result : TcpReceiveResult) : TcpConnection × Except TcpConnectionError TcpReceiveResult :=
  if ¬ hasFlag segment.flags tcpFlagFin then (c, .ok result)
  else if segment.sequence + UInt32.ofNat segment.payload.length ≠ c.receiveNext then (c, .ok .outOfOrder)
  else if c.state = .finWait1 ∨ c.state = .finWait2 then
    ({ c with
        receiveNext := c.receiveNext + 1, state := .timeWait,
        timeWaitUntil := some (saturatingAdd now 30000) },
      .ok .acknowledge)
  else if c.state = .established then
    ({ c with receiveNext := c.receiveNext + 1, state := .closeWait }, .ok .acknowledge)
  else ({ c with receiveNext := c.receiveNext + 1 }, .ok .acknowledge)

/-- The states in which `on_segment` goes on to the stream stages. -/
def Synchronized : Prop :=
  c.state = .established ∨ c.state = .finWait1 ∨ c.state = .finWait2 ∨ c.state = .closeWait ∨
    c.state = .lastAck ∨ c.state = .timeWait
  deriving Decidable

/-- A retransmission of the SYN/ACK that established this connection. -/
def duplicateSynAck : Prop :=
  c.state = .established ∧ segment.flags = tcpFlagSyn ||| tcpFlagAck ∧
    segment.sequence + 1 = c.receiveNext ∧ segment.acknowledgment = c.sendUnacknowledged ∧
    segment.payload = []
  deriving Decidable

/-- The stream stages of `on_segment`, in order. -/
def onStream (now : UInt64) : TcpConnection × Except TcpConnectionError TcpReceiveResult :=
  match c.onAcknowledgment segment with
  | (c, .done result) => (c, result)
  | (c, .next result) =>
    match c.onPayload segment result with
    | (c, .done result) => (c, result)
    | (c, .next result) => c.onFin segment now result

/-- `on_segment` in every state but SynReceived. -/
def onSegmentActive (now : UInt64) : TcpConnection × Except TcpConnectionError TcpReceiveResult :=
  if hasFlag segment.flags tcpFlagRst then c.onReset segment
  else if c.state = .synSent then c.onSynSent segment
  else if ¬ c.Synchronized then (c, .error .invalidState)
  else if hasFlag segment.flags tcpFlagSyn then
    (c, if c.duplicateSynAck segment then .ok .acknowledge else .error .invalidState)
  else if ¬ hasFlag segment.flags tcpFlagAck then (c, .error .invalidAcknowledgment)
  else if segment.payload = [] ∧ ¬ hasFlag segment.flags tcpFlagFin ∧
      segment.sequence ≠ c.receiveNext then
    (c, .ok (if sequenceBefore segment.sequence c.receiveNext then .duplicateSegment else .outOfOrder))
  else c.onStream segment now

/-- The overlap with SYN text cut from the segment that completes a passive open. -/
def trimOverlap : TcpSegment :=
  if sequenceBefore segment.sequence c.receiveNext then
    let trim := min (c.receiveNext - segment.sequence).toNat segment.payload.length
    { segment with
      sequence := segment.sequence + UInt32.ofNat trim, payload := segment.payload.drop trim }
  else segment

/-- `receive_passive`; its inner `on_segment` runs in Established, hence `onSegmentActive`. -/
def receivePassive (now : UInt64) : TcpConnection × Except TcpConnectionError TcpReceiveResult :=
  match validateSegment c.tuple segment with
  | .error e => (c, .error e)
  | .ok () =>
    if hasFlag segment.flags tcpFlagRst then
      if segment.sequence ≠ c.receiveNext then (c, .error .invalidAcknowledgment)
      else (c.abort, .ok .reset)
    else if hasFlag segment.flags tcpFlagSyn then
      match validateSyn c.tuple segment with
      | .error e => (c, .error e)
      | .ok () =>
        if segment.sequence + 1 + UInt32.ofNat c.receiveBuffer.length = c.receiveNext then
          (c, .ok .duplicateSegment)
        else (c, .error .invalidState)
    else if !acceptableSequence c.receiveNext c.localWindow segment then (c, .ok .outOfOrder)
    else if ¬ hasFlag segment.flags tcpFlagAck ∨ segment.acknowledgment ≠ c.sendNext then
      (c, .error .invalidAcknowledgment)
    else
      match c.acknowledge segment.acknowledgment with
      | (c, .error e) => (c, .error e)
      | (c, .ok ()) =>
        let opened := { c with state := .established, peerWindow := segment.window }
        let inner := opened.onSegmentActive (opened.trimOverlap segment) now
        (inner.1,
          inner.2.map fun result => if opened.receiveBuffer.length ≠ 0 then .acknowledge else result)

def onSegment (now : UInt64) : TcpConnection × Except TcpConnectionError TcpReceiveResult :=
  if c.state = .synReceived then c.receivePassive segment now
  else c.onSegmentActive segment now

/-- The inner call of `receive_passive` is the same `on_segment` the source calls. -/
theorem onSegment_of_ne {c : TcpConnection} (h : c.state ≠ .synReceived) (segment : TcpSegment)
    (now : UInt64) : c.onSegment segment now = c.onSegmentActive segment now := if_neg h

end TcpConnection

end MochiSyscalls.NetworkStack
