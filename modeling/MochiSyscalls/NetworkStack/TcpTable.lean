import MochiSyscalls.NetworkStack.TcpLifecycle
import MochiSyscalls.Foundations.Rows

/-! # The connection table and its listeners

`TcpConnectionTable` of `crates/network-stack/src/tcp.rs` with the passive half of
`tcp/passive.rs`: connections and listeners are two lists, and a listener names the connections it
has not handed out by handle. A mutable reference into one of them is a position next to the row. A
method that unwraps, or indexes after the lists changed, returns `none` where the source panics. -/

namespace MochiSyscalls.NetworkStack
open Foundations Words Rows
set_option autoImplicit false

structure Listener where
  handle : UInt64
  owner : UInt64
  address : Address
  port : UInt16
  config : TcpListenConfig
  pending : List UInt64
  ready : List UInt64
  deriving DecidableEq, Repr

namespace Listener

variable (l : Listener)

def Matches (tuple : TcpTuple) : Prop :=
  l.port = tuple.localPort ∧ (l.address = tuple.localAddress ∨ l.address = .any)
  deriving Decidable

def Overlaps (address : Address) (port : UInt16) : Prop :=
  l.port = port ∧ (l.address = address ∨ l.address = .any ∨ address = .any)
  deriving Decidable

/-- `pending` keeps the handles of live connections, `ready` those that are still pending. -/
def prune (connections : List TcpConnection) : Listener :=
  let pending := l.pending.filter fun handle => ∃ c ∈ connections, c.handle = handle ∧ ¬ c.Terminal
  { l with pending, ready := l.ready.filter fun handle => handle ∈ pending }

variable (handle : UInt64)

def enqueue : Listener := { l with pending := l.pending ++ [handle] }

def complete : Listener := { l with ready := l.ready ++ [handle] }

/-- The bookkeeping of `accept` for the handle at the front of `ready`. -/
def release : Listener :=
  { l with ready := l.ready.tail, pending := l.pending.filter (· ≠ handle) }

end Listener

structure TcpConnectionTable where
  connections : List TcpConnection
  listeners : List Listener
  capacity : ℕ
  deriving DecidableEq, Repr

namespace TcpConnectionTable

def new (capacity : ℕ) : TcpConnectionTable := { connections := [], listeners := [], capacity }

/-! ## Connections -/

def Full (t : TcpConnectionTable) : Prop := t.connections.length + t.listeners.length ≥ t.capacity
  deriving Decidable

def HandleUsed (t : TcpConnectionTable) (handle : UInt64) : Prop :=
  (∃ l ∈ t.listeners, l.handle = handle) ∨ ∃ c ∈ t.connections, c.handle = handle
  deriving Decidable

def insert (t : TcpConnectionTable) (connection : TcpConnection) :
    TcpConnectionTable × Except TcpConnectionError Unit :=
  if t.Full then (t, .error .capacity)
  else if (∃ l ∈ t.listeners, l.handle = connection.handle) ∨
      ∃ existing ∈ t.connections, existing.handle = connection.handle ∨
        (existing.tuple = connection.tuple ∧ ¬ existing.Terminal) then
    (t, .error .capacity)
  else ({ t with connections := t.connections ++ [connection] }, .ok ())

def findTupleMut (t : TcpConnectionTable) (tuple : TcpTuple) : Option (ℕ × TcpConnection) :=
  findRow (fun c => c.tuple = tuple ∧ ¬ c.Terminal) t.connections

def setConnection (t : TcpConnectionTable) (i : ℕ) (c : TcpConnection) : TcpConnectionTable :=
  { t with connections := t.connections.set i c }

def setListener (t : TcpConnectionTable) (i : ℕ) (l : Listener) : TcpConnectionTable :=
  { t with listeners := t.listeners.set i l }

/-- The loop of `allocate_handle`, with the iterations left. -/
def allocateFrom (t : TcpConnectionTable) : ℕ → UInt64 → Except TcpConnectionError UInt64
  | 0, _ => .error .capacity
  | n + 1, candidate =>
    if t.HandleUsed candidate then allocateFrom t n (max (rotateLeft candidate 17 + 0x9e3779b97f4a7c15) 1)
    else .ok candidate

def allocateHandle (t : TcpConnectionTable) (seed : UInt64) : Except TcpConnectionError UInt64 :=
  t.allocateFrom (t.capacity + 1) (max seed 1)

def abortAll (t : TcpConnectionTable) : TcpConnectionTable :=
  { t with connections := t.connections.map (·.abort) }

def clear (t : TcpConnectionTable) : TcpConnectionTable := { t with connections := [], listeners := [] }

def prunePending (t : TcpConnectionTable) : TcpConnectionTable :=
  let connections := t.connections.filter fun c => ¬ c.Terminal ∨ ¬ ∃ l ∈ t.listeners, c.handle ∈ l.pending
  { t with connections, listeners := t.listeners.map (·.prune connections) }

def remove (t : TcpConnectionTable) (handle owner : UInt64) : TcpConnectionTable :=
  { t with connections := t.connections.filter fun c => c.handle ≠ handle ∨ c.owner ≠ owner }.prunePending

/-- `retain` of `remove_closed_if`. The closure is asked for terminal connections only and may count its calls. -/
def retainUnless (answer : ℕ → UInt64 → Bool) : ℕ → List TcpConnection → List TcpConnection
  | _, [] => []
  | calls, c :: cs =>
    if ¬ c.Terminal then c :: retainUnless answer calls cs
    else if answer calls c.owner then retainUnless answer (calls + 1) cs
    else c :: retainUnless answer (calls + 1) cs

def removeClosedIf (t : TcpConnectionTable) (answer : ℕ → UInt64 → Bool) : TcpConnectionTable :=
  { t with connections := retainUnless answer 0 t.connections }.prunePending

/-! ## Listeners -/

def matchingListener (t : TcpConnectionTable) (tuple : TcpTuple) : Option (ℕ × Listener) :=
  findRow (fun l => l.Matches tuple) t.listeners

def admitSyn (t : TcpConnectionTable) (tuple : TcpTuple) (payloadLength : ℕ) :
    TcpConnectionTable × Except TcpConnectionError Unit :=
  let t := t.prunePending
  match t.matchingListener tuple with
  | none => (t, .error .notFound)
  | some (_, listener) =>
    if listener.pending.length ≥ listener.config.backlog ∨ t.Full then (t, .error .capacity)
    else if payloadLength > listener.config.receiveCapacity then (t, .error .receiveBufferFull)
    else (t, .ok ())

variable (alloc : Allocator)

def listen (t : TcpConnectionTable) (handle owner : UInt64) (address : Address)
    (port : UInt16) (config : TcpListenConfig) : TcpConnectionTable × Except TcpConnectionError Unit :=
  if port = 0 ∨ handle = 0 ∨ config.backlog = 0 ∨ config.localMss = 0 then (t, .error .invalidState)
  else if t.Full ∨ t.HandleUsed handle then (t, .error .capacity)
  else if ∃ l ∈ t.listeners, l.Overlaps address port then (t, .error .portUnavailable)
  else if !alloc .listeners then (t, .error .capacity)
  else
    let listener : Listener := { handle, owner, address, port, config, pending := [], ready := [] }
    ({ t with listeners := t.listeners ++ [listener] }, .ok ())

/-- `try_reserve(1)` on a list of handles. -/
def reserveHandle (storage : Storage) (handles : List UInt64) : Bool :=
  alloc.tryReserve storage (8 * (handles.length + 1))

/-- The part of `receive_syn` after `admit_syn`: a new connection joins the backlog of its listener. -/
def openPassive (t : TcpConnectionTable) (handle : UInt64) (tuple : TcpTuple)
    (segment : TcpSegment) (initialSequence : UInt32) :
    Option (TcpConnectionTable × Except TcpConnectionError UInt64) :=
  match t.matchingListener tuple with
  | none => some (t, .error .notFound)
  | some (_, listener) =>
    if !reserveHandle alloc .pending listener.pending then some (t, .error .capacity)
    else
      match TcpConnection.acceptSyn alloc handle listener.owner tuple initialSequence listener.config segment with
      | .error e => some (t, .error e)
      | .ok connection =>
        match t.insert connection with
        | (t, .error e) => some (t, .error e)
        | (t, .ok ()) =>
          match findRow (fun l => l.handle = listener.handle) t.listeners with
          | none => none
          | some (i, l) => some (t.setListener i (l.enqueue handle), .ok handle)

def receiveSyn (t : TcpConnectionTable) (handle : UInt64) (tuple : TcpTuple)
    (segment : TcpSegment) (initialSequence : UInt32) :
    Option (TcpConnectionTable × Except TcpConnectionError UInt64) :=
  match validateSyn tuple segment with
  | .error e => some (t, .error e)
  | .ok () =>
    match t.findTupleMut tuple with
    | some (i, c) =>
      -- a repeated SYN goes to its connection, at time 0
      let received := c.onSegment segment 0
      some (t.setConnection i received.1, received.2.map fun _ => received.1.handle)
    | none =>
      match t.admitSyn tuple segment.payload.length with
      | (t, .error e) => some (t, .error e)
      | (t, .ok ()) => openPassive alloc t handle tuple segment initialSequence

def awaiting (t : TcpConnectionTable) (handle : UInt64) : Option (ℕ × Listener) :=
  findRow (fun l => handle ∈ l.pending ∧ handle ∉ l.ready) t.listeners

/-- The part of `receive_segment` after `on_segment`: a completed open is queued for `accept`. -/
def noteCompletion (t : TcpConnectionTable) (c : TcpConnection) (handle : UInt64) :
    Option (ℕ × Listener) → TcpConnectionTable
  | some (i, l) => if c.canSend then t.setListener i (l.complete handle) else t
  | none => t

def receiveSegment (t : TcpConnectionTable) (tuple : TcpTuple) (segment : TcpSegment)
    (now : UInt64) : TcpConnectionTable × Except TcpConnectionError TcpReceiveResult :=
  match validateSegment tuple segment with
  | .error e => (t, .error e)
  | .ok () =>
    match t.findTupleMut tuple with
    | none => (t, .error .notFound)
    | some (i, c) =>
      let listener := t.awaiting c.handle
      -- room in `ready` is reserved before the segment can establish the connection
      if listener.any fun l => !reserveHandle alloc .ready l.2.ready then (t, .error .capacity)
      else
        let received := c.onSegment segment now
        ((t.setConnection i received.1).noteCompletion received.1 c.handle listener, received.2)

def accept (t : TcpConnectionTable) (listener owner : UInt64) :
    Option (TcpConnectionTable × Except TcpConnectionError (Option (UInt64 × TcpTuple))) :=
  match findRow (fun l => l.handle = listener) t.listeners with
  | none => some (t, .error .notFound)
  | some (i, l) =>
    if l.owner ≠ owner then some (t, .error .ownership)
    else
      let t := t.prunePending
      match t.listeners[i]? with
      | none => none
      | some l =>
        match l.ready with
        | [] => some (t, .ok none)
        | handle :: _ =>
          match t.connections.find? fun c => c.handle = handle with
          | none => none
          | some c => some (t.setListener i (l.release handle), .ok (some (handle, c.tuple)))

def listenerReady (t : TcpConnectionTable) (handle owner : UInt64) :
    Option (TcpConnectionTable × Except TcpConnectionError Bool) :=
  match findRow (fun l => l.handle = handle) t.listeners with
  | none => some (t, .error .notFound)
  | some (i, l) =>
    if l.owner ≠ owner then some (t, .error .ownership)
    else
      let t := t.prunePending
      match t.listeners[i]? with
      | none => none
      | some l => some (t, .ok !l.ready.isEmpty)

def setBacklog (t : TcpConnectionTable) (handle owner : UInt64) (backlog : ℕ) :
    TcpConnectionTable × Except TcpConnectionError Unit :=
  match findRow (fun l => l.handle = handle) t.listeners with
  | none => (t, .error .notFound)
  | some (i, l) =>
    if l.owner ≠ owner then (t, .error .ownership)
    else if backlog = 0 then (t, .error .invalidState)
    else (t.setListener i { l with config := { l.config with backlog } }, .ok ())

def closeListener (t : TcpConnectionTable) (handle owner : UInt64) :
    TcpConnectionTable × Except TcpConnectionError Unit :=
  match findRow (fun l => l.handle = handle) t.listeners with
  | none => (t, .error .notFound)
  | some (i, l) =>
    if l.owner ≠ owner then (t, .error .ownership)
    else
      ({ t with
          listeners := swapRemove t.listeners i,
          connections := t.connections.filter fun c => c.handle ∉ l.pending },
        .ok ())

end TcpConnectionTable

end MochiSyscalls.NetworkStack
