import MochiSyscalls.Foundations.Cursor
import MochiSyscalls.Foundations.Rows
import MochiSyscalls.Foundations.Runs
import MochiSyscalls.NetworkStack.UdpDatagram

/-! # The UDP socket table

`UdpSocketTable` (`crates/network-stack/src/udp.rs`): bindings with a bounded queue each, found by
identity or by the endpoint a datagram is sent to. The history of a table keeps, next to it, the
identities issued, the datagrams accepted and the packets returned, in order. -/

namespace MochiSyscalls.NetworkStack
open Foundations Words Rows
set_option autoImplicit false

def ephemeralPortStart : UInt16 := 49152
def ephemeralPortEnd : UInt16 := 65535

structure UdpPacket where
  sourceAddress : Address
  destinationAddress : Address
  sourcePort : UInt16
  destinationPort : UInt16
  payload : List UInt8
  deriving DecidableEq, Repr

structure UdpEndpoint where
  address : Address
  port : UInt16
  deriving DecidableEq, Repr

def UdpEndpoint.Overlaps (a b : UdpEndpoint) : Prop :=
  a.port = b.port ∧ (a.address = Address.any ∨ b.address = Address.any ∨ a.address = b.address)
  deriving Decidable

/-- A binding; `endpoint` is the source's field `local`. -/
structure UdpBinding where
  id : UInt64
  endpoint : UdpEndpoint
  peer : Option UdpEndpoint
  received : List UdpPacket
  deriving DecidableEq, Repr

def UdpBinding.Matches (b : UdpBinding) (address : Address) (port : UInt16) : Prop :=
  b.endpoint.port = port ∧ (b.endpoint.address = Address.any ∨ b.endpoint.address = address)
  deriving Decidable

/-- The storage requests an operation makes of the allocator, each at most once per call. -/
inductive UdpStorage where
  | bindings
  | received
  | payload
  deriving DecidableEq, Repr

/-- The size of a `UdpPacket` record in bytes. -/
def udpPacketSize : ℕ := 40

structure UdpSocketTable where
  bindings : List UdpBinding
  socketLimit : ℕ
  queueLimit : ℕ
  payloadLimit : ℕ
  nextEphemeral : UInt16
  nextId : UInt64
  deriving DecidableEq, Repr

namespace UdpSocketTable

def new (socketLimit queueLimit payloadLimit : ℕ) : UdpSocketTable :=
  { bindings := [], socketLimit, queueLimit, payloadLimit, nextEphemeral := ephemeralPortStart, nextId := 1 }

/-! ## Operations -/

variable (t : UdpSocketTable)

def Conflicts (e : UdpEndpoint) : Prop := ∃ b ∈ t.bindings, b.endpoint.Overlaps e
  deriving Decidable

def advance (candidate : UInt16) : UInt16 :=
  if candidate = ephemeralPortEnd then ephemeralPortStart else candidate + 1

/-- `allocate_ephemeral`; the loop makes one turn over the ephemeral ports. -/
def allocateEphemeral (address : Address) : UdpSocketTable × Option UInt16 :=
  let r := Cursor.search advance (fun candidate => t.Conflicts { address, port := candidate })
    (ephemeralPortEnd.toNat - ephemeralPortStart.toNat + 1) t.nextEphemeral
  ({ t with nextEphemeral := r.1 }, r.2)

def choosePort (address : Address) (requestedPort : UInt16) : UdpSocketTable × Except PacketError UInt16 :=
  if requestedPort = 0 then
    match t.allocateEphemeral address with
    | (t, some port) => (t, .ok port)
    | (t, none) => (t, .error .capacity)
  else if t.Conflicts { address, port := requestedPort } then (t, .error .mismatch)
  else (t, .ok requestedPort)

variable (alloc : UdpStorage → Bool)

/-- `try_reserve(queue_limit)` for the queue of a new binding. -/
def reservesQueue : Bool :=
  decide (t.queueLimit * udpPacketSize ≤ isizeMax) && alloc .received

/-- The end of `bind_endpoint`: every allocation first, then the binding and its identity. -/
def publish (t : UdpSocketTable) (address : Address) (port : UInt16) : UdpSocketTable × Except PacketError UInt64 :=
  if !alloc .bindings then (t, .error .capacity)
  else if !t.reservesQueue alloc then (t, .error .capacity)
  else
    ({ t with
        bindings := t.bindings ++ [{ id := t.nextId, endpoint := { address, port }, peer := none, received := [] }]
        nextId := t.nextId + 1 },
      .ok t.nextId)

def bindEndpoint (t : UdpSocketTable) (address : Address) (requestedPort : UInt16) :
    UdpSocketTable × Except PacketError UInt64 :=
  if t.bindings.length ≥ t.socketLimit ∨ t.nextId = u64Max then (t, .error .capacity)
  else
    match t.choosePort address requestedPort with
    | (t, .error e) => (t, .error e)
    | (t, .ok port) => t.publish alloc address port

def binding (id : UInt64) : Except PacketError UdpBinding :=
  match findRow (fun b : UdpBinding => b.id = id) t.bindings with
  | some (_, b) => .ok b
  | none => .error .mismatch

def localEndpoint (id : UInt64) : Except PacketError UdpEndpoint :=
  (t.binding id).map UdpBinding.endpoint

def bind (t : UdpSocketTable) (requestedPort : UInt16) : UdpSocketTable × Except PacketError UInt16 :=
  match t.bindEndpoint alloc Address.any requestedPort with
  | (t, .error e) => (t, .error e)
  | (t, .ok id) => (t, (t.localEndpoint id).map UdpEndpoint.port)

def setBinding (i : ℕ) (b : UdpBinding) : UdpSocketTable :=
  { t with bindings := t.bindings.set i b }

def setPeer (id : UInt64) (peer : Option UdpEndpoint) : UdpSocketTable × Except PacketError Unit :=
  match findRow (fun b : UdpBinding => b.id = id) t.bindings with
  | none => (t, .error .mismatch)
  | some (i, b) => (t.setBinding i { b with peer }, .ok ())

def unbindEndpoint (id : UInt64) : UdpSocketTable × Bool :=
  match findRow (fun b : UdpBinding => b.id = id) t.bindings with
  | none => (t, false)
  | some (i, _) => ({ t with bindings := swapRemove t.bindings i }, true)

variable (port : UInt16)

def wildcardId : Option UInt64 :=
  (findRow (fun b : UdpBinding => b.endpoint = { address := Address.any, port }) t.bindings).map fun r => r.2.id

def unbind : UdpSocketTable × Bool :=
  match t.wildcardId port with
  | none => (t, false)
  | some id => t.unbindEndpoint id

def packet (source destination : Address) (d : UdpDatagram) : UdpPacket :=
  { sourceAddress := source, destinationAddress := destination, sourcePort := d.sourcePort,
    destinationPort := d.destinationPort, payload := d.payload }

/-- The peer filter of `enqueue`. -/
def foreign (b : UdpBinding) (source : Address) (d : UdpDatagram) : Bool :=
  match b.peer with
  | none => false
  | some peer => peer.address != source || peer.port != d.sourcePort

def enqueue (t : UdpSocketTable) (source destination : Address) (d : UdpDatagram) :
    UdpSocketTable × Except PacketError Unit :=
  if d.payload.length > t.payloadLimit then (t, .error .capacity)
  else
    match findRow (fun b : UdpBinding => b.Matches destination d.destinationPort) t.bindings with
    | none => (t, .error .mismatch)
    | some (i, b) =>
      if foreign b source d then (t, .error .mismatch)
      else if b.received.length ≥ t.queueLimit then (t, .error .capacity)
      else if !alloc .payload then (t, .error .capacity)
      else (t.setBinding i { b with received := b.received ++ [packet source destination d] }, .ok ())

def receiveFor (id : UInt64) : UdpSocketTable × Except PacketError (Option UdpPacket) :=
  match findRow (fun b : UdpBinding => b.id = id) t.bindings with
  | none => (t, .error .mismatch)
  | some (i, b) => (t.setBinding i { b with received := b.received.tail }, .ok b.received.head?)

def receive : UdpSocketTable × Option UdpPacket :=
  match t.wildcardId port with
  | none => (t, none)
  | some id =>
    match t.receiveFor id with
    | (t, .ok p) => (t, p)
    | (t, .error _) => (t, none)

/-! ## What one operation does -/

theorem advance_toNat (c : UInt16) :
    (advance c).toNat = Cursor.turn ephemeralPortStart.toNat ephemeralPortEnd.toNat c.toNat := by
  have hlt := c.toNat_lt
  have he : ephemeralPortEnd.toNat = 65535 := rfl
  have h1 : (1 : UInt16).toNat = 1 := rfl
  unfold advance Cursor.turn
  by_cases h : c = ephemeralPortEnd
  · rw [if_pos h, if_pos (congrArg UInt16.toNat h)]
  · have hn : c.toNat ≠ ephemeralPortEnd.toNat := fun hc => h (UInt16.toNat_inj.mp hc)
    rw [if_neg h, if_neg hn, UInt16.toNat_add]
    omega

def Ephemeral : Prop :=
  ephemeralPortStart.toNat ≤ port.toNat ∧ port.toNat ≤ ephemeralPortEnd.toNat

theorem Ephemeral.advance {c : UInt16} (h : Ephemeral c) : Ephemeral (advance c) := by
  unfold Ephemeral
  rw [advance_toNat]
  exact Cursor.turn_range h.1 h.2

section

variable {t : UdpSocketTable} (ht : Ephemeral t.nextEphemeral)
include ht

theorem allocateEphemeral_none {address : Address}
    (h : (t.allocateEphemeral address).2 = none) {port : UInt16} (hp : Ephemeral port) :
    t.Conflicts { address, port } := by
  obtain ⟨k, hk, he⟩ := Cursor.exists_iterate_turn ht.1 ht.2 hp.1 hp.2
  have hbusy := Cursor.search_none h k hk
  have hsemi : Function.Semiconj UInt16.toNat UdpSocketTable.advance
      (Cursor.turn ephemeralPortStart.toNat ephemeralPortEnd.toNat) := advance_toNat
  have hport : UdpSocketTable.advance^[k] t.nextEphemeral = port :=
    UInt16.toNat_inj.mp (((hsemi.iterate_right k) t.nextEphemeral).trans he)
  rw [hport] at hbusy
  exact hbusy

theorem choosePort_cases (address : Address) (requestedPort : UInt16) :
    ∃ cursor r, t.choosePort address requestedPort = ({ t with nextEphemeral := cursor }, r) ∧ Ephemeral cursor ∧
      ∀ port, r = .ok port → ¬ t.Conflicts { address, port } := by
  unfold choosePort
  split
  · have hs := @Cursor.search_invariant UInt16 advance (fun candidate => t.Conflicts { address, port := candidate }) _
      Ephemeral (fun _ => Ephemeral.advance) (ephemeralPortEnd.toNat - ephemeralPortStart.toNat + 1) _ ht
    split
    next t' port he =>
      obtain ⟨rfl, hp⟩ := Prod.mk.inj he
      refine ⟨_, _, rfl, hs.1, ?_⟩
      intro port' hport
      cases hport
      exact (hs.2 port hp).1
    next t' he =>
      obtain ⟨rfl, hp⟩ := Prod.mk.inj he
      exact ⟨_, _, rfl, hs.1, nofun⟩
  · split
    · exact ⟨_, _, rfl, ht, nofun⟩
    next hc =>
      refine ⟨_, _, rfl, ht, ?_⟩
      intro port hport
      cases hport
      exact hc

theorem bindEndpoint_cases (address : Address) (requestedPort : UInt16) :
    ∃ cursor, Ephemeral cursor ∧
      ((∃ e, t.bindEndpoint alloc address requestedPort = ({ t with nextEphemeral := cursor }, .error e)) ∨
      ∃ port, ¬ t.Conflicts { address, port } ∧ t.bindings.length < t.socketLimit ∧ t.nextId ≠ u64Max ∧
        t.bindEndpoint alloc address requestedPort = ({ t with
              bindings := t.bindings ++ [{ id := t.nextId, endpoint := { address, port }, peer := none, received := [] }]
              nextEphemeral := cursor
              nextId := t.nextId + 1 }, .ok t.nextId)) := by
  unfold bindEndpoint
  split
  · exact ⟨t.nextEphemeral, ht, .inl ⟨_, rfl⟩⟩
  rename_i hroom
  obtain ⟨hlen, hid⟩ := not_or.mp hroom
  obtain ⟨cursor, r, hc, hcursor, hfree⟩ := choosePort_cases ht address requestedPort
  rw [hc]
  refine ⟨cursor, hcursor, ?_⟩
  cases r with
  | error e => exact .inl ⟨e, rfl⟩
  | ok port =>
    dsimp only
    unfold publish
    split
    · exact .inl ⟨_, rfl⟩
    split
    · exact .inl ⟨_, rfl⟩
    exact .inr ⟨port, hfree port rfl, not_le.mp hlen, hid, rfl⟩

end

theorem bindEndpoint_capacity {alloc : UdpStorage → Bool} {t : UdpSocketTable} (ht : Ephemeral t.nextEphemeral)
    {address : Address} (hlen : t.bindings.length < t.socketLimit) (hid : t.nextId ≠ u64Max)
    (h : (t.bindEndpoint alloc address 0).2 = .error .capacity) :
    (∀ port, Ephemeral port → t.Conflicts { address, port }) ∨ alloc .bindings = false ∨
      t.reservesQueue alloc = false := by
  unfold bindEndpoint choosePort at h
  rw [if_neg (not_or.mpr ⟨not_le.mpr hlen, hid⟩), if_pos rfl] at h
  cases hp : (t.allocateEphemeral address).2 with
  | none => exact .inl fun port hport => allocateEphemeral_none ht hp hport
  | some port =>
    right
    have he : t.allocateEphemeral address = ((t.allocateEphemeral address).1, some port) := Prod.ext rfl hp
    rw [he] at h
    dsimp only at h
    unfold publish at h
    split at h
    next hb => exact .inl (by simpa using hb)
    split at h
    next hq =>
      right
      rw [Bool.not_eq_true'] at hq
      exact hq
    · cases h

theorem enqueue_cases (t : UdpSocketTable) (source destination : Address) (d : UdpDatagram) :
    (∃ e, t.enqueue alloc source destination d = (t, .error e)) ∨
    ∃ i b, findRow (fun b : UdpBinding => b.Matches destination d.destinationPort) t.bindings = some (i, b) ∧
      b.received.length < t.queueLimit ∧
      t.enqueue alloc source destination d =
        (t.setBinding i { b with received := b.received ++ [packet source destination d] }, .ok ()) := by
  unfold enqueue
  split
  · exact .inl ⟨_, rfl⟩
  split
  · exact .inl ⟨_, rfl⟩
  rename_i i b hf
  split
  · exact .inl ⟨_, rfl⟩
  split
  · exact .inl ⟨_, rfl⟩
  rename_i hlen
  split
  · exact .inl ⟨_, rfl⟩
  exact .inr ⟨i, b, hf, not_le.mp hlen, rfl⟩

theorem receiveFor_cases (id : UInt64) : t.receiveFor id = (t, .error .mismatch) ∨ t.receiveFor id = (t, .ok none) ∨
    ∃ i b p rest, t.bindings[i]? = some b ∧ b.id = id ∧ b.received = p :: rest ∧
      t.receiveFor id = (t.setBinding i { b with received := rest }, .ok (some p)) := by
  unfold receiveFor
  split
  · exact .inl rfl
  rename_i i b hf
  obtain ⟨hi, hid⟩ := findRow_some hf
  right
  cases hr : b.received with
  | nil =>
    left
    have hb : ({ b with received := [] } : UdpBinding) = b := by rw [← hr]
    unfold setBinding
    rw [List.tail_nil, hb, set_self hi]
    rfl
  | cons p rest => exact .inr ⟨i, b, p, rest, hi, hid, hr, rfl⟩

end UdpSocketTable

end MochiSyscalls.NetworkStack
