import MochiSyscalls.NetworkStack.UdpSockets

/-! # Runs of the UDP socket table

The history of a table beside the table: the identities it issued, the datagrams it accepted under
each identity and the packets it returned. An identity's queue is what was accepted under it less
what was returned, so the packets returned are, in order, a part of the datagrams accepted that
starts with the first. -/

namespace MochiSyscalls.NetworkStack
open Foundations Words Rows List UdpSocketTable
set_option autoImplicit false

def packetsOf (id : UInt64) (log : List (UInt64 × UdpPacket)) : List UdpPacket :=
  (log.filter fun e => e.1 = id).map Prod.snd

theorem packetsOf_snoc_self (id : UInt64) (log : List (UInt64 × UdpPacket)) (p : UdpPacket) :
    packetsOf id (log ++ [(id, p)]) = packetsOf id log ++ [p] := by simp [packetsOf]

theorem packetsOf_snoc_of_ne {id id' : UInt64} (h : id' ≠ id) (log : List (UInt64 × UdpPacket)) (p : UdpPacket) :
    packetsOf id (log ++ [(id', p)]) = packetsOf id log := by simp [packetsOf, h]

theorem packetsOf_eq_nil {id : UInt64} {log : List (UInt64 × UdpPacket)} (h : ∀ e ∈ log, e.1 ≠ id) :
    packetsOf id log = [] := by
  rw [packetsOf, map_eq_nil_iff, filter_eq_nil_iff]
  intro e he
  simpa using h e he

inductive UdpOp where
  | bind (alloc : UdpStorage → Bool) (requestedPort : UInt16)
  | bindEndpoint (alloc : UdpStorage → Bool) (address : Address) (requestedPort : UInt16)
  | setPeer (id : UInt64) (peer : Option UdpEndpoint)
  | unbind (port : UInt16)
  | unbindEndpoint (id : UInt64)
  | enqueue (alloc : UdpStorage → Bool) (source destination : Address) (d : UdpDatagram)
  | receiveFor (id : UInt64)
  | receive (port : UInt16)

structure UdpHistory where
  table : UdpSocketTable
  issued : List UInt64
  accepted : List (UInt64 × UdpPacket)
  returned : List (UInt64 × UdpPacket)

namespace UdpHistory

variable (socketLimit : ℕ)

def new (queueLimit payloadLimit : ℕ) : UdpHistory :=
  { table := UdpSocketTable.new socketLimit queueLimit payloadLimit, issued := [], accepted := [], returned := [] }

/-- The identities issued after a call of `bind_endpoint` that ended with `r`. -/
def issue (h : UdpHistory) (r : Except PacketError UInt64) : List UInt64 :=
  match r with
  | .ok id => h.issued ++ [id]
  | .error _ => h.issued

/-- The log after a call of `enqueue` that ended with `r`: the datagram goes to the binding found. -/
def accept (h : UdpHistory) (source destination : Address) (d : UdpDatagram) (r : Except PacketError Unit) :
    List (UInt64 × UdpPacket) :=
  match r, findRow (fun b : UdpBinding => b.Matches destination d.destinationPort) h.table.bindings with
  | .ok _, some (_, b) => h.accepted ++ [(b.id, UdpSocketTable.packet source destination d)]
  | _, _ => h.accepted

/-- The log after a call of `receive_for` that ended with `r`. -/
def give (h : UdpHistory) (id : UInt64) (r : Except PacketError (Option UdpPacket)) : List (UInt64 × UdpPacket) :=
  match r with
  | .ok (some p) => h.returned ++ [(id, p)]
  | _ => h.returned

/-- One operation on the table, logged. `bind` and `receive` issue and return through
`bind_endpoint` and `receive_for`. -/
def step (h : UdpHistory) : UdpOp → UdpHistory
  | .bind alloc port =>
    { h with table := (h.table.bind alloc port).1, issued := h.issue (h.table.bindEndpoint alloc Address.any port).2 }
  | .bindEndpoint alloc address port =>
    let r := h.table.bindEndpoint alloc address port
    { h with table := r.1, issued := h.issue r.2 }
  | .setPeer id peer => { h with table := (h.table.setPeer id peer).1 }
  | .unbind port => { h with table := (h.table.unbind port).1 }
  | .unbindEndpoint id => { h with table := (h.table.unbindEndpoint id).1 }
  | .enqueue alloc source destination d =>
    let r := h.table.enqueue alloc source destination d
    { h with table := r.1, accepted := h.accept source destination d r.2 }
  | .receiveFor id =>
    let r := h.table.receiveFor id
    { h with table := r.1, returned := h.give id r.2 }
  | .receive port =>
    match h.table.wildcardId port with
    | none => { h with table := (h.table.receive port).1 }
    | some id => { h with table := (h.table.receive port).1, returned := h.give id (h.table.receiveFor id).2 }

/-! ## The invariant -/

structure Tracks (h : UdpHistory) : Prop where
  cursor : UdpSocketTable.Ephemeral h.table.nextEphemeral
  apart : (h.table.bindings.map UdpBinding.endpoint).Pairwise fun a b => ¬ a.Overlaps b
  ids : (h.table.bindings.map UdpBinding.id).Nodup
  issuedOnce : h.issued.Nodup
  issuedLt : ∀ id ∈ h.issued, id.toNat < h.table.nextId.toNat
  bound : ∀ b ∈ h.table.bindings, b.id ∈ h.issued
  sockets : h.table.bindings.length ≤ h.table.socketLimit
  queues : ∀ b ∈ h.table.bindings, b.received.length ≤ h.table.queueLimit
  known : ∀ e ∈ h.accepted, e.1 ∈ h.issued
  queued : ∀ b ∈ h.table.bindings, packetsOf b.id h.accepted = packetsOf b.id h.returned ++ b.received
  ordered : ∀ id, packetsOf id h.returned <+: packetsOf id h.accepted

theorem tracks_new (queueLimit payloadLimit : ℕ) : (new socketLimit queueLimit payloadLimit).Tracks where
  cursor := ⟨le_rfl, show ephemeralPortStart.toNat ≤ ephemeralPortEnd.toNat by decide⟩
  apart := List.Pairwise.nil
  ids := nodup_nil
  issuedOnce := nodup_nil
  issuedLt := nofun
  bound := nofun
  sockets := Nat.zero_le _
  queues := nofun
  known := nofun
  queued := nofun
  ordered := fun _ => nil_prefix

theorem overlaps_symm {a b : UdpEndpoint} (h : a.Overlaps b) : b.Overlaps a := by
  obtain ⟨hp, ha | hb | he⟩ := h
  · exact ⟨hp.symm, .inr (.inl ha)⟩
  · exact ⟨hp.symm, .inl hb⟩
  · exact ⟨hp.symm, .inr (.inr he.symm)⟩

variable {h : UdpHistory}

theorem Tracks.move (ht : h.Tracks) {cursor : UInt16} (hc : UdpSocketTable.Ephemeral cursor) :
    Tracks { h with table := { h.table with nextEphemeral := cursor } } :=
  { ht with cursor := hc }

theorem Tracks.bindEndpoint (ht : h.Tracks) (alloc : UdpStorage → Bool) (address : Address)
    (port : UInt16) : (h.step (.bindEndpoint alloc address port)).Tracks := by
  unfold step
  obtain ⟨cursor, hc, ⟨e, he⟩ | ⟨port, hfree, hlen, hid, he⟩⟩ :=
    bindEndpoint_cases alloc ht.cursor address port
  · dsimp only
    rw [he]
    exact ht.move hc
  dsimp only
  rw [he]
  have hlt := h.table.nextId.toNat_lt
  have hnext : (h.table.nextId + 1).toNat = h.table.nextId.toNat + 1 := by
    have hne : h.table.nextId.toNat ≠ u64Max.toNat := fun hc => hid (UInt64.toNat_inj.mp hc)
    have hmax : u64Max.toNat = 2 ^ 64 - 1 := rfl
    have h1 : (1 : UInt64).toNat = 1 := rfl
    rw [UInt64.toNat_add, h1]
    omega
  have hnew : h.table.nextId ∉ h.issued := fun hm => lt_irrefl _ (ht.issuedLt _ hm)
  have hacc : packetsOf h.table.nextId h.accepted = [] :=
    packetsOf_eq_nil fun e hm hc => hnew (hc ▸ ht.known e hm)
  refine { cursor := hc, apart := ?_, ids := ?_, issuedOnce := ?_, issuedLt := ?_, bound := ?_, sockets := ?_,
           queues := ?_, known := ?_, queued := ?_, ordered := ht.ordered }
  · rw [map_append]
    exact pairwise_snoc ht.apart (forall_mem_map.mpr fun c hcm ho => hfree ⟨c, hcm, ho⟩)
  · rw [map_append]
    refine pairwise_snoc ht.ids (forall_mem_map.mpr fun c hcm (heq : c.id = h.table.nextId) => ?_)
    exact hnew (heq ▸ ht.bound c hcm)
  · exact nodup_snoc ht.issuedOnce hnew
  · intro id hm
    rw [hnext]
    obtain hm | rfl := mem_snoc.mp hm
    · exact Nat.lt_succ_of_lt (ht.issuedLt id hm)
    · exact Nat.lt_succ_self _
  · intro b hb
    obtain hb | rfl := mem_snoc.mp hb
    · exact mem_append_left _ (ht.bound b hb)
    · exact mem_append_right _ (mem_singleton_self _)
  · rw [length_append, length_singleton]
    exact hlen
  · intro b hb
    obtain hb | rfl := mem_snoc.mp hb
    · exact ht.queues b hb
    · exact Nat.zero_le _
  · exact fun e hm => mem_append_left _ (ht.known e hm)
  · intro b hb
    obtain hb | rfl := mem_snoc.mp hb
    · exact ht.queued b hb
    · have hret := ht.ordered h.table.nextId
      rw [hacc, prefix_nil] at hret
      rw [hacc, hret]
      rfl

theorem bind_table (alloc : UdpStorage → Bool) (t : UdpSocketTable) (port : UInt16) :
    (t.bind alloc port).1 = (t.bindEndpoint alloc Address.any port).1 := by
  unfold UdpSocketTable.bind
  split <;> rename_i he <;> rw [he]

theorem Tracks.setBinding (ht : h.Tracks) {i : ℕ} {b b' : UdpBinding}
    {accepted returned : List (UInt64 × UdpPacket)} (hi : h.table.bindings[i]? = some b) (hid : b'.id = b.id)
    (hend : b'.endpoint = b.endpoint) (hlen : b'.received.length ≤ h.table.queueLimit)
    (hknown : ∀ e ∈ accepted, e.1 ∈ h.issued)
    (hother : ∀ id, id ≠ b.id → packetsOf id accepted = packetsOf id h.accepted ∧
      packetsOf id returned = packetsOf id h.returned)
    (hself : packetsOf b.id accepted = packetsOf b.id returned ++ b'.received) :
    Tracks { h with table := h.table.setBinding i b', accepted, returned } := by
  have hrows : List.Forall₂ (fun x y : UdpBinding => y.id = x.id ∧ y.endpoint = x.endpoint) h.table.bindings
      (h.table.bindings.set i b') := forall₂_set (fun _ => ⟨rfl, rfl⟩) hi ⟨hid, hend⟩
  have hmem : b ∈ h.table.bindings := mem_of_getElem? hi
  have hcases : ∀ c ∈ h.table.bindings.set i b', c = b' ∨ (c ∈ h.table.bindings ∧ c.id ≠ b.id) :=
    fun c hc => mem_set_of_key ht.ids hi hid hc
  refine { cursor := ht.cursor, apart := ?_, ids := ?_, issuedOnce := ht.issuedOnce, issuedLt := ht.issuedLt,
           bound := ?_, sockets := ?_, queues := ?_, known := hknown, queued := ?_, ordered := ?_ }
  · change ((h.table.bindings.set i b').map UdpBinding.endpoint).Pairwise _
    rw [map_eq_of_forall₂ (fun _ _ hr => hr.2) hrows]
    exact ht.apart
  · change ((h.table.bindings.set i b').map UdpBinding.id).Nodup
    rw [map_eq_of_forall₂ (fun _ _ hr => hr.1) hrows]
    exact ht.ids
  · intro c hc
    obtain rfl | ⟨hc, _⟩ := hcases c hc
    · rw [hid]
      exact ht.bound b hmem
    · exact ht.bound c hc
  · change (h.table.bindings.set i b').length ≤ _
    rw [length_set]
    exact ht.sockets
  · intro c hc
    obtain rfl | ⟨hc, _⟩ := hcases c hc
    · exact hlen
    · exact ht.queues c hc
  · intro c hc
    obtain rfl | ⟨hc, hne⟩ := hcases c hc
    · rw [hid]
      exact hself
    · rw [(hother c.id hne).1, (hother c.id hne).2]
      exact ht.queued c hc
  · intro id
    by_cases he : id = b.id
    · subst he
      exact ⟨b'.received, hself.symm⟩
    · rw [(hother id he).1, (hother id he).2]
      exact ht.ordered id

theorem Tracks.setPeer (ht : h.Tracks) (id : UInt64) (peer : Option UdpEndpoint) :
    (h.step (.setPeer id peer)).Tracks := by
  unfold step UdpSocketTable.setPeer
  dsimp only
  cases hf : findRow (fun b : UdpBinding => b.id = id) h.table.bindings with
  | none => exact ht
  | some r =>
    obtain ⟨i, b⟩ := r
    obtain ⟨hi, _⟩ := findRow_some hf
    have hmem := mem_of_getElem? hi
    exact ht.setBinding hi rfl rfl (ht.queues b hmem) ht.known (fun _ _ => ⟨rfl, rfl⟩) (ht.queued b hmem)

theorem Tracks.enqueue (ht : h.Tracks) (alloc : UdpStorage → Bool) (source destination : Address)
    (d : UdpDatagram) : (h.step (.enqueue alloc source destination d)).Tracks := by
  unfold step accept
  dsimp only
  obtain ⟨e, he⟩ | ⟨i, b, hf, hlen, he⟩ := enqueue_cases alloc h.table source destination d
  · rw [he]
    exact ht
  rw [he, hf]
  obtain ⟨hi, _⟩ := findRow_some hf
  have hmem := mem_of_getElem? hi
  refine ht.setBinding hi rfl rfl ?_ ?_ ?_ ?_
  · rw [length_append]
    exact hlen
  · intro e hm
    obtain hm | rfl := mem_snoc.mp hm
    · exact ht.known e hm
    · exact ht.bound b hmem
  · exact fun id hne => ⟨packetsOf_snoc_of_ne (Ne.symm hne) _ _, rfl⟩
  · rw [packetsOf_snoc_self, ht.queued b hmem, append_assoc]

theorem Tracks.receiveFor (ht : h.Tracks) (id : UInt64) : (h.step (.receiveFor id)).Tracks := by
  unfold step give
  dsimp only
  obtain he | he | ⟨i, b, p, rest, hi, rfl, hr, he⟩ := receiveFor_cases h.table id
  · rw [he]
    exact ht
  · rw [he]
    exact ht
  rw [he]
  have hmem := mem_of_getElem? hi
  have hqueue := ht.queued b hmem
  have hlen := ht.queues b hmem
  rw [hr, length_cons] at hlen
  refine ht.setBinding hi rfl rfl (Nat.le_of_succ_le hlen) ht.known ?_ ?_
  · exact fun id hne => ⟨rfl, packetsOf_snoc_of_ne (Ne.symm hne) _ _⟩
  · rw [packetsOf_snoc_self, hqueue, hr, append_assoc]
    rfl

theorem receive_table {t : UdpSocketTable} {port : UInt16} {id : UInt64} (h : t.wildcardId port = some id) :
    (t.receive port).1 = (t.receiveFor id).1 := by
  unfold receive
  rw [h]
  dsimp only
  split <;> rename_i he <;> rw [he]

theorem Tracks.unbindEndpoint (ht : h.Tracks) (id : UInt64) : (h.step (.unbindEndpoint id)).Tracks := by
  unfold step UdpSocketTable.unbindEndpoint
  dsimp only
  cases hf : findRow (fun b : UdpBinding => b.id = id) h.table.bindings with
  | none => exact ht
  | some r =>
    obtain ⟨i, b⟩ := r
    obtain ⟨hlt, _⟩ := List.getElem?_eq_some_iff.mp (findRow_some hf).1
    have hperm := swapRemove_perm hlt
    have hsub : (h.table.bindings.eraseIdx i).Sublist h.table.bindings := List.eraseIdx_sublist ..
    have hmem : ∀ c ∈ swapRemove h.table.bindings i, c ∈ h.table.bindings :=
      fun c hc => hsub.subset (hperm.mem_iff.mp hc)
    refine { ht with apart := ?_, ids := ?_, bound := ?_, sockets := ?_, queues := ?_, queued := ?_ }
    · rw [(hperm.map _).pairwise_iff fun hab ho => hab (overlaps_symm ho)]
      exact ht.apart.sublist (hsub.map _)
    · rw [(hperm.map _).nodup_iff]
      exact ht.ids.sublist (hsub.map _)
    · exact fun c hc => ht.bound c (hmem c hc)
    · dsimp only
      rw [hperm.length_eq]
      exact hsub.length_le.trans ht.sockets
    · exact fun c hc => ht.queues c (hmem c hc)
    · exact fun c hc => ht.queued c (hmem c hc)

theorem Tracks.step (ht : h.Tracks) (op : UdpOp) : (h.step op).Tracks := by
  cases op with
  | bind alloc port =>
    have hb := ht.bindEndpoint alloc Address.any port
    unfold UdpHistory.step at hb ⊢
    dsimp only at hb ⊢
    rw [bind_table]
    exact hb
  | bindEndpoint alloc address port => exact ht.bindEndpoint alloc address port
  | setPeer id peer => exact ht.setPeer id peer
  | unbind port =>
    unfold UdpHistory.step unbind
    dsimp only
    split
    · exact ht
    · exact ht.unbindEndpoint _
  | unbindEndpoint id => exact ht.unbindEndpoint id
  | enqueue alloc source destination d => exact ht.enqueue alloc source destination d
  | receiveFor id => exact ht.receiveFor id
  | receive port =>
    unfold UdpHistory.step
    dsimp only
    split
    next hw =>
      unfold receive
      rw [hw]
      exact ht
    next id hw =>
      rw [receive_table hw]
      exact ht.receiveFor id

theorem tracks_run (queueLimit payloadLimit : ℕ) (ops : List UdpOp) :
    (Runs.run step (new socketLimit queueLimit payloadLimit) ops).Tracks :=
  Runs.run_invariant step (fun _ op ht => ht.step op) (tracks_new socketLimit queueLimit payloadLimit) ops

theorem Tracks.step_limits (ht : h.Tracks) (op : UdpOp) :
    (h.step op).table.socketLimit = h.table.socketLimit ∧ (h.step op).table.queueLimit = h.table.queueLimit := by
  have hbind : ∀ alloc address port, (h.table.bindEndpoint alloc address port).1.socketLimit = h.table.socketLimit ∧
      (h.table.bindEndpoint alloc address port).1.queueLimit = h.table.queueLimit := by
    intro alloc address port
    obtain ⟨_, _, ⟨_, he⟩ | ⟨_, _, _, _, he⟩⟩ := bindEndpoint_cases alloc ht.cursor address port <;>
      rw [he] <;> exact ⟨rfl, rfl⟩
  have hunbind : ∀ id, (h.table.unbindEndpoint id).1.socketLimit = h.table.socketLimit ∧
      (h.table.unbindEndpoint id).1.queueLimit = h.table.queueLimit := by
    intro id
    unfold UdpSocketTable.unbindEndpoint
    split <;> exact ⟨rfl, rfl⟩
  have hreceive : ∀ id, (h.table.receiveFor id).1.socketLimit = h.table.socketLimit ∧
      (h.table.receiveFor id).1.queueLimit = h.table.queueLimit := by
    intro id
    obtain he | he | ⟨_, _, _, _, _, _, _, he⟩ := receiveFor_cases h.table id <;> rw [he] <;>
      exact ⟨rfl, rfl⟩
  cases op with
  | bind alloc port =>
    unfold UdpHistory.step
    dsimp only
    rw [bind_table]
    exact hbind alloc Address.any port
  | bindEndpoint alloc address port => exact hbind alloc address port
  | setPeer id peer =>
    unfold UdpHistory.step UdpSocketTable.setPeer
    dsimp only
    split <;> exact ⟨rfl, rfl⟩
  | unbind port =>
    unfold UdpHistory.step UdpSocketTable.unbind
    dsimp only
    split
    · exact ⟨rfl, rfl⟩
    · exact hunbind _
  | unbindEndpoint id => exact hunbind id
  | enqueue alloc source destination d =>
    unfold UdpHistory.step
    dsimp only
    obtain ⟨_, he⟩ | ⟨_, _, _, _, he⟩ := enqueue_cases alloc h.table source destination d <;> rw [he] <;>
      exact ⟨rfl, rfl⟩
  | receiveFor id => exact hreceive id
  | receive port =>
    unfold UdpHistory.step
    dsimp only
    split
    next hw =>
      unfold receive
      rw [hw]
      exact ⟨rfl, rfl⟩
    next id hw =>
      rw [receive_table hw]
      exact hreceive id

theorem limits_run (queueLimit payloadLimit : ℕ) (ops : List UdpOp) :
    (Runs.run step (new socketLimit queueLimit payloadLimit) ops).table.socketLimit = socketLimit ∧
    (Runs.run step (new socketLimit queueLimit payloadLimit) ops).table.queueLimit = queueLimit := by
  have hinv := Runs.run_invariant step
    (P := fun h => h.Tracks ∧ h.table.socketLimit = socketLimit ∧ h.table.queueLimit = queueLimit)
    (fun h op hp => ⟨hp.1.step op, (hp.1.step_limits op).1.trans hp.2.1, (hp.1.step_limits op).2.trans hp.2.2⟩)
    ⟨tracks_new socketLimit queueLimit payloadLimit, rfl, rfl⟩ ops
  exact hinv.2

/-! ## The socket table over whole runs -/

theorem overlaps_of_matches {a b : UdpBinding} {address : Address} {port : UInt16} (ha : a.Matches address port)
    (hb : b.Matches address port) : a.endpoint.Overlaps b.endpoint := by
  obtain ⟨hpa, ha⟩ := ha
  obtain ⟨hpb, hb⟩ := hb
  refine ⟨hpa.trans hpb.symm, ?_⟩
  obtain ha | ha := ha
  · exact .inl ha
  obtain hb | hb := hb
  · exact .inr (.inl hb)
  · exact .inr (.inr (ha.trans hb.symm))

theorem Tracks.matching (ht : h.Tracks) (address : Address) (port : UInt16) :
    (h.table.bindings.filter fun b => b.Matches address port).length ≤ 1 := by
  have hpair : h.table.bindings.Pairwise fun a b => ¬ a.endpoint.Overlaps b.endpoint :=
    pairwise_map.mp ht.apart
  exact filter_length_le_one hpair fun a b ha hb hab => hab (overlaps_of_matches ha hb)

/-- **The socket table.** Bindings do not overlap, identities are issued once, the limits hold, packets come back in the
order they were accepted, and failures change nothing. -/
theorem socket_table (socketLimit queueLimit payloadLimit : ℕ) (ops : List UdpOp) :
    let h := Runs.run step (new socketLimit queueLimit payloadLimit) ops
    h.table.bindings.Pairwise (fun a b => ¬ a.endpoint.Overlaps b.endpoint) ∧ h.issued.Nodup ∧
    h.table.bindings.length ≤ socketLimit ∧ (∀ b ∈ h.table.bindings, b.received.length ≤ queueLimit) ∧
    (∀ address port, (h.table.bindings.filter fun b => b.Matches address port).length ≤ 1) ∧
    (∀ id, packetsOf id h.returned <+: packetsOf id h.accepted) ∧
    (∀ b ∈ h.table.bindings, packetsOf b.id h.accepted = packetsOf b.id h.returned ++ b.received) ∧
    (∀ alloc source destination d e, (h.table.enqueue alloc source destination d).2 = .error e →
      (h.table.enqueue alloc source destination d).1 = h.table) ∧
    ∀ alloc address, h.table.bindings.length < socketLimit → h.table.nextId ≠ u64Max →
      (h.table.bindEndpoint alloc address 0).2 = .error .capacity →
      (∀ port : UInt16, 49152 ≤ port.toNat → port.toNat ≤ 65535 → h.table.Conflicts { address, port }) ∨
        alloc .bindings = false ∨ h.table.reservesQueue alloc = false := by
  have ht := tracks_run socketLimit queueLimit payloadLimit ops
  obtain ⟨hsockets, hqueue⟩ := limits_run socketLimit queueLimit payloadLimit ops
  refine ⟨pairwise_map.mp ht.apart, ht.issuedOnce, ht.sockets.trans hsockets.le,
    fun b hb => (ht.queues b hb).trans hqueue.le, ht.matching, ht.ordered, ht.queued, ?_, ?_⟩
  · intro alloc source destination d e he
    obtain ⟨e', hr⟩ | ⟨i, b, _, _, hr⟩ := enqueue_cases alloc
      (Runs.run step (new socketLimit queueLimit payloadLimit) ops).table source destination d
    · rw [hr]
    · rw [hr] at he
      cases he
  · intro alloc address hlen hid hcap
    obtain hbusy | hstorage := bindEndpoint_capacity ht.cursor (hlen.trans_le hsockets.ge) hid hcap
    · exact .inl fun port hlo hhi => hbusy port ⟨hlo, hhi⟩
    · exact .inr hstorage

end UdpHistory

namespace UdpTableFixture

def near : Address := ⟨10, 0, 2, 15⟩
def far : Address := ⟨10, 0, 2, 3⟩

def query (payload : List UInt8) : UdpDatagram := { sourcePort := 53, destinationPort := 5300, payload }

def ops : List UdpOp :=
  [.bind (fun _ => true) 5300, .enqueue (fun _ => true) far near (query [1]),
    .enqueue (fun _ => true) far near (query [2]), .receive 5300]

theorem socket_table_fixture : let h := Runs.run UdpHistory.step (UdpHistory.new 2 2 512) ops
    packetsOf 1 h.returned = [UdpSocketTable.packet far near (query [1])] ∧
      packetsOf 1 h.returned <+: packetsOf 1 h.accepted ∧
      (h.table.enqueue (fun _ => false) far near (query [3])).1 = h.table ∧
      (h.table.bindEndpoint (fun _ => false) near 0).2 = .error .capacity := by
  have ht := UdpHistory.socket_table 2 2 512 ops
  dsimp only at ht ⊢
  obtain ⟨_, _, _, _, _, hordered, _, henqueue, _⟩ := ht
  exact ⟨by decide, hordered 1, henqueue _ _ _ _ .capacity (by decide), by decide⟩

/-- A queue limit that no storage can hold refuses every bind of an empty table. -/
theorem ephemeral_refused_without_storage : let h := Runs.run UdpHistory.step (UdpHistory.new 1 usizeMax 512) []
    h.table.bindings.length < 1 ∧ h.table.nextId ≠ u64Max ∧
      (h.table.bindEndpoint (fun _ => true) near 0).2 = .error .capacity ∧
      ¬ h.table.Conflicts { address := near, port := 49152 } := by
  decide

end UdpTableFixture

end MochiSyscalls.NetworkStack
