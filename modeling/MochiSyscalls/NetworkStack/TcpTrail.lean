import MochiSyscalls.NetworkStack.TcpStream

/-! # The traces a pair of connections leaves

Text is taken in whole segments, and a connection acknowledges only what it took. So the passive
side stands at the end of some text segment of the active side, none of these lies beyond the
segment at the front of the active side's queue, and every acknowledgment number lies on the stream
it acknowledges. -/

namespace MochiSyscalls.NetworkStack
open Foundations Words Serial Runs List
set_option autoImplicit false

namespace TcpHistory

/-! ## Whole segments -/

/-- The text of `t` ends before that of `s`, or is the same; both begin within `length` bytes. -/
def Behind (iss : UInt32) (length : ℕ) (t : TcpTransmit) (s : OutstandingSegment) : Prop :=
  ∃ offset offset', s.sequence = adv iss (1 + offset) ∧ t.sequence = adv iss (1 + offset') ∧
    offset ≤ length ∧ offset' + t.payload.length ≤ length ∧
    (offset' + t.payload.length ≤ offset ∨ (offset' = offset ∧ t.payload = s.payload))

variable {t : TcpTransmit}

theorem Behind.mono {iss : UInt32} {length length' : ℕ} {s : OutstandingSegment}
    (h : Behind iss length t s) (hle : length ≤ length') : Behind iss length' t s := by
  obtain ⟨offset, offset', h1, h2, h3, h4, h5⟩ := h
  exact ⟨offset, offset', h1, h2, h3.trans hle, h4.trans hle, h5⟩

/-- `y` stands at the end of some text segment of `x`, and none of them lies beyond the front one. -/
structure Trail (iss : UInt32) (x y : TcpHistory) : Prop where
  sent : y.appended.length ≤ x.sentLength
  edge : y.appended = [] ∨ ∃ t ∈ x.transmitted, t.payload ≠ [] ∧
    adv t.sequence t.payload.length = adv iss (1 + y.appended.length)
  front : ∀ s ∈ x.connection.outstanding, ∀ t ∈ x.transmitted, s.payload ≠ [] → t.payload ≠ [] →
    Behind iss x.sentLength t s

section Trail
variable {iss : UInt32} {x y : TcpHistory}

theorem OnWire.offset {h : TcpHistory} {sequence : UInt32} {flags : UInt16} {payload : List UInt8}
    (hw : OnWire iss h sequence flags payload) (hne : payload ≠ []) :
    flags = tcpFlagAck ||| tcpFlagPsh ∧
      ∃ offset, sequence = adv iss (1 + offset) ∧ offset + payload.length ≤ h.sentLength := by
  cases hw with
  | syn | fin | ack => exact absurd rfl hne
  | text offset _ hsent => exact ⟨rfl, offset, rfl, hsent⟩

theorem acknowledgment_payload (c : TcpConnection) : c.acknowledgment.payload = [] := by
  unfold TcpConnection.acknowledgment
  split <;> rfl

theorem eq_of_mem_of_length_le_one {α : Type} {l : List α} (h : l.length ≤ 1) {a b : α} (ha : a ∈ l)
    (hb : b ∈ l) : a = b := by
  match l with
  | [] => cases ha
  | [c] => rw [mem_singleton.mp ha, mem_singleton.mp hb]
  | c :: d :: rest => simp at h

section

variable (ht : Trail iss x y)
include ht

theorem Trail.write (hs : Sender iss x) (op : StreamOp)
    (hone : (x.step op.toOp).connection.outstanding.length ≤ 1) : Trail iss (x.step op.toOp) y := by
  have hs' := hs.step (toOp_orderly op)
  have hgrow := (step_local_send x op).2
  refine ⟨ht.sent.trans hgrow, ?_, ?_⟩
  · refine ht.edge.imp_right ?_
    rintro ⟨t, hm, hrest⟩
    refine ⟨t, ?_, hrest⟩
    cases op <;> first | exact hm | exact mem_append_left _ hm
  · intro s hm t htr hsp htp
    obtain ht' | ⟨_, rfl⟩ | ⟨s', hm', window, retransmission, rfl⟩ := step_local_wire x op htr
    · obtain ⟨s₀, hm₀, sentAt, retries, rfl⟩ | ⟨hcan, hseq, _⟩ := step_local_queue x op hm
      · exact (ht.front s₀ hm₀ t ht' hsp htp).mono hgrow
      · -- a fresh segment starts where everything sent so far ends
        obtain ⟨_, offset', hseq', hle⟩ := (hs.wire t ht').offset htp
        refine ⟨x.sentLength, offset', ?_, hseq', hgrow, hle.trans hgrow, .inl hle⟩
        rw [hseq, hs.next, hs.open_of_canSend hcan]
        rfl
    · exact absurd (acknowledgment_payload _) htp
    · obtain rfl := eq_of_mem_of_length_le_one hone hm' hm
      obtain ⟨_, offset, hseq, hle⟩ := (hs'.queue s' hm).offset hsp
      exact ⟨offset, offset, hseq, hseq, (Nat.le_add_right _ _).trans hle, hle, .inr ⟨rfl, rfl⟩⟩

theorem Trail.acked {segment : TcpSegment} (hrst : hasFlag segment.flags tcpFlagRst = false) (now : UInt64) :
    Trail iss (x.step (.onSegment segment now)) y := by
  obtain ⟨hout, hsent, _⟩ := step_segment_send x hrst now
  refine ⟨hsent ▸ ht.sent, ht.edge, ?_⟩
  intro s hm
  rw [hsent]
  exact ht.front s (hout s hm)

theorem Trail.read (op : StreamOp) : Trail iss x (y.step op.toOp) := by
  obtain ⟨_, happ, _⟩ := step_local_receive y op.toOp (toOp_local op)
  refine ⟨?_, ?_, ht.front⟩
  · rw [happ]
    exact ht.sent
  · rw [happ]
    exact ht.edge

theorem Trail.receives (hr : Reading iss x y) (hs : Sender iss x)
    (hb : x.accepted.length + 2 < 2 ^ 31) (hm : t ∈ x.transmitted) (tuple : TcpTuple)
    (now : UInt64) : Trail iss x (y.step (.onSegment (t.toSegment tuple) now)) := by
  have hw : OnWire iss x (t.toSegment tuple).sequence (t.toSegment tuple).flags (t.toSegment tuple).payload :=
    hs.wire t hm
  obtain ⟨text, _, hbuf, _, _, _, hfrom⟩ :=
    hr.takes hw hb (TcpConnection.onSegment_received y.connection (t.toSegment tuple) now)
  have happ : (y.step (.onSegment (t.toSegment tuple) now)).appended = y.appended ++ text := by
    simp only [step, observe, hbuf, drop_left]
  refine ⟨?_, ?_, ht.front⟩
  · rw [happ]
    obtain rfl | ⟨rfl, hrecv, htext⟩ := hfrom
    · rw [append_nil]
      exact ht.sent
    · rw [length_append]
      exact (hr.text_at hrecv hw hb htext).2.2.2
  · rw [happ]
    obtain rfl | ⟨rfl, hrecv, htext⟩ := hfrom
    · rw [append_nil]
      exact ht.edge
    · refine .inr ⟨t, hm, htext.1, ?_⟩
      have hseq : t.sequence = y.connection.receiveNext := htext.2.1
      rw [hseq, hr.receiveNext hrecv, (hr.text_at hrecv hw hb htext).1, adv_adv, length_append]
      simp only [Bool.toNat_false, Nat.add_zero, Nat.add_assoc]
      rfl

end

end Trail

/-! ## Acknowledgment numbers -/

/-- `a` acknowledges no more of the stream at `iss` than `z` has taken. -/
def Confirmed (iss : UInt32) (z : TcpHistory) (a : UInt32) : Prop :=
  ∃ k ≤ z.appended.length + z.finConsumed.toNat, a = adv iss (1 + k)

theorem segment_taken_le (y : TcpHistory) (segment : TcpSegment) (now : UInt64) :
    y.appended.length + y.finConsumed.toNat ≤ (y.step (.onSegment segment now)).appended.length +
        (y.step (.onSegment segment now)).finConsumed.toNat := by
  simp only [step, observe, length_append]
  cases y.finConsumed with
  | false => exact Nat.add_le_add (Nat.le_add_right _ _) (Nat.zero_le _)
  | true =>
    rw [Bool.true_or]
    exact Nat.add_le_add_right (Nat.le_add_right _ _) _

section

variable {iss : UInt32} {z : TcpHistory} {a : UInt32} (h : Confirmed iss z a)
include h

theorem Confirmed.segment
    (segment : TcpSegment) (now : UInt64) : Confirmed iss (z.step (.onSegment segment now)) a := by
  obtain ⟨k, hk, ha⟩ := h
  exact ⟨k, hk.trans (segment_taken_le z segment now), ha⟩

theorem Confirmed.act (op : StreamOp) : Confirmed iss (z.step op.toOp) a := by
  obtain ⟨_, happ, hfin, _⟩ := step_local_receive z op.toOp (toOp_local op)
  unfold Confirmed
  rw [happ, hfin]
  exact h

end

/-- Every outstanding segment with an acknowledgment number acknowledges text that was taken. -/
def QueueConfirmed (iss : UInt32) (z : TcpHistory) : Prop :=
  ∀ s ∈ z.connection.outstanding, hasFlag s.flags tcpFlagAck = true → Confirmed iss z s.acknowledgment

/-- `y` acknowledges to `x` only what it took. -/
structure Confirms (iss : UInt32) (x y : TcpHistory) : Prop where
  wire : ∀ t ∈ y.transmitted, hasFlag t.flags tcpFlagAck = true → Confirmed iss y t.acknowledgment
  una : ∃ u ≤ 1 + y.appended.length + y.finConsumed.toNat, x.connection.sendUnacknowledged = adv iss u

section Numbers
variable {iss : UInt32} {x y z : TcpHistory}

theorem canSend_receiving {c : TcpConnection} (h : c.canSend) : c.Receiving := by
  obtain h | h := h
  · exact .inl (.inl h)
  · exact .inl (.inr (.inr (.inr (.inl h))))

theorem QueueConfirmed.act (hq : QueueConfirmed iss z) (hr : Reading iss x z) (op : StreamOp) :
    QueueConfirmed iss (z.step op.toOp) := by
  intro s' hm hack
  obtain ⟨s, hs, sentAt, retries, rfl⟩ | ⟨hcan, _, hnum⟩ := step_local_queue z op hm
  · exact (hq s hs hack).act op
  · have hc : Confirmed iss z s'.acknowledgment := by
      refine ⟨_, le_rfl, ?_⟩
      rw [hnum, hr.receiveNext (canSend_receiving hcan), Nat.add_assoc]
    exact hc.act op

theorem QueueConfirmed.receives (hq : QueueConfirmed iss z) {segment : TcpSegment}
    (hrst : hasFlag segment.flags tcpFlagRst = false) (now : UInt64) :
    QueueConfirmed iss (z.step (.onSegment segment now)) := by
  intro s hm hack
  exact (hq s ((step_segment_send z hrst now).1 s hm) hack).segment segment now

theorem Confirms.act (hc : Confirms iss x y) (hr : Reading iss x y) (hq : QueueConfirmed iss y) (op : StreamOp)
    (hknown : op = .acknowledgment → y.peerInitial = some iss) : Confirms iss x (y.step op.toOp) := by
  obtain ⟨_, happ, hfin, _⟩ := step_local_receive y op.toOp (toOp_local op)
  refine ⟨?_, ?_⟩
  · intro t hm hack
    obtain hm | ⟨hop, rfl⟩ | ⟨s, hs, _, _, rfl⟩ := step_local_wire y op hm
    · exact (hc.wire t hm hack).act op
    · have hnum : y.connection.acknowledgment.acknowledgment = y.connection.receiveNext := by
        unfold TcpConnection.acknowledgment
        split <;> rfl
      have hconf : Confirmed iss y y.connection.acknowledgment.acknowledgment := by
        refine ⟨_, le_rfl, ?_⟩
        rw [hnum, hr.counted iss (hknown hop), Nat.add_assoc]
      exact hconf.act op
    · exact hq.act hr op s hs hack
  · rw [happ, hfin]
    exact hc.una

theorem Confirms.receives (hc : Confirms iss x y) (segment : TcpSegment) (now : UInt64) :
    Confirms iss x (y.step (.onSegment segment now)) := by
  refine ⟨fun t hm hack => (hc.wire t hm hack).segment segment now, ?_⟩
  obtain ⟨u, hu, he⟩ := hc.una
  have hgrow := segment_taken_le y segment now
  exact ⟨u, by omega, he⟩

theorem Confirms.acked (hc : Confirms iss x y) (hm : t ∈ y.transmitted) (tuple : TcpTuple)
    (hrst : hasFlag t.flags tcpFlagRst = false) (now : UInt64) :
    Confirms iss (x.step (.onSegment (t.toSegment tuple) now)) y := by
  have hrst' : hasFlag (t.toSegment tuple).flags tcpFlagRst = false := hrst
  refine ⟨hc.wire, ?_⟩
  obtain hsame | ⟨hack, _, hnew⟩ := (step_segment_send x hrst' now).2.2
  · rw [hsame]
    exact hc.una
  · obtain ⟨k, hk, hnum⟩ := hc.wire t hm hack
    refine ⟨1 + k, by omega, ?_⟩
    rw [hnew]
    exact hnum

end Numbers

/-! ## Both sides -/

/-- The active side `x` and the passive side `y`, with the traces they left on the wire. -/
structure Traced (ix iy : UInt32) (x y : TcpHistory) : Prop where
  trail : Trail ix x y
  trail' : Trail iy y x
  queue : QueueConfirmed iy x
  queue' : QueueConfirmed ix y
  known : y.peerInitial = some ix
  confirms : Confirms ix x y

section Both
variable {ix iy : UInt32} {x y : TcpHistory}

theorem Balanced.single {h : TcpHistory} (hb : h.Balanced) (hne : h.connection.state ≠ .reset) :
    h.connection.outstanding.length ≤ 1 := (hb hne).single

section

variable (ht : Traced ix iy x y) (hl : Linked ix iy x y)
include ht hl

theorem Traced.act_active (op : StreamOp)
    (hone : (x.step op.toOp).connection.outstanding.length ≤ 1) : Traced ix iy (x.step op.toOp) y := by
  refine ⟨ht.trail.write hl.sender op hone, ht.trail'.read op, ht.queue.act hl.reading' op, ht.queue',
    ht.known, ht.confirms.wire, ?_⟩
  rw [(step_local_send x op).1]
  exact ht.confirms.una

theorem Traced.act_passive (op : StreamOp)
    (hone : (y.step op.toOp).connection.outstanding.length ≤ 1) : Traced ix iy x (y.step op.toOp) :=
  ⟨ht.trail.read op, ht.trail'.write hl.sender' op hone, ht.queue, ht.queue'.act hl.reading op,
    (step_local_receive y op.toOp (toOp_local op)).2.2.2.trans ht.known,
    ht.confirms.act hl.reading ht.queue' op (fun _ => ht.known)⟩

theorem Traced.arrival_active (hb : y.accepted.length + 2 < 2 ^ 31) (index : ℕ) (now : UInt64) :
    Traced ix iy (TcpEndpoints.arrival x y index now) y := by
  unfold TcpEndpoints.arrival
  split
  next t hm =>
    have hmem := mem_of_getElem? hm
    have hrst := (hl.sender'.wire t hmem).flags.1
    exact ⟨ht.trail.acked hrst now, ht.trail'.receives hl.reading' hl.sender' hb hmem _ now,
      ht.queue.receives hrst now, ht.queue', ht.known, ht.confirms.acked hmem _ hrst now⟩
  · exact ht

theorem Traced.arrival_passive (hb : x.accepted.length + 2 < 2 ^ 31) (index : ℕ) (now : UInt64) :
    Traced ix iy x (TcpEndpoints.arrival y x index now) := by
  unfold TcpEndpoints.arrival
  split
  next t hm =>
    have hmem := mem_of_getElem? hm
    have hw := hl.sender.wire t hmem
    refine ⟨ht.trail.receives hl.reading hl.sender hb hmem _ now, ht.trail'.acked hw.flags.1 now, ht.queue,
      ht.queue'.receives hw.flags.1 now, ?_, ht.confirms.receives _ now⟩
    have hw' : OnWire ix x (t.toSegment x.connection.tuple).sequence (t.toSegment x.connection.tuple).flags
        (t.toSegment x.connection.tuple).payload := hw
    obtain he | ⟨he, _⟩ := peerInitial_arrive hw' (TcpConnection.onSegment_received y.connection _ now)
    · exact he
    · exact he.trans ht.known
  · exact ht

end

end Both

end TcpHistory

namespace TcpEndpoints
open TcpHistory

/-! ## Every run -/

/-- Neither side has ended, and both stay below the bound. -/
def Alive (e : TcpEndpoints) : Prop := e.Bounded ∧ ∀ side, ¬ (e.host side).connection.Terminal

theorem Alive.not_reset {e : TcpEndpoints} (ha : e.Alive) (side : Side) :
    (e.host side).connection.state ≠ .reset := fun hr => ha.2 side (.inr hr)

structure Followed (ix iy : UInt32) (e : TcpEndpoints) : Prop where
  linked : e.LinkedAt ix iy
  balanced : ∀ side, (e.host side).Balanced
  traced : Traced ix iy e.active e.passive

theorem arrival_cases (h peer : TcpHistory) (index : ℕ) (now : UInt64) :
    arrival h peer index now = h ∨ ∃ op, arrival h peer index now = h.step op := by
  unfold arrival
  split
  · exact .inr ⟨_, rfl⟩
  · exact .inl rfl

theorem step_host (e : TcpEndpoints) (move : TcpMove) (side : Side) :
    (e.step move).host side = e.host side ∨ ∃ op, (e.step move).host side = (e.host side).step op := by
  cases move with
  | act at_ op => cases at_ <;> cases side <;> first | exact .inl rfl | exact .inr ⟨_, rfl⟩
  | deliver at_ index now =>
    have hc := arrival_cases (e.host at_) (e.peer at_) index now
    cases at_ <;> cases side <;> first | exact .inl rfl | exact hc

theorem alive_before (e : TcpEndpoints) (move : TcpMove) (ha : (e.step move).Alive) : e.Alive := by
  refine ⟨bounded_before e move ha.1, fun side hr => ha.2 side ?_⟩
  obtain he | ⟨op, he⟩ := step_host e move side
  · rw [he]
    exact hr
  · rw [he]
    exact step_terminal _ op hr

theorem step_followed {ix iy : UInt32} (e : TcpEndpoints) (move : TcpMove) (hf : e.Followed ix iy)
    (ha : (e.step move).Alive) : (e.step move).Followed ix iy := by
  have hae := alive_before e move ha
  have hactive : e.active.accepted.length < 2 ^ 31 - 2 := hae.1 .active
  have hpassive : e.passive.accepted.length < 2 ^ 31 - 2 := hae.1 .passive
  have hbal : ∀ side, ((e.step move).host side).Balanced := by
    intro side
    obtain he | ⟨op, he⟩ := step_host e move side
    · rw [he]
      exact hf.balanced side
    · rw [he]
      exact step_balanced _ op (hf.balanced side)
  refine ⟨step_linked e move hf.linked hae.1, hbal, ?_⟩
  cases move with
  | act side op =>
    cases side with
    | active => exact hf.traced.act_active hf.linked op ((hbal .active).single (ha.not_reset .active))
    | passive => exact hf.traced.act_passive hf.linked op ((hbal .passive).single (ha.not_reset .passive))
  | deliver side index now =>
    cases side with
    | active => exact hf.traced.arrival_active hf.linked (by omega) index now
    | passive => exact hf.traced.arrival_passive hf.linked (by omega) index now

theorem Opening.followed {ix iy : UInt32} {e : TcpEndpoints} (ho : Opening ix iy e) : e.Followed ix iy := by
  obtain ⟨d, he, hbuilt, _, hbuf, hqueue⟩ := ho.passive
  have happ : e.passive.appended = [] := by
    rw [he]
    exact hbuf
  have hconf : ∀ z a, a = adv ix 1 → Confirmed ix z a := fun z a h => ⟨0, Nat.zero_le _, h⟩
  refine ⟨ho.linked, ?_, ?_⟩
  · intro side
    cases side with
    | active => exact ho.balanced
    | passive => exact fun _ => hbuilt.ledger
  · refine ⟨⟨?_, .inl happ, ?_⟩, ⟨?_, .inl ho.appended, ?_⟩, ?_, ?_, ?_, ⟨?_, ?_⟩⟩
    · rw [happ]
      exact Nat.zero_le _
    · intro s hs t _ hne
      exact absurd (ho.queue s hs).2 hne
    · rw [ho.appended]
      exact Nat.zero_le _
    · intro s hs t _ hne
      rw [he] at hs
      exact absurd (hqueue s hs).1 hne
    · intro s hs hack
      rw [(ho.queue s hs).1] at hack
      cases hack
    · intro s hs _
      rw [he] at hs
      exact hconf _ _ (hqueue s hs).2
    · rw [he]
      rfl
    · intro t hm
      rw [he] at hm
      cases hm
    · exact ⟨0, Nat.zero_le _, by rw [adv_zero, ho.una]⟩

theorem run_followed {ix iy : UInt32} {e₀ : TcpEndpoints} (hf : e₀.Followed ix iy) (moves : List TcpMove)
    (ha : (run step e₀ moves).Alive) : (run step e₀ moves).Followed ix iy :=
  run_invariant_below step (B := Alive) (P := Followed ix iy) alive_before step_followed hf ha

end TcpEndpoints

end MochiSyscalls.NetworkStack
