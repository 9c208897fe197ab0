import MochiSyscalls.NetworkStack.TcpTrail

/-! # Retransmissions

A segment keeps the acknowledgment number it was formed with. Its receiver may have moved past that
number only by taking a later one, and a bare acknowledgment formed after the segment stands behind
it in the sequence, where the receiver looks at it only once it has the segment's text. The one
number that escapes this order is the 0 that `acknowledgment` reports in SynSent. -/

namespace MochiSyscalls.NetworkStack
open Foundations Words Serial Runs List TcpConnection
set_option autoImplicit false

namespace TcpEndpoints
open TcpHistory

/-! ## The segment that is sent again -/

variable {c : TcpConnection}

theorem transmit_of_front {front : OutstandingSegment} {rest : List OutstandingSegment}
    (hout : c.outstanding = front :: rest) {now : UInt64} {t : TcpTransmit}
    (ht : (c.pollTransmit now).2 = .ok (some t)) :
    ∃ retransmission, t = TcpConnection.transmitFrom front c.localWindow retransmission := by
  have hp := pollTransmit_polled c now
  generalize c.pollTransmit now = p at hp ht
  cases hp with
  | silent | exhausted => cases ht
  | first h | again h =>
    obtain ⟨rfl, _⟩ := cons.inj (h.symm.trans hout)
    cases ht
    exact ⟨_, rfl⟩
  | data h | fin h => exact absurd (hout.symm.trans h) (cons_ne_nil _ _)

variable {segment : TcpSegment}

section

variable (hest : c.state = .established) (hflags : segment.flags = tcpFlagAck ||| tcpFlagPsh)
  (hne : segment.payload ≠ [])
  (hroom : c.receiveBuffer.length + segment.payload.length ≤ c.receiveCapacity) (now : UInt64)
include hest hflags hne hroom

theorem established_text :
    (c.onSegment segment now).1.receiveNext =
      if c.AckPasses segment ∧ segment.sequence = c.receiveNext then adv c.receiveNext segment.payload.length
      else c.receiveNext := by
  have hfits : usizeSaturatingAdd c.receiveBuffer.length segment.payload.length ≤ c.receiveCapacity :=
    (min_le_left _ _).trans hroom
  have hnofin : hasFlag segment.flags tcpFlagFin = false := by
    rw [hflags]
    decide
  have hreach : c.ReachesStream segment :=
    ⟨.inl hest, by rw [hflags]; decide, by rw [hflags]; decide, by rw [hflags]; decide, fun h => hne h.1⟩
  have hr := onSegment_received c segment now
  generalize (c.onSegment segment now).1 = c' at hr ⊢
  cases hr with
  | ignored hno => exact absurd hreach hno
  | aborted ho => exact absurd (ho.1.symm.trans hreach.2.1) Bool.false_ne_true.symm
  | connected hs | opened hs | openedStream hs => exact absurd (hs.symm.trans hest) (by decide)
  | streamed _ hst =>
    cases hst with
    | rejected hno => rw [if_neg (fun h => hno h.1)]
    | closing _ hla => exact absurd (hla.symm.trans hest) (by decide)
    | overflow _ _ ho =>
      rw [afterAck_overflows] at ho
      exact absurd hfits (not_le.mpr ho.2.2)
    | quiet hp _ ht =>
      rw [afterAck_takesText] at ht
      rw [if_neg (fun h => ht ⟨hne, h.2, hfits⟩), afterAck_receiveNext]
    | text hp _ ht =>
      rw [afterAck_takesText] at ht
      rw [if_pos ⟨hp, ht.2.1⟩]
      simp only [withText, afterAck_receiveNext, add_ofNat]
    | fin _ _ _ _ hf | textFin _ _ _ hf =>
      rw [hf.1] at hnofin
      cases hnofin

theorem established_rejects : (c.onSegment segment now).2 = .error .invalidAcknowledgment ↔ ¬ c.AckPasses segment := by
  have hack : hasFlag segment.flags tcpFlagAck = true := by
    rw [hflags]
    decide
  have hsync : c.Synchronized := .inl hest
  have hstream : c.onSegment segment now = c.onStream segment now := by
    rw [onSegment_of_ne (by rw [hest]; decide)]
    unfold onSegmentActive
    rw [if_neg (by rw [hflags]; decide), if_neg (by rw [hest]; decide), if_neg (not_not.mpr hsync),
      if_neg (by rw [hflags]; decide), if_neg (not_not.mpr hack), if_neg (fun h => hne h.1)]
  have hfin : ∀ (d : TcpConnection) (result : TcpReceiveResult),
      d.onFin segment now result = (d, .ok result) := by
    intro d result
    unfold onFin
    rw [if_pos (by rw [hflags]; decide)]
  rw [hstream]
  unfold onStream
  obtain ⟨hno, he⟩ | ⟨_, hla, _⟩ | ⟨hyes, _, r, he⟩ := onAcknowledgment_cases c segment hack
  · rw [he]
    exact iff_of_true rfl hno
  · rw [hest] at hla
    cases hla
  · rw [he]
    refine iff_of_false ?_ (not_not.mpr hyes)
    dsimp only
    obtain ⟨hover, _⟩ | ⟨_, he'⟩ | ⟨_, _, r', he'⟩ :=
      onPayload_cases (c.afterAck segment) segment r
    · rw [afterAck_overflows] at hover
      exact absurd ((min_le_left _ _).trans hroom) (not_le.mpr hover.2.2)
    · rw [he']
      dsimp only
      rw [hfin]
      nofun
    · rw [he']
      dsimp only
      rw [hfin]
      nofun

end

theorem not_finConsumed {iss : UInt32} {x y : TcpHistory} (hr : Reading iss x y)
    (hest : y.connection.state = .established) : y.finConsumed = false := by
  cases hf : y.finConsumed with
  | false => rfl
  | true => obtain hs | hs | hs := hr.book.consumed hf <;> simp [FinSeen, hest] at hs

section Front
variable {ix iy : UInt32} {e : TcpEndpoints} {front : OutstandingSegment} {offset : ℕ}

theorem Followed.position (hf : e.Followed ix iy) (ha : e.Alive)
    (hest : e.passive.connection.state = .established) (hm : front ∈ e.active.connection.outstanding)
    (hne : front.payload ≠ []) (hseq : front.sequence = adv ix (1 + offset))
    (hend : front.sequenceEnd = adv ix (1 + offset + front.payload.length))
    (hle : offset + front.payload.length ≤ e.active.sentLength) :
    e.passive.appended.length = offset ∨ e.passive.appended.length = offset + front.payload.length := by
  have hb : e.active.accepted.length < 2 ^ 31 - 2 := ha.1 .active
  have hsl : e.active.sentLength ≤ e.active.accepted.length := Nat.sub_le _ _
  have hsent := hf.traced.trail.sent
  have hge : offset ≤ e.passive.appended.length := by
    -- the sender's oldest unacknowledged number lies in the front segment
    have hin := ((hf.balanced .active (ha.not_reset .active)).busy front hm).2
    obtain ⟨u, hu, huna⟩ := hf.traced.confirms.una
    change span front.sequence e.active.connection.sendUnacknowledged < _ at hin
    rw [not_finConsumed hf.linked.reading hest, Bool.toNat_false] at hu
    have hspan : span (adv ix (1 + offset)) (adv ix (1 + offset + front.payload.length)) =
        front.payload.length := by
      rw [span_adv_adv ix (by omega) (by omega)]
      omega
    rw [hend, huna, hseq, hspan] at hin
    have hnot : ¬ Before (adv ix u) (adv ix (1 + offset)) := by
      rw [before_eq]
      omega
    rw [before_adv ix (by omega) (by omega)] at hnot
    omega
  obtain hnil | ⟨t, htm, htne, htend⟩ := hf.traced.trail.edge
  · rw [hnil, length_nil] at hge ⊢
    omega
  · obtain ⟨o, o', ho, ho', hole, hole', hbehind⟩ := hf.traced.trail.front front hm t htm hne htne
    rw [ho', adv_adv] at htend
    have heq := (adv_inj ix (by omega) (by omega)).mp (hseq.symm.trans ho)
    have heq' := (adv_inj ix (by omega) (by omega)).mp htend
    obtain hlt | ⟨hsame, hpay⟩ := hbehind
    · left
      omega
    · right
      rw [hpay] at heq'
      omega

theorem Followed.ackPasses_iff (hf : e.Followed ix iy) (ha : e.Alive)
    (hest : e.active.connection.state = .established) (hm : front ∈ e.active.connection.outstanding)
    (hack : hasFlag front.flags tcpFlagAck = true) (hnum : segment.acknowledgment = front.acknowledgment) :
    e.passive.connection.AckPasses segment ↔
      ¬ Before front.acknowledgment e.passive.connection.sendUnacknowledged := by
  have hb : e.passive.accepted.length < 2 ^ 31 - 2 := ha.1 .passive
  have hsl : e.passive.sentLength ≤ e.passive.accepted.length := Nat.sub_le _ _
  have hbool := e.passive.finSent.toNat_le
  have hsent := hf.traced.trail'.sent
  obtain ⟨k, hk, hknum⟩ := hf.traced.queue front hm hack
  rw [not_finConsumed hf.linked.reading' hest, Bool.toNat_false] at hk
  unfold TcpConnection.AckPasses TcpConnection.Acceptable
  rw [hnum]
  constructor
  · rintro (heq | hok)
    · rw [heq]
      exact not_before_self _
    · exact hok.1
  · intro hnot
    refine .inr ⟨hnot, ?_⟩
    rw [hf.linked.sender'.next, hknum, before_adv iy (by omega) (by omega)]
    omega

end Front

end TcpEndpoints

namespace TcpHistory

/-! ## The order of acknowledgment numbers -/

/-- `t` acknowledges no more than `s` does, or is a bare acknowledgment from behind it. -/
def Dated (iss : UInt32) (taken : ℕ) (t : TcpTransmit) (s : OutstandingSegment) : Prop :=
  (∃ k' k, t.acknowledgment = adv iss (1 + k') ∧ s.acknowledgment = adv iss (1 + k) ∧ k' ≤ k ∧ k ≤ taken) ∨
    (t.payload = [] ∧ hasFlag t.flags tcpFlagFin = false ∧ t.sequence = s.sequenceEnd)

/-- The receiver `y` has not moved past the number in `s`, or has the text of `s` already. -/
def Current (ix iy : UInt32) (taken : ℕ) (y : TcpHistory) (s : OutstandingSegment) : Prop :=
  (∃ u k, y.connection.sendUnacknowledged = adv iy u ∧ s.acknowledgment = adv iy (1 + k) ∧ u ≤ 1 + k ∧
    k ≤ taken) ∨
    s.sequenceEnd = adv ix (1 + y.appended.length)

def taken (x : TcpHistory) : ℕ := x.appended.length + x.finConsumed.toNat

/-- The active side `x` and the passive side `y`, when `x` called `acknowledgment` only after SynSent. -/
structure Ordered (ix iy : UInt32) (x y : TcpHistory) : Prop where
  never : x.connection.state ≠ .synReceived
  embryonic : y.connection.state = .synReceived → y.accepted = []
  confirms : Confirms iy y x
  dated : ∀ s ∈ x.connection.outstanding, ∀ t ∈ x.transmitted, s.payload ≠ [] →
    hasFlag t.flags tcpFlagAck = true → Dated iy x.taken t s
  current : ∀ s ∈ x.connection.outstanding, s.payload ≠ [] → Current ix iy x.taken y s

section Order
variable {ix iy : UInt32} {x y : TcpHistory}

variable {n n' : ℕ} {s : OutstandingSegment} {t : TcpTransmit}

theorem Dated.mono (h : Dated iy n t s) (hle : n ≤ n') : Dated iy n' t s := by
  obtain ⟨k', k, h1, h2, h3, h4⟩ | h := h
  · exact .inl ⟨k', k, h1, h2, h3, h4.trans hle⟩
  · exact .inr h

theorem Current.mono (h : Current ix iy n y s) (hle : n ≤ n') : Current ix iy n' y s := by
  obtain ⟨u, k, h1, h2, h3, h4⟩ | h := h
  · exact .inl ⟨u, k, h1, h2, h3, h4.trans hle⟩
  · exact .inr h

theorem never_synReceived (h : TcpHistory) (op : TcpOp) (hs : h.connection.state ≠ .synReceived) :
    (h.step op).connection.state ≠ .synReceived := by
  refine step_closed (S := fun s => s ≠ .synReceived) (by decide) ?_ h op hs
  intro s
  cases s <;> decide

theorem front_text (hs : Sender ix x) (hl : SendLedger x.accepted x.released x.connection)
    (hb : x.accepted.length + 2 < 2 ^ 31) (hm : s ∈ x.connection.outstanding) (hne : s.payload ≠ []) :
    s.flags = tcpFlagAck ||| tcpFlagPsh ∧ x.finSent = false ∧
      ∃ offset, s.sequence = adv ix (1 + offset) ∧ s.sequenceEnd = adv ix (1 + offset + s.payload.length) ∧
        offset + s.payload.length = x.sentLength := by
  obtain ⟨hflags, offset, hseq, hle⟩ := (hs.queue s hm).offset hne
  have hend : s.sequenceEnd = adv ix (1 + offset + s.payload.length) := by
    have hsyn : flagUnit (tcpFlagAck ||| tcpFlagPsh) tcpFlagSyn = 0 := by decide
    have hfin : flagUnit (tcpFlagAck ||| tcpFlagPsh) tcpFlagFin = 0 := by decide
    simp only [OutstandingSegment.sequenceEnd, hflags, hsyn, hfin, UInt32.add_zero, add_ofNat, hseq, adv_adv]
  have hsl : x.sentLength ≤ x.accepted.length := Nat.sub_le _ _
  have hbool := x.finSent.toNat_le
  have hnext := (hl.busy s hm).1
  rw [hend, hs.next, adv_inj ix (by omega) (by omega)] at hnext
  have hopen : x.finSent = false := by
    cases hx : x.finSent with
    | false => rfl
    | true =>
      rw [hx, Bool.toNat_true] at hnext
      omega
  rw [hopen, Bool.toNat_false] at hnext
  exact ⟨hflags, hopen, offset, hseq, hend, by omega⟩

/-! ## The active side acts -/

theorem Ordered.act_active (ho : Ordered ix iy x y) (hl : Linked ix iy x y) (hq : QueueConfirmed iy x)
    (hledger : SendLedger x.accepted x.released x.connection) (op : StreamOp)
    (hone : (x.step op.toOp).connection.outstanding.length ≤ 1)
    (hack : op = .acknowledgment → x.connection.Receiving) : Ordered ix iy (x.step op.toOp) y := by
  obtain ⟨_, happ, hfin, _⟩ := step_local_receive x op.toOp (toOp_local op)
  have htaken : (x.step op.toOp).taken = x.taken := by
    unfold taken
    rw [happ, hfin]
  -- a fresh segment carries the largest number so far
  have hfresh : ∀ {s : OutstandingSegment}, x.connection.canSend →
      s.acknowledgment = x.connection.receiveNext → s.acknowledgment = adv iy (1 + x.taken) := by
    intro s hcan hnum
    rw [hnum, hl.reading'.receiveNext (canSend_receiving hcan), taken, Nat.add_assoc]
  refine ⟨never_synReceived x _ ho.never, ho.embryonic,
    ho.confirms.act hl.reading' hq op (fun h => hl.reading'.known (hack h)), ?_, ?_⟩
  · rw [htaken]
    intro s hm t htr hsp htack
    obtain ht | ⟨rfl, rfl⟩ | ⟨s', hm', _, _, rfl⟩ := step_local_wire x op htr
    · obtain ⟨s₀, hm₀, _, _, rfl⟩ | ⟨hcan, _, hnum⟩ := step_local_queue x op hm
      · exact ho.dated s₀ hm₀ t ht hsp htack
      · obtain ⟨k', hk', ht'⟩ := ho.confirms.wire t ht htack
        exact .inl ⟨k', x.taken, ht', hfresh hcan hnum, hk', le_rfl⟩
    · refine .inr ⟨acknowledgment_payload _, acknowledgment_fin _, ?_⟩
      rw [(hledger.busy s hm).1]
      unfold acknowledgment
      rw [if_neg ho.never]
    · obtain rfl := eq_of_mem_of_length_le_one hone hm' hm
      obtain ⟨k, hk, hnum⟩ := hq.act hl.reading' op s' hm htack
      rw [happ, hfin] at hk
      exact .inl ⟨k, k, hnum, hnum, le_rfl, hk⟩
  · rw [htaken]
    intro s hm hsp
    obtain ⟨s₀, hm₀, _, _, rfl⟩ | ⟨hcan, _, hnum⟩ := step_local_queue x op hm
    · exact ho.current s₀ hm₀ hsp
    · obtain ⟨u, hu, huna⟩ := ho.confirms.una
      exact .inl ⟨u, x.taken, huna, hfresh hcan hnum, by unfold taken; omega, le_rfl⟩

/-! ## The passive side acts -/

theorem embryonic_act (h : TcpHistory) (op : StreamOp) (he : h.connection.state = .synReceived → h.accepted = [])
    (hs : (h.step op.toOp).connection.state = .synReceived) : (h.step op.toOp).accepted = [] := by
  have hsr : h.connection.state = .synReceived := by
    by_contra hne
    exact never_synReceived h op.toOp hne hs
  have hcan : ¬ h.connection.canSend := by simp [canSend, hsr]
  cases op with
  | queueSend bytes =>
    simp only [StreamOp.toOp, step, queueSend_of_not_canSend hcan]
    exact he hsr
  | requestClose | pollTransmit now | acknowledgment | receive size | tick now => exact he hsr

theorem Ordered.act_passive (ho : Ordered ix iy x y) (op : StreamOp) : Ordered ix iy x (y.step op.toOp) := by
  obtain ⟨_, happ, _, _⟩ := step_local_receive y op.toOp (toOp_local op)
  have huna := (step_local_send y op).1
  refine ⟨ho.never, embryonic_act y op ho.embryonic, ⟨ho.confirms.wire, ?_⟩, ho.dated, ?_⟩
  · rw [huna]
    exact ho.confirms.una
  · intro s hm hsp
    unfold Current
    rw [huna, happ]
    exact ho.current s hm hsp

/-! ## Arrivals -/

theorem Ordered.arrival_active (ho : Ordered ix iy x y) {segment : TcpSegment}
    (hrst : hasFlag segment.flags tcpFlagRst = false) (now : UInt64) :
    Ordered ix iy (x.step (.onSegment segment now)) y := by
  have hout := (step_segment_send x hrst now).1
  have hle : x.taken ≤ (x.step (.onSegment segment now)).taken := segment_taken_le x segment now
  refine ⟨never_synReceived x _ ho.never, ho.embryonic, ho.confirms.receives segment now, ?_, ?_⟩
  · intro s hm t ht hsp htack
    exact (ho.dated s (hout s hm) t ht hsp htack).mono hle
  · intro s hm hsp
    exact (ho.current s (hout s hm) hsp).mono hle

theorem Current.receives (hl : Linked ix iy x y) (hknown : y.peerInitial = some ix)
    (hembryonic : y.connection.state = .synReceived → y.accepted = [])
    (hopen : x.finSent = false) {k : ℕ} (hk : k ≤ x.taken) (hnum : s.acknowledgment = adv iy (1 + k))
    {tuple : TcpTuple} {now : UInt64} (hc : Current ix iy x.taken y s)
    (hdated : hasFlag t.flags tcpFlagAck = true → Dated iy x.taken t s) (hrst : hasFlag t.flags tcpFlagRst = false)
    (hstay : s.sequenceEnd = adv ix (1 + y.appended.length) →
      s.sequenceEnd = adv ix (1 + (y.step (.onSegment (t.toSegment tuple) now)).appended.length)) :
    Current ix iy x.taken (y.step (.onSegment (t.toSegment tuple) now)) s := by
  have hrst' : hasFlag (t.toSegment tuple).flags tcpFlagRst = false := hrst
  have hrec := onSegment_received y.connection (t.toSegment tuple) now
  have same : (y.step (.onSegment (t.toSegment tuple) now)).connection.sendUnacknowledged =
      y.connection.sendUnacknowledged → Current ix iy x.taken (y.step (.onSegment (t.toSegment tuple) now)) s := by
    intro he
    obtain ⟨u, k, h1, h2, h3, h4⟩ | hend := hc
    · exact .inl ⟨u, k, he.trans h1, h2, h3, h4⟩
    · exact .inr (hstay hend)
  obtain he | ⟨hack, _, hnew⟩ := (step_segment_send y hrst' now).2.2
  · exact same he
  obtain ⟨k', k, h1, h2, h3, h4⟩ | ⟨hpay, hfin, hseq⟩ := hdated hack
  · exact .inl ⟨1 + k', k, hnew.trans h1, h2, by omega, h4⟩
  by_cases he : (y.step (.onSegment (t.toSegment tuple) now)).connection.sendUnacknowledged =
      y.connection.sendUnacknowledged
  · exact same he
  obtain hss | ⟨hsr, hcomp⟩ | hreach := hrec.acked_by he
  · rw [(hl.reading.book.opening hss).2] at hknown
    cases hknown
  · -- the number that completes the open is the first after the SYN
    have hnofin : y.finSent = false := by
      cases hx : y.finSent with
      | false => rfl
      | true =>
        have hd := (hl.sender'.ended hx).2
        rw [hsr] at hd
        revert hd
        decide
    have hzero : y.sentLength = 0 := by simp [sentLength, hembryonic hsr]
    refine .inl ⟨1, k, ?_, hnum, by omega, hk⟩
    rw [hnew, hcomp.2.2.2.2.2.1, hl.sender'.next, hzero, hnofin]
    rfl
  · -- a bare acknowledgment is looked at only when it is next in sequence
    have hat : t.sequence = y.connection.receiveNext := by
      by_contra hne
      exact hreach.2.2.2.2 ⟨hpay, hfin, hne⟩
    have hnotfin : y.finConsumed = false := by
      cases hx : y.finConsumed with
      | false => rfl
      | true =>
        have := (hl.reading.safe.eof hx).1
        exact absurd (hopen.symm.trans this) Bool.false_ne_true
    refine .inr (hstay ?_)
    rw [← hseq, hat, hl.reading.receiveNext (.inl hreach.1), hnotfin]
    rfl

theorem Ordered.arrival_passive (ho : Ordered ix iy x y) (hl : Linked ix iy x y) (htr : Traced ix iy x y)
    (hledger : SendLedger x.accepted x.released x.connection) (hb : x.accepted.length + 2 < 2 ^ 31)
    (hm : t ∈ x.transmitted) (tuple : TcpTuple) (now : UInt64) :
    Ordered ix iy x (y.step (.onSegment (t.toSegment tuple) now)) := by
  have hrst := (hl.sender.wire t hm).flags.1
  have hsl : x.sentLength ≤ x.accepted.length := Nat.sub_le _ _
  have htrail := htr.trail.receives hl.reading hl.sender hb hm tuple now
  have hgrow : y.appended.length ≤ (y.step (.onSegment (t.toSegment tuple) now)).appended.length := by
    simp only [step, observe, length_append]
    exact Nat.le_add_right _ _
  refine ⟨ho.never, ?_, ho.confirms.acked hm tuple hrst now, ho.dated, ?_⟩
  · intro hs
    have he : (y.connection.onSegment (t.toSegment tuple) now).1 = y.connection :=
      (onSegment_received y.connection (t.toSegment tuple) now).opening (.inr hs)
    exact ho.embryonic (by rw [← he]; exact hs)
  · intro s hs hsp
    obtain ⟨hflags, hopen, offset, _, hend, hall⟩ := front_text hl.sender hledger hb hs hsp
    obtain ⟨k, hk, hnum⟩ := htr.queue s hs (by rw [hflags]; decide)
    refine (ho.current s hs hsp).receives hl htr.known ho.embryonic hopen hk hnum
      (ho.dated s hs t hm hsp) hrst (fun hx => ?_)
    -- nothing was sent beyond `s`, so `y` stays at its end
    have hsent := htr.trail.sent
    have hsent' := htrail.sent
    rw [hend] at hx ⊢
    have heq := (adv_inj ix (by omega) (by omega)).mp hx
    congr 1
    omega

end Order

end TcpHistory

namespace TcpEndpoints
open TcpHistory

/-! ## Every run -/

/-- The move is no call of `acknowledgment` on the active side while it waits for the SYN/ACK. -/
def Settled (e : TcpEndpoints) (move : TcpMove) : Prop :=
  move = .act .active .acknowledgment → e.active.connection.state ≠ .synSent

theorem receiving_of_alive {c : TcpConnection} (ht : ¬ c.Terminal) (hs : c.state ≠ .synSent) : c.Receiving := by
  unfold TcpConnection.Terminal TcpConnection.Receiving TcpConnection.Synchronized at *
  revert ht hs
  cases c.state <;> decide

theorem step_ordered {ix iy : UInt32} (e : TcpEndpoints) (move : TcpMove)
    (hp : e.Followed ix iy ∧ Ordered ix iy e.active e.passive) (hset : e.Settled move) (ha : (e.step move).Alive) :
    (e.step move).Followed ix iy ∧ Ordered ix iy (e.step move).active (e.step move).passive := by
  obtain ⟨hf, ho⟩ := hp
  have hae := alive_before e move ha
  have hactive : e.active.accepted.length < 2 ^ 31 - 2 := hae.1 .active
  have hledger := hf.balanced .active (hae.not_reset .active)
  have hf' := step_followed e move hf ha
  refine ⟨hf', ?_⟩
  cases move with
  | act side op =>
    cases side with
    | active =>
      refine ho.act_active hf.linked hf.traced.queue hledger op
        ((hf'.balanced .active).single (ha.not_reset .active)) (fun hop => ?_)
      exact receiving_of_alive (hae.2 .active) (hset (by rw [hop]))
    | passive => exact ho.act_passive op
  | deliver side index now =>
    cases side with
    | active =>
      change Ordered ix iy (arrival e.active e.passive index now) e.passive
      unfold arrival
      split
      next t hm =>
        have hrst := (hf.linked.sender'.wire t (mem_of_getElem? hm)).flags.1
        exact ho.arrival_active hrst now
      · exact ho
    | passive =>
      change Ordered ix iy e.active (arrival e.passive e.active index now)
      unfold arrival
      split
      next t hm => exact ho.arrival_passive hf.linked hf.traced hledger (by omega) (mem_of_getElem? hm) _ now
      · exact ho

theorem Opening.ordered {ix iy : UInt32} {e : TcpEndpoints} (ho : Opening ix iy e)
    (hsyn : ∀ t ∈ e.active.transmitted, t.flags = tcpFlagSyn) : Ordered ix iy e.active e.passive := by
  obtain ⟨d, he, _, huna, _, _⟩ := ho.passive
  have hne : e.active.connection.state ≠ .synReceived := by
    obtain hs | hs | hs := ho.waiting <;> rw [hs] <;> decide
  refine ⟨hne, fun _ => by rw [he]; rfl, ⟨?_, 0, Nat.zero_le _, ?_⟩, ?_, ?_⟩
  · intro t hm hack
    rw [hsyn t hm] at hack
    cases hack
  · rw [he, adv_zero]
    exact huna
  · intro s hs _ _ hne
    exact absurd (ho.queue s hs).2 hne
  · intro s hs hne
    exact absurd (ho.queue s hs).2 hne

theorem Followed.takes_front {ix iy : UInt32} {e : TcpEndpoints} (hf : e.Followed ix iy) (ha : e.Alive)
    (hpassive : e.passive.connection.state = .established) {front : OutstandingSegment}
    (hm : front ∈ e.active.connection.outstanding) (hdata : front.payload ≠ []) {segment : TcpSegment}
    (hsequence : segment.sequence = front.sequence) (hflags : segment.flags = front.flags)
    (hpayload : segment.payload = front.payload)
    (hroom : e.passive.connection.receiveBuffer.length + front.payload.length ≤
      e.passive.connection.receiveCapacity) (now : UInt64) (hok : e.passive.connection.AckPasses segment ∨
      front.sequenceEnd = adv ix (1 + e.passive.appended.length)) :
    (e.passive.connection.onSegment segment now).1.receiveNext = front.sequenceEnd := by
  have hbound : e.active.accepted.length < 2 ^ 31 - 2 := ha.1 .active
  have hsl : e.active.sentLength ≤ e.active.accepted.length := Nat.sub_le _ _
  have hpos : 0 < front.payload.length := length_pos_iff.mpr hdata
  obtain ⟨hfl, _, offset, hseq, hend, hall⟩ :=
    front_text hf.linked.sender (hf.balanced .active (ha.not_reset .active)) (by omega) hm hdata
  have hnext := hf.linked.reading.receiveNext (.inl (.inl hpassive))
  rw [not_finConsumed hf.linked.reading hpassive, Bool.toNat_false, Nat.add_zero] at hnext
  rw [established_text hpassive (hflags.trans hfl) (hpayload ▸ hdata) (hpayload ▸ hroom) now, hpayload,
    hsequence, hseq, hnext]
  obtain hat | hat := hf.position ha hpassive hm hdata hseq hend hall.le
  · rw [hat] at hok ⊢
    have hp : e.passive.connection.AckPasses segment := by
      refine hok.resolve_right (fun hx => ?_)
      rw [hend] at hx
      have := (adv_inj ix (by omega) (by omega)).mp hx
      omega
    rw [if_pos ⟨hp, rfl⟩, adv_adv, hend]
  · rw [hat, if_neg, hend, Nat.add_assoc]
    rintro ⟨_, hx⟩
    have := (adv_inj ix (by omega) (by omega)).mp hx
    omega

/-- **Retransmissions.** The front segment, sent again, leaves the passive side with its text and unrejected exactly
when that side has not moved past its acknowledgment number; with its text in every run without an `acknowledgment`
before the SYN/ACK. -/
theorem retransmission_usable {ops : List StreamOp} {e₀ : TcpEndpoints} (h₀ : Started ops e₀)
    (moves : List TcpMove) {e : TcpEndpoints} (hrun : run step e₀ moves = e)
    (hb : ∀ side, (e.host side).accepted.length < 2 ^ 31 - 2)
    (hactive : e.active.connection.state = .established) (hpassive : e.passive.connection.state = .established)
    {front : OutstandingSegment} {rest : List OutstandingSegment}
    (hout : e.active.connection.outstanding = front :: rest) (hdata : front.payload ≠ [])
    (hroom : e.passive.connection.receiveBuffer.length + front.payload.length ≤
      e.passive.connection.receiveCapacity)
    {now : UInt64} {t : TcpTransmit} (ht : (e.active.connection.pollTransmit now).2 = .ok (some t)) (now' : UInt64) :
    let received := e.passive.connection.onSegment (t.toSegment e.active.connection.tuple) now'
    ((sequenceBefore received.1.receiveNext front.sequenceEnd = false ∧
        received.2 ≠ .error .invalidAcknowledgment) ↔
      sequenceBefore front.acknowledgment e.passive.connection.sendUnacknowledged = false) ∧
    (StreamOp.acknowledgment ∉ ops → Along step Settled e₀ moves →
      sequenceBefore received.1.receiveNext front.sequenceEnd = false) := by
  intro received
  obtain ⟨ix, iy, ho⟩ := h₀.opening
  have ha : e.Alive := by
    refine ⟨hb, fun side => ?_⟩
    cases side with
    | active => exact fun hx => by obtain hx | hx := hx <;> exact absurd (hx.symm.trans hactive) (by decide)
    | passive => exact fun hx => by obtain hx | hx := hx <;> exact absurd (hx.symm.trans hpassive) (by decide)
  have hf : e.Followed ix iy := by
    subst hrun
    exact run_followed ho.followed moves ha
  obtain ⟨retransmission, rfl⟩ := transmit_of_front hout ht
  have hm : front ∈ e.active.connection.outstanding := by
    rw [hout]
    exact mem_cons_self ..
  obtain ⟨segment, hsegment, hsequence, hnumber, hflags, hpayload⟩ : ∃ segment : TcpSegment,
      (transmitFrom front e.active.connection.localWindow retransmission).toSegment
        e.active.connection.tuple = segment ∧
      segment.sequence = front.sequence ∧ segment.acknowledgment = front.acknowledgment ∧
      segment.flags = front.flags ∧ segment.payload = front.payload := ⟨_, rfl, rfl, rfl, rfl, rfl⟩
  have hfl := ((hf.linked.sender.queue front hm).offset hdata).1
  have hack : hasFlag front.flags tcpFlagAck = true := by
    rw [hfl]
    decide
  have hpass := hf.ackPasses_iff ha hactive hm hack hnumber
  have hrejects := established_rejects hpassive (hflags.trans hfl) (hpayload ▸ hdata) (hpayload ▸ hroom) now'
  have htakes := hf.takes_front ha hpassive hm hdata hsequence hflags hpayload hroom now'
  have hbefore : ∀ a b, sequenceBefore a b = false ↔ ¬ Before a b := by
    intro a b
    rw [← sequenceBefore_iff, Bool.not_eq_true]
  subst received
  rw [hsegment, hbefore, hbefore, ← hpass, Ne, hrejects, not_not]
  refine ⟨⟨fun h => h.2, fun h => ⟨?_, h⟩⟩, ?_⟩
  · rw [htakes (.inl h)]
    exact not_before_self _
  · intro hops hset
    have hordered : Ordered ix iy e.active e.passive := by
      subst hrun
      exact (along_invariant_below step (B := Alive)
        (P := fun e => e.Followed ix iy ∧ Ordered ix iy e.active e.passive) alive_before step_ordered
        ⟨ho.followed, ho.ordered (h₀.only_syn hops)⟩ hset ha).2
    rw [htakes]
    · exact not_before_self _
    · obtain ⟨u, k, huna, hnum, hle, hk⟩ | hend := hordered.current front hm hdata
      · left
        have hbp : e.passive.accepted.length < 2 ^ 31 - 2 := hb .passive
        have hsl : e.passive.sentLength ≤ e.passive.accepted.length := Nat.sub_le _ _
        have hsent := hf.traced.trail'.sent
        unfold taken at hk
        rw [not_finConsumed hf.linked.reading' hactive, Bool.toNat_false] at hk
        rw [hpass, hnum, huna, before_adv iy (by omega) (by omega)]
        omega
      · exact .inr hend

end TcpEndpoints

namespace TcpFixture
open TcpEndpoints

/-- The passive side starts two before the wrap-around; the active side acknowledges in SynSent. -/
def wrappingConnection : TcpConnection :=
  { acceptedConnection with
    sendUnacknowledged := 4294967294, sendNext := 4294967295,
    outstanding := [{ acceptedSynAck with sequence := 4294967294 }] }

def wrappingEndpoints : TcpEndpoints :=
  { active := run TcpHistory.step (history 32 32)
      ([StreamOp.pollTransmit 0, StreamOp.acknowledgment].map StreamOp.toOp),
    passive := .start wrappingConnection (some 100) }

theorem wrappingEndpoints_started : Started [.pollTransmit 0, .acknowledgment] wrappingEndpoints := by
  have hc : tryConnect (fun _ => true) 1 7 tuple 100 8 32 32 100 2 = .ok (connection 32 32) := by
    decide
  have ht : synTransmit ∈ (run TcpHistory.step (.start (connection 32 32) none)
      ([StreamOp.pollTransmit 0, StreamOp.acknowledgment].map StreamOp.toOp)).transmitted := by decide
  have hd : acceptSyn (fun _ => true) 2 8 tuple.reversed 4294967294 listenConfig
      (synTransmit.toSegment tuple) = .ok wrappingConnection := by decide
  exact .intro hc ht hd

/-- Both sides send text before they take the other's; the acknowledgment of the active side's text is lost. -/
def crossedText : TcpEndpoints :=
  run step endpoints (handshake ++
    [.act .active (.queueSend [97, 98]), .act .active (.pollTransmit 4),
      .act .passive (.queueSend [120]), .act .passive (.pollTransmit 5), .deliver .passive 2 6,
      .deliver .active 1 7, .act .active .acknowledgment, .deliver .passive 3 8])

/-- The text of the active side is lost, and its acknowledgment from SynSent arrives late. -/
def lateAcknowledgment : TcpEndpoints :=
  run step wrappingEndpoints
    [.act .passive (.pollTransmit 1), .deliver .active 0 2, .act .active .acknowledgment,
      .deliver .passive 2 3, .act .active (.queueSend [97, 98]), .act .active (.pollTransmit 4),
      .act .passive (.queueSend [120]), .act .passive (.pollTransmit 5), .deliver .passive 1 6]

/-- What the passive side makes of the segment the active side sends again at time 200. -/
def resent (e : TcpEndpoints) : Option (TcpTransmit × Except TcpConnectionError TcpReceiveResult × UInt32) :=
  match (e.active.connection.pollTransmit 200).2 with
  | .ok (some t) =>
    let received := e.passive.connection.onSegment (t.toSegment e.active.connection.tuple) 201
    some (t, received.2, received.1.receiveNext)
  | _ => none

end TcpFixture

namespace TcpEndpoints

/-- A retransmission is rejected for its old acknowledgment number: once with its text taken already, once without it. -/
theorem stale_retransmission_rejected :
    (Started [.pollTransmit 0] TcpFixture.endpoints ∧
      TcpFixture.crossedText.active.connection.state = .established ∧
      TcpFixture.crossedText.passive.connection.state = .established ∧
      TcpFixture.crossedText.passive.connection.receiveBuffer = [97, 98] ∧
      ∃ t, TcpFixture.resent TcpFixture.crossedText = some (t, .error .invalidAcknowledgment, 103) ∧
        t.retransmission = true ∧ t.sequence = 101 ∧ t.payload = [97, 98]) ∧
    Started [.pollTransmit 0, .acknowledgment] TcpFixture.wrappingEndpoints ∧
      TcpFixture.lateAcknowledgment.active.connection.state = .established ∧
      TcpFixture.lateAcknowledgment.passive.connection.state = .established ∧
      TcpFixture.lateAcknowledgment.passive.connection.receiveBuffer = [] ∧
      ∃ t, TcpFixture.resent TcpFixture.lateAcknowledgment = some (t, .error .invalidAcknowledgment, 101) ∧
        t.retransmission = true ∧ t.sequence = 101 ∧ t.payload = [97, 98] :=
  ⟨⟨TcpFixture.endpoints_started, by decide, by decide, by decide, _, rfl, by decide, by decide, by decide⟩,
    TcpFixture.wrappingEndpoints_started, by decide, by decide, by decide, _, rfl, by decide, by decide,
    by decide⟩

theorem retransmission_usable_fixture :
    let e := run step TcpFixture.endpoints
      (TcpFixture.handshake ++ [.act .active (.queueSend [97, 98]), .act .active (.pollTransmit 4)])
    ∃ t, (e.active.connection.pollTransmit 200).2 = .ok (some t) ∧ t.retransmission = true ∧
      sequenceBefore
        (e.passive.connection.onSegment (t.toSegment e.active.connection.tuple) 201).1.receiveNext 103 =
          false := by
  intro e
  refine ⟨_, rfl, by decide, ?_⟩
  refine ((retransmission_usable TcpFixture.endpoints_started _ (e := e) rfl ?_ (by decide) (by decide) rfl
    (by decide) (by decide) (show (e.active.connection.pollTransmit 200).2 = _ from rfl) 201).1.mpr
    (by decide)).1
  intro side
  cases side <;> decide

end TcpEndpoints

end MochiSyscalls.NetworkStack
