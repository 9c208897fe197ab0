import MochiSyscalls.NetworkStack.TcpFin

/-! # What a connection puts on the wire

Every segment a connection ever forms lies on its own stream: a SYN at the initial sequence number,
text at its offset in the accepted bytes, a FIN behind all of them, or a bare acknowledgment at most
one past what was sent. Acknowledgments of the peer play no part in this, so it holds against any
peer that does not reset the connection. -/

namespace MochiSyscalls.NetworkStack
open Foundations Words Serial Runs List TcpConnection Bool
set_option autoImplicit false

namespace TcpHistory

def finSent (h : TcpHistory) : Bool := h.transmitted.any fun t => hasFlag t.flags tcpFlagFin

def sentLength (h : TcpHistory) : ℕ := h.accepted.length - h.connection.sendBuffer.length

def sending (h : TcpHistory) (c : TcpConnection) (t : TcpTransmit) : TcpHistory :=
  { h with connection := c, transmitted := h.transmitted ++ [t] }

theorem sending_finSent (h : TcpHistory) (c : TcpConnection) (t : TcpTransmit) :
    (h.sending c t).finSent = (h.finSent || hasFlag t.flags tcpFlagFin) := by
  simp [finSent, sending]

theorem acknowledgment_fin (c : TcpConnection) : hasFlag c.acknowledgment.flags tcpFlagFin = false := by
  unfold acknowledgment
  split
  · exact (show hasFlag (tcpFlagSyn ||| tcpFlagAck) tcpFlagFin = false by decide)
  · exact (show hasFlag tcpFlagAck tcpFlagFin = false by decide)

/-- A segment on the stream of `h`, whose initial sequence number is `iss`. -/
inductive OnWire (iss : UInt32) (h : TcpHistory) : UInt32 → UInt16 → List UInt8 → Prop
  | syn {flags : UInt16} (hf : flags = tcpFlagSyn ∨ flags = tcpFlagSyn ||| tcpFlagAck) :
      OnWire iss h iss flags []
  | text {payload : List UInt8} (offset : ℕ) (hpos : payload ≠ [])
      (hsent : offset + payload.length ≤ h.sentLength) (hp : payload <+: h.accepted.drop offset) :
      OnWire iss h (adv iss (1 + offset)) (tcpFlagAck ||| tcpFlagPsh) payload
  | fin (hf : h.finSent = true) :
      OnWire iss h (adv iss (1 + h.accepted.length)) (tcpFlagFin ||| tcpFlagAck) []
  | ack (offset : ℕ) (ho : offset ≤ h.sentLength + h.finSent.toNat) :
      OnWire iss h (adv iss (1 + offset)) tcpFlagAck []

theorem OnWire.flags {iss : UInt32} {h : TcpHistory} {sequence : UInt32} {flags : UInt16}
    {payload : List UInt8} (hw : OnWire iss h sequence flags payload) :
    hasFlag flags tcpFlagRst = false ∧ (hasFlag flags tcpFlagFin = true → h.finSent = true) := by
  cases hw with
  | syn hf => obtain rfl | rfl := hf <;> exact ⟨by decide, nofun⟩
  | text | ack => exact ⟨by decide, nofun⟩
  | fin hf => exact ⟨by decide, fun _ => hf⟩

/-! ## Growth -/

structure Later (h h' : TcpHistory) : Prop where
  accepted : h.accepted <+: h'.accepted
  sent : h.sentLength ≤ h'.sentLength
  transmitted : h.transmitted <+: h'.transmitted
  ended : h.finSent = true → h'.accepted = h.accepted

theorem Later.finSent {h h' : TcpHistory} (hl : Later h h') (hf : h.finSent = true) : h'.finSent = true := by
  obtain ⟨rest, hr⟩ := hl.transmitted
  unfold TcpHistory.finSent at hf ⊢
  rw [← hr, any_append, hf, Bool.true_or]

theorem OnWire.later {iss : UInt32} {h h' : TcpHistory} {sequence : UInt32} {flags : UInt16}
    {payload : List UInt8} (hw : OnWire iss h sequence flags payload) (hl : Later h h') :
    OnWire iss h' sequence flags payload := by
  cases hw with
  | syn hf => exact .syn hf
  | text offset hpos hs hp =>
    refine .text offset hpos (hs.trans hl.sent) (hp.trans ?_)
    exact hl.accepted.drop offset
  | fin hf =>
    rw [← hl.ended hf]
    exact .fin (hl.finSent hf)
  | ack offset ho =>
    refine .ack offset (ho.trans (Nat.add_le_add hl.sent ?_))
    cases hx : h.finSent with
    | false => exact Nat.zero_le _
    | true => rw [hl.finSent hx]

/-! ## The sender's invariant -/

def Departed (s : TcpState) : Prop :=
  s = .finWait1 ∨ s = .finWait2 ∨ s = .lastAck ∨ s = .timeWait ∨ s = .closed ∨ s = .reset
  deriving Decidable

theorem step_departed (h : TcpHistory) (op : TcpOp) (hd : Departed h.connection.state) :
    Departed (h.step op).connection.state := by
  refine step_closed (by decide) ?_ h op hd
  intro s
  cases s <;> decide

structure Sender (iss : UInt32) (h : TcpHistory) : Prop where
  suffix : h.connection.sendBuffer <:+ h.accepted
  next : h.connection.sendNext = adv iss (1 + h.sentLength + h.finSent.toNat)
  ended : h.finSent = true → h.connection.sendBuffer = [] ∧ Departed h.connection.state
  opening : h.connection.state = .synReceived → h.connection.sendUnacknowledged = iss
  queue : ∀ s ∈ h.connection.outstanding, OnWire iss h s.sequence s.flags s.payload
  wire : ∀ t ∈ h.transmitted, OnWire iss h t.sequence t.flags t.payload

/-- Operations of a connection that is neither aborted nor drained, against a peer without resets. -/
def Orderly : TcpOp → Prop
  | .onSegment segment _ => hasFlag segment.flags tcpFlagRst = false
  | .discardReceived => False
  | .abort => False
  | _ => True

theorem Built.sender {h : TcpHistory} (hb : Built h) : Sender h.connection.sendUnacknowledged h := by
  have key : ∀ {c : TcpConnection} {iss : UInt32} {flags : UInt16} {peer : Option UInt32},
      TcpConnection.Fresh c iss flags → flags = tcpFlagSyn ∨ flags = tcpFlagSyn ||| tcpFlagAck →
      Sender c.sendUnacknowledged (start c peer) := by
    intro c iss flags peer hf hflags
    have hsent : (start c peer).sentLength = 0 := Nat.zero_sub _
    obtain ⟨s, hout, hseq, hsf, hpayload, _⟩ := hf.outstanding
    rw [hf.sendUnacknowledged]
    constructor
    · change c.sendBuffer <:+ []
      rw [hf.sendBuffer]
    · rw [hsent]
      exact hf.sendNext
    · nofun
    · exact fun _ => hf.sendUnacknowledged
    · intro t ht
      change t ∈ c.outstanding at ht
      rw [hout, mem_singleton] at ht
      subst ht
      rw [hseq, hsf, hpayload]
      exact .syn hflags
    · nofun
  cases hb with
  | connect hc => exact key (tryConnect_ok hc).1 (.inl rfl)
  | accept hc => exact key (acceptSyn_ok hc).1 (.inr rfl)

namespace Sender
variable {iss : UInt32} {h h' : TcpHistory}

section

variable (hs : Sender iss h)
include hs

theorem buffer_eq : h.connection.sendBuffer = h.accepted.drop h.sentLength :=
  suffix_iff_eq_drop.mp hs.suffix

theorem sentLength_add : h.sentLength + h.connection.sendBuffer.length = h.accepted.length :=
  Nat.sub_add_cancel hs.suffix.length_le

theorem open_of_canSend (hcan : h.connection.canSend) : h.finSent = false := by
  cases hx : h.finSent with
  | false => rfl
  | true =>
    have hd := (hs.ended hx).2
    obtain hc | hc := hcan <;> rw [hc] at hd <;> revert hd <;> decide

theorem extend (hl : Later h h') (hsuffix : h'.connection.sendBuffer <:+ h'.accepted)
    (hnext : h'.connection.sendNext = adv iss (1 + h'.sentLength + h'.finSent.toNat))
    (hended : h'.finSent = true → h'.connection.sendBuffer = [] ∧ Departed h'.connection.state)
    (hopen : h'.connection.state = .synReceived → h'.connection.sendUnacknowledged = iss)
    (hqueue : ∀ s ∈ h'.connection.outstanding, s ∈ h.connection.outstanding ∨
      OnWire iss h' s.sequence s.flags s.payload)
    (hwire : ∀ t ∈ h'.transmitted, t ∈ h.transmitted ∨ OnWire iss h' t.sequence t.flags t.payload) : Sender iss h' := by
  refine ⟨hsuffix, hnext, hended, hopen, ?_, ?_⟩
  · intro s hm
    obtain hm | hw := hqueue s hm
    · exact (hs.queue s hm).later hl
    · exact hw
  · intro t hm
    obtain hm | hw := hwire t hm
    · exact (hs.wire t hm).later hl
    · exact hw

theorem congr (hacc : h'.accepted = h.accepted) (htr : h'.transmitted = h.transmitted)
    (hbuf : h'.connection.sendBuffer = h.connection.sendBuffer) (hnext : h'.connection.sendNext = h.connection.sendNext)
    (hout : ∀ s ∈ h'.connection.outstanding, s ∈ h.connection.outstanding)
    (hstate : Departed h.connection.state → Departed h'.connection.state)
    (hopen : h'.connection.state = .synReceived → h'.connection.sendUnacknowledged = iss) : Sender iss h' := by
  have hfin : h'.finSent = h.finSent := by simp [finSent, htr]
  have hsent : h'.sentLength = h.sentLength := by simp [sentLength, hacc, hbuf]
  have hl : Later h h' :=
    ⟨hacc ▸ prefix_refl _, hsent.ge, htr ▸ prefix_refl _, fun _ => hacc⟩
  refine hs.extend hl (hbuf ▸ hacc ▸ hs.suffix) ?_ ?_ hopen (fun s hm => .inl (hout s hm)) ?_
  · rw [hnext, hsent, hfin]
    exact hs.next
  · intro hx
    rw [hfin] at hx
    exact ⟨hbuf.trans (hs.ended hx).1, hstate (hs.ended hx).2⟩
  · intro t ht
    rw [htr] at ht
    exact .inl ht

end

/-! ## The operations -/

section

variable (hs : Sender iss h)
include hs

theorem queueSend (bytes : List UInt8) : Sender iss (h.step (.queueSend bytes)) := by
  obtain ⟨hcan, _, he⟩ | ⟨e, he⟩ := queueSend_cases h.connection bytes
  · -- a connection that can send has not formed its FIN
    have hfin := hs.open_of_canSend hcan
    have hsent : (h.step (.queueSend bytes)).sentLength = h.sentLength := by
      simp only [step, he, sentLength, length_append]
      omega
    have hl : Later h (h.step (.queueSend bytes)) := by
      refine ⟨?_, hsent.ge, prefix_refl _, fun hx => ?_⟩
      · simp only [step, he]
        exact prefix_append _ _
      · rw [hfin] at hx
        cases hx
    refine hs.extend hl ?_ ?_ ?_ ?_ ?_ (fun t ht => .inl ht)
    · simp only [step, he]
      obtain ⟨front, hfront⟩ := hs.suffix
      exact ⟨front, by rw [← append_assoc, hfront]⟩
    · rw [hsent]
      simp only [step, he]
      exact hs.next
    · intro hx
      exact absurd (hfin.symm.trans hx) false_ne_true
    · simp only [step, he]
      exact hs.opening
    · intro s hm
      simp only [step, he] at hm
      exact .inl hm
  · have hstep : h.step (.queueSend bytes) = h := by simp only [step, he]
    rw [hstep]
    exact hs

theorem sending {c : TcpConnection} {t : TcpTransmit} (hw : OnWire iss (h.sending c t) t.sequence t.flags t.payload)
    (hsent : h.sentLength ≤ (h.sending c t).sentLength) (hsuffix : c.sendBuffer <:+ h.accepted)
    (hnext : c.sendNext = adv iss (1 + (h.sending c t).sentLength + (h.sending c t).finSent.toNat))
    (hended : (h.sending c t).finSent = true → c.sendBuffer = [] ∧ Departed c.state)
    (hopen : c.state = .synReceived → c.sendUnacknowledged = iss)
    (hqueue : ∀ s ∈ c.outstanding, s ∈ h.connection.outstanding ∨
      (s.sequence = t.sequence ∧ s.flags = t.flags ∧ s.payload = t.payload)) : Sender iss (h.sending c t) := by
  have hl : Later h (h.sending c t) :=
    ⟨prefix_refl _, hsent, prefix_append _ _, fun _ => rfl⟩
  refine hs.extend hl hsuffix hnext hended hopen ?_ ?_
  · intro s hm
    obtain hm | ⟨h1, h2, h3⟩ := hqueue s hm
    · exact .inl hm
    · rw [h1, h2, h3]
      exact .inr hw
  · intro t' ht
    obtain ht | ht := mem_append.mp ht
    · exact .inl ht
    · rw [mem_singleton.mp ht]
      exact .inr hw

theorem acknowledgment_onWire (hsent : h'.sentLength = h.sentLength) (hfin : h'.finSent = h.finSent) :
    OnWire iss h' h.connection.acknowledgment.sequence h.connection.acknowledgment.flags
      h.connection.acknowledgment.payload := by
  unfold acknowledgment
  split
  next hsr =>
    change OnWire iss h' h.connection.sendUnacknowledged _ _
    rw [hs.opening hsr]
    exact .syn (.inr rfl)
  · change OnWire iss h' h.connection.sendNext _ _
    rw [hs.next, Nat.add_assoc, ← hsent, ← hfin]
    exact .ack _ le_rfl

theorem acknowledgment : Sender iss (h.step .acknowledgment) := by
  have hfin : (h.sending h.connection h.connection.acknowledgment).finSent = h.finSent := by
    rw [sending_finSent, acknowledgment_fin, Bool.or_false]
  refine hs.sending (c := h.connection) (hs.acknowledgment_onWire rfl hfin) le_rfl hs.suffix ?_ ?_ hs.opening
    (fun s hm => .inl hm)
  · rw [hfin]
    exact hs.next
  · rw [hfin]
    exact hs.ended

theorem sendFront {segment : OutstandingSegment} {rest : List OutstandingSegment}
    (hout : h.connection.outstanding = segment :: rest) (now : UInt64) (retries : UInt8)
    (window : UInt16) (retransmission : Bool) :
    Sender iss (h.sending (h.connection.withFront (TcpConnection.stamped segment now retries) rest)
      (TcpConnection.transmitFrom segment window retransmission)) := by
  have hw := hs.queue segment (by rw [hout]; exact mem_cons_self ..)
  -- a FIN in the queue was counted when it was formed
  have hfin : (h.sending (h.connection.withFront (stamped segment now retries) rest)
      (transmitFrom segment window retransmission)).finSent = h.finSent := by
    rw [sending_finSent]
    change (h.finSent || hasFlag segment.flags tcpFlagFin) = _
    cases hx : hasFlag segment.flags tcpFlagFin with
    | false => exact Bool.or_false _
    | true => rw [hw.flags.2 hx, Bool.or_true]
  refine hs.sending ?_ le_rfl hs.suffix ?_ ?_ hs.opening ?_
  · exact hw.later ⟨prefix_refl _, le_rfl, prefix_append _ _, fun _ => rfl⟩
  · rw [hfin]
    exact hs.next
  · rw [hfin]
    exact hs.ended
  · intro s hm
    obtain rfl | hm := mem_cons.mp hm
    · exact .inr ⟨rfl, rfl, rfl⟩
    · exact .inl (by rw [hout]; exact mem_cons_of_mem _ hm)

theorem sendData (hidle : h.connection.outstanding = []) (hcan : h.connection.canSend)
    (hbuf : h.connection.sendBuffer ≠ []) (hmax : h.connection.maximumPayload ≠ 0) (now : UInt64) (window : UInt16) :
    Sender iss (h.sending (h.connection.withData now)
      (TcpConnection.transmitFrom (h.connection.dataSegment now) window false)) := by
  have hopen := hs.open_of_canSend hcan
  have hadd := hs.sentLength_add
  have hlen := dataSegment_length h.connection now
  have hpos : 0 < h.connection.sendBuffer.length := length_pos_iff.mpr hbuf
  have hfin : (h.sending (h.connection.withData now)
      (transmitFrom (h.connection.dataSegment now) window false)).finSent = false := by
    rw [sending_finSent, hopen, Bool.false_or]
    exact (show hasFlag (tcpFlagAck ||| tcpFlagPsh) tcpFlagFin = false by decide)
  have hsent : (h.sending (h.connection.withData now)
      (transmitFrom (h.connection.dataSegment now) window false)).sentLength =
        h.sentLength + (h.connection.dataSegment now).payload.length := by
    simp only [sentLength, TcpHistory.sending, withData, length_drop] at hadd ⊢
    omega
  refine hs.sending ?_ (by omega) ((drop_suffix _ _).trans hs.suffix) ?_ ?_ hs.opening ?_
  · change OnWire iss _ h.connection.sendNext (tcpFlagAck ||| tcpFlagPsh) (h.connection.dataSegment now).payload
    rw [hs.next, hopen]
    refine .text h.sentLength ?_ hsent.ge ?_
    · intro hx
      rw [hx, length_nil] at hlen
      omega
    · change _ <+: h.accepted.drop h.sentLength
      rw [← hs.buffer_eq]
      exact take_prefix _ _
  · rw [hsent, hfin]
    change (h.connection.dataSegment now).sequenceEnd = _
    rw [dataSegment_sequenceEnd, hs.next, hopen, adv_adv]
    simp only [toNat_false, Nat.add_zero, Nat.add_assoc]
  · rw [hfin]
    rintro ⟨⟩
  · intro s hm
    simp only [withData, hidle, nil_append, mem_singleton] at hm
    rw [hm]
    exact .inr ⟨rfl, rfl, rfl⟩

theorem sendFin (hidle : h.connection.outstanding = []) (hcan : h.connection.canSend)
    (hbuf : h.connection.sendBuffer = []) (now : UInt64) (window : UInt16) :
    Sender iss (h.sending (h.connection.withFinSent now)
      (TcpConnection.transmitFrom (h.connection.finSegment now) window false)) := by
  have hopen := hs.open_of_canSend hcan
  have hadd := hs.sentLength_add
  rw [hbuf, length_nil, Nat.add_zero] at hadd
  have hfin : (h.sending (h.connection.withFinSent now)
      (transmitFrom (h.connection.finSegment now) window false)).finSent = true := by
    rw [sending_finSent, hopen, Bool.false_or]
    exact (show hasFlag (tcpFlagFin ||| tcpFlagAck) tcpFlagFin = true by decide)
  refine hs.sending ?_ le_rfl hs.suffix ?_ ?_ ?_ ?_
  · change OnWire iss _ h.connection.sendNext (tcpFlagFin ||| tcpFlagAck) []
    rw [hs.next, hopen, hadd]
    exact .fin hfin
  · rw [hfin]
    change h.connection.sendNext + 1 = _
    rw [hs.next, hopen, add_one, adv_adv]
    rfl
  · intro _
    refine ⟨hbuf, ?_⟩
    change Departed (if h.connection.state = .closeWait then .lastAck else .finWait1)
    split <;> decide
  · change (if h.connection.state = .closeWait then TcpState.lastAck else .finWait1) = .synReceived → _
    split <;> nofun
  · intro s hm
    simp only [withFinSent, hidle, nil_append, mem_singleton] at hm
    rw [hm]
    exact .inr ⟨rfl, rfl, rfl⟩

theorem pollTransmit (now : UInt64) : Sender iss (h.step (.pollTransmit now)) := by
  have hp := pollTransmit_polled h.connection now
  simp only [step]
  generalize h.connection.pollTransmit now = p at hp ⊢
  cases hp with
  | silent => exact hs.congr rfl (append_nil _) rfl rfl (fun _ hm => hm) id hs.opening
  | first hout _ | again hout _ _ _ => exact hs.sendFront hout now _ _ _
  | exhausted =>
    refine hs.congr rfl (append_nil _) rfl rfl (fun _ hm => hm) (fun _ => ?_) (by rintro ⟨⟩)
    exact .inr (.inr (.inr (.inr (.inr rfl))))
  | data hidle hcan hbuf hmax => exact hs.sendData hidle hcan hbuf hmax now _
  | fin hidle hcan hbuf _ => exact hs.sendFin hidle hcan hbuf now _

theorem onSegment {segment : TcpSegment} (hrst : hasFlag segment.flags tcpFlagRst = false)
    (now : UInt64) : Sender iss (h.step (.onSegment segment now)) := by
  have hr := onSegment_received h.connection segment now
  have hstate := step_departed h (.onSegment segment now)
  have hopen : (h.step (.onSegment segment now)).connection.state = .synReceived →
      (h.step (.onSegment segment now)).connection.sendUnacknowledged = iss := by
    intro hx
    have he : (h.step (.onSegment segment now)).connection = h.connection := hr.opening (.inr hx)
    rw [he] at hx ⊢
    exact hs.opening hx
  obtain ⟨ho, _⟩ | hsame | ⟨_, _, hsame⟩ := hr.send
  · rw [ho.1] at hrst
    cases hrst
  · refine hs.congr rfl rfl hsame.sendBuffer hsame.sendNext ?_ hstate hopen
    intro s hm
    exact hsame.outstanding ▸ hm
  · refine hs.congr rfl rfl hsame.sendBuffer hsame.sendNext ?_ hstate hopen
    intro s hm
    have hm' : s ∈ (h.connection.acked segment.acknowledgment).outstanding := hsame.outstanding ▸ hm
    exact (dropWhile_suffix _).subset hm'

theorem of_same {op : TcpOp} (hacc : (h.step op).accepted = h.accepted) (htr : (h.step op).transmitted = h.transmitted)
    (hsame : TcpConnection.SameSend h.connection (h.step op).connection)
    (hstate : (h.step op).connection.state = .synReceived → h.connection.state = .synReceived) :
    Sender iss (h.step op) := by
  refine hs.congr hacc htr hsame.sendBuffer hsame.sendNext ?_ (step_departed h op) ?_
  · intro s hm
    exact hsame.outstanding ▸ hm
  · intro hx
    rw [hsame.sendUnacknowledged]
    exact hs.opening (hstate hx)

theorem step {op : TcpOp} (hop : Orderly op) : Sender iss (h.step op) := by
  cases op with
  | queueSend bytes => exact hs.queueSend bytes
  | requestClose =>
    refine hs.of_same rfl rfl (requestClose_same _) ?_
    exact fun hx => (requestClose_state h.connection).symm.trans hx
  | pollTransmit now => exact hs.pollTransmit now
  | acknowledgment => exact hs.acknowledgment
  | onSegment segment now => exact hs.onSegment hop now
  | receive size =>
    refine hs.of_same rfl rfl (receive_same _ size) ?_
    exact fun hx => (receive_state h.connection size).symm.trans hx
  | discardReceived | abort => exact hop.elim
  | tick now =>
    refine hs.of_same rfl rfl (tick_same _ now) ?_
    intro hx
    obtain he | he := tick_state h.connection now
    · exact he.symm.trans hx
    · change (h.connection.tick now).1.state = _ at hx
      rw [hx] at he
      revert he
      cases h.connection.state <;> decide

end

end Sender

end TcpHistory

end MochiSyscalls.NetworkStack
