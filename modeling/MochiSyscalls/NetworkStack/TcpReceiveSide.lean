import MochiSyscalls.NetworkStack.TcpSilence

/-! # The receive side

What a segment does to the receive buffer and to `receive_next`: it appends some text (nothing, or
the segment's payload in order) and takes at most one FIN. -/

namespace MochiSyscalls.NetworkStack
open Foundations Words Serial Runs
set_option autoImplicit false

namespace TcpConnection
open TcpHistory (FinSeen)

/-! ## The fields the acknowledgment stage leaves alone -/

section

variable (c : TcpConnection) (segment : TcpSegment)

@[simp] theorem afterAck_receiveNext : (c.afterAck segment).receiveNext = c.receiveNext := by
  unfold afterAck
  split <;> rfl

@[simp] theorem afterAck_receiveBuffer : (c.afterAck segment).receiveBuffer = c.receiveBuffer := by
  unfold afterAck
  split <;> rfl

@[simp] theorem afterAck_receiveCapacity : (c.afterAck segment).receiveCapacity = c.receiveCapacity := by
  unfold afterAck
  split <;> rfl

theorem afterAck_takesText : (c.afterAck segment).TakesText segment ↔ c.TakesText segment := by
  simp [TakesText]

theorem afterAck_overflows : (c.afterAck segment).Overflows segment ↔ c.Overflows segment := by
  simp [Overflows]

theorem afterAck_takesFin : (c.afterAck segment).TakesFin segment ↔ c.TakesFin segment := by
  simp [TakesFin]

theorem afterAck_finSeen : FinSeen (c.afterAck segment).state ↔ FinSeen c.state := by
  change FinSeen (if c.state = .finWait1 ∧ c.AcksAll segment then .finWait2 else c.state) ↔ _
  split
  next h => simp [FinSeen, h.1]
  · exact Iff.rfl

end

variable {c : TcpConnection} {segment : TcpSegment}

theorem TakesText.not_overflows (h : c.TakesText segment) :
    ¬ c.Overflows segment := fun ho => absurd h.2.2 (not_le.mpr ho.2.2)

/-! ## What the stream stages take -/

/-- The segment put `text` at the end of the receive buffer and, if `fin`, its FIN after it. -/
structure Takes (c : TcpConnection) (segment : TcpSegment) (text : List UInt8) (fin : Bool)
    (c' : TcpConnection) : Prop where
  buffer : c'.receiveBuffer = c.receiveBuffer ++ text
  next : c'.receiveNext = adv c.receiveNext (text.length + fin.toNat)
  text_from : text = [] ∨ (text = segment.payload ∧ c.TakesText segment)
  fin_from : fin = true → hasFlag segment.flags tcpFlagFin = true ∧
    adv segment.sequence segment.payload.length = adv c.receiveNext text.length
  fin_state : fin = true → FinSeen c'.state
  state_fin : fin = false → FinSeen c'.state → FinSeen c.state
  state_keeps : FinSeen c.state → FinSeen c'.state ∨ c'.Terminal
  capacity : c'.receiveCapacity = c.receiveCapacity

theorem finSeen_finState {s : TcpState} (h : s = .established ∨ s = .finWait1 ∨ s = .finWait2 ∨ FinSeen s) :
    FinSeen (finState s) := by
  rcases h with rfl | rfl | rfl | rfl | rfl | rfl <;> decide

theorem Synchronized.finState (h : c.Synchronized) : FinSeen (TcpConnection.finState c.state) := by
  apply finSeen_finState
  rcases h with h | h | h | h | h | h <;> simp [h, FinSeen]

theorem afterAck_takes (c : TcpConnection) (segment : TcpSegment) : Takes c segment [] false (c.afterAck segment) where
  buffer := by simp
  next := by simp
  text_from := .inl rfl
  fin_from := nofun
  fin_state := nofun
  state_fin := fun _ => (afterAck_finSeen c segment).mp
  state_keeps := fun h => .inl ((afterAck_finSeen c segment).mpr h)
  capacity := afterAck_receiveCapacity c segment

theorem withText_takes (h : c.TakesText segment) :
    Takes c segment segment.payload false ((c.afterAck segment).withText segment) where
  buffer := by simp [withText]
  next := by simp [withText, add_ofNat]
  text_from := .inr ⟨rfl, h⟩
  fin_from := nofun
  fin_state := nofun
  state_fin := fun _ => (afterAck_finSeen c segment).mp
  state_keeps := fun hf => .inl ((afterAck_finSeen c segment).mpr hf)
  capacity := afterAck_receiveCapacity c segment

variable {c' : TcpConnection} {text : List UInt8}

theorem Takes.withFin
    (h : Takes c segment text false c') (hs : c'.Synchronized) (hf : c'.TakesFin segment) (now : UInt64) :
    Takes c segment text true (c'.withFin now) where
  buffer := h.buffer
  next := by
    change c'.receiveNext + 1 = _
    rw [h.next, add_one, adv_adv]
    rfl
  text_from := h.text_from
  fin_from := fun _ => ⟨hf.1, by rw [← add_ofNat, hf.2, h.next]; rfl⟩
  fin_state := fun _ => hs.finState
  state_fin := nofun
  state_keeps := fun _ => .inl hs.finState
  capacity := h.capacity

variable {now : UInt64}

theorem Streamed.takes
    (h : Streamed c segment now c') (hs : c.Synchronized) : ∃ text fin, Takes c segment text fin c' := by
  have hack := afterAck_synchronized hs segment
  cases h with
  | rejected =>
    exact ⟨[], false, by simp, by simp, .inl rfl, nofun, nofun, fun _ h => h, .inl, rfl⟩
  | closing _ hla =>
    refine ⟨[], false, by simp, by simp, .inl rfl, nofun, nofun, fun _ h => ?_, fun _ => .inr (.inl rfl), rfl⟩
    simp [FinSeen] at h
  | overflow | quiet => exact ⟨[], false, afterAck_takes c segment⟩
  | text _ _ ht => exact ⟨_, false, withText_takes ((afterAck_takesText c segment).mp ht)⟩
  | fin _ _ _ _ hf => exact ⟨[], true, (afterAck_takes c segment).withFin hack hf now⟩
  | textFin _ _ ht hf =>
    exact ⟨_, true, (withText_takes ((afterAck_takesText c segment).mp ht)).withFin hack hf now⟩

theorem Takes.drop {fin : Bool}
    (h : Takes c segment text fin c') : c'.receiveBuffer.drop c.receiveBuffer.length = text := by
  rw [h.buffer, List.drop_left]

theorem takes_refl (c : TcpConnection) (segment : TcpSegment) : Takes c segment [] false c :=
  ⟨by simp, by simp, .inl rfl, nofun, nofun, fun _ h => h, .inl, rfl⟩

theorem Takes.of_opened {trimmed : TcpSegment} {fin : Bool}
    (hsr : c.state = .synReceived) (h : Takes (c.opened segment) trimmed text fin c') :
    Takes c trimmed text fin c' where
  buffer := h.buffer
  next := h.next
  text_from := h.text_from
  fin_from := h.fin_from
  fin_state := h.fin_state
  state_fin := fun hf hs => by
    have := h.state_fin hf hs
    simp [FinSeen, TcpConnection.opened] at this
  state_keeps := fun hs => by simp [FinSeen, hsr] at hs
  capacity := h.capacity

def Receiving (c : TcpConnection) : Prop := c.Synchronized ∨ c.state = .synReceived

/-- The segment as the stream stages see it: cut when it completes a passive open. -/
def seenSegment (c : TcpConnection) (segment : TcpSegment) : TcpSegment :=
  if c.state = .synReceived then (c.opened segment).trimOverlap segment else segment

theorem Received.takes (h : Received c segment now c') : (c.ObeysReset segment ∧ c' = c.abort) ∨
      (c.state = .synSent ∧ c.AnswersSyn segment ∧ c' = c.connected segment) ∨ c' = c ∨
      (c.Receiving ∧ hasFlag segment.flags tcpFlagSyn = false ∧
        ∃ text fin, Takes c (c.seenSegment segment) text fin c') := by
  cases h with
  | ignored => exact .inr (.inr (.inl rfl))
  | aborted ho => exact .inl ⟨ho, rfl⟩
  | connected hs ha => exact .inr (.inl ⟨hs, ha, rfl⟩)
  | streamed hr hs =>
    have hsr : c.state ≠ .synReceived := by
      have := hr.1
      intro hx
      simp [Synchronized, hx] at this
    refine .inr (.inr (.inr ⟨.inl hr.1, hr.2.2.1, ?_⟩))
    rw [seenSegment, if_neg hsr]
    exact hs.takes hr.1
  | opened hsr hcomp =>
    refine .inr (.inr (.inr ⟨.inr hsr, hcomp.2.2.1, [], false, ?_⟩))
    exact (takes_refl (c.opened segment) _).of_opened hsr
  | openedStream hsr hcomp hs =>
    obtain ⟨text, fin, ht⟩ := hs.takes (.inl rfl)
    refine .inr (.inr (.inr ⟨.inr hsr, hcomp.2.2.1, text, fin, ?_⟩))
    rw [seenSegment, if_pos hsr]
    exact ht.of_opened hsr

theorem Streamed.synchronized
    (h : Streamed c segment now c') (hs : c.Synchronized) : c'.Synchronized ∨ c'.state = .closed := by
  have hack := afterAck_synchronized hs segment
  cases h with
  | rejected => exact .inl hs
  | closing => exact .inr rfl
  | overflow | quiet | text => exact .inl hack
  | fin => exact .inl (withFin_synchronized hack now)
  | textFin => exact .inl (withFin_synchronized (c := (c.afterAck segment).withText segment) hack now)

theorem Received.opening
    (h : Received c segment now c') (hs : c'.state = .synSent ∨ c'.state = .synReceived) : c' = c := by
  have hno : ¬ (c'.Synchronized ∨ c'.state = .closed) := by
    obtain hs | hs := hs <;> simp [Synchronized, hs]
  cases h with
  | ignored => rfl
  | aborted | connected | opened => obtain hs | hs := hs <;> cases hs
  | streamed hr hst => exact absurd (hst.synchronized hr.1) hno
  | openedStream _ _ hst => exact absurd (hst.synchronized (.inl rfl)) hno

end TcpConnection

namespace TcpHistory

/-! ## Operations other than `on_segment` -/

theorem step_local_receive (h : TcpHistory) (op : TcpOp) (hop : Local op) :
    (h.step op).connection.receiveNext = h.connection.receiveNext ∧ (h.step op).appended = h.appended ∧
      (h.step op).finConsumed = h.finConsumed ∧ (h.step op).peerInitial = h.peerInitial := by
  cases op with
  | queueSend bytes =>
    refine ⟨?_, rfl, rfl, rfl⟩
    simp only [step, TcpConnection.queueSend]
    split
    · rfl
    · split <;> rfl
  | requestClose =>
    refine ⟨?_, rfl, rfl, rfl⟩
    simp only [step, TcpConnection.requestClose]
    split <;> rfl
  | pollTransmit now =>
    refine ⟨?_, rfl, rfl, rfl⟩
    have hp := TcpConnection.pollTransmit_polled h.connection now
    change (h.connection.pollTransmit now).1.receiveNext = _
    generalize h.connection.pollTransmit now = p at hp
    cases hp <;> rfl
  | acknowledgment | discardReceived | abort => exact ⟨rfl, rfl, rfl, rfl⟩
  | onSegment segment now => exact absurd rfl (hop segment now)
  | receive size =>
    refine ⟨?_, rfl, rfl, rfl⟩
    simp only [step, TcpConnection.receive]
    split <;> rfl
  | tick now =>
    refine ⟨?_, rfl, rfl, rfl⟩
    simp only [step, TcpConnection.tick]
    split <;> rfl

end TcpHistory

end MochiSyscalls.NetworkStack
