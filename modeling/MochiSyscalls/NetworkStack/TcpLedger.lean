import MochiSyscalls.NetworkStack.TcpLifecycle

/-! # The send-side ledger

At most one segment is outstanding, the sequence counters frame it exactly, and the bytes accepted
by `queue_send` are, in order, the payloads already released, the payload in flight and the send
buffer. The ledger holds in every state but Reset, for any segments the peer sends. -/

namespace MochiSyscalls.NetworkStack
open Foundations Words Serial Runs List TcpConnection
set_option autoImplicit false

structure SendLedger (accepted released : List UInt8) (c : TcpConnection) : Prop where
  single : c.outstanding.length ≤ 1
  idle : c.outstanding = [] → c.sendUnacknowledged = c.sendNext
  busy : ∀ s ∈ c.outstanding, s.sequenceEnd = c.sendNext ∧
    span s.sequence c.sendUnacknowledged < span s.sequence s.sequenceEnd
  stream : accepted = released ++ c.outstanding.flatMap (·.payload) ++ c.sendBuffer
  bounded : (c.outstanding.flatMap (·.payload)).length + c.sendBuffer.length ≤ c.sendCapacity
  short : ∀ s ∈ c.outstanding, span s.sequence s.sequenceEnd < 2 ^ 31
  unsent : ∀ s ∈ c.outstanding, s.sentAt = none → s.payload = []
  capacity : c.sendCapacity ≤ isizeMax

namespace SendLedger
variable {accepted released : List UInt8} {c c' : TcpConnection}

theorem cases (h : SendLedger accepted released c) : c.outstanding = [] ∨ ∃ s, c.outstanding = [s] := by
  have hs := h.single
  match hc : c.outstanding with
  | [] => exact .inl rfl
  | [s] => exact .inr ⟨s, rfl⟩
  | s :: t :: rest =>
    rw [hc] at hs
    simp at hs

theorem congr (h : SendLedger accepted released c) (hs : TcpConnection.SameSend c c') :
    SendLedger accepted released c' := by
  obtain ⟨h1, h2, h3, h4, h5⟩ := hs
  constructor
  · rw [h4]; exact h.single
  · rw [h4, h1, h2]; exact h.idle
  · rw [h4, h1, h2]; exact h.busy
  · rw [h4, h3]; exact h.stream
  · rw [h4, h3, h5]; exact h.bounded
  · rw [h4]; exact h.short
  · rw [h4]; exact h.unsent
  · rw [h5]; exact h.capacity

/-! ## Acknowledgments -/

section

variable (h : SendLedger accepted released c)
include h

theorem window : span c.sendUnacknowledged c.sendNext < 2 ^ 31 := by
  rcases h.cases with hc | ⟨s, hc⟩
  · rw [h.idle hc, span_self]
    omega
  · obtain ⟨hend, hin⟩ := h.busy s (by rw [hc]; simp)
    have hshort := h.short s (by rw [hc]; simp)
    rw [hend] at hin hshort
    exact (span_le_of_mem hin).trans_lt hshort

theorem acceptable_iff (a : UInt32) :
    c.Acceptable a ↔ span c.sendUnacknowledged a ≤ span c.sendUnacknowledged c.sendNext :=
  mem_window_iff h.window a

theorem acked_outstanding {s : OutstandingSegment} (hc : c.outstanding = [s]) {a : UInt32} (ha : c.Acceptable a) :
    (c.acked a).outstanding = if a = c.sendNext then [] else [s] := by
  have hend := (h.busy s (by rw [hc]; simp)).1
  have htop := not_before_top_iff h.window ((h.acceptable_iff a).mp ha)
  unfold acked
  rw [hc, dropWhile_cons, hend]
  by_cases hall : a = c.sendNext
  · have hb : sequenceAfter c.sendNext a = false := by
      rw [Bool.eq_false_iff, Ne, sequenceAfter_iff]
      exact htop.mpr hall
    rw [hb, if_pos hall]
    rfl
  · have hb : sequenceAfter c.sendNext a = true := by
      rw [sequenceAfter_iff]
      by_contra hx
      exact hall (htop.mp hx)
    simp [hb, hall]

theorem acked {a : UInt32} (ha : c.Acceptable a) :
    SendLedger accepted (released ++ TcpHistory.popped c (c.acked a)) (c.acked a) := by
  have hwin := (h.acceptable_iff a).mp ha
  rcases h.cases with hc | ⟨s, hc⟩
  · have hout : (c.acked a).outstanding = [] := by simp [TcpConnection.acked, hc]
    have hnext : a = c.sendNext := by
      rw [h.idle hc, span_self, Nat.le_zero, span_eq_zero] at hwin
      exact hwin.symm
    refine ⟨by simp [hout], fun _ => hnext, by simp [hout], ?_, ?_, by simp [hout], by simp [hout], h.capacity⟩
    · have := h.stream
      simpa [TcpHistory.popped, hout, hc] using this
    · have := h.bounded
      rw [hc] at this
      rw [hout]
      exact this
  · obtain ⟨hend, hin⟩ := h.busy s (by rw [hc]; simp)
    have hout := h.acked_outstanding hc ha
    by_cases hall : a = c.sendNext
    · rw [if_pos hall] at hout
      refine ⟨by simp [hout], fun _ => hall, by simp [hout], ?_, ?_, by simp [hout], by simp [hout], h.capacity⟩
      · have := h.stream
        simpa [TcpHistory.popped, hout, hc] using this
      · have := h.bounded
        rw [hout]
        exact (Nat.add_le_add_right (Nat.zero_le _) _).trans this
    · rw [if_neg hall] at hout
      refine ⟨by simp [hout], fun he => ?_, ?_, ?_, ?_, ?_, ?_, h.capacity⟩
      · rw [hout] at he
        cases he
      · intro t ht
        rw [hout, mem_singleton] at ht
        subst ht
        refine ⟨hend, ?_⟩
        rw [hend] at hin ⊢
        exact span_lt_of_window hin hwin hall
      · have := h.stream
        simpa [TcpHistory.popped, hout, hc] using this
      · have := h.bounded
        rw [hc] at this
        rw [hout]
        exact this
      · rw [hout, ← hc]
        exact h.short
      · rw [hout, ← hc]
        exact h.unsent

end

/-! ## Segments -/

theorem popped_of_same (hs : TcpConnection.SameSend c c') : TcpHistory.popped c c' = [] := by
  simp [TcpHistory.popped, hs.outstanding]

theorem popped_congr {c'' : TcpConnection} (hs : TcpConnection.SameSend c' c'') :
    TcpHistory.popped c c'' = TcpHistory.popped c c' := by
  simp [TcpHistory.popped, hs.outstanding]

variable {now : UInt64}

theorem received (h : SendLedger accepted released c) {segment : TcpSegment}
    (hr : TcpConnection.Received c segment now c') (hne : c'.state ≠ .reset) :
    SendLedger accepted (released ++ TcpHistory.popped c c') c' := by
  rcases hr.send with ⟨_, he⟩ | hsame | ⟨_, hok, hsame⟩
  · exact absurd (congrArg state he) hne
  · rw [popped_of_same hsame, append_nil]
    exact h.congr hsame
  · rw [popped_congr hsame]
    exact (h.acked hok).congr hsame

/-! ## Transmission -/

section

variable (h : SendLedger accepted released c)
include h

theorem withFront {segment : OutstandingSegment}
    {rest : List OutstandingSegment} (hout : c.outstanding = segment :: rest) (now : UInt64) (retries : UInt8) :
    SendLedger accepted released (c.withFront (TcpConnection.stamped segment now retries) rest) := by
  obtain ⟨s, hs⟩ : ∃ s, c.outstanding = [s] := h.cases.resolve_left (by rw [hout]; simp)
  rw [hs] at hout
  obtain ⟨rfl, rfl⟩ := cons.inj hout
  have hmem : s ∈ c.outstanding := by rw [hs]; simp
  have hone : ∀ t, t ∈ (c.withFront (stamped s now retries) []).outstanding →
      t = stamped s now retries := fun t ht => mem_singleton.mp ht
  constructor
  · exact le_rfl
  · intro he
    cases he
  · intro t ht
    rw [hone t ht]
    exact h.busy s hmem
  · have := h.stream
    rw [hs] at this
    exact this
  · have := h.bounded
    rw [hs] at this
    exact this
  · intro t ht
    rw [hone t ht]
    exact h.short s hmem
  · intro t ht hsent
    rw [hone t ht] at hsent
    cases hsent
  · exact h.capacity

theorem withNew (hidle : c.outstanding = []) (segment : OutstandingSegment) (hseq : segment.sequence = c.sendNext)
    (hend : segment.sequenceEnd = c'.sendNext) (hpos : 0 < span segment.sequence segment.sequenceEnd)
    (hshort : span segment.sequence segment.sequenceEnd < 2 ^ 31)
    (hsent : segment.sentAt ≠ none) (hout : c'.outstanding = [segment])
    (huna : c'.sendUnacknowledged = c.sendUnacknowledged) (hcap : c'.sendCapacity = c.sendCapacity)
    (hbuf : c.sendBuffer = segment.payload ++ c'.sendBuffer) : SendLedger accepted released c' := by
  have hone : ∀ t, t ∈ c'.outstanding → t = segment := by
    intro t ht
    rw [hout] at ht
    exact mem_singleton.mp ht
  have hstream := h.stream
  have hbounded := h.bounded
  rw [hidle, hbuf] at hstream hbounded
  constructor
  · rw [hout]
    exact le_rfl
  · intro he
    rw [hout] at he
    cases he
  · intro t ht
    rw [hone t ht]
    refine ⟨hend, ?_⟩
    rw [huna, h.idle hidle, hseq, span_self, ← hseq]
    exact hpos
  · rw [hout]
    simpa using hstream
  · rw [hout, hcap]
    simpa using hbounded
  · intro t ht
    rw [hone t ht]
    exact hshort
  · intro t ht hn
    rw [hone t ht] at hn
    exact absurd hn hsent
  · rw [hcap]
    exact h.capacity

theorem polled
    {p : TcpConnection × Except TcpConnectionError (Option TcpTransmit)} (hp : TcpConnection.Polled c now p)
    (hne : p.1.state ≠ .reset) : SendLedger accepted released p.1 := by
  cases hp with
  | silent => exact h
  | first hout _ | again hout _ _ _ => exact h.withFront hout now _
  | exhausted => exact absurd rfl hne
  | data hidle _ hbuf hmax =>
    have hlen := dataSegment_length c now
    have hpos : 0 < c.sendBuffer.length := length_pos_iff.mpr hbuf
    have hlt := c.maximumPayload_lt
    have hspan : span (c.dataSegment now).sequence (c.dataSegment now).sequenceEnd =
        (c.dataSegment now).payload.length := by
      rw [dataSegment_sequenceEnd]
      exact span_adv _ (by omega)
    refine h.withNew hidle (c.dataSegment now) rfl rfl ?_ ?_ nofun ?_ rfl rfl ?_
    · rw [hspan, hlen]
      omega
    · rw [hspan, hlen]
      omega
    · simp [withData, hidle]
    · exact (take_append_drop _ _).symm
  | fin hidle _ hbuf _ =>
    have hspan : span (c.finSegment now).sequence (c.finSegment now).sequenceEnd = 1 := by
      rw [finSegment_sequenceEnd]
      exact span_adv _ (by omega)
    refine h.withNew hidle (c.finSegment now) rfl
      (finSegment_sequenceEnd c now) ?_ ?_ nofun ?_ rfl rfl rfl
    · rw [hspan]
      omega
    · rw [hspan]
      omega
    · simp [withFinSent, hidle]

theorem fresh_le {t : TcpTransmit}
    (ht : (c.pollTransmit now).2 = .ok (some t)) (hnew : t.retransmission = false) (hdata : t.payload ≠ []) :
    t.payload.length ≤ min (min c.localMss.toNat c.peerMss.toNat) c.peerWindow.toNat := by
  have hp := pollTransmit_polled c now
  generalize c.pollTransmit now = p at hp ht
  cases hp with
  | silent | exhausted => cases ht
  | first hout hsent =>
    cases ht
    exact absurd (h.unsent _ (by rw [hout]; simp) hsent) hdata
  | again =>
    cases ht
    cases hnew
  | data =>
    cases ht
    have hlen := dataSegment_length c now
    change (c.dataSegment now).payload.length ≤ _
    rw [hlen]
    exact (min_le_left _ _).trans c.maximumPayload_le
  | fin =>
    cases ht
    exact absurd rfl hdata

end

/-! ## The user's side -/

theorem inFlight_eq (h : SendLedger accepted released c) : c.inFlight = (c.outstanding.flatMap (·.payload)).length := by
  have hb := h.bounded
  have hcap := h.capacity
  have hmax := isizeMax_lt_usizeMax
  rcases h.cases with hc | ⟨s, hc⟩
  · simp [inFlight, hc]
  · rw [hc] at hb
    simp only [inFlight, hc, foldl_cons, foldl_nil, flatMap_cons,
      flatMap_nil, append_nil, usizeSaturatingAdd, Nat.zero_add] at hb ⊢
    omega

theorem queueSend (h : SendLedger accepted released c) {bytes : List UInt8}
    (hroom : usizeSaturatingAdd (usizeSaturatingAdd c.inFlight c.sendBuffer.length) bytes.length ≤
      c.sendCapacity) : SendLedger (accepted ++ bytes) released { c with sendBuffer := c.sendBuffer ++ bytes } := by
  have hcap := h.capacity
  have hmax := isizeMax_lt_usizeMax
  rw [← not_lt, lt_usizeSaturatingAdd₂ (by omega), h.inFlight_eq] at hroom
  refine ⟨h.single, h.idle, h.busy, ?_, ?_, h.short, h.unsent, h.capacity⟩
  · change accepted ++ bytes = _ ++ (c.sendBuffer ++ bytes)
    rw [h.stream, append_assoc]
  · change (c.outstanding.flatMap (·.payload)).length + (c.sendBuffer ++ bytes).length ≤ c.sendCapacity
    rw [length_append]
    omega

/-! ## Opening -/

theorem of_fresh {initialSequence : UInt32} {synFlags : UInt16}
    (h : TcpConnection.Fresh c initialSequence synFlags) (hsyn : hasFlag synFlags tcpFlagSyn = true)
    (hfin : hasFlag synFlags tcpFlagFin = false) : SendLedger [] [] c := by
  obtain ⟨s, hout, hseq, _, hpayload, _⟩ := h.outstanding
  have hend : s.sequenceEnd = adv initialSequence 1 := h.sequenceEnd hsyn hfin (by rw [hout]; simp)
  have hspan : span s.sequence s.sequenceEnd = 1 := by
    rw [hend, hseq]
    exact span_adv _ (by omega)
  have hone : ∀ t, t ∈ c.outstanding → t = s := by
    intro t ht
    rw [hout] at ht
    exact mem_singleton.mp ht
  constructor
  · simp [hout]
  · intro he
    rw [hout] at he
    cases he
  · intro t ht
    rw [hone t ht, hspan, h.sendUnacknowledged, hseq, span_self, h.sendNext]
    exact ⟨hend, Nat.one_pos⟩
  · simp [hout, hpayload, h.sendBuffer]
  · simp [hout, hpayload, h.sendBuffer]
  · intro t ht
    rw [hone t ht, hspan]
    omega
  · intro t ht _
    rw [hone t ht]
    exact hpayload
  · exact h.sendCapacity

end SendLedger

/-! ## Every run -/

namespace TcpHistory

def Balanced (h : TcpHistory) : Prop :=
  h.connection.state ≠ .reset → SendLedger h.accepted h.released h.connection

theorem requestClose_same (c : TcpConnection) : TcpConnection.SameSend c c.requestClose.1 := by
  unfold requestClose
  split <;> exact ⟨rfl, rfl, rfl, rfl, rfl⟩

theorem receive_same (c : TcpConnection) (size : ℕ) : TcpConnection.SameSend c (c.receive size).1 := by
  unfold receive
  split <;> exact ⟨rfl, rfl, rfl, rfl, rfl⟩

theorem tick_same (c : TcpConnection) (now : UInt64) : TcpConnection.SameSend c (c.tick now).1 := by
  unfold tick
  split <;> exact ⟨rfl, rfl, rfl, rfl, rfl⟩

theorem step_balanced (h : TcpHistory) (op : TcpOp) (hb : h.Balanced) : (h.step op).Balanced := by
  intro hne
  have hl : SendLedger h.accepted h.released h.connection :=
    hb (fun hr => hne (step_reset h op hr))
  cases op with
  | queueSend bytes =>
    obtain ⟨_, hroom, he⟩ | ⟨e, he⟩ := queueSend_cases h.connection bytes
    · simp only [step, he]
      exact hl.queueSend hroom
    · simp only [step, he]
      exact hl
  | requestClose => exact hl.congr (requestClose_same _)
  | pollTransmit now => exact hl.polled (pollTransmit_polled _ now) hne
  | acknowledgment => exact hl
  | onSegment segment now => exact hl.received (onSegment_received _ segment now) hne
  | receive size => exact hl.congr (receive_same _ size)
  | discardReceived => exact hl.congr ⟨rfl, rfl, rfl, rfl, rfl⟩
  | tick now => exact hl.congr (tick_same _ now)
  | abort => exact absurd rfl hne

theorem Built.ledger {h : TcpHistory} (hb : Built h) : SendLedger h.accepted h.released h.connection := by
  cases hb with
  | connect hc => exact .of_fresh (tryConnect_ok hc).1 (by decide) (by decide)
  | accept hc => exact .of_fresh (acceptSyn_ok hc).1 (by decide) (by decide)

theorem run_balanced {h₀ : TcpHistory} (hb : Built h₀) (ops : List TcpOp) : (run step h₀ ops).Balanced :=
  run_invariant step step_balanced (fun _ => hb.ledger) ops

/-- **The send-side ledger**, in every state but Reset of every run. -/
theorem send_ledger {h₀ : TcpHistory} (hb : Built h₀) (ops : List TcpOp) {h : TcpHistory}
    (hrun : run step h₀ ops = h) (hne : h.connection.state ≠ .reset) :
    h.connection.outstanding.length ≤ 1 ∧
    (h.connection.outstanding = [] → h.connection.sendUnacknowledged = h.connection.sendNext) ∧
    (∀ s ∈ h.connection.outstanding, s.sequenceEnd = h.connection.sendNext ∧
      span s.sequence h.connection.sendUnacknowledged < span s.sequence s.sequenceEnd) ∧
    h.accepted = h.released ++ h.connection.outstanding.flatMap (·.payload) ++ h.connection.sendBuffer ∧
    (h.connection.outstanding.flatMap (·.payload)).length + h.connection.sendBuffer.length ≤
      h.connection.sendCapacity ∧
    ∀ now t, (h.connection.pollTransmit now).2 = .ok (some t) → t.retransmission = false → t.payload ≠ [] →
      t.payload.length ≤
        min (min h.connection.localMss.toNat h.connection.peerMss.toNat) h.connection.peerWindow.toNat := by
  have hl : SendLedger h.accepted h.released h.connection := by
    subst hrun
    exact run_balanced hb ops hne
  exact ⟨hl.single, hl.idle, hl.busy, hl.stream, hl.bounded, fun now t => hl.fresh_le⟩

theorem send_ledger_fixture :
    let h := run step (TcpFixture.history 32 32)
      [.pollTransmit 0, .onSegment TcpFixture.synAck 1, .queueSend [97, 98, 99, 100, 101], .pollTransmit 2,
        .onSegment (TcpFixture.segment tcpFlagAck 501 103 []) 3]
    h.connection.state = .established ∧ h.connection.outstanding.length = 1 ∧
      h.connection.sendBuffer = [101] ∧
      h.accepted = h.released ++ h.connection.outstanding.flatMap (·.payload) ++ h.connection.sendBuffer := by
  refine ⟨by decide, by decide, by decide, ?_⟩
  exact (send_ledger TcpFixture.history_built _ rfl (by decide)).2.2.2.1

end TcpHistory

end MochiSyscalls.NetworkStack
