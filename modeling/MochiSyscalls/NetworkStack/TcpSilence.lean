import MochiSyscalls.NetworkStack.TcpLedger

/-! # Whether a finished connection is silent

`poll_transmit` looks at `outstanding` before it looks at the state, so a connection in Closed or
Reset is silent exactly when nothing in the queue can be sent any more. `abort`, retry exhaustion
and the last acknowledgment of LastAck leave such a queue. The TimeWait timer does not check it: in
a simultaneous close the FIN is still outstanding when the timer closes the connection. -/

namespace MochiSyscalls.NetworkStack
open Foundations Words Runs TcpConnection
set_option autoImplicit false

namespace TcpConnection

/-! ## What can still be sent -/

/-- The front segment was sent and will never be sent again: no retries are left, or its back-off never elapses. -/
def Spent (c : TcpConnection) (segment : OutstandingSegment) : Prop :=
  ∃ sentAt, segment.sentAt = some sentAt ∧
    (c.retryLimit ≤ segment.retries ∨
      ∀ now : UInt64, saturatingSub now sentAt < c.retransmitDelay segment)

def Muted (c : TcpConnection) : Prop := ∀ segment, c.outstanding.head? = some segment → c.Spent segment

variable {c : TcpConnection}

theorem muted_of_nil (h : c.outstanding = []) : c.Muted := by
  intro segment hs
  rw [h] at hs
  cases hs

theorem silent_iff_muted (h : ¬ c.canSend) : (∀ now t, (c.pollTransmit now).2 ≠ .ok (some t)) ↔ c.Muted := by
  constructor
  · intro hs segment hhead
    obtain ⟨rest, hout⟩ : ∃ rest, c.outstanding = segment :: rest := by
      cases hout : c.outstanding with
      | nil =>
        rw [hout] at hhead
        cases hhead
      | cons s rest =>
        rw [hout] at hhead
        cases hhead
        exact ⟨rest, rfl⟩
    have hpoll : ∀ now, c.pollTransmit now = c.pollOutstanding segment rest now := by
      intro now
      unfold pollTransmit
      rw [hout]
    cases hsent : segment.sentAt with
    | none =>
      refine absurd ?_ (hs 0 (transmitFrom segment c.localWindow false))
      rw [hpoll, pollOutstanding, hsent]
      rfl
    | some sentAt =>
      refine ⟨sentAt, hsent, ?_⟩
      by_contra hcon
      obtain ⟨hlimit, hdue⟩ := not_or.mp hcon
      obtain ⟨now, hnow⟩ := not_forall.mp hdue
      refine hs now (transmitFrom segment c.localWindow true) ?_
      rw [hpoll, pollOutstanding, hsent]
      dsimp only
      rw [if_neg hnow, if_neg hlimit]
      rfl
  · intro hm now t heq
    have hp := pollTransmit_polled c now
    generalize c.pollTransmit now = p at hp heq
    cases hp with
    | silent | exhausted => cases heq
    | first hout hsent =>
      obtain ⟨sentAt, hs, _⟩ := hm _ (by rw [hout]; rfl)
      rw [hsent] at hs
      cases hs
    | again hout hsent hdue hlimit =>
      obtain ⟨sentAt, hs, hsp⟩ := hm _ (by rw [hout]; rfl)
      rw [hsent] at hs
      cases hs
      rcases hsp with hsp | hsp
      · exact absurd hlimit (UInt8.not_lt.mpr hsp)
      · exact absurd (hsp now) (UInt64.not_lt.mpr hdue)
    | data _ hcan | fin _ hcan => exact h hcan

/-! ## Staying muted -/

variable {c' : TcpConnection}

theorem Muted.congr (h : c.Muted) (hout : c'.outstanding = c.outstanding)
    (hlimit : c'.retryLimit = c.retryLimit) (htimeout : c'.retransmitTimeout = c.retransmitTimeout) : c'.Muted := by
  intro segment hs
  rw [hout] at hs
  obtain ⟨sentAt, hsent, hspent⟩ := h segment hs
  refine ⟨sentAt, hsent, ?_⟩
  unfold retransmitDelay at hspent ⊢
  rw [hlimit, htimeout]
  exact hspent

theorem abort_muted (c : TcpConnection) : c.abort.Muted := muted_of_nil rfl

theorem exhausted_muted {segment : OutstandingSegment} {rest : List OutstandingSegment}
    {sentAt : UInt64} (hout : c.outstanding = segment :: rest) (hsent : segment.sentAt = some sentAt)
    (hlimit : c.retryLimit ≤ segment.retries) : c.exhausted.Muted := by
  intro s hs
  have he : c.exhausted.outstanding.head? = some segment := by simp [exhausted, hout]
  rw [he] at hs
  cases hs
  exact ⟨sentAt, hsent, .inl hlimit⟩

variable {now : UInt64}

theorem Polled.muted {p : TcpConnection × Except TcpConnectionError (Option TcpTransmit)} (h : Polled c now p)
    (hm : p.1.Terminal → c.Terminal → c.Muted) (ht : p.1.Terminal) : p.1.Muted := by
  cases h with
  | silent => exact hm ht ht
  | first hout hsent =>
    obtain ⟨sentAt, hs, _⟩ := hm ht ht _ (by rw [hout]; rfl)
    rw [hsent] at hs
    cases hs
  | again hout hsent hdue hlimit =>
    obtain ⟨sentAt, hs, hspent⟩ := hm ht ht _ (by rw [hout]; rfl)
    rw [hsent] at hs
    cases hs
    rcases hspent with hspent | hspent
    · exact absurd hlimit (UInt8.not_lt.mpr hspent)
    · exact absurd (hspent now) (UInt64.not_lt.mpr hdue)
  | exhausted hout hsent hlimit => exact exhausted_muted hout hsent hlimit
  | data _ hcan => exact absurd hcan (Terminal.not_canSend (c := c) ht)
  | fin _ hcan =>
    rcases ht with ht | ht <;> simp only [withFinSent] at ht <;> split at ht <;> cases ht

/-! ## How a segment ends a connection -/

theorem afterAck_synchronized (h : c.Synchronized) (segment : TcpSegment) : (c.afterAck segment).Synchronized := by
  simp only [Synchronized, afterAck] at h ⊢
  split
  · exact .inr (.inr (.inl rfl))
  · exact h

theorem withFin_synchronized (h : c.Synchronized) (now : UInt64) : (c.withFin now).Synchronized := by
  rcases h with h | h | h | h | h | h <;> simp [Synchronized, withFin, finState, h]

theorem Streamed.of_terminal {segment : TcpSegment}
    (h : Streamed c segment now c') (hs : c.Synchronized) (ht : c'.Terminal) :
    c.state = .lastAck ∧ c.AcksAll segment ∧ c.Acceptable segment.acknowledgment ∧
      c' = { c.acked segment.acknowledgment with state := .closed } := by
  have hack := afterAck_synchronized hs segment
  cases h with
  | rejected => exact absurd hs ht.not_synchronized
  | closing hp hla hall => exact ⟨hla, hall, hp.resolve_left hall.1, rfl⟩
  | overflow | quiet | text => exact absurd hack ht.not_synchronized
  | fin => exact absurd (withFin_synchronized hack now) ht.not_synchronized
  | textFin =>
    exact absurd (withFin_synchronized (c := (c.afterAck segment).withText segment) hack now) ht.not_synchronized

theorem Received.terminal_cases {segment : TcpSegment} (h : Received c segment now c') (ht : c'.Terminal) :
    c' = c ∨ c' = c.abort ∨ (c.state = .lastAck ∧ c.AcksAll segment ∧ c.Acceptable segment.acknowledgment ∧
        c' = { c.acked segment.acknowledgment with state := .closed }) := by
  cases h with
  | ignored => exact .inl rfl
  | aborted => exact .inr (.inl rfl)
  | connected | opened => rcases ht with ht | ht <;> cases ht
  | streamed hr hs => exact .inr (.inr (hs.of_terminal hr.1 ht))
  | openedStream _ _ hs =>
    have hla := (hs.of_terminal (.inl rfl) ht).1
    cases hla

end TcpConnection

namespace TcpHistory

/-- No tick closes a connection in TimeWait that could still send its outstanding segment. -/
def ClosesMuted (h : TcpHistory) (op : TcpOp) : Prop :=
  ∀ now limit, op = .tick now → h.connection.state = .timeWait →
    h.connection.timeWaitUntil = some limit → limit ≤ now → h.connection.Muted

/-- From here on the connection stays in Closed or Reset and sends nothing. -/
def Final (h : TcpHistory) : Prop :=
  ∀ ops, (run step h ops).connection.Terminal ∧
    ∀ now t, ((run step h ops).connection.pollTransmit now).2 ≠ .ok (some t)

def EndsMuted (h : TcpHistory) : Prop := h.connection.Terminal → h.connection.Muted

theorem step_endsMuted (h : TcpHistory) (op : TcpOp) (hb : h.Balanced) (hm : h.EndsMuted)
    (hc : h.ClosesMuted op) : (h.step op).EndsMuted := by
  intro ht
  cases op with
  | queueSend bytes =>
    have htc : h.connection.Terminal := ht.congr (queueSend_state _ bytes).symm
    simp only [step, queueSend_of_not_canSend htc.not_canSend]
    exact hm htc
  | requestClose =>
    have htc : h.connection.Terminal := ht.congr (requestClose_state _).symm
    simp only [step, requestClose_of_not_canSend htc.not_canSend]
    exact hm htc
  | pollTransmit now => exact (pollTransmit_polled _ now).muted (fun _ => hm) ht
  | acknowledgment => exact hm ht
  | onSegment segment now =>
    rcases (onSegment_received h.connection segment now).terminal_cases ht with
      he | he | ⟨hla, hall, hok, he⟩
    · simp only [step, observe, he] at ht ⊢
      exact hm ht
    · simp only [step, observe, he]
      exact abort_muted _
    · -- by the ledger the acknowledgment of everything sent empties the queue
      have hl := hb (by rw [hla]; decide)
      simp only [step, observe, he]
      apply muted_of_nil
      change (h.connection.acked segment.acknowledgment).outstanding = []
      rcases hl.cases with hout | ⟨s, hout⟩
      · simp [acked, hout]
      · rw [hl.acked_outstanding hout hok, if_pos hall.2]
  | receive size =>
    have htc : h.connection.Terminal := ht.congr (receive_state _ size).symm
    refine (hm htc).congr (receive_same h.connection size).outstanding ?_ ?_
    · simp only [step, receive]
      split <;> rfl
    · simp only [step, receive]
      split <;> rfl
  | discardReceived => exact (hm ht).congr rfl rfl rfl
  | tick now =>
    rcases tick_cases h.connection now with he | ⟨limit, hstate, hlimit, hle, he⟩
    · simp only [step, he] at ht ⊢
      exact hm ht
    · simp only [step, he]
      exact (hc now limit rfl hstate hlimit hle).congr rfl rfl rfl
  | abort => exact abort_muted _

variable {h : TcpHistory}

theorem final_of_muted (hb : h.Balanced) (ht : h.connection.Terminal) (hm : h.connection.Muted) : h.Final := by
  intro ops
  have hinv := run_invariant step (P := fun h => h.Balanced ∧ h.connection.Terminal ∧ h.connection.Muted)
    (fun h op hp => by
      obtain ⟨hb, ht, hm⟩ := hp
      refine ⟨step_balanced h op hb, step_terminal h op ht, ?_⟩
      refine step_endsMuted h op hb (fun _ => hm) ?_ (step_terminal h op ht)
      intro now limit _ hstate
      rcases ht with ht | ht <;> rw [ht] at hstate <;> cases hstate)
    ⟨hb, ht, hm⟩ ops
  exact ⟨hinv.2.1, (silent_iff_muted hinv.2.1.not_canSend).mpr hinv.2.2⟩

theorem muted_of_final (hf : h.Final) : h.connection.Muted := by
  obtain ⟨ht, hs⟩ := hf []
  exact (silent_iff_muted (TcpConnection.Terminal.not_canSend (c := h.connection) ht)).mp hs

/-- **Finished connections are final and silent** exactly when no tick closes a connection that could still send its
outstanding segment. -/
theorem final_iff_closesMuted {h₀ : TcpHistory} (hb : Built h₀) (ops : List TcpOp) :
    (∀ pre post, ops = pre ++ post → (run step h₀ pre).connection.Terminal → (run step h₀ pre).Final) ↔
      Along step ClosesMuted h₀ ops := by
  constructor
  · intro hf
    rw [along_iff]
    rintro pre op post rfl now limit rfl hstate hlimit hle
    -- the tick leads to Closed with the same queue, which is final only if the queue is muted
    have hclosed : (run step h₀ (pre ++ [.tick now])).connection =
        { (run step h₀ pre).connection with state := .closed } := by
      rw [run_snoc]
      change ((run step h₀ pre).connection.tick now).1 = _
      unfold tick
      rw [if_pos ⟨hstate, by simp [hlimit, hle]⟩]
    have hm := muted_of_final (hf (pre ++ [.tick now]) post (by simp) (by rw [hclosed]; exact .inl rfl))
    rw [hclosed] at hm
    exact hm.congr rfl rfl rfl
  · rintro hall pre post rfl ht
    rw [along_append] at hall
    have hinv := along_invariant step (P := fun h => h.Balanced ∧ h.EndsMuted)
      (fun h op hp hc => ⟨step_balanced h op hp.1, step_endsMuted h op hp.1 hp.2 hc⟩)
      ⟨fun _ => hb.ledger, fun ht₀ => absurd ht₀ hb.not_terminal⟩ hall.1
    exact final_of_muted hinv.1 ht (hinv.2 ht)

/-- A simultaneous close: our FIN is never acknowledged, the peer's FIN leads to TimeWait. -/
def simultaneousClose : List TcpOp :=
  [.pollTransmit 0, .onSegment TcpFixture.synAck 1, .requestClose, .pollTransmit 2,
    .onSegment (TcpFixture.segment (tcpFlagFin ||| tcpFlagAck) 501 101 []) 3, .tick 30003]

/-- The FIN of a simultaneous close is sent again after the connection is Closed. -/
theorem closed_fin_retransmitted : Built (TcpFixture.history 32 32) ∧
      (run step (TcpFixture.history 32 32) simultaneousClose).connection.state = .closed ∧
      ∃ t, ((run step (TcpFixture.history 32 32) simultaneousClose).connection.pollTransmit 30003).2 =
        .ok (some t) ∧ t.flags = tcpFlagFin ||| tcpFlagAck ∧ t.retransmission = true :=
  ⟨TcpFixture.history_built, by decide, _, rfl, by decide, by decide⟩

theorem final_iff_closesMuted_fixture : let ops : List TcpOp := [.pollTransmit 0, .onSegment TcpFixture.synAck 1,
      .onSegment (TcpFixture.segment (tcpFlagFin ||| tcpFlagAck) 501 101 []) 2, .requestClose,
      .pollTransmit 3, .onSegment (TcpFixture.segment tcpFlagAck 502 102 []) 4]
    (run step (TcpFixture.history 32 32) ops).connection.state = .closed ∧
      (run step (TcpFixture.history 32 32) ops).Final := by
  intro ops
  have hclosed : (run step (TcpFixture.history 32 32) ops).connection.state = .closed := by decide
  refine ⟨hclosed, (final_iff_closesMuted TcpFixture.history_built ops).mpr ?_ ops [] (by simp) (.inl hclosed)⟩
  exact ⟨nofun, nofun, nofun, nofun, nofun, nofun, trivial⟩

end TcpHistory

end MochiSyscalls.NetworkStack
