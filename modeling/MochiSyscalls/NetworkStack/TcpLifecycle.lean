import MochiSyscalls.NetworkStack.TcpHistory

/-! # The state diagram of a connection

The states a segment can lead to, and those the connection's own operations can lead to. Closed and
Reset have no successors: no operation leads from them to another state, and none from Reset to
Closed. -/

namespace MochiSyscalls.NetworkStack
open Foundations Words Runs List TcpConnection
set_option autoImplicit false

namespace TcpConnection

/-- `matches!(state, TcpState::Closed | TcpState::Reset)`. -/
def Terminal (c : TcpConnection) : Prop := c.state = .closed ∨ c.state = .reset
  deriving Decidable

variable {c : TcpConnection}

theorem Terminal.not_synchronized (h : c.Terminal) : ¬ c.Synchronized := by
  rcases h with h | h <;> simp [Synchronized, h]

theorem Terminal.not_canSend (h : c.Terminal) : ¬ c.canSend := by
  rcases h with h | h <;> simp [canSend, h]

variable {c' : TcpConnection}

theorem Terminal.congr (h : c.Terminal) (hs : c'.state = c.state) : c'.Terminal := by
  unfold Terminal at h ⊢
  rw [hs]
  exact h

variable {segment : TcpSegment} {now : UInt64}

theorem Received.of_terminal (h : Received c segment now c') (ht : c.Terminal) : c' = c ∨ c' = c.abort := by
  have hss : c.state ≠ .synSent := by rcases ht with h | h <;> rw [h] <;> decide
  have hsr : c.state ≠ .synReceived := by rcases ht with h | h <;> rw [h] <;> decide
  cases h with
  | ignored => exact .inl rfl
  | aborted => exact .inr rfl
  | connected h => exact absurd h hss
  | streamed h => exact absurd h.1 ht.not_synchronized
  | opened h | openedStream h => exact absurd h hsr

/-! ## The edges -/

def segmentSuccessors : TcpState → List TcpState
  | .synSent => [.established]
  | .synReceived => [.established, .closeWait]
  | .established => [.closeWait]
  | .finWait1 => [.finWait2, .timeWait]
  | .finWait2 => [.timeWait]
  | .lastAck => [.closed]
  | _ => []

/-- The states `poll_transmit` and `tick` lead to, Reset aside. -/
def localSuccessors : TcpState → List TcpState
  | .established => [.finWait1]
  | .closeWait => [.lastAck]
  | .timeWait => [.closed]
  | _ => []

theorem afterAck_state (c : TcpConnection) (segment : TcpSegment) : (c.afterAck segment).state = c.state ∨
      (c.state = .finWait1 ∧ (c.afterAck segment).state = .finWait2) := by
  change (if c.state = .finWait1 ∧ c.AcksAll segment then TcpState.finWait2 else c.state) = _ ∨
    (_ ∧ (if c.state = .finWait1 ∧ c.AcksAll segment then TcpState.finWait2 else c.state) = _)
  split
  next h => exact .inr ⟨h.1, rfl⟩
  · exact .inl rfl

theorem finState_successor (s : TcpState) : finState s = s ∨ finState s ∈ segmentSuccessors s := by
  cases s <;> decide

theorem Streamed.state (h : Streamed c segment now c') : c'.state = c.state ∨ c'.state ∈ segmentSuccessors c.state := by
  have hack : (c.afterAck segment).state = c.state ∨ (c.afterAck segment).state ∈ segmentSuccessors c.state := by
    obtain he | ⟨hs, he⟩ := afterAck_state c segment
    · exact .inl he
    · rw [hs, he]
      decide
  have hfin : finState (c.afterAck segment).state = c.state ∨
      finState (c.afterAck segment).state ∈ segmentSuccessors c.state := by
    obtain he | ⟨hs, he⟩ := afterAck_state c segment
    · rw [he]
      exact finState_successor c.state
    · rw [hs, he]
      decide
  cases h with
  | rejected => exact .inl rfl
  | closing _ hla =>
    rw [hla]
    exact .inr (mem_singleton.mpr rfl)
  | overflow | quiet | text => exact hack
  | fin | textFin => exact hfin

theorem Received.state (h : Received c segment now c') :
    c'.state = c.state ∨ c'.state = .reset ∨ c'.state ∈ segmentSuccessors c.state := by
  cases h with
  | ignored => exact .inl rfl
  | aborted => exact .inr (.inl rfl)
  | connected hs =>
    rw [hs]
    exact .inr (.inr (mem_singleton.mpr rfl))
  | streamed _ hst =>
    obtain he | he := hst.state
    · exact .inl he
    · exact .inr (.inr he)
  | opened hs =>
    rw [hs]
    exact .inr (.inr (mem_cons_self ..))
  | openedStream hs _ hst =>
    -- the stream stages start in Established
    have hst' : c'.state = .established ∨ c'.state ∈ segmentSuccessors .established := hst.state
    rw [hs]
    obtain he | he := hst'
    · exact .inr (.inr (by rw [he]; decide))
    · exact .inr (.inr (mem_cons_of_mem _ he))

theorem Polled.state {p : TcpConnection × Except TcpConnectionError (Option TcpTransmit)} (h : Polled c now p) :
    p.1.state = c.state ∨ p.1.state = .reset ∨ p.1.state ∈ localSuccessors c.state := by
  cases h with
  | silent | first | again | data => exact .inl rfl
  | exhausted => exact .inr (.inl rfl)
  | fin _ hcan => obtain hs | hs := hcan <;> exact .inr (.inr (by simp [withFinSent, hs, localSuccessors]))

theorem tick_state (c : TcpConnection) (now : UInt64) :
    (c.tick now).1.state = c.state ∨ (c.tick now).1.state ∈ localSuccessors c.state := by
  obtain he | ⟨_, hs, _, _, he⟩ := tick_cases c now
  · exact .inl (congrArg state he)
  · rw [he, hs]
    exact .inr (mem_singleton.mpr rfl)

theorem queueSend_of_not_canSend (h : ¬ c.canSend) (bytes : List UInt8) :
    c.queueSend bytes = (c, .error .invalidState) := if_pos h

theorem requestClose_of_not_canSend (h : ¬ c.canSend) : c.requestClose = (c, .error .invalidState) := if_pos h

theorem queueSend_state (c : TcpConnection) (bytes : List UInt8) : (c.queueSend bytes).1.state = c.state := by
  unfold queueSend
  split
  · rfl
  · split <;> rfl

theorem requestClose_state (c : TcpConnection) : c.requestClose.1.state = c.state := by
  unfold requestClose
  split <;> rfl

theorem receive_state (c : TcpConnection) (size : ℕ) : (c.receive size).1.state = c.state := by
  unfold receive
  split <;> rfl

end TcpConnection

namespace TcpHistory

def Local (op : TcpOp) : Prop := ∀ segment now, op ≠ .onSegment segment now

theorem local_or_onSegment (op : TcpOp) : Local op ∨ ∃ segment now, op = .onSegment segment now := by
  simp only [Local, ne_eq, ← not_exists, Classical.em, or_comm]

theorem step_local_state (h : TcpHistory) (op : TcpOp) (hop : Local op) :
    (h.step op).connection.state = h.connection.state ∨ (h.step op).connection.state = .reset ∨
      (h.step op).connection.state ∈ TcpConnection.localSuccessors h.connection.state := by
  cases op with
  | queueSend bytes => exact .inl (queueSend_state _ bytes)
  | requestClose => exact .inl (requestClose_state _)
  | pollTransmit now => exact (pollTransmit_polled _ now).state
  | acknowledgment | discardReceived => exact .inl rfl
  | onSegment segment now => exact absurd rfl (hop segment now)
  | receive size => exact .inl (receive_state _ size)
  | tick now =>
    obtain he | he := tick_state h.connection now
    · exact .inl he
    · exact .inr (.inr he)
  | abort => exact .inr (.inl rfl)

theorem step_state (h : TcpHistory) (op : TcpOp) :
    (h.step op).connection.state = h.connection.state ∨ (h.step op).connection.state = .reset ∨
      (h.step op).connection.state ∈ TcpConnection.segmentSuccessors h.connection.state ++
        TcpConnection.localSuccessors h.connection.state := by
  rcases local_or_onSegment op with hop | ⟨segment, now, rfl⟩
  · obtain he | he | he := step_local_state h op hop
    · exact .inl he
    · exact .inr (.inl he)
    · exact .inr (.inr (mem_append_right _ he))
  · obtain he | he | he := (onSegment_received h.connection segment now).state
    · exact .inl he
    · exact .inr (.inl he)
    · exact .inr (.inr (mem_append_left _ he))

theorem step_closed {S : TcpState → Prop} (hreset : S .reset)
    (hedge : ∀ s, S s → ∀ s' ∈ TcpConnection.segmentSuccessors s ++ TcpConnection.localSuccessors s, S s')
    (h : TcpHistory) (op : TcpOp) (hs : S h.connection.state) : S (h.step op).connection.state := by
  obtain he | he | he := step_state h op
  · rwa [he]
  · rwa [he]
  · exact hedge _ hs _ he

variable {h : TcpHistory}

theorem step_of_terminal (ht : h.connection.Terminal) (op : TcpOp) :
    (h.step op).connection.state = h.connection.state ∨ (h.step op).connection.state = .reset := by
  obtain he | he | he := step_state h op
  · exact .inl he
  · exact .inr he
  · obtain ht | ht := ht <;> rw [ht] at he <;> cases he

theorem step_terminal (h : TcpHistory) (op : TcpOp) (ht : h.connection.Terminal) : (h.step op).connection.Terminal := by
  rcases step_of_terminal ht op with he | he
  · exact ht.congr he
  · exact .inr he

theorem step_reset (h : TcpHistory) (op : TcpOp) (hr : h.connection.state = .reset) :
    (h.step op).connection.state = .reset := by
  rcases step_of_terminal (.inr hr) op with he | he
  · rw [he, hr]
  · exact he

theorem Built.not_terminal (hb : Built h) : ¬ h.connection.Terminal := by
  rintro (ht | ht) <;> cases hb with
  | connect hc => exact absurd ((tryConnect_ok hc).2.2.1.symm.trans ht) (by decide)
  | accept hc => exact absurd ((acceptSyn_ok hc).2.2.2.2.1.symm.trans ht) (by decide)

end TcpHistory

end MochiSyscalls.NetworkStack
