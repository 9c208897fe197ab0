import MochiSyscalls.NetworkStack.TcpEndpoints

/-! # End-to-end streams

Both directions of a pair of connections together, from the start of the pair to the end of any run
of moves that stays below half the sequence space. -/

namespace MochiSyscalls.NetworkStack
open Foundations Serial Runs List
set_option autoImplicit false

namespace TcpHistory

/-! ## Both directions -/

structure Linked (ix iy : UInt32) (x y : TcpHistory) : Prop where
  sender : Sender ix x
  sender' : Sender iy y
  reading : Reading ix x y
  reading' : Reading iy y x

variable {ix iy : UInt32} {x y : TcpHistory}

theorem Linked.symm (h : Linked ix iy x y) : Linked iy ix y x := ⟨h.2, h.1, h.4, h.3⟩

theorem Linked.act (h : Linked ix iy x y) (op : StreamOp) : Linked ix iy (x.step op.toOp) y :=
  ⟨h.sender.step (toOp_orderly op), h.sender', h.reading.write h.sender _, h.reading'.act op⟩

theorem Linked.arrival (h : Linked ix iy x y) (hb : y.accepted.length + 2 < 2 ^ 31) (index : ℕ) (now : UInt64) :
    Linked ix iy (TcpEndpoints.arrival x y index now) y ∧
      Pipe.Steps (pipe y x) (pipe y (TcpEndpoints.arrival x y index now)) ∧
      Pipe.Steps (pipe x y) (pipe (TcpEndpoints.arrival x y index now) y) := by
  unfold TcpEndpoints.arrival
  split
  next t ht =>
    have hw := h.sender'.wire t (mem_of_getElem? ht)
    refine ⟨⟨h.sender.step hw.flags.1, h.sender', h.reading.write h.sender _, ?_⟩, ?_, pipe_write h.sender y _⟩
    · exact h.reading'.receives hw hb now
    · exact pipe_arrive h.reading' hw hb now
  · exact ⟨h, .refl, .refl⟩

end TcpHistory

namespace TcpEndpoints
open TcpHistory

variable (e : TcpEndpoints)

def Bounded : Prop := ∀ side, (e.host side).accepted.length < 2 ^ 31 - 2

def LinkedAt (ix iy : UInt32) (e : TcpEndpoints) : Prop := Linked ix iy e.active e.passive

def inbound (side : Side) : Pipe.State UInt8 := pipe (e.peer side) (e.host side)

theorem step_accepted (h : TcpHistory) (op : TcpOp) : h.accepted.length ≤ (h.step op).accepted.length := by
  cases op with
  | queueSend bytes =>
    simp only [TcpHistory.step]
    split
    · rw [length_append]
      exact Nat.le_add_right _ _
    · exact le_rfl
  | requestClose | pollTransmit | acknowledgment | onSegment | receive | discardReceived | tick | abort =>
    exact le_rfl

theorem arrival_accepted (h peer : TcpHistory) (index : ℕ) (now : UInt64) :
    (arrival h peer index now).accepted = h.accepted := by
  unfold arrival
  split <;> rfl

variable (move : TcpMove)

theorem bounded_before (hb : (e.step move).Bounded) : e.Bounded := by
  intro side
  refine lt_of_le_of_lt ?_ (hb side)
  cases move with
  | act at_ op =>
    have hle := step_accepted (e.host at_) op.toOp
    cases at_ <;> cases side <;> first | exact le_rfl | exact hle
  | deliver at_ index now =>
    have hle := (congrArg length (arrival_accepted (e.host at_) (e.peer at_) index now)).ge
    cases at_ <;> cases side <;> first | exact le_rfl | exact hle

theorem step_linked {ix iy : UInt32} (hl : e.LinkedAt ix iy) (hb : e.Bounded) : (e.step move).LinkedAt ix iy := by
  have hactive : e.active.accepted.length < 2 ^ 31 - 2 := hb .active
  have hpassive : e.passive.accepted.length < 2 ^ 31 - 2 := hb .passive
  cases move with
  | act side op =>
    cases side with
    | active => exact hl.act op
    | passive => exact (hl.symm.act op).symm
  | deliver side index now =>
    cases side with
    | active => exact (hl.arrival (by omega) index now).1
    | passive => exact (hl.symm.arrival (by omega) index now).1.symm

theorem step_refines {ix iy : UInt32} (hl : e.LinkedAt ix iy)
    (hb : e.Bounded) (side : Side) : Pipe.Steps (e.inbound side) ((e.step move).inbound side) := by
  have hactive : e.active.accepted.length < 2 ^ 31 - 2 := hb .active
  have hpassive : e.passive.accepted.length < 2 ^ 31 - 2 := hb .passive
  cases move with
  | act at_ op =>
    cases at_ with
    | active =>
      cases side with
      | active => exact pipe_read hl.reading' op
      | passive => exact pipe_write hl.sender e.passive op.toOp
    | passive =>
      cases side with
      | active => exact pipe_write hl.sender' e.active op.toOp
      | passive => exact pipe_read hl.reading op
  | deliver at_ index now =>
    cases at_ with
    | active =>
      obtain ⟨_, hread, hwrite⟩ := hl.arrival (by omega) index now
      cases side with
      | active => exact hread
      | passive => exact hwrite
    | passive =>
      obtain ⟨_, hread, hwrite⟩ := hl.symm.arrival (by omega) index now
      cases side with
      | active => exact hwrite
      | passive => exact hread

/-! ## The start -/

theorem syn_onWire {iss : UInt32} {x : TcpHistory} {sequence : UInt32} {flags : UInt16} {payload : List UInt8}
    (hw : OnWire iss x sequence flags payload) (hf : flags &&& ~~~tcpFlagPsh = tcpFlagSyn) :
    sequence = iss ∧ payload = [] := by
  cases hw with
  | syn => exact ⟨rfl, rfl⟩
  | text | fin | ack => cases hf

/-- The pair right after its start: the active side has only its SYN, the passive side its SYN/ACK. -/
structure Opening (ix iy : UInt32) (e : TcpEndpoints) : Prop where
  linked : e.LinkedAt ix iy
  balanced : e.active.Balanced
  waiting : e.active.connection.state = .synSent ∨ e.active.connection.Terminal
  una : e.active.connection.sendUnacknowledged = ix
  queue : ∀ s ∈ e.active.connection.outstanding, s.flags = tcpFlagSyn ∧ s.payload = []
  appended : e.active.appended = []
  passive : ∃ d, e.passive = .start d (some ix) ∧ Built e.passive ∧ d.sendUnacknowledged = iy ∧
    d.receiveBuffer = [] ∧ ∀ s ∈ d.outstanding, s.payload = [] ∧ s.acknowledgment = adv ix 1

/-- A connection that waits for a SYN/ACK, or gave up waiting. -/
structure Knocking (iss : UInt32) (h : TcpHistory) : Prop where
  state : h.connection.state = .synSent ∨ h.connection.Terminal
  una : h.connection.sendUnacknowledged = iss
  queue : ∀ s ∈ h.connection.outstanding, s.flags = tcpFlagSyn ∧ s.payload = []
  appended : h.appended = []

theorem Knocking.act {iss : UInt32} {h : TcpHistory} (hk : Knocking iss h) (op : StreamOp) :
    Knocking iss (h.step op.toOp) := by
  have hop := toOp_local op
  refine ⟨?_, ?_, ?_, ?_⟩
  · obtain hs | ht := hk.state
    · obtain he | he | he := step_local_state h op.toOp hop
      · exact .inl (he.trans hs)
      · exact .inr (.inr he)
      · rw [hs] at he
        cases he
    · exact .inr (step_terminal h _ ht)
  · exact (step_local_send h op).1.trans hk.una
  · intro s hm
    obtain ⟨s₀, hs₀, _, _, rfl⟩ | ⟨hcan, _⟩ := step_local_queue h op hm
    · exact hk.queue s₀ hs₀
    · obtain hs | ht := hk.state
      · simp [TcpConnection.canSend, hs] at hcan
      · exact absurd hcan ht.not_canSend
  · exact (step_local_receive h op.toOp hop).2.1.trans hk.appended

theorem knocking_start {alloc : Allocator} {handle owner : UInt64} {tuple : TcpTuple}
    {initialSequence : UInt32} {localMss : UInt16} {sendCapacity receiveCapacity : ℕ}
    {retransmitTimeout : UInt64} {retryLimit : UInt8} {c : TcpConnection}
    (hc : TcpConnection.tryConnect alloc handle owner tuple initialSequence localMss sendCapacity
      receiveCapacity retransmitTimeout retryLimit = .ok c) : Knocking c.sendUnacknowledged (.start c none) := by
  obtain ⟨hfresh, _, hstate, hbuf⟩ := TcpConnection.tryConnect_ok hc
  refine ⟨.inl hstate, rfl, ?_, hbuf⟩
  obtain ⟨s, hout, _, hflags, hpayload, _⟩ := hfresh.outstanding
  intro s' hm
  change s' ∈ c.outstanding at hm
  rw [hout, mem_singleton] at hm
  rw [hm]
  exact ⟨hflags, hpayload⟩

section

variable {ops : List StreamOp} {e : TcpEndpoints} (h : Started ops e)
include h

theorem Started.opening : ∃ ix iy, Opening ix iy e := by
  obtain ⟨hc, ht, hd⟩ := h
  rename_i c d t
  obtain ⟨_, _, hstate, hbuf⟩ := TcpConnection.tryConnect_ok hc
  obtain ⟨hfresh', _, _, _, hstate', hbuf', hnext', _, hsyn, hacks⟩ := TcpConnection.acceptSyn_ok hd
  have hbuilt : Built (.start c none) := .connect hc
  have hbuilt' : Built (.start d (some t.sequence)) := .accept hd
  have hknock := knocking_start hc
  have hreading : Reading d.sendUnacknowledged (.start d (some t.sequence)) (.start c none) := by
    refine ⟨hbuilt.finBook, by rintro _ ⟨⟩, ?_, hbuilt.counted, rfl, ?_, ?_⟩
    · rintro (hs | hs)
      · simp [TcpHistory.start, TcpConnection.Synchronized, hstate] at hs
      · exact absurd (hstate.symm.trans hs) (by decide)
    · intro hs
      exact absurd (hstate.symm.trans hs) (by decide)
    · refine ⟨?_, nil_prefix, by rintro ⟨⟩⟩
      change c.receiveBuffer <+: []
      rw [hbuf]
  have hrun : ∀ x, x = run TcpHistory.step (.start c none) (ops.map StreamOp.toOp) →
      Sender c.sendUnacknowledged x ∧ Reading d.sendUnacknowledged (.start d (some t.sequence)) x ∧
        Knocking c.sendUnacknowledged x ∧ x.Balanced := by
    rintro x rfl
    rw [run_map]
    refine run_invariant _ (P := fun x => Sender c.sendUnacknowledged x ∧
      Reading d.sendUnacknowledged (.start d (some t.sequence)) x ∧ Knocking c.sendUnacknowledged x ∧
      x.Balanced) ?_ ⟨hbuilt.sender, hreading, hknock, fun _ => hbuilt.ledger⟩ ops
    exact fun x op hp =>
      ⟨hp.1.step (toOp_orderly op), hp.2.1.act op, hp.2.2.1.act op, step_balanced x _ hp.2.2.2⟩
  obtain ⟨hsender, hread, hkn, hbal⟩ := hrun _ rfl
  obtain ⟨hseq, hpay⟩ := syn_onWire (hsender.wire t ht) (validateSyn_ok hsyn).2
  have hempty : d.receiveBuffer = [] := hbuf'.trans hpay
  refine ⟨c.sendUnacknowledged, d.sendUnacknowledged, ⟨hsender, hbuilt'.sender, ?_, hread⟩, hbal, hkn.state,
    hkn.una, hkn.queue, hkn.appended, d, by rw [hseq], hbuilt', rfl, hempty, ?_⟩
  · refine ⟨hbuilt'.finBook, ?_, fun _ => by rw [← hseq]; rfl, hbuilt'.counted, rfl, fun _ => hempty, ?_⟩
    · intro i hi
      rw [← hseq]
      exact (Option.some.inj hi).symm
    · refine ⟨?_, nil_prefix, by rintro ⟨⟩⟩
      change d.receiveBuffer <+: _
      rw [hempty]
      exact nil_prefix
  · obtain ⟨s, hout, _, _, hpayload, _⟩ := hfresh'.outstanding
    intro s' hm
    refine ⟨?_, ?_⟩
    · rw [hout, mem_singleton] at hm
      rw [hm]
      exact hpayload
    · rw [hacks s' hm, hnext']
      change adv t.sequence (1 + t.payload.length) = _
      rw [hpay, hseq]
      rfl

theorem Started.only_syn
    (hno : StreamOp.acknowledgment ∉ ops) : ∀ t ∈ e.active.transmitted, t.flags = tcpFlagSyn := by
  obtain ⟨hc, ht, hd⟩ := h
  rename_i c d t
  clear ht hd
  change ∀ t ∈ (run TcpHistory.step (.start c none) (ops.map StreamOp.toOp)).transmitted, _
  rw [run_map]
  have hquiet : Along (fun h (op : StreamOp) => h.step op.toOp) (fun _ op => op ≠ .acknowledgment)
      (TcpHistory.start c none) ops := by
    refine along_of_forall _ (fun op hm _ he => ?_) _
    rw [he] at hm
    exact hno hm
  refine (along_invariant _
    (P := fun h => Knocking c.sendUnacknowledged h ∧ ∀ t ∈ h.transmitted, t.flags = tcpFlagSyn) ?_
    ⟨knocking_start hc, nofun⟩ hquiet).2
  intro h op hp hne
  have hk := hp.1.act op
  refine ⟨hk, fun t hm => ?_⟩
  obtain hm | ⟨he, _⟩ | ⟨s, hs, _, _, rfl⟩ := step_local_wire h op hm
  · exact hp.2 t hm
  · exact absurd he hne
  · exact (hk.queue s hs).1

end

end TcpEndpoints

/-! ## Two endpoints of the fixture -/

namespace TcpFixture

def synTransmit : TcpTransmit := TcpConnection.transmitFrom syn 32 false

def acceptedSynAck : OutstandingSegment :=
  { sequence := 900, acknowledgment := 101, flags := tcpFlagSyn ||| tcpFlagAck,
    options := { maximumSegmentSize := some 8 }, payload := [], sentAt := none, retries := 0 }

def acceptedConnection : TcpConnection :=
  { handle := 2, owner := 8, tuple := tuple.reversed, state := .synReceived, sendUnacknowledged := 900,
    sendNext := 901, receiveNext := 101, peerWindow := 32, peerMss := 8, localMss := 8, sendCapacity := 32,
    receiveCapacity := 32, sendBuffer := [], receiveBuffer := [],
    outstanding := [acceptedSynAck], closeRequested := false, retransmitTimeout := 100, retryLimit := 2, timeWaitUntil := none }

def endpoints : TcpEndpoints :=
  { active := run TcpHistory.step (history 32 32) ([StreamOp.pollTransmit 0].map StreamOp.toOp),
    passive := .start acceptedConnection (some 100) }

theorem endpoints_started : TcpEndpoints.Started [.pollTransmit 0] endpoints := by
  have hc : TcpConnection.tryConnect (fun _ => true) 1 7 tuple 100 8 32 32 100 2 = .ok (connection 32 32) := by
    decide
  have ht : synTransmit ∈ (run TcpHistory.step (.start (connection 32 32) none)
      ([StreamOp.pollTransmit 0].map StreamOp.toOp)).transmitted := by decide
  have hd : TcpConnection.acceptSyn (fun _ => true) 2 8 tuple.reversed 900 listenConfig
      (synTransmit.toSegment tuple) = .ok acceptedConnection := by decide
  exact .intro hc ht hd

def handshake : List TcpMove :=
  [.act .passive (.pollTransmit 1), .deliver .active 0 2, .act .active .acknowledgment, .deliver .passive 1 3]

end TcpFixture

namespace TcpEndpoints
open TcpHistory

/-! ## Every run -/

theorem run_refines {ix iy : UInt32} {e₀ : TcpEndpoints} (hl : e₀.LinkedAt ix iy) (moves : List TcpMove)
    (hb : (run step e₀ moves).Bounded) :
    (run step e₀ moves).LinkedAt ix iy ∧ ∀ side, Pipe.Steps (e₀.inbound side) ((run step e₀ moves).inbound side) := by
  refine run_invariant_below step (B := Bounded)
    (P := fun e => e.LinkedAt ix iy ∧ ∀ side, Pipe.Steps (e₀.inbound side) (e.inbound side))
    bounded_before ?_ ⟨hl, fun _ => .refl⟩ hb
  intro e move hp hb'
  have hbe := bounded_before e move hb'
  exact ⟨step_linked e move hp.1 hbe, fun side => (hp.2 side).trans (step_refines e move hp.1 hbe side)⟩

theorem LinkedAt.safe {ix iy : UInt32} {e : TcpEndpoints} (hl : e.LinkedAt ix iy) (side : Side) :
    Pipe.Safe (e.inbound side) := by
  cases side with
  | active => exact hl.reading'.safe
  | passive => exact hl.reading.safe

/-- **End-to-end stream safety**: each side hands out a prefix of what the other accepted, and consumes its FIN only
after all of it. -/
theorem stream_safety {ops : List StreamOp} {e₀ : TcpEndpoints} (h₀ : Started ops e₀)
    (moves : List TcpMove) {e : TcpEndpoints} (hrun : run step e₀ moves = e)
    (hb : ∀ side, (e.host side).accepted.length < 2 ^ 31 - 2) (side : Side) :
    (e.host side).delivered <+: (e.peer side).accepted ∧
      ((e.host side).finConsumed = true → (e.host side).appended = (e.peer side).accepted) := by
  obtain ⟨ix, iy, ho⟩ := h₀.opening
  subst hrun
  have hsafe := ((run_refines ho.linked moves hb).2 side).safe (ho.linked.safe side)
  exact ⟨hsafe.read.trans hsafe.arrived, fun hf => (hsafe.eof hf).2⟩

theorem stream_safety_fixture : let moves := TcpFixture.handshake ++
      [.act .active (.queueSend [104, 101, 108, 108, 111, 32, 119, 111]), .act .active (.pollTransmit 4),
        .act .active (.queueSend [114, 108, 100]), .deliver .passive 2 5, .act .passive .acknowledgment,
        .deliver .active 1 6, .act .active (.pollTransmit 7), .deliver .passive 2 8, .deliver .passive 3 9,
        .act .passive (.receive 64)]
    let e := run step TcpFixture.endpoints moves
    (e.host .passive).delivered = [104, 101, 108, 108, 111, 32, 119, 111, 114, 108, 100] ∧
      (e.host .passive).delivered <+: (e.peer .passive).accepted := by
  intro moves e
  refine ⟨by decide, (stream_safety TcpFixture.endpoints_started moves (e := e) rfl ?_ .passive).1⟩
  intro side
  cases side <;> decide

end TcpEndpoints

end MochiSyscalls.NetworkStack
