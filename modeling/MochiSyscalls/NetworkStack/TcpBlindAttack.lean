import MochiSyscalls.NetworkStack.TcpTableRuns

/-! # What a forged segment can do

`receive_packet` screens a segment by state and flags before `on_segment` screens it again. Over
both layers: what a reset is answered with, which segments reset a connection, when entropy is
drawn, and that connections of other tuples are left alone. -/

namespace MochiSyscalls.NetworkStack
open Foundations Words Rows Runs List TcpConnection
set_option autoImplicit false

namespace TcpConnection

/-! ## Resets -/

variable {segment : TcpSegment}

theorem onSegment_of_rst (hrst : hasFlag segment.flags tcpFlagRst = true) (c : TcpConnection) (now : UInt64) :
    (c.onSegment segment now).2 = .ok .reset ∨ ∃ e, (c.onSegment segment now).2 = .error e := by
  unfold onSegment
  split
  · unfold receivePassive
    split
    · exact .inr ⟨_, rfl⟩
    · rw [if_pos hrst]
      split
      · exact .inr ⟨_, rfl⟩
      · exact .inl rfl
  · unfold onSegmentActive
    rw [if_pos hrst]
    unfold onReset
    split
    · exact .inr ⟨_, rfl⟩
    · exact .inl rfl

/-- The sequence number lies in the receive window, but not at its start. -/
def InsideWindow (c : TcpConnection) (sequence : UInt32) : Prop :=
  sequence ≠ c.receiveNext ∧ (sequence - c.receiveNext).toNat < c.localWindow.toNat
  deriving Decidable

variable {c : TcpConnection} {dispatch : TcpDispatch}

theorem screen_of_rst {reply : TcpTransmit} (hrst : hasFlag segment.flags tcpFlagRst = true)
    (hs : c.screen segment = some dispatch) (hreply : dispatch.reply = some reply) :
    c.state ≠ .synSent ∧ c.InsideWindow segment.sequence ∧ reply = plainAck c := by
  unfold screen at hs
  simp only [hrst, if_true, not_true_eq_false, false_and, if_false] at hs
  split at hs
  · split at hs
    · cases hs
      cases hreply
    · cases hs
  next hstate =>
    split at hs
    next hne =>
      split at hs
      next hin =>
        cases hs
        cases hreply
        exact ⟨hstate, ⟨hne, hin⟩, rfl⟩
      · cases hs
        cases hreply
    · cases hs

theorem answer_of_rst {after : TcpConnection} {received : Except TcpConnectionError TcpReceiveResult}
    (hrst : hasFlag segment.flags tcpFlagRst = true) (hr : received = .ok .reset ∨ ∃ e, received = .error e)
    (ha : c.answer after segment received = .ok dispatch) : dispatch.reply = none := by
  obtain rfl | ⟨e, rfl⟩ := hr
  · cases ha
    rfl
  · unfold answer at ha
    split at ha
    next he => cases he
    · cases ha
      exact if_pos hrst
    · cases ha

variable {c' : TcpConnection}

theorem Streamed.not_reset {now : UInt64}
    (h : Streamed c segment now c') (hc : c.state ≠ .reset) : c'.state ≠ .reset := by
  obtain he | he := h.state
  · rwa [he]
  · exact (segmentSuccessors_target he).2

theorem Received.obeys_of_reset {now : UInt64}
    (h : Received c segment now c') (hlive : ¬ c.Terminal) (hr : c'.state = .reset) : c.ObeysReset segment := by
  have hc : c.state ≠ .reset := fun he => hlive (.inr he)
  cases h with
  | ignored => exact absurd hr hc
  | aborted h => exact h
  | connected | opened => cases hr
  | streamed _ hs => exact absurd hr (hs.not_reset hc)
  | openedStream _ _ hs => exact absurd hr (hs.not_reset (show TcpState.established ≠ .reset by decide))

theorem live_cases (h : ¬ c.Terminal) : c.state = .synSent ∨ c.state = .synReceived ∨ c.Synchronized := by
  unfold Terminal at h
  unfold Synchronized
  cases hs : c.state <;> simp_all

end TcpConnection

namespace TcpConnectionTable

variable {alloc : Allocator} {c : TcpConnection} {d : TcpDispatch} {t : TcpConnectionTable} {tuple : TcpTuple}

theorem routeConnection_reply_of_rst {segment : TcpSegment} {now : UInt64} {reply : TcpTransmit}
    (hrst : hasFlag segment.flags tcpFlagRst = true)
    (hd : (t.routeConnection alloc c tuple segment now).result = .ok d) (hreply : d.reply = some reply) :
    c.state ≠ .synSent ∧ c.InsideWindow segment.sequence ∧ reply = plainAck c := by
  unfold routeConnection at hd
  split at hd
  next dispatch hs =>
    cases hd
    exact screen_of_rst hrst hs hreply
  · have hr : (t.receiveSegment alloc tuple segment now).2 = .ok .reset ∨
        ∃ e, (t.receiveSegment alloc tuple segment now).2 = .error e := by
      obtain ⟨e, he⟩ | ⟨i, c', _, he⟩ := receiveSegment_cases alloc t tuple segment now
      · rw [he]
        exact .inr ⟨e, rfl⟩
      · rw [he]
        exact onSegment_of_rst hrst c' now
    dsimp only at hd
    split at hd
    · cases hd
    · rw [answer_of_rst hrst hr hd] at hreply
      cases hreply

variable {entropy : Option UInt64} {o : PacketOutcome}

theorem receivePacket_reply_of_rst {segment : TcpSegment} {now : UInt64}
    {reply : TcpTransmit} (hrst : hasFlag segment.flags tcpFlagRst = true)
    (ho : t.receivePacket alloc tuple segment now entropy = some o) (hd : o.result = .ok d)
    (hreply : d.reply = some reply) :
    ∃ i c, t.findTupleMut tuple = some (i, c) ∧ c.state ≠ .synSent ∧ c.InsideWindow segment.sequence ∧
      reply = plainAck c := by
  unfold receivePacket at ho
  split at ho
  · cases ho
    cases hd
  split at ho
  · cases ho
    cases hd
  split at ho
  next i c hfind =>
    cases ho
    exact ⟨i, c, hfind, routeConnection_reply_of_rst hrst hd hreply⟩
  · unfold routeListener at ho
    rw [if_pos hrst] at ho
    cases ho
    cases hd
    cases hreply

/-! ## Entropy -/

variable {t' : TcpConnectionTable}

theorem admitSyn_ok {payloadLength : ℕ} (h : t.admitSyn tuple payloadLength = (t', .ok ())) :
    ∃ l ∈ t.prunePending.listeners, l.Matches tuple ∧ l.pending.length < l.config.backlog ∧ ¬ t.prunePending.Full := by
  unfold admitSyn at h
  dsimp only at h
  split at h
  · cases h
  rename_i i l hfind
  obtain ⟨hi, hm⟩ := findRow_some hfind
  split at h
  · cases h
  rename_i hroom
  obtain ⟨hb, hf⟩ := not_or.mp hroom
  exact ⟨l, mem_of_getElem? hi, hm, not_le.mp hb, hf⟩

theorem receivePacket_drew {segment : TcpSegment} {now : UInt64}
    (ho : t.receivePacket alloc tuple segment now entropy = some o) (hd : o.drew = true) :
    segment.flags &&& ~~~tcpFlagPsh = tcpFlagSyn ∧ t.findTupleMut tuple = none ∧
      ∃ l ∈ t.prunePending.listeners, l.Matches tuple ∧ l.pending.length < l.config.backlog ∧
        ¬ t.prunePending.Full := by
  unfold receivePacket at ho
  split at ho
  · cases ho
    cases hd
  split at ho
  · cases ho
    cases hd
  split at ho
  · cases ho
    unfold routeConnection at hd
    dsimp only at hd
    split at hd
    · cases hd
    · split at hd <;> cases hd
  rename_i hnone
  unfold routeListener at ho
  dsimp only at ho
  split at ho
  · cases ho
    cases hd
  split at ho
  · cases ho
    cases hd
  split at ho
  · cases ho
    cases hd
  rename_i hsyn
  split at ho
  · cases ho
    cases hd
  next hadmit => exact ⟨not_not.mp hsyn, hnone, admitSyn_ok hadmit⟩

/-! ## Other connections -/

theorem Wellformed.routed_reset (h : t.Wellformed)
    {segment : TcpSegment} {now : UInt64} (hr : Routed t tuple segment now t') {c' : TcpConnection}
    (hc : c ∈ t.connections) (hlive : ¬ c.Terminal) (hc' : c' ∈ t'.connections)
    (hh : c'.handle = c.handle) (hreset : c'.state = .reset) : c.ObeysReset segment := by
  -- a connection that did not change is not reset
  have hold : c' ∉ t.connections := by
    intro hm
    rw [h.connection_eq hm hc hh] at hreset
    exact hlive (.inr hreset)
  cases hr with
  | kept => exact absurd hc' hold
  | @segment i d hfind _ =>
    obtain ⟨hi, _, hlived⟩ := findRow_some hfind
    rw [(noteCompletion_connections _ _ _ _).1] at hc'
    have hrec := onSegment_received d segment now
    obtain hc' | rfl := mem_or_eq_of_mem_set hc'
    · exact absurd hc' hold
    · have hdc : d = c :=
        h.connection_eq (mem_of_getElem? hi) hc (hrec.same.handle.symm.trans hh)
      subst hdc
      exact hrec.obeys_of_reset hlive hreset
  | pruned => exact absurd (mem_of_mem_filter hc') hold
  | @admitted i k l n hnone hadm hk =>
    have hcp : c ∈ t.prunePending.connections := mem_filter.mpr ⟨hc, decide_eq_true (.inl hlive)⟩
    have hne : c.handle ≠ n.handle := fun he => hadm.fresh (.inr ⟨c, hcp, he⟩)
    have hsame := perform_same n (.pollTransmit now)
    obtain hm | rfl := mem_or_eq_of_mem_set hc'
    · obtain hm | rfl := mem_snoc.mp hm
      · exact absurd (mem_of_mem_filter hm) hold
      · exact absurd hh.symm hne
    · exact absurd (hh.symm.trans hsame.handle) hne

theorem Routed.others {segment : TcpSegment} {now : UInt64}
    (hr : Routed t tuple segment now t') (ht : c.tuple ≠ tuple) :
    (c ∈ t.connections → c ∈ t'.connections ∨ (c.Terminal ∧ ∃ l ∈ t.listeners, c.handle ∈ l.pending)) ∧
      (c ∈ t'.connections → c ∈ t.connections) := by
  have hpruned : c ∈ t.connections →
      c ∈ t.prunePending.connections ∨ (c.Terminal ∧ ∃ l ∈ t.listeners, c.handle ∈ l.pending) := by
    intro hc
    by_cases hp : c.Terminal ∧ ∃ l ∈ t.listeners, c.handle ∈ l.pending
    · exact .inr hp
    · refine .inl (mem_filter.mpr ⟨hc, decide_eq_true ?_⟩)
      exact not_and_or.mp hp
  cases hr with
  | kept => exact ⟨.inl, id⟩
  | @segment i d hfind _ =>
    obtain ⟨hi, hdt, _⟩ := findRow_some hfind
    have hrec := onSegment_received d segment now
    rw [(noteCompletion_connections _ _ _ _).1]
    refine ⟨fun hc => .inl (mem_set_of_ne hi hc (fun he => ht (he ▸ hdt))), fun hc => ?_⟩
    obtain hc | rfl := mem_or_eq_of_mem_set hc
    · exact hc
    · exact absurd (hrec.same.tuple.trans hdt) ht
  | pruned => exact ⟨hpruned, mem_of_mem_filter⟩
  | @admitted i k l n hnone hadm hk =>
    have hsame := perform_same n (.pollTransmit now)
    have hne : c ≠ n := fun he => ht (he ▸ hadm.addressed)
    refine ⟨fun hc => (hpruned hc).imp_left fun hp => mem_set_of_ne hk (mem_append_left _ hp) hne, ?_⟩
    intro hc
    obtain hm | rfl := mem_or_eq_of_mem_set hc
    · obtain hm | hm := mem_append.mp hm
      · exact mem_of_mem_filter hm
      · exact absurd (mem_singleton.mp hm) hne
    · exact absurd (hsame.tuple.trans hadm.addressed) ht

/-- **What a forged segment can do.** A reset is never answered with a reset and takes effect only at exactly
`receive_next`, or in SynSent with an acknowledgment of the SYN; entropy is drawn only for a SYN that a listener has
room for; other connections stay, save closed pending ones. -/
theorem forged_segments {capacity : ℕ} {ops : List TableOp} {t : TcpConnectionTable}
    (hreach : runPartial step (new capacity) ops = some t) (alloc : Allocator) (tuple : TcpTuple)
    (segment : TcpSegment) (now : UInt64) (entropy : Option UInt64) :
    ∃ o, t.receivePacket alloc tuple segment now entropy = some o ∧
      (hasFlag segment.flags tcpFlagRst = true → ∀ d reply, o.result = .ok d → d.reply = some reply →
        hasFlag reply.flags tcpFlagRst = false ∧
          ∃ c ∈ t.connections, c.tuple = tuple ∧ (c.state = .synReceived ∨ c.Synchronized) ∧
            segment.sequence ≠ c.receiveNext ∧
            (segment.sequence - c.receiveNext).toNat < c.localWindow.toNat) ∧
      (∀ c ∈ t.connections, ¬ c.Terminal → ∀ c' ∈ o.table.connections, c'.handle = c.handle →
        c'.state = .reset → hasFlag segment.flags tcpFlagRst = true ∧
          ((c.state ≠ .synSent ∧ segment.sequence = c.receiveNext) ∨
            (c.state = .synSent ∧ hasFlag segment.flags tcpFlagAck = true ∧ segment.acknowledgment = c.sendNext))) ∧
      (o.drew = true → segment.flags &&& ~~~tcpFlagPsh = tcpFlagSyn ∧
        hasFlag segment.flags tcpFlagAck = false ∧ hasFlag segment.flags tcpFlagRst = false ∧
        (∀ c ∈ t.connections, c.tuple = tuple → c.Terminal) ∧
        ∃ l ∈ t.prunePending.listeners, l.Matches tuple ∧ l.pending.length < l.config.backlog ∧
          t.prunePending.connections.length + t.prunePending.listeners.length < t.capacity) ∧
      (∀ c, c.tuple ≠ tuple → (c ∈ t.connections → c ∈ o.table.connections ∨
          (c.Terminal ∧ ∃ l ∈ t.listeners, c.handle ∈ l.pending)) ∧
        (c ∈ o.table.connections → c ∈ t.connections)) := by
  obtain ⟨t', hreach', hw, _⟩ := runPartial_wellformed capacity ops
  cases hreach.symm.trans hreach'
  obtain ⟨o, ho, hr⟩ := receivePacket_routed hw alloc tuple segment now entropy
  refine ⟨o, ho, ?_, ?_, ?_, fun c ht => hr.others ht⟩
  · intro hrst d reply hd hreply
    obtain ⟨i, c, hfind, hss, hin, rfl⟩ := receivePacket_reply_of_rst hrst ho hd hreply
    obtain ⟨hi, hct, hlive⟩ := findRow_some hfind
    refine ⟨?_, c, mem_of_getElem? hi, hct, (live_cases hlive).resolve_left hss, hin⟩
    change hasFlag tcpFlagAck tcpFlagRst = false
    decide
  · intro c hc hlive c' hc' hh hreset
    obtain ⟨hrst, hsent, hother⟩ := hw.routed_reset hr hc hlive hc' hh hreset
    refine ⟨hrst, ?_⟩
    by_cases hs : c.state = .synSent
    · exact .inr ⟨hs, hsent hs⟩
    · exact .inl ⟨hs, hother hs⟩
  · intro hd
    obtain ⟨hsyn, hnone, l, hl, hm, hb, hf⟩ := receivePacket_drew ho hd
    obtain ⟨_, hrst, hack, _⟩ := syn_flags hsyn
    refine ⟨hsyn, hack, hrst, ?_, l, hl, hm, hb, not_le.mp hf⟩
    intro c hc hct
    by_contra hlive
    exact findRow_none.mp hnone c hc ⟨hct, hlive⟩

/-! ## A challenge ACK before the handshake is over -/

def synOp : TableOp :=
  .receivePacket (fun _ => true) TcpFixture.tuple (TcpFixture.segment tcpFlagSyn 500 0 []) 0
    (some 0x6400000001)

/-- A reset one past `receive_next` is answered although the only connection is in SynReceived. -/
theorem challenge_in_synReceived : ∃ t o d reply, runPartial step (new 4) [ServerFixture.listenOp, synOp] = some t ∧
      (∀ c ∈ t.connections, c.state = .synReceived ∧ ¬ c.Synchronized) ∧
      t.receivePacket (fun _ => true) TcpFixture.tuple (TcpFixture.segment tcpFlagRst 502 0 []) 1 none = some o ∧
      o.result = .ok d ∧ d.reply = some reply := by
  refine ⟨_, _, _, _, rfl, ?_, rfl, rfl, rfl⟩
  decide

theorem forged_segments_fixture : ∃ t o, runPartial step (new 4) [ServerFixture.listenOp, synOp] = some t ∧
      t.receivePacket (fun _ => true) TcpFixture.tuple (TcpFixture.segment tcpFlagRst 502 0 []) 1 none = some o ∧
      ∀ d reply, o.result = .ok d → d.reply = some reply → hasFlag reply.flags tcpFlagRst = false := by
  obtain ⟨t, ht⟩ : ∃ t, runPartial step (new 4) [ServerFixture.listenOp, synOp] = some t := ⟨_, rfl⟩
  obtain ⟨o, ho, hrst, _⟩ := forged_segments ht (fun _ => true) TcpFixture.tuple
    (TcpFixture.segment tcpFlagRst 502 0 []) 1 none
  exact ⟨t, o, ht, ho, fun d reply hd hr => (hrst (by decide) d reply hd hr).1⟩

end TcpConnectionTable

end MochiSyscalls.NetworkStack
