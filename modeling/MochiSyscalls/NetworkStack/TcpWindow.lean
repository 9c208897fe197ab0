import MochiSyscalls.NetworkStack.TcpReceiveSide

/-! # The receive window

The right edge that a connection advertises, over whole runs. Every operation either leaves `receive_next` and takes
bytes out of the buffer, or puts as many bytes into the buffer as it adds to `receive_next`; a FIN adds one. Only the
SYN/ACK of an active open sets `receive_next`. -/

namespace MochiSyscalls.NetworkStack
open Foundations Words Serial Runs
set_option autoImplicit false

namespace TcpConnection

def rightEdge (c : TcpConnection) : UInt32 := c.receiveNext + UInt32.ofNat c.localWindow.toNat

structure Bounded (c : TcpConnection) : Prop where
  buffer : c.receiveBuffer.length ≤ c.receiveCapacity
  capacity : c.receiveCapacity ≤ isizeMax

variable {c c' : TcpConnection} {segment : TcpSegment} {now : UInt64}

theorem localWindow_toNat (c : TcpConnection) :
    c.localWindow.toNat = min (c.receiveCapacity - c.receiveBuffer.length) 65535 := by
  rw [localWindow, UInt16.toNat_ofNat']
  omega

theorem rightEdge_adv {n : ℕ} (hnext : c'.receiveNext = adv c.receiveNext n)
    (hwindow : c.localWindow.toNat ≤ n + c'.localWindow.toNat) :
    c'.rightEdge = adv c.rightEdge (n + c'.localWindow.toNat - c.localWindow.toNat) := by
  rw [rightEdge, rightEdge, add_ofNat, add_ofNat, hnext, adv_adv, adv_adv]
  congr 1
  omega

structure Frees (c c' : TcpConnection) : Prop where
  next : c'.receiveNext = c.receiveNext
  buffer : c'.receiveBuffer.length ≤ c.receiveBuffer.length
  capacity : c'.receiveCapacity = c.receiveCapacity

theorem Frees.refl (c : TcpConnection) : Frees c c := ⟨rfl, le_rfl, rfl⟩

theorem Frees.bounded (h : Frees c c') (hb : c.Bounded) : c'.Bounded :=
  ⟨(h.buffer.trans hb.buffer).trans h.capacity.ge, h.capacity ▸ hb.capacity⟩

theorem Frees.edge (h : Frees c c') : ∃ d ≤ 65535, c'.rightEdge = adv c.rightEdge d := by
  have hbuffer := h.buffer
  have hbefore := localWindow_toNat c
  have hafter := localWindow_toNat c'
  rw [h.capacity] at hafter
  refine ⟨_, ?_, rightEdge_adv (h.next.trans (adv_zero _).symm) ?_⟩ <;> omega

theorem Bounded.room (hb : c.Bounded) (h : c.TakesText segment) :
    c.receiveBuffer.length + segment.payload.length ≤ c.receiveCapacity := by
  have hsum := h.2.2
  have hcapacity := hb.capacity
  rw [usizeSaturatingAdd] at hsum
  have hmax : usizeMax = 2 ^ 64 - 1 := rfl
  have hlimit : isizeMax = 2 ^ 63 - 1 := rfl
  omega

section Takes

variable {text : List UInt8} {fin : Bool}

section

variable (h : Takes c segment text fin c')
include h

theorem Takes.room (hb : c.Bounded) : c.receiveBuffer.length + text.length ≤ c.receiveCapacity := by
  rcases h.text_from with rfl | ⟨rfl, htext⟩
  · exact hb.buffer
  · exact hb.room htext

theorem Takes.bounded (hb : c.Bounded) : c'.Bounded := by
  refine ⟨?_, h.capacity ▸ hb.capacity⟩
  rw [h.buffer, h.capacity, List.length_append]
  exact h.room hb

theorem Takes.text_length : text.length ≤ segment.payload.length := by
  rcases h.text_from with rfl | ⟨rfl, _⟩
  · exact Nat.zero_le _
  · exact le_rfl

theorem Takes.edge (hb : c.Bounded) : ∃ d ≤ segment.payload.length + 1, c'.rightEdge = adv c.rightEdge d := by
  have hroom := h.room hb
  have htext := h.text_length
  have hfin := fin.toNat_le
  have hbefore := localWindow_toNat c
  have hafter := localWindow_toNat c'
  rw [h.capacity, h.buffer, List.length_append] at hafter
  refine ⟨_, ?_, rightEdge_adv h.next ?_⟩ <;> omega

end

end Takes

theorem seenSegment_length (c : TcpConnection) (segment : TcpSegment) :
    (c.seenSegment segment).payload.length ≤ segment.payload.length := by
  unfold seenSegment trimOverlap
  split
  · split
    · exact (List.length_drop ..).trans_le (Nat.sub_le ..)
    · exact le_rfl
  · exact le_rfl

theorem abort_frees (c : TcpConnection) : Frees c c.abort := ⟨rfl, Nat.zero_le _, rfl⟩

theorem onSegment_edge (hb : c.Bounded) (segment : TcpSegment) (now : UInt64) : (c.onSegment segment now).1.Bounded ∧
      (c.state = .synSent ∧ (c.onSegment segment now).1.state = .established ∨
        ∃ d ≤ max 65535 (segment.payload.length + 1), (c.onSegment segment now).1.rightEdge = adv c.rightEdge d) := by
  have hr := (onSegment_received c segment now).takes
  generalize (c.onSegment segment now).1 = c' at hr ⊢
  have hfrees : Frees c c' → c'.Bounded ∧ (c.state = .synSent ∧ c'.state = .established ∨
      ∃ d ≤ max 65535 (segment.payload.length + 1), c'.rightEdge = adv c.rightEdge d) := by
    intro h
    obtain ⟨d, hd, hedge⟩ := h.edge
    exact ⟨h.bounded hb, .inr ⟨d, hd.trans (le_max_left ..), hedge⟩⟩
  rcases hr with ⟨_, rfl⟩ | ⟨hstate, _, rfl⟩ | rfl | ⟨_, _, text, fin, h⟩
  · exact hfrees (abort_frees c)
  · exact ⟨⟨hb.buffer, hb.capacity⟩, .inl ⟨hstate, rfl⟩⟩
  · exact hfrees (.refl c')
  · obtain ⟨d, hd, hedge⟩ := h.edge hb
    have hlength := seenSegment_length c segment
    exact ⟨h.bounded hb, .inr ⟨d, by omega, hedge⟩⟩

/-! ## Segments inside the window -/

theorem onFin_ne_full (c : TcpConnection) (segment : TcpSegment) (now : UInt64) (result : TcpReceiveResult) :
    (c.onFin segment now result).2 ≠ .error .receiveBufferFull := by
  unfold onFin
  split_ifs <;> exact nofun

theorem onStream_full (hack : hasFlag segment.flags tcpFlagAck = true)
    (h : (c.onStream segment now).2 = .error .receiveBufferFull) : c.Overflows segment := by
  unfold onStream at h
  rcases onAcknowledgment_cases c segment hack with ⟨_, he⟩ | ⟨_, _, _, he⟩ | ⟨_, _, r, he⟩
  · rw [he] at h
    cases h
  · rw [he] at h
    cases h
  · rw [he] at h
    dsimp only at h
    rcases onPayload_cases (c.afterAck segment) segment r with ⟨ho, _⟩ | ⟨_, he⟩ | ⟨_, _, _, he⟩
    · exact (afterAck_overflows c segment).1 ho
    · rw [he] at h
      exact (onFin_ne_full _ segment now _ h).elim
    · rw [he] at h
      exact (onFin_ne_full _ segment now _ h).elim

theorem onSegment_full (hstate : c.state = .established)
    (h : (c.onSegment segment now).2 = .error .receiveBufferFull) : c.Overflows segment := by
  rw [onSegment_of_ne (by rw [hstate]; decide)] at h
  unfold onSegmentActive at h
  split at h
  · unfold onReset at h
    split at h <;> cases h
  split at h
  · rw [hstate] at *
    contradiction
  split at h
  · cases h
  split at h
  · dsimp only at h
    split at h <;> cases h
  split at h
  · cases h
  next hack =>
    split at h
    · cases h
    · exact onStream_full (not_not.1 hack) h

theorem within_window (hb : c.Bounded) (hstate : c.state = .established)
    (hfits : segment.payload.length ≤ c.localWindow.toNat) :
    (c.onSegment segment now).2 ≠ .error .receiveBufferFull := by
  intro h
  have hover := (onSegment_full hstate h).2.2
  have hbuffer := hb.buffer
  have hcapacity := hb.capacity
  rw [localWindow_toNat] at hfits
  rw [usizeSaturatingAdd] at hover
  omega

end TcpConnection

namespace TcpHistory
open TcpConnection

theorem step_local_frees (h : TcpHistory) {op : TcpOp} (hop : Local op) :
    Frees h.connection (h.step op).connection := by
  cases op with
  | queueSend bytes =>
    rcases queueSend_cases h.connection bytes with ⟨_, _, he⟩ | ⟨_, he⟩ <;> simp only [step, he]
    · exact ⟨rfl, le_rfl, rfl⟩
    · exact .refl _
  | requestClose =>
    simp only [step, requestClose]
    split
    · exact .refl _
    · exact ⟨rfl, le_rfl, rfl⟩
  | pollTransmit now =>
    have hp := pollTransmit_polled h.connection now
    change Frees h.connection (h.connection.pollTransmit now).1
    generalize h.connection.pollTransmit now = p at hp
    cases hp with
    | exhausted =>
      refine ⟨rfl, ?_, rfl⟩
      dsimp only [exhausted]
      split
      · exact Nat.zero_le _
      · exact le_rfl
    | _ => exact ⟨rfl, le_rfl, rfl⟩
  | acknowledgment => exact .refl _
  | onSegment segment now => exact absurd rfl (hop segment now)
  | receive size =>
    simp only [step, receive]
    split
    · exact .refl _
    · exact ⟨rfl, (List.length_drop ..).trans_le (Nat.sub_le ..), rfl⟩
  | discardReceived => exact ⟨rfl, Nat.zero_le _, rfl⟩
  | tick now =>
    rcases tick_cases h.connection now with he | ⟨_, _, _, _, he⟩ <;> simp only [step, he]
    · exact .refl _
    · exact ⟨rfl, le_rfl, rfl⟩
  | abort => exact abort_frees h.connection

def incoming : TcpOp → List UInt8
  | .onSegment segment _ => segment.payload
  | _ => []

theorem step_edge {h : TcpHistory} (hb : h.connection.Bounded) (op : TcpOp) : (h.step op).connection.Bounded ∧
      (h.connection.state = .synSent ∧ (h.step op).connection.state = .established ∨
        ∃ d ≤ max 65535 ((incoming op).length + 1),
          (h.step op).connection.rightEdge = adv h.connection.rightEdge d) := by
  rcases local_or_onSegment op with hop | ⟨segment, now, rfl⟩
  · have hfrees := h.step_local_frees hop
    obtain ⟨d, hd, hedge⟩ := hfrees.edge
    exact ⟨hfrees.bounded hb, .inr ⟨d, hd.trans (le_max_left ..), hedge⟩⟩
  · exact onSegment_edge hb segment now

theorem Built.bounded {h : TcpHistory} (hb : Built h) : h.connection.Bounded := by
  cases hb with
  | connect hc =>
    obtain ⟨hfresh, _, _, hbuffer⟩ := tryConnect_ok hc
    exact ⟨hbuffer ▸ Nat.zero_le _, hfresh.receiveCapacity⟩
  | accept hc =>
    obtain ⟨hfresh, _, _, _, _, hbuffer, _, hroom, _⟩ := acceptSyn_ok hc
    exact ⟨hbuffer ▸ hroom, hfresh.receiveCapacity⟩

/-- **The window never shrinks.** The right edge moves forward by at most a full window, or by text and FIN; and text at
the left edge that fits the window is not refused. -/
theorem receive_window_discipline {h₀ : TcpHistory} (hb : Built h₀) (ops : List TcpOp) : let h := run step h₀ ops
    h.connection.receiveBuffer.length ≤ h.connection.receiveCapacity ∧
    (∀ op, ¬ (h.connection.state = .synSent ∧ (h.step op).connection.state = .established) →
      (∃ d ≤ max 65535 ((incoming op).length + 1), (h.step op).connection.rightEdge = adv h.connection.rightEdge d) ∧
      ((incoming op).length + 1 < 2 ^ 31 → ¬ Before (h.step op).connection.rightEdge h.connection.rightEdge)) ∧
    ∀ segment now, h.connection.state = .established → segment.sequence = h.connection.receiveNext →
      segment.payload.length ≤ h.connection.localWindow.toNat →
      (h.connection.onSegment segment now).2 ≠ .error .receiveBufferFull := by
  have hbounded : (run step h₀ ops).connection.Bounded :=
    run_invariant step (P := fun h => h.connection.Bounded) (fun _ op h => (step_edge h op).1) hb.bounded ops
  refine ⟨hbounded.buffer, fun op hopen => ?_, fun segment now hstate _ => within_window hbounded hstate⟩
  obtain ⟨d, hd, hedge⟩ := (step_edge hbounded op).2.resolve_left hopen
  refine ⟨⟨d, hd, hedge⟩, fun hshort => ?_⟩
  rw [hedge]
  have hforward := (before_adv (run step h₀ ops).connection.rightEdge (show d < 2 ^ 31 by omega) (by omega)).not.2
    (Nat.not_lt_zero d)
  rwa [adv_zero] at hforward

end TcpHistory

namespace TcpFixture

def farSynAck : TcpSegment := segment (tcpFlagSyn ||| tcpFlagAck) 0x80000000 101 []

theorem rightEdge_moves_left :
    TcpHistory.Built (history 32 32) ∧ ((history 32 32).step (.onSegment farSynAck 0)).connection.state ≠ .reset ∧
      Before ((history 32 32).step (.onSegment farSynAck 0)).connection.rightEdge
        (history 32 32).connection.rightEdge := ⟨history_built, by decide, by decide⟩

def text : TcpOp := .onSegment (segment tcpFlagAck 501 101 [7, 8, 9]) 0

theorem receive_window_discipline_established :
    (run TcpHistory.step (history 32 32) [.onSegment synAck 0, text]).connection.receiveBuffer = [7, 8, 9] ∧
      ¬ Before (run TcpHistory.step (history 32 32) [.onSegment synAck 0, text]).connection.rightEdge
        (run TcpHistory.step (history 32 32) [.onSegment synAck 0]).connection.rightEdge :=
  ⟨by decide, ((TcpHistory.receive_window_discipline history_built [.onSegment synAck 0]).2.1 text (by decide)).2
    (by decide)⟩

end TcpFixture

end MochiSyscalls.NetworkStack
