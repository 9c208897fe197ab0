import MochiSyscalls.NetworkStack.TcpReceiveSide

/-! # After the peer's FIN

The payload and FIN stages of `on_segment` do not look at the state, so CloseWait, LastAck and
TimeWait still take text and a further FIN that arrive exactly at `receive_next`. This module says
when nothing follows a FIN: exactly in the runs in which no such segment arrives. -/

namespace MochiSyscalls.NetworkStack
open Foundations Words Serial Runs TcpConnection
set_option autoImplicit false

namespace TcpHistory

/-! ## The property and its condition -/

variable (h : TcpHistory) (op : TcpOp)

/-- A segment that arrives after a FIN was consumed moves neither `receive_next` nor the buffer. -/
def Unmoved : Prop :=
  ∀ segment now, op = .onSegment segment now → h.finConsumed = true →
    (h.step op).connection.receiveNext = h.connection.receiveNext ∧ (h.step op).appended = h.appended

/-- `receive_next` counts the SYN, the bytes ever appended and the FIN. -/
def Counted : Prop :=
  ∀ initial, h.peerInitial = some initial →
    h.connection.receiveNext = adv initial (1 + h.appended.length + h.finConsumed.toNat)

/-- The segment brings text or a FIN in order, past all checks on its flags and acknowledgment. -/
def BringsMore (c : TcpConnection) (segment : TcpSegment) : Prop :=
  c.ReachesStream segment ∧ c.AckPasses segment ∧ ¬ (c.state = .lastAck ∧ c.AcksAll segment) ∧
    (c.TakesText segment ∨ (¬ c.Overflows segment ∧ c.TakesFin segment))
  deriving Decidable

/-- No segment brings more in CloseWait, LastAck or TimeWait. -/
def NothingAfterFin : Prop :=
  ∀ segment now, op = .onSegment segment now → FinSeen h.connection.state → ¬ BringsMore h.connection segment

/-! ## When a segment brings more -/

section

variable {c c' : TcpConnection} {segment : TcpSegment} {now : UInt64}
  (hr : TcpConnection.Received c segment now c')
include hr

theorem takes_more (hb : BringsMore c segment) :
    c'.receiveBuffer.drop c.receiveBuffer.length ≠ [] ∨ c'.receiveNext ≠ c.receiveNext := by
  obtain ⟨hreach, hpass, hla, hmore⟩ := hb
  have hsync := hreach.1
  have hone : adv c.receiveNext 1 ≠ c.receiveNext := by
    intro he
    have := (adv_inj c.receiveNext (m := 1) (n := 0) (by omega) (by omega)).mp (by rw [he, adv_zero])
    omega
  cases hr with
  | ignored hno => exact absurd hreach hno
  | aborted ho =>
    have := ho.1
    rw [hreach.2.1] at this
    cases this
  | connected hs | opened hs | openedStream hs => simp [TcpConnection.Synchronized, hs] at hsync
  | streamed _ hst =>
    cases hst with
    | rejected hno => exact absurd hpass hno
    | closing _ hl hall => exact absurd ⟨hl, hall⟩ hla
    | overflow _ _ ho =>
      rw [afterAck_overflows] at ho
      rcases hmore with ht | ⟨hno, _⟩
      · exact absurd ho ht.not_overflows
      · exact absurd ho hno
    | quiet _ _ ht hf =>
      rw [afterAck_takesText] at ht
      rw [afterAck_takesFin] at hf
      rcases hmore with hx | ⟨_, hx⟩
      · exact absurd hx ht
      · exact absurd hx hf
    | text _ _ ht =>
      left
      simpa [withText] using ht.1
    | fin =>
      right
      simpa [withFin, add_one] using hone
    | textFin _ _ ht =>
      left
      simpa [withFin, withText] using ht.1

theorem unmoved_of_not_more (hseen : FinSeen c.state) (hb : ¬ BringsMore c segment) :
    c'.receiveNext = c.receiveNext ∧ c'.receiveBuffer.drop c.receiveBuffer.length = [] := by
  cases hr with
  | ignored => exact ⟨rfl, by simp⟩
  | aborted => exact ⟨rfl, by simp [abort]⟩
  | connected hs | opened hs | openedStream hs => simp [FinSeen, hs] at hseen
  | streamed hreach hst =>
    cases hst with
    | rejected | closing => exact ⟨rfl, by simp⟩
    | overflow | quiet => exact ⟨by simp, by simp⟩
    | text hp hl ht | textFin hp hl ht =>
      rw [afterAck_takesText] at ht
      exact absurd ⟨hreach, hp, hl, .inl ht⟩ hb
    | fin hp hl ho _ hf =>
      rw [afterAck_overflows] at ho
      rw [afterAck_takesFin] at hf
      exact absurd ⟨hreach, hp, hl, .inr ⟨ho, hf⟩⟩ hb

end

/-! ## The FIN flag and the state -/

/-- The flag agrees with the state as far as the state still shows it. -/
structure FinBook (h : TcpHistory) : Prop where
  seen : FinSeen h.connection.state → h.finConsumed = true
  consumed : h.finConsumed = true → FinSeen h.connection.state ∨ h.connection.Terminal
  opening : h.connection.state = .synSent → h.appended = [] ∧ h.peerInitial = none

theorem Built.finBook {h : TcpHistory} (hb : Built h) : h.FinBook := by
  cases hb with
  | connect hc =>
    obtain ⟨_, _, hs, hbuf⟩ := tryConnect_ok hc
    refine ⟨fun hx => ?_, by rintro ⟨⟩, fun _ => ⟨hbuf, rfl⟩⟩
    simp [start, FinSeen, hs] at hx
  | accept hc =>
    have hs := (acceptSyn_ok hc).2.2.2.2.1
    refine ⟨fun hx => ?_, by rintro ⟨⟩, fun hx => ?_⟩
    · simp [start, FinSeen, hs] at hx
    · simp [start, hs] at hx

theorem finSeen_before {s s' : TcpState} (h : s' ∈ TcpConnection.localSuccessors s) (hs : FinSeen s') : FinSeen s := by
  revert h hs
  cases s <;> cases s' <;> decide

theorem finSeen_after {h : TcpHistory} {c : TcpConnection}
    (hc : c.state ∈ TcpConnection.localSuccessors h.connection.state) (hs : FinSeen h.connection.state) :
    FinSeen c.state ∨ c.Terminal := by
  unfold TcpConnection.Terminal
  generalize c.state = s' at hc ⊢
  revert hc hs
  cases h.connection.state <;> cases s' <;> decide

theorem step_finBook_local (hop : Local op) (hb : h.FinBook) : (h.step op).FinBook := by
  obtain ⟨_, happ, hfin, hpeer⟩ := step_local_receive h op hop
  have hst := step_local_state h op hop
  constructor
  · intro hs
    rw [hfin]
    apply hb.seen
    obtain he | he | he := hst
    · rwa [he] at hs
    · simp [FinSeen, he] at hs
    · exact finSeen_before he hs
  · intro hf
    rw [hfin] at hf
    obtain hs | ht := hb.consumed hf
    · obtain he | he | he := hst
      · exact .inl (by rwa [he])
      · exact .inr (.inr he)
      · exact finSeen_after he hs
    · exact .inr (step_terminal h op ht)
  · intro hs
    rw [happ, hpeer]
    apply hb.opening
    obtain he | he | he := hst
    · rwa [he] at hs
    · rw [he] at hs
      cases hs
    · rw [hs] at he
      cases hx : h.connection.state <;> simp [hx, localSuccessors] at he

theorem step_finBook (hb : h.FinBook) : (h.step op).FinBook := by
  rcases local_or_onSegment op with hop | ⟨segment, now, rfl⟩
  · exact step_finBook_local h op hop hb
  have hr := onSegment_received h.connection segment now
  rw [step]
  generalize (h.connection.onSegment segment now).1 = c' at hr ⊢
  constructor
  · intro hs
    exact Bool.or_eq_true _ _ ▸ .inr (decide_eq_true hs)
  · intro hf
    rcases (Bool.or_eq_true _ _).mp hf with hf | hf
    · rcases hb.consumed hf with hs | ht
      · rcases hr.takes with ⟨_, he⟩ | ⟨hss, _⟩ | he | ⟨_, _, text, fin, htk⟩
        · exact .inr (by rw [observe, he]; exact .inr rfl)
        · simp [FinSeen, hss] at hs
        · exact .inl (by rw [observe, he]; exact hs)
        · exact htk.state_keeps hs
      · right
        rcases hr.of_terminal ht with he | he
        · rw [observe, he]
          exact ht
        · rw [observe, he]
          exact .inr rfl
    · exact .inl (of_decide_eq_true hf)
  · intro hs
    have he : c' = h.connection := hr.opening (.inl hs)
    obtain ⟨happ, hpeer⟩ := hb.opening (by rw [← he]; exact hs)
    simp only [observe] at hs ⊢
    refine ⟨by simp [he, happ], ?_⟩
    rw [if_neg, hpeer]
    rintro ⟨_, hx⟩
    rw [hs] at hx
    cases hx

/-! ## Every run -/

theorem unmoved_iff (hb : h.FinBook) : h.Unmoved op ↔ h.NothingAfterFin op := by
  constructor
  · rintro hu segment now rfl hseen hmore
    obtain ⟨hnext, happ⟩ := hu segment now rfl (hb.seen hseen)
    rcases takes_more (onSegment_received h.connection segment now) hmore with hx | hx
    · exact hx (List.append_right_eq_self.mp happ)
    · exact hx hnext
  · rintro hq segment now rfl hfin
    have hr := onSegment_received h.connection segment now
    have hsame : (h.connection.onSegment segment now).1.receiveNext = h.connection.receiveNext ∧
        (h.connection.onSegment segment now).1.receiveBuffer.drop h.connection.receiveBuffer.length = [] := by
      rcases hb.consumed hfin with hseen | ht
      · exact unmoved_of_not_more hr hseen (hq segment now rfl hseen)
      · rcases hr.of_terminal ht with he | he <;> rw [he]
        · exact ⟨rfl, by simp⟩
        · exact ⟨rfl, by simp [abort]⟩
    exact ⟨hsame.1, by simp [step, observe, hsame.2]⟩

theorem step_counted (hb : h.FinBook) (hc : h.Counted) (hq : h.NothingAfterFin op) : (h.step op).Counted := by
  rcases local_or_onSegment op with hop | ⟨segment, now, rfl⟩
  · obtain ⟨hnext, happ, hfin, hpeer⟩ := step_local_receive h op hop
    intro initial hi
    rw [hnext, happ, hfin]
    exact hc initial (hpeer ▸ hi)
  have hu := (unmoved_iff h _ hb).mpr hq segment now rfl
  have hr := onSegment_received h.connection segment now
  rw [step] at hu ⊢
  generalize (h.connection.onSegment segment now).1 = c' at hr hu ⊢
  intro initial hi
  by_cases hfin : h.finConsumed = true
  · -- nothing moves any more
    obtain ⟨hnext, happ⟩ := hu hfin
    have hss : h.connection.state ≠ .synSent := by
      intro hx
      rcases hb.consumed hfin with hs | hs | hs <;> simp [FinSeen, hx] at hs
    have hpeer : h.peerInitial = some initial := by
      simpa [observe, hss] using hi
    rw [hnext, happ, hc initial hpeer]
    simp [observe, hfin]
  · have hseen : ¬ FinSeen h.connection.state := fun hs => hfin (hb.seen hs)
    have hfalse : h.finConsumed = false := by simpa using hfin
    rcases hr.takes with ⟨_, rfl⟩ | ⟨hss, _, rfl⟩ | rfl | ⟨hrecv, _, text, fin, ht⟩
    · have hpeer : h.peerInitial = some initial := by
        simpa [observe, abort] using hi
      have := hc initial hpeer
      simpa [observe, abort, FinSeen, hfalse] using this
    · obtain ⟨happ, _⟩ := hb.opening hss
      have hpeer : segment.sequence = initial := by
        simpa [observe, hss, connected] using hi
      subst hpeer
      simp [observe, connected, happ, hfalse, FinSeen, add_one]
    · have hpeer : h.peerInitial = some initial := by
        have : ¬ (h.connection.state = .synSent ∧ h.connection.state = .established) := by
          rintro ⟨h1, h2⟩
          rw [h1] at h2
          cases h2
        simpa [observe, this] using hi
      have := hc initial hpeer
      simpa [observe, hseen, hfalse] using this
    · have hss : h.connection.state ≠ .synSent := by
        intro hx
        rcases hrecv with hs | hs
        · simp [TcpConnection.Synchronized, hx] at hs
        · rw [hx] at hs
          cases hs
      have hpeer : h.peerInitial = some initial := by
        simpa [observe, hss] using hi
      have hfin' : decide (FinSeen c'.state) = fin := by
        cases hf : fin with
        | false => exact decide_eq_false (fun hs => hseen (ht.state_fin hf hs))
        | true => exact decide_eq_true (ht.fin_state hf)
      have hcount := hc initial hpeer
      rw [hfalse] at hcount
      simp only [observe, hfalse, hfin', Bool.false_or, ht.drop, List.length_append]
      rw [ht.next, hcount, adv_adv]
      congr 1
      simp only [Bool.toNat_false]
      omega

theorem Built.counted {h : TcpHistory} (hb : Built h) : h.Counted := by
  intro initial hi
  cases hb with
  | connect => cases hi
  | accept hc =>
    cases hi
    obtain ⟨_, _, _, _, _, hbuf, hnext, _⟩ := acceptSyn_ok hc
    simp [start, hbuf, hnext]

/-- **Nothing follows a FIN** exactly when no segment brings text or a further FIN in order in CloseWait, LastAck or
TimeWait. -/
theorem unmoved_after_fin_iff {h₀ : TcpHistory} (hb : Built h₀) (ops : List TcpOp) :
    (Along step Unmoved h₀ ops ∧ ∀ pre post, ops = pre ++ post → (run step h₀ pre).Counted) ↔
      Along step NothingAfterFin h₀ ops := by
  have hcongr := along_congr step (fun h op hp _ => step_finBook h op hp) (fun h op hp => unmoved_iff h op hp) hb.finBook ops
  constructor
  · rintro ⟨hu, _⟩
    exact hcongr.mp hu
  · intro hq
    refine ⟨hcongr.mpr hq, ?_⟩
    rintro pre post rfl
    have hinv := along_invariant step (P := fun h => h.FinBook ∧ h.Counted)
      (fun h op hp hc => ⟨step_finBook h op hp.1, step_counted h op hp.1 hp.2 hc⟩)
      ⟨hb.finBook, hb.counted⟩ ((along_append step h₀ pre post).mp hq).1
    exact hinv.2

/-- The fixture, established, after the peer's FIN at 501: CloseWait, `receive_next` 502. -/
def passiveClose : List TcpOp :=
  [.pollTransmit 0, .onSegment TcpFixture.synAck 1,
    .onSegment (TcpFixture.segment (tcpFlagFin ||| tcpFlagAck) 501 101 []) 2]

/-- Text that arrives after the FIN, at exactly `receive_next`, is still put into the buffer. -/
theorem text_after_fin_appended : let h := run step (TcpFixture.history 32 32) passiveClose
    let h' := h.step (.onSegment (TcpFixture.segment tcpFlagAck 502 101 [120]) 3)
    Built (TcpFixture.history 32 32) ∧ h.connection.state = .closeWait ∧ h.finConsumed = true ∧
      h.connection.receiveNext = 502 ∧ h'.connection.receiveNext = 503 ∧
      h.connection.receiveBuffer = [] ∧ h'.connection.receiveBuffer = [120] :=
  ⟨TcpFixture.history_built, by decide, by decide, by decide, by decide, by decide, by decide⟩

theorem unmoved_after_fin_fixture : Along step Unmoved (TcpFixture.history 32 32)
      (passiveClose ++ [.onSegment (TcpFixture.segment (tcpFlagFin ||| tcpFlagAck) 501 101 []) 3]) := by
  refine ((unmoved_after_fin_iff TcpFixture.history_built _).mpr ?_).1
  refine ⟨nofun, ?_, ?_, ?_, trivial⟩ <;> rintro segment now ⟨⟩ <;> decide

end TcpHistory

end MochiSyscalls.NetworkStack
