import MochiSyscalls.Foundations.Runs
import MochiSyscalls.Foundations.Words
import MochiSyscalls.NetworkStack.Packet

/-! # The DHCP client

The lease of `DhcpClient` (`crates/network-stack/src/dhcp.rs`). A lease taken at the time `t` for `L`
seconds is gone at `t + 1000 L`, and it is kept until then unless the client gives up: the count of
unanswered tries, made for the search of a server, also ends a renewal that nobody answers, and
drops the lease with it. -/

namespace MochiSyscalls.NetworkStack
open Foundations Words
set_option autoImplicit false

/-! ## Client -/

def retryBaseMs : UInt64 := 1000
def failureRetryMs : UInt64 := 30000
def maxRetries : UInt8 := 8

inductive DhcpState where
  | init | selecting | requesting | bound | renewing | rebinding | failed
  deriving DecidableEq, Repr

inductive DhcpMessageType where
  | discover | offer | request | ack | nak
  deriving DecidableEq, Repr

structure DhcpOffer where
  address : Address
  subnetMask : Address
  gateway : Address
  dns : Address
  leaseSeconds : UInt32
  server : Address
  deriving DecidableEq, Repr

structure DhcpMessage where
  messageType : DhcpMessageType
  offer : DhcpOffer
  deriving DecidableEq, Repr

structure DhcpClient where
  state : DhcpState
  xid : UInt32
  mac : List UInt8
  offer : Option DhcpOffer
  retries : UInt8
  nextRetry : UInt64
  renewAt : UInt64
  rebindAt : UInt64
  leaseDeadline : UInt64
  deriving DecidableEq, Repr

namespace DhcpClient

def new (xid : UInt32) (mac : List UInt8) : DhcpClient :=
  { state := .init, xid, mac, offer := none, retries := 0, nextRetry := 0, renewAt := 0, rebindAt := 0,
    leaseDeadline := 0 }

def begin (c : DhcpClient) (now : UInt64) : DhcpClient :=
  { c with state := .selecting, retries := 0, nextRetry := saturatingAdd now retryBaseMs }

def bindLease (c : DhcpClient) (offer : DhcpOffer) (now : UInt64) : DhcpClient :=
  let leaseMs := saturatingMul offer.leaseSeconds.toUInt64 1000
  { c with offer := some offer, state := .bound, retries := 0,
           renewAt := saturatingAdd now (leaseMs / 2), rebindAt := saturatingAdd now (saturatingMul leaseMs 7 / 8),
           leaseDeadline := saturatingAdd now leaseMs }

/-- The lease is given up and the search for a server is due after a pause. -/
def fail (c : DhcpClient) (now : UInt64) : DhcpClient :=
  { c with state := .failed, offer := none, nextRetry := saturatingAdd now failureRetryMs }

def matchesOffer (c : DhcpClient) (offer : DhcpOffer) : Bool :=
  c.offer.any fun o => o.address = offer.address ∧ o.server = offer.server

def accept (c : DhcpClient) (msg : DhcpMessage) (now : UInt64) : DhcpClient × Except PacketError Unit :=
  match c.state, msg.messageType with
  | .selecting, .offer =>
    ({ c with offer := some msg.offer, state := .requesting, nextRetry := saturatingAdd now retryBaseMs }, .ok ())
  | .requesting, .ack | .renewing, .ack | .rebinding, .ack =>
    if c.matchesOffer msg.offer then (c.bindLease msg.offer now, .ok ()) else (c, .error .mismatch)
  | _, .nak => (c.fail now, .ok ())
  | _, _ => (c, .error .mismatch)

def startRenewing (c : DhcpClient) (now : UInt64) : DhcpClient :=
  if c.state = .bound ∧ now ≥ c.renewAt then { c with state := .renewing, retries := 0, nextRetry := now } else c

def startRebinding (c : DhcpClient) (now : UInt64) : DhcpClient :=
  if c.state = .renewing ∧ now ≥ c.rebindAt then { c with state := .rebinding, retries := 0, nextRetry := now } else c

def expireLease (c : DhcpClient) (now : UInt64) : DhcpClient :=
  if (c.state = .renewing ∨ c.state = .rebinding) ∧ now ≥ c.leaseDeadline then c.fail now else c

def restart (c : DhcpClient) (now : UInt64) : DhcpClient :=
  if c.state = .failed ∧ now ≥ c.nextRetry then c.begin now else c

def retry (c : DhcpClient) (now : UInt64) : DhcpClient :=
  if (c.state = .selecting ∨ c.state = .requesting ∨ c.state = .renewing ∨ c.state = .rebinding) ∧
      now ≥ c.nextRetry then
    let retries := saturatingAdd8 c.retries 1
    let tried := { c with retries, nextRetry := saturatingAdd now (retryBaseMs <<< (min retries 5).toUInt64) }
    if retries ≥ maxRetries then tried.fail now else tried
  else c

def tick (c : DhcpClient) (now : UInt64) : DhcpClient :=
  ((((c.startRenewing now).startRebinding now).expireLease now).restart now).retry now

end DhcpClient

/-! ## Holding and losing a lease -/

def DhcpState.leased (s : DhcpState) : Prop := s = .bound ∨ s = .renewing ∨ s = .rebinding
  deriving Decidable

def DhcpOffer.endOf (lease : DhcpOffer) (t : UInt64) : ℕ := t.toNat + 1000 * lease.leaseSeconds.toNat

namespace DhcpClient

structure Held (lease : DhcpOffer) (t : UInt64) (c : DhcpClient) : Prop where
  leased : c.state.leased
  offer : c.offer = some lease
  renewAt : c.renewAt.toNat ≤ lease.endOf t
  rebindAt : c.rebindAt.toNat ≤ lease.endOf t
  leaseDeadline : c.leaseDeadline.toNat = min (lease.endOf t) usizeMax

def Dropped (c : DhcpClient) : Prop := (c.state = .failed ∨ c.state = .selecting) ∧ c.offer = none

def Lapsed (c : DhcpClient) : Prop := c.Dropped ∨ c.state = .requesting

/-- The tick at `now` makes the last try of a renewal. -/
def GivesUp (c : DhcpClient) (now : UInt64) : Prop :=
  let c := (c.startRenewing now).startRebinding now
  (c.state = .renewing ∨ c.state = .rebinding) ∧ c.nextRetry ≤ now ∧ maxRetries ≤ saturatingAdd8 c.retries 1
  deriving Decidable

theorem fail_dropped (c : DhcpClient) (now : UInt64) : (c.fail now).Dropped := ⟨.inl rfl, rfl⟩

theorem bindLease_held (c : DhcpClient) (lease : DhcpOffer) (t : UInt64) : (c.bindLease lease t).Held lease t := by
  have hsec := lease.leaseSeconds.toNat_lt
  have hms : (saturatingMul lease.leaseSeconds.toUInt64 1000).toNat = 1000 * lease.leaseSeconds.toNat := by
    have hk : (1000 : UInt64).toNat = 1000 := rfl
    rw [saturatingMul_toNat, UInt32.toNat_toUInt64, hk]
    unfold usizeMax
    omega
  have hhalf : (saturatingMul lease.leaseSeconds.toUInt64 1000 / 2).toNat ≤ 1000 * lease.leaseSeconds.toNat := by
    rw [UInt64.toNat_div, hms]
    exact Nat.div_le_self _ _
  have hmost : (saturatingMul (saturatingMul lease.leaseSeconds.toUInt64 1000) 7 / 8).toNat ≤
      1000 * lease.leaseSeconds.toNat := by
    have h7 : (7 : UInt64).toNat = 7 := rfl
    have h8 : (8 : UInt64).toNat = 8 := rfl
    rw [UInt64.toNat_div, saturatingMul_toNat, hms, h7, h8]
    omega
  refine ⟨.inl rfl, rfl, ?_, ?_, ?_⟩ <;> dsimp only [bindLease] <;> rw [saturatingAdd_toNat] <;> unfold DhcpOffer.endOf
  · omega
  · omega
  · rw [hms]

/-! ## One tick -/

variable {c : DhcpClient}

theorem startRenewing_of_ne (h : c.state ≠ .bound) (now : UInt64) : c.startRenewing now = c :=
  if_neg fun hc => h hc.1

theorem startRebinding_of_ne (h : c.state ≠ .renewing) (now : UInt64) : c.startRebinding now = c :=
  if_neg fun hc => h hc.1

theorem expireLease_of_ne (h : c.state ≠ .renewing) (h' : c.state ≠ .rebinding) (now : UInt64) :
    c.expireLease now = c :=
  if_neg fun hc => hc.1.elim h h'

theorem restart_of_ne (h : c.state ≠ .failed) (now : UInt64) : c.restart now = c :=
  if_neg fun hc => h hc.1

variable {t : UInt64}

theorem Held.startRenewing {lease : DhcpOffer} (h : c.Held lease t) (now : UInt64) :
    (c.startRenewing now).Held lease t := by
  unfold DhcpClient.startRenewing
  split
  · exact ⟨.inr (.inl rfl), h.offer, h.renewAt, h.rebindAt, h.leaseDeadline⟩
  · exact h

theorem Held.startRebinding {lease : DhcpOffer} (h : c.Held lease t) (now : UInt64) :
    (c.startRebinding now).Held lease t := by
  unfold DhcpClient.startRebinding
  split
  · exact ⟨.inr (.inr rfl), h.offer, h.renewAt, h.rebindAt, h.leaseDeadline⟩
  · exact h

theorem Dropped.restart (h : c.Dropped) (now : UInt64) : (c.restart now).Dropped := by
  unfold DhcpClient.restart
  split
  · exact ⟨.inr rfl, h.2⟩
  · exact h

theorem Dropped.retry (h : c.Dropped) (now : UInt64) : (c.retry now).Dropped := by
  unfold DhcpClient.retry
  split
  · dsimp only
    split
    · exact fail_dropped _ _
    · exact h
  · exact h

theorem Lapsed.tick_eq (h : c.Lapsed) (now : UInt64) : c.tick now = (c.restart now).retry now := by
  have hne : c.state ≠ .bound ∧ c.state ≠ .renewing ∧ c.state ≠ .rebinding := by
    obtain ⟨hs | hs, _⟩ | hs := h <;> rw [hs] <;> decide
  unfold DhcpClient.tick
  rw [startRenewing_of_ne hne.1, startRebinding_of_ne hne.2.1, expireLease_of_ne hne.2.1 hne.2.2]

theorem Dropped.tick (h : c.Dropped) (now : UInt64) : (c.tick now).Dropped := by
  rw [Lapsed.tick_eq (.inl h)]
  exact (h.restart now).retry now

theorem Lapsed.tick (h : c.Lapsed) (now : UInt64) : (c.tick now).Lapsed := by
  obtain hd | hs := h
  · exact .inl (hd.tick now)
  rw [Lapsed.tick_eq (.inr hs), restart_of_ne (by rw [hs]; decide)]
  unfold DhcpClient.retry
  split
  · dsimp only
    split
    · exact .inl (fail_dropped _ _)
    · exact .inr hs
  · exact .inr hs

section

variable {lease : DhcpOffer} (h : c.Held lease t) {now : UInt64}
include h

/-- At the deadline the moves to renewing and rebinding are overdue too, and one tick makes all of
them. -/
theorem Held.tick_expires
    (hnow : min (lease.endOf t) usizeMax ≤ now.toNat) : (c.tick now).Dropped := by
  have hdue : ∀ d : UInt64, d.toNat ≤ lease.endOf t → d ≤ now := by
    intro d hd
    have hlt := d.toNat_lt
    rw [UInt64.le_iff_toNat_le]
    unfold usizeMax at hnow
    omega
  have hrenewing : (c.startRenewing now).state ≠ .bound := by
    unfold DhcpClient.startRenewing
    split
    · exact DhcpState.noConfusion
    next hc => exact fun hs => hc ⟨hs, hdue _ h.renewAt⟩
  have hheld := h.startRenewing now
  have hrebinding : ((c.startRenewing now).startRebinding now).state = .rebinding := by
    unfold DhcpClient.startRebinding
    split
    · rfl
    next hc =>
      obtain hs | hs | hs := hheld.leased
      · exact absurd hs hrenewing
      · exact absurd ⟨hs, hdue _ hheld.rebindAt⟩ hc
      · exact hs
  have hdeadline := (hheld.startRebinding now).leaseDeadline
  unfold DhcpClient.tick DhcpClient.expireLease
  rw [if_pos ⟨.inr hrebinding, UInt64.le_iff_toNat_le.mpr (by omega)⟩]
  exact ((fail_dropped _ now).restart now).retry now

theorem Held.tick_eq (hnow : now.toNat < min (lease.endOf t) usizeMax) :
    c.tick now = ((c.startRenewing now).startRebinding now).retry now := by
  have hheld := (h.startRenewing now).startRebinding now
  have hlive : ¬ now ≥ ((c.startRenewing now).startRebinding now).leaseDeadline := by
    rw [ge_iff_le, UInt64.le_iff_toNat_le, hheld.leaseDeadline]
    omega
  have hfailed : ((c.startRenewing now).startRebinding now).state ≠ .failed := by
    obtain hs | hs | hs := hheld.leased <;> rw [hs] <;> decide
  unfold DhcpClient.tick DhcpClient.expireLease
  rw [if_neg fun hc => hlive hc.2, restart_of_ne hfailed]

theorem Held.tick
    (hnow : now.toNat < min (lease.endOf t) usizeMax) (hkeep : ¬ c.GivesUp now) : (c.tick now).Held lease t := by
  have hheld := (h.startRenewing now).startRebinding now
  rw [h.tick_eq hnow]
  unfold DhcpClient.retry
  split
  next htry =>
    dsimp only
    split
    next hmax =>
      refine absurd ⟨?_, htry.2, hmax⟩ hkeep
      obtain hs | hs | hs := htry.1
      · obtain hl | hl | hl := hheld.leased <;> rw [hs] at hl <;> cases hl
      · obtain hl | hl | hl := hheld.leased <;> rw [hs] at hl <;> cases hl
      · exact hs
    · exact ⟨hheld.leased, hheld.offer, hheld.renewAt, hheld.rebindAt, hheld.leaseDeadline⟩
  · exact hheld

theorem Held.tick_givesUp
    (hnow : now.toNat < min (lease.endOf t) usizeMax) (hgive : c.GivesUp now) : (c.tick now).Dropped := by
  obtain ⟨hs, hretry, hmax⟩ := hgive
  rw [h.tick_eq hnow]
  unfold DhcpClient.retry
  rw [if_pos ⟨.inr (.inr hs), hretry⟩]
  dsimp only
  rw [if_pos hmax]
  exact fail_dropped _ _

/-- A tick before the end of the lease. The last value of the clock stands apart: a deadline beyond it saturates. -/
theorem Held.tick_cases (hnow : now.toNat < lease.endOf t) :
    ((¬ c.GivesUp now ∧ now ≠ u64Max) ∧ (c.tick now).Held lease t) ∨
    (¬ (¬ c.GivesUp now ∧ now ≠ u64Max) ∧ (c.tick now).Dropped) := by
  have hmax : u64Max.toNat = usizeMax := rfl
  by_cases hlast : now = u64Max
  · refine .inr ⟨fun hc => hc.2 hlast, h.tick_expires ?_⟩
    rw [hlast]
    omega
  have hne : now.toNat ≠ u64Max.toNat := fun hc => hlast (UInt64.toNat_inj.mp hc)
  have hlt : now.toNat < min (lease.endOf t) usizeMax := by
    have hbound := now.toNat_lt
    unfold usizeMax at hmax ⊢
    omega
  by_cases hgive : c.GivesUp now
  · exact .inr ⟨fun hc => hc.1 hgive, h.tick_givesUp hlt hgive⟩
  · exact .inl ⟨⟨hgive, hlast⟩, h.tick hlt hgive⟩

end

theorem Held.tick_or_dropped {lease : DhcpOffer} (h : c.Held lease t) (now : UInt64) :
    (c.tick now).Held lease t ∨ (c.tick now).Dropped := by
  by_cases hnow : now.toNat < lease.endOf t
  · exact (h.tick_cases hnow).imp And.right And.right
  · exact .inr (h.tick_expires ((min_le_left _ _).trans (not_lt.mp hnow)))

theorem Lapsed.not_leased (h : c.Lapsed) : ¬ c.state.leased := by
  obtain ⟨hs | hs, _⟩ | hs := h <;> rw [hs] <;> decide

/-! ## Messages -/

variable {msg : DhcpMessage}

theorem accept_ack {c' : DhcpClient} (htype : msg.messageType = .ack) {now : UInt64}
    (h : c.accept msg now = (c', .ok ())) : c' = c.bindLease msg.offer now := by
  unfold accept at h
  rw [htype] at h
  split at h
  case h_1 | h_5 => contradiction
  case h_6 => cases (Prod.mk.inj h).2
  all_goals
    split at h
    · exact (Prod.mk.inj h).1.symm
    · cases (Prod.mk.inj h).2

theorem accept_other (hack : msg.messageType ≠ .ack) (hnak : msg.messageType ≠ .nak) (now : UInt64) :
    (c.accept msg now).1 = c ∨
      (c.state = .selecting ∧ msg.messageType = .offer ∧ (c.accept msg now).1.state = .requesting) := by
  unfold accept
  split
  next hs htype => exact .inr ⟨hs, htype, rfl⟩
  all_goals first | contradiction | exact .inl rfl

theorem Held.accept {lease : DhcpOffer} (h : c.Held lease t)
    (hack : msg.messageType ≠ .ack) (hnak : msg.messageType ≠ .nak) (now : UInt64) : (c.accept msg now).1 = c := by
  obtain he | ⟨hs, _⟩ := accept_other (c := c) hack hnak now
  · exact he
  · obtain hl | hl | hl := h.leased <;> rw [hs] at hl <;> cases hl

end DhcpClient

/-! ## Runs -/

inductive DhcpEvent where
  | begin (now : UInt64)
  | accept (msg : DhcpMessage) (now : UInt64)
  | tick (now : UInt64)
  deriving DecidableEq

def DhcpEvent.now : DhcpEvent → UInt64
  | .begin now => now
  | .accept _ now => now
  | .tick now => now

structure DhcpRun where
  client : DhcpClient
  clock : UInt64
  deriving DecidableEq

namespace DhcpRun

def step (s : DhcpRun) (event : DhcpEvent) : DhcpRun :=
  match event with
  | .begin now => ⟨s.client.begin now, now⟩
  | .accept msg now => ⟨(s.client.accept msg now).1, now⟩
  | .tick now => ⟨s.client.tick now, now⟩

/-- A later event that is neither a NAK, an ACK nor a new beginning. -/
def Quiet (s : DhcpRun) (event : DhcpEvent) : Prop :=
  s.clock ≤ event.now ∧
    match event with
    | .begin _ => False
    | .accept msg _ => msg.messageType ≠ .ack ∧ msg.messageType ≠ .nak
    | .tick _ => True

def Holds (lease : DhcpOffer) (t : UInt64) (s : DhcpRun) : DhcpEvent → Prop
  | .tick now => now.toNat < lease.endOf t → (s.client.tick now).state.leased ∧ (s.client.tick now).offer = some lease
  | _ => True

/-- A tick from the end of the lease on leaves the states in which one is held. -/
def Leaves (lease : DhcpOffer) (t : UInt64) (s : DhcpRun) : DhcpEvent → Prop
  | .tick now => lease.endOf t ≤ now.toNat → ¬ (s.client.tick now).state.leased
  | _ => True

/-- A tick from the end of the lease on leaves no offer either. -/
def Clears (lease : DhcpOffer) (t : UInt64) (s : DhcpRun) : DhcpEvent → Prop
  | .tick now => lease.endOf t ≤ now.toNat → (s.client.tick now).offer = none
  | _ => True

/-- A tick before the end of the lease does not give up a renewal, and is not at the last value of
the clock. -/
def Patient (lease : DhcpOffer) (t : UInt64) (s : DhcpRun) : DhcpEvent → Prop
  | .tick now => now.toNat < lease.endOf t → ¬ s.client.GivesUp now ∧ now ≠ u64Max
  | _ => True

/-- No offer reaches a client that is selecting one. -/
def Unoffered (s : DhcpRun) : DhcpEvent → Prop
  | .accept msg _ => s.client.state = .selecting → msg.messageType ≠ .offer
  | _ => True

instance (s : DhcpRun) : ∀ e, Decidable (s.Quiet e)
  | .begin _ => inferInstanceAs (Decidable (_ ∧ False))
  | .accept _ _ => inferInstanceAs (Decidable (_ ∧ _ ∧ _))
  | .tick _ => inferInstanceAs (Decidable (_ ∧ True))

instance (lease : DhcpOffer) (t : UInt64) (s : DhcpRun) : ∀ e, Decidable (s.Patient lease t e)
  | .begin _ => inferInstanceAs (Decidable True)
  | .accept _ _ => inferInstanceAs (Decidable True)
  | .tick _ => inferInstanceAs (Decidable (_ → _))

variable {s : DhcpRun} {t : UInt64}

theorem holds_iff_patient {lease : DhcpOffer} (h : s.client.Held lease t)
    {events : List DhcpEvent} (hquiet : Runs.Along step Quiet s events) :
    Runs.Along step (Holds lease t) s events ↔ Runs.Along step (Patient lease t) s events := by
  -- the steps that hold the lease keep it held until the clock has reached its end
  have hcongr := Runs.along_congr step (C := fun s e => Quiet s e ∧ Holds lease t s e)
    (D := fun s e => Quiet s e ∧ Patient lease t s e)
    (P := fun s => s.client.Held lease t ∨ lease.endOf t ≤ s.clock.toNat) ?_ ?_ (.inl h) events
  · rw [Runs.along_and, Runs.along_and] at hcongr
    constructor
    · exact fun hh => (hcongr.mp ⟨hquiet, hh⟩).2
    · exact fun hp => (hcongr.mpr ⟨hquiet, hp⟩).2
  · rintro s e hp ⟨⟨htime, hq⟩, hholds⟩
    rw [UInt64.le_iff_toNat_le] at htime
    obtain hp | hp := hp
    · cases e with
      | begin now => exact hq.elim
      | accept msg now =>
        left
        dsimp only [step]
        rw [hp.accept hq.1 hq.2 now]
        exact hp
      | tick now =>
        by_cases hnow : now.toNat < lease.endOf t
        · obtain ⟨_, hheld⟩ | ⟨_, hdrop⟩ := hp.tick_cases hnow
          · exact .inl hheld
          · exact absurd (hholds hnow).1 (DhcpClient.Lapsed.not_leased (.inl hdrop))
        · exact .inr (not_lt.mp hnow)
    · right
      have hclock : (s.step e).clock = e.now := by cases e <;> rfl
      rw [hclock]
      omega
  · intro s e hp
    refine and_congr_right fun hq => ?_
    cases e with
    | begin now | accept msg now => exact Iff.rfl
    | tick now =>
      refine forall_congr' fun hnow => ?_
      obtain hp | hp := hp
      · obtain ⟨hkeep, hheld⟩ | ⟨hlose, hdrop⟩ := hp.tick_cases hnow
        · exact iff_of_true ⟨hheld.leased, hheld.offer⟩ hkeep
        · exact iff_of_false (fun hc => DhcpClient.Lapsed.not_leased (.inl hdrop) hc.1) hlose
      · have htime := UInt64.le_iff_toNat_le.mp hq.1
        dsimp only [DhcpEvent.now] at htime
        omega

theorem lapsed_step {lease : DhcpOffer} (h : s.client.Held lease t ∨ s.client.Lapsed) {e : DhcpEvent} (hq : s.Quiet e) :
    (s.step e).client.Held lease t ∨ (s.step e).client.Lapsed := by
  cases e with
  | begin now => exact hq.2.elim
  | accept msg now =>
    dsimp only [step]
    obtain he | ⟨_, _, he⟩ := DhcpClient.accept_other (c := s.client) hq.2.1 hq.2.2 now
    · rw [he]
      exact h
    · exact .inr (.inr he)
  | tick now =>
    obtain h | h := h
    · exact (h.tick_or_dropped now).imp_right .inl
    · exact .inr (h.tick now)

theorem dropped_step {lease : DhcpOffer}
    (h : s.client.Held lease t ∨ s.client.Dropped) {e : DhcpEvent} (hq : s.Quiet e) (hoffer : s.Unoffered e) :
    (s.step e).client.Held lease t ∨ (s.step e).client.Dropped := by
  cases e with
  | begin now => exact hq.2.elim
  | accept msg now =>
    dsimp only [step]
    obtain he | ⟨hs, htype, _⟩ := DhcpClient.accept_other (c := s.client) hq.2.1 hq.2.2 now
    · rw [he]
      exact h
    · exact absurd htype (hoffer hs)
  | tick now =>
    obtain h | h := h
    · exact h.tick_or_dropped now
    · exact .inr (h.tick now)

/-- **The lifetime of a lease.** Without a further ACK, NAK or beginning it is held before its end exactly when no tick
gives up a renewal, and from its end on not any more. -/
theorem lease_lifetime (c c' : DhcpClient) (ack : DhcpMessage) (htype : ack.messageType = .ack) (t : UInt64)
    (haccept : c.accept ack t = (c', .ok ())) (events : List DhcpEvent)
    (hquiet : Runs.Along step Quiet ⟨c', t⟩ events) :
    (c'.state = .bound ∧ c'.offer = some ack.offer) ∧
    (Runs.Along step (Holds ack.offer t) ⟨c', t⟩ events ↔ Runs.Along step (Patient ack.offer t) ⟨c', t⟩ events) ∧
    Runs.Along step (Leaves ack.offer t) ⟨c', t⟩ events ∧
    (Runs.Along step Unoffered ⟨c', t⟩ events → Runs.Along step (Clears ack.offer t) ⟨c', t⟩ events) := by
  have hbind := DhcpClient.accept_ack htype haccept
  have hheld : c'.Held ack.offer t := hbind ▸ c.bindLease_held ack.offer t
  refine ⟨by rw [hbind]; exact ⟨rfl, rfl⟩, holds_iff_patient hheld hquiet, ?_, ?_⟩
  · refine Runs.along_of_invariant step (P := fun s => s.client.Held ack.offer t ∨ s.client.Lapsed)
      (fun s e hp hq => lapsed_step hp hq) ?_ (.inl hheld) hquiet
    intro s e hp _
    cases e with
    | begin now | accept msg now => trivial
    | tick now =>
      intro hnow
      obtain hp | hp := hp
      · exact DhcpClient.Lapsed.not_leased (.inl (hp.tick_expires ((min_le_left _ _).trans hnow)))
      · exact (hp.tick now).not_leased
  · intro hoffer
    refine Runs.along_of_invariant step (C := fun s e => Quiet s e ∧ Unoffered s e)
      (P := fun s => s.client.Held ack.offer t ∨ s.client.Dropped)
      (fun s e hp hq => dropped_step hp hq.1 hq.2) ?_ (.inl hheld) ((Runs.along_and step _ _).mpr ⟨hquiet, hoffer⟩)
    intro s e hp _
    cases e with
    | begin now | accept msg now => trivial
    | tick now =>
      intro hnow
      obtain hp | hp := hp
      · exact (hp.tick_expires ((min_le_left _ _).trans hnow)).2
      · exact (hp.tick now).2

end DhcpRun

namespace DhcpFixture

variable (seconds : UInt32)

def lease : DhcpOffer :=
  { address := ⟨10, 0, 2, 15⟩, subnetMask := ⟨255, 255, 255, 0⟩, gateway := ⟨10, 0, 2, 2⟩, dns := ⟨10, 0, 2, 3⟩,
    leaseSeconds := seconds, server := ⟨10, 0, 2, 2⟩ }

def asking : DhcpRun :=
  Runs.run DhcpRun.step ⟨.new 7 [1, 2, 3, 4, 5, 6], 0⟩ [.begin 1000, .accept ⟨.offer, lease seconds⟩ 1100]

def bound : DhcpRun := (asking seconds).step (.accept ⟨.ack, lease seconds⟩ 2000)

/-- The server does not answer: an hour's lease is dropped about two minutes into its second half. -/
theorem unanswered_renewal_drops_lease :
    (bound 3600).client.state = .bound ∧
    (Runs.run DhcpRun.step (bound 3600) ([1802000, 1804000, 1808000, 1816000, 1832000, 1864000, 1896000, 1928000].map
      DhcpEvent.tick)).client.offer = none ∧
    1928000 < (lease 3600).endOf 2000 := by
  decide +kernel

theorem lease_lifetime_fixture :
    Runs.Along DhcpRun.step (DhcpRun.Holds (lease 8) 2000) (bound 8) ([5999, 6000, 9000, 10000].map DhcpEvent.tick) :=
  (DhcpRun.lease_lifetime (asking 8).client (bound 8).client ⟨.ack, lease 8⟩ rfl 2000 (by decide)
    ([5999, 6000, 9000, 10000].map DhcpEvent.tick) (by decide)).2.1.mpr (by decide)

end DhcpFixture

end MochiSyscalls.NetworkStack
