import MochiSyscalls.NetworkStack.TcpConnection
import MochiSyscalls.Foundations.Serial

/-! # What one operation of a connection can do

One inversion per operation of `TcpConnection`: the guards of the branch taken and the connection
it leaves behind. The invariants of the later modules are derived from these statements and do not
unfold the operations again. -/

namespace MochiSyscalls.NetworkStack.TcpConnection
open Foundations Words Serial
set_option autoImplicit false

theorem sequenceBefore_iff (left right : UInt32) : sequenceBefore left right = true ↔ Before left right := by
  unfold sequenceBefore
  rw [decide_eq_true_iff, toInt32_sub_neg]

theorem sequenceAfter_iff (left right : UInt32) : sequenceAfter left right = true ↔ Before right left :=
  sequenceBefore_iff right left

/-! ## Opening -/

variable {alloc : Allocator}

theorem tryReserve_size {storage : Storage} {size : ℕ}
    (h : ¬ (!alloc.tryReserve storage size) = true) : size ≤ isizeMax := by
  simp only [Allocator.tryReserve, Bool.not_and, Bool.or_eq_true, Bool.not_eq_true', not_or,
    Bool.not_eq_false, decide_eq_true_eq] at h
  exact h.1

/-- A connection just built: only its SYN (or SYN/ACK) is outstanding. -/
structure Fresh (c : TcpConnection) (initialSequence : UInt32) (synFlags : UInt16) : Prop where
  sendUnacknowledged : c.sendUnacknowledged = initialSequence
  sendNext : c.sendNext = adv initialSequence 1
  sendBuffer : c.sendBuffer = []
  outstanding : ∃ s, c.outstanding = [s] ∧ s.sequence = initialSequence ∧ s.flags = synFlags ∧
    s.payload = [] ∧ s.sentAt = none
  sendCapacity : c.sendCapacity ≤ isizeMax
  receiveCapacity : c.receiveCapacity ≤ isizeMax

variable {c : TcpConnection} {initialSequence : UInt32}

theorem tryConnect_ok {handle owner : UInt64} {tuple : TcpTuple} {localMss : UInt16} {sendCapacity receiveCapacity : ℕ}
    {retransmitTimeout : UInt64} {retryLimit : UInt8}
    (h : tryConnect alloc handle owner tuple initialSequence localMss sendCapacity receiveCapacity
      retransmitTimeout retryLimit = .ok c) :
    Fresh c initialSequence tcpFlagSyn ∧ c.tuple = tuple ∧ c.state = .synSent ∧ c.receiveBuffer = [] := by
  unfold tryConnect at h
  split at h
  · cases h
  split at h
  · cases h
  rename_i hsend
  split at h
  · cases h
  rename_i hreceive
  split at h
  · cases h
  cases h
  exact ⟨⟨rfl, rfl, rfl, ⟨_, rfl, rfl, rfl, rfl, rfl⟩, tryReserve_size hsend, tryReserve_size hreceive⟩, rfl, rfl, rfl⟩

variable {segment : TcpSegment}

theorem acceptSyn_ok {handle owner : UInt64} {tuple : TcpTuple} {config : TcpListenConfig}
    (h : acceptSyn alloc handle owner tuple initialSequence config segment = .ok c) :
    Fresh c initialSequence (tcpFlagSyn ||| tcpFlagAck) ∧ c.handle = handle ∧ c.owner = owner ∧
      c.tuple = tuple ∧ c.state = .synReceived ∧ c.receiveBuffer = segment.payload ∧
      c.receiveNext = adv segment.sequence (1 + segment.payload.length) ∧
      segment.payload.length ≤ c.receiveCapacity ∧ validateSyn tuple segment = .ok () ∧
      ∀ s ∈ c.outstanding, s.acknowledgment = c.receiveNext := by
  unfold acceptSyn at h
  split at h
  · cases h
  rename_i hsyn
  split at h
  · cases h
  split at h
  · cases h
  rename_i hroom
  split at h
  · cases h
  rename_i hsend
  split at h
  · cases h
  rename_i hreceive
  split at h
  · cases h
  cases h
  refine ⟨⟨rfl, rfl, rfl, ⟨_, rfl, rfl, rfl, rfl, rfl⟩, tryReserve_size hsend, tryReserve_size hreceive⟩,
    rfl, rfl, rfl, rfl, rfl, ?_, not_lt.mp hroom, hsyn, ?_⟩
  · change segment.sequence + 1 + UInt32.ofNat segment.payload.length = _
    rw [add_one, add_ofNat, adv_adv]
  · intro s hs
    rw [List.mem_singleton.mp hs]

theorem Fresh.sequenceEnd {synFlags : UInt16}
    (h : Fresh c initialSequence synFlags) (hsyn : hasFlag synFlags tcpFlagSyn = true)
    (hfin : hasFlag synFlags tcpFlagFin = false) {s : OutstandingSegment} (hs : s ∈ c.outstanding) :
    s.sequenceEnd = adv initialSequence 1 := by
  obtain ⟨t, hout, hseq, hflags, hpayload, _⟩ := h.outstanding
  rw [hout, List.mem_singleton] at hs
  subst hs
  simp [OutstandingSegment.sequenceEnd, flagUnit, hseq, hflags, hpayload, hsyn, hfin, add_one]

/-! ## The user's side -/

theorem queueSend_cases (c : TcpConnection) (bytes : List UInt8) :
    (c.canSend ∧ usizeSaturatingAdd (usizeSaturatingAdd c.inFlight c.sendBuffer.length) bytes.length ≤ c.sendCapacity ∧
      c.queueSend bytes = ({ c with sendBuffer := c.sendBuffer ++ bytes }, .ok ())) ∨
    ∃ e, c.queueSend bytes = (c, .error e) := by
  unfold queueSend
  split
  · exact .inr ⟨_, rfl⟩
  next hcan =>
    split
    · exact .inr ⟨_, rfl⟩
    next hroom => exact .inl ⟨not_not.mp hcan, not_lt.mp hroom, rfl⟩

theorem tick_cases (c : TcpConnection) (now : UInt64) :
    (c.tick now).1 = c ∨ ∃ limit, c.state = .timeWait ∧ c.timeWaitUntil = some limit ∧ limit ≤ now ∧
      (c.tick now).1 = { c with state := .closed } := by
  unfold tick
  split
  next h =>
    obtain ⟨hstate, hlimit⟩ := h
    cases hl : c.timeWaitUntil with
    | none =>
      rw [hl] at hlimit
      cases hlimit
    | some limit =>
      rw [hl] at hlimit
      exact .inr ⟨limit, hstate, rfl, by simpa using hlimit, rfl⟩
  · exact .inl rfl

/-! ## Acknowledgments -/

/-- The acknowledgment numbers `acknowledge` accepts. -/
def Acceptable (c : TcpConnection) (acknowledgment : UInt32) : Prop :=
  ¬ Before acknowledgment c.sendUnacknowledged ∧ ¬ Before c.sendNext acknowledgment
  deriving Decidable

theorem acknowledge_of_acceptable {a : UInt32} (h : c.Acceptable a) : c.acknowledge a = (c.acked a, .ok ()) := by
  unfold acknowledge
  rw [if_neg]
  rintro (hb | hb)
  · exact h.1 ((sequenceBefore_iff _ _).mp hb)
  · exact h.2 ((sequenceAfter_iff _ _).mp hb)

theorem acknowledge_of_not_acceptable {a : UInt32} (h : ¬ c.Acceptable a) :
    c.acknowledge a = (c, .error .invalidAcknowledgment) := by
  unfold acknowledge
  rw [if_pos]
  by_contra hb
  obtain ⟨h1, h2⟩ := not_or.mp hb
  exact h ⟨fun hx => h1 ((sequenceBefore_iff _ _).mpr hx), fun hx => h2 ((sequenceAfter_iff _ _).mpr hx)⟩

section

variable (c : TcpConnection) (a : UInt32)

@[simp] theorem acked_sendBuffer : (c.acked a).sendBuffer = c.sendBuffer := rfl
@[simp] theorem acked_receiveNext : (c.acked a).receiveNext = c.receiveNext := rfl
@[simp] theorem acked_receiveBuffer : (c.acked a).receiveBuffer = c.receiveBuffer := rfl

end

/-- The acknowledgment number of a segment lets the stream stages run. -/
def AckPasses (c : TcpConnection) (segment : TcpSegment) : Prop :=
  segment.acknowledgment = c.sendUnacknowledged ∨ c.Acceptable segment.acknowledgment
  deriving Decidable

/-- The segment acknowledges everything sent, and something new. -/
def AcksAll (c : TcpConnection) (segment : TcpSegment) : Prop :=
  segment.acknowledgment ≠ c.sendUnacknowledged ∧ segment.acknowledgment = c.sendNext
  deriving Decidable

/-- The connection the acknowledgment stage hands to the payload stage. -/
def afterAck (c : TcpConnection) (segment : TcpSegment) : TcpConnection :=
  { (if segment.acknowledgment = c.sendUnacknowledged then c else c.acked segment.acknowledgment) with
    peerWindow := segment.window,
    state := if c.state = .finWait1 ∧ c.AcksAll segment then .finWait2 else c.state }

section

variable (hack : hasFlag segment.flags tcpFlagAck = true)
include hack

theorem onAcknowledgment_duplicate (hdup : segment.acknowledgment = c.sendUnacknowledged) :
    c.onAcknowledgment segment = (c.afterAck segment, .next .duplicateAck) := by
  have hfin : ¬ (c.state = .finWait1 ∧ c.AcksAll segment) := fun h => h.2.1 hdup
  unfold onAcknowledgment afterAck
  rw [if_neg (not_not.mpr hack), if_pos hdup, if_pos hdup, if_neg hfin]

theorem onAcknowledgment_rejected (hno : ¬ c.AckPasses segment) :
    c.onAcknowledgment segment = (c, .done (.error .invalidAcknowledgment)) := by
  obtain ⟨hdup, hok⟩ := not_or.mp hno
  unfold onAcknowledgment
  rw [if_neg (not_not.mpr hack), if_neg hdup, acknowledge_of_not_acceptable hok]

theorem onAcknowledgment_closing (hok : c.Acceptable segment.acknowledgment)
    (hla : c.state = .lastAck) (hall : c.AcksAll segment) :
    c.onAcknowledgment segment = ({ c.acked segment.acknowledgment with state := .closed }, .done (.ok .closed)) := by
  unfold onAcknowledgment
  rw [if_neg (not_not.mpr hack), if_neg hall.1, acknowledge_of_acceptable hok]
  simp [acked, hla, hall.2]

theorem onAcknowledgment_fresh
    (hdup : segment.acknowledgment ≠ c.sendUnacknowledged) (hok : c.Acceptable segment.acknowledgment)
    (hla : ¬ (c.state = .lastAck ∧ c.AcksAll segment)) :
    c.onAcknowledgment segment = (c.afterAck segment, .next .accepted) := by
  unfold onAcknowledgment afterAck
  rw [if_neg (not_not.mpr hack), if_neg hdup, if_neg hdup, acknowledge_of_acceptable hok]
  by_cases hall : segment.acknowledgment = c.sendNext
  · have hacks : c.AcksAll segment := ⟨hdup, hall⟩
    have hla' : c.state ≠ .lastAck := fun h => hla ⟨h, hacks⟩
    by_cases hfw : c.state = .finWait1
    · simp [acked, hfw, hall, hacks]
    · simp [acked, hfw, hla']
  · have hacks : ¬ c.AcksAll segment := fun h => hall h.2
    simp [acked, hall, hacks]

end

theorem onAcknowledgment_cases (c : TcpConnection) (segment : TcpSegment)
    (hack : hasFlag segment.flags tcpFlagAck = true) :
    (¬ c.AckPasses segment ∧ c.onAcknowledgment segment = (c, .done (.error .invalidAcknowledgment))) ∨
    (c.AckPasses segment ∧ c.state = .lastAck ∧ c.AcksAll segment ∧ c.onAcknowledgment segment =
        ({ c.acked segment.acknowledgment with state := .closed }, .done (.ok .closed))) ∨
    (c.AckPasses segment ∧ ¬ (c.state = .lastAck ∧ c.AcksAll segment) ∧
      ∃ result, c.onAcknowledgment segment = (c.afterAck segment, .next result)) := by
  by_cases hdup : segment.acknowledgment = c.sendUnacknowledged
  · exact .inr (.inr ⟨.inl hdup, fun h => h.2.1 hdup, _, onAcknowledgment_duplicate hack hdup⟩)
  by_cases hok : c.Acceptable segment.acknowledgment
  · by_cases hla : c.state = .lastAck ∧ c.AcksAll segment
    · exact .inr (.inl ⟨.inr hok, hla.1, hla.2, onAcknowledgment_closing hack hok hla.1 hla.2⟩)
    · exact .inr (.inr ⟨.inr hok, hla, _, onAcknowledgment_fresh hack hdup hok hla⟩)
  · have hno : ¬ c.AckPasses segment := fun h => h.elim hdup hok
    exact .inl ⟨hno, onAcknowledgment_rejected hack hno⟩

/-! ## Text and FIN -/

/-- The payload of the segment is taken into the receive buffer. -/
def TakesText (c : TcpConnection) (segment : TcpSegment) : Prop :=
  segment.payload ≠ [] ∧ segment.sequence = c.receiveNext ∧
    usizeSaturatingAdd c.receiveBuffer.length segment.payload.length ≤ c.receiveCapacity
  deriving Decidable

/-- The payload of the segment is in order but does not fit. -/
def Overflows (c : TcpConnection) (segment : TcpSegment) : Prop :=
  segment.payload ≠ [] ∧ segment.sequence = c.receiveNext ∧
    usizeSaturatingAdd c.receiveBuffer.length segment.payload.length > c.receiveCapacity
  deriving Decidable

def withText (c : TcpConnection) (segment : TcpSegment) : TcpConnection :=
  { c with
    receiveBuffer := c.receiveBuffer ++ segment.payload,
    receiveNext := c.receiveNext + UInt32.ofNat segment.payload.length }

theorem onPayload_cases (c : TcpConnection) (segment : TcpSegment) (result : TcpReceiveResult) :
    (c.Overflows segment ∧ c.onPayload segment result = (c, .done (.error .receiveBufferFull))) ∨
    (c.TakesText segment ∧ c.onPayload segment result = (c.withText segment, .next .acknowledge)) ∨
    (¬ c.Overflows segment ∧ ¬ c.TakesText segment ∧ ∃ result', c.onPayload segment result = (c, .next result')) := by
  unfold onPayload Overflows TakesText
  by_cases hp : segment.payload = []
  · rw [if_pos hp]
    exact .inr (.inr ⟨fun h => h.1 hp, fun h => h.1 hp, result, rfl⟩)
  · rw [if_neg hp]
    by_cases hs : segment.sequence = c.receiveNext
    · rw [if_pos hs]
      split
      next hfull => exact .inl ⟨⟨hp, hs, hfull⟩, rfl⟩
      next hfits => exact .inr (.inl ⟨⟨hp, hs, not_lt.mp hfits⟩, rfl⟩)
    · rw [if_neg hs]
      refine .inr (.inr ⟨fun h => hs h.2.1, fun h => hs h.2.1, ?_⟩)
      split
      · exact ⟨_, rfl⟩
      · exact ⟨_, rfl⟩

def TakesFin (c : TcpConnection) (segment : TcpSegment) : Prop :=
  hasFlag segment.flags tcpFlagFin = true ∧
    segment.sequence + UInt32.ofNat segment.payload.length = c.receiveNext
  deriving Decidable

/-- The state after a FIN was taken in state `s`. -/
def finState : TcpState → TcpState
  | .finWait1 => .timeWait
  | .finWait2 => .timeWait
  | .established => .closeWait
  | s => s

def withFin (c : TcpConnection) (now : UInt64) : TcpConnection :=
  { c with
    receiveNext := c.receiveNext + 1,
    state := finState c.state,
    timeWaitUntil := if c.state = .finWait1 ∨ c.state = .finWait2 then some (saturatingAdd now 30000)
      else c.timeWaitUntil }

theorem onFin_cases (c : TcpConnection) (segment : TcpSegment) (now : UInt64) (result : TcpReceiveResult) :
    (c.TakesFin segment ∧ (c.onFin segment now result).1 = c.withFin now) ∨
    (¬ c.TakesFin segment ∧ (c.onFin segment now result).1 = c) := by
  unfold onFin TakesFin withFin
  by_cases hf : hasFlag segment.flags tcpFlagFin = true
  · rw [if_neg (not_not.mpr hf)]
    by_cases hs : segment.sequence + UInt32.ofNat segment.payload.length = c.receiveNext
    · rw [if_neg (not_not.mpr hs)]
      refine .inl ⟨⟨hf, hs⟩, ?_⟩
      cases hst : c.state <;> simp [finState]
    · rw [if_pos hs]
      exact .inr ⟨fun h => hs h.2, rfl⟩
  · rw [if_pos hf]
    exact .inr ⟨fun h => hf h.1, rfl⟩

/-! ## The stream stages together -/

/-- What the stream stages leave behind. The constructors' guards exclude one another. -/
inductive Streamed (c : TcpConnection) (segment : TcpSegment) (now : UInt64) : TcpConnection → Prop
  | rejected : ¬ c.AckPasses segment → Streamed c segment now c
  | closing : c.AckPasses segment → c.state = .lastAck → c.AcksAll segment →
      Streamed c segment now { c.acked segment.acknowledgment with state := .closed }
  | overflow : c.AckPasses segment → ¬ (c.state = .lastAck ∧ c.AcksAll segment) →
      (c.afterAck segment).Overflows segment → Streamed c segment now (c.afterAck segment)
  | quiet : c.AckPasses segment → ¬ (c.state = .lastAck ∧ c.AcksAll segment) →
      ¬ (c.afterAck segment).TakesText segment → ¬ (c.afterAck segment).TakesFin segment →
      Streamed c segment now (c.afterAck segment)
  | text : c.AckPasses segment → ¬ (c.state = .lastAck ∧ c.AcksAll segment) →
      (c.afterAck segment).TakesText segment → ¬ ((c.afterAck segment).withText segment).TakesFin segment →
      Streamed c segment now ((c.afterAck segment).withText segment)
  | fin : c.AckPasses segment → ¬ (c.state = .lastAck ∧ c.AcksAll segment) →
      ¬ (c.afterAck segment).Overflows segment → ¬ (c.afterAck segment).TakesText segment →
      (c.afterAck segment).TakesFin segment → Streamed c segment now ((c.afterAck segment).withFin now)
  | textFin : c.AckPasses segment → ¬ (c.state = .lastAck ∧ c.AcksAll segment) →
      (c.afterAck segment).TakesText segment → ((c.afterAck segment).withText segment).TakesFin segment →
      Streamed c segment now (((c.afterAck segment).withText segment).withFin now)

theorem onStream_streamed (c : TcpConnection) (segment : TcpSegment) (now : UInt64)
    (hack : hasFlag segment.flags tcpFlagAck = true) : Streamed c segment now (c.onStream segment now).1 := by
  unfold onStream
  rcases onAcknowledgment_cases c segment hack with ⟨hno, he⟩ | ⟨hyes, hla, hall, he⟩ | ⟨hyes, hla, r, he⟩
  · rw [he]
    exact .rejected hno
  · rw [he]
    exact .closing hyes hla hall
  · rw [he]
    dsimp only
    rcases onPayload_cases (c.afterAck segment) segment r with ⟨ho, he'⟩ | ⟨ht, he'⟩ | ⟨ho, ht, r', he'⟩
    · rw [he']
      exact .overflow hyes hla ho
    · rw [he']
      dsimp only
      rcases onFin_cases ((c.afterAck segment).withText segment) segment now .acknowledge with
        ⟨hf, he''⟩ | ⟨hf, he''⟩
      · rw [he'']
        exact .textFin hyes hla ht hf
      · rw [he'']
        exact .text hyes hla ht hf
    · rw [he']
      dsimp only
      rcases onFin_cases (c.afterAck segment) segment now r' with ⟨hf, he''⟩ | ⟨hf, he''⟩
      · rw [he'']
        exact .fin hyes hla ho ht hf
      · rw [he'']
        exact .quiet hyes hla ht hf

/-! ## Segments -/

/-- The segment gets past every check in front of the stream stages. -/
def ReachesStream (c : TcpConnection) (segment : TcpSegment) : Prop :=
  c.Synchronized ∧ hasFlag segment.flags tcpFlagRst = false ∧ hasFlag segment.flags tcpFlagSyn = false ∧
    hasFlag segment.flags tcpFlagAck = true ∧
    ¬ (segment.payload = [] ∧ hasFlag segment.flags tcpFlagFin = false ∧ segment.sequence ≠ c.receiveNext)
  deriving Decidable

/-- The reset in the segment is one the connection obeys. -/
def ObeysReset (c : TcpConnection) (segment : TcpSegment) : Prop :=
  hasFlag segment.flags tcpFlagRst = true ∧
    (c.state = .synSent → hasFlag segment.flags tcpFlagAck = true ∧ segment.acknowledgment = c.sendNext) ∧
    (c.state ≠ .synSent → segment.sequence = c.receiveNext)

def AnswersSyn (c : TcpConnection) (segment : TcpSegment) : Prop :=
  segment.flags &&& (tcpFlagSyn ||| tcpFlagAck) = tcpFlagSyn ||| tcpFlagAck ∧
    segment.acknowledgment = c.sendNext ∧ c.Acceptable segment.acknowledgment

def connected (c : TcpConnection) (segment : TcpSegment) : TcpConnection :=
  { c.acked segment.acknowledgment with
    receiveNext := segment.sequence + 1,
    peerWindow := segment.window,
    peerMss := match segment.options.maximumSegmentSize with
      | some mss => max mss 1
      | none => c.peerMss,
    state := .established }

def CompletesOpen (c : TcpConnection) (segment : TcpSegment) : Prop :=
  validateSegment c.tuple segment = .ok () ∧ hasFlag segment.flags tcpFlagRst = false ∧
    hasFlag segment.flags tcpFlagSyn = false ∧
    acceptableSequence c.receiveNext c.localWindow segment = true ∧
    hasFlag segment.flags tcpFlagAck = true ∧ segment.acknowledgment = c.sendNext ∧
    c.Acceptable segment.acknowledgment

/-- A passive open completed by `segment`, before its text is looked at. -/
def opened (c : TcpConnection) (segment : TcpSegment) : TcpConnection :=
  { c.acked segment.acknowledgment with state := .established, peerWindow := segment.window }

inductive Received (c : TcpConnection) (segment : TcpSegment) (now : UInt64) : TcpConnection → Prop
  | ignored : ¬ c.ReachesStream segment → ¬ (c.state = .synReceived ∧ c.CompletesOpen segment) →
      Received c segment now c
  | aborted : c.ObeysReset segment → Received c segment now c.abort
  | connected : c.state = .synSent → c.AnswersSyn segment → Received c segment now (c.connected segment)
  | streamed {c' : TcpConnection} : c.ReachesStream segment → Streamed c segment now c' →
      Received c segment now c'
  | opened : c.state = .synReceived → c.CompletesOpen segment →
      Received c segment now (c.opened segment)
  | openedStream {c' : TcpConnection} : c.state = .synReceived → c.CompletesOpen segment →
      Streamed (c.opened segment) ((c.opened segment).trimOverlap segment) now c' →
      Received c segment now c'

section

variable (c : TcpConnection) (segment : TcpSegment)

theorem onReset_cases (hrst : hasFlag segment.flags tcpFlagRst = true) :
    (c.onReset segment).1 = c ∨ (c.ObeysReset segment ∧ (c.onReset segment).1 = c.abort) := by
  unfold onReset
  split
  · exact .inl rfl
  next h =>
    obtain ⟨h1, h2⟩ := not_or.mp h
    refine .inr ⟨⟨hrst, ?_, ?_⟩, rfl⟩
    · intro hs
      obtain ⟨ha, hb⟩ := not_or.mp (fun hx => h1 ⟨hs, hx⟩)
      exact ⟨not_not.mp ha, not_not.mp hb⟩
    · intro hs
      exact not_not.mp (fun hx => h2 ⟨hs, hx⟩)

theorem onSynSent_cases : (c.onSynSent segment).1 = c ∨
      (c.AnswersSyn segment ∧ (c.onSynSent segment).1 = c.connected segment) := by
  unfold onSynSent
  split
  · exact .inl rfl
  next h =>
    obtain ⟨h1, h2⟩ := not_or.mp h
    by_cases hok : c.Acceptable segment.acknowledgment
    · rw [acknowledge_of_acceptable hok]
      exact .inr ⟨⟨not_not.mp h1, not_not.mp h2, hok⟩, rfl⟩
    · rw [acknowledge_of_not_acceptable hok]
      exact .inl rfl

theorem onSegmentActive_received (now : UInt64)
    (hsr : c.state ≠ .synReceived) : Received c segment now (c.onSegmentActive segment now).1 := by
  have hopen : ¬ (c.state = .synReceived ∧ c.CompletesOpen segment) := fun h => hsr h.1
  unfold onSegmentActive
  split
  next hrst =>
    rcases onReset_cases c segment hrst with he | ⟨hobey, he⟩
    · rw [he]
      exact .ignored (fun h => by rw [h.2.1] at hrst; cases hrst) hopen
    · rw [he]
      exact .aborted hobey
  split
  next _ hss =>
    rcases onSynSent_cases c segment with he | ⟨hans, he⟩
    · rw [he]
      exact .ignored (fun h => by have := h.1; simp [Synchronized, hss] at this) hopen
    · rw [he]
      exact .connected hss hans
  split
  next hsync => exact .ignored (fun h => hsync h.1) hopen
  split
  next hsyn => exact .ignored (fun h => by rw [h.2.2.1] at hsyn; cases hsyn) hopen
  split
  next hack => exact .ignored (fun h => hack h.2.2.2.1) hopen
  split
  next hout => exact .ignored (fun h => h.2.2.2.2 ⟨hout.1, by simpa using hout.2.1, hout.2.2⟩) hopen
  next hrst _ hsync hsyn hack hout =>
    refine .streamed ⟨not_not.mp hsync, by simpa using hrst, by simpa using hsyn, not_not.mp hack, ?_⟩
      (onStream_streamed c segment now (not_not.mp hack))
    rintro ⟨h1, h2, h3⟩
    exact hout ⟨h1, by simp [h2], h3⟩

@[simp] theorem trimOverlap_flags : (c.trimOverlap segment).flags = segment.flags := by
  unfold trimOverlap
  split <;> rfl

@[simp] theorem trimOverlap_acknowledgment : (c.trimOverlap segment).acknowledgment = segment.acknowledgment := by
  unfold trimOverlap
  split <;> rfl

theorem receivePassive_received (now : UInt64)
    (hsr : c.state = .synReceived) : Received c segment now (c.receivePassive segment now).1 := by
  have hstream : ¬ c.ReachesStream segment := fun h => by have := h.1; simp [Synchronized, hsr] at this
  unfold receivePassive
  split
  next hv => exact .ignored hstream (fun h => by rw [h.2.1] at hv; cases hv)
  rename_i hv
  split
  next hrst =>
    split
    · exact .ignored hstream (fun h => by rw [h.2.2.1] at hrst; cases hrst)
    next hseq =>
      refine .aborted ⟨hrst, fun h => ?_, fun _ => not_not.mp hseq⟩
      rw [hsr] at h
      cases h
  rename_i hrst
  split
  next hsyn =>
    have hno : ¬ (c.state = .synReceived ∧ c.CompletesOpen segment) :=
      fun h => by rw [h.2.2.2.1] at hsyn; cases hsyn
    split
    · exact .ignored hstream hno
    · split
      · exact .ignored hstream hno
      · exact .ignored hstream hno
  rename_i hsyn
  split
  next hacc => exact .ignored hstream (fun h => by rw [h.2.2.2.2.1] at hacc; cases hacc)
  rename_i hacc
  split
  next hack => exact .ignored hstream (fun h => hack.elim (fun hx => hx h.2.2.2.2.2.1) (fun hx => hx h.2.2.2.2.2.2.1))
  rename_i hack
  obtain ⟨hack, hnext⟩ := not_or.mp hack
  by_cases hok : c.Acceptable segment.acknowledgment
  · have hcomp : c.CompletesOpen segment :=
      ⟨hv, by simpa using hrst, by simpa using hsyn, by simpa using hacc, not_not.mp hack, not_not.mp hnext, hok⟩
    rw [acknowledge_of_acceptable hok]
    change Received c segment now ((c.opened segment).onSegmentActive ((c.opened segment).trimOverlap segment) now).1
    have hr := onSegmentActive_received (c.opened segment) ((c.opened segment).trimOverlap segment) now
      (by simp [opened])
    generalize ((c.opened segment).onSegmentActive ((c.opened segment).trimOverlap segment) now).1 = c' at hr ⊢
    have hest : (c.opened segment).state = .established := rfl
    generalize hd : (c.opened segment).trimOverlap segment = trimmed at hr
    generalize ho : c.opened segment = inner at hr hest hd
    -- the inner call runs in Established on a segment without RST
    cases hr with
    | ignored =>
      rw [← ho]
      exact .opened hsr hcomp
    | aborted h =>
      have := h.1
      rw [← hd, trimOverlap_flags, hcomp.2.1] at this
      cases this
    | connected h | opened h | openedStream h =>
      rw [hest] at h
      cases h
    | streamed _ h =>
      subst ho hd
      exact .openedStream hsr hcomp h
  · rw [acknowledge_of_not_acceptable hok]
    exact .ignored hstream (fun h => hok h.2.2.2.2.2.2.2)

theorem onSegment_received (now : UInt64) : Received c segment now (c.onSegment segment now).1 := by
  unfold onSegment
  split
  next h => exact receivePassive_received c segment now h
  next h => exact onSegmentActive_received c segment now h

end

/-! ## Transmission -/

def stamped (segment : OutstandingSegment) (now : UInt64) (retries : UInt8) : OutstandingSegment :=
  { segment with sentAt := some now, retries }

def withFront (c : TcpConnection) (segment : OutstandingSegment) (rest : List OutstandingSegment) : TcpConnection :=
  { c with outstanding := segment :: rest }

def exhausted (c : TcpConnection) : TcpConnection :=
  { c with receiveBuffer := if c.state = .synReceived then [] else c.receiveBuffer, state := .reset }

def withData (c : TcpConnection) (now : UInt64) : TcpConnection :=
  { c with
    sendBuffer := c.sendBuffer.drop (min c.maximumPayload c.sendBuffer.length),
    sendNext := (c.dataSegment now).sequenceEnd,
    outstanding := c.outstanding ++ [c.dataSegment now] }

def withFinSent (c : TcpConnection) (now : UInt64) : TcpConnection :=
  { c with
    sendNext := c.sendNext + 1,
    state := if c.state = .closeWait then .lastAck else .finWait1,
    outstanding := c.outstanding ++ [c.finSegment now] }

inductive Polled (c : TcpConnection) (now : UInt64) :
    TcpConnection × Except TcpConnectionError (Option TcpTransmit) → Prop
  | silent : Polled c now (c, .ok none)
  | first {segment : OutstandingSegment} {rest : List OutstandingSegment} :
      c.outstanding = segment :: rest → segment.sentAt = none →
      Polled c now (c.withFront (stamped segment now segment.retries) rest,
        .ok (some (transmitFrom segment c.localWindow false)))
  | again {segment : OutstandingSegment} {rest : List OutstandingSegment} {sentAt : UInt64} :
      c.outstanding = segment :: rest → segment.sentAt = some sentAt →
      c.retransmitDelay segment ≤ saturatingSub now sentAt → segment.retries < c.retryLimit →
      Polled c now (c.withFront (stamped segment now (saturatingAdd8 segment.retries 1)) rest,
        .ok (some (transmitFrom segment c.localWindow true)))
  | exhausted {segment : OutstandingSegment} {rest : List OutstandingSegment} {sentAt : UInt64} :
      c.outstanding = segment :: rest → segment.sentAt = some sentAt → c.retryLimit ≤ segment.retries →
      Polled c now (c.exhausted, .error .retryLimit)
  | data : c.outstanding = [] → c.canSend → c.sendBuffer ≠ [] → c.maximumPayload ≠ 0 →
      Polled c now (c.withData now, .ok (some (transmitFrom (c.dataSegment now) c.localWindow false)))
  | fin : c.outstanding = [] → c.canSend → c.sendBuffer = [] → c.closeRequested = true →
      Polled c now (c.withFinSent now, .ok (some (transmitFrom (c.finSegment now) c.localWindow false)))

theorem pollOutstanding_polled (c : TcpConnection) (segment : OutstandingSegment)
    (rest : List OutstandingSegment) (now : UInt64) (hout : c.outstanding = segment :: rest) :
    Polled c now (c.pollOutstanding segment rest now) := by
  unfold pollOutstanding
  split
  next hsent => exact .first hout hsent
  next sentAt hsent =>
    split
    · exact .silent
    next hdue =>
      split
      next hlimit => exact .exhausted hout hsent hlimit
      next hlimit => exact .again hout hsent (UInt64.not_lt.mp hdue) (UInt8.not_le.mp hlimit)

theorem pollTransmit_polled (c : TcpConnection) (now : UInt64) : Polled c now (c.pollTransmit now) := by
  unfold pollTransmit
  split
  next segment rest hout => exact pollOutstanding_polled c segment rest now hout
  next hout =>
    split
    next h =>
      unfold pollData
      split
      · exact .silent
      · split
        · exact .silent
        next hmax => exact .data hout h.1 h.2 hmax
    · split
      next h => exact .fin hout h.2.2 h.2.1 h.1
      · exact .silent

/-! ## The send side

`on_segment` touches the send side only by abandoning it or by one acknowledgment. -/

structure SameSend (c c' : TcpConnection) : Prop where
  sendUnacknowledged : c'.sendUnacknowledged = c.sendUnacknowledged
  sendNext : c'.sendNext = c.sendNext
  sendBuffer : c'.sendBuffer = c.sendBuffer
  outstanding : c'.outstanding = c.outstanding
  sendCapacity : c'.sendCapacity = c.sendCapacity

theorem SameSend.refl (c : TcpConnection) : SameSend c c := ⟨rfl, rfl, rfl, rfl, rfl⟩

variable {c' c'' : TcpConnection}

theorem SameSend.trans (h : SameSend c c') (h' : SameSend c' c'') : SameSend c c'' :=
  ⟨h'.1.trans h.1, h'.2.trans h.2, h'.3.trans h.3, h'.4.trans h.4, h'.5.trans h.5⟩

/-- The send side is the one before, or the one after accepting `segment.acknowledgment`. -/
def SendAcked (c : TcpConnection) (segment : TcpSegment) (c' : TcpConnection) : Prop :=
  SameSend c c' ∨ (segment.acknowledgment ≠ c.sendUnacknowledged ∧
    c.Acceptable segment.acknowledgment ∧ SameSend (c.acked segment.acknowledgment) c')

theorem afterAck_send (h : c.AckPasses segment) : SendAcked c segment (c.afterAck segment) := by
  by_cases hdup : segment.acknowledgment = c.sendUnacknowledged
  · left
    unfold afterAck
    rw [if_pos hdup]
    exact ⟨rfl, rfl, rfl, rfl, rfl⟩
  · right
    refine ⟨hdup, h.resolve_left hdup, ?_⟩
    unfold afterAck
    rw [if_neg hdup]
    exact ⟨rfl, rfl, rfl, rfl, rfl⟩

theorem SendAcked.of_same (h : SendAcked c segment c') (h' : SameSend c' c'') : SendAcked c segment c'' := by
  rcases h with h | ⟨hne, hok, h⟩
  · exact .inl (h.trans h')
  · exact .inr ⟨hne, hok, h.trans h'⟩

variable {now : UInt64}

theorem Streamed.send (h : Streamed c segment now c') : SendAcked c segment c' := by
  cases h with
  | rejected => exact .inl (.refl c)
  | closing hp _ hall => exact .inr ⟨hall.1, hp.resolve_left hall.1, ⟨rfl, rfl, rfl, rfl, rfl⟩⟩
  | overflow hp | quiet hp => exact afterAck_send hp
  | text hp | fin hp | textFin hp => exact (afterAck_send hp).of_same ⟨rfl, rfl, rfl, rfl, rfl⟩

theorem Received.send (h : Received c segment now c') : (c.ObeysReset segment ∧ c' = c.abort) ∨ SameSend c c' ∨
      (hasFlag segment.flags tcpFlagAck = true ∧ c.Acceptable segment.acknowledgment ∧
        SameSend (c.acked segment.acknowledgment) c') := by
  cases h with
  | ignored => exact .inr (.inl (.refl c))
  | aborted ho => exact .inl ⟨ho, rfl⟩
  | connected _ hans =>
    exact .inr (.inr ⟨hasFlag_of_synAck hans.1, hans.2.2, ⟨rfl, rfl, rfl, rfl, rfl⟩⟩)
  | streamed hr hs =>
    rcases hs.send with h | ⟨_, hok, h⟩
    · exact .inr (.inl h)
    · exact .inr (.inr ⟨hr.2.2.2.1, hok, h⟩)
  | opened _ hcomp =>
    exact .inr (.inr ⟨hcomp.2.2.2.2.1, hcomp.2.2.2.2.2.2, ⟨rfl, rfl, rfl, rfl, rfl⟩⟩)
  | openedStream _ hcomp hs =>
    -- the stream stages see the acknowledgment a second time, as a duplicate
    rcases hs.send with h | ⟨hne, _, _⟩
    · exact .inr (.inr ⟨hcomp.2.2.2.2.1, hcomp.2.2.2.2.2.2, ⟨h.1, h.2, h.3, h.4, h.5⟩⟩)
    · exact absurd (trimOverlap_acknowledgment _ _) hne

theorem Received.acked_by (h : Received c segment now c') (hne : c'.sendUnacknowledged ≠ c.sendUnacknowledged) :
    c.state = .synSent ∨ (c.state = .synReceived ∧ c.CompletesOpen segment) ∨ c.ReachesStream segment := by
  cases h with
  | ignored | aborted => exact absurd rfl hne
  | connected hs => exact .inl hs
  | streamed hr => exact .inr (.inr hr)
  | opened hs hcomp | openedStream hs hcomp => exact .inr (.inl ⟨hs, hcomp⟩)

/-! ## The segments a connection forms -/

section

variable (c : TcpConnection)

theorem dataSegment_sequenceEnd (now : UInt64) :
    (c.dataSegment now).sequenceEnd = adv c.sendNext (c.dataSegment now).payload.length := by
  have hsyn : flagUnit (tcpFlagAck ||| tcpFlagPsh) tcpFlagSyn = 0 := by decide
  have hfin : flagUnit (tcpFlagAck ||| tcpFlagPsh) tcpFlagFin = 0 := by decide
  simp only [OutstandingSegment.sequenceEnd, dataSegment, hsyn, hfin, UInt32.add_zero, add_ofNat]

theorem finSegment_sequenceEnd (now : UInt64) : (c.finSegment now).sequenceEnd = adv c.sendNext 1 := by
  have hsyn : flagUnit (tcpFlagFin ||| tcpFlagAck) tcpFlagSyn = 0 := by decide
  have hfin : flagUnit (tcpFlagFin ||| tcpFlagAck) tcpFlagFin = 1 := by decide
  simp only [OutstandingSegment.sequenceEnd, finSegment, hsyn, hfin, List.length_nil, UInt32.add_zero,
    add_ofNat, adv_zero, add_one]

theorem dataSegment_length (now : UInt64) :
    (c.dataSegment now).payload.length = min c.maximumPayload c.sendBuffer.length := by
  simp [dataSegment]

theorem maximumPayload_le : c.maximumPayload ≤ min (min c.localMss.toNat c.peerMss.toNat) c.peerWindow.toNat := by
  have hmin : ∀ a b : UInt16, (min a b).toNat ≤ min a.toNat b.toNat := by
    intro a b
    rw [UInt16.min_def]
    split
    next h => exact le_min le_rfl (UInt16.le_iff_toNat_le.mp h)
    next h =>
      have hlt : b.toNat < a.toNat := UInt16.lt_iff_toNat_lt.mp (UInt16.not_le.mp h)
      exact le_min hlt.le le_rfl
  unfold maximumPayload
  have h1 := hmin (min c.localMss c.peerMss) c.peerWindow
  have h2 := hmin c.localMss c.peerMss
  omega

theorem maximumPayload_lt : c.maximumPayload < 2 ^ 16 := UInt16.toNat_lt _

end

end MochiSyscalls.NetworkStack.TcpConnection
