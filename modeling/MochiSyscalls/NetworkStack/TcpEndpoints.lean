import MochiSyscalls.NetworkStack.TcpSender
import MochiSyscalls.Foundations.Pipe

/-! # Two connections and the network between them

One connection from `try_connect`, one from `accept_syn` of its SYN, and a network that may deliver
any transmission either of them ever made, at any time and any number of times. One direction is a
refinement of the byte pipe: what the sender accepted is written, what the receiver appended has
arrived, and what it handed out is read.

The two directions do not depend on each other's acknowledgments: a receiver takes text only at
exactly its `receive_next`, and every segment the sender forms lies on its stream. -/

namespace MochiSyscalls.NetworkStack
open Foundations Words Serial Runs List TcpConnection Bool
set_option autoImplicit false

/-- A transmission as its receiver sees it; `tuple` is the sender's. -/
def TcpTransmit.toSegment (t : TcpTransmit) (tuple : TcpTuple) : TcpSegment :=
  { sourcePort := tuple.localPort, destinationPort := tuple.remotePort, sequence := t.sequence,
    acknowledgment := t.acknowledgment, flags := t.flags, window := t.window, urgentPointer := 0,
    options := t.options, payload := t.payload }

def TcpTuple.reversed (tuple : TcpTuple) : TcpTuple :=
  { localAddress := tuple.remoteAddress, localPort := tuple.remotePort,
    remoteAddress := tuple.localAddress, remotePort := tuple.localPort }

/-! ## The system -/

inductive StreamOp where
  | queueSend (bytes : List UInt8)
  | requestClose
  | pollTransmit (now : UInt64)
  | acknowledgment
  | receive (size : ℕ)
  | tick (now : UInt64)
  deriving DecidableEq, Repr

def StreamOp.toOp : StreamOp → TcpOp
  | .queueSend bytes => .queueSend bytes
  | .requestClose => .requestClose
  | .pollTransmit now => .pollTransmit now
  | .acknowledgment => .acknowledgment
  | .receive size => .receive size
  | .tick now => .tick now

inductive Side where
  | active
  | passive
  deriving DecidableEq, Repr

structure TcpEndpoints where
  active : TcpHistory
  passive : TcpHistory
  deriving DecidableEq, Repr

inductive TcpMove where
  | act (side : Side) (op : StreamOp)
  /-- transmission number `index` of the peer arrives at `side` -/
  | deliver (side : Side) (index : ℕ) (now : UInt64)
  deriving DecidableEq, Repr

namespace TcpEndpoints

variable (e : TcpEndpoints)

def host : Side → TcpHistory
  | .active => e.active
  | .passive => e.passive

def peer : Side → TcpHistory
  | .active => e.passive
  | .passive => e.active

def withHost (h : TcpHistory) : Side → TcpEndpoints
  | .active => { e with active := h }
  | .passive => { e with passive := h }

def arrival (h peer : TcpHistory) (index : ℕ) (now : UInt64) : TcpHistory :=
  match peer.transmitted[index]? with
  | some t => h.step (.onSegment (t.toSegment peer.connection.tuple) now)
  | none => h

def step : TcpMove → TcpEndpoints
  | .act side op => e.withHost ((e.host side).step op.toOp) side
  | .deliver side index now => e.withHost (arrival (e.host side) (e.peer side) index now) side

/-- A connection from `try_connect` after the operations `ops`, and one accepted from a SYN it sent. -/
inductive Started (ops : List StreamOp) : TcpEndpoints → Prop
  | intro {alloc alloc' : Allocator} {handle owner handle' owner' : UInt64} {tuple : TcpTuple}
      {initialSequence initialSequence' : UInt32} {localMss : UInt16} {sendCapacity receiveCapacity : ℕ}
      {retransmitTimeout : UInt64} {retryLimit : UInt8} {config : TcpListenConfig} {c d : TcpConnection}
      {t : TcpTransmit} :
      TcpConnection.tryConnect alloc handle owner tuple initialSequence localMss sendCapacity
        receiveCapacity retransmitTimeout retryLimit = .ok c →
      t ∈ (run TcpHistory.step (.start c none) (ops.map StreamOp.toOp)).transmitted →
      TcpConnection.acceptSyn alloc' handle' owner' tuple.reversed initialSequence' config
        (t.toSegment tuple) = .ok d →
      Started ops
        { active := run TcpHistory.step (.start c none) (ops.map StreamOp.toOp),
          passive := .start d (some t.sequence) }

end TcpEndpoints

namespace TcpHistory

variable (z : TcpHistory) (op : StreamOp)

theorem toOp_orderly : Orderly op.toOp := by cases op <;> exact trivial

theorem toOp_local : Local op.toOp := by cases op <;> nofun

/-! ## What the local operations send -/

def Marked (s s' : OutstandingSegment) : Prop := ∃ sentAt retries, s' = { s with sentAt, retries }

theorem Marked.refl (s : OutstandingSegment) : Marked s s := ⟨s.sentAt, s.retries, rfl⟩

theorem step_local_queue {s' : OutstandingSegment} (hm : s' ∈ (z.step op.toOp).connection.outstanding) :
    (∃ s ∈ z.connection.outstanding, Marked s s') ∨ (z.connection.canSend ∧ s'.sequence = z.connection.sendNext ∧
        s'.acknowledgment = z.connection.receiveNext) := by
  have same : ∀ {c : TcpConnection}, c.outstanding = z.connection.outstanding → s' ∈ c.outstanding →
      ∃ s ∈ z.connection.outstanding, Marked s s' := by
    intro c hc hx
    exact ⟨s', hc ▸ hx, .refl s'⟩
  cases op with
  | queueSend bytes =>
    obtain ⟨_, _, he⟩ | ⟨e, he⟩ := queueSend_cases z.connection bytes
    · simp only [StreamOp.toOp, step, he] at hm
      exact .inl (same rfl hm)
    · simp only [StreamOp.toOp, step, he] at hm
      exact .inl (same rfl hm)
  | requestClose => exact .inl (same (requestClose_same _).outstanding hm)
  | pollTransmit now =>
    have hp := pollTransmit_polled z.connection now
    change s' ∈ (z.connection.pollTransmit now).1.outstanding at hm
    generalize z.connection.pollTransmit now = p at hp hm
    have front : ∀ {segment : OutstandingSegment} {rest : List OutstandingSegment} {retries : UInt8},
        z.connection.outstanding = segment :: rest → s' ∈ stamped segment now retries :: rest →
        ∃ s ∈ z.connection.outstanding, Marked s s' := by
      intro segment rest retries hout hx
      obtain rfl | hx := mem_cons.mp hx
      · exact ⟨segment, by rw [hout]; exact mem_cons_self .., some now, retries, rfl⟩
      · exact ⟨s', by rw [hout]; exact mem_cons_of_mem _ hx, .refl s'⟩
    cases hp with
    | silent | exhausted => exact .inl (same rfl hm)
    | first hout | again hout => exact .inl (front hout hm)
    | data hidle hcan =>
      simp only [withData, hidle, nil_append, mem_singleton] at hm
      rw [hm]
      exact .inr ⟨hcan, rfl, rfl⟩
    | fin hidle hcan =>
      simp only [withFinSent, hidle, nil_append, mem_singleton] at hm
      rw [hm]
      exact .inr ⟨hcan, rfl, rfl⟩
  | acknowledgment => exact .inl (same rfl hm)
  | receive size => exact .inl (same (receive_same _ size).outstanding hm)
  | tick now => exact .inl (same (tick_same _ now).outstanding hm)

theorem step_local_wire {t : TcpTransmit} (ht : t ∈ (z.step op.toOp).transmitted) :
    t ∈ z.transmitted ∨ (op = .acknowledgment ∧ t = z.connection.acknowledgment) ∨
      ∃ s ∈ (z.step op.toOp).connection.outstanding, ∃ window retransmission,
        t = TcpConnection.transmitFrom s window retransmission := by
  cases op with
  | pollTransmit now =>
    have hp := pollTransmit_polled z.connection now
    simp only [StreamOp.toOp, step] at ht ⊢
    generalize z.connection.pollTransmit now = p at hp ht ⊢
    obtain ht | ht := mem_append.mp ht
    · exact .inl ht
    · refine .inr (.inr ?_)
      cases hp with
      | silent | exhausted => cases ht
      | first | again => exact ⟨_, mem_cons_self .., _, _, mem_singleton.mp ht⟩
      | data | fin =>
        exact ⟨_, mem_append_right _ (mem_singleton.mpr rfl), _, _, mem_singleton.mp ht⟩
  | acknowledgment =>
    obtain ht | ht := mem_append.mp ht
    · exact .inl ht
    · exact .inr (.inl ⟨rfl, mem_singleton.mp ht⟩)
  | queueSend bytes | requestClose | receive size | tick now => exact .inl ht

theorem step_local_send : (z.step op.toOp).connection.sendUnacknowledged = z.connection.sendUnacknowledged ∧
      z.sentLength ≤ (z.step op.toOp).sentLength := by
  have same : ∀ {h : TcpHistory}, h.accepted = z.accepted → TcpConnection.SameSend z.connection h.connection →
      h.connection.sendUnacknowledged = z.connection.sendUnacknowledged ∧ z.sentLength ≤ h.sentLength := by
    intro h hacc hsame
    exact ⟨hsame.sendUnacknowledged, by rw [sentLength, sentLength, hacc, hsame.sendBuffer]⟩
  cases op with
  | queueSend bytes =>
    obtain ⟨_, _, he⟩ | ⟨e, he⟩ := queueSend_cases z.connection bytes
    · simp only [StreamOp.toOp, step, he, sentLength, length_append]
      exact ⟨trivial, by omega⟩
    · simp only [StreamOp.toOp, step, he]
      exact ⟨trivial, le_rfl⟩
  | requestClose => exact same rfl (requestClose_same _)
  | pollTransmit now =>
    have hp := pollTransmit_polled z.connection now
    simp only [StreamOp.toOp, step, sentLength]
    generalize z.connection.pollTransmit now = p at hp ⊢
    cases hp with
    | silent | first | again | exhausted | fin => exact ⟨rfl, le_rfl⟩
    | data =>
      refine ⟨rfl, Nat.sub_le_sub_left ?_ _⟩
      simp [withData]
  | acknowledgment => exact ⟨rfl, le_rfl⟩
  | receive size => exact same rfl (receive_same _ size)
  | tick now => exact same rfl (tick_same _ now)

theorem step_segment_send {segment : TcpSegment} (hrst : hasFlag segment.flags tcpFlagRst = false) (now : UInt64) :
    (∀ s ∈ (z.step (.onSegment segment now)).connection.outstanding, s ∈ z.connection.outstanding) ∧
      (z.step (.onSegment segment now)).sentLength = z.sentLength ∧
      ((z.step (.onSegment segment now)).connection.sendUnacknowledged = z.connection.sendUnacknowledged ∨
        (hasFlag segment.flags tcpFlagAck = true ∧ z.connection.Acceptable segment.acknowledgment ∧
          (z.step (.onSegment segment now)).connection.sendUnacknowledged = segment.acknowledgment)) := by
  obtain ⟨ho, _⟩ | hsame | ⟨hack, hok, hsame⟩ :=
    (onSegment_received z.connection segment now).send
  · rw [ho.1] at hrst
    cases hrst
  · refine ⟨fun s hm => hsame.outstanding ▸ hm, ?_, .inl hsame.sendUnacknowledged⟩
    exact congrArg (z.accepted.length - length ·) hsame.sendBuffer
  · refine ⟨fun s hm => ?_, ?_, .inr ⟨hack, hok, hsame.sendUnacknowledged⟩⟩
    · have hm' : s ∈ (z.connection.acked segment.acknowledgment).outstanding := hsame.outstanding ▸ hm
      exact (dropWhile_suffix _).subset hm'
    · exact congrArg (z.accepted.length - length ·) hsame.sendBuffer

/-! ## The pipe of one direction -/

def pipe (x y : TcpHistory) : Pipe.State UInt8 :=
  { written := x.accepted, arrived := y.appended, read := y.delivered, ended := x.finSent, eof := y.finConsumed }

/-- `y` is the receiver of the stream of `x`, whose initial sequence number is `iss`. -/
structure Reading (iss : UInt32) (x y : TcpHistory) : Prop where
  book : y.FinBook
  initial : ∀ i, y.peerInitial = some i → i = iss
  known : y.connection.Receiving → y.peerInitial = some iss
  counted : y.Counted
  buffer : y.delivered ++ y.connection.receiveBuffer = y.appended
  opening : y.connection.state = .synReceived → y.appended = []
  safe : Pipe.Safe (pipe x y)

/-! ## The writing end -/

theorem step_writes (x : TcpHistory) (op : TcpOp) {iss : UInt32} (hs : Sender iss x) :
    ∃ bytes, (x.step op).accepted = x.accepted ++ bytes ∧
      (x.finSent = true → bytes = [] ∧ (x.step op).finSent = true) := by
  have same : ∀ h : TcpHistory, h.accepted = x.accepted → x.transmitted <+: h.transmitted →
      ∃ bytes, h.accepted = x.accepted ++ bytes ∧ (x.finSent = true → bytes = [] ∧ h.finSent = true) := by
    intro h hacc ⟨rest, hrest⟩
    refine ⟨[], by rw [hacc, append_nil], fun hf => ⟨rfl, ?_⟩⟩
    unfold finSent at hf ⊢
    rw [← hrest, any_append, hf, Bool.true_or]
  cases op with
  | queueSend bytes =>
    obtain ⟨hcan, _, he⟩ | ⟨e, he⟩ := queueSend_cases x.connection bytes
    · refine ⟨bytes, by simp only [step, he], fun hf => ?_⟩
      rw [hs.open_of_canSend hcan] at hf
      cases hf
    · exact same _ (by simp only [step, he]) (prefix_refl _)
  | requestClose | onSegment segment now | receive size | discardReceived | tick now | abort =>
    exact same _ rfl (prefix_refl _)
  | pollTransmit now | acknowledgment => exact same _ rfl (prefix_append _ _)

theorem pipe_write {iss : UInt32} {x : TcpHistory} (hs : Sender iss x) (y : TcpHistory) (op : TcpOp) :
    Pipe.Steps (pipe x y) (pipe (x.step op) y) := by
  obtain ⟨bytes, hacc, hend⟩ := step_writes x op hs
  have h := Pipe.steps_write (pipe x y) bytes (x.step op).finSent hend
  have he : pipe (x.step op) y =
      { pipe x y with written := (pipe x y).written ++ bytes, ended := (x.step op).finSent } := by
    simp only [pipe, hacc]
  rw [he]
  exact h

theorem Reading.write {iss : UInt32} {x y : TcpHistory} (hr : Reading iss x y) (hs : Sender iss x) (op : TcpOp) :
    Reading iss (x.step op) y :=
  { hr with safe := (pipe_write hs y op).safe hr.safe }

/-! ## The reading end, without a segment -/

theorem step_local_buffer (y : TcpHistory) (op : StreamOp) (hb : y.delivered ++ y.connection.receiveBuffer = y.appended)
    (ho : y.connection.state = .synReceived → y.appended = []) :
    ∃ bytes, (y.step op.toOp).delivered = y.delivered ++ bytes ∧
      y.delivered ++ bytes ++ (y.step op.toOp).connection.receiveBuffer = y.appended := by
  have same : ∀ h : TcpHistory, h.delivered = y.delivered → h.connection.receiveBuffer = y.connection.receiveBuffer →
      ∃ bytes, h.delivered = y.delivered ++ bytes ∧
        y.delivered ++ bytes ++ h.connection.receiveBuffer = y.appended := by
    intro h hd hbuf
    refine ⟨[], by rw [hd, append_nil], ?_⟩
    rw [hbuf, append_nil, hb]
  cases op with
  | queueSend bytes =>
    obtain ⟨_, _, he⟩ | ⟨e, he⟩ := queueSend_cases y.connection bytes
    · exact same _ rfl (by simp only [StreamOp.toOp, step, he])
    · exact same _ rfl (by simp only [StreamOp.toOp, step, he])
  | requestClose =>
    refine same _ rfl ?_
    simp only [StreamOp.toOp, step, requestClose]
    split <;> rfl
  | pollTransmit now =>
    have hp := pollTransmit_polled y.connection now
    refine same (y.step (.pollTransmit now)) rfl ?_
    change (y.connection.pollTransmit now).1.receiveBuffer = _
    generalize y.connection.pollTransmit now = p at hp ⊢
    cases hp with
    | silent | first | again | data | fin => rfl
    | exhausted =>
      -- SYN text is dropped with an embryonic connection; here there is none
      change (if y.connection.state = .synReceived then [] else _) = _
      split
      next hsr =>
        rw [ho hsr] at hb
        exact (append_eq_nil_iff.mp hb).2.symm
      · rfl
  | acknowledgment => exact same _ rfl rfl
  | receive size =>
    refine ⟨(y.connection.receive size).2, rfl, ?_⟩
    simp only [StreamOp.toOp, step, receive]
    split
    · rw [append_nil, hb]
    · rw [append_assoc, take_append_drop, hb]
  | tick now =>
    refine same _ rfl ?_
    obtain he | ⟨_, _, _, _, he⟩ := tick_cases y.connection now
    · simp only [StreamOp.toOp, step, he]
    · simp only [StreamOp.toOp, step, he]

theorem receiving_before {h : TcpHistory} {op : TcpOp} (hop : Local op)
    (hr : (h.step op).connection.Receiving) : h.connection.Receiving := by
  unfold TcpConnection.Receiving TcpConnection.Synchronized at hr ⊢
  obtain he | he | he := step_local_state h op hop
  · rwa [he] at hr
  · rw [he] at hr
    simp at hr
  · revert hr he
    generalize (h.step op).connection.state = s'
    cases h.connection.state <;> cases s' <;> decide

theorem pipe_read {x y : TcpHistory} {iss : UInt32} (hr : Reading iss x y) (op : StreamOp) :
    Pipe.Steps (pipe x y) (pipe x (y.step op.toOp)) := by
  obtain ⟨bytes, hdel, hbuf⟩ := step_local_buffer y op hr.buffer hr.opening
  obtain ⟨_, happ, hfin, _⟩ := step_local_receive y op.toOp (toOp_local op)
  have he : pipe x (y.step op.toOp) = { pipe x y with read := (pipe x y).read ++ bytes } := by
    simp only [pipe, happ, hfin, hdel]
  rw [he]
  exact .single (.read _ bytes ⟨_, hbuf⟩)

theorem Reading.act {iss : UInt32} {x y : TcpHistory} (hr : Reading iss x y) (op : StreamOp) :
    Reading iss x (y.step op.toOp) := by
  have hop := toOp_local op
  obtain ⟨hnext, happ, hfin, hpeer⟩ := step_local_receive y op.toOp hop
  obtain ⟨bytes, hdel, hbuf⟩ := step_local_buffer y op hr.buffer hr.opening
  refine ⟨step_finBook y _ hr.book, ?_, ?_, ?_, ?_, ?_, (pipe_read hr op).safe hr.safe⟩
  · rw [hpeer]
    exact hr.initial
  · intro hrecv
    rw [hpeer]
    exact hr.known (receiving_before hop hrecv)
  · exact step_counted y _ hr.book hr.counted (fun segment now he => absurd he (hop segment now))
  · rw [hdel, happ, hbuf]
  · intro hs
    rw [happ]
    apply hr.opening
    obtain he | he | he := step_local_state y op.toOp hop
    · rwa [he] at hs
    · rw [he] at hs
      cases hs
    · rw [hs] at he
      revert he
      cases y.connection.state <;> decide

/-! ## The reading end, with a segment of the writer -/

section Arrival
variable {iss : UInt32} {x y : TcpHistory} {segment : TcpSegment}

theorem Reading.receiveNext (hr : Reading iss x y) (hrecv : y.connection.Receiving) :
    y.connection.receiveNext = adv iss (1 + y.appended.length + y.finConsumed.toNat) :=
  hr.counted iss (hr.known hrecv)

theorem Reading.appended_le (hr : Reading iss x y) : y.appended.length ≤ x.accepted.length :=
  hr.safe.arrived.length_le

section

variable (hr : Reading iss x y) (hrecv : y.connection.Receiving)
  (hw : OnWire iss x segment.sequence segment.flags segment.payload)
  (hb : x.accepted.length + 2 < 2 ^ 31)
include hr hrecv hw hb

theorem Reading.text_at (ht : y.connection.TakesText segment) :
    y.finConsumed = false ∧ y.appended ++ segment.payload <+: x.accepted ∧
      hasFlag segment.flags tcpFlagFin = false ∧ y.appended.length + segment.payload.length ≤ x.sentLength := by
  have hnext := hr.receiveNext hrecv
  have hle := hr.appended_le
  have hseq := ht.2.1
  have hne := ht.1
  rw [hnext] at hseq
  generalize segment.sequence = sequence at hw hseq
  generalize segment.flags = flags at hw ⊢
  generalize segment.payload = payload at hw hne ⊢
  cases hw with
  | syn | fin | ack => exact absurd rfl hne
  | text offset hpos hsent hp =>
    have hlen : payload.length ≤ x.accepted.length - offset := by
      have := hp.length_le
      rwa [length_drop] at this
    have hpl : 0 < payload.length := length_pos_iff.mpr hpos
    have hbool := y.finConsumed.toNat_le
    have hoff := (adv_inj iss (by omega) (by omega)).mp hseq
    have hopen : y.finConsumed = false := by
      cases hf : y.finConsumed with
      | false => rfl
      | true =>
        have hall : y.appended = x.accepted := (hr.safe.eof hf).2
        rw [hf, hall, toNat_true] at hoff
        omega
    rw [hopen, toNat_false] at hoff
    have hoff' : offset = y.appended.length := by omega
    subst hoff'
    refine ⟨hopen, ?_, by decide, hsent⟩
    obtain ⟨rest, hrest⟩ := hr.safe.arrived
    change y.appended ++ rest = x.accepted at hrest
    rw [← hrest, drop_left] at hp
    rw [← hrest]
    exact (prefix_append_right_inj _).mpr hp

theorem Reading.fin_at (hfin : hasFlag segment.flags tcpFlagFin = true)
    (hat : adv segment.sequence segment.payload.length = y.connection.receiveNext) :
    y.finConsumed = false ∧ x.finSent = true ∧ y.appended = x.accepted := by
  have hnext := hr.receiveNext hrecv
  have hle := hr.appended_le
  rw [hnext] at hat
  have hsent := hw.flags.2 hfin
  generalize segment.sequence = sequence at hw hat
  generalize segment.flags = flags at hw hfin
  generalize segment.payload = payload at hw hat
  cases hw with
  | syn hf => obtain rfl | rfl := hf <;> cases hfin
  | text | ack => cases hfin
  | fin =>
    rw [length_nil, adv_zero] at hat
    have hbool := y.finConsumed.toNat_le
    have hoff := (adv_inj iss (by omega) (by omega)).mp hat
    cases hf : y.finConsumed with
    | false =>
      rw [hf, toNat_false] at hoff
      exact ⟨rfl, hsent, hr.safe.arrived.eq_of_length (show y.appended.length = x.accepted.length by omega)⟩
    | true =>
      have hall : y.appended = x.accepted := (hr.safe.eof hf).2
      rw [hf, hall, toNat_true] at hoff
      omega

end

section

variable (hr : Reading iss x y) (hw : OnWire iss x segment.sequence segment.flags segment.payload)
  (hb : x.accepted.length + 2 < 2 ^ 31)
include hr hw hb

theorem Reading.seen (hsyn : hasFlag segment.flags tcpFlagSyn = false) :
    y.connection.seenSegment segment = segment := by
  unfold seenSegment
  split
  next hsr =>
    have hfin : y.finConsumed = false := by
      cases hf : y.finConsumed with
      | false => rfl
      | true => obtain hs | hs | hs := hr.book.consumed hf <;> simp [FinSeen, hsr] at hs
    have hnext := hr.receiveNext (.inr hsr)
    rw [hr.opening hsr, hfin] at hnext
    have hlater : ∃ n, 1 ≤ n ∧ n < 2 ^ 31 ∧ segment.sequence = adv iss n := by
      have hx : x.sentLength ≤ x.accepted.length := Nat.sub_le _ _
      have hbool := x.finSent.toNat_le
      generalize segment.sequence = sequence at hw ⊢
      generalize segment.flags = flags at hw hsyn
      generalize segment.payload = payload at hw
      cases hw with
      | syn hf => obtain rfl | rfl := hf <;> cases hsyn
      | text offset _ hsent | ack offset ho => exact ⟨1 + offset, by omega, by omega, rfl⟩
      | fin => exact ⟨_, by omega, by omega, rfl⟩
    obtain ⟨n, hn, hlt, hseq⟩ := hlater
    have hnot : ¬ Before segment.sequence (y.connection.opened segment).receiveNext := by
      change ¬ Before segment.sequence y.connection.receiveNext
      rw [hnext, hseq, before_adv iss hlt (by simp)]
      simp only [length_nil, toNat_false]
      omega
    unfold trimOverlap
    rw [if_neg]
    rwa [sequenceBefore_iff]
  · rfl

theorem Reading.nothing_after_fin (now : UInt64) : y.NothingAfterFin (.onSegment segment now) := by
  rintro _ _ ⟨⟩ hseen ⟨hreach, _, _, hmore⟩
  have hfin := hr.book.seen hseen
  have hrecv : y.connection.Receiving := .inl hreach.1
  obtain ht | ⟨_, hf⟩ := hmore
  · rw [(hr.text_at hrecv hw hb ht).1] at hfin
    cases hfin
  · rw [(hr.fin_at hrecv hw hb hf.1 hf.2).1] at hfin
    cases hfin

theorem Reading.takes
    {now : UInt64} {c' : TcpConnection} (hrec : TcpConnection.Received y.connection segment now c') :
    ∃ text fin, c'.receiveBuffer = y.connection.receiveBuffer ++ text ∧
      (y.finConsumed || decide (FinSeen c'.state)) = (y.finConsumed || fin) ∧
      y.appended ++ text <+: x.accepted ∧
      (fin = true → x.finSent = true ∧ y.appended ++ text = x.accepted) ∧
      (text = [] ∨ (text = segment.payload ∧ y.connection.Receiving ∧ y.connection.TakesText segment)) := by
  have hall : y.appended ++ [] <+: x.accepted := by
    rw [append_nil]
    exact hr.safe.arrived
  obtain ⟨ho, _⟩ | ⟨_, _, rfl⟩ | rfl | ⟨hrecv, hsyn, text, fin, ht⟩ := hrec.takes
  · have := ho.1
    rw [hw.flags.1] at this
    cases this
  · exact ⟨[], false, (append_nil _).symm, rfl, hall, nofun, .inl rfl⟩
  · refine ⟨[], false, (append_nil _).symm, ?_, hall, nofun, .inl rfl⟩
    by_cases hseen : FinSeen y.connection.state
    · rw [hr.book.seen hseen, Bool.true_or, Bool.true_or]
    · rw [decide_eq_false hseen]
  · rw [hr.seen hw hb hsyn] at ht
    refine ⟨text, fin, ht.buffer, ?_, ?_, ?_, ht.text_from.imp_right (fun h => ⟨h.1, hrecv, h.2⟩)⟩
    · cases fin with
      | true => rw [decide_eq_true (ht.fin_state rfl)]
      | false =>
        by_cases hseen : FinSeen c'.state
        · rw [hr.book.seen (ht.state_fin rfl hseen), Bool.true_or, Bool.true_or]
        · rw [decide_eq_false hseen]
    · obtain rfl | ⟨rfl, htext⟩ := ht.text_from
      · exact hall
      · exact (hr.text_at hrecv hw hb htext).2.1
    · intro hf
      obtain ⟨hflag, hat⟩ := ht.fin_from hf
      obtain rfl | ⟨rfl, htext⟩ := ht.text_from
      · rw [length_nil, adv_zero] at hat
        rw [append_nil]
        exact (hr.fin_at hrecv hw hb hflag hat).2
      · rw [(hr.text_at hrecv hw hb htext).2.2.1] at hflag
        cases hflag

end

theorem peerInitial_arrive (hw : OnWire iss x segment.sequence segment.flags segment.payload) {now : UInt64}
    {c' : TcpConnection} (hrec : TcpConnection.Received y.connection segment now c') :
    (y.observe segment c').peerInitial = some iss ∨ ((y.observe segment c').peerInitial = y.peerInitial ∧
        (c'.Receiving → y.connection.Receiving)) := by
  obtain ⟨ho, _⟩ | ⟨hss, hans, rfl⟩ | rfl | ⟨hrecv, _, _⟩ := hrec.takes
  · have := ho.1
    rw [hw.flags.1] at this
    cases this
  · left
    have hseq : segment.sequence = iss := by
      have hflags := hans.1
      generalize segment.sequence = sequence at hw ⊢
      generalize segment.flags = flags at hw hflags
      generalize segment.payload = payload at hw
      cases hw with
      | syn => rfl
      | text | fin | ack => cases hflags
    change (if _ ∧ _ then some segment.sequence else _) = _
    rw [if_pos ⟨hss, rfl⟩, hseq]
  · right
    refine ⟨if_neg ?_, id⟩
    rintro ⟨h1, h2⟩
    exact absurd (h1.symm.trans h2) (by decide)
  · right
    refine ⟨if_neg ?_, fun _ => hrecv⟩
    rintro ⟨h1, _⟩
    obtain hs | hs := hrecv
    · simp [TcpConnection.Synchronized, h1] at hs
    · exact absurd (h1.symm.trans hs) (by decide)

section

variable (hr : Reading iss x y) (hw : OnWire iss x segment.sequence segment.flags segment.payload)
  (hb : x.accepted.length + 2 < 2 ^ 31) (now : UInt64)
include hr hw hb

theorem pipe_arrive : Pipe.Steps (pipe x y) (pipe x (y.step (.onSegment segment now))) := by
  obtain ⟨text, fin, hbuf, hfin, htext, hend, _⟩ :=
    hr.takes hw hb (onSegment_received y.connection segment now)
  have he : pipe x (y.step (.onSegment segment now)) =
      { pipe x y with arrived := (pipe x y).arrived ++ text, eof := (pipe x y).eof || fin } := by
    simp only [pipe, step, observe, hbuf, hfin, drop_left]
  rw [he]
  exact Pipe.steps_take (pipe x y) text fin htext hend

theorem Reading.receives : Reading iss x (y.step (.onSegment segment now)) := by
  have hrec := onSegment_received y.connection segment now
  obtain ⟨text, fin, hbuf, _⟩ := hr.takes hw hb hrec
  have hpeer := peerInitial_arrive hw hrec
  refine ⟨step_finBook y _ hr.book, ?_, ?_, ?_, ?_, ?_, (pipe_arrive hr hw hb now).safe hr.safe⟩
  · intro i hi
    obtain he | ⟨he, _⟩ := hpeer
    · exact (Option.some.inj (he.symm.trans hi)).symm
    · exact hr.initial i (he.symm.trans hi)
  · intro hrecv
    obtain he | ⟨he, hback⟩ := hpeer
    · exact he
    · exact he.trans (hr.known (hback hrecv))
  · exact step_counted y _ hr.book hr.counted (hr.nothing_after_fin hw hb now)
  · change y.delivered ++ (y.connection.onSegment segment now).1.receiveBuffer =
      y.appended ++ (y.connection.onSegment segment now).1.receiveBuffer.drop y.connection.receiveBuffer.length
    rw [hbuf, drop_left, ← append_assoc, hr.buffer]
  · intro hs
    have he : (y.connection.onSegment segment now).1 = y.connection := hrec.opening (.inr hs)
    simp only [step, observe, he, drop_length, append_nil] at hs ⊢
    exact hr.opening hs

end

end Arrival

end TcpHistory

end MochiSyscalls.NetworkStack
