import MochiSyscalls.NetworkStack.TcpDispatch

/-! # The invariant of the connection table

Handles are unique over connections and listeners, live connections have distinct tuples, and each
listener's `pending` and `ready` lists agree with the states of the connections they name. `Loose`
is the part that survives when connections are dropped; `prune_pending` restores the rest. -/

namespace MochiSyscalls.NetworkStack
open Foundations Words Rows Runs List
set_option autoImplicit false

namespace TcpConnection

/-! ## A connection keeps its identity -/

structure Same (c c' : TcpConnection) : Prop where
  handle : c'.handle = c.handle
  owner : c'.owner = c.owner
  tuple : c'.tuple = c.tuple

theorem Same.refl (c : TcpConnection) : Same c c := ⟨rfl, rfl, rfl⟩

variable {c c' : TcpConnection}

theorem Same.trans {c'' : TcpConnection} (h : Same c c') (h' : Same c' c'') : Same c c'' :=
  ⟨h'.1.trans h.1, h'.2.trans h.2, h'.3.trans h.3⟩

theorem afterAck_same (c : TcpConnection) (segment : TcpSegment) : Same c (c.afterAck segment) := by
  unfold afterAck
  split <;> exact ⟨rfl, rfl, rfl⟩

variable {now : UInt64}

theorem Streamed.same {segment : TcpSegment} (h : Streamed c segment now c') : Same c c' := by
  have ha := afterAck_same c segment
  cases h with
  | rejected => exact .refl c
  | closing => exact ⟨rfl, rfl, rfl⟩
  | overflow | quiet => exact ha
  | text | fin | textFin => exact ha.trans ⟨rfl, rfl, rfl⟩

theorem Received.same {segment : TcpSegment} (h : Received c segment now c') : Same c c' := by
  cases h with
  | ignored => exact .refl c
  | aborted | connected | opened => exact ⟨rfl, rfl, rfl⟩
  | streamed _ hs => exact hs.same
  | openedStream _ _ hs =>
    have ho : Same c (c.opened segment) := ⟨rfl, rfl, rfl⟩
    exact ho.trans hs.same

theorem Polled.same
    {p : TcpConnection × Except TcpConnectionError (Option TcpTransmit)} (h : Polled c now p) : Same c p.1 := by
  cases h <;> exact ⟨rfl, rfl, rfl⟩

end TcpConnection

/-! ## The operations that are not the arrival of a segment -/

inductive LocalOp where
  | queueSend (bytes : List UInt8)
  | requestClose
  | pollTransmit (now : UInt64)
  | receive (size : ℕ)
  | discardReceived
  | tick (now : UInt64)
  | abort
  deriving DecidableEq, Repr

namespace TcpConnection

def perform (c : TcpConnection) : LocalOp → TcpConnection
  | .queueSend bytes => (c.queueSend bytes).1
  | .requestClose => c.requestClose.1
  | .pollTransmit now => (c.pollTransmit now).1
  | .receive size => (c.receive size).1
  | .discardReceived => c.discardReceived
  | .tick now => (c.tick now).1
  | .abort => c.abort

theorem perform_same (c : TcpConnection) (op : LocalOp) : Same c (c.perform op) := by
  cases op with
  | queueSend bytes =>
    change Same c (c.queueSend bytes).1
    unfold queueSend
    split
    · exact .refl c
    · split <;> exact ⟨rfl, rfl, rfl⟩
  | requestClose =>
    change Same c c.requestClose.1
    unfold requestClose
    split <;> exact ⟨rfl, rfl, rfl⟩
  | pollTransmit now => exact (pollTransmit_polled c now).same
  | receive size =>
    change Same c (c.receive size).1
    unfold receive
    split <;> exact ⟨rfl, rfl, rfl⟩
  | discardReceived | abort => exact ⟨rfl, rfl, rfl⟩
  | tick now =>
    change Same c (c.tick now).1
    unfold tick
    split <;> exact ⟨rfl, rfl, rfl⟩

theorem perform_state (c : TcpConnection) (op : LocalOp) :
    (c.perform op).state = c.state ∨ (c.perform op).state = .reset ∨
      (c.perform op).state ∈ localSuccessors c.state := by
  cases op with
  | queueSend bytes => exact .inl (queueSend_state c bytes)
  | requestClose => exact .inl (requestClose_state c)
  | pollTransmit now => exact (pollTransmit_polled c now).state
  | receive size => exact .inl (receive_state c size)
  | discardReceived => exact .inl rfl
  | tick now =>
    obtain he | he := tick_state c now
    · exact .inl he
    · exact .inr (.inr he)
  | abort => exact .inr (.inl rfl)

/-- A change that a listener need not notice: it neither revives the connection nor completes its passive open. -/
structure Evolves (c c' : TcpConnection) : Prop where
  same : Same c c'
  terminal : c.Terminal → c'.Terminal
  embryonic : ¬ c'.Terminal → (c'.state = .synReceived ↔ c.state = .synReceived)

theorem Evolves.refl (c : TcpConnection) : Evolves c c := ⟨.refl c, id, fun _ => Iff.rfl⟩

variable {c c' : TcpConnection}

theorem Evolves.of_terminal (hs : Same c c') (h : c'.Terminal) : Evolves c c' :=
  ⟨hs, fun _ => h, fun hn => absurd h hn⟩

theorem Evolves.of_state (hs : Same c c') (h : c'.state = c.state) : Evolves c c' :=
  ⟨hs, fun ht => ht.congr h, fun _ => by rw [h]⟩

theorem localSuccessors_source {s s' : TcpState} (h : s' ∈ localSuccessors s) :
    s ≠ .synReceived ∧ s' ≠ .synReceived ∧ s ≠ .closed ∧ s ≠ .reset := by
  cases s <;> cases h <;> first | decide | contradiction

theorem perform_evolves (c : TcpConnection) (op : LocalOp) : Evolves c (c.perform op) := by
  obtain he | he | he := perform_state c op
  · exact .of_state (perform_same c op) he
  · exact .of_terminal (perform_same c op) (.inr he)
  · obtain ⟨hsr, hsr', hcl, hrs⟩ := localSuccessors_source he
    exact ⟨perform_same c op, fun ht => (ht.elim hcl hrs).elim, fun _ => iff_of_false hsr' hsr⟩

end TcpConnection

/-! ## The invariant -/

/-- The lists of a listener agree with the connections they name. -/
structure Listener.Queued (l : Listener) (connections : List TcpConnection) : Prop where
  nodup : l.ready.Nodup
  waiting : ∀ h ∈ l.ready, h ∈ l.pending
  owned : ∀ c ∈ connections, c.handle ∈ l.pending → c.owner = l.owner ∧ c.tuple.localPort = l.port
  completed : ∀ c ∈ connections, c.handle ∈ l.pending → ¬ c.Terminal → c.state ≠ .synReceived →
    c.handle ∈ l.ready
  embryonic : ∀ c ∈ connections, c.handle ∈ l.ready → c.state ≠ .synReceived

variable {cs : List TcpConnection} {l : Listener}

theorem Listener.Queued.mono {cs' : List TcpConnection} (h : l.Queued cs) (hsub : ∀ c ∈ cs', c ∈ cs) : l.Queued cs' :=
  ⟨h.nodup, h.waiting, fun c hc => h.owned c (hsub c hc), fun c hc => h.completed c (hsub c hc),
    fun c hc => h.embryonic c (hsub c hc)⟩

structure Listener.Bound (l l' : Listener) : Prop where
  handle : l'.handle = l.handle
  address : l'.address = l.address
  port : l'.port = l.port

/-- The binding is kept, and no connection is added to the backlog. -/
structure Listener.Narrows (l l' : Listener) : Prop extends Listener.Bound l l' where
  pending : ∀ h ∈ l'.pending, h ∈ l.pending

theorem Listener.Narrows.refl (l : Listener) : l.Narrows l := ⟨⟨rfl, rfl, rfl⟩, fun _ => id⟩

theorem Listener.prune_narrows (l : Listener) (cs : List TcpConnection) : l.Narrows (l.prune cs) :=
  ⟨⟨rfl, rfl, rfl⟩, fun _ hp => (mem_filter.mp hp).1⟩

variable {handle : UInt64}

theorem Listener.mem_prune_pending :
    handle ∈ (l.prune cs).pending ↔ handle ∈ l.pending ∧ ∃ c ∈ cs, c.handle = handle ∧ ¬ c.Terminal := by
  simp [Listener.prune]

theorem Listener.mem_prune_ready : handle ∈ (l.prune cs).ready ↔ handle ∈ l.ready ∧ handle ∈ (l.prune cs).pending := by
  simp [Listener.prune]

theorem Listener.prune_queued (h : l.Queued cs) : (l.prune cs).Queued cs where
  nodup := h.nodup.filter _
  waiting _ hr := (Listener.mem_prune_ready.mp hr).2
  owned c hc hp := h.owned c hc (Listener.mem_prune_pending.mp hp).1
  completed c hc hp hl hs := Listener.mem_prune_ready.mpr ⟨h.completed c hc (Listener.mem_prune_pending.mp hp).1 hl hs, hp⟩
  embryonic c hc hr := h.embryonic c hc (Listener.mem_prune_ready.mp hr).1

theorem Listener.prune_self (hr : ∀ k ∈ l.ready, k ∈ l.pending)
    (hp : ∀ k ∈ l.pending, ∃ c ∈ cs, c.handle = k ∧ ¬ c.Terminal) : l.prune cs = l := by
  have hpending : (l.pending.filter fun k => ∃ c ∈ cs, c.handle = k ∧ ¬ c.Terminal) = l.pending := by
    apply filter_eq_self.mpr
    intro k hk
    exact decide_eq_true (hp k hk)
  have hready : (l.ready.filter fun k => k ∈ l.pending) = l.ready := by
    apply filter_eq_self.mpr
    intro k hk
    exact decide_eq_true (hr k hk)
  unfold Listener.prune
  simp only [hpending, hready]

variable {m : Listener} {tuple : TcpTuple}

theorem Listener.Matches.overlaps (hl : l.Matches tuple) (hm : m.Matches tuple) : l.Overlaps m.address m.port := by
  refine ⟨hl.1.trans hm.1.symm, ?_⟩
  obtain hla | hla := hl.2
  · obtain hma | hma := hm.2
    · exact .inl (hla.trans hma.symm)
    · exact .inr (.inr hma)
  · exact .inr (.inl hla)

theorem Listener.Overlaps.symm (h : l.Overlaps m.address m.port) : m.Overlaps l.address l.port := by
  obtain ⟨hp, ha | ha | ha⟩ := h
  · exact ⟨hp.symm, .inl ha.symm⟩
  · exact ⟨hp.symm, .inr (.inr ha)⟩
  · exact ⟨hp.symm, .inr (.inl ha)⟩

namespace TcpConnectionTable

structure Loose (t : TcpConnectionTable) : Prop where
  room : t.connections.length + t.listeners.length ≤ t.capacity
  handles : (t.connections.map (·.handle) ++ t.listeners.map (·.handle)).Nodup
  tuples : ∀ c ∈ t.connections, ∀ d ∈ t.connections, ¬ c.Terminal → ¬ d.Terminal → c.tuple = d.tuple → c = d
  apart : ∀ l ∈ t.listeners, ∀ m ∈ t.listeners, l.Overlaps m.address m.port → l = m
  queues : ∀ l ∈ t.listeners, l.Queued t.connections
  single : ∀ l ∈ t.listeners, ∀ m ∈ t.listeners, ∀ h ∈ l.pending, h ∈ m.pending → l = m

structure Wellformed (t : TcpConnectionTable) : Prop extends Loose t where
  present : ∀ l ∈ t.listeners, ∀ h ∈ l.pending, ∃ c ∈ t.connections, c.handle = h

theorem new_wellformed (capacity : ℕ) : (new capacity).Wellformed where
  room := Nat.zero_le _
  handles := nodup_nil
  tuples := nofun
  apart := nofun
  queues := nofun
  single := nofun
  present := nofun

variable {c : TcpConnection} {t : TcpConnectionTable}

theorem Loose.connection_eq (h : t.Loose) {d : TcpConnection}
    (hc : c ∈ t.connections) (hd : d ∈ t.connections) (he : c.handle = d.handle) : c = d :=
  inj_on_of_nodup_map h.handles.of_append_left hc hd he

variable {l : Listener}

theorem Loose.listener_eq (h : t.Loose) {m : Listener} (hl : l ∈ t.listeners)
    (hm : m ∈ t.listeners) (he : l.handle = m.handle) : l = m :=
  inj_on_of_nodup_map h.handles.of_append_right hl hm he

variable {cs : List TcpConnection}

theorem Loose.sublist (h : t.Loose) (hs : cs.Sublist t.connections) : { t with connections := cs }.Loose where
  room := (Nat.add_le_add_right hs.length_le _).trans h.room
  handles := h.handles.sublist ((hs.map _).append (List.Sublist.refl _))
  tuples c hc d hd := h.tuples c (hs.subset hc) d (hs.subset hd)
  apart := h.apart
  queues l hl := (h.queues l hl).mono fun _ hc => hs.subset hc
  single := h.single

variable {t' : TcpConnectionTable}

section

variable (h : t.Loose)
  (hc : List.Forall₂ (fun c c' => TcpConnection.Same c c' ∧ (c.Terminal → c'.Terminal)) t.connections t'.connections)
include h hc

theorem Loose.rows
    (hl : List.Forall₂ Listener.Bound t.listeners t'.listeners) (hcap : t'.capacity = t.capacity)
    (hq : ∀ l ∈ t'.listeners, l.Queued t'.connections)
    (hs : ∀ l ∈ t'.listeners, ∀ m ∈ t'.listeners, ∀ h ∈ l.pending, h ∈ m.pending → l.handle = m.handle) : t'.Loose := by
  have hkeys : t'.connections.map (·.handle) ++ t'.listeners.map (·.handle) =
      t.connections.map (·.handle) ++ t.listeners.map (·.handle) := by
    rw [map_eq_of_forall₂ (fun _ _ hr => hr.1.handle) hc, map_eq_of_forall₂ (fun _ _ hr => hr.handle) hl]
  have hnodup : (t'.connections.map (·.handle) ++ t'.listeners.map (·.handle)).Nodup := by
    rw [hkeys]
    exact h.handles
  refine ⟨?_, hnodup, ?_, ?_, hq, ?_⟩
  · rw [← hc.length_eq, ← hl.length_eq, hcap]
    exact h.room
  · intro c' hc' d' hd' hlc hld he
    obtain ⟨c, hcm, hcs, hct⟩ := exists_of_mem_right hc hc'
    obtain ⟨d, hdm, hds, hdt⟩ := exists_of_mem_right hc hd'
    have hcd : c = d := h.tuples c hcm d hdm (mt hct hlc) (mt hdt hld) (hcs.tuple.symm.trans (he.trans hds.tuple))
    subst hcd
    exact inj_on_of_nodup_map hnodup.of_append_left hc' hd' (hcs.handle.trans hds.handle.symm)
  · intro l' hl' m' hm' ho
    obtain ⟨l, hlm, hln⟩ := exists_of_mem_right hl hl'
    obtain ⟨m, hmm, hmn⟩ := exists_of_mem_right hl hm'
    have hlm' : l = m := by
      apply h.apart l hlm m hmm
      rw [Listener.Overlaps, hln.port, hln.address, hmn.port, hmn.address] at ho
      exact ho
    subst hlm'
    exact inj_on_of_nodup_map hnodup.of_append_right hl' hm' (hln.handle.trans hmn.handle.symm)
  · intro l hl' m hm' handle hpl hpm
    exact inj_on_of_nodup_map hnodup.of_append_right hl' hm' (hs l hl' m hm' handle hpl hpm)

theorem Loose.narrow
    (hl : List.Forall₂ Listener.Narrows t.listeners t'.listeners) (hcap : t'.capacity = t.capacity)
    (hq : ∀ l ∈ t'.listeners, l.Queued t'.connections) : t'.Loose := by
  refine h.rows hc (hl.imp fun _ _ hr => hr.toBound) hcap hq ?_
  intro l' hl' m' hm' handle hpl hpm
  obtain ⟨l, hlm, hln⟩ := exists_of_mem_right hl hl'
  obtain ⟨m, hmm, hmn⟩ := exists_of_mem_right hl hm'
  have hlm' : l = m := h.single l hlm m hmm handle (hln.pending _ hpl) (hmn.pending _ hpm)
  subst hlm'
  exact hln.handle.trans hmn.handle.symm

end

/-! ## Pruning and changes in place -/

theorem Loose.prunePending (h : t.Loose) : t.prunePending.Wellformed := by
  have hs : (t.prunePending.connections).Sublist t.connections := filter_sublist
  have hl : List.Forall₂ Listener.Narrows t.listeners t.prunePending.listeners :=
    forall₂_map_right_iff.mpr (forall₂_same.mpr fun l _ => l.prune_narrows _)
  refine ⟨(h.sublist hs).narrow (forall₂_same.mpr fun c _ => ⟨.refl c, id⟩) hl rfl ?_, ?_⟩
  · intro l' hl'
    obtain ⟨l, hlm, rfl⟩ := mem_map.mp hl'
    exact Listener.prune_queued ((h.sublist hs).queues l hlm)
  · intro l' hl' handle hp
    obtain ⟨l, _, rfl⟩ := mem_map.mp hl'
    obtain ⟨_, c, hc, he, _⟩ := Listener.mem_prune_pending.mp hp
    exact ⟨c, hc, he⟩

theorem Wellformed.evolve (h : t.Wellformed)
    (hc : List.Forall₂ TcpConnection.Evolves t.connections cs) : { t with connections := cs }.Wellformed := by
  refine ⟨h.toLoose.narrow (hc.imp fun _ _ hr => ⟨hr.same, hr.terminal⟩)
    (forall₂_same.mpr fun l _ => .refl l) rfl ?_, ?_⟩
  · intro l hl
    have hq := h.queues l hl
    refine ⟨hq.nodup, hq.waiting, ?_, ?_, ?_⟩
    · intro c' hc' hp
      obtain ⟨c, hcm, hr⟩ := exists_of_mem_right hc hc'
      rw [hr.same.handle] at hp
      rw [hr.same.owner, hr.same.tuple]
      exact hq.owned c hcm hp
    · intro c' hc' hp hlive hs
      obtain ⟨c, hcm, hr⟩ := exists_of_mem_right hc hc'
      rw [hr.same.handle] at hp ⊢
      exact hq.completed c hcm hp (mt hr.terminal hlive) (mt (hr.embryonic hlive).mpr hs)
    · intro c' hc' hready hs
      obtain ⟨c, hcm, hr⟩ := exists_of_mem_right hc hc'
      rw [hr.same.handle] at hready
      have hlive : ¬ c'.Terminal := by simp [TcpConnection.Terminal, hs]
      exact hq.embryonic c hcm hready ((hr.embryonic hlive).mp hs)
  · intro l hl handle hp
    obtain ⟨c, hcm, he⟩ := h.present l hl handle hp
    obtain ⟨c', hc', hr⟩ := exists_of_mem_left hc hcm
    exact ⟨c', hc', hr.same.handle.trans he⟩

variable {i : ℕ}

theorem Wellformed.setConnection (h : t.Wellformed) {c' : TcpConnection}
    (hi : t.connections[i]? = some c) (he : TcpConnection.Evolves c c') : (t.setConnection i c').Wellformed :=
  h.evolve (forall₂_set TcpConnection.Evolves.refl hi he)

/-! ## New rows -/

theorem insert_cases (t : TcpConnectionTable) (c : TcpConnection) : t.insert c = (t, .error .capacity) ∨
    (¬ t.Full ∧ ¬ t.HandleUsed c.handle ∧ (∀ d ∈ t.connections, d.tuple = c.tuple → d.Terminal) ∧
      t.insert c = ({ t with connections := t.connections ++ [c] }, .ok ())) := by
  unfold insert
  split
  · exact .inl rfl
  next hfull =>
    split
    · exact .inl rfl
    next hused =>
      obtain ⟨hl, hc⟩ := not_or.mp hused
      refine .inr ⟨hfull, ?_, ?_, rfl⟩
      · rintro (hu | ⟨d, hd, he⟩)
        · exact hl hu
        · exact hc ⟨d, hd, .inl he⟩
      · intro d hd he
        by_contra hlive
        exact hc ⟨d, hd, .inr ⟨he, hlive⟩⟩

section

variable (h : t.Wellformed)
include h

theorem Wellformed.not_pending
    (hu : ¬ t.HandleUsed handle) (hl : l ∈ t.listeners) : handle ∉ l.pending :=
  fun hp => hu (.inr (h.present l hl handle hp))

theorem Wellformed.push (hfull : ¬ t.Full)
    (hu : ¬ t.HandleUsed c.handle) (ht : ∀ d ∈ t.connections, d.tuple = c.tuple → d.Terminal) :
    { t with connections := t.connections ++ [c] }.Wellformed where
  room := by
    change (t.connections ++ [c]).length + t.listeners.length ≤ t.capacity
    rw [length_append, length_singleton]
    unfold Full at hfull
    omega
  handles := by
    have hp : List.Perm ((t.connections ++ [c]).map (·.handle) ++ t.listeners.map (·.handle))
        (c.handle :: (t.connections.map (·.handle) ++ t.listeners.map (·.handle))) := by
      rw [map_append, map_singleton, append_assoc]
      exact perm_middle
    rw [hp.nodup_iff, nodup_cons]
    refine ⟨?_, h.handles⟩
    intro hm
    rw [mem_append, mem_map, mem_map] at hm
    exact hu hm.symm
  tuples := by
    intro a hma b hmb hla hlb he
    obtain ha | rfl := mem_snoc.mp hma <;> obtain hb | rfl := mem_snoc.mp hmb
    · exact h.tuples a ha b hb hla hlb he
    · exact absurd (ht a ha he) hla
    · exact absurd (ht b hb he.symm) hlb
    · rfl
  apart := h.apart
  queues := by
    intro l hl
    have hq := h.queues l hl
    have hnew : c.handle ∉ l.pending := h.not_pending hu hl
    refine ⟨hq.nodup, hq.waiting, ?_, ?_, ?_⟩
    · intro d hd hp
      obtain hd | rfl := mem_snoc.mp hd
      · exact hq.owned d hd hp
      · exact absurd hp hnew
    · intro d hd hp
      obtain hd | rfl := mem_snoc.mp hd
      · exact hq.completed d hd hp
      · exact absurd hp hnew
    · intro d hd hr
      obtain hd | rfl := mem_snoc.mp hd
      · exact hq.embryonic d hd hr
      · exact absurd (hq.waiting _ hr) hnew
  single := h.single
  present l hl handle hp := by
    obtain ⟨d, hd, he⟩ := h.present l hl handle hp
    exact ⟨d, mem_append_left _ hd, he⟩

theorem Wellformed.insert (c : TcpConnection) : (t.insert c).1.Wellformed := by
  obtain he | ⟨hfull, hu, ht, he⟩ := insert_cases t c
  · rw [he]
    exact h
  · rw [he]
    exact h.push hfull hu ht

theorem Wellformed.bind (hfull : ¬ t.Full)
    (hu : ¬ t.HandleUsed l.handle) (ha : ¬ ∃ m ∈ t.listeners, m.Overlaps l.address l.port)
    (hp : l.pending = []) (hr : l.ready = []) : { t with listeners := t.listeners ++ [l] }.Wellformed where
  room := by
    change t.connections.length + (t.listeners ++ [l]).length ≤ t.capacity
    rw [length_append, length_singleton]
    unfold Full at hfull
    omega
  handles := by
    change (t.connections.map (·.handle) ++ (t.listeners ++ [l]).map (·.handle)).Nodup
    rw [map_append, map_singleton, ← append_assoc, nodup_append_comm,
      singleton_append, nodup_cons]
    refine ⟨?_, h.handles⟩
    intro hm
    rw [mem_append, mem_map, mem_map] at hm
    exact hu hm.symm
  tuples := h.tuples
  apart := by
    intro a hma b hmb ho
    obtain ham | rfl := mem_snoc.mp hma <;> obtain hbm | rfl := mem_snoc.mp hmb
    · exact h.apart a ham b hbm ho
    · exact absurd ⟨a, ham, ho⟩ ha
    · exact absurd ⟨b, hbm, ho.symm⟩ ha
    · rfl
  queues := by
    intro m hm
    obtain hm | rfl := mem_snoc.mp hm
    · exact h.queues m hm
    · refine ⟨?_, ?_, ?_, ?_, ?_⟩ <;> simp [hp, hr]
  single := by
    intro a ham b hbm handle hpa hpb
    obtain ham | rfl := mem_snoc.mp ham
    · obtain hbm | rfl := mem_snoc.mp hbm
      · exact h.single a ham b hbm handle hpa hpb
      · rw [hp] at hpb
        cases hpb
    · rw [hp] at hpa
      cases hpa
  present := by
    intro m hm handle hpm
    obtain hm | rfl := mem_snoc.mp hm
    · exact h.present m hm handle hpm
    · rw [hp] at hpm
      cases hpm

theorem Wellformed.listen (alloc : Allocator)
    (handle owner : UInt64) (address : Address) (port : UInt16) (config : TcpListenConfig) :
    (t.listen alloc handle owner address port config).1.Wellformed := by
  unfold TcpConnectionTable.listen
  split
  · exact h
  split
  · exact h
  split
  · exact h
  split
  · exact h
  rename_i _ hroom hapart _
  obtain ⟨hfull, hu⟩ := not_or.mp hroom
  exact h.bind hfull hu hapart rfl rfl

end

/-! ## Passive opens -/

theorem Wellformed.enqueue (h : t.Wellformed) (hi : t.listeners[i]? = some l) (hc : c ∈ t.connections)
    (ho : c.owner = l.owner) (hport : c.tuple.localPort = l.port) (hsr : c.state = .synReceived)
    (hnew : ∀ m ∈ t.listeners, c.handle ∉ m.pending) : (t.setListener i (l.enqueue c.handle)).Wellformed := by
  have hlm : l ∈ t.listeners := mem_of_getElem? hi
  have hq := h.queues l hlm
  -- a listener of the new table is an old one, or `l` with the handle at the end
  have hmem : ∀ m ∈ t.listeners.set i (l.enqueue c.handle), m ∈ t.listeners ∨ m = l.enqueue c.handle :=
    fun m hm => mem_or_eq_of_mem_set hm
  have hpending : ∀ handle, handle ∈ (l.enqueue c.handle).pending ↔ handle ∈ l.pending ∨ handle = c.handle := by
    intro handle
    simp [Listener.enqueue]
  have hqueued : (l.enqueue c.handle).Queued t.connections := by
    refine ⟨hq.nodup, fun handle hr => (hpending _).mpr (.inl (hq.waiting _ hr)), ?_, ?_, hq.embryonic⟩
    · intro d hd hp
      obtain hp | hp := (hpending _).mp hp
      · exact hq.owned d hd hp
      · rw [h.connection_eq hd hc hp]
        exact ⟨ho, hport⟩
    · intro d hd hp hlive hs
      obtain hp | hp := (hpending _).mp hp
      · exact hq.completed d hd hp hlive hs
      · rw [h.connection_eq hd hc hp] at hs
        exact absurd hsr hs
  refine ⟨h.toLoose.rows (forall₂_same.mpr fun d _ => ⟨.refl d, id⟩)
    (forall₂_set (fun _ => ⟨rfl, rfl, rfl⟩) hi ⟨rfl, rfl, rfl⟩) rfl ?_ ?_, ?_⟩
  · intro m hm
    obtain hm | rfl := hmem m hm
    · exact h.queues m hm
    · exact hqueued
  · intro a ha b hb handle hpa hpb
    obtain ha | rfl := hmem a ha <;> obtain hb | rfl := hmem b hb
    · rw [h.single a ha b hb handle hpa hpb]
    · obtain hpb | rfl := (hpending _).mp hpb
      · rw [h.single a ha l hlm handle hpa hpb]
        rfl
      · exact absurd hpa (hnew a ha)
    · obtain hpa | rfl := (hpending _).mp hpa
      · rw [h.single b hb l hlm handle hpb hpa]
        rfl
      · exact absurd hpb (hnew b hb)
    · rfl
  · intro m hm handle hp
    obtain hm | rfl := hmem m hm
    · exact h.present m hm handle hp
    · obtain hp | rfl := (hpending _).mp hp
      · exact h.present l hlm handle hp
      · exact ⟨c, hc, rfl⟩

structure Admissible (t : TcpConnectionTable) (tuple : TcpTuple) (i : ℕ) (l : Listener) (c : TcpConnection) :
    Prop where
  listener : t.listeners[i]? = some l
  matched : l.Matches tuple
  addressed : c.tuple = tuple
  owner : c.owner = l.owner
  state : c.state = .synReceived
  room : ¬ t.Full
  fresh : ¬ t.HandleUsed c.handle
  vacant : ∀ d ∈ t.connections, d.tuple = tuple → d.Terminal

def admitted (t : TcpConnectionTable) (i : ℕ) (l : Listener) (c : TcpConnection) : TcpConnectionTable :=
  { t with connections := t.connections ++ [c] }.setListener i (l.enqueue c.handle)

theorem Wellformed.admitted (h : t.Wellformed) (ha : t.Admissible tuple i l c) : (t.admitted i l c).Wellformed := by
  have hpush := h.push ha.room ha.fresh (fun d hd he => ha.vacant d hd (he.trans ha.addressed))
  refine hpush.enqueue ha.listener (mem_append_right _ (mem_singleton.mpr rfl)) ha.owner ?_
    ha.state (fun m hm => h.not_pending ha.fresh hm)
  rw [ha.addressed, ha.matched.1]

theorem openPassive_cases (h : t.Loose) (alloc : Allocator) (handle : UInt64)
    (tuple : TcpTuple) (segment : TcpSegment) (initialSequence : UInt32) :
    (∃ e, openPassive alloc t handle tuple segment initialSequence = some (t, .error e)) ∨
    ∃ i l c, t.Admissible tuple i l c ∧ c.handle = handle ∧
      openPassive alloc t handle tuple segment initialSequence = some (t.admitted i l c, .ok handle) := by
  unfold openPassive
  split
  · exact .inl ⟨_, rfl⟩
  rename_i j listener hlistener
  obtain ⟨hj, hmatch⟩ := findRow_some hlistener
  split
  · exact .inl ⟨_, rfl⟩
  split
  · exact .inl ⟨_, rfl⟩
  rename_i c haccept
  obtain ⟨_, hch, hco, hct, hcs, _⟩ := TcpConnection.acceptSyn_ok haccept
  obtain he | ⟨hfull, hu, hvacant, he⟩ := insert_cases t c
  · rw [he]
    exact .inl ⟨_, rfl⟩
  rw [he]
  right
  cases hfind : findRow (fun l => l.handle = listener.handle) t.listeners with
  | none => exact absurd rfl (findRow_none.mp hfind listener (mem_of_getElem? hj))
  | some row =>
    obtain ⟨i, l⟩ := row
    obtain ⟨hi, hl⟩ := findRow_some hfind
    have hll : l = listener := h.listener_eq (mem_of_getElem? hi) (mem_of_getElem? hj) hl
    subst hll
    refine ⟨i, l, c, ⟨hi, hmatch, hct, hco, hcs, hfull, hu, fun d hd hdt => hvacant d hd (hdt.trans hct.symm)⟩, hch, ?_⟩
    simp only [hfind, admitted, hch]

theorem admitSyn_table (t : TcpConnectionTable) (tuple : TcpTuple) (payloadLength : ℕ) :
    (t.admitSyn tuple payloadLength).1 = t.prunePending := by
  unfold admitSyn
  dsimp only
  split
  · rfl
  · split
    · rfl
    · split <;> rfl

theorem onSegment_syn {segment : TcpSegment} (hv : validateSyn tuple segment = .ok ())
    (c : TcpConnection) (now : UInt64) : (c.onSegment segment now).1 = c := by
  obtain ⟨hsyn, hrst, hack, _⟩ := syn_flags (validateSyn_ok hv).2
  have hr := TcpConnection.onSegment_received c segment now
  generalize (c.onSegment segment now).1 = c' at hr
  cases hr with
  | ignored => rfl
  | aborted h => exact absurd (h.1.symm.trans hrst) (by decide)
  | connected _ h => exact absurd ((hasFlag_of_synAck h.1).symm.trans hack) (by decide)
  | streamed h | opened _ h | openedStream _ h => exact absurd (h.2.2.1.symm.trans hsyn) (by decide)

theorem receiveSyn_cases (h : t.Loose) (alloc : Allocator) (handle : UInt64)
    (tuple : TcpTuple) (segment : TcpSegment) (initialSequence : UInt32) :
    ∃ r, receiveSyn alloc t handle tuple segment initialSequence = some r ∧
      ((r.1 = t ∧ ((∃ e, r.2 = .error e) ∨ ∃ row, t.findTupleMut tuple = some row)) ∨
        (r.1 = t.prunePending ∧ ∃ e, r.2 = .error e) ∨
        ∃ i l c, t.prunePending.Admissible tuple i l c ∧ c.handle = handle ∧
          r = (t.prunePending.admitted i l c, .ok handle)) := by
  unfold receiveSyn
  split
  next e _ => exact ⟨_, rfl, .inl ⟨rfl, .inl ⟨e, rfl⟩⟩⟩
  rename_i hv
  split
  next i c hfind =>
    refine ⟨_, rfl, .inl ⟨?_, .inr ⟨_, hfind⟩⟩⟩
    change ({ t with connections := t.connections.set i (c.onSegment segment 0).1 } : TcpConnectionTable) = t
    rw [onSegment_syn hv, set_self (findRow_some hfind).1]
  · have htable := admitSyn_table t tuple segment.payload.length
    split
    next t' e he =>
      rw [he] at htable
      exact ⟨_, rfl, .inr (.inl ⟨htable, e, rfl⟩)⟩
    next t' he =>
      rw [he] at htable
      change t' = t.prunePending at htable
      subst htable
      obtain ⟨e, ho⟩ | ⟨i, l, c, hadm, hc, ho⟩ :=
        openPassive_cases h.prunePending.toLoose alloc handle tuple segment initialSequence
      · exact ⟨_, ho, .inr (.inl ⟨rfl, e, rfl⟩)⟩
      · exact ⟨_, ho, .inr (.inr ⟨i, l, c, hadm, hc, rfl⟩)⟩

theorem Wellformed.receiveSyn (h : t.Wellformed) (alloc : Allocator)
    (handle : UInt64) (tuple : TcpTuple) (segment : TcpSegment) (initialSequence : UInt32) :
    ∃ r, t.receiveSyn alloc handle tuple segment initialSequence = some r ∧ r.1.Wellformed := by
  obtain ⟨r, he, ⟨hr, _⟩ | ⟨hr, _⟩ | ⟨i, l, c, hadm, _, hr⟩⟩ :=
    receiveSyn_cases h.toLoose alloc handle tuple segment initialSequence
  · exact ⟨r, he, hr ▸ h⟩
  · exact ⟨r, he, hr ▸ h.prunePending⟩
  · exact ⟨r, he, hr ▸ h.prunePending.admitted hadm⟩

end TcpConnectionTable

end MochiSyscalls.NetworkStack
