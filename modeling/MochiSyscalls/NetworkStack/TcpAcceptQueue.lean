import MochiSyscalls.NetworkStack.TcpTableRuns
import MochiSyscalls.Foundations.Queue

/-! # Accepting completed connections

A server with one listener, next to what an observer of its tables sees: the handles whose passive
open completed, in that order, with the fate of each (still waiting, handed out by `accept`, or lost
because its connection became Closed or Reset or left the table first), and the handles `accept`
returned. -/

namespace MochiSyscalls.NetworkStack
open Foundations Rows Runs Queue
set_option autoImplicit false

inductive ServerOp where
  | receivePacket (alloc : Allocator) (tuple : TcpTuple) (segment : TcpSegment) (now : UInt64) (entropy : Option UInt64)
  | accept (listener owner : UInt64)
  /-- `poll_transmit`, `tick` or another operation of the connection at a position -/
  | connection (index : ℕ) (op : LocalOp)

namespace TcpConnectionTable

/-- The handle names a connection that is neither Closed nor Reset. -/
def LiveHandle (t : TcpConnectionTable) (handle : UInt64) : Prop :=
  ∃ c ∈ t.connections, c.handle = handle ∧ ¬ c.Terminal
  deriving Decidable

/-- The pending connections that left SynReceived for Established or CloseWait between two tables. -/
def completions (t t' : TcpConnectionTable) : List UInt64 :=
  (t'.connections.filter fun c' => c'.canSend ∧ ∃ c ∈ t.connections, c.handle = c'.handle ∧
    c.state = .synReceived ∧ ∃ l ∈ t.listeners, c.handle ∈ l.pending).map (·.handle)

end TcpConnectionTable

structure AcceptHistory where
  table : TcpConnectionTable
  /-- handles in the order in which their passive opens completed -/
  completed : List UInt64
  /-- handles `accept` returned, in order -/
  accepted : List UInt64
  /-- `completed`, with the fate of each entry -/
  log : List (UInt64 × Fate)

namespace AcceptHistory

/-- The completions that wait in the table when the observation starts. -/
def start (t : TcpConnectionTable) : AcceptHistory :=
  let ready := t.listeners.flatMap (·.ready)
  { table := t, completed := ready, accepted := [],
    log := lose (fun handle => ¬ t.LiveHandle handle) (arrive [] ready) }

/-- The record of a step to the table `t'` in which `accept` returned the handle `handed`, if any. -/
def record (h : AcceptHistory) (t' : TcpConnectionTable) (handed : Option UInt64) : AcceptHistory :=
  let done := h.table.completions t'
  let log := match handed with
    | some handle => take handle h.log
    | none => h.log
  { table := t', completed := h.completed ++ done, accepted := h.accepted ++ handed.toList,
    log := lose (fun handle => ¬ t'.LiveHandle handle) (arrive log done) }

def handedOut : Except TcpConnectionError (Option (UInt64 × TcpTuple)) → Option UInt64
  | .ok (some (handle, _)) => some handle
  | _ => none

def step (h : AcceptHistory) : ServerOp → Option AcceptHistory
  | .receivePacket alloc tuple segment now entropy =>
    (h.table.receivePacket alloc tuple segment now entropy).map fun o => h.record o.table none
  | .accept listener owner => (h.table.accept listener owner).map fun r => h.record r.1 (handedOut r.2)
  | .connection index op => some (h.record (h.table.performAt index op) none)

end AcceptHistory

/-! ## What a step does to the waiting completions -/

namespace TcpConnectionTable

/-- The opens `done` completed, nothing was handed out, and what was handed out before stays in the table and off the
backlog. -/
structure Moves (t t' : TcpConnectionTable) (l l' : Listener) (done : List UInt64) : Prop where
  listener : t'.listeners = [l']
  identity : l'.handle = l.handle ∧ l'.owner = l.owner
  completions : t.completions t' = done
  ready : l'.ready.filter t'.LiveHandle = (l.ready.filter t.LiveHandle ++ done).filter t'.LiveHandle
  kept : ∀ c ∈ t.connections, c.handle ∉ l.pending →
    c.handle ∉ l'.pending ∧ ∃ c' ∈ t'.connections, c'.handle = c.handle

variable {t t' : TcpConnectionTable}

theorem Wellformed.completions_nil (h : t.Wellformed)
    (hev : ∀ c' ∈ t'.connections, c'.canSend → ∃ c ∈ t.connections, TcpConnection.Evolves c c') :
    t.completions t' = [] := by
  unfold TcpConnectionTable.completions
  rw [List.map_eq_nil_iff, List.filter_eq_nil_iff]
  intro c' hc' hd
  obtain ⟨hcan, c, hc, hch, hsr, _⟩ := of_decide_eq_true hd
  obtain ⟨d, hd, hdc⟩ := hev c' hc' hcan
  have hcd : c = d := h.connection_eq hc hd (hch.trans hdc.same.handle)
  subst hcd
  exact hcan.not_synReceived ((hdc.embryonic hcan.live).mpr hsr)

theorem liveHandle_of_evolves (hev : List.Forall₂ TcpConnection.Evolves t.connections t'.connections) {handle : UInt64}
    (hl : t'.LiveHandle handle) : t.LiveHandle handle := by
  obtain ⟨c', hc', he, hlive⟩ := hl
  obtain ⟨c, hc, hcc⟩ := exists_of_mem_right hev hc'
  exact ⟨c, hc, hcc.same.handle.symm.trans he, mt hcc.terminal hlive⟩

theorem filter_of_imp {p q : UInt64 → Prop} [DecidablePred p] [DecidablePred q] (keys : List UInt64)
    (h : ∀ k ∈ keys, q k → p k) : (keys.filter p).filter q = keys.filter q := by
  rw [List.filter_filter]
  apply List.filter_congr
  intro k hk
  by_cases hq : q k
  · simp [hq, h k hk hq]
  · simp [hq]

variable {l : Listener}

theorem Wellformed.moves_evolve (h : t.Wellformed) (hl : t.listeners = [l]) (hl' : t'.listeners = t.listeners)
    (hev : List.Forall₂ TcpConnection.Evolves t.connections t'.connections) : Moves t t' l l [] where
  listener := hl'.trans hl
  identity := ⟨rfl, rfl⟩
  completions := h.completions_nil fun c' hc' _ => exists_of_mem_right hev hc'
  ready := by
    rw [List.append_nil]
    exact (filter_of_imp l.ready fun _ _ => liveHandle_of_evolves hev).symm
  kept c hc hp := by
    obtain ⟨c', hc', hcc⟩ := exists_of_mem_left hev hc
    exact ⟨hp, c', hc', hcc.same.handle⟩

theorem prunePending_liveHandle (t : TcpConnectionTable) (handle : UInt64) :
    t.prunePending.LiveHandle handle ↔ t.LiveHandle handle := by
  constructor
  · rintro ⟨c, hc, he, hlive⟩
    exact ⟨c, List.mem_of_mem_filter hc, he, hlive⟩
  · rintro ⟨c, hc, he, hlive⟩
    exact ⟨c, List.mem_filter.mpr ⟨hc, decide_eq_true (.inl hlive)⟩, he, hlive⟩

theorem Wellformed.prune_ready (h : t.Wellformed)
    (hl : l ∈ t.listeners) : (l.prune t.prunePending.connections).ready = l.ready.filter t.LiveHandle := by
  change l.ready.filter (fun k => k ∈ (l.prune t.prunePending.connections).pending) = _
  apply List.filter_congr
  intro k hk
  rw [decide_eq_decide, Listener.mem_prune_pending]
  have hp := (h.queues l hl).waiting k hk
  exact ⟨fun hx => (prunePending_liveHandle t k).mp hx.2, fun hx => ⟨hp, (prunePending_liveHandle t k).mpr hx⟩⟩

variable {c : TcpConnection}

theorem mem_prunePending (hl : t.listeners = [l])
    (hc : c ∈ t.connections) (hp : c.handle ∉ l.pending) : c ∈ t.prunePending.connections := by
  refine List.mem_filter.mpr ⟨hc, decide_eq_true (.inr ?_)⟩
  rw [hl]
  rintro ⟨m, hm, hpm⟩
  rw [List.mem_singleton.mp hm] at hpm
  exact hp hpm

theorem Wellformed.moves_prune (h : t.Wellformed)
    (hl : t.listeners = [l]) : Moves t t.prunePending l (l.prune t.prunePending.connections) [] where
  listener := by
    change t.listeners.map (·.prune t.prunePending.connections) = _
    generalize t.prunePending.connections = cs
    rw [hl]
    rfl
  identity := ⟨rfl, rfl⟩
  completions := h.completions_nil fun c' hc' _ => ⟨c', List.mem_of_mem_filter hc', .refl c'⟩
  ready := by rw [h.prune_ready (hl ▸ List.mem_singleton.mpr rfl), List.append_nil]
  kept c hc hp :=
    ⟨fun hpp => hp (Listener.mem_prune_pending.mp hpp).1, c, mem_prunePending hl hc hp, rfl⟩

variable {i : ℕ}

theorem singleton_row {α : Type} {a b : α} (h : [a][i]? = some b) : i = 0 ∧ b = a := by
  cases i with
  | zero =>
    cases h
    exact ⟨rfl, rfl⟩
  | succ i => cases h

theorem Wellformed.moves_admitted (h : t.Wellformed)
    (hl : t.listeners = [l]) {tuple : TcpTuple} {k : ℕ} {m : Listener} {now : UInt64}
    (hadm : t.prunePending.Admissible tuple i m c) (hk : (t.prunePending.admitted i m c).connections[k]? = some c) :
    Moves t ((t.prunePending.admitted i m c).setConnection k (c.pollTransmit now).1) l
      ((l.prune t.prunePending.connections).enqueue c.handle) [] := by
  have hprune := h.moves_prune hl
  -- the listener the connection was admitted for is the only one
  have hm : i = 0 ∧ m = l.prune t.prunePending.connections := by
    have hi := hadm.listener
    rw [hprune.listener] at hi
    exact singleton_row hi
  obtain ⟨rfl, rfl⟩ := hm
  have hev : List.Forall₂ TcpConnection.Evolves (t.prunePending.connections ++ [c])
      ((t.prunePending.connections ++ [c]).set k (c.pollTransmit now).1) :=
    forall₂_set TcpConnection.Evolves.refl hk (TcpConnection.perform_evolves c (.pollTransmit now))
  refine ⟨?_, ⟨rfl, rfl⟩, ?_, ?_, ?_⟩
  · change t.prunePending.listeners.set 0 _ = _
    rw [hprune.listener]
    rfl
  · apply h.completions_nil
    intro c' hc' hcan
    obtain ⟨d, hd, hdc⟩ := exists_of_mem_right hev hc'
    obtain hd | rfl := mem_snoc.mp hd
    · exact ⟨d, List.mem_of_mem_filter hd, hdc⟩
    · exact absurd ((hdc.embryonic hcan.live).mpr hadm.state) hcan.not_synReceived
  · change (l.prune t.prunePending.connections).ready.filter _ = _
    rw [h.prune_ready (hl ▸ List.mem_singleton.mpr rfl), List.append_nil]
  · intro d hd hp
    have hdp := mem_prunePending hl hd hp
    obtain ⟨d', hd', hdd⟩ := exists_of_mem_left hev (List.mem_append_left _ hdp)
    refine ⟨?_, d', hd', hdd.same.handle⟩
    intro hpp
    obtain hpp | hpp := mem_snoc.mp hpp
    · exact (hprune.kept d hd hp).1 hpp
    · exact hadm.fresh (.inr ⟨d, hdp, hpp⟩)

variable {c' : TcpConnection}

section

variable (h : t.Wellformed) (hl : t.listeners = [l]) (hi : t.connections[i]? = some c)
  (hsr : c.state = .synReceived) (hsame : TcpConnection.Same c c') (hcan : c'.canSend)
include h hl hi hsr hsame hcan

theorem Wellformed.completions_set :
    t.completions (t.setConnection i c') = if c.handle ∈ l.pending then [c.handle] else [] := by
  have hc := List.mem_of_getElem? hi
  have hold : ∀ d ∈ t.connections, ¬ (d.canSend ∧ ∃ e ∈ t.connections, e.handle = d.handle ∧
      e.state = .synReceived ∧ ∃ m ∈ t.listeners, e.handle ∈ m.pending) := by
    rintro d hd ⟨hcand, e, he, hed, hes, _⟩
    rw [h.connection_eq he hd hed] at hes
    exact hcand.not_synReceived hes
  have hnew : (c'.canSend ∧ ∃ e ∈ t.connections, e.handle = c'.handle ∧ e.state = .synReceived ∧
      ∃ m ∈ t.listeners, e.handle ∈ m.pending) ↔ c.handle ∈ l.pending := by
    rw [hl]
    constructor
    · rintro ⟨_, e, he, hec, _, m, hm, hp⟩
      rw [h.connection_eq he hc (hec.trans hsame.handle), List.mem_singleton.mp hm] at hp
      exact hp
    · intro hp
      exact ⟨hcan, c, hc, hsame.handle.symm, hsr, l, List.mem_singleton.mpr rfl, hp⟩
  have hfilter := filter_set hold (List.getElem?_eq_some_iff.mp hi).1 c'
  unfold TcpConnectionTable.completions TcpConnectionTable.setConnection
  rw [hfilter]
  by_cases hp : c.handle ∈ l.pending
  · rw [List.filter_eq_self.mpr (by simpa using hnew.mpr hp), if_pos hp, List.map_singleton, hsame.handle]
  · rw [List.filter_eq_nil_iff.mpr (by simpa using mt hnew.mp hp), if_neg hp, List.map_nil]

theorem Wellformed.moves_complete :
    ∃ l' done, Moves t ((t.setConnection i c').noteCompletion c' c.handle (t.awaiting c.handle)) l l' done := by
  have hc := List.mem_of_getElem? hi
  have hlive : ¬ c.Terminal := by simp [TcpConnection.Terminal, hsr]
  have hdone := h.completions_set hl hi hsr hsame hcan
  have hback : ∀ k, (t.setConnection i c').LiveHandle k → t.LiveHandle k := by
    rintro k ⟨d', hd', hk, hld⟩
    obtain hd' | rfl := List.mem_or_eq_of_mem_set hd'
    · exact ⟨d', hd', hk, hld⟩
    · exact ⟨c, hc, hsame.handle.symm.trans hk, hlive⟩
  have hkept : ∀ d ∈ t.connections, ∃ d' ∈ t.connections.set i c', d'.handle = d.handle := by
    intro d hd
    obtain ⟨d', hd', hdd⟩ := exists_of_mem_left (forall₂_set TcpConnection.Same.refl hi hsame) hd
    exact ⟨d', hd', hdd.handle⟩
  cases ha : t.awaiting c.handle with
  | none =>
    have hnp := h.awaiting_none hc hsr ha (hl ▸ List.mem_singleton.mpr rfl)
    rw [if_neg hnp] at hdone
    refine ⟨l, [], hl, ⟨rfl, rfl⟩, hdone, ?_, fun d hd hp => ⟨hp, hkept d hd⟩⟩
    rw [List.append_nil]
    exact (filter_of_imp l.ready fun k _ => hback k).symm
  | some row =>
    obtain ⟨j, m⟩ := row
    obtain ⟨hj, hp, _⟩ := h.awaiting_some hc hlive ha
    rw [hl] at hj
    obtain ⟨rfl, rfl⟩ := singleton_row hj
    rw [if_pos hp] at hdone
    rw [noteCompletion_some hcan]
    refine ⟨m.complete c.handle, [c.handle], ?_, ⟨rfl, rfl⟩, hdone, ?_, fun d hd hpd => ⟨hpd, hkept d hd⟩⟩
    · change t.listeners.set 0 _ = _
      rw [hl]
      rfl
    · change (m.ready ++ [c.handle]).filter (t.setConnection i c').LiveHandle =
        (m.ready.filter t.LiveHandle ++ [c.handle]).filter (t.setConnection i c').LiveHandle
      rw [List.filter_append, List.filter_append]
      congr 1
      exact (filter_of_imp m.ready fun k _ => hback k).symm

end

theorem Wellformed.moves_routed (h : t.Wellformed)
    (hl : t.listeners = [l]) {tuple : TcpTuple} {segment : TcpSegment} {now : UInt64}
    (hr : Routed t tuple segment now t') : ∃ l' done, Moves t t' l l' done := by
  cases hr with
  | kept => exact ⟨l, [], h.moves_evolve hl rfl (List.forall₂_same.mpr fun c _ => .refl c)⟩
  | @segment i c hfind _ =>
    obtain ⟨hi, _, hlive⟩ := findRow_some hfind
    have hrec := TcpConnection.onSegment_received c segment now
    obtain hev | ⟨hsr, hcan⟩ := hrec.evolves hlive
    · rw [h.noteCompletion_evolves hi hlive hev]
      exact ⟨l, [], h.moves_evolve hl rfl (forall₂_set TcpConnection.Evolves.refl hi hev)⟩
    · exact h.moves_complete hl hi hsr hrec.same hcan
  | pruned => exact ⟨_, [], h.moves_prune hl⟩
  | admitted _ hadm hk => exact ⟨_, [], h.moves_admitted hl hadm hk⟩

end TcpConnectionTable

/-! ## Runs of the server -/

namespace AcceptHistory
open TcpConnectionTable

/-- The live part of `ready` is what waits in the log; everything handed out stays in the table, off the backlog. -/
structure Tracks (h : AcceptHistory) (l : Listener) : Prop where
  wellformed : h.table.Wellformed
  listener : h.table.listeners = [l]
  fifo : Fifo h.log
  order : h.log.map (·.1) = h.completed
  waiting : withFate .waiting h.log = l.ready.filter h.table.LiveHandle
  taken : withFate .taken h.log = h.accepted
  nodup : h.accepted.Nodup
  kept : ∀ k ∈ h.accepted, k ∉ l.pending ∧ ∃ c ∈ h.table.connections, c.handle = k

variable {l : Listener}

theorem start_tracks {t : TcpConnectionTable} (h : t.Wellformed) (hl : t.listeners = [l]) : (start t).Tracks l := by
  have hready : t.listeners.flatMap (·.ready) = l.ready := by
    rw [hl, List.flatMap_singleton]
  have hnil : Fifo ([] : List (UInt64 × Fate)) := List.Pairwise.nil
  unfold start
  rw [hready]
  refine ⟨h, hl, ?_, ?_, ?_, ?_, List.nodup_nil, nofun⟩ <;> dsimp only
  · exact (hnil.arrive l.ready).lose
  · rw [keys_lose, keys_arrive, List.map_nil, List.nil_append]
  · rw [waiting_lose, waiting_arrive, withFate_nil, List.nil_append]
    simp only [not_not]
  · rw [taken_lose, taken_arrive, withFate_nil]

variable {h : AcceptHistory}

theorem Tracks.record_moves {l' : Listener} (ht : h.Tracks l) {t' : TcpConnectionTable}
    {done : List UInt64} (hw : t'.Wellformed) (hm : Moves h.table t' l l' done) : (h.record t' none).Tracks l' := by
  unfold record
  rw [hm.completions]
  refine ⟨hw, hm.listener, ?_, ?_, ?_, ?_, ?_, ?_⟩ <;> dsimp only
  · exact (ht.fifo.arrive done).lose
  · rw [keys_lose, keys_arrive, ht.order]
  · rw [waiting_lose, waiting_arrive, ht.waiting, hm.ready]
    simp only [not_not]
  · rw [taken_lose, taken_arrive, ht.taken, Option.toList_none, List.append_nil]
  · rw [Option.toList_none, List.append_nil]
    exact ht.nodup
  · intro k hk
    rw [Option.toList_none, List.append_nil] at hk
    obtain ⟨hp, c, hc, rfl⟩ := ht.kept k hk
    exact hm.kept c hc hp

theorem Tracks.record_accept (ht : h.Tracks l) {handle : UInt64} {rest : List UInt64} {c : TcpConnection}
    (hready : (l.prune h.table.prunePending.connections).ready = handle :: rest)
    (hc : c ∈ h.table.prunePending.connections) (hch : c.handle = handle) :
    (h.record (h.table.prunePending.setListener 0 ((l.prune h.table.prunePending.connections).release handle))
      (some handle)).Tracks ((l.prune h.table.prunePending.connections).release handle) := by
  have hw := ht.wellformed
  have hlm : l ∈ h.table.listeners := ht.listener ▸ List.mem_singleton.mpr rfl
  have hprune := hw.moves_prune ht.listener
  have hi : h.table.prunePending.listeners[0]? = some (l.prune h.table.prunePending.connections) := by
    rw [hprune.listener]
    rfl
  have hwp := hw.prunePending
  have hq := hwp.queues _ (List.mem_of_getElem? hi)
  have hpending : handle ∈ (l.prune h.table.prunePending.connections).pending :=
    hq.waiting handle (hready ▸ List.mem_cons_self)
  have hwaiting : withFate .waiting h.log = handle :: rest := by
    rw [ht.waiting, ← hw.prune_ready hlm, hready]
  obtain ⟨hfifo, hwait, htaken, hkeys⟩ := take_spec ht.fifo hwaiting
  have hdone : h.table.completions (h.table.prunePending.setListener 0
      ((l.prune h.table.prunePending.connections).release handle)) = [] := hprune.completions
  have hrest : ((l.prune h.table.prunePending.connections).release handle).ready = rest := by
    simp [Listener.release, hready]
  have hfresh : handle ∉ h.accepted := by
    intro hk
    exact (ht.kept handle hk).1 (Listener.mem_prune_pending.mp hpending).1
  unfold record
  rw [hdone]
  refine ⟨hwp.release hi hready, ?_, ?_, ?_, ?_, ?_, ?_, ?_⟩ <;> dsimp only
  · change h.table.prunePending.listeners.set 0 _ = _
    rw [hprune.listener]
    rfl
  · exact (hfifo.arrive []).lose
  · rw [keys_lose, keys_arrive, hkeys, ht.order]
  · rw [waiting_lose, waiting_arrive, hwait, List.append_nil, hrest]
    simp only [not_not]
  · rw [taken_lose, taken_arrive, htaken, ht.taken, Option.toList_some]
  · rw [Option.toList_some]
    exact nodup_snoc ht.nodup hfresh
  · intro k hk
    rw [Option.toList_some] at hk
    obtain hk | rfl := mem_snoc.mp hk
    · obtain ⟨hp, d, hd, rfl⟩ := ht.kept k hk
      obtain ⟨hp', d', hd', he⟩ := hprune.kept d hd hp
      exact ⟨fun hx => hp' (List.mem_of_mem_filter hx), d', hd', he⟩
    · refine ⟨?_, c, hc, hch⟩
      simp [Listener.release]

theorem Tracks.step (ht : h.Tracks l) (op : ServerOp) :
    ∃ h', h.step op = some h' ∧ ∃ l', h'.Tracks l' ∧ l'.handle = l.handle ∧ l'.owner = l.owner := by
  have hw := ht.wellformed
  cases op with
  | receivePacket alloc tuple segment now entropy =>
    obtain ⟨o, he, hr⟩ := receivePacket_routed hw alloc tuple segment now entropy
    obtain ⟨l', done, hm⟩ := hw.moves_routed ht.listener hr
    refine ⟨h.record o.table none, ?_, l', ht.record_moves (hw.routed hr) hm, hm.identity⟩
    rw [AcceptHistory.step, he]
    rfl
  | accept listener owner =>
    rw [AcceptHistory.step]
    obtain ⟨_, e, he⟩ | ⟨i, m, hi, _, ⟨_, he⟩ | ⟨handle, rest, c, hready, hc, hch, he⟩⟩ :=
      accept_cases hw.toLoose listener owner
    · refine ⟨_, by rw [he]; rfl, l, ?_, rfl, rfl⟩
      exact ht.record_moves hw (hw.moves_evolve ht.listener rfl (List.forall₂_same.mpr fun c _ => .refl c))
    · exact ⟨_, by rw [he]; rfl, _, ht.record_moves hw.prunePending (hw.moves_prune ht.listener), rfl, rfl⟩
    · rw [(hw.moves_prune ht.listener).listener] at hi
      obtain ⟨rfl, rfl⟩ := singleton_row hi
      exact ⟨_, by rw [he]; rfl, _, ht.record_accept hready hc hch, rfl, rfl⟩
  | connection index op =>
    refine ⟨_, rfl, l, ?_, rfl, rfl⟩
    unfold performAt
    split
    next c hi =>
      have hev := c.perform_evolves op
      exact ht.record_moves (hw.setConnection hi hev)
        (hw.moves_evolve ht.listener rfl (forall₂_set TcpConnection.Evolves.refl hi hev))
    · exact ht.record_moves hw (hw.moves_evolve ht.listener rfl (List.forall₂_same.mpr fun c _ => .refl c))

theorem Tracks.accept_next (ht : h.Tracks l) : ∃ t' r, h.table.accept l.handle l.owner = some (t', .ok r) ∧
      r.map (·.1) = (withFate .waiting h.log).head? := by
  have hw := ht.wellformed
  have hlm : l ∈ h.table.listeners := ht.listener ▸ List.mem_singleton.mpr rfl
  obtain ⟨hno, _⟩ | ⟨i, m, hi, _, hcase⟩ := accept_cases hw.toLoose l.handle l.owner
  · exact absurd rfl (hno l hlm rfl)
  · rw [(hw.moves_prune ht.listener).listener] at hi
    obtain ⟨rfl, rfl⟩ := singleton_row hi
    rw [hw.prune_ready hlm, ← ht.waiting] at hcase
    obtain ⟨hnil, he⟩ | ⟨handle, rest, c, hcons, _, _, he⟩ := hcase
    · exact ⟨_, _, he, by rw [hnil]; rfl⟩
    · exact ⟨_, _, he, by rw [hcons]; rfl⟩

/-- **Each completed open is accepted once and in completion order.** What is passed over was lost before, and the next
call returns the first handle that still waits. -/
theorem accepted_in_order {capacity : ℕ} {before : List TableOp} {t : TcpConnectionTable} {l : Listener}
    (hreach : runPartial TcpConnectionTable.step (new capacity) before = some t) (hone : t.listeners = [l])
    (ops : List ServerOp) :
    ∃ h, runPartial step (start t) ops = some h ∧ h.accepted.Sublist h.completed ∧ h.accepted.Nodup ∧
      h.log.map (·.1) = h.completed ∧ withFate .taken h.log = h.accepted ∧
      (h.log.Pairwise fun a b => b.2 = .taken → a.2 = .taken ∨ a.2 = .lost) ∧
      ∃ t' r, h.table.accept l.handle l.owner = some (t', .ok r) ∧ r.map (·.1) = (withFate .waiting h.log).head? := by
  obtain ⟨t', hreach', hw, _⟩ := runPartial_wellformed capacity before
  cases hreach.symm.trans hreach'
  have hinv : ∀ h op, (∃ m, h.Tracks m ∧ m.handle = l.handle ∧ m.owner = l.owner) →
      ∃ h', step h op = some h' ∧ ∃ m, h'.Tracks m ∧ m.handle = l.handle ∧ m.owner = l.owner := by
    rintro h op ⟨m, ht, hm, ho⟩
    obtain ⟨h', hs, m', ht', hm', ho'⟩ := ht.step op
    exact ⟨h', hs, m', ht', hm'.trans hm, ho'.trans ho⟩
  obtain ⟨h, hrun, m, ht, hm, ho⟩ := runPartial_invariant step hinv ⟨l, start_tracks hw hone, rfl, rfl⟩ ops
  refine ⟨h, hrun, ?_, ht.nodup, ht.order, ht.taken, ht.fifo.imp ?_, ?_⟩
  · rw [← ht.taken, ← ht.order]
    exact withFate_sublist .taken h.log
  · intro a b hab hb
    cases hf : a.2 with
    | waiting => exact absurd hb (hab hf)
    | taken => exact .inl rfl
    | lost => exact .inr rfl
  · rw [← hm, ← ho]
    exact ht.accept_next

end AcceptHistory

/-! ## A server that accepts one connection -/

namespace ServerFixture
open TcpFixture

def openAndAccept : List ServerOp :=
  [.receivePacket (fun _ => true) tuple (segment tcpFlagSyn 500 0 []) 0 (some 0x6400000001),
    .receivePacket (fun _ => true) tuple (segment tcpFlagAck 501 101 []) 1 none,
    .accept 9 7]

end ServerFixture

namespace AcceptHistory

theorem accepted_in_order_fixture :
    ∃ h, runPartial step (start ServerFixture.server) ServerFixture.openAndAccept = some h ∧
      h.accepted.length = 1 ∧ h.accepted.Sublist h.completed := by
  obtain ⟨h, hrun, hsub, _⟩ := accepted_in_order ServerFixture.server_reached rfl ServerFixture.openAndAccept
  have hlen : (runPartial step (start ServerFixture.server) ServerFixture.openAndAccept).map (·.accepted.length) =
      some 1 := by decide
  rw [hrun] at hlen
  exact ⟨h, hrun, Option.some.inj hlen, hsub⟩

end AcceptHistory

end MochiSyscalls.NetworkStack
