import MochiSyscalls.NetworkStack.TcpTableInvariant

/-! # Runs of the connection table

Every operation of the table, and every operation of one of its connections that is not the arrival
of a segment, keeps the invariant and does not panic; so the invariant holds in every table reached
from an empty one. -/

namespace MochiSyscalls.NetworkStack
open Foundations Words Rows Runs List
set_option autoImplicit false

namespace TcpConnection

theorem segmentSuccessors_target {s s' : TcpState} (h : s' ∈ segmentSuccessors s) :
    s' ≠ .synReceived ∧ s' ≠ .reset := by
  cases s <;> simp [segmentSuccessors] at h <;> grind

variable {c : TcpConnection}

theorem Received.evolves {c' : TcpConnection} {segment : TcpSegment} {now : UInt64}
    (h : Received c segment now c') (hlive : ¬ c.Terminal) : Evolves c c' ∨ (c.state = .synReceived ∧ c'.canSend) := by
  obtain he | he | he := h.state
  · exact .inl (.of_state h.same he)
  · exact .inl (.of_terminal h.same (.inr he))
  · by_cases hsr : c.state = .synReceived
    · right
      rw [hsr] at he
      simpa [segmentSuccessors, canSend, hsr] using he
    · left
      exact ⟨h.same, fun ht => absurd ht hlive, fun _ => iff_of_false (segmentSuccessors_target he).1 hsr⟩

theorem canSend.live (h : c.canSend) : ¬ c.Terminal := fun ht => ht.not_canSend h

theorem canSend.not_synReceived (h : c.canSend) : c.state ≠ .synReceived := by
  obtain h | h := h <;> rw [h] <;> decide

end TcpConnection

namespace TcpConnectionTable

/-! ## Segments -/

theorem receiveSegment_cases (alloc : Allocator) (t : TcpConnectionTable) (tuple : TcpTuple)
    (segment : TcpSegment) (now : UInt64) :
    (∃ e, t.receiveSegment alloc tuple segment now = (t, .error e)) ∨
    ∃ i c, t.findTupleMut tuple = some (i, c) ∧
      t.receiveSegment alloc tuple segment now =
        ((t.setConnection i (c.onSegment segment now).1).noteCompletion (c.onSegment segment now).1 c.handle
          (t.awaiting c.handle), (c.onSegment segment now).2) := by
  unfold receiveSegment
  split
  · exact .inl ⟨_, rfl⟩
  split
  · exact .inl ⟨_, rfl⟩
  rename_i i c hfind
  dsimp only
  split
  · exact .inl ⟨_, rfl⟩
  · exact .inr ⟨i, c, hfind, rfl⟩

variable {c : TcpConnection} {i : ℕ} {l : Listener} {t : TcpConnectionTable}

theorem Wellformed.awaiting_some (h : t.Wellformed) (hc : c ∈ t.connections) (hlive : ¬ c.Terminal)
    (ha : t.awaiting c.handle = some (i, l)) : t.listeners[i]? = some l ∧ c.handle ∈ l.pending ∧
      c.state = .synReceived := by
  obtain ⟨hi, hp, hr⟩ := findRow_some ha
  refine ⟨hi, hp, ?_⟩
  by_contra hs
  exact hr ((h.queues l (mem_of_getElem? hi)).completed c hc hp hlive hs)

theorem Wellformed.awaiting_none (h : t.Wellformed)
    (hc : c ∈ t.connections) (hsr : c.state = .synReceived) (ha : t.awaiting c.handle = none) (hl : l ∈ t.listeners) :
    c.handle ∉ l.pending := by
  intro hp
  refine findRow_none.mp ha l hl ⟨hp, fun hr => ?_⟩
  exact (h.queues l hl).embryonic c hc hr hsr

theorem noteCompletion_some (hcan : c.canSend) (t : TcpConnectionTable) (handle : UInt64) (i : ℕ) (l : Listener) :
    t.noteCompletion c handle (some (i, l)) = t.setListener i (l.complete handle) := if_pos hcan

variable {c' : TcpConnection}

theorem Wellformed.noteCompletion_listeners (h : t.Wellformed)
    (hc : c ∈ t.connections) (hsr : c.state = .synReceived) (hcan : c'.canSend) (cs : List TcpConnection) :
    List.Forall₂ Listener.Narrows t.listeners
        ({ t with connections := cs }.noteCompletion c' c.handle (t.awaiting c.handle)).listeners ∧
      ∀ l' ∈ ({ t with connections := cs }.noteCompletion c' c.handle (t.awaiting c.handle)).listeners,
        (l' ∈ t.listeners ∧ c.handle ∉ l'.pending) ∨
          ∃ l ∈ t.listeners, c.handle ∈ l.pending ∧ l' = l.complete c.handle := by
  cases ha : t.awaiting c.handle with
  | none =>
    exact ⟨forall₂_same.mpr fun l _ => .refl l,
      fun l hl => .inl ⟨hl, h.awaiting_none hc hsr ha hl⟩⟩
  | some row =>
    obtain ⟨i, l⟩ := row
    obtain ⟨hi, hp, _⟩ := findRow_some ha
    have hlm := mem_of_getElem? hi
    rw [noteCompletion_some hcan]
    refine ⟨forall₂_set Listener.Narrows.refl hi ⟨⟨rfl, rfl, rfl⟩, fun _ => id⟩, ?_⟩
    intro m hm
    obtain rfl | ⟨hmm, hne⟩ := mem_set_of_key h.handles.of_append_right hi (b := l.complete c.handle) rfl hm
    · exact .inr ⟨l, hlm, hp, rfl⟩
    · refine .inl ⟨hmm, fun hpm => hne ?_⟩
      rw [h.single m hmm l hlm _ hpm hp]

theorem noteCompletion_connections (t : TcpConnectionTable) (c : TcpConnection) (handle : UInt64)
    (listener : Option (ℕ × Listener)) :
    (t.noteCompletion c handle listener).connections = t.connections ∧
      (t.noteCompletion c handle listener).capacity = t.capacity := by
  unfold noteCompletion
  split
  · split <;> exact ⟨rfl, rfl⟩
  · exact ⟨rfl, rfl⟩

theorem Wellformed.complete (h : t.Wellformed)
    (hi : t.connections[i]? = some c) (hsr : c.state = .synReceived) (hsame : TcpConnection.Same c c')
    (hcan : c'.canSend) : ((t.setConnection i c').noteCompletion c' c.handle (t.awaiting c.handle)).Wellformed := by
  have hc := mem_of_getElem? hi
  obtain ⟨hnarrow, hmem⟩ := h.noteCompletion_listeners hc hsr hcan (t.connections.set i c')
  obtain ⟨hcs, hcap⟩ := noteCompletion_connections (t.setConnection i c') c' c.handle (t.awaiting c.handle)
  change _ = t.connections.set i c' at hcs
  have hlive : ¬ c.Terminal := by simp [TcpConnection.Terminal, hsr]
  have hrows : List.Forall₂ (fun d d' => TcpConnection.Same d d' ∧ (d.Terminal → d'.Terminal))
      t.connections (t.connections.set i c') :=
    forall₂_set (fun d => ⟨.refl d, id⟩) hi ⟨hsame, fun ht => absurd ht hlive⟩
  have hdmem : ∀ d ∈ t.connections.set i c', d = c' ∨ (d ∈ t.connections ∧ d.handle ≠ c.handle) :=
    fun d hd => mem_set_of_key h.handles.of_append_left hi hsame.handle hd
  refine ⟨h.toLoose.narrow (hcs ▸ hrows) hnarrow hcap ?_, ?_⟩
  · intro l' hl'
    rw [hcs]
    obtain ⟨hl, hnp⟩ | ⟨l, hl, hp, rfl⟩ := hmem l' hl'
    · have hq := h.queues l' hl
      have hne : ∀ d ∈ t.connections.set i c', d.handle ∈ l'.pending → d ∈ t.connections := by
        intro d hd hpd
        obtain rfl | ⟨hdm, _⟩ := hdmem d hd
        · rw [hsame.handle] at hpd
          exact absurd hpd hnp
        · exact hdm
      exact ⟨hq.nodup, hq.waiting, fun d hd hp => hq.owned d (hne d hd hp) hp,
        fun d hd hp => hq.completed d (hne d hd hp) hp,
        fun d hd hr => hq.embryonic d (hne d hd (hq.waiting _ hr)) hr⟩
    · have hq := h.queues l hl
      have hready : c.handle ∉ l.ready := fun hr => hq.embryonic c hc hr hsr
      have hmr : ∀ handle, handle ∈ (l.complete c.handle).ready ↔ handle ∈ l.ready ∨ handle = c.handle := by
        intro handle
        simp [Listener.complete]
      refine ⟨?_, ?_, ?_, ?_, ?_⟩
      · exact nodup_snoc hq.nodup hready
      · intro handle hr
        obtain hr | rfl := (hmr handle).mp hr
        · exact hq.waiting handle hr
        · exact hp
      · intro d hd hpd
        obtain rfl | ⟨hdm, _⟩ := hdmem d hd
        · rw [hsame.owner, hsame.tuple]
          exact hq.owned c hc hp
        · exact hq.owned d hdm hpd
      · intro d hd hpd hld hsd
        obtain rfl | ⟨hdm, _⟩ := hdmem d hd
        · exact (hmr _).mpr (.inr hsame.handle)
        · exact (hmr _).mpr (.inl (hq.completed d hdm hpd hld hsd))
      · intro d hd hr
        obtain rfl | ⟨hdm, hne⟩ := hdmem d hd
        · exact hcan.not_synReceived
        · exact hq.embryonic d hdm (((hmr _).mp hr).resolve_right hne)
  · intro l' hl' handle hpl
    obtain ⟨l, hl, hn⟩ := exists_of_mem_right hnarrow hl'
    obtain ⟨d, hd, hdh⟩ := h.present l hl handle (hn.pending _ hpl)
    obtain ⟨d', hd', hs, _⟩ := exists_of_mem_left hrows hd
    exact ⟨d', hcs ▸ hd', hs.handle.trans hdh⟩

theorem Wellformed.noteCompletion_evolves (h : t.Wellformed) (hi : t.connections[i]? = some c) (hlive : ¬ c.Terminal)
    (hev : TcpConnection.Evolves c c') :
    (t.setConnection i c').noteCompletion c' c.handle (t.awaiting c.handle) = t.setConnection i c' := by
  unfold noteCompletion
  split
  next j l ha =>
    rw [if_neg]
    intro hcan
    have hsr := (h.awaiting_some (mem_of_getElem? hi) hlive ha).2.2
    exact hcan.not_synReceived ((hev.embryonic hcan.live).mpr hsr)
  · rfl

theorem Wellformed.segment (h : t.Wellformed)
    {segment : TcpSegment} {now : UInt64} (hi : t.connections[i]? = some c) (hlive : ¬ c.Terminal)
    (hr : TcpConnection.Received c segment now c') :
    ((t.setConnection i c').noteCompletion c' c.handle (t.awaiting c.handle)).Wellformed := by
  obtain hev | ⟨hsr, hcan⟩ := hr.evolves hlive
  · rw [h.noteCompletion_evolves hi hlive hev]
    exact h.setConnection hi hev
  · exact h.complete hi hsr hr.same hcan

theorem Wellformed.receiveSegment (h : t.Wellformed) (alloc : Allocator)
    (tuple : TcpTuple) (segment : TcpSegment) (now : UInt64) :
    (t.receiveSegment alloc tuple segment now).1.Wellformed := by
  obtain ⟨e, he⟩ | ⟨i, c, hfind, he⟩ := receiveSegment_cases alloc t tuple segment now
  · rw [he]
    exact h
  · rw [he]
    obtain ⟨hi, _, hlive⟩ := findRow_some hfind
    exact h.segment hi hlive (TcpConnection.onSegment_received c segment now)

/-! ## Listeners -/

theorem prunePending_listener (t : TcpConnectionTable) (hi : t.listeners[i]? = some l) :
    t.prunePending.listeners[i]? = some (l.prune t.prunePending.connections) := by
  change (t.listeners.map _)[i]? = _
  rw [getElem?_map, hi]
  rfl

theorem accept_cases (h : t.Loose) (listener owner : UInt64) :
    ((∀ l ∈ t.listeners, l.handle = listener → l.owner ≠ owner) ∧
      ∃ e, t.accept listener owner = some (t, .error e)) ∨
    ∃ i l, t.prunePending.listeners[i]? = some l ∧ l.handle = listener ∧
      ((l.ready = [] ∧ t.accept listener owner = some (t.prunePending, .ok none)) ∨
        ∃ handle rest c, l.ready = handle :: rest ∧ c ∈ t.prunePending.connections ∧ c.handle = handle ∧
          t.accept listener owner =
            some (t.prunePending.setListener i (l.release handle), .ok (some (handle, c.tuple)))) := by
  have hw := h.prunePending
  unfold accept
  split
  next hnone => exact .inl ⟨fun l hl he => absurd he (findRow_none.mp hnone l hl), _, rfl⟩
  rename_i i l hfind
  obtain ⟨hi, hl⟩ := findRow_some hfind
  split
  next howner =>
    refine .inl ⟨fun m hm he => ?_, _, rfl⟩
    rw [h.listener_eq hm (mem_of_getElem? hi) (he.trans hl.symm)]
    exact howner
  right
  have hpi := t.prunePending_listener hi
  have hlm := mem_of_getElem? hpi
  refine ⟨i, _, hpi, hl, ?_⟩
  simp only [hpi]
  cases hready : (l.prune t.prunePending.connections).ready with
  | nil => exact .inl ⟨rfl, rfl⟩
  | cons handle rest =>
    have hp : handle ∈ (l.prune t.prunePending.connections).pending :=
      (hw.queues _ hlm).waiting handle (hready ▸ mem_cons_self)
    obtain ⟨d, hd, hdh⟩ := hw.present _ hlm handle hp
    cases hfind' : t.prunePending.connections.find? (fun c => c.handle = handle) with
    | none => simpa [hdh] using find?_eq_none.mp hfind' d hd
    | some c =>
      have hch : c.handle = handle := by simpa using find?_some hfind'
      refine .inr ⟨handle, rest, c, rfl, mem_of_find?_eq_some hfind', hch, ?_⟩
      simp only [hfind']

section

variable (h : t.Wellformed)
include h

theorem Wellformed.setListener {l' : Listener}
    (hi : t.listeners[i]? = some l) (hn : l.Narrows l') (hq : l'.Queued t.connections) :
    (t.setListener i l').Wellformed := by
  have hnarrow : List.Forall₂ Listener.Narrows t.listeners (t.listeners.set i l') :=
    forall₂_set Listener.Narrows.refl hi hn
  refine ⟨h.toLoose.narrow (forall₂_same.mpr fun d _ => ⟨.refl d, id⟩) hnarrow rfl ?_, ?_⟩
  · intro m hm
    obtain hm | rfl := mem_or_eq_of_mem_set hm
    · exact h.queues m hm
    · exact hq
  · intro m hm k hk
    obtain ⟨m₀, hm₀, hn₀⟩ := exists_of_mem_right hnarrow hm
    exact h.present m₀ hm₀ k (hn₀.pending k hk)

theorem Wellformed.release
    {handle : UInt64} {rest : List UInt64} (hi : t.listeners[i]? = some l) (hready : l.ready = handle :: rest) :
    (t.setListener i (l.release handle)).Wellformed := by
  have hq := h.queues l (mem_of_getElem? hi)
  have hnodup : handle ∉ rest ∧ rest.Nodup := nodup_cons.mp (hready ▸ hq.nodup)
  have hrest : (l.release handle).ready = rest := by simp [Listener.release, hready]
  have hpending : ∀ k, k ∈ (l.release handle).pending ↔ k ∈ l.pending ∧ k ≠ handle := by
    intro k
    simp [Listener.release]
  have hmr : ∀ k ∈ rest, k ∈ l.ready := fun k hk => hready ▸ mem_cons_of_mem _ hk
  refine h.setListener hi ⟨⟨rfl, rfl, rfl⟩, fun k hk => ((hpending k).mp hk).1⟩ ?_
  refine ⟨hrest ▸ hnodup.2, ?_, fun d hd hp => hq.owned d hd ((hpending _).mp hp).1, ?_, ?_⟩
  · intro k hk
    rw [hrest] at hk
    exact (hpending k).mpr ⟨hq.waiting k (hmr k hk), fun he => hnodup.1 (he ▸ hk)⟩
  · intro d hd hp hld hsd
    obtain ⟨hp, hne⟩ := (hpending _).mp hp
    have hk := hq.completed d hd hp hld hsd
    rw [hready] at hk
    rw [hrest]
    exact (mem_cons.mp hk).resolve_left hne
  · intro d hd hk
    rw [hrest] at hk
    exact hq.embryonic d hd (hmr _ hk)

theorem Wellformed.accept (listener owner : UInt64) : ∃ r, t.accept listener owner = some r ∧ r.1.Wellformed := by
  obtain ⟨_, e, he⟩ | ⟨i, l, hi, _, ⟨_, he⟩ | ⟨handle, rest, c, hready, _, _, he⟩⟩ :=
    accept_cases h.toLoose listener owner
  · exact ⟨_, he, h⟩
  · exact ⟨_, he, h.prunePending⟩
  · exact ⟨_, he, h.prunePending.release hi hready⟩

theorem Wellformed.listenerReady (handle owner : UInt64) :
    ∃ r, t.listenerReady handle owner = some r ∧ r.1.Wellformed := by
  unfold TcpConnectionTable.listenerReady
  split
  · exact ⟨_, rfl, h⟩
  rename_i i l hfind
  split
  · exact ⟨_, rfl, h⟩
  simp only [t.prunePending_listener (findRow_some hfind).1]
  exact ⟨_, rfl, h.prunePending⟩

theorem Wellformed.setBacklog (handle owner : UInt64)
    (backlog : ℕ) : (t.setBacklog handle owner backlog).1.Wellformed := by
  unfold TcpConnectionTable.setBacklog
  split
  · exact h
  rename_i i l hfind
  obtain ⟨hi, _⟩ := findRow_some hfind
  split
  · exact h
  split
  · exact h
  have hq := h.queues l (mem_of_getElem? hi)
  exact h.setListener hi ⟨⟨rfl, rfl, rfl⟩, fun _ => id⟩
    ⟨hq.nodup, hq.waiting, hq.owned, hq.completed, hq.embryonic⟩

theorem Wellformed.closeListener (handle owner : UInt64) : (t.closeListener handle owner).1.Wellformed := by
  unfold TcpConnectionTable.closeListener
  split
  · exact h
  rename_i i l hfind
  obtain ⟨hi, _⟩ := findRow_some hfind
  split
  · exact h
  have hlt : i < t.listeners.length := (List.getElem?_eq_some_iff.mp hi).1
  have hlm := List.mem_of_getElem? hi
  have hperm := swapRemove_perm hlt
  have hmem : ∀ m ∈ swapRemove t.listeners i, m ∈ t.listeners :=
    fun m hm => List.mem_of_mem_eraseIdx (hperm.mem_iff.mp hm)
  have hloose := h.toLoose.sublist
    (filter_sublist (l := t.connections) (p := fun c => decide (c.handle ∉ l.pending)))
  refine ⟨⟨?_, ?_, hloose.tuples, fun a ha b hb => h.apart a (hmem a ha) b (hmem b hb),
    fun m hm => hloose.queues m (hmem m hm), fun a ha b hb => h.single a (hmem a ha) b (hmem b hb)⟩, ?_⟩
  · have hlen := hperm.length_eq
    have hroom := hloose.room
    have herase := length_eraseIdx_le t.listeners i
    dsimp only at hroom ⊢
    omega
  · apply ((hperm.map (·.handle)).append_left _).nodup_iff.mpr
    exact hloose.handles.sublist ((List.Sublist.refl _).append ((eraseIdx_sublist _ _).map _))
  · intro m hm k hk
    obtain ⟨c, hc, hck⟩ := h.present m (hmem m hm) k hk
    refine ⟨c, mem_filter.mpr ⟨hc, ?_⟩, hck⟩
    rw [decide_eq_true_iff]
    intro hp
    have hml : m = l := h.single m (hmem m hm) l hlm k hk (hck ▸ hp)
    exact key_ne_of_mem_swapRemove h.handles.of_append_right hi hm (congrArg (·.handle) hml)

end

/-! ## Removal -/

theorem retainUnless_sublist (answer : ℕ → UInt64 → Bool) (calls : ℕ) (cs : List TcpConnection) :
    (retainUnless answer calls cs).Sublist cs := by
  induction cs generalizing calls with
  | nil => exact .slnil
  | cons c cs ih =>
    unfold retainUnless
    split
    · exact (ih calls).cons_cons c
    · split
      · exact (ih (calls + 1)).cons c
      · exact (ih (calls + 1)).cons_cons c

theorem Wellformed.abortAll (h : t.Wellformed) : t.abortAll.Wellformed :=
  h.evolve (forall₂_map_right_iff.mpr
    (forall₂_same.mpr fun _ _ => .of_terminal ⟨rfl, rfl, rfl⟩ (.inr rfl)))

theorem clear_wellformed (t : TcpConnectionTable) : t.clear.Wellformed := new_wellformed t.capacity

/-! ## Routing -/

theorem Loose.prunePending_idem (h : t.Loose) : t.prunePending.prunePending = t.prunePending := by
  have hw := h.prunePending
  have hlive : ∀ l ∈ t.prunePending.listeners, ∀ k ∈ l.pending,
      ∃ c ∈ t.prunePending.connections, c.handle = k ∧ ¬ c.Terminal := by
    intro l' hl' k hk
    obtain ⟨l, _, rfl⟩ := mem_map.mp hl'
    exact (Listener.mem_prune_pending.mp hk).2
  generalize t.prunePending = t at hw hlive
  have hcs : t.prunePending.connections = t.connections := by
    apply filter_eq_self.mpr
    intro c hc
    rw [decide_eq_true_iff, or_iff_not_imp_left, not_not]
    rintro ht ⟨l, hl, hp⟩
    obtain ⟨d, hd, hdc, hld⟩ := hlive l hl _ hp
    exact hld (hw.connection_eq hd hc hdc ▸ ht)
  have hls : t.prunePending.listeners = t.listeners := by
    change t.listeners.map (·.prune t.prunePending.connections) = t.listeners
    rw [hcs]
    conv_rhs => rw [← map_id t.listeners]
    apply map_congr_left
    intro l hl
    exact Listener.prune_self (hw.queues l hl).waiting (hlive l hl)
  calc t.prunePending
      = { t with connections := t.prunePending.connections, listeners := t.prunePending.listeners } := rfl
    _ = t := by rw [hcs, hls]

variable {tuple : TcpTuple}

theorem prunePending_vacant (h : t.findTupleMut tuple = none) : t.prunePending.findTupleMut tuple = none :=
  findRow_none.mpr fun c hc => findRow_none.mp h c (mem_of_mem_filter hc)

inductive Routed (t : TcpConnectionTable) (tuple : TcpTuple) (segment : TcpSegment) (now : UInt64) :
    TcpConnectionTable → Prop
  | kept : Routed t tuple segment now t
  | segment {i : ℕ} {c : TcpConnection} : t.findTupleMut tuple = some (i, c) → c.screen segment = none →
      Routed t tuple segment now
        ((t.setConnection i (c.onSegment segment now).1).noteCompletion (c.onSegment segment now).1 c.handle
          (t.awaiting c.handle))
  | pruned : t.findTupleMut tuple = none → Routed t tuple segment now t.prunePending
  | admitted {i k : ℕ} {l : Listener} {c : TcpConnection} : t.findTupleMut tuple = none →
      t.prunePending.Admissible tuple i l c → (t.prunePending.admitted i l c).connections[k]? = some c →
      Routed t tuple segment now ((t.prunePending.admitted i l c).setConnection k (c.pollTransmit now).1)

theorem routeConnection_routed (alloc : Allocator) (t : TcpConnectionTable) (segment : TcpSegment)
    (now : UInt64) (hfind : t.findTupleMut tuple = some (i, c)) :
    Routed t tuple segment now (t.routeConnection alloc c tuple segment now).table := by
  unfold routeConnection
  split
  · exact .kept
  rename_i hscreen
  have hr : Routed t tuple segment now (t.receiveSegment alloc tuple segment now).1 := by
    obtain ⟨e, he⟩ | ⟨j, d, hfind', he⟩ := receiveSegment_cases alloc t tuple segment now
    · rw [he]
      exact .kept
    · rw [he]
      cases hfind.symm.trans hfind'
      exact .segment hfind hscreen
  dsimp only
  split <;> exact hr

section

variable (h : t.Wellformed) (alloc : Allocator)
include h

theorem openConnection_routed
    (segment : TcpSegment) (now random : UInt64) (hnone : t.findTupleMut tuple = none) :
    ∃ o, t.prunePending.openConnection alloc tuple segment now random = some o ∧
      Routed t tuple segment now o.table := by
  have hw := h.prunePending
  have hvacant := prunePending_vacant hnone
  unfold openConnection
  split
  · exact ⟨_, rfl, .pruned hnone⟩
  rename_i handle _
  obtain ⟨r, he, hcase⟩ := receiveSyn_cases hw.toLoose alloc handle tuple segment (random >>> 32).toUInt32
  rw [h.toLoose.prunePending_idem] at hcase
  have hfail : ∀ e, r.1 = t.prunePending → r.2 = .error e → r = (t.prunePending, .error e) :=
    fun e h1 h2 => Prod.ext h1 h2
  obtain ⟨hr, ⟨e, hre⟩ | ⟨row, hrow⟩⟩ | ⟨hr, e, hre⟩ | ⟨i, l, c, hadm, hch, hr⟩ := hcase
  · rw [he, hfail e hr hre]
    exact ⟨_, rfl, .pruned hnone⟩
  · exact absurd (hrow.symm.trans hvacant) (by simp)
  · rw [he, hfail e hr hre]
    exact ⟨_, rfl, .pruned hnone⟩
  · rw [he, hr]
    have hwa := hw.admitted hadm
    have hcm : c ∈ (t.prunePending.admitted i l c).connections :=
      mem_append_right _ (mem_singleton.mpr rfl)
    have hlive : ¬ c.Terminal := by simp [TcpConnection.Terminal, hadm.state]
    cases hfind : (t.prunePending.admitted i l c).findTupleMut tuple with
    | none => exact absurd ⟨hadm.addressed, hlive⟩ (findRow_none.mp hfind c hcm)
    | some row =>
      obtain ⟨k, d⟩ := row
      obtain ⟨hk, hdt, hdl⟩ := findRow_some hfind
      have hdc : d = c := hwa.tuples d (mem_of_getElem? hk) c hcm hdl hlive
        (hdt.trans hadm.addressed.symm)
      subst hdc
      simp only [hfind]
      exact ⟨_, rfl, .admitted hnone hadm hk⟩

theorem routeListener_routed (segment : TcpSegment) (now : UInt64) (entropy : Option UInt64)
    (hnone : t.findTupleMut tuple = none) :
    ∃ o, t.routeListener alloc tuple segment now entropy = some o ∧ Routed t tuple segment now o.table := by
  unfold routeListener
  dsimp only
  split
  · exact ⟨_, rfl, .kept⟩
  split
  · exact ⟨_, rfl, .kept⟩
  split
  · exact ⟨_, rfl, .kept⟩
  have htable := admitSyn_table t tuple segment.payload.length
  split
  next t' e he =>
    rw [he] at htable
    change t' = t.prunePending at htable
    subst htable
    exact ⟨_, rfl, .pruned hnone⟩
  next t' he =>
    rw [he] at htable
    change t' = t.prunePending at htable
    subst htable
    split
    · exact ⟨_, rfl, .pruned hnone⟩
    · exact openConnection_routed h alloc segment now _ hnone

theorem receivePacket_routed
    (tuple : TcpTuple) (segment : TcpSegment) (now : UInt64) (entropy : Option UInt64) :
    ∃ o, t.receivePacket alloc tuple segment now entropy = some o ∧ Routed t tuple segment now o.table := by
  unfold receivePacket
  split
  · exact ⟨_, rfl, .kept⟩
  split
  · exact ⟨_, rfl, .kept⟩
  split
  next i c hfind => exact ⟨_, rfl, routeConnection_routed alloc t segment now hfind⟩
  next hnone => exact routeListener_routed h alloc segment now entropy hnone

end

theorem Wellformed.routed {t' : TcpConnectionTable} (h : t.Wellformed)
    {segment : TcpSegment} {now : UInt64} (hr : Routed t tuple segment now t') : t'.Wellformed := by
  cases hr with
  | kept => exact h
  | segment hfind _ =>
    obtain ⟨hi, _, hlive⟩ := findRow_some hfind
    exact h.segment hi hlive (TcpConnection.onSegment_received _ segment now)
  | pruned => exact h.prunePending
  | admitted _ hadm hk =>
    exact (h.prunePending.admitted hadm).setConnection hk (TcpConnection.perform_evolves _ (.pollTransmit now))

end TcpConnectionTable

/-! ## Runs -/

inductive TableOp where
  | insert (connection : TcpConnection)
  | listen (alloc : Allocator) (handle owner : UInt64) (address : Address) (port : UInt16) (config : TcpListenConfig)
  | receiveSyn (alloc : Allocator) (handle : UInt64) (tuple : TcpTuple) (segment : TcpSegment)
      (initialSequence : UInt32)
  | receiveSegment (alloc : Allocator) (tuple : TcpTuple) (segment : TcpSegment) (now : UInt64)
  | receivePacket (alloc : Allocator) (tuple : TcpTuple) (segment : TcpSegment) (now : UInt64) (entropy : Option UInt64)
  | accept (listener owner : UInt64)
  | listenerReady (handle owner : UInt64)
  | setBacklog (handle owner : UInt64) (backlog : ℕ)
  | closeListener (handle owner : UInt64)
  | remove (handle owner : UInt64)
  | removeClosedIf (answer : ℕ → UInt64 → Bool)
  | abortAll
  | clear
  /-- an operation of the connection at a position of `connections_mut` -/
  | connection (index : ℕ) (op : LocalOp)

namespace TcpConnectionTable

def performAt (t : TcpConnectionTable) (index : ℕ) (op : LocalOp) : TcpConnectionTable :=
  match t.connections[index]? with
  | some c => t.setConnection index (c.perform op)
  | none => t

/-- The table after an operation; `none` when it panics. -/
def step (t : TcpConnectionTable) : TableOp → Option TcpConnectionTable
  | .insert c => some (t.insert c).1
  | .listen alloc handle owner address port config =>
    some (t.listen alloc handle owner address port config).1
  | .receiveSyn alloc handle tuple segment initialSequence =>
    (t.receiveSyn alloc handle tuple segment initialSequence).map (·.1)
  | .receiveSegment alloc tuple segment now => some (t.receiveSegment alloc tuple segment now).1
  | .receivePacket alloc tuple segment now entropy =>
    (t.receivePacket alloc tuple segment now entropy).map (·.table)
  | .accept listener owner => (t.accept listener owner).map (·.1)
  | .listenerReady handle owner => (t.listenerReady handle owner).map (·.1)
  | .setBacklog handle owner backlog => some (t.setBacklog handle owner backlog).1
  | .closeListener handle owner => some (t.closeListener handle owner).1
  | .remove handle owner => some (t.remove handle owner)
  | .removeClosedIf answer => some (t.removeClosedIf answer)
  | .abortAll => some t.abortAll
  | .clear => some t.clear
  | .connection index op => some (t.performAt index op)

variable {t : TcpConnectionTable}

theorem Wellformed.performAt (h : t.Wellformed) (index : ℕ) (op : LocalOp) : (t.performAt index op).Wellformed := by
  unfold TcpConnectionTable.performAt
  split
  next c hi => exact h.setConnection hi (c.perform_evolves op)
  · exact h

theorem Wellformed.step (h : t.Wellformed) (op : TableOp) : ∃ t', t.step op = some t' ∧ t'.Wellformed := by
  cases op with
  | insert c => exact ⟨_, rfl, h.insert c⟩
  | listen alloc handle owner address port config =>
    exact ⟨_, rfl, h.listen alloc handle owner address port config⟩
  | receiveSyn alloc handle tuple segment initialSequence =>
    obtain ⟨r, he, hr⟩ := h.receiveSyn alloc handle tuple segment initialSequence
    exact ⟨r.1, by rw [TcpConnectionTable.step, he]; rfl, hr⟩
  | receiveSegment alloc tuple segment now => exact ⟨_, rfl, h.receiveSegment alloc tuple segment now⟩
  | receivePacket alloc tuple segment now entropy =>
    obtain ⟨o, he, hr⟩ := receivePacket_routed h alloc tuple segment now entropy
    exact ⟨o.table, by rw [TcpConnectionTable.step, he]; rfl, h.routed hr⟩
  | accept listener owner =>
    obtain ⟨r, he, hr⟩ := h.accept listener owner
    exact ⟨r.1, by rw [TcpConnectionTable.step, he]; rfl, hr⟩
  | listenerReady handle owner =>
    obtain ⟨r, he, hr⟩ := h.listenerReady handle owner
    exact ⟨r.1, by rw [TcpConnectionTable.step, he]; rfl, hr⟩
  | setBacklog handle owner backlog => exact ⟨_, rfl, h.setBacklog handle owner backlog⟩
  | closeListener handle owner => exact ⟨_, rfl, h.closeListener handle owner⟩
  | remove handle owner => exact ⟨_, rfl, (h.toLoose.sublist filter_sublist).prunePending⟩
  | removeClosedIf answer =>
    exact ⟨_, rfl, (h.toLoose.sublist (retainUnless_sublist answer 0 t.connections)).prunePending⟩
  | abortAll => exact ⟨_, rfl, h.abortAll⟩
  | clear => exact ⟨_, rfl, clear_wellformed t⟩
  | connection index op => exact ⟨_, rfl, h.performAt index op⟩

variable {t' : TcpConnectionTable}

theorem Routed.capacity {tuple : TcpTuple} {segment : TcpSegment} {now : UInt64}
    (h : Routed t tuple segment now t') : t'.capacity = t.capacity := by
  cases h with
  | kept | pruned | admitted => rfl
  | segment => exact (noteCompletion_connections _ _ _ _).2

theorem Wellformed.step_capacity (h : t.Wellformed) {op : TableOp}
    (hs : t.step op = some t') : t'.capacity = t.capacity := by
  cases op with
  | insert c =>
    cases hs
    obtain he | ⟨_, _, _, he⟩ := insert_cases t c <;> rw [he]
  | listen alloc handle owner address port config =>
    cases hs
    unfold TcpConnectionTable.listen
    split_ifs <;> rfl
  | receiveSyn alloc handle tuple segment initialSequence =>
    obtain ⟨r, he, hr⟩ := receiveSyn_cases h.toLoose alloc handle tuple segment initialSequence
    rw [TcpConnectionTable.step, he] at hs
    cases hs
    change r.1.capacity = t.capacity
    obtain ⟨hr, _⟩ | ⟨hr, _⟩ | ⟨i, l, c, _, _, hr⟩ := hr <;> rw [hr] <;> rfl
  | receiveSegment alloc tuple segment now =>
    cases hs
    obtain ⟨e, he⟩ | ⟨i, c, _, he⟩ := receiveSegment_cases alloc t tuple segment now
    · rw [he]
    · rw [he]
      exact (noteCompletion_connections _ _ _ _).2
  | receivePacket alloc tuple segment now entropy =>
    obtain ⟨o, he, hr⟩ := receivePacket_routed h alloc tuple segment now entropy
    rw [TcpConnectionTable.step, he] at hs
    cases hs
    exact hr.capacity
  | accept listener owner =>
    obtain ⟨_, e, he⟩ | ⟨i, l, _, _, ⟨_, he⟩ | ⟨handle, rest, c, _, _, _, he⟩⟩ :=
      accept_cases h.toLoose listener owner
    all_goals
      rw [TcpConnectionTable.step, he] at hs
      cases hs
      rfl
  | listenerReady handle owner =>
    rw [TcpConnectionTable.step, TcpConnectionTable.listenerReady] at hs
    split at hs
    · cases hs
      rfl
    next i l hfind =>
      simp only [t.prunePending_listener (findRow_some hfind).1] at hs
      split at hs <;> cases hs <;> rfl
  | setBacklog handle owner backlog =>
    cases hs
    unfold TcpConnectionTable.setBacklog
    split
    · rfl
    · split_ifs <;> rfl
  | closeListener handle owner =>
    cases hs
    unfold TcpConnectionTable.closeListener
    split
    · rfl
    · split_ifs <;> rfl
  | remove handle owner | removeClosedIf answer | abortAll | clear =>
    cases hs
    rfl
  | connection index op =>
    cases hs
    unfold TcpConnectionTable.performAt
    split <;> rfl

theorem runPartial_wellformed (capacity : ℕ) (ops : List TableOp) :
    ∃ t, runPartial step (new capacity) ops = some t ∧ t.Wellformed ∧ t.capacity = capacity := by
  refine runPartial_invariant step (P := fun t => t.Wellformed ∧ t.capacity = capacity) ?_
    ⟨new_wellformed capacity, rfl⟩ ops
  intro t op ⟨h, hcap⟩
  obtain ⟨t', hs, hw⟩ := h.step op
  exact ⟨t', hs, hw, (h.step_capacity hs).trans hcap⟩

/-- **The table invariant.** No run panics, and in the table it reaches the rows fit, handles, live tuples and bindings
are unique, and the queues of a listener name, once each, its own connections, the completed ones in `ready`. -/
theorem table_invariant (capacity : ℕ) (ops : List TableOp) :
    ∃ t, runPartial step (new capacity) ops = some t ∧
      t.connections.length + t.listeners.length ≤ capacity ∧
      (t.connections.map (·.handle) ++ t.listeners.map (·.handle)).Nodup ∧
      (∀ c ∈ t.connections, ∀ d ∈ t.connections, ¬ c.Terminal → ¬ d.Terminal → c.tuple = d.tuple → c = d) ∧
      (∀ l ∈ t.listeners, ∀ m ∈ t.listeners, l.Overlaps m.address m.port → l = m) ∧
      (∀ tuple, ∀ l ∈ t.listeners, ∀ m ∈ t.listeners, l.Matches tuple → m.Matches tuple → l = m) ∧
      ∀ l ∈ t.listeners, l.ready.Nodup ∧ (∀ h ∈ l.ready, h ∈ l.pending) ∧
        ∀ h ∈ l.pending,
          (∃ c ∈ t.connections, c.handle = h ∧ c.owner = l.owner ∧ c.tuple.localPort = l.port ∧
            (c.state = .established ∨ c.state = .closeWait → h ∈ l.ready) ∧
            (c.state = .synReceived → h ∉ l.ready)) ∧
          ∀ m ∈ t.listeners, h ∈ m.pending → m = l := by
  obtain ⟨t, hrun, hw, hcap⟩ := runPartial_wellformed capacity ops
  refine ⟨t, hrun, hcap ▸ hw.room, hw.handles, hw.tuples, hw.apart,
    fun tuple l hl m hm hlt hmt => hw.apart l hl m hm (hlt.overlaps hmt), ?_⟩
  intro l hl
  have hq := hw.queues l hl
  refine ⟨hq.nodup, hq.waiting, ?_⟩
  intro handle hp
  refine ⟨?_, fun m hm hpm => hw.single m hm l hl handle hpm hp⟩
  obtain ⟨c, hc, rfl⟩ := hw.present l hl handle hp
  obtain ⟨howner, hport⟩ := hq.owned c hc hp
  exact ⟨c, hc, rfl, howner, hport,
    fun hcan => hq.completed c hc hp (TcpConnection.canSend.live hcan) (TcpConnection.canSend.not_synReceived hcan),
    fun hsr hr => hq.embryonic c hc hr hsr⟩

end TcpConnectionTable

/-! ## A server with one listener -/

namespace ServerFixture
open TcpFixture

def listener : Listener :=
  { handle := 9, owner := 7, address := .any, port := 50000, config := listenConfig, pending := [],
    ready := [] }

def server : TcpConnectionTable := { connections := [], listeners := [listener], capacity := 4 }

def listenOp : TableOp := .listen (fun _ => true) 9 7 .any 50000 listenConfig

theorem server_reached :
    runPartial TcpConnectionTable.step (TcpConnectionTable.new 4) [listenOp] = some server := by rfl

end ServerFixture

end MochiSyscalls.NetworkStack
