import MochiSyscalls.Foundations.Interleaving

/-! # The snapshot gate

Threads that prepare or reclaim thread state enter the gate, and a snapshot freezes it. The word `state` counts the
activities or is `frozen`; `revision` goes up with every guard that is handed out, and stays at its maximum. Every atomic
access is a step, in any interleaving of the calls of any number of threads; guards may change hands. -/

namespace MochiSyscalls.PosixClient.ThreadLifecycle
open Foundations Interleaving List
set_option autoImplicit false

/-! ## The gate -/

/-- `FROZEN`. -/
def frozen : ℕ := 2 ^ 31

def u32Max : ℕ := 2 ^ 32 - 1

inductive Guard where
  | activity
  | freeze
  deriving DecidableEq

inductive EnterError where
  | frozen (value : ℕ)
  | exhausted
  deriving DecidableEq

structure Gate where
  state : ℕ
  revision : ℕ

def Gate.new : Gate := ⟨0, 1⟩

inductive Call where
  | tryEnter
  | tryFreeze
  | stableRevision
  deriving DecidableEq

/-- Besides the start and the return of each call: the accesses that take a guard and give it back, and the load of
`stable_revision` that finds no guard. -/
inductive Event where
  | started (call : Call)
  | acquired (guard : Guard)
  | released (guard : Guard)
  | zero (revision : ℕ)
  | entered (error : Option EnterError)
  | froze (success : Bool)
  | revision (result : Option ℕ)
  deriving DecidableEq

inductive Place where
  | idle
  | enterLoad
  | enterExchange (value : ℕ)
  | freezeExchange
  | invalidate (guard : Guard)
  | revisionLoad
  | stateLoad (revision : ℕ)
  | revisionAgain (revision : ℕ)

structure Shared where
  gate : Gate
  trace : List (ℕ × Event)

def Shared.log (s : Shared) (id : ℕ) (event : Event) : Shared := { s with trace := s.trace ++ [(id, event)] }

def Call.first : Call → Place
  | .tryEnter => .enterLoad
  | .tryFreeze => .freezeExchange
  | .stableRevision => .revisionLoad

def Guard.returned : Guard → Event
  | .activity => .entered none
  | .freeze => .froze true

/-- What dropping a guard makes of the state: `fetch_sub(1)`, or a store of zero. -/
def Guard.release : Guard → ℕ → ℕ
  | .activity, state => (state + u32Max) % 2 ^ 32
  | .freeze, _ => 0

/-- A weak exchange may fail although the state has not changed. -/
def access (id : ℕ) (spurious : Bool) (s : Shared) : Place → Shared × Place
  | .idle => (s, .idle)
  | .enterLoad => (s, .enterExchange s.gate.state)
  | .enterExchange value =>
    if value &&& frozen ≠ 0 then (s.log id (.entered (some (.frozen value))), .idle)
    else if value = frozen - 1 then (s.log id (.entered (some .exhausted)), .idle)
    else if s.gate.state = value ∧ spurious = false then
      ({ s with gate.state := value + 1 }.log id (.acquired .activity), .invalidate .activity)
    else (s, .enterExchange s.gate.state)
  | .freezeExchange =>
    if s.gate.state = 0 then ({ s with gate.state := frozen }.log id (.acquired .freeze), .invalidate .freeze)
    else (s.log id (.froze false), .idle)
  | .invalidate guard =>
    -- `fetch_update` tries again until its exchange succeeds, and then acts at once
    ({ s with gate.revision := min u32Max (s.gate.revision + 1) }.log id guard.returned, .idle)
  | .revisionLoad =>
    if s.gate.revision = u32Max then (s.log id (.revision none), .idle) else (s, .stateLoad s.gate.revision)
  | .stateLoad revision =>
    if s.gate.state = 0 then (s.log id (.zero revision), .revisionAgain revision)
    else (s.log id (.revision none), .idle)
  | .revisionAgain revision =>
    (s.log id (.revision (if s.gate.revision = revision then some revision else none)), .idle)

def tally (trace : List (ℕ × Event)) (event : Event) : ℕ := (trace.map Prod.snd).count event

inductive Action where
  | start (call : Call)
  | drop (guard : Guard)
  | go (spurious : Bool)

/-- Any thread may drop a guard that has been returned and not been dropped. -/
def act (id : ℕ) (action : Action) (s : Shared) (place : Place) : Shared × Place :=
  match action, place with
  | .start call, .idle => (s.log id (.started call), call.first)
  | .drop guard, .idle =>
    if tally s.trace (.released guard) < tally s.trace guard.returned then
      ({ s with gate.state := guard.release s.gate.state }.log id (.released guard), .idle)
    else (s, .idle)
  | .go spurious, place => access id spurious s place
  | _, place => (s, place)

def start : Config Shared Place := ⟨⟨Gate.new, []⟩, fun _ => .idle⟩

/-! ## The invariant -/

/-- The guards that are taken and not given back, those included whose call has not returned. -/
def live (trace : List (ℕ × Event)) (guard : Guard) : ℕ := tally trace (.acquired guard) - tally trace (.released guard)

def handed (trace : List (ℕ × Event)) : ℕ := tally trace (.entered none) + tally trace (.froze true)

def Quiet (trace : List (ℕ × Event)) : Prop :=
  ∀ guard, tally trace (.acquired guard) = tally trace guard.returned ∧
    tally trace (.released guard) = tally trace guard.returned

/-- `stable_revision` returns how many guards were handed out, and has seen a moment without any. -/
def Settled (pre : List (ℕ × Event)) (e : ℕ × Event) : Prop :=
  (∀ r, e.2 = .zero r → Quiet pre ∧ r ≤ 1 + handed pre) ∧
    ∀ r, e.2 = .revision (some r) → Latest pre e.1 (.zero r) ∧ r = 1 + handed pre

def Word (activities freezes state : ℕ) : Prop :=
  freezes = 0 ∧ state = activities ∧ state < frozen ∨ freezes = 1 ∧ activities = 0 ∧ state = frozen

/-- The ghost value lists the threads between the exchange that took a guard and its `invalidate`. -/
structure Sound (g : List (ℕ × Guard)) (s : Shared) : Prop where
  nodup : g.Nodup
  pending : ∀ guard, tally s.trace (.acquired guard) = tally s.trace guard.returned + (g.map Prod.snd).count guard
  given : ∀ guard, tally s.trace (.released guard) ≤ tally s.trace guard.returned
  word : Word (live s.trace .activity) (live s.trace .freeze) s.gate.state
  revision : s.gate.revision = min u32Max (1 + handed s.trace)
  settled : Always Settled s.trace

def At (g : List (ℕ × Guard)) (id : ℕ) (s : Shared) (place : Place) : Prop :=
  (∀ guard, (id, guard) ∈ g ↔ place = .invalidate guard) ∧
    match place with
    | .stateLoad r => r ≠ u32Max ∧ r ≤ s.gate.revision
    | .revisionAgain r => r ≠ u32Max ∧ Latest s.trace id (.zero r)
    | _ => True

@[simp] theorem tally_log (s : Shared) (id : ℕ) (event event' : Event) :
    tally (s.log id event).trace event' = tally s.trace event' + if event = event' then 1 else 0 := by
  rw [tally, tally, Shared.log, map_append, count_append]
  simp [count_singleton]

@[simp] theorem log_gate (s : Shared) (id : ℕ) (event : Event) : (s.log id event).gate = s.gate := rfl

theorem Sound.returned_le {g : List (ℕ × Guard)} {s : Shared} (h : Sound g s) (guard : Guard) :
    tally s.trace guard.returned ≤ tally s.trace (.acquired guard) :=
  h.pending guard ▸ Nat.le_add_right ..

theorem Word.enter {activities freezes state : ℕ} (h : Word activities freezes state) (hfrozen : ¬ state &&& frozen ≠ 0)
    (hlast : state ≠ frozen - 1) : Word (activities + 1) freezes (state + 1) := by
  rcases h with ⟨hfree, hstate, hlt⟩ | ⟨_, _, rfl⟩
  · exact .inl ⟨hfree, by rw [hstate], by omega⟩
  · exact absurd (by decide) hfrozen

/-- Nobody else is disturbed by a step that leaves the other threads' entries and never lowers the revision. -/
theorem At.others {g g' : List (ℕ × Guard)} {id : ℕ} {s s' : Shared} {event : Event}
    (hg : ∀ x : ℕ × Guard, x.1 ≠ id → (x ∈ g' ↔ x ∈ g)) (htrace : s'.trace = s.trace ++ [(id, event)])
    (hrevision : s.gate.revision ≤ s'.gate.revision) (other : ℕ) (place : Place) (hother : other ≠ id)
    (h : At g other s place) : At g' other s' place := by
  refine ⟨fun guard => (hg (other, guard) hother).trans (h.1 guard), ?_⟩
  have hplace := h.2
  cases place with
  | stateLoad r => exact ⟨hplace.1, hplace.2.trans hrevision⟩
  | revisionAgain r => exact ⟨hplace.1, htrace ▸ hplace.2.other (by simpa using hother.symm)⟩
  | _ => trivial

/-! ## One access -/

section Access

variable {g : List (ℕ × Guard)} {id : ℕ} {s : Shared}

theorem keeps_move {place : Place} (h : Sound g s) (hat : At g id s place) : Keeps Sound At g id s (s, place) g :=
  ⟨h, hat, fun _ _ _ h => h⟩

/-- An event that is about no guard. -/
theorem keeps_log {event : Event} {place : Place} (h : Sound g s)
    (hevent : ∀ guard, event ≠ .acquired guard ∧ event ≠ .released guard)
    (hreturn : event ≠ .entered none ∧ event ≠ .froze true) (hsettled : Settled s.trace (id, event))
    (hat : At g id (s.log id event) place) : Keeps Sound At g id s (s.log id event, place) g where
  shared := by
    refine ⟨h.nodup, fun guard => ?_, fun guard => ?_, ?_, ?_, h.settled.snoc hsettled⟩
    · cases guard <;> simpa [hevent, hreturn, Guard.returned] using h.pending _
    · cases guard <;> simpa [hevent, hreturn, Guard.returned] using h.given _
    · simpa [live, hevent] using h.word
    · simpa [handed, hreturn] using h.revision
  place := hat
  others := At.others (fun _ _ => .rfl) rfl le_rfl

theorem keeps_acquire {guard : Guard} {state : ℕ} (h : Sound g s) (hidle : ∀ guard, (id, guard) ∉ g)
    (hword : Word (live s.trace .activity + if guard = .activity then 1 else 0)
      (live s.trace .freeze + if guard = .freeze then 1 else 0) state) :
    Keeps Sound At g id s ({ s with gate.state := state }.log id (.acquired guard), .invalidate guard)
      ((id, guard) :: g) where
  shared := by
    refine ⟨h.nodup.cons (hidle guard), fun guard' => ?_, fun guard' => ?_, ?_, ?_,
      h.settled.snoc (by simp [Settled])⟩
    · have hpending := h.pending guard'
      cases guard' <;> simp [count_cons, Guard.returned] at hpending ⊢ <;> omega
    · cases guard' <;> simpa [Guard.returned] using h.given _
    · simpa [live, ← Nat.sub_add_comm ((h.given _).trans (h.returned_le _))] using hword
    · simpa [handed] using h.revision
  place := ⟨fun guard' => by simp [hidle, eq_comm], trivial⟩
  others := At.others (fun x hx => by simp [Prod.ext_iff, hx]) rfl le_rfl

theorem keeps_invalidate {guard : Guard} (h : Sound g s) (hat : At g id s (.invalidate guard)) :
    Keeps Sound At g id s ({ s with gate.revision := min u32Max (s.gate.revision + 1) }.log id guard.returned, .idle)
      (g.erase (id, guard)) where
  shared := by
    have hmem : (id, guard) ∈ g := (hat.1 guard).mpr rfl
    refine ⟨h.nodup.erase _, fun guard' => ?_, fun guard' => ?_, ?_, ?_, h.settled.snoc ?_⟩
    · have hpending := h.pending guard'
      rw [((perm_cons_erase hmem).map Prod.snd).count_eq guard', map_cons, count_cons] at hpending
      cases guard <;> cases guard' <;> simp [Guard.returned] at hpending ⊢ <;> omega
    · have hgiven := h.given guard'
      cases guard <;> cases guard' <;> simp [Guard.returned] at hgiven ⊢ <;> omega
    · cases guard <;> simpa [live, Guard.returned] using h.word
    · rw [log_gate, h.revision]
      cases guard <;> simp [handed, Guard.returned] <;> omega
    · cases guard <;> simp [Settled, Guard.returned]
  place := by
    refine ⟨fun guard' => ?_, trivial⟩
    simp only [h.nodup.mem_erase_iff, hat.1]
    grind
  others := At.others (fun x hx => by simp [h.nodup.mem_erase_iff, Prod.ext_iff, hx]) rfl
    (by simp [h.revision])

theorem keeps_drop {guard : Guard} (h : Sound g s) (hat : At g id s .idle)
    (hheld : tally s.trace (.released guard) < tally s.trace guard.returned) :
    Keeps Sound At g id s ({ s with gate.state := guard.release s.gate.state }.log id (.released guard), .idle) g where
  shared := by
    refine ⟨h.nodup, fun guard' => ?_, fun guard' => ?_, ?_, ?_, h.settled.snoc (by simp [Settled])⟩
    · cases guard' <;> simpa [Guard.returned] using h.pending _
    · have hgiven := h.given guard'
      cases guard <;> cases guard' <;> simp [Guard.returned] at hheld hgiven ⊢ <;> omega
    · have hword := h.word
      have hpending := h.pending guard
      cases guard <;> simp [Word, live, Guard.release, frozen, u32Max] at hword hpending hheld ⊢ <;> omega
    · simpa [handed] using h.revision
  place := ⟨hat.1, trivial⟩
  others := At.others (fun _ _ => .rfl) rfl le_rfl

theorem Sound.quiet (h : Sound g s) (hzero : s.gate.state = 0) : Quiet s.trace := by
  have hword := h.word
  intro guard
  have hpending := h.pending guard
  have hgiven := h.given guard
  simp only [Word, hzero, frozen, live] at hword
  cases guard <;> omega

theorem keeps_access {place : Place} (spurious : Bool) (h : Sound g s) (hat : At g id s place) :
    ∃ g', Keeps Sound At g id s (access id spurious s place) g' := by
  have hidle (hplace : ∀ guard, place ≠ .invalidate guard) : ∀ guard, (id, guard) ∉ g :=
    fun guard hmem => hplace guard ((hat.1 guard).mp hmem)
  fun_cases access id spurious s place
  case case1 | case2 | case6 => exact ⟨g, keeps_move h ⟨by simpa using hat.1, trivial⟩⟩
  case case3 | case4 | case8 | case10 | case13 =>
    exact ⟨g, keeps_log h (by simp) (by simp) (by simp [Settled]) ⟨by simpa using hat.1, trivial⟩⟩
  case case5 value hfrozen hlast hstate =>
    obtain ⟨rfl, -⟩ := hstate
    exact ⟨_, keeps_acquire h (hidle (by simp)) (by simpa using h.word.enter hfrozen hlast)⟩
  case case7 hstate =>
    have hquiet : ∀ guard, _ ∧ _ := h.quiet hstate
    exact ⟨_, keeps_acquire h (hidle (by simp)) (.inr (by simp [live, hquiet]))⟩
  case case9 guard => exact ⟨_, keeps_invalidate h hat⟩
  case case11 hmax => exact ⟨g, keeps_move h ⟨by simpa using hat.1, hmax, le_rfl⟩⟩
  case case12 r hstate =>
    obtain ⟨hplace, hmax, hle⟩ := hat
    refine ⟨g, keeps_log h (by simp) (by simp) ⟨fun r' hr' => ?_, by simp⟩ ⟨by simpa using hplace, hmax, .self ..⟩⟩
    obtain rfl : r = r' := by simpa using hr'
    exact ⟨h.quiet hstate, hle.trans (h.revision ▸ min_le_right ..)⟩
  case case14 r =>
    obtain ⟨hplace, hmax, hlatest⟩ := hat
    refine ⟨g, keeps_log h (by simp) (by simp) ⟨by simp, fun r' hr' => ?_⟩ ⟨by simpa using hplace, trivial⟩⟩
    have hrevision := h.revision
    grind

end Access

theorem keeps_act {g : List (ℕ × Guard)} {id : ℕ} {s : Shared} {place : Place} (action : Action) (h : Sound g s)
    (hat : At g id s place) : ∃ g', Keeps Sound At g id s (act id action s place) g' := by
  unfold act
  split
  · rename_i call
    refine ⟨g, keeps_log h (by simp) (by simp) (by simp [Settled]) ⟨fun guard => (hat.1 guard).trans ?_, ?_⟩⟩ <;>
      cases call <;> simp [Call.first]
  · split_ifs with hheld
    · exact ⟨g, keeps_drop h hat hheld⟩
    · exact ⟨g, keeps_move h hat⟩
  · exact keeps_access _ h hat
  · exact ⟨g, keeps_move h hat⟩

theorem run_sound (schedule : List (ℕ × Action)) : ∃ g, Holds Sound At g (Runs.run (step act) start schedule) := by
  refine Runs.run_invariant (P := fun c => ∃ g, Holds Sound At g c) _ (fun c a ⟨g, h⟩ => ?_) ⟨[], ?_, ?_⟩ schedule
  · obtain ⟨g', hkeeps⟩ := keeps_act a.2 h.shared (h.place a.1)
    exact ⟨g', h.step hkeeps⟩
  · exact ⟨nodup_nil, fun _ => rfl, fun _ => le_rfl, .inl ⟨rfl, rfl, by simp [start, Gate.new, frozen]⟩, by decide, .nil _⟩
  · exact fun id => ⟨by simp [start], trivial⟩

/-! ## Whole runs -/

/-- A freeze excludes every activity and every other freeze, also those whose call has not returned yet, and the word
tells how many guards there are; none is given back that was not handed out. -/
theorem freeze_excludes_activities (schedule : List (ℕ × Action)) :
    let s := (Runs.run (step act) start schedule).shared
    (∀ guard, tally s.trace (.released guard) ≤ tally s.trace guard.returned ∧
      tally s.trace guard.returned ≤ tally s.trace (.acquired guard)) ∧
    (live s.trace .freeze = 0 ∧ s.gate.state = live s.trace .activity ∧ s.gate.state < frozen ∨
      live s.trace .freeze = 1 ∧ live s.trace .activity = 0 ∧ s.gate.state = frozen) := by
  obtain ⟨g, h⟩ := run_sound schedule
  exact ⟨fun guard => ⟨h.shared.given guard, h.shared.returned_le guard⟩, h.shared.word⟩

theorem tally_mono {trace trace' : List (ℕ × Event)} (h : trace <+: trace') (event : Event) :
    tally trace event ≤ tally trace' event :=
  (h.map Prod.snd).sublist.count_le event

theorem handed_mono {trace trace' : List (ℕ × Event)} (h : trace <+: trace') : handed trace ≤ handed trace' :=
  Nat.add_le_add (tally_mono h _) (tally_mono h _)

/-- Between two moments without a guard and with as many handed out there is none. -/
theorem live_eq_zero {q₁ q q₂ : List (ℕ × Event)} (h₁ : Quiet q₁) (h₂ : Quiet q₂) (heq : handed q₁ = handed q₂)
    (hleft : q₁ <+: q) (hright : q <+: q₂) (guard : Guard) : live q guard = 0 := by
  have hacquired := tally_mono hright (.acquired guard)
  have hreleased := tally_mono hleft (.released guard)
  have hactivity := tally_mono (hleft.trans hright) (.entered none)
  have hfreeze := tally_mono (hleft.trans hright) (.froze true)
  obtain ⟨-, hgiven⟩ := h₁ guard
  obtain ⟨htaken, -⟩ := h₂ guard
  unfold handed at heq
  unfold live
  cases guard <;> simp only [Guard.returned] at hgiven htaken <;> omega

/-- A call that returns a revision has seen a moment without a guard, when as many had been handed out. -/
theorem observed {trace pre post : List (ℕ × Event)} {id r : ℕ} (h : Always Settled trace)
    (htrace : trace = pre ++ (id, .revision (some r)) :: post) :
    ∃ before during, pre = before ++ (id, .zero r) :: during ∧ (∀ x ∈ during, x.1 ≠ id) ∧ Quiet before ∧
      r = 1 + handed before := by
  obtain ⟨⟨before, during, rfl, hids⟩, hr⟩ := (h _ _ _ htrace).2 r rfl
  obtain ⟨hquiet, hle⟩ := (h before (id, .zero r) (during ++ (id, .revision (some r)) :: post) (by simp [htrace])).1 r rfl
  have hmono := handed_mono (prefix_append before ((id, .zero r) :: during))
  exact ⟨before, during, rfl, hids, hquiet, le_antisymm hle (hr ▸ Nat.add_le_add_left hmono 1)⟩

theorem prefix_of_last {α : Type} {l₁ l₂ r₁ r₂ : List α} {a b : α} (h : l₁ ++ a :: r₁ = l₂ ++ b :: r₂) (ha : a ∉ r₂) :
    l₁ <+: l₂ := by
  rcases append_eq_append_iff.mp h with ⟨t, rfl, -⟩ | ⟨t, rfl, ht⟩
  · exact prefix_append ..
  · cases t with
    | nil => simp
    | cons c t =>
      obtain ⟨rfl, rfl⟩ := cons_eq_cons.mp ht
      simp at ha

theorem quiet_between {trace pre mid during post q : List (ℕ × Event)} {i j r : ℕ} (h : Always Settled trace)
    (htrace : trace = pre ++ (i, .revision (some r)) ::
      (mid ++ (j, .started .stableRevision) :: (during ++ (j, .revision (some r)) :: post)))
    (hq : q <+: mid) (guard : Guard) : live (pre ++ (i, .revision (some r)) :: q) guard = 0 := by
  obtain ⟨before₁, during₁, hpre, -, hquiet₁, hr₁⟩ := observed h htrace
  rw [← cons_append, ← append_assoc, ← cons_append, ← append_assoc] at htrace
  obtain ⟨before₂, during₂, heq, hids, hquiet₂, hr₂⟩ := observed h htrace
  have hbefore : pre ++ (i, .revision (some r)) :: mid <+: before₂ :=
    prefix_of_last heq fun hmem => hids _ hmem rfl
  refine live_eq_zero hquiet₁ hquiet₂ (by omega) ?_ ?_ guard
  · exact ⟨(i, .zero r) :: during₁ ++ (i, .revision (some r)) :: q, by simp [hpre]⟩
  · exact ((prefix_append_right_inj pre).mpr (cons_prefix_cons.mpr ⟨rfl, hq⟩)).trans hbefore

/-- Where two calls to `stable_revision` return the same revision, the second one begun after the first has returned, in
whichever threads, there is no guard at any moment between them. -/
theorem equal_revisions_are_quiet (schedule : List (ℕ × Action)) (pre mid during post : List (ℕ × Event)) (i j r : ℕ)
    (htrace : (Runs.run (step act) start schedule).shared.trace = pre ++ (i, .revision (some r)) ::
      (mid ++ (j, .started .stableRevision) :: (during ++ (j, .revision (some r)) :: post)))
    (q : List (ℕ × Event)) (hq : q <+: mid) (guard : Guard) : live (pre ++ (i, .revision (some r)) :: q) guard = 0 := by
  obtain ⟨g, h⟩ := run_sound schedule
  exact quiet_between h.shared.settled htrace hq guard

def calls (id : ℕ) (actions : List Action) : List (ℕ × Action) := actions.map (id, ·)

/-- Between the two calls a third thread has loaded the state, and it takes a guard after them. -/
theorem equal_revisions_are_quiet_twice :
    live [(0, .started .tryEnter), (0, .acquired .activity), (0, .entered none), (0, .released .activity),
      (1, .started .stableRevision), (1, .zero 2), (1, .revision (some 2)), (3, .started .tryEnter)] .activity = 0 :=
  equal_revisions_are_quiet
    (calls 0 [.start .tryEnter, .go true, .go false, .go false, .drop .activity] ++
      calls 1 [.start .stableRevision, .go false, .go false, .go false] ++ calls 3 [.start .tryEnter, .go false] ++
      calls 2 [.start .stableRevision, .go false, .go false, .go false] ++ calls 3 [.go false])
    [(0, .started .tryEnter), (0, .acquired .activity), (0, .entered none), (0, .released .activity),
      (1, .started .stableRevision), (1, .zero 2)] [(3, .started .tryEnter)] [(2, .zero 2)] [(3, .acquired .activity)]
    1 2 2 rfl [(3, .started .tryEnter)] (prefix_refl _) .activity

/-- **The gate.** A freeze excludes every other guard, without one the word counts the activities below the frozen bit,
and between two calls that return the same revision there was no guard at any moment. -/
theorem gate_excludes_and_tells (schedule : List (ℕ × Action)) :
    let s := (Runs.run (step act) start schedule).shared
    (∀ guard, tally s.trace (.released guard) ≤ tally s.trace guard.returned ∧
      tally s.trace guard.returned ≤ tally s.trace (.acquired guard)) ∧
    (live s.trace .freeze = 0 ∧ s.gate.state = live s.trace .activity ∧ s.gate.state < frozen ∨
      live s.trace .freeze = 1 ∧ live s.trace .activity = 0 ∧ s.gate.state = frozen) ∧
    ∀ pre mid during post i j r, s.trace = pre ++ (i, .revision (some r)) ::
        (mid ++ (j, .started .stableRevision) :: (during ++ (j, .revision (some r)) :: post)) →
      ∀ q, q <+: mid → ∀ guard, live (pre ++ (i, .revision (some r)) :: q) guard = 0 := by
  obtain ⟨g, h⟩ := run_sound schedule
  refine ⟨fun guard => ⟨h.shared.given guard, h.shared.returned_le guard⟩, h.shared.word, ?_⟩
  exact fun _ _ _ _ _ _ _ htrace _ hq guard => quiet_between h.shared.settled htrace hq guard

end MochiSyscalls.PosixClient.ThreadLifecycle
