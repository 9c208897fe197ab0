import MochiSyscalls.PosixClient.PthreadMutex

/-! # Who owes a wake

While threads sleep on the state, either the state is two, so that the next unlock wakes one of them, or some thread
still has to wake or to store two itself. The fast path stores one and forgets the sleepers; that is sound as long as
somebody else keeps the debt. A thread whose wait was ended by a wake but has failed gives its debt up when it finds the
state one. -/

namespace MochiSyscalls.PosixClient.PthreadMutex
open Foundations Interleaving List
set_option autoImplicit false

variable {E : Type}

/-- The thread still has to wake a sleeper, or to store two. -/
def Owes (s : Shared E) (id : ℕ) : Place E → Prop
  | .swap | .handOver _ | .wake | .failed true _ => True
  | .waiting => id ∉ s.blocked
  | _ => False

/-- The thread executes no step: it is in no call, or it sleeps. -/
def Resting (s : Shared E) (id : ℕ) (place : Place E) : Prop := place = .idle ∨ place = .waiting ∧ id ∈ s.blocked

/-- The wait has failed although a wake has chosen the thread. -/
def Place.chosenFails : Place E → Bool
  | .failed true _ => true
  | _ => false

def Action.isAccess : Action E → Bool
  | .go _ => true
  | .start _ => false

/-- A thread that a wake has chosen and whose wait has failed finds the mutex held by the fast path and leaves. -/
def Forfeits (c : System E) (a : ℕ × Action E) : Prop :=
  a.2.isAccess = true ∧ (c.thread a.1).chosenFails = true ∧ c.shared.mutex.state = 1
  deriving Decidable

structure Handed (c : System E) : Prop where
  state_le : c.shared.mutex.state ≤ 2
  waiting : ∀ id ∈ c.shared.blocked, c.thread id = .waiting
  owed : c.shared.blocked ≠ [] → c.shared.mutex.state = 2 ∨ ∃ id, Owes c.shared id (c.thread id)

/-! ## One step -/

/-- What a step does to the debt: the state is two, its thread owes, it has woken somebody, or there was none. -/
inductive Pays (id : ℕ) (s : Shared E) (place : Place E) (s' : Shared E) (place' : Place E) : Prop
  | marked (h : s'.mutex.state = 2)
  | owes (h : Owes s' id place')
  | woke (h : s'.blocked = [] ∨ ∃ x ∈ s.blocked, x ≠ id ∧ x ∉ s'.blocked)
  | free (howes : ¬ Owes s id place) (hstate : s.mutex.state = 2 → s'.mutex.state = 2)
      (hblocked : s'.blocked ≠ [] → s.blocked ≠ [])

structure Turn (id : ℕ) (s : Shared E) (place : Place E) (s' : Shared E) (place' : Place E) : Prop where
  state_le : s'.mutex.state ≤ 2
  blocked : ∀ x ∈ s'.blocked, (x ≠ id ∧ x ∈ s.blocked) ∨ (x = id ∧ place' = .waiting)
  pays : Pays id s place s' place'

section Step

variable {id : ℕ} {s s' : Shared E} {around : Surroundings E} {place place' : Place E}

section

variable (hstate : s.mutex.state ≤ 2) (hwaiting : id ∈ s.blocked → place = .waiting)
  (hplace : place ≠ .waiting)
include hstate hwaiting hplace

theorem turn_same (howes : ¬ Owes s id place) (hstate' : s'.mutex.state = s.mutex.state)
    (hblocked : s'.blocked = s.blocked) : Turn id s place s' place' where
  state_le := hstate'.trans_le hstate
  blocked x hx := by
    rw [hblocked] at hx
    refine .inl ⟨?_, hx⟩
    rintro rfl
    exact hplace (hwaiting hx)
  pays := .free howes (fun h => hstate'.trans h) fun h => hblocked ▸ h

theorem turn_wake (hstate' : s'.mutex.state = s.mutex.state)
    (hblocked : s'.blocked = WaitQueue.wake (around.more + 1) around.prefer s.blocked) : Turn id s place s' place' where
  state_le := hstate'.trans_le hstate
  blocked x hx := by
    rw [hblocked] at hx
    refine .inl ⟨?_, WaitQueue.mem_of_wake hx⟩
    rintro rfl
    exact hplace (hwaiting (WaitQueue.mem_of_wake hx))
  pays := by
    refine .woke ?_
    rw [hblocked]
    by_cases hempty : s.blocked = []
    · exact .inl (by rw [hempty, WaitQueue.wake_nil])
    · obtain ⟨x, hx, hout⟩ := @WaitQueue.exists_woken _ around.prefer _ (Nat.succ_pos around.more) hempty
      refine .inr ⟨x, hx, ?_, hout⟩
      rintro rfl
      exact hplace (hwaiting hx)

end

theorem turn_nativeWait (hstate : s.mutex.state ≤ 2) (hwaiting : id ∈ s.blocked → (.wait : Place E) = .waiting) :
    Turn id s .wait (nativeWait id around s).1 (nativeWait id around s).2 := by
  rw [nativeWait]
  split
  · exact turn_same hstate hwaiting nofun (fun h => h) rfl rfl
  · split
    next htwo =>
      refine ⟨hstate, fun x hx => ?_, .marked htwo⟩
      rcases mem_append.1 hx with hin | hx
      · refine .inl ⟨?_, hin⟩
        rintro rfl
        exact nomatch hwaiting hin
      · exact .inr ⟨mem_singleton.1 hx, rfl⟩
    next =>
      refine ⟨hstate, fun x hx => .inl ⟨?_, hx⟩, .owes trivial⟩
      rintro rfl
      exact nomatch hwaiting hx

theorem turn_nativeWaiting (hstate : s.mutex.state ≤ 2) :
    Turn id s .waiting (nativeWaiting id around s).1 (nativeWaiting id around s).2 := by
  have hunblock : ∀ x ∈ (s.unblock id).blocked, x ≠ id ∧ x ∈ s.blocked := by
    intro x hx
    obtain ⟨hmem, hne⟩ := mem_filter.1 hx
    exact ⟨of_decide_eq_true hne, hmem⟩
  rw [nativeWaiting]
  split
  next hin =>
    have hnot : ¬ Owes s id .waiting := fun h => h hin
    split
    · refine ⟨hstate, fun x hx => ?_, .free hnot (fun h => h) (fun h => h)⟩
      by_cases hid : x = id
      · exact Or.inr ⟨hid, rfl⟩
      · exact Or.inl ⟨hid, hx⟩
    · exact ⟨hstate, fun x hx => Or.inl (hunblock x hx), .owes trivial⟩
    · exact ⟨hstate, fun x hx => Or.inl (hunblock x hx), .free hnot (fun h => h) fun _ => ne_nil_of_mem hin⟩
  next hout =>
    have hforeign : ∀ x ∈ s.blocked, x ≠ id := by
      rintro x hx rfl
      exact hout hx
    split
    · exact ⟨hstate, fun x hx => .inl ⟨hforeign x hx, hx⟩, .owes trivial⟩
    · exact ⟨hstate, fun x hx => .inl ⟨hforeign x hx, hx⟩, .owes trivial⟩

theorem turn_relock {call : Call} (hstate : s.mutex.state ≤ 2)
    (hwaiting : id ∈ s.blocked → (.ownerLoad call : Place E) = .waiting) :
    Turn id s (.ownerLoad call) (relock id s call).1 (relock id s call).2 := by
  rw [relock]
  repeat' split
  all_goals exact turn_same hstate hwaiting nofun (fun h => h) rfl rfl

theorem access_turn (hstate : s.mutex.state ≤ 2) (hwaiting : id ∈ s.blocked → place = .waiting)
    (hkeeps : place.chosenFails = true → s.mutex.state ≠ 1) :
    Turn id s place (access id around s place).1 (access id around s place).2 := by
  cases place with
  | idle | relockStore _ _ | acquiredDepth _ _ | register | leave _ | unlockStore _ | clearDepth | clearOwner =>
    exact turn_same hstate hwaiting nofun (fun h => h) rfl rfl
  | validate call | relockDepth call | unlockDepth | acquiredOwner call slow =>
    rw [access]
    split
    all_goals exact turn_same hstate hwaiting nofun (fun h => h) rfl rfl
  | ownerLoad call =>
    cases call with
    | checkOwner => exact turn_same hstate hwaiting nofun (fun h => h) rfl rfl
    | unlock =>
      rw [access, ownerLoaded]
      split
      all_goals exact turn_same hstate hwaiting nofun (fun h => h) rfl rfl
    | tryLock | lock => exact turn_relock hstate hwaiting
  | exchange call =>
    rw [access]
    split
    next hfree =>
      refine ⟨Nat.le_succ 1, fun x hx => Or.inl ⟨?_, hx⟩, .free (fun h => h) ?_ (fun h => h)⟩
      · rintro rfl
        exact nomatch hwaiting hx
      · intro htwo
        rw [hfree] at htwo
        cases htwo
    next =>
      split
      all_goals exact turn_same hstate hwaiting nofun (fun h => h) rfl rfl
  | swap =>
    refine ⟨le_rfl, fun x hx => Or.inl ⟨?_, hx⟩, .marked rfl⟩
    rintro rfl
    exact nomatch hwaiting hx
  | wait => exact turn_nativeWait hstate hwaiting
  | waiting => exact turn_nativeWaiting hstate
  | failed woken e =>
    have hforeign : ∀ x ∈ s.blocked, x ≠ id ∧ x ∈ s.blocked := by
      intro x hx
      refine ⟨?_, hx⟩
      rintro rfl
      exact nomatch hwaiting hx
    rw [access]
    split
    next => exact ⟨hstate, fun x hx => Or.inl (hforeign x hx), .owes trivial⟩
    next hheld =>
      cases woken with
      | false => exact turn_same hstate hwaiting nofun (fun h => h) rfl rfl
      | true =>
        have htwo : s.mutex.state = 2 := by
          have := hkeeps rfl
          omega
        exact ⟨hstate, fun x hx => .inl (hforeign x hx), .marked htwo⟩
  | handOver e | wake => exact turn_wake hstate hwaiting nofun rfl rfl
  | release =>
    have hforeign : ∀ x ∈ s.blocked, x ≠ id ∧ x ∈ s.blocked := by
      intro x hx
      refine ⟨?_, hx⟩
      rintro rfl
      exact nomatch hwaiting hx
    rw [access]
    split
    next => exact ⟨Nat.zero_le 2, fun x hx => Or.inl (hforeign x hx), .owes trivial⟩
    next hone =>
      exact ⟨Nat.zero_le 2, fun x hx => Or.inl (hforeign x hx), .free (fun h => h) (fun h => absurd h hone) (fun h => h)⟩

theorem act_turn (action : Action E) (hstate : s.mutex.state ≤ 2) (hwaiting : id ∈ s.blocked → place = .waiting)
    (hkeeps : action.isAccess = true → place.chosenFails = true → s.mutex.state ≠ 1) :
    Turn id s place (act id action s place).1 (act id action s place).2 ∨
      (act id action s place).1 = s ∧ (act id action s place).2 = place := by
  cases action with
  | go around => exact Or.inl (access_turn hstate hwaiting (hkeeps rfl))
  | start call =>
    cases place with
    | idle => exact Or.inl (turn_same hstate hwaiting nofun (fun h => h) rfl rfl)
    | _ => exact Or.inr ⟨rfl, rfl⟩

theorem Owes.other {other : ℕ} (h : Owes s other place) (hblocked : other ∈ s'.blocked → other ∈ s.blocked) :
    Owes s' other place := by
  cases place with
  | waiting => exact fun hin => h (hblocked hin)
  | failed woken e =>
    cases woken with
    | true => exact trivial
    | false => exact h
  | swap | handOver _ | wake => exact trivial
  | _ => exact h

end Step

theorem Handed.step {c : System E} (h : Handed c) (a : ℕ × Action E) (hkeeps : ¬ Forfeits c a) :
    Handed (step act c a) := by
  obtain ⟨id, action⟩ := a
  have hturn := act_turn action h.state_le (h.waiting id) fun hgo hfails hone => hkeeps ⟨hgo, hfails, hone⟩
  rcases hturn with hturn | ⟨hshared, hthread⟩
  · have hsleeps : ∀ x, x ≠ id → x ∈ (act id action c.shared (c.thread id)).1.blocked → x ∈ c.shared.blocked := by
      intro x hx hin
      exact ((hturn.blocked x hin).resolve_right fun h => hx h.1).2
    refine ⟨hturn.state_le, ?_, ?_⟩
    · intro x hx
      rcases hturn.blocked x hx with ⟨hne, hin⟩ | ⟨rfl, hplace⟩
      · rw [step_thread_other act c action hne]
        exact h.waiting x hin
      · rw [step_thread_self]
        exact hplace
    · intro hne
      rcases hturn.pays with hmarked | howes | hwoke | ⟨hnot, hstate, hblocked⟩
      · exact .inl hmarked
      · exact .inr ⟨id, by rw [step_thread_self]; exact howes⟩
      · obtain ⟨x, hx, hid, hout⟩ := hwoke.resolve_left hne
        refine .inr ⟨x, ?_⟩
        rw [step_thread_other act c action hid, h.waiting x hx]
        exact hout
      · rcases h.owed (hblocked hne) with htwo | ⟨x, hx⟩
        · exact .inl (hstate htwo)
        · have hid : x ≠ id := by
            rintro rfl
            exact hnot hx
          refine .inr ⟨x, ?_⟩
          rw [step_thread_other act c action hid]
          exact hx.other (hsleeps x hid)
  · have hstep : Interleaving.step act c (id, action) = c := by
      refine Config.ext hshared ?_
      rw [Interleaving.step, hthread, Function.update_eq_self]
    rwa [hstep]

/-! ## Interleavings -/

/-- **No stranded waiter.** Unless a chosen thread forfeits its turn, nobody sleeps while the mutex is free and no
thread executes a step. -/
theorem no_stranded_waiter (kind : ℤ) (schedule : List (ℕ × Action E))
    (hkeeps : Runs.Along (step act) (fun c a => ¬ Forfeits c a) (System.start kind) schedule) :
    let c := Runs.run (step act) (System.start kind) schedule
    c.shared.mutex.state = 0 → (∀ id, Resting c.shared id (c.thread id)) → c.shared.blocked = [] := by
  intro c hfree hresting
  have hhanded : Handed c := by
    refine Runs.along_invariant _ (fun c a h hc => h.step a hc) ?_ hkeeps
    exact ⟨Nat.zero_le 2, nofun, fun h => absurd rfl h⟩
  by_contra hblocked
  rcases hhanded.owed hblocked with htwo | ⟨id, howes⟩
  · rw [hfree] at htwo
    cases htwo
  · rcases hresting id with hidle | ⟨hwaiting, hin⟩
    · rw [hidle] at howes
      exact howes
    · rw [hwaiting] at howes
      exact howes hin

namespace HandoverFixture

def calls (id : ℕ) (call : Call) (accesses : ℕ) : List (ℕ × Action Unit) :=
  (id, .start call) :: List.replicate accesses (id, .go quiet)

/-- Thread `1` gives the mutex up that `2` and `3` wait for, `4` takes it by the fast path, and then `1` wakes `2`. -/
def chosen : List (ℕ × Action Unit) :=
  calls 1 .lock 5 ++ calls 2 .lock 6 ++ calls 3 .lock 6 ++ calls 1 .unlock 6 ++ calls 4 .lock 5 ++ [(1, .go quiet)]

/-- The wait of `2` has failed: it leaves, and `4` gives the mutex up. -/
def stranding : List (ℕ × Action Unit) := chosen ++ List.replicate 3 (2, .go timedOut) ++ calls 4 .unlock 6

/-- The wait of `2` succeeds: it takes the mutex after `4` and wakes `3`, which takes it last. -/
def handing : List (ℕ × Action Unit) :=
  chosen ++ calls 4 .unlock 6 ++ List.replicate 5 (2, .go quiet) ++ calls 2 .unlock 7 ++
    List.replicate 5 (3, .go quiet) ++ calls 3 .unlock 7

theorem resting_others {schedule : List (ℕ × Action Unit)} (h : ∀ a ∈ schedule, a.1 ∈ [1, 2, 3, 4]) {s : Shared Unit}
    {id : ℕ} (hid : id ∉ [1, 2, 3, 4]) :
    Resting s id ((Runs.run (step act) (System.start normal) schedule).thread id) := by
  have hother : ∀ a ∈ schedule, a.1 ≠ id := by
    rintro a ha rfl
    exact hid (h a ha)
  rw [run_thread_other act _ hother]
  exact .inl rfl

theorem no_stranded_waiter_handing : (Runs.run (step act) (System.start normal) handing).shared.blocked = [] := by
  refine no_stranded_waiter normal handing (by decide) (by decide) ?_
  intro id
  by_cases hid : id ∈ [1, 2, 3, 4]
  · simp only [mem_cons, not_mem_nil, or_false] at hid
    rcases hid with rfl | rfl | rfl | rfl
    all_goals exact .inl (by decide)
  · exact resting_others (by decide) hid

/-- The mutex is free, no thread executes a step, and thread `3` sleeps. -/
theorem waiter_stranded : let c := Runs.run (step act) (System.start normal) stranding
    c.shared.mutex.state = 0 ∧ (∀ id, Resting c.shared id (c.thread id)) ∧ c.shared.blocked = [3] := by
  refine ⟨by decide, ?_, by decide⟩
  intro id
  by_cases hid : id ∈ [1, 2, 3, 4]
  · simp only [mem_cons, not_mem_nil, or_false] at hid
    rcases hid with rfl | rfl | rfl | rfl
    · exact .inl (by decide)
    · exact .inl (by decide)
    · exact .inr (by decide)
    · exact .inl (by decide)
  · exact resting_others (by decide) hid

end HandoverFixture

end MochiSyscalls.PosixClient.PthreadMutex
