import MochiSyscalls.PosixClient.LifecycleImage

/-! # The lifecycle of a process image

What initializing and finalizing an image is for, without phases and threads: one call enters and begins the objects
in order, at most one call claims what was begun and finalizes it from the last object to the first, and nothing is
begun after the claim. A trace is legal if this machine takes all its events. Every legal trace moves the machine
forward, and the order of the events follows from that. -/

namespace MochiSyscalls.PosixClient.LifecycleImage
open List
set_option autoImplicit false

/-- The call that entered, the objects begun, the lists started, and how many callbacks of the last list were called. -/
structure Startup where
  owner : Option ℕ
  preStarted : Bool
  begun : ℕ
  started : ℕ
  calls : ℕ

/-- The call that claimed and how many objects, those still to be finalized, and how far the call is in the last list. -/
structure Shutdown where
  claim : Option (ℕ × ℕ)
  left : ℕ
  calls : ℕ
  inside : Bool

structure Life where
  start : Startup
  stop : Shutdown

/-- Events that say nothing about the order of the lifecycle. -/
def Event.quiet : Event → Bool
  | .called .preinit _ _ | .ended .preinit | .ended (.initializer _) | .failed _ _ | .unreadable | .finished => true
  | _ => false

namespace Life

def new : Life := ⟨⟨none, false, 0, 0, 0⟩, ⟨none, 0, 0, false⟩⟩

/-- The events a lifecycle can take next, and what they make of it. -/
inductive Next (life : Life) (id : ℕ) : Event → Life → Prop
  | entered (h : life = new) : Next life id .entered { life with start := { life.start with owner := some id } }
  | begun (howner : life.start.owner = some id) (hclaim : life.stop.claim = none) :
      Next life id (.begun life.start.begun) { life with start := { life.start with begun := life.start.begun + 1 } }
  | claimed (howner : life.start.owner ≠ none) (hclaim : life.stop.claim = none) :
      Next life id (.claimed life.start.begun)
        { life with stop := ⟨some (id, life.start.begun), life.start.begun, 0, false⟩ }
  | startPreinit (howner : life.start.owner = some id) (hfresh : life.start.preStarted = false) :
      Next life id (.started .preinit) { life with start := { life.start with preStarted := true } }
  | startInitializer (howner : life.start.owner = some id) (hbegun : life.start.started < life.start.begun) :
      Next life id (.started (.initializer life.start.started))
        { life with start := { life.start with started := life.start.started + 1, calls := 0 } }
  | startFinalizer {index n : ℕ} (hclaim : life.stop.claim = some (id, n)) (hleft : life.stop.left = index + 1)
      (hinside : life.stop.inside = false) :
      Next life id (.started (.finalizer index))
        { life with stop := { life.stop with left := index, calls := 0, inside := true } }
  | callInitializer {index : ℕ} {address : UInt64} (howner : life.start.owner = some id)
      (hstarted : life.start.started = index + 1) :
      Next life id (.called (.initializer index) life.start.calls address)
        { life with start := { life.start with calls := life.start.calls + 1 } }
  | callFinalizer {address : UInt64} {n : ℕ} (hclaim : life.stop.claim = some (id, n)) (hinside : life.stop.inside = true) :
      Next life id (.called (.finalizer life.stop.left) life.stop.calls address)
        { life with stop := { life.stop with calls := life.stop.calls + 1 } }
  | endFinalizer {n : ℕ} (hclaim : life.stop.claim = some (id, n)) (hinside : life.stop.inside = true) :
      Next life id (.ended (.finalizer life.stop.left)) { life with stop := { life.stop with inside := false } }
  | quiet {event : Event} (h : event.quiet = true) : Next life id event life

/-- `b` is not behind `a`. -/
structure Le (a b : Life) : Prop where
  pre : a.start.preStarted = true → b.start.preStarted = true
  owner : ∀ id, a.start.owner = some id → b.start.owner = some id
  begun : a.start.begun ≤ b.start.begun
  started : a.start.started < b.start.started ∨ (a.start.started = b.start.started ∧ a.start.calls ≤ b.start.calls)
  claim : ∀ c, a.stop.claim = some c → b.stop.claim = some c ∧
    (b.stop.left < a.stop.left ∨ (b.stop.left = a.stop.left ∧ a.stop.calls ≤ b.stop.calls))

theorem Le.refl (a : Life) : Le a a :=
  ⟨id, fun _ h => h, le_rfl, .inr ⟨rfl, le_rfl⟩, fun _ h => ⟨h, .inr ⟨rfl, le_rfl⟩⟩⟩

theorem Le.trans {a b c : Life} (hab : Le a b) (hbc : Le b c) : Le a c where
  pre h := hbc.pre (hab.pre h)
  owner id h := hbc.owner id (hab.owner id h)
  begun := hab.begun.trans hbc.begun
  started := by
    have h₁ := hab.started
    have h₂ := hbc.started
    omega
  claim claim h := by
    obtain ⟨hb, h₁⟩ := hab.claim claim h
    obtain ⟨hc, h₂⟩ := hbc.claim claim hb
    exact ⟨hc, by omega⟩

theorem le_of_start {a b : Life} (hstop : b.stop = a.stop) (hpre : a.start.preStarted = true → b.start.preStarted = true)
    (howner : ∀ id, a.start.owner = some id → b.start.owner = some id) (hbegun : a.start.begun ≤ b.start.begun)
    (hstarted : a.start.started < b.start.started ∨
      (a.start.started = b.start.started ∧ a.start.calls ≤ b.start.calls)) : Le a b :=
  ⟨hpre, howner, hbegun, hstarted, fun c h => ⟨by rw [hstop, h], .inr ⟨by rw [hstop], by rw [hstop]⟩⟩⟩

theorem le_of_stop {a b : Life} (hstart : b.start = a.start)
    (hclaim : ∀ c, a.stop.claim = some c → b.stop.claim = some c ∧
      (b.stop.left < a.stop.left ∨ (b.stop.left = a.stop.left ∧ a.stop.calls ≤ b.stop.calls))) : Le a b :=
  ⟨fun h => by rw [hstart, h], fun _ h => by rw [hstart, h], by rw [hstart],
    .inr ⟨by rw [hstart], by rw [hstart]⟩, hclaim⟩

theorem Next.le {life life' : Life} {id : ℕ} {event : Event} (h : life.Next id event life') : Le life life' := by
  cases h with
  | entered hnew =>
    subst hnew
    exact le_of_start rfl (fun h => h) nofun le_rfl (Or.inr ⟨rfl, le_rfl⟩)
  | begun => exact le_of_start rfl (fun h => h) (fun _ h => h) (Nat.le_succ _) (Or.inr ⟨rfl, le_rfl⟩)
  | claimed howner hnone =>
    refine le_of_stop rfl fun c hc => ?_
    rw [hnone] at hc
    cases hc
  | startPreinit => exact le_of_start rfl (fun _ => rfl) (fun _ h => h) le_rfl (Or.inr ⟨rfl, le_rfl⟩)
  | startInitializer => exact le_of_start rfl (fun h => h) (fun _ h => h) le_rfl (Or.inl (Nat.lt_succ_self _))
  | @startFinalizer index n hclaim hleft hinside =>
    refine le_of_stop rfl fun c hc => ⟨hc, Or.inl ?_⟩
    show index < life.stop.left
    omega
  | callInitializer => exact le_of_start rfl (fun h => h) (fun _ h => h) le_rfl (Or.inr ⟨rfl, Nat.le_succ _⟩)
  | callFinalizer => exact le_of_stop rfl fun c hc => ⟨hc, Or.inr ⟨rfl, Nat.le_succ _⟩⟩
  | endFinalizer => exact le_of_stop rfl fun c hc => ⟨hc, Or.inr ⟨rfl, le_rfl⟩⟩
  | quiet => exact Le.refl life

/-! ### What an event needs and does -/

section Events

variable {a b : Life} {id : ℕ}

end Events

end Life

/-! ## Traces -/

inductive Trace (life : Life) : List (ℕ × Event) → Life → Prop
  | nil : Trace life [] life
  | snoc {life₁ life₂ : Life} {trace : List (ℕ × Event)} {id : ℕ} {event : Event} (h : Trace life trace life₁)
      (hnext : life₁.Next id event life₂) : Trace life (trace ++ [(id, event)]) life₂

/-- `x` and, later, `y`. -/
def Before (trace : List (ℕ × Event)) (x y : ℕ × Event) : Prop := ∃ pre mid post, trace = pre ++ x :: (mid ++ y :: post)

namespace Trace

variable {life life' : Life} {trace : List (ℕ × Event)}

theorem le (h : Trace life trace life') : Life.Le life life' := by
  induction h with
  | nil => exact Life.Le.refl life
  | snoc _ hnext ih => exact ih.trans hnext.le

theorem split {pre post : List (ℕ × Event)} {id : ℕ} {event : Event} (h : Trace life (pre ++ (id, event) :: post) life') :
    ∃ life₁ life₂, Trace life pre life₁ ∧ life₁.Next id event life₂ ∧ Trace life₂ post life' := by
  generalize htrace : pre ++ (id, event) :: post = trace at h
  induction h generalizing post with
  | nil => simp at htrace
  | @snoc life₁ life₂ trace id' event' htail hnext ih =>
    rcases eq_nil_or_concat post with rfl | ⟨post', last, rfl⟩
    · obtain ⟨rfl, hlast⟩ := append_inj' htrace rfl
      cases hlast
      exact ⟨life₁, life₂, htail, hnext, Trace.nil⟩
    · rw [concat_eq_append, ← cons_append, ← append_assoc] at htrace
      obtain ⟨hfront, hlast⟩ := append_inj' htrace rfl
      cases hlast
      obtain ⟨l₁, l₂, hpre, hmid, hpost⟩ := ih hfront
      rw [concat_eq_append]
      exact ⟨l₁, l₂, hpre, hmid, hpost.snoc hnext⟩

theorem before {x y : ℕ × Event} (h : Trace life trace life') (hbefore : Before trace x y) :
    ∃ a a' b b', Life.Next a x.1 x.2 a' ∧ Life.Le a' b ∧ Life.Next b y.1 y.2 b' := by
  obtain ⟨pre, mid, post, rfl⟩ := hbefore
  obtain ⟨a, a', _, hx, hrest⟩ := h.split
  obtain ⟨b, b', hmid, hy, _⟩ := hrest.split
  exact ⟨a, a', b, b', hx, hmid.le, hy⟩

theorem mem {id : ℕ} {event : Event} (h : Trace life trace life') (hmem : (id, event) ∈ trace) :
    ∃ a a', Life.Next a id event a' ∧ Life.Le a' life' := by
  obtain ⟨pre, post, rfl⟩ := append_of_mem hmem
  obtain ⟨a, a', _, hnext, hpost⟩ := h.split
  exact ⟨a, a', hnext, hpost.le⟩

/-! ### What a trace has done -/

theorem claim_mem (h : Trace life trace life') (hnone : life.stop.claim = none) {id n : ℕ}
    (hclaim : life'.stop.claim = some (id, n)) : (id, Event.claimed n) ∈ trace ∧ n ≤ life'.start.begun := by
  induction h with
  | nil =>
    rw [hnone] at hclaim
    cases hclaim
  | @snoc life₁ life₂ trace id' event _ hnext ih =>
    have hbegun := hnext.le.begun
    cases hnext with
    | claimed =>
      cases hclaim
      exact ⟨mem_append_right _ (mem_singleton_self _), le_rfl⟩
    | _ =>
      obtain ⟨hmem, hle⟩ := ih hclaim
      exact ⟨mem_append_left _ hmem, hle.trans hbegun⟩

section

variable (h : Trace Life.new trace life) {id n : ℕ} (hclaim : life.stop.claim = some (id, n))
include h hclaim

end

/-! ### The order of events -/

section

variable (h : Trace life trace life')
include h

end

end Trace

end MochiSyscalls.PosixClient.LifecycleImage
