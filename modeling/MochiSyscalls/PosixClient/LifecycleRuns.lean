import MochiSyscalls.Foundations.Masks
import MochiSyscalls.PosixClient.Lifecycle

/-! # Interleaved calls follow the lifecycle

The phase word is the lifecycle, packed: whichever call changes it does what the lifecycle allows next. Every
interleaving of calls therefore has a legal trace, and each call is where the lifecycle says it is. -/

namespace MochiSyscalls.PosixClient.LifecycleImage
open Foundations Masks Checked Words List
set_option autoImplicit false

/-! ## The phase word -/

variable {n : ℕ}

theorem ofNat_toNat (hn : n < 2 ^ 32) : (UInt64.ofNat n).toNat = n := by
  rw [UInt64.toNat_ofNat']
  omega

variable {tag : UInt64}

theorem pack_toNat (htag : tag.toNat < 8) (hn : n < 2 ^ 32) : (pack tag n).toNat = tag.toNat + 8 * n := by
  have h := or_shiftLeft_toNat (a := tag) (b := UInt64.ofNat n) (s := 3)
  rw [show (3 : UInt64).toNat = 3 by decide, ofNat_toNat hn] at h
  exact h htag (by omega) (by omega)

theorem seven_toNat : (7 : UInt64).toNat = 2 ^ 3 - 1 := by decide

section

variable (htag : tag.toNat < 8) (hn : n < 2 ^ 32)
include htag hn

theorem pack_tag : pack tag n &&& 7 = tag := by
  apply UInt64.toNat_inj.1
  rw [and_mask_toNat seven_toNat, pack_toNat htag hn]
  omega

theorem pack_count : (pack tag n >>> 3).toNat = n := by
  rw [UInt64.toNat_shiftRight, Nat.shiftRight_eq_div_pow, pack_toNat htag hn, show (3 : UInt64).toNat % 64 = 3 by decide]
  omega

theorem claim_pack : 3 ||| (pack tag n &&& ~~~7) = pack 3 n := by
  have hclear := and_not_mask_toNat seven_toNat (pack tag n)
  apply UInt64.toNat_inj.1
  rw [or_multiple_toNat (by decide) hclear, pack_toNat htag hn, pack_toNat (by decide) hn]
  omega

end

inductive PhaseIs (life : Life) (phase : UInt64) : Prop
  | fresh (hlife : life = Life.new) (h : phase = 0)
  | starting (howner : life.start.owner ≠ none) (hclaim : life.stop.claim = none) (h : phase = pack 1 life.start.begun)
  | ready (howner : life.start.owner ≠ none) (hclaim : life.stop.claim = none) (h : phase = pack 2 life.start.begun)
  | claimed {id n : ℕ} (hclaim : life.stop.claim = some (id, n)) (hn : n ≤ life.start.begun) (h : phase = pack 3 n)
  | done {id n : ℕ} (hclaim : life.stop.claim = some (id, n)) (h : phase = 4)

namespace PhaseIs

variable {life : Life} {phase : UInt64}

theorem eq_new (h : PhaseIs life phase) (hbegun : life.start.begun < 2 ^ 32) (hphase : phase = 0) : life = Life.new := by
  have htag : phase &&& 7 = 0 := by rw [hphase]; decide
  cases h with
  | fresh hlife => exact hlife
  | starting _ _ h | ready _ _ h =>
    rw [h, pack_tag (by decide) hbegun] at htag
    cases htag
  | claimed _ hn h =>
    rw [h, pack_tag (by decide) (by omega)] at htag
    cases htag
  | done _ h =>
    rw [h] at hphase
    cases hphase

theorem running (h : PhaseIs life phase) (hbegun : life.start.begun < 2 ^ 32)
    (hphase : phase &&& 7 = 1 ∨ phase &&& 7 = 2) :
    life.start.owner ≠ none ∧ life.stop.claim = none ∧ (phase >>> 3).toNat = life.start.begun ∧
      3 ||| (phase &&& ~~~7) = pack 3 life.start.begun := by
  cases h with
  | fresh _ h | done _ h =>
    rw [h] at hphase
    rcases hphase with h | h <;> cases h
  | starting howner hclaim h | ready howner hclaim h =>
    rw [h]
    exact ⟨howner, hclaim, pack_count (by decide) hbegun, claim_pack (by decide) hbegun⟩
  | claimed _ hn h =>
    rw [h, pack_tag (by decide) (by omega)] at hphase
    rcases hphase with h | h <;> cases h

end PhaseIs

/-! ## Where a call is -/

/-- The call met a callback that failed, or an image it could not read. -/
def Stopped (trace : List (ℕ × Event)) (id : ℕ) : Prop :=
  (∃ list k, (id, Event.failed list k) ∈ trace) ∨ (id, Event.unreadable) ∈ trace

theorem Stopped.append {trace : List (ℕ × Event)} {id : ℕ} (h : Stopped trace id) (more : List (ℕ × Event)) :
    Stopped (trace ++ more) id := by
  rcases h with ⟨list, k, h⟩ | h
  · exact .inl ⟨list, k, mem_append_left _ h⟩
  · exact .inr (mem_append_left _ h)

def InitAt {E : Type} (objects : ℕ) (start : Startup) : Thread E → Prop
  | .initObject i => start.begun = i ∧ start.started = i ∧ i ≤ objects
  | .initMark i _ => start.begun = i ∧ start.started = i ∧ i < objects
  | .initLast => start.begun = objects
  | .visitStart .preinit _ => start.preStarted = false ∧ start.begun = 0 ∧ start.started = 0
  | .visitAt .preinit _ _ => start.begun = 0 ∧ start.started = 0
  | .inCallback .preinit _ _ _ => start.begun = 0 ∧ start.started = 0
  | .visitStart (.initializer i) _ => start.begun = i + 1 ∧ start.started = i ∧ i < objects
  | .visitAt (.initializer i) _ k => start.begun = i + 1 ∧ start.started = i + 1 ∧ i < objects ∧ start.calls = k
  | .inCallback (.initializer i) _ k _ => start.begun = i + 1 ∧ start.started = i + 1 ∧ i < objects ∧ start.calls = k + 1
  | _ => False

def FinAt {E : Type} (stop : Shutdown) (n : ℕ) : Thread E → Prop
  | .finClaimed begun => begun = n ∧ stop.left = n ∧ stop.inside = false
  | .finObject left => stop.left = left ∧ stop.inside = false
  | .finStore => stop.left = 0 ∧ stop.inside = false
  | .visitStart (.finalizer i) _ => stop.left = i + 1 ∧ stop.inside = false
  | .visitAt (.finalizer i) _ k => stop.left = i ∧ stop.inside = true ∧ stop.calls = k
  | .inCallback (.finalizer i) _ k _ => stop.left = i ∧ stop.inside = true ∧ stop.calls = k + 1
  | _ => False

def IdleAt {E : Type} : Thread E → Prop
  | .initEnter | .finLoad | .returned _ => True
  | .finCas value => value &&& 7 = 1 ∨ value &&& 7 = 2
  | _ => False

inductive At {E : Type} (objects : ℕ) (trace : List (ℕ × Event)) (life : Life) (id : ℕ) (thread : Thread E) : Prop
  | init (howner : life.start.owner = some id) (hclaim : ∀ n, life.stop.claim ≠ some (id, n))
      (h : InitAt objects life.start thread)
  | fin {n : ℕ} (hclaim : life.stop.claim = some (id, n)) (h : FinAt life.stop n thread)
  | idle (hclaim : ∀ n, life.stop.claim ≠ some (id, n)) (h : IdleAt thread)
  | ended {n : ℕ} {result : Except (Error E) Unit} (hclaim : life.stop.claim = some (id, n))
      (hthread : thread = .returned result)
      (h : (result = .ok () ∧ life.stop.left = 0 ∧ life.stop.inside = false) ∨ Stopped trace id)

variable {objects : ℕ} {event : Event}

theorem At.other {E : Type} {trace : List (ℕ × Event)} {life life' : Life} {id id' : ℕ}
    {thread : Thread E} (h : At objects trace life id' thread) (hne : id' ≠ id) (hnext : life.Next id event life') :
    At objects (trace ++ [(id, event)]) life' id' thread := by
  have hstart : life.start.owner = some id' → life'.start = life.start := by
    intro howner
    cases hnext with
    | entered hnew =>
      subst hnew
      cases howner
    | begun h | startPreinit h | startInitializer h | callInitializer h =>
      rw [h] at howner
      exact absurd (Option.some.inj howner).symm hne
    | _ => rfl
  have hstop : ∀ n, life.stop.claim = some (id', n) → life'.stop = life.stop := by
    intro n hclaim
    cases hnext with
    | claimed _ hnone =>
      rw [hnone] at hclaim
      cases hclaim
    | startFinalizer h | callFinalizer h | endFinalizer h =>
      rw [h] at hclaim
      cases hclaim
      exact absurd rfl hne
    | _ => rfl
  have hclaims : (∀ n, life.stop.claim ≠ some (id', n)) → ∀ n, life'.stop.claim ≠ some (id', n) := by
    intro hnot n hclaim
    cases hnext with
    | claimed =>
      cases hclaim
      exact hne rfl
    | _ => exact hnot n hclaim
  cases h with
  | init howner hclaim h =>
    have heq := hstart howner
    rw [← heq] at howner h
    exact .init howner (hclaims hclaim) h
  | fin hclaim h =>
    have heq := hstop _ hclaim
    rw [← heq] at hclaim h
    exact .fin hclaim h
  | idle hclaim h => exact .idle (hclaims hclaim) h
  | ended hclaim hthread h =>
    have heq := hstop _ hclaim
    rw [← heq] at hclaim h
    exact .ended hclaim hthread (h.imp (fun h => h) fun h => h.append _)

/-! ## One step -/

inductive Moves (id : ℕ) : Life → List Event → Life → Prop
  | nil (life : Life) : Moves id life [] life
  | cons {life life₁ life₂ : Life} {event : Event} {events : List Event} (hnext : life.Next id event life₁)
      (h : Moves id life₁ events life₂) : Moves id life (event :: events) life₂

theorem Moves.single {id : ℕ} {life life' : Life} (h : life.Next id event life') :
    Moves id life [event] life' := .cons h (.nil life')

variable {events : List Event}

theorem Moves.trace {id : ℕ} {life life' : Life} (h : Moves id life events life')
    {trace : List (ℕ × Event)} (htrace : Trace Life.new trace life) :
    Trace Life.new (trace ++ events.map (id, ·)) life' := by
  induction h generalizing trace with
  | nil => rwa [map_nil, append_nil]
  | cons hnext _ ih =>
    have hrest := ih (htrace.snoc hnext)
    rwa [append_assoc] at hrest

theorem Moves.other {E : Type} {id id' : ℕ} {life life' : Life}
    (h : Moves id life events life') {trace : List (ℕ × Event)} {thread : Thread E}
    (hat : At objects trace life id' thread) (hne : id' ≠ id) :
    At objects (trace ++ events.map (id, ·)) life' id' thread := by
  induction h generalizing trace with
  | nil => rwa [map_nil, append_nil]
  | cons hnext _ ih =>
    have hrest := ih (hat.other hne hnext)
    rwa [append_assoc] at hrest

structure Refines {E : Type} (objects : ℕ) (trace : List (ℕ × Event)) (life : Life) (id : ℕ)
    (result : Thread E × UInt64 × List Event) (life' : Life) : Prop where
  moves : Moves id life result.2.2 life'
  located : At objects (trace ++ result.2.2.map (id, ·)) life' id result.1
  phase : PhaseIs life' result.2.1
  begun_le : life'.start.begun ≤ objects
  claimant : ∀ id' n, life'.stop.claim = some (id', n) → life.stop.claim = some (id', n) ∨ id' = id

section Step

variable {E : Type} {image : Image} {env : Env E} {phase : UInt64} {trace : List (ℕ × Event)} {life : Life} {id : ℕ}

theorem Moves.of_quiet (h : ∀ e ∈ events, e.quiet = true) : Moves id life events life := by
  induction events with
  | nil => exact .nil life
  | cons e events ih =>
    exact .cons (.quiet (h e mem_cons_self)) (ih fun e' he' => h e' (mem_cons_of_mem e he'))

variable {thread : Thread E}

theorem Refines.still (hquiet : ∀ e ∈ events, e.quiet = true)
    (hphase : PhaseIs life phase) (hbegun : life.start.begun ≤ objects)
    (hat : At objects (trace ++ events.map (id, ·)) life id thread) :
    Refines objects trace life id (thread, phase, events) life :=
  ⟨Moves.of_quiet hquiet, hat, hphase, hbegun, fun _ _ h => .inl h⟩

theorem PhaseIs.keep {life' : Life} (h : PhaseIs life phase) (howner : life'.start.owner = life.start.owner)
    (hbegun : life'.start.begun = life.start.begun) (hclaim : life'.stop.claim = life.stop.claim)
    (hold : life ≠ Life.new) : PhaseIs life' phase := by
  cases h with
  | fresh hlife => exact absurd hlife hold
  | starting ho hc h => exact .starting (howner ▸ ho) (hclaim ▸ hc) (hbegun ▸ h)
  | ready ho hc h => exact .ready (howner ▸ ho) (hclaim ▸ hc) (hbegun ▸ h)
  | claimed hc hn h => exact .claimed (hclaim ▸ hc) (hbegun ▸ hn) h
  | done hc h => exact .done (hclaim ▸ hc) h

theorem ne_new_of_owner (h : life.start.owner = some id) : life ≠ Life.new := by
  rintro rfl
  cases h

theorem ne_new_of_claim (h : life.stop.claim = some (id, n)) : life ≠ Life.new := by
  rintro rfl
  cases h

theorem At.initAt (h : At objects trace life id thread)
    (hfin : ∀ n, ¬ FinAt life.stop n thread) (hidle : ¬ IdleAt thread) :
    life.start.owner = some id ∧ (∀ n, life.stop.claim ≠ some (id, n)) ∧ InitAt objects life.start thread := by
  cases h with
  | init howner hclaim h => exact ⟨howner, hclaim, h⟩
  | fin _ h => exact absurd h (hfin _)
  | idle _ h => exact absurd h hidle
  | ended _ hthread _ =>
    subst hthread
    exact absurd trivial hidle

section

variable (h : At objects trace life id thread) (hinit : ¬ InitAt objects life.start thread)
include h hinit

theorem At.finAt (hidle : ¬ IdleAt thread) : ∃ n, life.stop.claim = some (id, n) ∧ FinAt life.stop n thread := by
  cases h with
  | init _ _ h => exact absurd h hinit
  | fin hclaim h => exact ⟨_, hclaim, h⟩
  | idle _ h => exact absurd h hidle
  | ended _ hthread _ =>
    subst hthread
    exact absurd trivial hidle

theorem At.idleAt (hfin : ∀ n, ¬ FinAt life.stop n thread) (hreturned : ∀ result, thread ≠ .returned result) :
    (∀ n, life.stop.claim ≠ some (id, n)) ∧ IdleAt thread := by
  cases h with
  | init _ _ h => exact absurd h hinit
  | fin _ h => exact absurd h (hfin _)
  | idle hclaim h => exact ⟨hclaim, h⟩
  | ended _ hthread _ => exact absurd hthread (hreturned _)

end

abbrev StepRefines (image : Image) (env : Env E) (trace : List (ℕ × Event)) (life : Life) (phase : UInt64) (id : ℕ)
    (thread : Thread E) : Prop :=
  At image.objects trace life id thread → ∃ life', Refines image.objects trace life id (step image env phase thread) life'

variable (hphase : PhaseIs life phase) (hbegun : life.start.begun ≤ image.objects)
include hphase hbegun

attribute [local simp] step

/-! ### Initializing -/

theorem refines_initEnter : StepRefines image env trace life phase id .initEnter := by
  intro hat
  obtain ⟨hclaim, _⟩ := hat.idleAt (fun h => h) (fun _ h => h) nofun
  rw [step]
  split
  next hzero =>
    have hnew := hphase.eq_new (lt_of_le_of_lt hbegun image.objects_lt) hzero
    subst hnew
    have hone : (1 : UInt64) = pack 1 0 := by decide
    exact ⟨_, .single (.entered rfl), .init rfl nofun ⟨rfl, rfl, rfl⟩, .starting nofun rfl hone, hbegun, nofun⟩
  next =>
    split
    · exact ⟨life, .still nofun hphase hbegun (.idle hclaim trivial)⟩
    · exact ⟨life, .still nofun hphase hbegun (.idle hclaim trivial)⟩

theorem refines_initObject {index : ℕ} : StepRefines image env trace life phase id (.initObject index) := by
  intro hat
  obtain ⟨howner, hclaim, hb, hs, hle⟩ := hat.initAt (fun _ h => h) (fun h => h)
  rw [step]
  split
  next hlt =>
    split
    · exact ⟨life, .still (by simp [Event.quiet]) hphase hbegun (.idle hclaim trivial)⟩
    · exact ⟨life, .still nofun hphase hbegun (.init howner hclaim ⟨hb, hs, hlt⟩)⟩
  next hge => exact ⟨life, .still nofun hphase hbegun (.init howner hclaim (by simp only [InitAt]; omega))⟩

theorem refines_initMark {index : ℕ} {object : Object} :
    StepRefines image env trace life phase id (.initMark index object) := by
  intro hat
  obtain ⟨howner, hclaim, hb, hs, hlt⟩ := hat.initAt (fun _ h => h) (fun h => h)
  have hsmall := lt_of_le_of_lt hbegun image.objects_lt
  rw [step]
  split
  next hpack =>
    subst hb
    have htag : phase &&& 7 = 1 := by rw [hpack, pack_tag (by decide) hsmall]
    obtain ⟨_, hnone, _⟩ := hphase.running hsmall (.inl htag)
    refine ⟨_, .single (.begun howner hnone), .init howner hclaim ⟨rfl, hs, hlt⟩, ?_, hlt, fun _ _ h => .inl h⟩
    exact .starting (by simp [howner]) hnone rfl
  next => exact ⟨life, .still nofun hphase hbegun (.idle hclaim trivial)⟩

theorem refines_initLast : StepRefines image env trace life phase id .initLast := by
  intro hat
  obtain ⟨howner, hclaim, hb⟩ := hat.initAt (fun _ h => h) (fun h => h)
  have hsmall := lt_of_le_of_lt hbegun image.objects_lt
  rw [step]
  split
  next hpack =>
    have htag : phase &&& 7 = 1 := by rw [hpack, pack_tag (by decide) image.objects_lt]
    obtain ⟨hany, hnone, _⟩ := hphase.running hsmall (.inl htag)
    refine ⟨life, .nil life, .idle hclaim trivial, ?_, hbegun, fun _ _ h => .inl h⟩
    exact .ready hany hnone (by rw [show life.start.begun = image.objects from hb])
  next => exact ⟨life, .still nofun hphase hbegun (.idle hclaim trivial)⟩

/-! ### Finalizing -/

theorem refines_finLoad : StepRefines image env trace life phase id .finLoad := by
  intro hat
  obtain ⟨hclaim, _⟩ := hat.idleAt (fun h => h) (fun _ h => h) nofun
  rw [step]
  split
  · exact ⟨life, .still nofun hphase hbegun (.idle hclaim trivial)⟩
  next hrun =>
    refine ⟨life, .still nofun hphase hbegun (.idle hclaim ?_)⟩
    obtain ⟨hzero, hsmall⟩ := not_or.1 hrun
    have hlt : (phase &&& 7).toNat < 3 := by
      rw [UInt64.le_iff_toNat_le, show (3 : UInt64).toNat = 3 by decide] at hsmall
      omega
    have hne : (phase &&& 7).toNat ≠ 0 := fun h => hzero (UInt64.toNat_inj.1 h)
    have hcases : (phase &&& 7).toNat = 1 ∨ (phase &&& 7).toNat = 2 := by omega
    exact hcases.imp (fun h => UInt64.toNat_inj.1 h) fun h => UInt64.toNat_inj.1 h

theorem refines_finCas {value : UInt64} : StepRefines image env trace life phase id (.finCas value) := by
  intro hat
  obtain ⟨hclaim, htag⟩ := hat.idleAt (fun h => h) (fun _ h => h) nofun
  have hsmall := lt_of_le_of_lt hbegun image.objects_lt
  rw [step]
  split
  next heq =>
    subst heq
    obtain ⟨howner, hnone, hcount, hword⟩ := hphase.running hsmall htag
    rw [hcount, hword]
    refine ⟨_, .single (.claimed howner hnone), .fin rfl ⟨rfl, rfl, rfl⟩, .claimed rfl le_rfl rfl, hbegun, ?_⟩
    rintro id' n h
    cases h
    exact .inr rfl
  next => exact ⟨life, .still nofun hphase hbegun (.idle hclaim trivial)⟩

theorem refines_finClaimed {begun : ℕ} (hlegal : Trace Life.new trace life) :
    StepRefines image env trace life phase id (.finClaimed begun) := by
  intro hat
  obtain ⟨n, hclaim, rfl, hleft, hinside⟩ := hat.finAt (fun h => h) (fun h => h)
  have hle := (hlegal.claim_mem rfl hclaim).2
  rw [step]
  rw [if_neg (by omega)]
  exact ⟨life, .still nofun hphase hbegun (.fin hclaim ⟨hleft, hinside⟩)⟩

theorem refines_finObject {left : ℕ} : StepRefines image env trace life phase id (.finObject left) := by
  intro hat
  obtain ⟨n, hclaim, hleft, hinside⟩ := hat.finAt (fun h => h) (fun h => h)
  cases left with
  | zero => exact ⟨life, .still nofun hphase hbegun (.fin hclaim ⟨hleft, hinside⟩)⟩
  | succ index =>
    rw [step]
    split
    · refine ⟨life, .still (by simp [Event.quiet]) hphase hbegun (.ended hclaim rfl (.inr (.inr ?_)))⟩
      simp
    · exact ⟨life, .still nofun hphase hbegun (.fin hclaim ⟨hleft, hinside⟩)⟩

omit hphase in
theorem refines_finStore : StepRefines image env trace life phase id .finStore := by
  intro hat
  obtain ⟨n, hclaim, hleft, hinside⟩ := hat.finAt (fun h => h) (fun h => h)
  rw [step]
  exact ⟨life, .of_quiet (by simp [Event.quiet]), .ended hclaim rfl (Or.inl ⟨rfl, hleft, hinside⟩), .done hclaim rfl, hbegun,
    fun _ _ h => Or.inl h⟩

/-! ### Visiting -/

variable {list : CallList}

theorem refines_visitStart {calls : Callbacks} : StepRefines image env trace life phase id (.visitStart list calls) := by
  intro hat
  have hnext : ∃ life', life.Next id (.started list) life' ∧ PhaseIs life' phase ∧ life'.start.begun ≤ image.objects ∧
      life'.stop.claim = life.stop.claim ∧
      ∀ t, At image.objects t life' id (.visitAt list calls 0 : Thread E) := by
    cases list with
    | preinit =>
      obtain ⟨howner, hclaim, hfresh, hb, hs⟩ := hat.initAt (fun _ h => h) (fun h => h)
      exact ⟨_, .startPreinit howner hfresh, hphase.keep rfl rfl rfl (ne_new_of_owner howner), hbegun, rfl,
        fun t => .init howner hclaim ⟨hb, hs⟩⟩
    | initializer i =>
      obtain ⟨howner, hclaim, hb, hs, hlt⟩ := hat.initAt (fun _ h => h) (fun h => h)
      subst hs
      exact ⟨_, .startInitializer howner (by omega), hphase.keep rfl rfl rfl (ne_new_of_owner howner), hbegun, rfl,
        fun t => .init howner hclaim ⟨hb, rfl, hlt, rfl⟩⟩
    | finalizer i =>
      obtain ⟨n, hclaim, hleft, hinside⟩ := hat.finAt (fun h => h) (fun h => h)
      exact ⟨_, .startFinalizer hclaim hleft hinside, hphase.keep rfl rfl rfl (ne_new_of_claim hclaim), hbegun, rfl,
        fun t => .fin hclaim ⟨rfl, rfl, rfl⟩⟩
  obtain ⟨life', hnext, hphase', hbegun', hclaim', hat'⟩ := hnext
  have hsame : ∀ id' n, life'.stop.claim = some (id', n) → life.stop.claim = some (id', n) ∨ id' = id :=
    fun id' n h => .inl (hclaim' ▸ h)
  rw [step]
  split
  next e he =>
    refine ⟨life', .cons hnext (.single (.quiet rfl)), ?_, hphase', hbegun', hsame⟩
    have hstopped : Stopped (trace ++ [Event.started list, Event.unreadable].map (id, ·)) id := .inr (by simp)
    cases hat' trace with
    | init _ hclaim _ | idle hclaim _ => exact .idle hclaim trivial
    | fin hclaim _ | ended hclaim _ _ => exact .ended hclaim rfl (.inr hstopped)
  next => exact ⟨life', .single hnext, hat' _, hphase', hbegun', hsame⟩

theorem refines_stopped {result : Except (Error E) Unit}
    (hat : At image.objects trace life id thread) (hquiet : event.quiet = true) (hevent : Stopped [(id, event)] id) :
    Refines image.objects trace life id (.returned result, phase, [event]) life := by
  refine .still (by simpa using hquiet) hphase hbegun ?_
  have hstopped : Stopped (trace ++ [event].map (id, ·)) id := by
    rcases hevent with ⟨list, k, h⟩ | h
    · exact .inl ⟨list, k, mem_append_right _ h⟩
    · exact .inr (mem_append_right _ h)
  cases hat with
  | init _ hclaim _ | idle hclaim _ => exact .idle hclaim trivial
  | fin hclaim _ | ended hclaim _ _ => exact .ended hclaim rfl (.inr hstopped)

theorem refines_visitAt {calls : Callbacks} {index : ℕ} :
    StepRefines image env trace life phase id (.visitAt list calls index) := by
  intro hat
  rw [step]
  split
  next hlt =>
    split
    · exact ⟨life, refines_stopped hphase hbegun hat rfl (.inr (by simp))⟩
    next address haddress =>
      split
      · exact ⟨life, refines_stopped hphase hbegun hat rfl (Or.inr (by simp))⟩
      · cases list with
        | preinit =>
          obtain ⟨howner, hclaim, hb, hs⟩ := hat.initAt (fun _ h => h) (fun h => h)
          exact ⟨life, .still (by simp [Event.quiet]) hphase hbegun (.init howner hclaim ⟨hb, hs⟩)⟩
        | initializer i =>
          obtain ⟨howner, hclaim, hb, hs, hi, hcalls⟩ := hat.initAt (fun _ h => h) (fun h => h)
          subst hcalls
          exact ⟨_, .single (.callInitializer howner hs), .init howner hclaim ⟨hb, hs, hi, rfl⟩,
            hphase.keep rfl rfl rfl (ne_new_of_owner howner), hbegun, fun _ _ h => Or.inl h⟩
        | finalizer i =>
          obtain ⟨n, hclaim, hleft, hinside, hcalls⟩ := hat.finAt (fun h => h) (fun h => h)
          subst hleft hcalls
          exact ⟨_, .single (.callFinalizer hclaim hinside), .fin hclaim ⟨rfl, hinside, rfl⟩,
            hphase.keep rfl rfl rfl (ne_new_of_claim hclaim), hbegun, fun _ _ h => Or.inl h⟩
  next hend =>
    cases list with
    | preinit =>
      obtain ⟨howner, hclaim, hb, hs⟩ := hat.initAt (fun _ h => h) (fun h => h)
      exact ⟨life, .still (by simp [Event.quiet]) hphase hbegun (.init howner hclaim ⟨hb, hs, Nat.zero_le _⟩)⟩
    | initializer i =>
      obtain ⟨howner, hclaim, hb, hs, hi, hcalls⟩ := hat.initAt (fun _ h => h) (fun h => h)
      exact ⟨life, .still (by simp [Event.quiet]) hphase hbegun (.init howner hclaim ⟨hb, hs, hi⟩)⟩
    | finalizer i =>
      obtain ⟨n, hclaim, hleft, hinside, hcalls⟩ := hat.finAt (fun h => h) (fun h => h)
      subst hleft
      exact ⟨_, .single (.endFinalizer hclaim hinside), .fin hclaim ⟨rfl, rfl⟩,
        hphase.keep rfl rfl rfl (ne_new_of_claim hclaim), hbegun, fun _ _ h => Or.inl h⟩

theorem refines_inCallback {calls : Callbacks} {index : ℕ} {address : UInt64} :
    StepRefines image env trace life phase id (.inCallback list calls index address) := by
  intro hat
  rw [step]
  split
  · exact ⟨life, refines_stopped hphase hbegun hat rfl (.inl ⟨list, index, by simp⟩)⟩
  · refine ⟨life, .still nofun hphase hbegun ?_⟩
    rw [map_nil, append_nil]
    cases hat with
    | init howner hclaim h => cases list <;> exact .init howner hclaim h
    | fin hclaim h => cases list <;> exact .fin hclaim h
    | idle _ h => exact absurd h (fun h => h)
    | ended _ hthread _ => cases hthread

theorem refines_returned {result : Except (Error E) Unit} :
    StepRefines image env trace life phase id (.returned result) := by
  intro hat
  rw [step]
  exact ⟨life, .still nofun hphase hbegun (by rwa [map_nil, append_nil])⟩

variable (env) in
theorem step_refines (hlegal : Trace Life.new trace life) : StepRefines image env trace life phase id thread := by
  cases thread with
  | initEnter => exact refines_initEnter hphase hbegun
  | initObject index => exact refines_initObject hphase hbegun
  | initMark index object => exact refines_initMark hphase hbegun
  | initLast => exact refines_initLast hphase hbegun
  | finLoad => exact refines_finLoad hphase hbegun
  | finCas value => exact refines_finCas hphase hbegun
  | finClaimed begun => exact refines_finClaimed hphase hbegun hlegal
  | finObject left => exact refines_finObject hphase hbegun
  | finStore => exact refines_finStore hbegun
  | visitStart list calls => exact refines_visitStart hphase hbegun
  | visitAt list calls index => exact refines_visitAt hphase hbegun
  | inCallback list calls index address => exact refines_inCallback hphase hbegun
  | returned result => exact refines_returned hphase hbegun

end Step

/-! ## Runs -/

structure Follows {E : Type} (image : Image) (s : System E) (life : Life) : Prop where
  legal : Trace Life.new s.trace life
  phase : PhaseIs life s.phase
  begun_le : life.start.begun ≤ image.objects
  threads : ∀ id thread, s.threads[id]? = some thread → At image.objects s.trace life id thread
  claimant : ∀ id n, life.stop.claim = some (id, n) → id < s.threads.length

theorem Follows.spawn {E : Type} {image : Image} {s : System E} {life : Life} (h : Follows image s life) {thread : Thread E}
    (hidle : IdleAt thread) : Follows image { s with threads := s.threads ++ [thread] } life where
  legal := h.legal
  phase := h.phase
  begun_le := h.begun_le
  threads id other hother := by
    by_cases hid : id < s.threads.length
    · rw [getElem?_append_left hid] at hother
      exact h.threads id other hother
    · have hmem : other = thread := by
        rw [getElem?_append_right (not_lt.1 hid)] at hother
        exact mem_singleton.1 (mem_of_getElem? hother)
      subst hmem
      exact .idle (fun n hclaim => hid (h.claimant id n hclaim)) hidle
  claimant id n hclaim := by
    have hlt := h.claimant id n hclaim
    rw [length_append]
    omega

theorem act_advance_none {E : Type} (image : Image) {s : System E} {id : ℕ} (env : Env E) (h : s.threads[id]? = none) :
    s.act image (.advance id env) = s := by
  rw [System.act, h]

theorem act_advance_some {E : Type} (image : Image) {s : System E} {id : ℕ} (env : Env E) {thread : Thread E}
    (h : s.threads[id]? = some thread) :
    s.act image (.advance id env) =
      ⟨(step image env s.phase thread).2.1, s.threads.set id (step image env s.phase thread).1,
        s.trace ++ (step image env s.phase thread).2.2.map (id, ·)⟩ := by
  rw [System.act, h]

theorem Follows.act {E : Type} {image : Image} {s : System E} {life : Life} (h : Follows image s life) (action : Action E) :
    ∃ life', Follows image (s.act image action) life' := by
  cases action with
  | startInitialize | startFinalize => exact ⟨life, h.spawn trivial⟩
  | advance id env =>
    cases hthread : s.threads[id]? with
    | none => exact ⟨life, by rwa [act_advance_none image env hthread]⟩
    | some thread =>
      rw [act_advance_some image env hthread]
      obtain ⟨life', hr⟩ := step_refines env h.phase h.begun_le h.legal (h.threads id thread hthread)
      have hid : id < s.threads.length := (List.getElem?_eq_some_iff.1 hthread).1
      refine ⟨life', hr.moves.trace h.legal, hr.phase, hr.begun_le, fun id' other hother => ?_, fun id' n hclaim => ?_⟩
      · by_cases hne : id' = id
        · subst hne
          rw [List.getElem?_set_self hid] at hother
          cases hother
          exact hr.located
        · rw [getElem?_set_ne (Ne.symm hne)] at hother
          exact hr.moves.other (h.threads id' other hother) hne
      · rw [length_set]
        rcases hr.claimant id' n hclaim with hold | rfl
        · exact h.claimant id' n hold
        · exact hid

section Readable

variable {E : Type} {image : Image} {memory : Reader E}

def Action.Reads (memory : Reader E) : Action E → Prop
  | .advance _ env => env.read = memory
  | _ => True

end Readable

/-! ## Finalizing comes to an end -/

section Halts

variable {E : Type} {image : Image}

end Halts

/-! ## Constructors and destructors -/

section Pairing

variable {E : Type} {image : Image} {s : System E} {life : Life}

end Pairing

/-! ### An image of two objects whose first initializer exits -/

namespace LifecycleFixture

def image : Image := ⟨8, 120, 2, ⟨96, 0⟩, by decide⟩

def memory : Reader Empty := fun address =>
  match address with
  | 8 => .ok magic
  | 16 => .ok 0x200000001
  | 24 => .ok 120
  | 40 => .ok 96
  | 48 => .ok 1
  | 56 => .ok 104
  | 64 => .ok 1
  | 72 => .ok 112
  | 80 => .ok 0
  | 88 => .ok 112
  | 96 => .ok 1
  | 104 => .ok 0x1000
  | 112 => .ok 0x2000
  | 120 => .ok 0x3000
  | _ => .ok 0

def env : Env Empty := ⟨memory, fun _ => .ok ()⟩

end LifecycleFixture

end MochiSyscalls.PosixClient.LifecycleImage
