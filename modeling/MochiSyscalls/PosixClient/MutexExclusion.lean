import MochiSyscalls.PosixClient.PthreadMutex

/-! # At most one thread holds a mutex

The outline has one ghost value: the thread whose exchange or swap found the state zero and that has not stored zero
again. Owner and depth are its words; what they say depends on where that thread is. -/

namespace MochiSyscalls.PosixClient.PthreadMutex
open Foundations Interleaving List
set_option autoImplicit false

variable {E : Type}

/-! ## What a call may return -/

def relocked (held : ℕ) : Result E := if held + 1 < 2 ^ 32 then .ok else .err .recursionLimit

/-- What a valid call may return, by the number of locks its thread had when it started. -/
def Answers (kind : ℤ) (held : ℕ) (result : Result E) : Call → Prop
  | .checkOwner | .unlock => result = if held = 0 then .err .notOwner else .ok
  | .tryLock =>
    if held = 0 then result = .ok ∨ result = .err .busy
    else if kind = recursive then result = relocked held
    else result = .err .busy
  | .lock =>
    if held = 0 then result = .ok ∨ ∃ e, result = .failed e
    else if kind = recursive then result = relocked held
    else if kind = errorCheck then result = .err .deadlock
    else ∃ e, result = .failed e

def Legal (kind : ℤ) (id : ℕ) (call : Call) (held : ℕ) (result : Result E) : Prop :=
  if id = 0 ∨ ¬ Known kind then result = .err .invalid else Answers kind held result call

/-- The trace before a return: the call has started, and since then its thread has at most given up locks. -/
def Since (pre : List (ℕ × Event E)) (id : ℕ) (call : Call) (before : List (ℕ × Event E)) : Prop :=
  ∃ during, pre = before ++ (id, .started call) :: during ∧ ∀ x ∈ during, x.1 = id → x.2 = .unlocked

def Sound (kind : ℤ) (pre : List (ℕ × Event E)) (e : ℕ × Event E) : Prop :=
  match e.2 with
  | .returned call result => ∃ before, Since pre e.1 call before ∧ Legal kind e.1 call (locks before e.1) result
  | _ => True

/-! ## The outline -/

structure Consistent (kind : ℤ) (holder : Option ℕ) (s : Shared E) : Prop where
  kind_eq : s.mutex.kind = kind
  initialized : s.mutex.initialized = 1
  free : s.mutex.state = 0 ↔ holder = none
  owner : s.mutex.owner ≠ 0 → holder = some s.mutex.owner
  clear : holder = none → s.mutex.owner = 0 ∧ s.mutex.depth = 0
  sound : Always (Sound kind) s.trace

def Out (holder : Option ℕ) (id : ℕ) (s : Shared E) : Prop := holder ≠ some id ∧ locks s.trace id = 0

/-- The thread has the mutex; its words, and the locks it has returned from. -/
structure Own (holder : Option ℕ) (id : ℕ) (s : Shared E) (owner depth count : ℕ) : Prop where
  holder : holder = some id
  owner : s.mutex.owner = owner
  depth : s.mutex.depth = depth
  count : locks s.trace id = count

def Inside (kind : ℤ) (holder : Option ℕ) (id : ℕ) (s : Shared E) : Prop :=
  ∃ n, Own holder id s id n n ∧ 0 < n ∧ n < 2 ^ 32 ∧ (kind ≠ recursive → n = 1)

def Either (kind : ℤ) (holder : Option ℕ) (id : ℕ) (s : Shared E) : Prop :=
  Out holder id s ∨ Inside kind holder id s

/-- A lock that does not succeed at once: of a thread outside, or of one that deadlocks on its own mutex. -/
def Slow (kind : ℤ) (holder : Option ℕ) (id : ℕ) (s : Shared E) : Prop :=
  Out holder id s ∨ Inside kind holder id s ∧ kind ≠ recursive ∧ kind ≠ errorCheck

def Ongoing (kind : ℤ) (id : ℕ) (s : Shared E) (call : Call) : Prop :=
  (id ≠ 0 ∧ Known kind) ∧ Latest s.trace id (.started call)

def Call.Locking (call : Call) : Prop := call = .lock ∨ call = .tryLock

def At (kind : ℤ) (holder : Option ℕ) (id : ℕ) (s : Shared E) : Place E → Prop
  | .idle => Either kind holder id s
  | .validate call => Either kind holder id s ∧ Latest s.trace id (.started call)
  | .ownerLoad call => Either kind holder id s ∧ Ongoing kind id s call
  | .relockDepth call => Inside kind holder id s ∧ kind = recursive ∧ call.Locking ∧ Ongoing kind id s call
  | .relockStore call depth =>
    (Own holder id s id depth depth ∧ 0 < depth ∧ depth + 1 < 2 ^ 32) ∧ kind = recursive ∧ call.Locking ∧
      Ongoing kind id s call
  | .exchange call =>
    (Out holder id s ∨ (Inside kind holder id s ∧ kind ≠ recursive ∧ kind ≠ errorCheck) ∧ call = .lock) ∧
      call.Locking ∧ Ongoing kind id s call
  | .acquiredDepth call slow =>
    Own holder id s 0 0 0 ∧ (slow = true → call = .lock) ∧ call.Locking ∧ Ongoing kind id s call
  | .acquiredOwner call slow =>
    Own holder id s 0 1 0 ∧ (slow = true → call = .lock) ∧ call.Locking ∧ Ongoing kind id s call
  | .register | .swap | .wait | .waiting | .failed _ _ | .handOver _ | .leave (.failed _) =>
    Slow kind holder id s ∧ Ongoing kind id s .lock
  | .leave .ok => Own holder id s id 1 0 ∧ Ongoing kind id s .lock
  | .leave (.err _) => False
  | .unlockDepth => Inside kind holder id s ∧ Ongoing kind id s .unlock
  | .unlockStore depth => (Own holder id s id depth depth ∧ 1 < depth ∧ depth < 2 ^ 32 ∧ kind = recursive) ∧
      Ongoing kind id s .unlock
  | .clearDepth => Own holder id s id 1 1 ∧ Ongoing kind id s .unlock
  | .clearOwner => Own holder id s id 0 1 ∧ Ongoing kind id s .unlock
  | .release => Own holder id s 0 0 1 ∧ Ongoing kind id s .unlock
  | .wake => Out holder id s ∧ (id ≠ 0 ∧ Known kind) ∧ ∃ before, Since s.trace id .unlock before ∧ 0 < locks before id

/-! ### The other threads -/

section Others

variable {kind : ℤ} {holder holder' : Option ℕ} {id other : ℕ} {s s' : Shared E}

/-- A step that leaves the words of the thread inside and the traces of the others. -/
structure Respects (holder : Option ℕ) (s : Shared E) (id : ℕ) (s' : Shared E) (holder' : Option ℕ) : Prop where
  trace : ∃ more, s'.trace = s.trace ++ more ∧ ∀ x ∈ more, x.1 = id
  inside : ∀ other, other ≠ id → holder = some other →
    holder' = some other ∧ s'.mutex.owner = s.mutex.owner ∧ s'.mutex.depth = s.mutex.depth
  outside : ∀ other, other ≠ id → holder ≠ some other → holder' ≠ some other

namespace Respects

variable (hr : Respects holder s id s' holder') (hother : other ≠ id)
include hr hother

theorem locks_eq : locks s'.trace other = locks s.trace other := by
  obtain ⟨more, htrace, hmore⟩ := hr.trace
  rw [htrace]
  exact locks_other fun x hx h => hother (h.symm.trans (hmore x hx))

theorem latest {e : Event E} (h : Latest s.trace other e) : Latest s'.trace other e := by
  obtain ⟨more, htrace, hmore⟩ := hr.trace
  rw [htrace]
  exact h.other fun x hx h => hother (h.symm.trans (hmore x hx))

theorem ongoing {call : Call} (h : Ongoing kind other s call) : Ongoing kind other s' call := ⟨h.1, hr.latest hother h.2⟩

theorem since {call : Call} {before : List (ℕ × Event E)} (h : Since s.trace other call before) :
    Since s'.trace other call before := by
  obtain ⟨more, htrace, hmore⟩ := hr.trace
  obtain ⟨during, heq, hduring⟩ := h
  refine ⟨during ++ more, by rw [htrace, heq, append_assoc, cons_append], ?_⟩
  intro x hx hxid
  rcases mem_append.1 hx with hx | hx
  · exact hduring x hx hxid
  · exact absurd (hxid.symm.trans (hmore x hx)) hother

theorem out (h : Out holder other s) : Out holder' other s' :=
  ⟨hr.outside other hother h.1, (hr.locks_eq hother).trans h.2⟩

theorem own {owner depth count : ℕ} (h : Own holder other s owner depth count) :
    Own holder' other s' owner depth count := by
  obtain ⟨hholder, howner, hdepth⟩ := hr.inside other hother h.holder
  exact ⟨hholder, howner.trans h.owner, hdepth.trans h.depth, (hr.locks_eq hother).trans h.count⟩

theorem within (h : Inside kind holder other s) : Inside kind holder' other s' := by
  obtain ⟨n, hown, hn⟩ := h
  exact ⟨n, hr.own hother hown, hn⟩

theorem either (h : Either kind holder other s) : Either kind holder' other s' :=
  h.imp (hr.out hother) (hr.within hother)

theorem slow (h : Slow kind holder other s) : Slow kind holder' other s' :=
  h.imp (hr.out hother) fun h => ⟨hr.within hother h.1, h.2⟩

theorem place {place : Place E} (h : At kind holder other s place) : At kind holder' other s' place := by
  cases place with
  | idle => exact hr.either hother h
  | validate call => exact ⟨hr.either hother h.1, hr.latest hother h.2⟩
  | ownerLoad call => exact ⟨hr.either hother h.1, hr.ongoing hother h.2⟩
  | relockDepth call => exact ⟨hr.within hother h.1, h.2.1, h.2.2.1, hr.ongoing hother h.2.2.2⟩
  | relockStore call depth => exact ⟨⟨hr.own hother h.1.1, h.1.2⟩, h.2.1, h.2.2.1, hr.ongoing hother h.2.2.2⟩
  | exchange call =>
    exact ⟨h.1.imp (hr.out hother) fun h => ⟨⟨hr.within hother h.1.1, h.1.2⟩, h.2⟩, h.2.1, hr.ongoing hother h.2.2⟩
  | acquiredDepth call slow | acquiredOwner call slow =>
    exact ⟨hr.own hother h.1, h.2.1, h.2.2.1, hr.ongoing hother h.2.2.2⟩
  | register | swap | wait | waiting | failed _ _ | handOver _ => exact ⟨hr.slow hother h.1, hr.ongoing hother h.2⟩
  | leave result =>
    cases result with
    | ok => exact ⟨hr.own hother h.1, hr.ongoing hother h.2⟩
    | err e => exact h
    | failed e => exact ⟨hr.slow hother h.1, hr.ongoing hother h.2⟩
  | unlockDepth => exact ⟨hr.within hother h.1, hr.ongoing hother h.2⟩
  | unlockStore depth => exact ⟨⟨hr.own hother h.1.1, h.1.2⟩, hr.ongoing hother h.2⟩
  | clearDepth | clearOwner | release => exact ⟨hr.own hother h.1, hr.ongoing hother h.2⟩
  | wake =>
    obtain ⟨hout, hvalid, before, hsince, hlocks⟩ := h
    exact ⟨hr.out hother hout, hvalid, before, hr.since hother hsince, hlocks⟩

end Respects

theorem Respects.others (hr : Respects holder s id s' holder') (other : ℕ) (place : Place E) (hother : other ≠ id)
    (h : At kind holder other s place) : At kind holder' other s' place := hr.place hother h

end Others

/-! ### Steps -/

section Steps

variable {kind : ℤ} {holder holder' : Option ℕ} {id held depth : ℕ} {s s' : Shared E} {around : Surroundings E}
  {place : Place E} {call : Call} {result : Result E} {event : Event E}

abbrev Moves (kind : ℤ) (holder : Option ℕ) (id : ℕ) (s : Shared E) (next : Shared E × Place E)
    (holder' : Option ℕ) : Prop :=
  Keeps (Consistent kind) (At kind) holder id s next holder'

theorem keeps (hr : Respects holder s id s' holder') (hc : Consistent kind holder' s')
    (hat : At kind holder' id s' place) : Moves kind holder id s (s', place) holder' :=
  ⟨hc, hat, hr.others⟩

section

variable {more : List (ℕ × Event E)} (htrace : s'.trace = s.trace ++ more)
  (hmore : ∀ x ∈ more, x.1 = id)
include htrace hmore

theorem Respects.same
    (howner : s'.mutex.owner = s.mutex.owner) (hdepth : s'.mutex.depth = s.mutex.depth) :
    Respects holder s id s' holder :=
  ⟨⟨more, htrace, hmore⟩, fun _ _ h => ⟨h, howner, hdepth⟩, fun _ _ h => h⟩

theorem Respects.mine
    (hbefore : holder = some id ∨ holder = none) (hafter : holder' = some id ∨ holder' = none) :
    Respects holder s id s' holder' := by
  have hforeign : ∀ {h : Option ℕ}, h = some id ∨ h = none → ∀ other, other ≠ id → h ≠ some other := by
    rintro h (rfl | rfl) other hother heq
    · exact hother (Option.some.inj heq).symm
    · cases heq
  exact ⟨⟨more, htrace, hmore⟩, fun other hother h => absurd h (hforeign hbefore other hother),
    fun other hother _ => hforeign hafter other hother⟩

end

theorem Own.not_none {owner depth count : ℕ} (h : Own holder id s owner depth count) : holder ≠ none := by
  rw [h.holder]
  nofun

theorem mem_one {x e : ℕ × Event E} (h : x ∈ [e]) : x.1 = e.1 := by rw [List.mem_singleton.1 h]

theorem keeps_move (h : Consistent kind holder s) (hat : At kind holder id s place) :
    Moves kind holder id s (s, place) holder :=
  keeps (.same (append_nil _).symm nofun rfl rfl) h hat

theorem sound_return (hlatest : Latest s.trace id (.started call))
    (hlegal : Legal kind id call (locks s.trace id) result) : Sound kind s.trace (id, .returned call result) := by
  obtain ⟨before, during, heq, hduring, hlocks⟩ := locks_latest hlatest
  exact ⟨before, ⟨during, heq, fun x hx hid => absurd hid (hduring x hx)⟩, hlocks ▸ hlegal⟩

theorem Consistent.log (h : Consistent kind holder s) (hsound : Sound kind s.trace (id, event)) :
    Consistent kind holder (s.log id event) :=
  ⟨h.kind_eq, h.initialized, h.free, h.owner, h.clear, h.sound.snoc hsound⟩

theorem Either.log (hat : Either kind holder id s) (hcount : event.count (locks s.trace id) = locks s.trace id) :
    Either kind holder id (s.log id event) := by
  have hlocks : locks (s.log id event).trace id = locks s.trace id := by rw [Shared.log, locks_self, hcount]
  rcases hat with hout | ⟨n, hown, hn⟩
  · exact .inl ⟨hout.1, hlocks.trans hout.2⟩
  · exact .inr ⟨n, ⟨hown.holder, hown.owner, hown.depth, hlocks.trans hown.count⟩, hn⟩

theorem keeps_return (h : Consistent kind holder s) (hat : Either kind holder id s)
    (hlatest : Latest s.trace id (.started call)) (hlegal : Legal kind id call (locks s.trace id) result)
    (hcount : Event.count (.returned call result) (locks s.trace id) = locks s.trace id) :
    Moves kind holder id s (ret id s call result) holder :=
  keeps (.same rfl (fun _ => mem_one) rfl rfl) (h.log (sound_return hlatest hlegal)) (hat.log hcount)

theorem Ongoing.legal (h : Ongoing kind id s call) (hanswers : Answers kind held result call) :
    Legal kind id call held result := by
  rwa [Legal, if_neg (not_or.2 ⟨h.1.1, not_not.2 h.1.2⟩)]

section

variable (hat : Either kind holder id s)
include hat

theorem Either.owner_iff (h : Consistent kind holder s) (hid : id ≠ 0) :
    (s.mutex.owner = id ↔ 0 < locks s.trace id) := by
  rcases hat with hout | ⟨n, hown, hn, _⟩
  · constructor
    · intro howner
      exact absurd (howner ▸ h.owner (howner.symm ▸ hid)) hout.1
    · intro hlocks
      exact absurd hout.2 hlocks.ne'
  · exact ⟨fun _ => hown.count.symm ▸ hn, fun _ => hown.owner⟩

theorem Either.inside (hlocks : 0 < locks s.trace id) : Inside kind holder id s :=
  hat.resolve_left fun hout => hlocks.ne' hout.2

theorem Either.out (hlocks : ¬ 0 < locks s.trace id) : Out holder id s := by
  rcases hat with hout | ⟨n, hown, hn, _⟩
  · exact hout
  · exact absurd (hown.count.symm ▸ hn) hlocks

end

theorem Slow.either (h : Slow kind holder id s) : Either kind holder id s := h.imp_right And.left

/-! ### Loads of the owner -/

section

variable (h : Consistent kind holder s) (hat : Either kind holder id s)
  (hon : Ongoing kind id s call)
include h hat hon

theorem keeps_relock (hlocking : call.Locking) : Moves kind holder id s (relock id s call) holder := by
  have hiff := hat.owner_iff h hon.1.1
  rw [relock, h.kind_eq]
  split
  next howner => exact keeps_move h ⟨.inl (hat.out (mt hiff.2 howner)), hlocking, hon⟩
  next howner =>
    have hlocks := hiff.1 (not_not.1 howner)
    split
    next hkind => exact keeps_move h ⟨hat.inside hlocks, hkind, hlocking, hon⟩
    next hkind =>
      split
      next htry =>
        subst htry
        refine keeps_return h hat hon.2 (hon.legal ?_) rfl
        rw [Answers, if_neg hlocks.ne', if_neg hkind]
      next htry =>
        obtain rfl := hlocking.resolve_right htry
        split
        next herror =>
          refine keeps_return h hat hon.2 (hon.legal ?_) rfl
          rw [Answers, if_neg hlocks.ne', if_neg hkind, if_pos herror]
        next herror => exact keeps_move h ⟨.inr ⟨⟨hat.inside hlocks, hkind, herror⟩, rfl⟩, hlocking, hon⟩

theorem keeps_ownerLoaded : Moves kind holder id s (ownerLoaded id s call) holder := by
  have hiff := hat.owner_iff h hon.1.1
  cases call with
  | checkOwner =>
    refine keeps_return h hat hon.2 (hon.legal ?_) rfl
    by_cases howner : s.mutex.owner = id
    · rw [if_pos howner, Answers, if_neg (hiff.1 howner).ne']
    · rw [if_neg howner, Answers, if_pos (Nat.eq_zero_of_not_pos (mt hiff.2 howner))]
  | unlock =>
    rw [ownerLoaded]
    split
    next howner =>
      refine keeps_return h hat hon.2 (hon.legal ?_) rfl
      rw [Answers, if_pos (Nat.eq_zero_of_not_pos (mt hiff.2 howner))]
    next howner => exact keeps_move h ⟨hat.inside (hiff.1 (not_not.1 howner)), hon⟩
  | tryLock => exact keeps_relock h hat hon (.inr rfl)
  | lock => exact keeps_relock h hat hon (.inl rfl)

end

/-! ### Recursion -/

theorem Own.inside {n : ℕ} (h : Own holder id s id n n) (hpos : 0 < n) (hlt : n < 2 ^ 32)
    (hone : kind ≠ recursive → n = 1) : Inside kind holder id s := ⟨n, h, hpos, hlt, hone⟩

theorem count_err (call : Call) (e : Error) (n : ℕ) : Event.count (.returned call (.err e) : Event E) n = n := by
  cases call <;> rfl

theorem count_ok (h : call.Locking) (n : ℕ) : Event.count (.returned call .ok : Event E) n = n + 1 := by
  rcases h with rfl | rfl <;> rfl

theorem answers_relocked (hlocking : call.Locking) (hheld : 0 < held) :
    Answers recursive held (relocked held : Result E) call := by
  rcases hlocking with rfl | rfl <;> rw [Answers, if_neg hheld.ne', if_pos rfl]

theorem answers_taken (hlocking : call.Locking) : Answers kind 0 (.ok : Result E) call := by
  rcases hlocking with rfl | rfl <;> exact .inl rfl

theorem keeps_relockDepth (h : Consistent recursive holder s) (hat : Inside recursive holder id s)
    (hlocking : call.Locking) (hon : Ongoing recursive id s call) :
    Moves recursive holder id s (access id around s (.relockDepth call)) holder := by
  obtain ⟨n, hown, hpos, hlt, hone⟩ := hat
  rw [access]
  split
  next hroom =>
    rw [hown.depth] at hroom ⊢
    exact keeps_move h ⟨⟨hown, hpos, hroom⟩, rfl, hlocking, hon⟩
  next hfull =>
    refine keeps_return h (.inr (hown.inside hpos hlt hone)) hon.2 (hon.legal ?_) (count_err _ _ _)
    have hanswer := answers_relocked (E := E) hlocking hpos
    rw [hown.depth] at hfull
    rwa [relocked, if_neg hfull, ← hown.count] at hanswer

theorem keeps_relockStore (h : Consistent recursive holder s) (hown : Own holder id s id depth depth) (hpos : 0 < depth)
    (hroom : depth + 1 < 2 ^ 32) (hlocking : call.Locking) (hon : Ongoing recursive id s call) :
    Moves recursive holder id s (access id around s (.relockStore call depth)) holder := by
  have hanswer := answers_relocked (E := E) hlocking hpos
  rw [relocked, if_pos hroom, ← hown.count] at hanswer
  refine keeps (.mine rfl (fun _ => mem_one) (.inl hown.holder) (.inl hown.holder)) ?_ (.inr ?_)
  · exact ⟨h.kind_eq, h.initialized, h.free, h.owner, fun hnone => absurd hnone hown.not_none,
      h.sound.snoc (sound_return hon.2 (hon.legal hanswer))⟩
  · refine Own.inside ⟨hown.holder, hown.owner, rfl, ?_⟩ (Nat.succ_pos depth) hroom (fun h => absurd rfl h)
    rw [Shared.log, locks_self, count_ok hlocking, hown.count]

/-! ### Taking the mutex -/

theorem Consistent.locks_of_free (h : Consistent kind holder s) (hfree : s.mutex.state = 0)
    (hat : Either kind holder id s) : locks s.trace id = 0 := by
  rcases hat with hout | ⟨n, hown, _⟩
  · exact hout.2
  · exact absurd (h.free.1 hfree) hown.not_none

theorem keeps_take {slow : Bool} {state : ℕ} (h : Consistent kind holder s) (hfree : s.mutex.state = 0) (hstate : state ≠ 0)
    (hlocks : locks s.trace id = 0) (hslow : slow = true → call = .lock) (hlocking : call.Locking)
    (hon : Ongoing kind id s call) :
    Moves kind holder id s ({ s with mutex.state := state }, .acquiredDepth call slow) (some id) := by
  have hnone := h.free.1 hfree
  obtain ⟨howner, hdepth⟩ := h.clear hnone
  refine keeps (.mine (append_nil _).symm nofun (.inr hnone) (.inl rfl)) ?_
    ⟨⟨rfl, howner, hdepth, hlocks⟩, hslow, hlocking, hon⟩
  exact ⟨h.kind_eq, h.initialized, ⟨fun h => absurd h hstate, nofun⟩, fun h => absurd howner h, nofun, h.sound⟩

theorem keeps_exchange (h : Consistent kind holder s)
    (hat : Out holder id s ∨ (Inside kind holder id s ∧ kind ≠ recursive ∧ kind ≠ errorCheck) ∧ call = .lock)
    (hlocking : call.Locking) (hon : Ongoing kind id s call) :
    ∃ holder', Moves kind holder id s (access id around s (.exchange call)) holder' := by
  rw [access]
  split
  next hfree =>
    exact ⟨some id, keeps_take h hfree one_ne_zero (h.locks_of_free hfree (hat.imp_right fun h => h.1.1)) nofun hlocking hon⟩
  next hheld =>
    refine ⟨holder, ?_⟩
    split
    next htry =>
      subst htry
      have hout := hat.resolve_right fun h => nomatch h.2
      refine keeps_return h (.inl hout) hon.2 (hon.legal ?_) rfl
      rw [hout.2]
      exact .inr rfl
    next htry =>
      obtain rfl := hlocking.resolve_right htry
      exact keeps_move h ⟨hat.imp_right And.left, hon⟩

theorem Consistent.words {owner : ℕ} (h : Consistent kind holder s) (hholder : holder = some id)
    (howner : owner ≠ 0 → owner = id) :
    Consistent kind holder ({ s with mutex := { s.mutex with owner := owner, depth := depth } } : Shared E) := by
  refine ⟨h.kind_eq, h.initialized, h.free, fun hne => ?_, fun hnone => ?_, h.sound⟩
  · rw [hholder]
    exact congrArg some (howner hne).symm
  · rw [hholder] at hnone
    cases hnone

theorem keeps_words {owner : ℕ} (h : Consistent kind holder s) (hholder : holder = some id)
    (howner : owner ≠ 0 → owner = id)
    (hat : At kind holder id ({ s with mutex := { s.mutex with owner := owner, depth := depth } } : Shared E) place) :
    Moves kind holder id s ({ s with mutex := { s.mutex with owner := owner, depth := depth } }, place) holder :=
  keeps (.mine (append_nil _).symm nofun (.inl hholder) (.inl hholder)) (h.words hholder howner) hat

theorem keeps_taken (h : Consistent kind holder s) (hown : Own holder id s id 1 0) (hlocking : call.Locking)
    (hon : Ongoing kind id s call) : Moves kind holder id s (ret id s call .ok) holder := by
  have hanswer : Answers kind (locks s.trace id) (.ok : Result E) call := hown.count ▸ answers_taken hlocking
  refine keeps (.same rfl (fun _ => mem_one) rfl rfl) (h.log (sound_return hon.2 (hon.legal hanswer))) (.inr ?_)
  refine Own.inside ⟨hown.holder, hown.owner, hown.depth, ?_⟩ one_pos (by decide) (fun _ => rfl)
  rw [Shared.log, locks_self, count_ok hlocking, hown.count]

/-! ### The slow path -/

/-- The words and the trace that the outline of the slow path reads. -/
structure Alike (s s' : Shared E) : Prop where
  kind : s'.mutex.kind = s.mutex.kind
  initialized : s'.mutex.initialized = s.mutex.initialized
  state : s'.mutex.state = 0 ↔ s.mutex.state = 0
  owner : s'.mutex.owner = s.mutex.owner
  depth : s'.mutex.depth = s.mutex.depth
  trace : s'.trace = s.trace

theorem Alike.consistent (ha : Alike s s') (h : Consistent kind holder s) : Consistent kind holder s' where
  kind_eq := ha.kind.trans h.kind_eq
  initialized := ha.initialized.trans h.initialized
  free := ha.state.trans h.free
  owner := by
    rw [ha.owner]
    exact h.owner
  clear := by
    rw [ha.owner, ha.depth]
    exact h.clear
  sound := ha.trace ▸ h.sound

theorem Alike.out (ha : Alike s s') (h : Out holder id s) : Out holder id s' := ⟨h.1, ha.trace ▸ h.2⟩

theorem Alike.own {owner depth count : ℕ} (ha : Alike s s') (h : Own holder id s owner depth count) :
    Own holder id s' owner depth count :=
  ⟨h.holder, ha.owner.trans h.owner, ha.depth.trans h.depth, ha.trace ▸ h.count⟩

theorem Alike.slow (ha : Alike s s') (h : Slow kind holder id s) : Slow kind holder id s' := by
  refine h.imp ha.out fun h => ⟨?_, h.2⟩
  obtain ⟨n, hown, hn⟩ := h.1
  exact ⟨n, ha.own hown, hn⟩

theorem Alike.ongoing (ha : Alike s s') (h : Ongoing kind id s call) : Ongoing kind id s' call :=
  ⟨h.1, ha.trace ▸ h.2⟩

theorem Alike.respects (ha : Alike s s') : Respects holder s id s' holder :=
  .same (ha.trace.trans (append_nil _).symm) nofun ha.owner ha.depth

theorem keeps_alike (ha : Alike s s') (h : Consistent kind holder s) (hat : At kind holder id s' place) :
    Moves kind holder id s (s', place) holder :=
  keeps ha.respects (ha.consistent h) hat

theorem keeps_swap (h : Consistent kind holder s) (hat : Slow kind holder id s) (hon : Ongoing kind id s .lock) :
    ∃ holder', Moves kind holder id s (access id around s .swap) holder' := by
  rw [access]
  split
  next hfree =>
    exact ⟨some id, keeps_take h hfree two_ne_zero (h.locks_of_free hfree hat.either) (fun _ => rfl) (.inl rfl) hon⟩
  next hheld =>
    have ha : Alike s { s with mutex.state := 2 } := ⟨rfl, rfl, ⟨nofun, fun h => absurd h hheld⟩, rfl, rfl, rfl⟩
    exact ⟨holder, keeps_alike ha h ⟨ha.slow hat, ha.ongoing hon⟩⟩

theorem alike_blocked (blocked : List ℕ) : Alike s { s with blocked := blocked } := ⟨rfl, rfl, Iff.rfl, rfl, rfl, rfl⟩

theorem keeps_native (blocked : List ℕ) (h : Consistent kind holder s) (hat : Slow kind holder id s)
    (hon : Ongoing kind id s .lock)
    (hplace : Slow kind holder id { s with blocked := blocked } ∧ Ongoing kind id { s with blocked := blocked } .lock →
      At kind holder id { s with blocked := blocked } place) :
    Moves kind holder id s ({ s with blocked := blocked }, place) holder :=
  keeps_alike (alike_blocked blocked) h (hplace ⟨(alike_blocked blocked).slow hat, (alike_blocked blocked).ongoing hon⟩)

section

variable (h : Consistent kind holder s) (hat : Slow kind holder id s)
  (hon : Ongoing kind id s .lock)
include h hat hon

theorem keeps_nativeWait : Moves kind holder id s (nativeWait id around s) holder := by
  rw [nativeWait]
  split
  · exact keeps_move h ⟨hat, hon⟩
  · split
    · exact keeps_native _ h hat hon fun h => h
    · exact keeps_move h ⟨hat, hon⟩

theorem keeps_nativeWaiting : Moves kind holder id s (nativeWaiting id around s) holder := by
  rw [nativeWaiting]
  split
  · split
    · exact keeps_move h ⟨hat, hon⟩
    · exact keeps_native _ h hat hon fun h => h
    · exact keeps_native _ h hat hon fun h => h
  · split
    · exact keeps_move h ⟨hat, hon⟩
    · exact keeps_move h ⟨hat, hon⟩

end

theorem answers_failed {e : E} (hat : Slow kind holder id s) :
    Answers kind (locks s.trace id) (.failed e : Result E) .lock := by
  rcases hat with hout | ⟨⟨n, hown, hpos, _⟩, hrecursive, herror⟩
  · rw [hout.2]
    exact .inr ⟨e, rfl⟩
  · rw [hown.count, Answers, if_neg hpos.ne', if_neg hrecursive, if_neg herror]
    exact ⟨e, rfl⟩

theorem alike_waiters (waiters : ℕ) : Alike s { s with mutex.waiters := waiters } := ⟨rfl, rfl, Iff.rfl, rfl, rfl, rfl⟩

theorem keeps_leave (h : Consistent kind holder s) (hat : At kind holder id s (.leave result)) :
    Moves kind holder id s (access id around s (.leave result)) holder := by
  have ha := alike_waiters (s := s) (fetchSub s.mutex.waiters)
  rw [access]
  generalize fetchSub s.mutex.waiters = waiters at ha ⊢
  cases result with
  | err e => exact hat.elim
  | ok =>
    have hown := ha.own hat.1
    have hon := ha.ongoing hat.2
    exact (keeps_taken (ha.consistent h) hown (.inl rfl) hon).after ha.respects.others
  | failed e =>
    have hslow := ha.slow hat.1
    have hon := ha.ongoing hat.2
    exact (keeps_return (ha.consistent h) hslow.either hon.2 (hon.legal (answers_failed hslow)) rfl).after
      ha.respects.others

/-! ### Giving the mutex up -/

theorem since_unlocked (h : Latest s.trace id (.started call)) :
    ∃ before, Since (s.log id .unlocked).trace id call before ∧ locks before id = locks s.trace id := by
  obtain ⟨before, during, heq, hduring, hlocks⟩ := locks_latest h
  refine ⟨before, ⟨during ++ [(id, .unlocked)], ?_, ?_⟩, hlocks⟩
  · rw [Shared.log, heq, append_assoc, cons_append]
  · intro x hx hxid
    rcases mem_append.1 hx with hx | hx
    · exact absurd hxid (hduring x hx)
    · rw [mem_singleton.1 hx]

theorem answers_unlock (h : 0 < held) : Answers kind held (.ok : Result E) .unlock := by
  rw [Answers, if_neg h.ne']

theorem keeps_unlockStore (h : Consistent kind holder s) (hown : Own holder id s id depth depth) (hdepth : 1 < depth)
    (hlt : depth < 2 ^ 32) (hkind : kind = recursive) (hon : Ongoing kind id s .unlock) :
    Moves kind holder id s (access id around s (.unlockStore depth)) holder := by
  obtain ⟨before, hsince, hlocks⟩ := since_unlocked hon.2
  have hsound : Sound kind (s.trace ++ [(id, .unlocked)]) (id, .returned .unlock (.ok : Result E)) :=
    ⟨before, hsince, hon.legal (answers_unlock (by rw [hlocks, hown.count]; omega))⟩
  refine keeps (.mine (append_assoc _ _ _) ?_ (.inl hown.holder) (.inl hown.holder)) ?_ (.inr ?_)
  · intro x hx
    rcases mem_append.1 hx with hx | hx <;> exact mem_one hx
  · refine ⟨h.kind_eq, h.initialized, h.free, h.owner, fun hnone => absurd hnone hown.not_none, ?_⟩
    have hunlocked : Sound kind s.trace (id, (.unlocked : Event E)) := trivial
    exact (h.sound.snoc hunlocked).snoc hsound
  · refine Own.inside ⟨hown.holder, hown.owner, rfl, ?_⟩ (Nat.sub_pos_of_lt hdepth) (lt_of_le_of_lt (Nat.sub_le _ _) hlt)
      (fun h => absurd hkind h)
    show locks ((s.trace ++ [(id, .unlocked)]) ++ [(id, .returned .unlock .ok)]) id = depth - 1
    rw [locks_self, locks_self, hown.count]
    rfl

theorem keeps_released (h : Consistent kind holder s) (hown : Own holder id s 0 0 1) (hon : Ongoing kind id s .unlock) :
    Moves kind holder id s
      (({ s with mutex.state := 0 } : Shared E).log id .unlocked, .wake) none := by
  obtain ⟨before, hsince, hlocks⟩ := since_unlocked hon.2
  refine keeps (.mine rfl (fun _ => mem_one) (.inl hown.holder) (.inr rfl)) ?_ ⟨⟨nofun, ?_⟩, hon.1, before, hsince, ?_⟩
  · exact ⟨h.kind_eq, h.initialized, ⟨fun _ => rfl, fun _ => rfl⟩, fun hne => absurd hown.owner hne,
      fun _ => ⟨hown.owner, hown.depth⟩, h.sound.snoc trivial⟩
  · rw [Shared.log, locks_self, hown.count]
    rfl
  · rw [hlocks, hown.count]
    exact one_pos

theorem keeps_unlocked (h : Consistent kind holder s) (hat : At kind holder id s .wake) :
    Moves kind holder id s (ret id s .unlock .ok) holder := by
  obtain ⟨hout, hvalid, before, hsince, hlocks⟩ := hat
  have hlegal : Legal kind id .unlock (locks before id) (.ok : Result E) := by
    rw [Legal, if_neg (not_or.2 ⟨hvalid.1, not_not.2 hvalid.2⟩)]
    exact answers_unlock hlocks
  refine keeps (.same rfl (fun _ => mem_one) rfl rfl) (h.log ⟨before, hsince, hlegal⟩) (.inl ⟨hout.1, ?_⟩)
  rw [Shared.log, locks_self, hout.2]
  rfl

/-! ### Every access -/

theorem access_keeps (h : Consistent kind holder s) (hat : At kind holder id s place) :
    ∃ holder', Moves kind holder id s (access id around s place) holder' := by
  cases place with
  | idle => exact ⟨holder, keeps_move h hat⟩
  | validate call =>
    refine ⟨holder, ?_⟩
    rw [access, h.kind_eq, h.initialized]
    split
    next hinvalid =>
      refine keeps_return h hat.1 hat.2 ?_ (count_err _ _ _)
      rw [Legal, if_pos (hinvalid.imp_right fun h => h.resolve_left (not_not.2 rfl))]
    next hvalid =>
      obtain ⟨hid, hrest⟩ := not_or.1 hvalid
      exact keeps_move h ⟨hat.1, ⟨hid, not_not.1 (not_or.1 hrest).2⟩, hat.2⟩
  | ownerLoad call => exact ⟨holder, keeps_ownerLoaded h hat.1 hat.2⟩
  | relockDepth call =>
    obtain ⟨hinside, rfl, hlocking, hon⟩ := hat
    exact ⟨holder, keeps_relockDepth h hinside hlocking hon⟩
  | relockStore call depth =>
    obtain ⟨⟨hown, hpos, hroom⟩, rfl, hlocking, hon⟩ := hat
    exact ⟨holder, keeps_relockStore h hown hpos hroom hlocking hon⟩
  | exchange call => exact keeps_exchange h hat.1 hat.2.1 hat.2.2
  | acquiredDepth call slow =>
    obtain ⟨hown, hrest⟩ := hat
    exact ⟨holder, keeps_words h hown.holder (fun hne => absurd hown.owner hne)
      ⟨⟨hown.holder, hown.owner, rfl, hown.count⟩, hrest⟩⟩
  | acquiredOwner call slow =>
    obtain ⟨hown, hslow, hlocking, hon⟩ := hat
    have hr : Respects holder s id ({ s with mutex.owner := id } : Shared E) holder :=
      .mine (append_nil _).symm nofun (.inl hown.holder) (.inl hown.holder)
    have hstored : Own holder id ({ s with mutex.owner := id } : Shared E) id 1 0 :=
      ⟨hown.holder, rfl, hown.depth, hown.count⟩
    have hc : Consistent kind holder ({ s with mutex.owner := id } : Shared E) := h.words hown.holder fun _ => rfl
    refine ⟨holder, ?_⟩
    rw [access]
    split
    next hpath =>
      obtain rfl := hslow hpath
      exact keeps hr hc ⟨hstored, hon⟩
    next => exact (keeps_taken hc hstored hlocking hon).after hr.others
  | register =>
    have ha := alike_waiters (s := s) (fetchAdd s.mutex.waiters)
    exact ⟨holder, keeps_alike ha h ⟨ha.slow hat.1, ha.ongoing hat.2⟩⟩
  | swap => exact keeps_swap h hat.1 hat.2
  | wait => exact ⟨holder, keeps_nativeWait h hat.1 hat.2⟩
  | waiting => exact ⟨holder, keeps_nativeWaiting h hat.1 hat.2⟩
  | failed woken e =>
    refine ⟨holder, ?_⟩
    rw [access]
    split
    · exact keeps_move h hat
    · exact keeps_move h hat
  | handOver e => exact ⟨holder, keeps_native _ h hat.1 hat.2 fun h => h⟩
  | leave result => exact ⟨holder, keeps_leave h hat⟩
  | unlockDepth =>
    obtain ⟨⟨n, hown, hpos, hlt, hone⟩, hon⟩ := hat
    refine ⟨holder, ?_⟩
    rw [access, hown.depth]
    split
    next hdepth =>
      refine keeps_move h ⟨⟨hown, hdepth, hlt, ?_⟩, hon⟩
      by_contra hkind
      exact hdepth.ne' (hone hkind)
    next hdepth =>
      obtain rfl : n = 1 := by omega
      exact keeps_move h ⟨hown, hon⟩
  | unlockStore depth =>
    obtain ⟨⟨hown, hdepth, hlt, hkind⟩, hon⟩ := hat
    exact ⟨holder, keeps_unlockStore h hown hdepth hlt hkind hon⟩
  | clearDepth =>
    refine ⟨holder, keeps_words h hat.1.holder (fun _ => hat.1.owner) ⟨?_, hat.2⟩⟩
    exact ⟨hat.1.holder, hat.1.owner, rfl, hat.1.count⟩
  | clearOwner =>
    refine ⟨holder, keeps_words h hat.1.holder (fun h => absurd rfl h) ⟨?_, hat.2⟩⟩
    exact ⟨hat.1.holder, rfl, hat.1.depth, hat.1.count⟩
  | release =>
    have hreleased := keeps_released h hat.1 hat.2
    refine ⟨none, ?_⟩
    rw [access]
    split
    · exact hreleased
    · exact (keeps_unlocked hreleased.shared hreleased.place).after hreleased.others
  | wake =>
    obtain ⟨hout, hrest⟩ := hat
    have ha := alike_blocked (s := s) (WaitQueue.wake (around.more + 1) around.prefer s.blocked)
    exact ⟨holder, (keeps_unlocked (ha.consistent h) ⟨ha.out hout, hrest⟩).after ha.respects.others⟩

theorem act_keeps (action : Action E) (h : Consistent kind holder s) (hat : At kind holder id s place) :
    ∃ holder', Moves kind holder id s (act id action s place) holder' := by
  cases action with
  | go around => exact access_keeps h hat
  | start call =>
    cases place with
    | idle =>
      exact ⟨holder, keeps (.same rfl (fun _ => mem_one) rfl rfl) (h.log trivial) ⟨Either.log hat rfl, Latest.self _ _ _⟩⟩
    | _ => exact ⟨holder, keeps_move h hat⟩

/-! ## Interleavings -/

theorem At.holder_of_held (hat : At kind holder id s place) (hheld : Held s.trace id) : holder = some id := by
  have hout : ¬ Out holder id s := fun h => hheld.ne' h.2
  have hinside : Inside kind holder id s → holder = some id := fun ⟨_, hown, _⟩ => hown.holder
  have heither : Either kind holder id s → holder = some id := fun h => hinside (h.resolve_left hout)
  cases place with
  | idle => exact heither hat
  | validate call | ownerLoad call => exact heither hat.1
  | relockDepth call | unlockDepth => exact hinside hat.1
  | relockStore call depth | unlockStore depth => exact hat.1.1.holder
  | exchange call => exact hinside (hat.1.resolve_left hout).1.1
  | acquiredDepth call slow | acquiredOwner call slow | clearDepth | clearOwner | release => exact hat.1.holder
  | register | swap | wait | waiting | failed _ _ | handOver _ => exact heither hat.1.either
  | leave result =>
    cases result with
    | ok => exact hat.1.holder
    | err e => exact hat.elim
    | failed e => exact heither hat.1.either
  | wake => exact absurd hat.1 hout

end Steps

theorem run_consistent (kind : ℤ) (schedule : List (ℕ × Action E)) :
    ∃ holder, Holds (Consistent kind) (At kind) holder (Runs.run (step act) (System.start kind) schedule) := by
  refine Runs.run_invariant _ (P := fun c => ∃ holder, Holds (Consistent kind) (At kind) holder c) ?_ ⟨none, ?_⟩ schedule
  · rintro c ⟨id, action⟩ ⟨holder, h⟩
    obtain ⟨holder', hkeeps⟩ := act_keeps action h.shared (h.place id)
    exact ⟨holder', h.step hkeeps⟩
  · exact ⟨⟨rfl, rfl, ⟨fun _ => rfl, fun _ => rfl⟩, fun h => absurd rfl h, fun _ => ⟨rfl, rfl⟩, Always.nil _⟩,
      fun _ => .inl ⟨nofun, rfl⟩⟩

/-! ### What a step writes into the trace -/

section Trace

variable {id other : ℕ} {s s' : Shared E} {around : Surroundings E}

/-- The step logs events of its own thread, and gives up a lock only where `p` holds. -/
def Logs (id : ℕ) (p : Prop) (s s' : Shared E) : Prop :=
  ∃ more, s'.trace = s.trace ++ more ∧ ∀ x ∈ more, x.1 = id ∧ (x.2 = .unlocked → p)

variable {p : Prop}

theorem logs_nothing (h : s'.trace = s.trace) : Logs id p s s' :=
  ⟨[], h.trans (append_nil _).symm, nofun⟩

theorem Logs.log (h : Logs id p s s') {event : Event E} (hp : event = .unlocked → p) : Logs id p s (s'.log id event) := by
  obtain ⟨more, htrace, hmore⟩ := h
  refine ⟨more ++ [(id, event)], by rw [Shared.log, htrace, append_assoc], ?_⟩
  intro x hx
  rcases mem_append.1 hx with hx | hx
  · exact hmore x hx
  · obtain rfl := mem_singleton.1 hx
    exact ⟨rfl, hp⟩

theorem logs_return {call : Call} {result : Result E} (h : s'.trace = s.trace) : Logs id p s (ret id s' call result).1 :=
  (logs_nothing h).log nofun

theorem logs_unlocked (h : s'.trace = s.trace) (hp : p) : Logs id p s (s'.log id .unlocked) :=
  (logs_nothing h).log fun _ => hp

def Place.Unlocks : Place E → Prop
  | .release | .unlockStore _ => True
  | _ => False

theorem access_logs (place : Place E) : Logs id place.Unlocks s (access id around s place).1 := by
  cases place with
  | idle | acquiredDepth _ _ | register | swap | handOver _ | clearDepth | clearOwner => exact logs_nothing rfl
  | validate call | relockDepth call | exchange call | acquiredOwner call slow | failed woken e | unlockDepth =>
    rw [access]
    repeat' split
    all_goals first | exact logs_return rfl | exact logs_nothing rfl
  | ownerLoad call =>
    cases call <;> simp only [access, ownerLoaded, relock]
    all_goals repeat' split
    all_goals first | exact logs_return rfl | exact logs_nothing rfl
  | wait | waiting =>
    simp only [access, nativeWait, nativeWaiting]
    repeat' split
    all_goals exact logs_nothing rfl
  | relockStore call depth | leave result | wake => exact logs_return rfl
  | unlockStore depth => exact (logs_unlocked rfl trivial).log nofun
  | release =>
    rw [access]
    split
    · exact logs_unlocked rfl trivial
    · exact (logs_unlocked rfl trivial).log nofun

theorem act_logs (action : Action E) (place : Place E) : Logs id place.Unlocks s (act id action s place).1 := by
  cases action with
  | go around => exact access_logs place
  | start call =>
    cases place with
    | idle => exact (logs_nothing rfl).log nofun
    | _ => exact logs_nothing rfl

theorem le_count {event : Event E} (h : event ≠ .unlocked) (n : ℕ) : n ≤ event.count n := by
  cases event with
  | unlocked => exact absurd rfl h
  | started call => exact le_rfl
  | returned call result => cases call <;> cases result <;> first | exact le_rfl | exact Nat.le_succ n

theorem locks_le {trace more : List (ℕ × Event E)} (h : ∀ x ∈ more, x.1 = id → x.2 ≠ .unlocked) :
    locks trace id ≤ locks (trace ++ more) id := by
  induction more using reverseRecOn with
  | nil => rw [append_nil]
  | append_singleton more e ih =>
    have hmore := ih fun x hx => h x (mem_append_left _ hx)
    rw [← append_assoc, locks_snoc]
    split
    next hid => exact hmore.trans (le_count (h e (mem_append_right _ mem_cons_self) hid) _)
    next => exact hmore

theorem held_step {kind : ℤ} {holder : Option ℕ} {c : System E} (h : Holds (Consistent kind) (At kind) holder c)
    {a : ℕ × Action E} (hheld : Held c.shared.trace other) (hlost : ¬ Held (step act c a).shared.trace other) :
    a.1 = other ∧ c.thread other = .release ∧ Latest c.shared.trace other (.started .unlock) := by
  obtain ⟨id, action⟩ := a
  obtain ⟨more, htrace, hmore⟩ := @act_logs _ id c.shared action (c.thread id)
  have hplace := h.place other
  rw [step_shared, Held, htrace] at hlost
  by_cases hid : id = other
  · subst hid
    by_cases hunlocks : (c.thread id).Unlocks
    · generalize c.thread id = place at hplace hunlocks hlost htrace
      cases place with
      | release => exact ⟨rfl, rfl, hplace.2.2⟩
      | unlockStore depth =>
        obtain ⟨⟨hown, hdepth, _⟩, _⟩ := hplace
        have hpair : (act id action c.shared (.unlockStore depth)).1.trace = c.shared.trace ∨
            (act id action c.shared (.unlockStore depth)).1.trace =
              (c.shared.trace ++ [(id, .unlocked)]) ++ [(id, .returned .unlock .ok)] := by
          cases action with
          | start call => exact .inl rfl
          | go around => exact .inr rfl
        rw [← htrace] at hlost
        rcases hpair with heq | heq
        · rw [heq] at hlost
          exact absurd hheld hlost
        · rw [heq, locks_self, locks_self, hown.count] at hlost
          exact absurd (Nat.sub_pos_of_lt hdepth) hlost
      | _ => exact hunlocks.elim
    · exact absurd (lt_of_lt_of_le hheld (locks_le fun x hx _ hx' => hunlocks ((hmore x hx).2 hx'))) hlost
  · rw [locks_other fun x hx hx' => hid ((hmore x hx).1.symm.trans hx')] at hlost
    exact absurd hheld hlost

end Trace

/-- The holder's `try_lock`, or its `lock` of a mutex that knows its holder, does not go on to the exchange. -/
theorem relock_next {id : ℕ} {s : Shared E} {call : Call} (howner : s.mutex.owner = id)
    (hcall : call = .tryLock ∨ call = .lock ∧ (s.mutex.kind = recursive ∨ s.mutex.kind = errorCheck)) :
    (ownerLoaded id s call).2 = .relockDepth call ∨ (ownerLoaded id s call).2 = .idle := by
  rcases hcall with rfl | ⟨rfl, hkind⟩ <;> rw [ownerLoaded, relock, if_neg (not_not.2 howner)] <;> split
  · exact .inl rfl
  · exact .inr rfl
  · exact .inl rfl
  next hother =>
    rw [if_neg nofun, if_pos (hkind.resolve_left hother)]
    exact .inr rfl

/-- **Mutual exclusion.** In every interleaving one thread at most holds the mutex, owner and depth are its own between
its calls, every call returns what its thread's locks allow, and only the holder's outermost unlock takes the mutex from
it; a relock that does not wait returns within its next accesses. -/
theorem mutual_exclusion (kind : ℤ) (schedule : List (ℕ × Action E)) :
    let c := Runs.run (step act) (System.start kind) schedule
    let s := c.shared
    (∀ i j, Held s.trace i → Held s.trace j → i = j) ∧
    (∀ i, c.thread i = .idle → Held s.trace i →
      s.mutex.owner = i ∧ s.mutex.depth = locks s.trace i ∧ (kind ≠ recursive → locks s.trace i = 1)) ∧
    (∀ pre i call result post, s.trace = pre ++ (i, .returned call result) :: post →
      ∃ before, Since pre i call before ∧ Legal kind i call (locks before i) result) ∧
    (∀ i around, ¬ Held s.trace i → c.thread i = .validate .unlock ∨ c.thread i = .ownerLoad .unlock →
      (access i around s (c.thread i)).1.mutex = s.mutex ∧
      ((access i around s (c.thread i)).2 = .ownerLoad .unlock ∨ (access i around s (c.thread i)).2 = .idle)) ∧
    (∀ i around call, Held s.trace i → call = .tryLock ∨ call = .lock ∧ (kind = recursive ∨ kind = errorCheck) →
      let next := (access i around s (c.thread i)).2
      (c.thread i = .validate call → next = .ownerLoad call ∨ next = .idle) ∧
      (c.thread i = .ownerLoad call → next = .relockDepth call ∨ next = .idle) ∧
      (c.thread i = .relockDepth call → next = .relockStore call s.mutex.depth ∨ next = .idle) ∧
      ∀ depth, c.thread i = .relockStore call depth → next = .idle) ∧
    (∀ i a, Held s.trace i → ¬ Held (step act c a).shared.trace i →
      a.1 = i ∧ c.thread i = .release ∧ Latest s.trace i (.started .unlock)) ∧
    (∀ i around e, c.thread i = .leave (.failed e) →
      (access i around s (c.thread i)).1.mutex.owner = i → Held s.trace i) := by
  obtain ⟨holder, h⟩ := run_consistent kind schedule
  refine ⟨?_, ?_, ?_, ?_, ?_, ?_, ?_⟩
  · intro i j hi hj
    have hsame := ((h.place i).holder_of_held hi).symm.trans ((h.place j).holder_of_held hj)
    exact Option.some.inj hsame
  · intro i hidle hheld
    have hplace := h.place i
    rw [hidle] at hplace
    obtain ⟨n, hown, _, _, hone⟩ := Either.inside hplace hheld
    exact ⟨hown.owner, hown.depth.trans hown.count.symm, fun hkind => hown.count.trans (hone hkind)⟩
  · intro pre i call result post htrace
    exact h.shared.sound pre _ post htrace
  · rintro i around hheld (hplace | hplace)
    · rw [hplace, access]
      split
      · exact ⟨rfl, .inr rfl⟩
      · exact ⟨rfl, .inl rfl⟩
    · have hat := h.place i
      rw [hplace] at hat
      have howner := mt (hat.1.owner_iff h.shared hat.2.1.1).1 hheld
      rw [hplace, access, ownerLoaded, if_pos howner]
      exact ⟨rfl, .inr rfl⟩
  · intro i around call hheld hcall
    refine ⟨fun hplace => ?_, fun hplace => ?_, fun hplace => ?_, fun depth hplace => by rw [hplace]; rfl⟩
    · rw [hplace, access]
      split
      · exact .inr rfl
      · exact .inl rfl
    · have hat := h.place i
      rw [hplace] at hat
      have howner := (hat.1.owner_iff h.shared hat.2.1.1).2 hheld
      rw [hplace, access]
      refine relock_next howner ?_
      rwa [h.shared.kind_eq]
    · rw [hplace, access]
      split
      · exact .inl rfl
      · exact .inr rfl
  · intro i a hheld hlost
    exact held_step h hheld hlost
  · intro i around e hplace howner
    have hat := h.place i
    rw [hplace] at hat
    rw [hplace, access, ret, Shared.log] at howner
    exact (hat.1.either.owner_iff h.shared hat.2.1.1).1 howner

/-! ## Two corners -/

namespace MutexFixture

/-- A lock of a free mutex, and a lock of a recursive mutex by its holder. -/
def locking : List (Action Unit) := .start .lock :: List.replicate 5 (.go quiet)

def relocking : List (Action Unit) := .start .lock :: List.replicate 4 (.go quiet)

def timingOut : List (Action Unit) := locking ++ locking ++ List.replicate 3 (.go timedOut)

/-- The thread `1` holds a recursive mutex; its depth is `n`. -/
structure Deep (n : ℕ) (c : System Unit) : Prop where
  mutex : c.shared.mutex = ⟨1, recursive, 1, n, 1, 0⟩
  idle : c.thread 1 = .idle

theorem relocking_eq (n : ℕ) (blocked : List ℕ) (trace : List (ℕ × Event Unit)) :
    let s : Shared Unit := ⟨⟨1, recursive, 1, n, 1, 0⟩, blocked, trace ++ [(1, .started .lock)]⟩
    relocking.foldl (fun r a => act 1 a r.1 r.2) (⟨⟨1, recursive, 1, n, 1, 0⟩, blocked, trace⟩, .idle) =
      act 1 (.go quiet) (access 1 quiet s (.relockDepth .lock)).1 (access 1 quiet s (.relockDepth .lock)).2 := rfl

theorem deep_relock {n : ℕ} {c : System Unit} (h : Deep n c) (hroom : n + 1 < 2 ^ 32) :
    Deep (n + 1) (Runs.run (step act) c (relocking.map (1, ·))) := by
  obtain ⟨⟨mutex, blocked, trace⟩, thread⟩ := c
  obtain ⟨rfl, hidle⟩ := h
  have hsolo := run_solo act ⟨⟨⟨1, recursive, 1, n, 1, 0⟩, blocked, trace⟩, thread⟩ 1 relocking
  have hdepth : access 1 quiet ⟨⟨1, recursive, 1, n, 1, 0⟩, blocked, trace ++ [(1, .started .lock)]⟩ (.relockDepth .lock) =
      (⟨⟨1, recursive, 1, n, 1, 0⟩, blocked, trace ++ [(1, .started .lock)]⟩, .relockStore .lock n) := by
    rw [access, if_pos hroom]
  dsimp only at hsolo hidle
  rw [hidle, relocking_eq, hdepth] at hsolo
  exact ⟨congrArg (fun r => r.1.mutex) hsolo, congrArg Prod.snd hsolo⟩

theorem deep_reached (n : ℕ) (hn : n + 1 < 2 ^ 32) :
    ∃ schedule, Deep (n + 1) (Runs.run (step act) (System.start recursive) schedule) := by
  induction n with
  | zero =>
    have hsolo := run_solo act (System.start recursive) 1 locking
    exact ⟨_, congrArg (fun r => r.1.mutex) hsolo, congrArg Prod.snd hsolo⟩
  | succ n ih =>
    obtain ⟨schedule, hdeep⟩ := ih (by omega)
    refine ⟨schedule ++ relocking.map (1, ·), ?_⟩
    rw [Runs.run_append]
    exact deep_relock hdeep hn

theorem deep_full {c : System Unit} (h : Deep (2 ^ 32 - 1) c) :
    (Runs.run (step act) c (relocking.map (1, ·))).shared.trace =
      (c.shared.trace ++ [(1, .started .lock)]) ++ [(1, .returned .lock (.err .recursionLimit))] := by
  obtain ⟨⟨mutex, blocked, trace⟩, thread⟩ := c
  obtain ⟨rfl, hidle⟩ := h
  have hsolo := run_solo act ⟨⟨⟨1, recursive, 1, 2 ^ 32 - 1, 1, 0⟩, blocked, trace⟩, thread⟩ 1 relocking
  have hfull : ¬ 2 ^ 32 - 1 + 1 < 2 ^ 32 := by decide
  have hdepth : access 1 quiet ⟨⟨1, recursive, 1, 2 ^ 32 - 1, 1, 0⟩, blocked, trace ++ [(1, .started .lock)]⟩
      (.relockDepth .lock) =
      ret 1 ⟨⟨1, recursive, 1, 2 ^ 32 - 1, 1, 0⟩, blocked, trace ++ [(1, .started .lock)]⟩ .lock
        (.err .recursionLimit) := by
    rw [access, if_neg hfull]
  dsimp only at hsolo hidle
  rw [hidle, relocking_eq, hdepth] at hsolo
  exact congrArg (fun r => r.1.trace) hsolo

/-- After a second lock that times out the holder of a normal mutex is still the owner; a recursive mutex locked `2 ^ 32
- 1` times cannot be locked again. -/
theorem relock_corners : (∃ schedule : List (ℕ × Action Unit),
      let s := (Runs.run (step act) (System.start normal) schedule).shared
      s.trace.getLast? = some (1, .returned .lock (.failed ())) ∧ s.mutex.owner = 1) ∧
    (∃ schedule : List (ℕ × Action Unit), let c := Runs.run (step act) (System.start recursive) schedule
      c.shared.mutex.owner = 1 ∧ c.thread 1 = .idle ∧ ∃ pre,
        (Runs.run (step act) c (relocking.map (1, ·))).shared.trace =
          pre ++ [(1, .returned .lock (.err .recursionLimit))]) := by
  constructor
  · exact ⟨timingOut.map (1, ·), by decide⟩
  · obtain ⟨schedule, hdeep⟩ := deep_reached (2 ^ 32 - 2) (by decide)
    exact ⟨schedule, congrArg Mutex.owner hdeep.mutex, hdeep.idle, _, deep_full hdeep⟩

end MutexFixture

end MochiSyscalls.PosixClient.PthreadMutex
