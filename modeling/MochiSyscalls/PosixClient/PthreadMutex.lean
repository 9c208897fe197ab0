import MochiSyscalls.Foundations.Interleaving
import MochiSyscalls.Foundations.WaitQueue

/-! # Mutexes

The word `state` is zero while the mutex is free, one while it is held and two while somebody may sleep on it; owner
and depth are words of their own. Every atomic access is a step, in any interleaving of the calls of any number of
threads. What the native wait and wake do is not the mutex's choice: `Surroundings` answers for them. -/

namespace MochiSyscalls.PosixClient.PthreadMutex
open Foundations Interleaving List
set_option autoImplicit false

/-! ## The mutex -/

def normal : ℤ := 0
def recursive : ℤ := 1
def errorCheck : ℤ := 2
def defaultKind : ℤ := 3

inductive Error where
  | invalid
  | busy
  | deadlock
  | notOwner
  | recursionLimit
  deriving DecidableEq, Repr

structure Mutex where
  state : ℕ
  kind : ℤ
  owner : ℕ
  depth : ℕ
  initialized : ℕ
  waiters : ℕ
  deriving DecidableEq, Repr

variable (kind : ℤ)

def Mutex.new : Mutex := ⟨0, kind, 0, 0, 1, 0⟩

def Known : Prop := normal ≤ kind ∧ kind ≤ defaultKind
  deriving Decidable

/-- `fetch_add` and `fetch_sub` of a 32-bit word by one. -/
def fetchAdd (word : ℕ) : ℕ := if word + 1 = 2 ^ 32 then 0 else word + 1
def fetchSub (word : ℕ) : ℕ := if word = 0 then 2 ^ 32 - 1 else word - 1

/-! ## Calls -/

inductive Call where
  | tryLock
  | lock
  | unlock
  | checkOwner
  deriving DecidableEq, Repr

/-- How a call returns: `failed` is a lock whose wait has failed. -/
inductive Result (E : Type) where
  | ok
  | err (e : Error)
  | failed (e : E)
  deriving DecidableEq, Repr

/-- `unlocked` is the store that gives up one lock: of the depth, or of the state by the outermost unlock. -/
inductive Event (E : Type) where
  | started (call : Call)
  | unlocked
  | returned (call : Call) (result : Result E)
  deriving DecidableEq, Repr

/-- The next access of a call. In `waiting` the thread is in the native wait. -/
inductive Place (E : Type) where
  | idle
  | validate (call : Call)
  | ownerLoad (call : Call)
  | relockDepth (call : Call)
  | relockStore (call : Call) (depth : ℕ)
  | exchange (call : Call)
  | acquiredDepth (call : Call) (slow : Bool)
  | acquiredOwner (call : Call) (slow : Bool)
  | register
  | swap
  | wait
  | waiting
  | failed (woken : Bool) (e : E)
  | handOver (e : E)
  | leave (result : Result E)
  | unlockDepth
  | unlockStore (depth : ℕ)
  | clearDepth
  | clearOwner
  | release
  | wake
  deriving DecidableEq, Repr

structure Shared (E : Type) where
  mutex : Mutex
  blocked : List ℕ
  trace : List (ℕ × Event E)

/-- What the native wait answers, and whom the native wake takes: at least one thread, if one is blocked. -/
structure Surroundings (E : Type) where
  answer : Option (Except E Unit)
  more : ℕ
  prefer : List ℕ

def quiet : Surroundings Unit := ⟨none, 0, []⟩

def timedOut : Surroundings Unit := ⟨some (.error ()), 0, []⟩

variable {E : Type}

namespace Shared

variable (s : Shared E)

def log (id : ℕ) (event : Event E) : Shared E := { s with trace := s.trace ++ [(id, event)] }

def wake (around : Surroundings E) : Shared E :=
  { s with blocked := WaitQueue.wake (around.more + 1) around.prefer s.blocked }

def unblock (id : ℕ) : Shared E := { s with blocked := s.blocked.filter (· ≠ id) }

end Shared

def ret (id : ℕ) (s : Shared E) (call : Call) (result : Result E) : Shared E × Place E :=
  (s.log id (.returned call result), .idle)

/-- The native wait: it blocks if the state still is two, and it may fail before that. -/
def nativeWait (id : ℕ) (around : Surroundings E) (s : Shared E) : Shared E × Place E :=
  match around.answer with
  | some (.error e) => (s, .failed false e)
  | _ => if s.mutex.state = 2 then ({ s with blocked := s.blocked ++ [id] }, .waiting) else (s, .swap)

/-- A blocked thread returns when it pleases the kernel; a thread that was woken returns, and its wait may still have
failed. -/
def nativeWaiting (id : ℕ) (around : Surroundings E) (s : Shared E) : Shared E × Place E :=
  if id ∈ s.blocked then
    match around.answer with
    | none => (s, .waiting)
    | some (.ok ()) => (s.unblock id, .swap)
    | some (.error e) => (s.unblock id, .failed false e)
  else
    match around.answer with
    | some (.error e) => (s, .failed true e)
    | _ => (s, .swap)

/-- `relock` up to its second load; normal and default mutexes use normal locking. -/
def relock (id : ℕ) (s : Shared E) (call : Call) : Shared E × Place E :=
  if s.mutex.owner ≠ id then (s, .exchange call)
  else if s.mutex.kind = recursive then (s, .relockDepth call)
  else if call = .tryLock then ret id s call (.err .busy)
  else if s.mutex.kind = errorCheck then ret id s call (.err .deadlock)
  else (s, .exchange call)

def ownerLoaded (id : ℕ) (s : Shared E) (call : Call) : Shared E × Place E :=
  match call with
  | .checkOwner => ret id s call (if s.mutex.owner = id then .ok else .err .notOwner)
  | .unlock => if s.mutex.owner ≠ id then ret id s call (.err .notOwner) else (s, .unlockDepth)
  | .tryLock | .lock => relock id s call

def access (id : ℕ) (around : Surroundings E) (s : Shared E) : Place E → Shared E × Place E
  | .idle => (s, .idle)
  | .validate call =>
    if id = 0 ∨ s.mutex.initialized ≠ 1 ∨ ¬ Known s.mutex.kind then ret id s call (.err .invalid)
    else (s, .ownerLoad call)
  | .ownerLoad call => ownerLoaded id s call
  | .relockDepth call =>
    if s.mutex.depth + 1 < 2 ^ 32 then (s, .relockStore call s.mutex.depth) else ret id s call (.err .recursionLimit)
  | .relockStore call depth => ret id { s with mutex.depth := depth + 1 } call .ok
  | .exchange call =>
    if s.mutex.state = 0 then ({ s with mutex.state := 1 }, .acquiredDepth call false)
    else if call = .tryLock then ret id s call (.err .busy)
    else (s, .register)
  | .acquiredDepth call slow => ({ s with mutex.depth := 1 }, .acquiredOwner call slow)
  | .acquiredOwner call slow =>
    if slow then ({ s with mutex.owner := id }, .leave .ok) else ret id { s with mutex.owner := id } call .ok
  | .register => ({ s with mutex.waiters := fetchAdd s.mutex.waiters }, .swap)
  | .swap => ({ s with mutex.state := 2 }, if s.mutex.state = 0 then .acquiredDepth .lock true else .wait)
  | .wait => nativeWait id around s
  | .waiting => nativeWaiting id around s
  | .failed _ e => if s.mutex.state = 0 then (s, .handOver e) else (s, .leave (.failed e))
  | .handOver e => (s.wake around, .leave (.failed e))
  | .leave result => ret id { s with mutex.waiters := fetchSub s.mutex.waiters } .lock result
  | .unlockDepth => if 1 < s.mutex.depth then (s, .unlockStore s.mutex.depth) else (s, .clearDepth)
  | .unlockStore depth => ret id (({ s with mutex.depth := depth - 1 } : Shared E).log id .unlocked) .unlock .ok
  | .clearDepth => ({ s with mutex.depth := 0 }, .clearOwner)
  | .clearOwner => ({ s with mutex.owner := 0 }, .release)
  | .release =>
    if s.mutex.state = 2 then (({ s with mutex.state := 0 } : Shared E).log id .unlocked, .wake)
    else ret id (({ s with mutex.state := 0 } : Shared E).log id .unlocked) .unlock .ok
  | .wake => ret id (s.wake around) .unlock .ok

/-- A thread that is in no call starts one; a thread in a call makes its next access. -/
inductive Action (E : Type) where
  | start (call : Call)
  | go (around : Surroundings E)

def act (id : ℕ) (action : Action E) (s : Shared E) (place : Place E) : Shared E × Place E :=
  match action, place with
  | .start call, .idle => (s.log id (.started call), .validate call)
  | .start _, place => (s, place)
  | .go around, place => access id around s place

abbrev System (E : Type) := Config (Shared E) (Place E)

def System.start (kind : ℤ) : System E := ⟨⟨Mutex.new kind, [], []⟩, fun _ => .idle⟩

/-! ## Who holds the mutex -/

/-- What an event does to the number of locks of its thread. -/
def Event.count : Event E → ℕ → ℕ
  | .returned .lock .ok, n | .returned .tryLock .ok, n => n + 1
  | .unlocked, n => n - 1
  | _, n => n

variable (trace : List (ℕ × Event E))

/-- The successful locks of a thread that no unlock has given up. -/
def locks (id : ℕ) : ℕ :=
  trace.foldl (fun n e => if e.1 = id then e.2.count n else n) 0

/-- From the return of its lock to the final store of its outermost unlock. -/
def Held (id : ℕ) : Prop := 0 < locks trace id

theorem locks_snoc (e : ℕ × Event E) (id : ℕ) :
    locks (trace ++ [e]) id = if e.1 = id then e.2.count (locks trace id) else locks trace id := by
  rw [locks, foldl_append]
  rfl

theorem locks_self (id : ℕ) (event : Event E) : locks (trace ++ [(id, event)]) id = event.count (locks trace id) := by
  rw [locks_snoc, if_pos rfl]

theorem locks_other {trace more : List (ℕ × Event E)} {id : ℕ} (h : ∀ x ∈ more, x.1 ≠ id) :
    locks (trace ++ more) id = locks trace id := by
  induction more using reverseRecOn with
  | nil => rw [append_nil]
  | append_singleton more e ih =>
    rw [← append_assoc, locks_snoc, if_neg (h e (mem_append_right _ mem_cons_self))]
    exact ih fun x hx => h x (mem_append_left _ hx)

theorem locks_latest {trace : List (ℕ × Event E)} {id : ℕ} {call : Call} (h : Latest trace id (.started call)) :
    ∃ before during, trace = before ++ (id, .started call) :: during ∧ (∀ x ∈ during, x.1 ≠ id) ∧
      locks before id = locks trace id := by
  obtain ⟨before, during, rfl, hduring⟩ := h
  refine ⟨before, during, rfl, hduring, ?_⟩
  rw [append_cons, locks_other hduring, locks_self]
  rfl

end MochiSyscalls.PosixClient.PthreadMutex
