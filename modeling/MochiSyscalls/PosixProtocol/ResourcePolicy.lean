import MochiSyscalls.Foundations.Interleaving

/-! # The resource policy page

Limits are pairs of words in shared memory. A publisher claims the page by making the generation odd, stores the two
words of one limit and makes the generation even again; a reader takes two loads of the generation around the words
and gives up when they differ. Every atomic access is a step of its own, in any interleaving of readers and
publishers. -/

namespace MochiSyscalls.PosixProtocol.Policy
open Foundations Interleaving List Function
set_option autoImplicit false

/-! ## The page -/

def rlimitCount : ℕ := 10

structure ResourceLimit where
  soft : ℕ
  hard : ℕ
  deriving DecidableEq, Repr

inductive Error where
  | invalidLayout
  | invalidResource
  | invalidLimit
  | busy
  | exhausted
  | unsupportedTarget
  deriving DecidableEq, Repr

/-- `u64::from_le_bytes(*b"POSXRLM\0")`. -/
def magicWord : ℕ := 0x004d4c5258534f50

/-- `VERSION << 32 | RLIMIT_COUNT`. -/
def formatWord : ℕ := 1 * 2 ^ 32 + rlimitCount

structure ResourcePolicy where
  magic : ℕ
  format : ℕ
  generation : ℕ
  limits : Fin rlimitCount → ResourceLimit

def ResourcePolicy.new (limits : Fin rlimitCount → ResourceLimit) : Except Error ResourcePolicy :=
  if ∃ index, (limits index).hard < (limits index).soft then .error .invalidLimit
  else .ok ⟨magicWord, formatWord, 0, limits⟩

/-! ## Calls -/

inductive Call where
  | read (resource : ℕ)
  | publish (resource : ℕ) (value : ResourceLimit)
  deriving DecidableEq

/-- The stores of a publication: it claims the generation, stores the words and publishes the limit. -/
inductive Store where
  | claim
  | soft (index : Fin rlimitCount) (value : ℕ)
  | hard (index : Fin rlimitCount) (value : ℕ)
  | generation (index : Fin rlimitCount) (value : ResourceLimit)
  deriving DecidableEq

inductive Event where
  | started (call : Call)
  | stored (store : Store)
  | readReturned (resource : ℕ) (result : Except Error ResourceLimit)
  | publishReturned (resource : ℕ) (value : ResourceLimit) (result : Except Error Unit)
  deriving DecidableEq

inductive Place where
  | idle
  | magic (call : Call)
  | format (call : Call)
  | generation (index : Fin rlimitCount)
  | soft (index : Fin rlimitCount) (before : ℕ)
  | hard (index : Fin rlimitCount) (before soft : ℕ)
  | again (index : Fin rlimitCount) (before : ℕ) (value : ResourceLimit)
  | load (index : Fin rlimitCount) (value : ResourceLimit)
  | exchange (index : Fin rlimitCount) (value : ResourceLimit) (generation : ℕ)
  | storeSoft (index : Fin rlimitCount) (value : ResourceLimit) (next : ℕ)
  | storeHard (index : Fin rlimitCount) (value : ResourceLimit) (next : ℕ)
  | storeGeneration (index : Fin rlimitCount) (value : ResourceLimit) (next : ℕ)

structure Shared where
  policy : ResourcePolicy
  trace : List (ℕ × Event)

namespace Shared

def log (s : Shared) (id : ℕ) (event : Event) : Shared := { s with trace := s.trace ++ [(id, event)] }

def store (s : Shared) (id : ℕ) (store : Store) (policy : ResourcePolicy) : Shared :=
  ⟨policy, s.trace ++ [(id, .stored store)]⟩

end Shared

def Call.failed : Call → Error → Event
  | .read resource, e => .readReturned resource (.error e)
  | .publish resource value, e => .publishReturned resource value (.error e)

/-- What follows `validate`: the words of the resource, and for `publish` the value. -/
def afterValidate (id : ℕ) (s : Shared) (call : Call) : Shared × Place :=
  match call with
  | .read resource =>
    if h : resource < rlimitCount then (s, .generation ⟨resource, h⟩)
    else (s.log id (call.failed .invalidResource), .idle)
  | .publish resource value =>
    if h : resource < rlimitCount then
      if value.hard < value.soft then (s.log id (call.failed .invalidLimit), .idle)
      else (s, .load ⟨resource, h⟩ value)
    else (s.log id (call.failed .invalidResource), .idle)

/-- One access of the call the thread is in. `supported` is what the target allows. -/
def access (supported : Bool) (id : ℕ) (s : Shared) : Place → Shared × Place
  | .idle => (s, .idle)
  | .magic call =>
    if supported = false then (s.log id (call.failed .unsupportedTarget), .idle)
    else if s.policy.magic ≠ magicWord then (s.log id (call.failed .invalidLayout), .idle)
    else (s, .format call)
  | .format call =>
    if s.policy.format ≠ formatWord then (s.log id (call.failed .invalidLayout), .idle)
    else afterValidate id s call
  | .generation index =>
    if s.policy.generation % 2 ≠ 0 then (s.log id (.readReturned index (.error .busy)), .idle)
    else (s, .soft index s.policy.generation)
  | .soft index before => (s, .hard index before (s.policy.limits index).soft)
  | .hard index before soft => (s, .again index before ⟨soft, (s.policy.limits index).hard⟩)
  | .again index before value =>
    if s.policy.generation ≠ before then (s.log id (.readReturned index (.error .busy)), .idle)
    else if value.hard < value.soft then (s.log id (.readReturned index (.error .invalidLimit)), .idle)
    else (s.log id (.readReturned index (.ok value)), .idle)
  | .load index value =>
    if s.policy.generation % 2 ≠ 0 then (s.log id (.publishReturned index value (.error .busy)), .idle)
    else if 2 ^ 64 ≤ s.policy.generation + 2 then (s.log id (.publishReturned index value (.error .exhausted)), .idle)
    else (s, .exchange index value s.policy.generation)
  | .exchange index value generation =>
    if s.policy.generation ≠ generation then (s.log id (.publishReturned index value (.error .busy)), .idle)
    else (s.store id .claim { s.policy with generation := generation + 1 }, .storeSoft index value (generation + 2))
  | .storeSoft index value next =>
    (s.store id (.soft index value.soft)
      { s.policy with limits := Function.update s.policy.limits index { s.policy.limits index with soft := value.soft } },
      .storeHard index value next)
  | .storeHard index value next =>
    (s.store id (.hard index value.hard)
      { s.policy with limits := Function.update s.policy.limits index { s.policy.limits index with hard := value.hard } },
      .storeGeneration index value next)
  | .storeGeneration index value next =>
    ((s.store id (.generation index value) { s.policy with generation := next }).log id
      (.publishReturned index value (.ok ())), .idle)

/-- A thread that is in no call starts one; a thread in a call makes its next access. -/
inductive Action where
  | start (call : Call)
  | go

def act (supported : Bool) (id : ℕ) (action : Action) (s : Shared) (place : Place) : Shared × Place :=
  match action, place with
  | .start call, .idle => (s.log id (.started call), .magic call)
  | .start _, place => (s, place)
  | .go, place => access supported id s place

abbrev System := Config Shared Place

def System.start (policy : ResourcePolicy) : System := ⟨⟨policy, []⟩, fun _ => .idle⟩

/-! ## What a trace says -/

/-- The limits after the publications of the trace that have stored their final generation. -/
def current (limits : Fin rlimitCount → ResourceLimit) (trace : List (ℕ × Event)) : Fin rlimitCount → ResourceLimit :=
  trace.foldl (fun limits e => match e.2 with
    | .stored (.generation index value) => Function.update limits index value
    | _ => limits) limits

def words (limits : Fin rlimitCount → ResourceLimit) (trace : List (ℕ × Event)) : Fin rlimitCount → ResourceLimit :=
  trace.foldl (fun limits e => match e.2 with
    | .stored (.soft index value) => Function.update limits index { limits index with soft := value }
    | .stored (.hard index value) => Function.update limits index { limits index with hard := value }
    | _ => limits) limits

def stores (trace : List (ℕ × Event)) : List (ℕ × Store) :=
  trace.filterMap fun e => match e.2 with
    | .stored store => some (e.1, store)
    | _ => none

structure Publication where
  id : ℕ
  index : Fin rlimitCount
  value : ResourceLimit

def Publication.stores (p : Publication) : List (ℕ × Store) :=
  [(p.id, .claim), (p.id, .soft p.index p.value.soft), (p.id, .hard p.index p.value.hard),
    (p.id, .generation p.index p.value)]

/-- Whole publications one after the other, and then at most the front of one more. -/
def Serial (stores : List (ℕ × Store)) : Prop :=
  ∃ (done : List Publication) (last : Publication) (count : ℕ),
    stores = done.flatMap Publication.stores ++ last.stores.take count

def Event.isCall : Event → Bool
  | .stored _ => false
  | _ => true

section Trace

variable (limits : Fin rlimitCount → ResourceLimit) (trace : List (ℕ × Event)) (id : ℕ)

section

variable {event : Event} (h : event.isCall = true)
include h

@[simp] theorem current_call : current limits (trace ++ [(id, event)]) = current limits trace := by
  rw [current, foldl_append]
  cases event <;> first | rfl | cases h

@[simp] theorem words_call : words limits (trace ++ [(id, event)]) = words limits trace := by
  rw [words, foldl_append]
  cases event <;> first | rfl | cases h

@[simp] theorem stores_call : stores (trace ++ [(id, event)]) = stores trace := by
  rw [stores, filterMap_append]
  cases event <;> first | exact append_nil _ | cases h

end

@[simp] theorem stores_store (store : Store) :
    stores (trace ++ [(id, .stored store)]) = stores trace ++ [(id, store)] := by
  rw [stores, filterMap_append]
  rfl

theorem current_append (more : List (ℕ × Event)) :
    current limits (trace ++ more) = current (current limits trace) more := List.foldl_append

theorem words_append (more : List (ℕ × Event)) : words limits (trace ++ more) = words (words limits trace) more :=
  foldl_append

end Trace

/-! ## The outline

The ghost value is the publisher that has claimed the generation. -/

/-- A read returns a limit that was current since it started, and a publication that fails has stored nothing. -/
def Sound (limits : Fin rlimitCount → ResourceLimit) (pre : List (ℕ × Event)) (e : ℕ × Event) : Prop :=
  match e.2 with
  | .readReturned resource result =>
    result ≠ .error .invalidLimit ∧
      ∀ value, result = .ok value → value.soft ≤ value.hard ∧
        ∃ (h : resource < rlimitCount) (before during : List (ℕ × Event)),
          pre = before ++ (e.1, .started (.read resource)) :: during ∧ (∀ x ∈ during, x.1 ≠ e.1) ∧
          ∃ early late, during = early ++ late ∧
            current limits (before ++ (e.1, .started (.read resource)) :: early) ⟨resource, h⟩ = value
  | .publishReturned resource value (.error _) => Latest pre e.1 (.started (.publish resource value))
  | _ => True

/-- The shared state, by the publisher that has claimed the generation. -/
structure Consistent (limits : Fin rlimitCount → ResourceLimit) (writer : Option ℕ) (s : Shared) : Prop where
  magic : s.policy.magic = magicWord
  format : s.policy.format = formatWord
  parity : s.policy.generation % 2 = 0 ↔ writer = none
  words : s.policy.limits = words limits s.trace
  settled : writer = none →
    s.policy.limits = current limits s.trace ∧ ∃ done : List Publication, stores s.trace = done.flatMap Publication.stores
  ordered : ∀ index, (current limits s.trace index).soft ≤ (current limits s.trace index).hard
  sound : Always (Sound limits) s.trace

structure Reading (writer : Option ℕ) (id : ℕ) (s : Shared) (index : Fin rlimitCount) (before : ℕ) : Prop where
  foreign : writer ≠ some id
  even : before % 2 = 0
  le : before ≤ s.policy.generation
  latest : Latest s.trace id (.started (.read index))

structure Publishing (writer : Option ℕ) (id : ℕ) (s : Shared) (index : Fin rlimitCount) (value : ResourceLimit) : Prop where
  foreign : writer ≠ some id
  ordered : value.soft ≤ value.hard
  latest : Latest s.trace id (.started (.publish index value))

/-- The publisher has made `count` of its stores; the words of its resource are `stored`. -/
structure Storing (limits : Fin rlimitCount → ResourceLimit) (writer : Option ℕ) (s : Shared) (p : Publication)
    (next count : ℕ) (stored : ResourceLimit) : Prop where
  writer : writer = some p.id
  next : next = s.policy.generation + 1
  ordered : p.value.soft ≤ p.value.hard
  limits : s.policy.limits = Function.update (current limits s.trace) p.index stored
  stores : ∃ done : List Publication, stores s.trace = done.flatMap Publication.stores ++ p.stores.take count

def At (limits : Fin rlimitCount → ResourceLimit) (writer : Option ℕ) (id : ℕ) (s : Shared) : Place → Prop
  | .idle => writer ≠ some id
  | .magic call | .format call => writer ≠ some id ∧ Latest s.trace id (.started call)
  | .generation index => writer ≠ some id ∧ Latest s.trace id (.started (.read index))
  | .soft index before => Reading writer id s index before
  | .hard index before soft =>
    Reading writer id s index before ∧ (s.policy.generation = before → soft = (s.policy.limits index).soft)
  | .again index before value =>
    Reading writer id s index before ∧ (s.policy.generation = before → value = s.policy.limits index)
  | .load index value => Publishing writer id s index value
  | .exchange index value generation => Publishing writer id s index value ∧ generation % 2 = 0
  | .storeSoft index value next =>
    Storing limits writer s ⟨id, index, value⟩ next 1 (current limits s.trace index)
  | .storeHard index value next =>
    Storing limits writer s ⟨id, index, value⟩ next 2 ⟨value.soft, (current limits s.trace index).hard⟩
  | .storeGeneration index value next => Storing limits writer s ⟨id, index, value⟩ next 3 value

section Outline

variable {limits : Fin rlimitCount → ResourceLimit} {writer writer' : Option ℕ} {id other : ℕ}
  {s s' : Shared} {supported : Bool}

theorem Latest.of_trace {e : Event} {more : List (ℕ × Event)} (h : Latest s.trace other e)
    (htrace : s'.trace = s.trace ++ more) (hmore : ∀ x ∈ more, x.1 ≠ other) : Latest s'.trace other e := by
  rw [htrace]
  exact Latest.other h hmore

variable {place : Place}

theorem At.undisturbed {more : List (ℕ × Event)} (h : At limits writer other s place)
    (hwriter : writer ≠ some other) (hwriter' : writer' ≠ some other) (hle : s.policy.generation ≤ s'.policy.generation)
    (hback : s'.policy.generation % 2 = 0 → s'.policy.generation ≤ s.policy.generation →
      s'.policy.limits = s.policy.limits)
    (htrace : s'.trace = s.trace ++ more) (hmore : ∀ x ∈ more, x.1 ≠ other) : At limits writer' other s' place := by
  have hreading : ∀ {index before}, Reading writer other s index before → Reading writer' other s' index before :=
    fun h => ⟨hwriter', h.even, h.le.trans hle, Latest.of_trace h.latest htrace hmore⟩
  have hpublishing : ∀ {index value}, Publishing writer other s index value → Publishing writer' other s' index value :=
    fun h => ⟨hwriter', h.ordered, Latest.of_trace h.latest htrace hmore⟩
  have hsame : ∀ {index before}, Reading writer other s index before → s'.policy.generation = before →
      s.policy.generation = before ∧ s'.policy.limits = s.policy.limits := by
    intro index before h hbefore
    refine ⟨by have := h.le; omega, hback (hbefore ▸ h.even) (hbefore ▸ h.le)⟩
  cases place with
  | idle => exact hwriter'
  | magic call | format call | generation index => exact ⟨hwriter', Latest.of_trace h.2 htrace hmore⟩
  | soft index before => exact hreading h
  | hard index before soft | again index before value =>
    refine ⟨hreading h.1, fun hbefore => ?_⟩
    obtain ⟨hgeneration, hlimits⟩ := hsame h.1 hbefore
    rw [hlimits]
    exact h.2 hgeneration
  | load index value => exact hpublishing h
  | exchange index value generation => exact ⟨hpublishing h.1, h.2⟩
  | storeSoft index value next | storeHard index value next | storeGeneration index value next =>
    exact absurd h.writer hwriter

variable (id) in
theorem Storing.call {p : Publication} {next count : ℕ} {stored : ResourceLimit} {event : Event}
    (h : Storing limits writer s p next count stored) (hcall : event.isCall = true) :
    Storing limits writer (s.log id event) p next count stored where
  writer := h.writer
  next := h.next
  ordered := h.ordered
  limits := by
    rw [Shared.log, current_call limits _ _ hcall]
    exact h.limits
  stores := by
    rw [Shared.log, stores_call _ _ hcall]
    exact h.stores

theorem At.call {event : Event} (h : At limits writer other s place) (hother : other ≠ id)
    (hcall : event.isCall = true) : At limits writer other (s.log id event) place := by
  by_cases hwriter : writer = some other
  · cases place with
    | storeSoft index value next | storeHard index value next =>
      have h' := Storing.call id h hcall
      rwa [← current_call limits s.trace id hcall] at h'
    | storeGeneration index value next => exact Storing.call id h hcall
    | idle => exact absurd hwriter h
    | magic call | format call | generation index => exact absurd hwriter h.1
    | soft index before | load index value => exact absurd hwriter h.foreign
    | hard index before soft | again index before value | exchange index value generation =>
      exact absurd hwriter h.1.foreign
  · refine At.undisturbed h hwriter hwriter le_rfl (fun _ _ => rfl) rfl ?_
    intro x hx
    rw [mem_singleton.1 hx]
    exact hother.symm

theorem Consistent.call {event : Event} (h : Consistent limits writer s) (hcall : event.isCall = true)
    (hsound : Sound limits s.trace (id, event)) : Consistent limits writer (s.log id event) where
  magic := h.magic
  format := h.format
  parity := h.parity
  words := by
    rw [Shared.log, words_call limits _ _ hcall]
    exact h.words
  settled := by
    rw [Shared.log, current_call limits _ _ hcall, stores_call _ _ hcall]
    exact h.settled
  ordered := by
    rw [Shared.log, current_call limits _ _ hcall]
    exact h.ordered
  sound := h.sound.snoc hsound

theorem keeps_move (h : Consistent limits writer s) (hat : At limits writer id s place) :
    Keeps (Consistent limits) (At limits) writer id s (s, place) writer :=
  ⟨h, hat, fun _ _ _ h => h⟩

theorem keeps_call {event : Event} (h : Consistent limits writer s) (hcall : event.isCall = true)
    (hsound : Sound limits s.trace (id, event)) (hat : At limits writer id (s.log id event) place) :
    Keeps (Consistent limits) (At limits) writer id s (s.log id event, place) writer :=
  ⟨h.call hcall hsound, hat, fun _ _ hother h => h.call hother hcall⟩

theorem keeps_failed (call : Call) {e : Error} (h : Consistent limits writer s) (hforeign : writer ≠ some id)
    (hlatest : Latest s.trace id (.started call)) (he : ∀ resource, call = .read resource → e ≠ .invalidLimit) :
    Keeps (Consistent limits) (At limits) writer id s (s.log id (call.failed e), .idle) writer := by
  cases call with
  | read resource =>
    refine keeps_call h rfl ⟨fun hlimit => he resource rfl (Except.error.inj hlimit), ?_⟩ hforeign
    intro value hvalue
    cases hvalue
  | publish resource value => exact keeps_call h rfl hlatest hforeign

/-! ## The stores of a publication -/

theorem At.stored {store : Store} {policy : ResourcePolicy} (h : At limits writer other s place)
    (hother : other ≠ id) (hwriter : writer ≠ some other) (hwriter' : writer' ≠ some other)
    (hle : s.policy.generation ≤ policy.generation)
    (hback : policy.generation % 2 = 0 → policy.generation ≤ s.policy.generation → policy.limits = s.policy.limits) :
    At limits writer' other (s.store id store policy) place := by
  refine At.undisturbed h hwriter hwriter' hle hback rfl ?_
  intro x hx
  rw [mem_singleton.1 hx]
  exact hother.symm

theorem keeps_claim {index : Fin rlimitCount} {value : ResourceLimit} (h : Consistent limits writer s)
    (hpublishing : Publishing writer id s index value) (heven : s.policy.generation % 2 = 0) :
    Keeps (Consistent limits) (At limits) writer id s
      (s.store id .claim { s.policy with generation := s.policy.generation + 1 },
        .storeSoft index value (s.policy.generation + 2)) (some id) := by
  have hnone : writer = none := h.parity.1 heven
  obtain ⟨hlimits, done, hstores⟩ := h.settled hnone
  have hodd : (s.policy.generation + 1) % 2 ≠ 0 := by omega
  refine ⟨⟨h.magic, h.format, ⟨fun h => absurd h hodd, nofun⟩, ?_, nofun, ?_, h.sound.snoc trivial⟩, ?_, ?_⟩
  · rw [Shared.store, words_append]
    exact h.words
  · rw [Shared.store, current_append]
    exact h.ordered
  · refine ⟨rfl, rfl, hpublishing.ordered, ?_, done, ?_⟩
    · rw [Shared.store, current_append]
      exact hlimits.trans (update_eq_self ..).symm
    · rw [Shared.store, stores_store, hstores]
      rfl
  · intro other place hother hplace
    refine hplace.stored hother (hnone ▸ nofun) (fun h => hother (Option.some.inj h).symm) (Nat.le_succ _) ?_
    exact fun heven' _ => absurd heven' hodd

theorem Storing.odd {p : Publication} {next count : ℕ} {stored : ResourceLimit}
    (hstoring : Storing limits writer s p next count stored) (h : Consistent limits writer s) :
    s.policy.generation % 2 ≠ 0 := by
  intro heven
  have hnone := h.parity.1 heven
  rw [hstoring.writer] at hnone
  cases hnone

theorem Storing.keeps_word {index : Fin rlimitCount} {value stored stored' : ResourceLimit} {next count : ℕ} {store : Store}
    {policy : Fin rlimitCount → ResourceLimit} (hstoring : Storing limits writer s ⟨id, index, value⟩ next count stored)
    (h : Consistent limits writer s) (hwords : policy = words s.policy.limits [(id, .stored store)])
    (hcurrent : ∀ limits, current limits [(id, .stored store)] = limits)
    (hlimits : policy = Function.update (current limits s.trace) index stored')
    (hcount : (Publication.mk id index value).stores.take count ++ [(id, store)] =
      (Publication.mk id index value).stores.take (count + 1))
    (hat : ∀ s', current limits s'.trace = current limits s.trace →
      Storing limits writer s' ⟨id, index, value⟩ next (count + 1) stored' → At limits writer id s' place) :
    Keeps (Consistent limits) (At limits) writer id s
      (s.store id store { s.policy with limits := policy }, place) writer := by
  have hodd := hstoring.odd h
  obtain ⟨done, hstores⟩ := hstoring.stores
  have hsame : current limits (s.trace ++ [(id, .stored store)]) = current limits s.trace := by
    rw [current_append, hcurrent]
  refine ⟨⟨h.magic, h.format, h.parity, ?_, ?_, ?_, h.sound.snoc trivial⟩, hat _ hsame ?_, ?_⟩
  · rw [Shared.store, words_append, ← h.words]
    exact hwords
  · intro hnone
    rw [hstoring.writer] at hnone
    cases hnone
  · rw [Shared.store, hsame]
    exact h.ordered
  · refine ⟨hstoring.writer, hstoring.next, hstoring.ordered, ?_, done, ?_⟩
    · rw [Shared.store, hsame]
      exact hlimits
    · rw [Shared.store, stores_store, hstores, append_assoc, hcount]
  · intro other place hother hplace
    have hforeign : writer ≠ some other := hstoring.writer ▸ fun h => hother (Option.some.inj h).symm
    exact hplace.stored hother hforeign hforeign le_rfl fun heven _ => absurd heven hodd

section

variable {index : Fin rlimitCount} {value : ResourceLimit} {next : ℕ}
  (h : Consistent limits writer s)
include h

theorem keeps_soft
    (hstoring : Storing limits writer s ⟨id, index, value⟩ next 1 (current limits s.trace index)) :
    Keeps (Consistent limits) (At limits) writer id s (access supported id s (.storeSoft index value next)) writer := by
  have hlimits := hstoring.limits
  rw [update_eq_self] at hlimits
  refine hstoring.keeps_word h rfl (fun _ => rfl) (by rw [hlimits]) rfl fun s' hsame hstoring' => ?_
  rw [At, hsame]
  exact hstoring'

theorem keeps_hard
    (hstoring : Storing limits writer s ⟨id, index, value⟩ next 2 ⟨value.soft, (current limits s.trace index).hard⟩) :
    Keeps (Consistent limits) (At limits) writer id s (access supported id s (.storeHard index value next)) writer := by
  refine hstoring.keeps_word h rfl (fun _ => rfl) ?_ rfl fun _ _ hstoring' => hstoring'
  rw [hstoring.limits, update_idem, update_self]

theorem keeps_generation (hstoring : Storing limits writer s ⟨id, index, value⟩ next 3 value) :
    Keeps (Consistent limits) (At limits) writer id s (access supported id s (.storeGeneration index value next)) none := by
  have hodd := hstoring.odd h
  obtain ⟨done, hstores⟩ := hstoring.stores
  obtain rfl := hstoring.next
  have hpublished : Consistent limits none
      (s.store id (.generation index value) { s.policy with generation := s.policy.generation + 1 }) := by
    refine ⟨h.magic, h.format, ⟨fun _ => rfl, fun _ => ?_⟩, ?_, fun _ => ⟨?_, ?_⟩, ?_, h.sound.snoc trivial⟩
    · show (s.policy.generation + 1) % 2 = 0
      omega
    · rw [Shared.store, words_append]
      exact h.words
    · rw [Shared.store, current_append]
      exact hstoring.limits
    · refine ⟨done ++ [⟨id, index, value⟩], ?_⟩
      rw [Shared.store, stores_store, hstores, append_assoc, flatMap_append, flatMap_singleton]
      rfl
    · intro index'
      rw [Shared.store, current_append, show current _ [_] = update _ index value from rfl]
      by_cases hindex : index' = index
      · subst hindex
        rw [update_self]
        exact hstoring.ordered
      · rw [update_of_ne hindex]
        exact h.ordered index'
  rw [access]
  refine ⟨hpublished.call rfl trivial, nofun, ?_⟩
  intro other place hother hplace
  have hforeign : writer ≠ some other := hstoring.writer ▸ fun h => hother (Option.some.inj h).symm
  refine At.call ?_ hother rfl
  refine hplace.stored hother hforeign nofun (Nat.le_succ _) fun _ hle => ?_
  exact absurd hle (Nat.not_succ_le_self _)

end

/-! ## Every access -/

theorem keeps_afterValidate {call : Call} (h : Consistent limits writer s) (hforeign : writer ≠ some id)
    (hlatest : Latest s.trace id (.started call)) :
    Keeps (Consistent limits) (At limits) writer id s (afterValidate id s call) writer := by
  cases call with
  | read resource =>
    rw [afterValidate]
    split
    · exact keeps_move h ⟨hforeign, hlatest⟩
    · exact keeps_failed _ h hforeign hlatest nofun
  | publish resource value =>
    rw [afterValidate]
    split
    · split
      · exact keeps_failed _ h hforeign hlatest nofun
      next hle => exact keeps_move h ⟨hforeign, not_lt.1 hle, hlatest⟩
    · exact keeps_failed _ h hforeign hlatest nofun

theorem keeps_again {index : Fin rlimitCount} {before : ℕ} {value : ResourceLimit} (h : Consistent limits writer s)
    (hreading : Reading writer id s index before)
    (hvalue : s.policy.generation = before → value = s.policy.limits index) :
    Keeps (Consistent limits) (At limits) writer id s (access supported id s (.again index before value)) writer := by
  rw [access]
  split
  · exact keeps_failed (.read index) h hreading.foreign hreading.latest nofun
  next hsame =>
    have hsame : s.policy.generation = before := not_not.1 hsame
    have hcurrent := (h.settled (h.parity.1 (hsame ▸ hreading.even))).1
    have hordered : value.soft ≤ value.hard := by
      rw [hvalue hsame, hcurrent]
      exact h.ordered index
    rw [if_neg (not_lt.2 hordered)]
    refine keeps_call h rfl ⟨nofun, ?_⟩ hreading.foreign
    intro value' hvalue'
    cases hvalue'
    obtain ⟨earlier, during, htrace, hduring⟩ := hreading.latest
    refine ⟨hordered, index.isLt, earlier, during, htrace, hduring, during, [], (append_nil _).symm, ?_⟩
    rw [← htrace, ← hcurrent, hvalue hsame]

theorem access_keeps (h : Consistent limits writer s) (hat : At limits writer id s place) :
    ∃ writer', Keeps (Consistent limits) (At limits) writer id s (access supported id s place) writer' := by
  cases place with
  | idle => exact ⟨writer, keeps_move h hat⟩
  | magic call =>
    refine ⟨writer, ?_⟩
    rw [access]
    split
    · exact keeps_failed call h hat.1 hat.2 nofun
    · rw [if_neg (not_not.2 h.magic)]
      exact keeps_move h hat
  | format call =>
    rw [access, if_neg (not_not.2 h.format)]
    exact ⟨writer, keeps_afterValidate h hat.1 hat.2⟩
  | generation index =>
    refine ⟨writer, ?_⟩
    rw [access]
    split
    · exact keeps_failed (.read index) h hat.1 hat.2 nofun
    next heven => exact keeps_move h ⟨hat.1, not_not.1 heven, le_rfl, hat.2⟩
  | soft index before => exact ⟨writer, keeps_move h ⟨hat, fun _ => rfl⟩⟩
  | hard index before soft =>
    refine ⟨writer, keeps_move h ⟨hat.1, fun hbefore => ?_⟩⟩
    rw [hat.2 hbefore]
  | again index before value => exact ⟨writer, keeps_again h hat.1 hat.2⟩
  | load index value =>
    have hlatest : Latest s.trace id (.started (.publish index value)) := hat.latest
    refine ⟨writer, ?_⟩
    rw [access]
    split
    · exact keeps_failed (.publish index value) h hat.foreign hlatest nofun
    next heven =>
      split
      · exact keeps_failed (.publish index value) h hat.foreign hlatest nofun
      · exact keeps_move h ⟨hat, not_not.1 heven⟩
  | exchange index value generation =>
    rw [access]
    split
    · exact ⟨writer, keeps_failed (.publish index value) h hat.1.foreign hat.1.latest nofun⟩
    next hsame =>
      obtain rfl := not_not.1 hsame
      exact ⟨some id, keeps_claim h hat.1 hat.2⟩
  | storeSoft index value next => exact ⟨writer, keeps_soft h hat⟩
  | storeHard index value next => exact ⟨writer, keeps_hard h hat⟩
  | storeGeneration index value next => exact ⟨none, keeps_generation h hat⟩

variable (supported) in
theorem act_keeps (action : Action) (h : Consistent limits writer s) (hat : At limits writer id s place) :
    ∃ writer', Keeps (Consistent limits) (At limits) writer id s (act supported id action s place) writer' := by
  cases action with
  | go => exact access_keeps h hat
  | start call =>
    cases place with
    | idle => exact ⟨writer, keeps_call h rfl trivial ⟨hat, Latest.self _ _ _⟩⟩
    | _ => exact ⟨writer, keeps_move h hat⟩

end Outline

/-! ## Interleavings -/

section

variable {limits : Fin rlimitCount → ResourceLimit}

theorem new_consistent {policy : ResourcePolicy} (hnew : ResourcePolicy.new limits = .ok policy) :
    Holds (Consistent limits) (At limits) none (System.start policy) := by
  unfold ResourcePolicy.new at hnew
  split at hnew
  · cases hnew
  next hordered =>
    cases hnew
    refine ⟨⟨rfl, rfl, ⟨fun _ => rfl, fun _ => rfl⟩, rfl, fun _ => ⟨rfl, [], rfl⟩, ?_, Always.nil _⟩, fun _ => nofun⟩
    intro index
    exact not_lt.1 fun hlt => hordered ⟨index, hlt⟩

theorem run_consistent {policy : ResourcePolicy} (supported : Bool)
    (hnew : ResourcePolicy.new limits = .ok policy) (schedule : List (ℕ × Action)) :
    ∃ writer, Holds (Consistent limits) (At limits) writer
      (Runs.run (step (act supported)) (System.start policy) schedule) := by
  refine Runs.run_invariant _ (P := fun c => ∃ writer, Holds (Consistent limits) (At limits) writer c) ?_
    ⟨none, new_consistent hnew⟩ schedule
  rintro c ⟨id, action⟩ ⟨writer, h⟩
  obtain ⟨writer', hkeeps⟩ := act_keeps supported action h.shared (h.place id)
  exact ⟨writer', h.step hkeeps⟩

theorem serial_of_holds {writer : Option ℕ} {c : System}
    (h : Holds (Consistent limits) (At limits) writer c) : Serial (stores c.shared.trace) := by
  cases writer with
  | none =>
    obtain ⟨done, hstores⟩ := (h.shared.settled rfl).2
    exact ⟨done, ⟨0, ⟨0, by decide⟩, ⟨0, 0⟩⟩, 0, by rw [hstores, take_zero, append_nil]⟩
  | some id =>
    have hplace := h.place id
    generalize c.thread id = place at hplace
    cases place with
    | storeSoft index value next | storeHard index value next | storeGeneration index value next =>
      obtain ⟨done, hstores⟩ := hplace.stores
      exact ⟨done, _, _, hstores⟩
    | idle => exact absurd rfl hplace
    | magic call | format call | generation index => exact absurd rfl hplace.1
    | soft index before | load index value => exact absurd rfl hplace.foreign
    | hard index before soft | again index before value | exchange index value generation =>
      exact absurd rfl hplace.1.foreign

/-- **Limits are read atomically.** A read that succeeds returns a limit that was current during the read; a publication
that fails has stored nothing, and stores of publications never mix. -/
theorem limits_read_atomically {policy : ResourcePolicy} (supported : Bool)
    (hnew : ResourcePolicy.new limits = .ok policy) (schedule : List (ℕ × Action)) :
    let s := (Runs.run (step (act supported)) (System.start policy) schedule).shared
    (∀ pre id resource result post, s.trace = pre ++ (id, .readReturned resource result) :: post →
      result ≠ .error .invalidLimit ∧
      ∀ value, result = .ok value → value.soft ≤ value.hard ∧
        ∃ (h : resource < rlimitCount) (before during : List (ℕ × Event)),
          pre = before ++ (id, .started (.read resource)) :: during ∧ (∀ x ∈ during, x.1 ≠ id) ∧
          ∃ early late, during = early ++ late ∧
            current limits (before ++ (id, .started (.read resource)) :: early) ⟨resource, h⟩ = value) ∧
    (∀ pre id resource value e post, s.trace = pre ++ (id, .publishReturned resource value (.error e)) :: post →
      ∃ before during, pre = before ++ (id, .started (.publish resource value)) :: during ∧ ∀ x ∈ during, x.1 ≠ id) ∧
    s.policy.limits = words limits s.trace ∧
    Serial (stores s.trace) := by
  obtain ⟨writer, h⟩ := run_consistent supported hnew schedule
  refine ⟨?_, ?_, h.shared.words, serial_of_holds h⟩
  · intro pre id resource result post htrace
    exact h.shared.sound pre _ post htrace
  · intro pre id resource value e post htrace
    exact h.shared.sound pre _ post htrace

end

/-- A reader that starts before a publication and loads after it: it returns the new limit. -/
theorem limits_read_atomically_overlap : let limits : Fin rlimitCount → ResourceLimit := fun _ => ⟨1, 2⟩
    let policy : ResourcePolicy := ⟨magicWord, formatWord, 0, limits⟩
    let schedule : List (ℕ × Action) := [(1, .start (.read 3)), (2, .start (.publish 3 ⟨5, 8⟩))] ++
      List.replicate 7 (2, .go) ++ List.replicate 6 (1, .go)
    let s := (Runs.run (step (act true)) (System.start policy) schedule).shared
    ResourcePolicy.new limits = .ok policy ∧ s.trace.getLast? = some (1, .readReturned 3 (.ok ⟨5, 8⟩)) ∧
      s.policy.limits = words limits s.trace ∧ Serial (stores s.trace) := by
  intro limits policy schedule
  have hnew : ResourcePolicy.new limits = .ok policy := rfl
  exact ⟨hnew, by decide, (limits_read_atomically true hnew schedule).2.2⟩

end MochiSyscalls.PosixProtocol.Policy
