import MochiSyscalls.Foundations.Checked
import MochiSyscalls.Foundations.Runs
import MochiSyscalls.Foundations.Words

/-! # Lifecycle images

`crates/posix-client/src/lifecycle_image.rs`. An image is read word by word out of memory; a read answers with
the little-endian word at an address or with an error. `State` is one atomic word that packs a phase and a count of
objects. Its two procedures are programs whose steps are their atomic operations, their reads and the entry to and
the return from a callback; any number of calls of either are interleaved, also while a callback runs. -/

namespace MochiSyscalls.PosixClient.LifecycleImage
open Foundations Checked Words
set_option autoImplicit false

/-- `u64::from_le_bytes(*b"MLIFE001")`. -/
def magic : UInt64 := 0x31303045_46494c4d
def version : UInt32 := 1
def headerBytes : ℕ := 32
def objectBytes : ℕ := 32

inductive Error (E : Type) where
  | invalid
  | tooLarge
  | read (e : E)
  deriving DecidableEq

structure Callbacks where
  offset : ℕ
  count : ℕ
  deriving DecidableEq

structure Object where
  initializers : Callbacks
  finalizers : Callbacks
  deriving DecidableEq

structure Image where
  base : ℕ
  length : ℕ
  objects : ℕ
  preinit : Callbacks
  objects_lt : objects < 2 ^ 32
  deriving DecidableEq

abbrev Reader (E : Type) : Type := ℕ → Except E UInt64

/-- `usize::checked_mul`. -/
def usizeCheckedMul (a b : ℕ) : Option ℕ := if a * b ≤ usizeMax then some (a * b) else none

variable {E : Type}

theorem upperHalf_lt (format : UInt64) : (format >>> 32).toNat < 2 ^ 32 := by
  have hlt := format.toNat_lt
  rw [UInt64.toNat_shiftRight, Nat.shiftRight_eq_div_pow, show (32 : UInt64).toNat % 64 = 32 by decide]
  omega

def word (base offset : ℕ) (read : Reader E) : Except (Error E) UInt64 := do
  let address ← okOr (usizeCheckedAdd base offset) .invalid
  let _ ← okOr (usizeCheckedAdd address 8) .invalid
  (read address).mapError .read

namespace Image

variable (image : Image)

/-- `Image::end`. -/
def stop (calls : Callbacks) : Except (Error E) ℕ := do
  let stop ← okOr (((usizeCheckedMul calls.count 8).bind (usizeCheckedAdd calls.offset)).filter (· ≤ image.length)) .invalid
  reject (calls.offset < image.preinit.offset ∨ calls.offset % 8 ≠ 0) .invalid
  pure stop

def object (index : ℕ) (read : Reader E) : Except (Error E) Object := do
  reject (image.objects ≤ index) .invalid
  let offset := headerBytes + index * objectBytes
  let initializerOffset ← word image.base (offset + 0) read
  let initializerCount ← word image.base (offset + 8) read
  let finalizerOffset ← word image.base (offset + 16) read
  let finalizerCount ← word image.base (offset + 24) read
  let object : Object :=
    ⟨⟨initializerOffset.toNat, initializerCount.toNat⟩, ⟨finalizerOffset.toNat, finalizerCount.toNat⟩⟩
  let _ ← image.stop object.initializers
  let _ ← image.stop object.finalizers
  pure object

/-- The lists of callbacks follow each other; the loop carries the end of the last one. -/
def chain (read : Reader E) (cursor index : ℕ) : Except (Error E) ℕ := do
  let object ← image.object index read
  reject (object.initializers.offset ≠ cursor) .invalid
  let cursor ← image.stop object.initializers
  reject (object.finalizers.offset ≠ cursor) .invalid
  image.stop object.finalizers

/-- `(start..length).step_by(8)`. -/
def pointerOffsets (start length : ℕ) : List ℕ := (List.range ((length - start + 7) / 8)).map (start + 8 * ·)

def checkPointer (base : ℕ) (read : Reader E) (offset : ℕ) : Except (Error E) Unit := do
  let address ← word base offset read
  reject (address = 0) .invalid

def read (base maximum : ℕ) (read : Reader E) : Except (Error E) Image := do
  reject (base = 0 ∨ base % 8 ≠ 0 ∨ maximum < headerBytes) .invalid
  let found ← word base 0 read
  reject (found ≠ magic) .invalid
  let format ← word base 8 read
  reject (format.toUInt32 ≠ version) .invalid
  let objects := (format >>> 32).toNat
  let length ← word base 16 read
  let preinitCount ← word base 24 read
  reject (maximum < length.toNat) .tooLarge
  let _ ← okOr (usizeCheckedAdd base length.toNat) .invalid
  let start ← okOr ((usizeCheckedMul objects objectBytes).bind (usizeCheckedAdd · headerBytes)) .invalid
  reject (objects = 0 ∨ length.toNat < start) .invalid
  let image : Image := ⟨base, length.toNat, objects, ⟨start, preinitCount.toNat⟩, upperHalf_lt format⟩
  let cursor ← image.stop image.preinit
  let cursor ← (List.range objects).foldlM (image.chain read) cursor
  reject (cursor ≠ length.toNat) .invalid
  (pointerOffsets start length.toNat).forM (checkPointer base read)
  pure image

end Image

/-! ## State -/

inductive CallList where
  | preinit
  | initializer (index : ℕ)
  | finalizer (index : ℕ)
  deriving DecidableEq

/-- Where a call of `initialize` or `finalize` is. -/
inductive Thread (E : Type) where
  | initEnter
  | initObject (index : ℕ)
  | initMark (index : ℕ) (object : Object)
  | initLast
  | finLoad
  | finCas (value : UInt64)
  | finClaimed (begun : ℕ)
  | finObject (left : ℕ)
  | finStore
  | visitStart (list : CallList) (calls : Callbacks)
  | visitAt (list : CallList) (calls : Callbacks) (index : ℕ)
  | inCallback (list : CallList) (calls : Callbacks) (index : ℕ) (address : UInt64)
  | returned (result : Except (Error E) Unit)

inductive Event where
  | entered
  | begun (index : ℕ)
  | claimed (begun : ℕ)
  | started (list : CallList)
  | called (list : CallList) (index : ℕ) (address : UInt64)
  | failed (list : CallList) (index : ℕ)
  | ended (list : CallList)
  /-- The image could not be read or did not hold what it should. -/
  | unreadable
  | finished
  deriving DecidableEq

/-- What a step is answered: by memory, and by the callback that returns in it. -/
structure Env (E : Type) where
  read : Reader E
  call : UInt64 → Except E Unit

/-- `phase | (count << 3)`. -/
def pack (phase : UInt64) (count : ℕ) : UInt64 := phase ||| (UInt64.ofNat count <<< 3)

def afterVisit : CallList → Thread E
  | .preinit => .initObject 0
  | .initializer index => .initObject (index + 1)
  | .finalizer index => .finObject index

/-- One step of a call: where it is then, the phase word, and what happened. -/
def step (image : Image) (env : Env E) (phase : UInt64) : Thread E → Thread E × UInt64 × List Event
  | .initEnter =>
    if phase = 0 then (.visitStart .preinit image.preinit, 1, [.entered])
    else if phase &&& 7 = 2 then (.returned (.ok ()), phase, [])
    else (.returned (.error .invalid), phase, [])
  | .initObject index =>
    if index < image.objects then
      match image.object index env.read with
      | .error e => (.returned (.error e), phase, [.unreadable])
      | .ok object => (.initMark index object, phase, [])
    else (.initLast, phase, [])
  | .initMark index object =>
    if phase = pack 1 index then
      (.visitStart (.initializer index) object.initializers, pack 1 (index + 1), [.begun index])
    else (.returned (.error .invalid), phase, [])
  | .initLast =>
    if phase = pack 1 image.objects then (.returned (.ok ()), pack 2 image.objects, [])
    else (.returned (.error .invalid), phase, [])
  | .finLoad =>
    if phase &&& 7 = 0 ∨ 3 ≤ phase &&& 7 then (.returned (.ok ()), phase, []) else (.finCas phase, phase, [])
  | .finCas value =>
    if phase = value then
      (.finClaimed (value >>> 3).toNat, 3 ||| (value &&& ~~~7), [.claimed (value >>> 3).toNat])
    else (.finLoad, phase, [])
  | .finClaimed begun =>
    if image.objects < begun then (.returned (.error .invalid), phase, []) else (.finObject begun, phase, [])
  | .finObject 0 => (.finStore, phase, [])
  | .finObject (index + 1) =>
    match image.object index env.read with
    | .error e => (.returned (.error e), phase, [.unreadable])
    | .ok object => (.visitStart (.finalizer index) object.finalizers, phase, [])
  | .finStore => (.returned (.ok ()), 4, [.finished])
  | .visitStart list calls =>
    match image.stop calls with
    | .error e => (.returned (.error e), phase, [.started list, .unreadable])
    | .ok _ => (.visitAt list calls 0, phase, [.started list])
  | .visitAt list calls index =>
    if index < calls.count then
      match word image.base (calls.offset + index * 8) env.read with
      | .error e => (.returned (.error e), phase, [.unreadable])
      | .ok address =>
        if address = 0 then (.returned (.error .invalid), phase, [.unreadable])
        else (.inCallback list calls index address, phase, [.called list index address])
    else (afterVisit list, phase, [.ended list])
  | .inCallback list calls index address =>
    match env.call address with
    | .error e => (.returned (.error (.read e)), phase, [.failed list index])
    | .ok () => (.visitAt list calls (index + 1), phase, [])
  | .returned result => (.returned result, phase, [])

/-! ## Interleavings -/

/-- The phase word, every call made so far, and what happened, each event with the call it belongs to. -/
structure System (E : Type) where
  phase : UInt64
  threads : List (Thread E)
  trace : List (ℕ × Event)

def System.new : System E := ⟨0, [], []⟩

inductive Action (E : Type) where
  | startInitialize
  | startFinalize
  | advance (id : ℕ) (env : Env E)

def System.act (image : Image) (s : System E) : Action E → System E
  | .startInitialize => { s with threads := s.threads ++ [.initEnter] }
  | .startFinalize => { s with threads := s.threads ++ [.finLoad] }
  | .advance id env =>
    match s.threads[id]? with
    | none => s
    | some thread =>
      let (thread, phase, events) := step image env s.phase thread
      ⟨phase, s.threads.set id thread, s.trace ++ events.map (id, ·)⟩

end MochiSyscalls.PosixClient.LifecycleImage
