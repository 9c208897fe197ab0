import MochiSyscalls.Foundations.Words

/-! # The descriptor table

`FdTable` (`crates/posix-client/src/fd.rs`). A descriptor is an `i32` and is kept as an integer; a slot is a
label below `DEFAULT_FD_LIMIT`, so that the index in a token is always in bounds. The operations on handles
are state that is passed through: what `clone_handle` answers, and the handles cloned and closed so far. -/

namespace MochiSyscalls.PosixClient
open Foundations Words
set_option autoImplicit false

def fdCloexec : UInt32 := 1
def defaultFdLimit : ℕ := 256

abbrev Slot : Type := Fin defaultFdLimit

structure Entry (H : Type) where
  handle : H
  rights : UInt64
  descriptorFlags : UInt32
  deriving DecidableEq

inductive FdError (ε : Type) where
  | badDescriptor
  | invalidDescriptor
  | busyDescriptor
  | handle (e : ε)
  deriving DecidableEq

structure HandleOps (H ε : Type) where
  clone : H → UInt64 → Except ε H
  cloned : List H
  closed : List H

namespace HandleOps

variable {H ε : Type}

def cloneHandle (o : HandleOps H ε) (handle : H) (rights : UInt64) : Except ε H × HandleOps H ε :=
  match o.clone handle rights with
  | .ok h => (.ok h, { o with cloned := o.cloned ++ [h] })
  | .error e => (.error e, o)

def closeHandle (o : HandleOps H ε) (handle : H) : HandleOps H ε := { o with closed := o.closed ++ [handle] }

end HandleOps

/-! ## Tokens -/

structure FdReservation where
  index : Slot
  generation : ℕ
  deriving DecidableEq

structure FdReplacement where
  index : Slot
  generation : ℕ
  deriving DecidableEq

/-- The first `count` of the indices; they are different slots. -/
structure FdReservations where
  indices : List Slot
  generation : ℕ
  nodup : indices.Nodup
  deriving DecidableEq

/-! ## The table -/

structure FdTable (H : Type) where
  entries : Slot → Option (Entry H)
  reservations : Slot → ℕ
  nextReservation : ℕ

/-- `usize::try_from(fd)`, within the table. -/
def slotOf (fd : ℤ) : Option Slot :=
  if h : 0 ≤ fd ∧ fd < defaultFdLimit then some ⟨fd.toNat, by omega⟩ else none

def label (index : Slot) : ℤ := index.val

namespace FdTable

variable {H ε : Type}

def new : FdTable H := { entries := fun _ => none, reservations := fun _ => 0, nextReservation := 0 }

def setEntry (t : FdTable H) (index : Slot) (entry : Option (Entry H)) : FdTable H :=
  { t with entries := Function.update t.entries index entry }

def setReservation (t : FdTable H) (index : Slot) (generation : ℕ) : FdTable H :=
  { t with reservations := Function.update t.reservations index generation }

@[simp]
theorem setEntry_self (t : FdTable H) (index : Slot) (entry : Option (Entry H)) :
    (t.setEntry index entry).entries index = entry := Function.update_self ..

theorem setEntry_of_ne (t : FdTable H) {index other : Slot} (h : other ≠ index) (entry : Option (Entry H)) :
    (t.setEntry index entry).entries other = t.entries other := Function.update_of_ne h ..

@[simp]
theorem setReservation_self (t : FdTable H) (index : Slot) (generation : ℕ) :
    (t.setReservation index generation).reservations index = generation := Function.update_self ..

theorem setReservation_of_ne (t : FdTable H) {index other : Slot} (h : other ≠ index) (generation : ℕ) :
    (t.setReservation index generation).reservations other = t.reservations other := Function.update_of_ne h ..

def isFree (t : FdTable H) (index : Slot) : Bool := (t.entries index).isNone && t.reservations index == 0

def isReserved (t : FdTable H) (fd : ℤ) : Bool := (slotOf fd).any fun index => t.reservations index != 0

/-- `(minimum..limit).filter(|index| self.is_free(*index))`. -/
def freeSlots (t : FdTable H) (minimum limit : ℤ) : List Slot :=
  (List.finRange defaultFdLimit).filter fun index => minimum ≤ label index ∧ label index < limit ∧ t.isFree index

/-! ### Replacements -/

def reserveReplacement (t : FdTable H) (fd : ℤ) :
    Except (FdError Empty) (FdReplacement × Option (Entry H)) × FdTable H :=
  match slotOf fd with
  | none => (.error .invalidDescriptor, t)
  | some index =>
    if t.reservations index ≠ 0 then (.error .busyDescriptor, t)
    else
      match usizeCheckedAdd t.nextReservation 1 with
      | none => (.error .invalidDescriptor, t)
      | some generation =>
        (.ok (⟨index, generation⟩, t.entries index),
          { t with nextReservation := generation }.setReservation index generation)

def commitReplacement (t : FdTable H) (replacement : FdReplacement) (entry : Entry H) :
    Except (FdError Empty) (Option (Entry H)) × FdTable H :=
  if t.reservations replacement.index ≠ replacement.generation then (.error .invalidDescriptor, t)
  else
    (.ok (t.entries replacement.index), (t.setReservation replacement.index 0).setEntry replacement.index (some entry))

def cancelReplacement (t : FdTable H) (replacement : FdReplacement) : Bool × FdTable H :=
  if t.reservations replacement.index ≠ replacement.generation then (false, t)
  else (true, t.setReservation replacement.index 0)

/-! ### Reservations -/

/-- The range check that the pending opens and `duplicate_from` share. -/
def badRange (minimum limit : ℤ) : Prop := minimum < 0 ∨ limit ≤ minimum ∨ (defaultFdLimit : ℤ) < limit
  deriving Decidable

def reserveFrom (t : FdTable H) (minimum limit : ℤ) : Except (FdError Empty) FdReservation × FdTable H :=
  if badRange minimum limit then (.error .invalidDescriptor, t)
  else
    match t.freeSlots minimum limit with
    | [] => (.error .invalidDescriptor, t)
    | index :: _ =>
      match usizeCheckedAdd t.nextReservation 1 with
      | none => (.error .invalidDescriptor, t)
      | some generation =>
        (.ok ⟨index, generation⟩, { t with nextReservation := generation }.setReservation index generation)

def cancelReservation (t : FdTable H) (reservation : FdReservation) : Bool × FdTable H :=
  if t.reservations reservation.index ≠ reservation.generation ∨ (t.entries reservation.index).isSome then (false, t)
  else (true, t.setReservation reservation.index 0)

def commitReservation (t : FdTable H) (reservation : FdReservation) (entry : Entry H) :
    Except (FdError Empty) ℤ × FdTable H :=
  match t.cancelReservation reservation with
  | (false, t) => (.error .invalidDescriptor, t)
  | (true, t) => (.ok (label reservation.index), t.setEntry reservation.index (some entry))

def reservePairFrom (t : FdTable H) (minimum limit : ℤ) :
    Except (FdError Empty) (FdReservation × FdReservation) × FdTable H :=
  if badRange minimum limit then (.error .invalidDescriptor, t)
  else
    match t.freeSlots minimum limit with
    | first :: second :: _ =>
      match usizeCheckedAdd t.nextReservation 2 with
      | none => (.error .invalidDescriptor, t)
      | some generation =>
        (.ok (⟨first, generation - 1⟩, ⟨second, generation⟩),
          { (t.setReservation first (generation - 1)).setReservation second generation with
            nextReservation := generation })
    | _ => (.error .invalidDescriptor, t)

/-- What the two commits of several slots write to one of them. -/
def publish (t : FdTable H) (index : Slot) (entry : Entry H) : FdTable H :=
  (t.setReservation index 0).setEntry index (some entry)

def commitPair (t : FdTable H) (first second : FdReservation) (entry₁ entry₂ : Entry H) :
    Except (FdError Empty) (ℤ × ℤ) × FdTable H :=
  if first.index = second.index ∨
      [first, second].any (fun reservation =>
        t.reservations reservation.index != reservation.generation || (t.entries reservation.index).isSome) then
    (.error .invalidDescriptor, t)
  else (.ok (label first.index, label second.index), (t.publish first.index entry₁).publish second.index entry₂)

/-! ### Groups -/

theorem freeSlots_nodup (t : FdTable H) (minimum limit : ℤ) : (t.freeSlots minimum limit).Nodup :=
  (List.nodup_finRange _).filter _

def reserveUpTo (t : FdTable H) (minimum limit : ℤ) (maximum : ℕ) : Except (FdError Empty) FdReservations × FdTable H :=
  if minimum < 0 ∨ limit < minimum ∨ (defaultFdLimit : ℤ) < limit ∨ defaultFdLimit < maximum then
    (.error .invalidDescriptor, t)
  else
    let indices := (t.freeSlots minimum limit).take maximum
    if indices = [] then (.ok ⟨[], 0, List.nodup_nil⟩, t)
    else
      match usizeCheckedAdd t.nextReservation 1 with
      | none => (.error .invalidDescriptor, t)
      | some generation =>
        (.ok ⟨indices, generation, (t.freeSlots_nodup minimum limit).sublist (List.take_sublist _ _)⟩,
          indices.foldl (fun t index => t.setReservation index generation) { t with nextReservation := generation })

/-- The loop of `commit_group`: the entries go to the first slots, the other slots are released. -/
def publishAll (t : FdTable H) : List Slot → List (Entry H) → FdTable H
  | [], _ => t
  | index :: indices, [] => publishAll (t.setReservation index 0) indices []
  | index :: indices, entry :: entries => publishAll (t.publish index entry) indices entries

/-- The result is what is written to `output`. -/
def commitGroup (t : FdTable H) (group : FdReservations) (entries : List (Entry H)) (outputLen : ℕ) :
    Except (FdError Empty) (List ℤ) × FdTable H :=
  if group.indices.length < entries.length ∨ outputLen < entries.length ∨
      group.indices.any (fun index => t.reservations index != group.generation || (t.entries index).isSome) then
    (.error .invalidDescriptor, t)
  else (.ok ((group.indices.take entries.length).map label), t.publishAll group.indices entries)

def cancelSlot (generation : ℕ) (s : FdTable H × ℕ) (index : Slot) : FdTable H × ℕ :=
  if s.1.reservations index = generation ∧ (s.1.entries index).isNone then (s.1.setReservation index 0, s.2 + 1) else s

def cancelGroup (t : FdTable H) (group : FdReservations) : ℕ × FdTable H :=
  let (t, released) := group.indices.foldl (cancelSlot group.generation) (t, 0)
  (released, t)

def clearReservations (t : FdTable H) : FdTable H := { t with reservations := fun _ => 0 }

/-! ### Entries -/

def get (t : FdTable H) (fd : ℤ) : Option (Entry H) := (slotOf fd).bind t.entries

def installFrom (t : FdTable H) (minimum limit : ℤ) (entry : Entry H) : Except (FdError Empty) ℤ × FdTable H :=
  if minimum < 0 ∨ limit < 0 then (.error .invalidDescriptor, t)
  else if limit ≤ minimum ∨ (defaultFdLimit : ℤ) < limit ∨ 2 ^ 31 - 1 < limit then (.error .invalidDescriptor, t)
  else
    match t.freeSlots minimum limit with
    | [] => (.error .invalidDescriptor, t)
    | index :: _ => (.ok (label index), t.setEntry index (some entry))

def install (t : FdTable H) (entry : Entry H) : Except (FdError Empty) ℤ × FdTable H :=
  t.installFrom 0 defaultFdLimit entry

def closeDisplaced (displaced : Option (Entry H)) (operations : HandleOps H ε) : HandleOps H ε :=
  match displaced with
  | some replaced => operations.closeHandle replaced.handle
  | none => operations

def installAt (t : FdTable H) (fd : ℤ) (entry : Entry H) (operations : HandleOps H ε) :
    Except (FdError ε) Unit × FdTable H × HandleOps H ε :=
  match slotOf fd with
  | none => (.error .invalidDescriptor, t, operations)
  | some index =>
    if t.reservations index ≠ 0 then (.error .busyDescriptor, t, operations)
    else (.ok (), t.setEntry index (some entry), closeDisplaced (t.entries index) operations)

def setDescriptorFlags (t : FdTable H) (fd : ℤ) (flags : UInt32) : Except (FdError ε) Unit × FdTable H :=
  match slotOf fd with
  | none => (.error .badDescriptor, t)
  | some index =>
    match t.entries index with
    | none => (.error .badDescriptor, t)
    | some entry => (.ok (), t.setEntry index (some { entry with descriptorFlags := flags }))

def take (t : FdTable H) (fd : ℤ) : Except (FdError ε) (Entry H) × FdTable H :=
  match slotOf fd with
  | none => (.error .badDescriptor, t)
  | some index =>
    match t.entries index with
    | none => (.error .badDescriptor, t)
    | some entry =>
      if t.reservations index ≠ 0 then (.error .busyDescriptor, t) else (.ok entry, t.setEntry index none)

/-- The source repeats the body of `take` here. -/
def close (t : FdTable H) (fd : ℤ) (operations : HandleOps H ε) : Except (FdError ε) Unit × FdTable H × HandleOps H ε :=
  match t.take fd with
  | (.error e, t) => (.error e, t, operations)
  | (.ok entry, t) => (.ok (), t, operations.closeHandle entry.handle)

/-! ### Duplicates -/

def duplicateFrom (t : FdTable H) (fd minimum limit : ℤ) (closeOnExec : Bool) (operations : HandleOps H ε) :
    Except (FdError ε) ℤ × FdTable H × HandleOps H ε :=
  match t.get fd with
  | none => (.error .badDescriptor, t, operations)
  | some source =>
    if badRange minimum limit then (.error .invalidDescriptor, t, operations)
    else
      match t.freeSlots minimum limit with
      | [] => (.error .invalidDescriptor, t, operations)
      | index :: _ =>
        match operations.cloneHandle source.handle source.rights with
        | (.error e, operations) => (.error (.handle e), t, operations)
        | (.ok handle, operations) =>
          let flags := if closeOnExec then fdCloexec else 0
          (.ok (label index), t.setEntry index (some ⟨handle, source.rights, flags⟩), operations)

def duplicate (t : FdTable H) (fd : ℤ) (operations : HandleOps H ε) :
    Except (FdError ε) ℤ × FdTable H × HandleOps H ε :=
  t.duplicateFrom fd 0 defaultFdLimit false operations

/-- `map_err` of `duplicate_to`. -/
def replacementError : FdError Empty → FdError ε
  | .busyDescriptor => .busyDescriptor
  | _ => .invalidDescriptor

def duplicateTo (t : FdTable H) (sourceFd targetFd : ℤ) (operations : HandleOps H ε) :
    Except (FdError ε) ℤ × FdTable H × HandleOps H ε :=
  if targetFd < 0 ∨ (defaultFdLimit : ℤ) ≤ targetFd then (.error .invalidDescriptor, t, operations)
  else if sourceFd = targetFd then
    match t.get sourceFd with
    | none => (.error .badDescriptor, t, operations)
    | some _ => (.ok targetFd, t, operations)
  else
    match t.get sourceFd with
    | none => (.error .badDescriptor, t, operations)
    | some source =>
      match t.reserveReplacement targetFd with
      | (.error e, t) => (.error (replacementError e), t, operations)
      | (.ok (replacement, _), t) =>
        match operations.cloneHandle source.handle source.rights with
        | (.error e, operations) => (.error (.handle e), (t.cancelReplacement replacement).2, operations)
        | (.ok handle, operations) =>
          match t.commitReplacement replacement ⟨handle, source.rights, source.descriptorFlags &&& ~~~fdCloexec⟩ with
          | (.error _, t) => (.error .invalidDescriptor, t, operations.closeHandle handle)
          | (.ok displaced, t) => (.ok targetFd, t, closeDisplaced displaced operations)

def closeForSpawn (t : FdTable H) (fd : ℤ) (operations : HandleOps H ε) : FdTable H × HandleOps H ε :=
  if (t.get fd).isSome then (t.close fd operations).2 else (t, operations)

def duplicateForSpawn (t : FdTable H) (sourceFd targetFd : ℤ) (operations : HandleOps H ε) :
    Except (FdError ε) ℤ × FdTable H × HandleOps H ε :=
  match t.duplicateTo sourceFd targetFd operations with
  | (.error e, t, operations) => (.error e, t, operations)
  | (.ok targetFd, t, operations) =>
    match slotOf targetFd with
    | none => (.error .invalidDescriptor, t, operations)
    | some index =>
      match t.entries index with
      | none => (.error .invalidDescriptor, t, operations)
      | some entry =>
        (.ok targetFd,
          t.setEntry index (some { entry with descriptorFlags := entry.descriptorFlags &&& ~~~fdCloexec }), operations)

def execSlot (s : FdTable H × HandleOps H ε) (index : Slot) : FdTable H × HandleOps H ε :=
  match s.1.entries index with
  | none => s
  | some entry =>
    if s.1.reservations index = 0 ∧ entry.descriptorFlags &&& fdCloexec ≠ 0 then
      (s.1.setEntry index none, s.2.closeHandle entry.handle)
    else s

def closeOnExec (t : FdTable H) (operations : HandleOps H ε) : FdTable H × HandleOps H ε :=
  (List.finRange defaultFdLimit).foldl execSlot (t, operations)

end FdTable

end MochiSyscalls.PosixClient
