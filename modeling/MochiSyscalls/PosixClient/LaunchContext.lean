import MochiSyscalls.Foundations.EffectLoops
import MochiSyscalls.PosixClient.FdTable
import MochiSyscalls.PosixProtocol.InheritedFd

/-! # Descriptors across a launch

`stage_launch_context`, `plan_launch_context` and `restore_launch_context` (`crates/posix-client/src/fd.rs`).
A launch context is what it holds under its keys, the rights it reports for a handle, and when a call on it
fails. The updates of a plan name handles by labels; `PROCESS_MAX_OBJECT_HANDLES`, the largest label, is a
parameter. -/

namespace MochiSyscalls.PosixClient
open Foundations Effects Outcome Eff PosixProtocol
set_option autoImplicit false

structure LaunchFdDescription where
  kind : UInt8
  openFlags : UInt32
  hasHandle : Bool
  deriving DecidableEq

inductive LaunchFdError (E : Type) where
  | context (e : E)
  | invalidMetadata
  | missingHandle
  | unexpectedHandle
  | invalidDescriptor
  deriving DecidableEq

/-! ## Launch contexts -/

@[ext]
structure LaunchContent (H : Type) where
  values : UInt64 → Option UInt64
  handles : UInt64 → Option H

namespace LaunchContent

variable {H : Type}

def empty : LaunchContent H := ⟨fun _ => none, fun _ => none⟩

variable (c : LaunchContent H)

def putValue (key : UInt64) (value : Option UInt64) : LaunchContent H :=
  { c with values := Function.update c.values key value }

def putHandle (key : UInt64) (handle : Option H) : LaunchContent H :=
  { c with handles := Function.update c.handles key handle }

def mapHandles {H' : Type} (c : LaunchContent H) (f : H → H') : LaunchContent H' :=
  ⟨c.values, fun key => (c.handles key).map f⟩

end LaunchContent

structure LaunchContext (H E : Type) where
  content : LaunchContent H
  rights : H → UInt64
  /-- The error of the n-th call, if it fails. -/
  fault : ℕ → Option E
  calls : ℕ

namespace LaunchContext

variable {H E α : Type}

/-- One call of `LaunchContextOps`, with `map_err(LaunchFdError::Context)`. -/
def call (answer : LaunchContext H E → α) (change : LaunchContent H → LaunchContent H) :
    Eff (LaunchContext H E) (LaunchFdError E) α := fun context =>
  match context.fault context.calls with
  | some e => (failed (.context e), { context with calls := context.calls + 1 })
  | none => (value (answer context), { context with content := change context.content, calls := context.calls + 1 })

variable (key : UInt64)

def setHandle (handle : H) : Eff (LaunchContext H E) (LaunchFdError E) Unit :=
  call (fun _ => ()) (·.putHandle key (some handle))

def removeHandle : Eff (LaunchContext H E) (LaunchFdError E) Unit :=
  call (fun _ => ()) (·.putHandle key none)

def setValue (word : UInt64) : Eff (LaunchContext H E) (LaunchFdError E) Unit :=
  call (fun _ => ()) (·.putValue key (some word))

def removeValue : Eff (LaunchContext H E) (LaunchFdError E) Unit :=
  call (fun _ => ()) (·.putValue key none)

def getValue : Eff (LaunchContext H E) (LaunchFdError E) (Option UInt64) :=
  call (·.content.values key) id

def getHandle : Eff (LaunchContext H E) (LaunchFdError E) (Option H) :=
  call (·.content.handles key) id

def getHandleRights (handle : H) : Eff (LaunchContext H E) (LaunchFdError E) UInt64 :=
  call (·.rights handle) id

end LaunchContext

open LaunchContext

/-! ## Staging -/

section Stage

variable {H E : Type}

/-- `table.get(fd).filter(|entry| entry.descriptor_flags & FD_CLOEXEC == 0)`. -/
def inheritable (table : FdTable H) (fd : ℤ) : Option (Entry H) :=
  (table.get fd).filter fun entry => entry.descriptorFlags &&& fdCloexec == 0

/-- `u8::try_from`. -/
def narrowFlags (flags : UInt32) : Option UInt8 := if flags.toNat < 256 then some flags.toUInt8 else none

def launchEntryMetadata (entry : Entry H) (describe : H → Option LaunchFdDescription) :
    Outcome (LaunchFdError E) (LaunchFdDescription × UInt64) := do
  let description ← okOr (describe entry.handle) .invalidMetadata
  let requires ← okOr (inheritedFdKindRequiresHandle description.kind) .invalidMetadata
  reject (requires ≠ description.hasHandle) .invalidMetadata
  let descriptorFlags ← okOr (narrowFlags entry.descriptorFlags) .invalidMetadata
  let metadata ←
    okOr (encodeInheritedFdMetadata ⟨description.kind, description.openFlags, descriptorFlags⟩) .invalidMetadata
  value (description, metadata)

def stageHandle (description : LaunchFdDescription) (key : UInt64) (entry : Entry H) :
    Eff (LaunchContext H E) (LaunchFdError E) Unit :=
  if description.hasHandle then setHandle key entry.handle else removeHandle key

def stageSlot (table : FdTable H) (describe : H → Option LaunchFdDescription) (index : ℕ) :
    Eff (LaunchContext H E) (LaunchFdError E) Unit := do
  let handleKey ← lift (okOr (fdHandleKey index) .invalidDescriptor)
  let metadataKey ← lift (okOr (fdMetadataKey index) .invalidDescriptor)
  match inheritable table index with
  | none => do
    removeValue metadataKey
    removeHandle handleKey
  | some entry => do
    let (description, metadata) ← lift (launchEntryMetadata entry describe)
    stageHandle description handleKey entry
    setValue metadataKey metadata

def stageLaunchContext (table : FdTable H) (descriptorLimit : ℕ) (describe : H → Option LaunchFdDescription) :
    Eff (LaunchContext H E) (LaunchFdError E) Unit := do
  lift (reject (defaultFdLimit < descriptorLimit ∨ 2 ^ 31 - 1 < descriptorLimit) .invalidDescriptor)
  forRange (fun index _ => stageSlot table describe index) descriptorLimit ()
  setValue fdTableKey fdTableVersion

end Stage

/-! ## Planning -/

inductive ContextUpdateKind where
  | setHandle
  | removeHandle
  | setValue
  | removeValue
  deriving DecidableEq

/-- `mnu_abi::process_image::ContextUpdate`. -/
structure ContextUpdate where
  kind : ContextUpdateKind
  key : UInt64
  value : UInt64
  deriving DecidableEq

/-- What an update does to the context of the new image, whose handles are labels. -/
def ContextUpdate.apply (c : LaunchContent UInt64) (u : ContextUpdate) : LaunchContent UInt64 :=
  match u.kind with
  | .setHandle => c.putHandle u.key (some u.value)
  | .removeHandle => c.putHandle u.key none
  | .setValue => c.putValue u.key (some u.value)
  | .removeValue => c.putValue u.key none

def applyUpdates (updates : List ContextUpdate) (c : LaunchContent UInt64) : LaunchContent UInt64 :=
  updates.foldl ContextUpdate.apply c

section Plan

variable {H : Type}

/-- `output[at] = update`. -/
def putUpdate (index : ℕ) (update : ContextUpdate) : Eff (List ContextUpdate) (LaunchFdError Empty) Unit := fun output =>
  if index < output.length then (value (), output.set index update) else (panicked, output)

variable (maximum : UInt64)

def planHandle (label : H → Option UInt64) (description : LaunchFdDescription) (entry : Entry H) :
    Outcome (LaunchFdError Empty) (Option UInt64) :=
  if description.hasHandle then do
    let l ← okOr ((label entry.handle).filter fun l => 0 < l ∧ l ≤ maximum) .missingHandle
    value (some l)
  else value none

def planEntry (describe : H → Option LaunchFdDescription) (label : H → Option UInt64) :
    Option (Entry H) → Outcome (LaunchFdError Empty) (Option UInt64 × Option UInt64)
  | none => value (none, none)
  | some entry => do
    let (description, metadata) ← launchEntryMetadata entry describe
    let handle ← planHandle maximum label description entry
    value (handle, some metadata)

def planSlot (table : FdTable H) (describe : H → Option LaunchFdDescription)
    (label : H → Option UInt64) (index : ℕ) : Eff (List ContextUpdate) (LaunchFdError Empty) Unit := do
  let key ← lift (okOr (fdHandleKey index) .invalidDescriptor)
  let metadataKey ← lift (okOr (fdMetadataKey index) .invalidDescriptor)
  let (handle, metadata) ← lift (planEntry maximum describe label (inheritable table index))
  putUpdate (index * 2) ⟨if handle.isSome then .setHandle else .removeHandle, key, handle.getD 0⟩
  putUpdate (index * 2 + 1) ⟨if metadata.isSome then .setValue else .removeValue, metadataKey, metadata.getD 0⟩

/-- The world is `output`. -/
def planLaunchContext (table : FdTable H) (descriptorLimit : ℕ)
    (describe : H → Option LaunchFdDescription) (label : H → Option UInt64) :
    Eff (List ContextUpdate) (LaunchFdError Empty) ℕ := do
  let output ← Eff.get
  lift (reject (defaultFdLimit < descriptorLimit ∨ output.length < descriptorLimit * 2 + 1) .invalidDescriptor)
  forRange (fun index _ => planSlot maximum table describe label index) descriptorLimit ()
  putUpdate (descriptorLimit * 2) ⟨.setValue, fdTableKey, fdTableVersion⟩
  pure (descriptorLimit * 2 + 1)

end Plan

/-! ## Restoring -/

section Restore

variable {H E ε : Type}

abbrev RestoreWorld (H E ε : Type) : Type := LaunchContext H E × FdTable H × HandleOps H ε

def replaceTable : Eff (RestoreWorld H E ε) (LaunchFdError E) Unit := fun w => (value (), w.1, FdTable.new, w.2.2)

/-- `table.install_at(fd, entry, operations).map_err(|_| InvalidDescriptor)`. -/
def installRestored (fd : ℤ) (entry : Entry H) : Eff (RestoreWorld H E ε) (LaunchFdError E) Unit := fun w =>
  match w.2.1.installAt fd entry w.2.2 with
  | (.ok (), table, operations) => (value (), w.1, table, operations)
  | (.error _, table, operations) => (failed .invalidDescriptor, w.1, table, operations)

def attachmentOf (requiresHandle : Bool) (handle : Option H) :
    Eff (LaunchContext H E) (LaunchFdError E) (Option (H × UInt64)) :=
  match requiresHandle, handle with
  | true, some handle => do
    let rights ← getHandleRights handle
    pure (some (handle, rights))
  | true, none => lift (failed .missingHandle)
  | false, some _ => lift (failed .unexpectedHandle)
  | false, none => pure none

abbrev Restorer (H : Type) : Type := InheritedFdMetadata → Option (H × UInt64) → Option H

/-- The body of the loop after a metadata word was found. -/
def restoreEntry (restore : Restorer H) (index : ℕ) (encoded : UInt64) :
    Eff (RestoreWorld H E ε) (LaunchFdError E) Unit := do
  let metadata ← lift (okOr (decodeInheritedFdMetadata encoded) .invalidMetadata)
  lift (reject (metadata.descriptorFlags &&& inheritedFdDescriptorCloexec ≠ 0) .invalidMetadata)
  let handleKey ← lift (okOr (fdHandleKey index) .invalidDescriptor)
  let handle ← onFst (getHandle handleKey)
  let requiresHandle ← lift (okOr (inheritedFdKindRequiresHandle metadata.kind) .invalidMetadata)
  let attachment ← onFst (attachmentOf requiresHandle handle)
  let rights := attachment.elim 0 Prod.snd
  let handle ← lift (okOr (restore metadata attachment) .invalidMetadata)
  installRestored index ⟨handle, rights, metadata.descriptorFlags.toUInt32⟩

def restoreSlot (restore : Restorer H) (index : ℕ) (restored : Bool) : Eff (RestoreWorld H E ε) (LaunchFdError E) Bool := do
  let metadataKey ← lift (okOr (fdMetadataKey index) .invalidDescriptor)
  match ← onFst (getValue metadataKey) with
  | none => pure restored
  | some encoded => do
    restoreEntry restore index encoded
    pure true

def restoredBefore : Option UInt64 → Outcome (LaunchFdError E) Bool
  | none => value false
  | some version => if version = fdTableVersion then value true else failed .invalidMetadata

def restoreLaunchContext (descriptorLimit : ℕ) (restore : Restorer H) :
    Eff (RestoreWorld H E ε) (LaunchFdError E) Bool := do
  lift (reject (defaultFdLimit < descriptorLimit ∨ 2 ^ 31 - 1 < descriptorLimit) .invalidDescriptor)
  let version ← onFst (getValue fdTableKey)
  let restored ← lift (restoredBefore version)
  replaceTable
  forRange (restoreSlot restore) descriptorLimit restored

end Restore

end MochiSyscalls.PosixClient
