import MochiSyscalls.Foundations.Effects
import MochiSyscalls.Foundations.Utf8
import MochiSyscalls.PosixClient.StaticTls

/-! # Process-entry stacks

The encoder of the initial stack of a process: the argument and environment vectors, the auxiliary vector, and behind
them the texts and images they point to. The native codec that takes the stack is a parameter. -/

namespace MochiSyscalls.PosixClient.ProcessImage
open Foundations Bytes Effects Utf8
open Foundations.Effects.Outcome (reject okOr)
open StaticTls (checkedAdd checkedMul)
set_option autoImplicit false

inductive EncodeError (κ : Type) where
  | emptyArgumentVector
  | invalidText
  | imageTooLarge
  | codec (e : κ)

inductive RelocationKind where
  | stackAddress
  | elfProgramHeaders
  | elfProgramHeaderSize
  | elfProgramHeaderCount
  | pageSize
  | elfEntry
  deriving DecidableEq

structure Relocation where
  offset : ℕ
  kind : RelocationKind
  deriving DecidableEq

/-- `mnu_abi::process_image`. -/
structure Wire (κ : Type) where
  maxStackBytes : ℕ
  maxRelocations : ℕ
  /-- Flags, stack, relocations and the output buffer. -/
  encode : ℕ → List UInt8 → List Relocation → List UInt8 → Except κ (ℕ × List UInt8)

def atNull : ℕ := 0
def atPhdr : ℕ := 3
def atPhent : ℕ := 4
def atPhnum : ℕ := 5
def atPagesz : ℕ := 6
def atBase : ℕ := 7
def atFlags : ℕ := 8
def atEntry : ℕ := 9
def atUid : ℕ := 11
def atEuid : ℕ := 12
def atGid : ℕ := 13
def atEgid : ℕ := 14
def atHwcap : ℕ := 16
def atClktck : ℕ := 17
def atSecure : ℕ := 23
def atRandom : ℕ := 25
def atExecfn : ℕ := 31
def atImageLoadBias : ℕ := 0x6d000004
def atLifecycleImage : ℕ := 0x6d000005
def atTlsImage : ℕ := 0x6d000006
def atIndirectImage : ℕ := 0x6d000007

def auxiliaryVectorEntries : ℕ := 18

/-- `accounting::CLOCK_TICKS_PER_SECOND`. -/
def clockTicksPerSecond : ℕ := 1000

/-! ## Processes -/

structure Executable where
  entry : UInt64
  programHeaders : UInt64
  programHeaderSize : UInt64
  programHeaderCount : UInt64
  interpreterBase : UInt64
  loadBias : UInt64

structure Identity where
  realUid : UInt32
  effectiveUid : UInt32
  realGid : UInt32
  effectiveGid : UInt32

variable (identity : Identity)

def Identity.isSecure : Bool :=
  identity.realUid != identity.effectiveUid || identity.realGid != identity.effectiveGid

def loaderControls : List (List UInt8) := [ascii "LD_LIBRARY_PATH", ascii "LD_PRELOAD", ascii "LD_AUDIT"]

def Identity.allowsEnvironment (entry : List UInt8) : Bool :=
  !identity.isSecure || !loaderControls.any fun name =>
    name.isPrefixOf entry && (ascii "=").isPrefixOf (entry.drop name.length)

structure Process where
  image : Option Executable
  identity : Identity
  lifecycle : List UInt8
  tls : List UInt8
  indirect : List UInt8

/-- `startup_metadata::Layout`: where the images lie when they are mapped and not on the stack. -/
structure Layout where
  base : ℕ
  length : ℕ
  spans : List (ℕ × ℕ)

def Layout.address (layout : Layout) (index : ℕ) : Option ℕ :=
  (layout.spans[index]?.filter fun span => span.2 ≠ 0).map fun span => layout.base + span.1

/-! ## Sizes -/

section Encode

variable {κ : Type}

def checkKeys : List (UInt64 × UInt64) → List (UInt64 × UInt64) → Outcome (EncodeError κ) Unit
  | _, [] => pure ()
  | before, (key, value) :: rest => do
    reject (key.toNat ≤ atExecfn ∨ key.toNat = atImageLoadBias ∨ key.toNat = atLifecycleImage ∨ key.toNat = atTlsImage ∨
      key.toNat = atIndirectImage ∨ before.any (fun other => other.1 == key) = true) .invalidText
    checkKeys (before ++ [(key, value)]) rest

def addText (total : ℕ) (value : List UInt8) : Outcome (EncodeError κ) ℕ :=
  okOr (do checkedAdd (← checkedAdd total value.length) 1) .imageTooLarge

def checkedTextSize (values : List (List UInt8)) : Outcome (EncodeError κ) ℕ :=
  values.foldlM (fun total value => do
    reject (0 ∈ value) .invalidText
    addText total value) 0

/-- One entry of the environment: the count and the bytes of those that are kept. -/
def addEnvironment (identity : Identity) (total : ℕ × ℕ) (entry : List UInt8) : Outcome (EncodeError κ) (ℕ × ℕ) := do
  reject (0 ∈ entry) .invalidText
  if identity.allowsEnvironment entry then do
    pure (total.1 + 1, ← addText total.2 entry)
  else pure total

def present (bytes : List UInt8) : ℕ := if bytes.isEmpty then 0 else 1

def pointerWords (arguments environment auxiliary : ℕ) (process : Process) : Option ℕ := do
  let words ← checkedAdd (← checkedAdd (← checkedAdd (← checkedAdd 1 arguments) 1) environment) 1
  let entries ← checkedAdd auxiliary auxiliaryVectorEntries
  let entries ← checkedAdd entries (present process.lifecycle)
  let entries ← checkedAdd entries (present process.tls)
  let entries ← checkedAdd entries (present process.indirect)
  checkedAdd words (← checkedMul entries 2)

def alignUp (n alignment : ℕ) : Option ℕ :=
  (checkedAdd n (alignment - 1)).map fun value => value / alignment * alignment

variable (mapped : Option Layout)

/-- Where an image goes on the stack, and where the part behind it begins. -/
def placeImage (bytes : List UInt8) (stop : ℕ) : Outcome (EncodeError κ) (ℕ × ℕ) := do
  let offset ← okOr (alignUp stop 8) .imageTooLarge
  if bytes.isEmpty ∨ mapped.isSome then pure (offset, stop)
  else do pure (offset, ← okOr (checkedAdd offset bytes.length) .imageTooLarge)

structure Extents where
  pointerBytes : ℕ
  lifecycle : ℕ
  tls : ℕ
  indirect : ℕ
  stackLength : ℕ

variable (wire : Wire κ)

def measure (argv envp : List (List UInt8)) (execfn : List UInt8) (random : Fixed 16)
    (auxiliary : List (UInt64 × UInt64)) (process : Process) (mapped : Option Layout) : Outcome (EncodeError κ) Extents := do
  let argumentBytes ← checkedTextSize argv
  let (environmentCount, environmentBytes) ← envp.foldlM (addEnvironment process.identity) (0, 0)
  let words ← okOr (pointerWords argv.length environmentCount auxiliary.length process) .imageTooLarge
  let pointerBytes ← okOr (checkedMul words 8) .imageTooLarge
  let unalignedLength ← okOr (do
    checkedAdd (← checkedAdd (← checkedAdd (← checkedAdd (← checkedAdd pointerBytes argumentBytes) environmentBytes)
      random.1.length) execfn.length) 1) .imageTooLarge
  let (lifecycleOffset, lifecycleEnd) ← placeImage mapped process.lifecycle unalignedLength
  let (tlsOffset, tlsEnd) ← placeImage mapped process.tls lifecycleEnd
  let (indirectOffset, payloadLength) ← placeImage mapped process.indirect tlsEnd
  let stackLength ← okOr (alignUp payloadLength 16) .imageTooLarge
  reject (stackLength > wire.maxStackBytes) .imageTooLarge
  pure ⟨pointerBytes, lifecycleOffset, tlsOffset, indirectOffset, stackLength⟩

/-! ## The two cursors -/

/-- The stack in the making: the relocations so far, the next word and the next text. -/
structure Builder where
  stack : List UInt8
  relocations : List Relocation
  cursor : ℕ
  textCursor : ℕ

variable (b : Builder)

def putWord (value : ℕ) : Outcome (EncodeError κ) (Builder × ℕ) := do
  let stop ← okOr (checkedAdd b.cursor 8) .imageTooLarge
  reject (b.stack.length < stop) .imageTooLarge
  reject (2 ^ 32 ≤ b.cursor) .imageTooLarge
  pure (⟨splice b.stack b.cursor (toLe 8 value), b.relocations, stop, b.textCursor⟩, b.cursor)

variable (offset : ℕ)

def pushRelocation (kind : RelocationKind) : Outcome (EncodeError κ) Builder := do
  reject (wire.maxRelocations ≤ b.relocations.length) .imageTooLarge
  pure ⟨b.stack, b.relocations ++ [⟨offset, kind⟩], b.cursor, b.textCursor⟩

def putRelocatedWord (value : ℕ) (kind : RelocationKind) : Outcome (EncodeError κ) Builder := do
  let (b, offset) ← putWord b value
  pushRelocation wire b offset kind

def copyText (value : List UInt8) : Outcome (EncodeError κ) (Builder × ℕ) := do
  let stop ← addText b.textCursor value
  reject (b.stack.length < stop) .imageTooLarge
  pure (⟨splice b.stack b.textCursor (value ++ [0]), b.relocations, b.cursor, stop⟩, b.textCursor)

def putPointer (value : List UInt8) : Outcome (EncodeError κ) Builder := do
  let (b, offset) ← copyText b value
  putRelocatedWord wire b offset .stackAddress

/-- `stack[offset..offset + bytes.len()].copy_from_slice(bytes)`. -/
def store (bytes : List UInt8) : Outcome (EncodeError κ) Builder :=
  if offset + bytes.length ≤ b.stack.length then
    .value ⟨splice b.stack offset bytes, b.relocations, b.cursor, b.textCursor⟩
  else .panicked

def storeImage (bytes : List UInt8) (b : Builder) : Outcome (EncodeError κ) Builder :=
  if !bytes.isEmpty ∧ mapped.isNone then store b offset bytes else pure b

/-! ## The auxiliary vector -/

structure Entry where
  key : ℕ
  value : ℕ
  relocation : Option RelocationKind

def fixedEntries (process : Process) (random execfn : ℕ) : List Entry :=
  [⟨atPhdr, 0, some .elfProgramHeaders⟩, ⟨atPhent, 0, some .elfProgramHeaderSize⟩,
    ⟨atPhnum, 0, some .elfProgramHeaderCount⟩, ⟨atPagesz, 0, some .pageSize⟩, ⟨atBase, 0, none⟩, ⟨atFlags, 0, none⟩,
    ⟨atEntry, 0, some .elfEntry⟩, ⟨atUid, process.identity.realUid.toNat, none⟩,
    ⟨atEuid, process.identity.effectiveUid.toNat, none⟩, ⟨atGid, process.identity.realGid.toNat, none⟩,
    ⟨atEgid, process.identity.effectiveGid.toNat, none⟩, ⟨atHwcap, 0, none⟩, ⟨atClktck, clockTicksPerSecond, none⟩,
    ⟨atSecure, if process.identity.isSecure then 1 else 0, none⟩, ⟨atRandom, random, some .stackAddress⟩,
    ⟨atExecfn, execfn, some .stackAddress⟩, ⟨atImageLoadBias, 0, none⟩, ⟨atNull, 0, none⟩]

def imageEntry (index key offset : ℕ) (bytes : List UInt8) : List Entry :=
  if bytes.isEmpty then []
  else [⟨key, (mapped.bind fun m => m.address index).getD offset, if mapped.isNone then some .stackAddress else none⟩]

def entries (process : Process) (mapped : Option Layout) (auxiliary : List (UInt64 × UInt64)) (x : Extents)
    (random execfn : ℕ) : List Entry :=
  (fixedEntries process random execfn).filter (fun e => e.key ≠ atNull) ++
    imageEntry mapped 0 atLifecycleImage x.lifecycle process.lifecycle ++
    imageEntry mapped 1 atTlsImage x.tls process.tls ++
    imageEntry mapped 2 atIndirectImage x.indirect process.indirect ++
    auxiliary.map (fun e => ⟨e.1.toNat, e.2.toNat, none⟩) ++ [⟨atNull, 0, none⟩]

/-- What a described program says in place of the relocation of the native image. -/
def Executable.supplies (image : Executable) (key : ℕ) : Option UInt64 :=
  if key = atPhdr then some image.programHeaders
  else if key = atPhent then some image.programHeaderSize
  else if key = atPhnum then some image.programHeaderCount
  else if key = atEntry then some image.entry
  else if key = atBase then some image.interpreterBase
  else if key = atImageLoadBias then some image.loadBias
  else none

def Entry.resolve (image : Option Executable) (e : Entry) : ℕ × Option RelocationKind :=
  match image.bind fun image => image.supplies e.key with
  | some value => (value.toNat, none)
  | none => (e.value, e.relocation)

def putValue : ℕ × Option RelocationKind → Outcome (EncodeError κ) Builder
  | (value, some kind) => putRelocatedWord wire b value kind
  | (value, none) => do pure (← putWord b value).1

def putEntry (image : Option Executable) (b : Builder) (e : Entry) : Outcome (EncodeError κ) Builder := do
  let (b, _) ← putWord b e.key
  putValue wire b (e.resolve image)

/-! ## The encoder -/

/-- The stack of the predicted extents and its relocations. -/
def build (argv envp : List (List UInt8)) (execfn : List UInt8) (random : Fixed 16)
    (auxiliary : List (UInt64 × UInt64)) (process : Process) (mapped : Option Layout) (x : Extents) :
    Outcome (EncodeError κ) Builder := do
  let (b, _) ← putWord ⟨List.replicate wire.maxStackBytes 0, [], 0, x.pointerBytes⟩ argv.length
  let b ← argv.foldlM (putPointer wire) b
  let (b, _) ← putWord b 0
  let b ← (envp.filter process.identity.allowsEnvironment).foldlM (putPointer wire) b
  let (b, _) ← putWord b 0
  let randomOffset := b.textCursor
  let b ← store b randomOffset random.1
  let (b, execfnOffset) ← copyText { b with textCursor := b.textCursor + random.1.length } execfn
  let b ← storeImage mapped x.lifecycle process.lifecycle b
  let b ← storeImage mapped x.tls process.tls b
  let b ← storeImage mapped x.indirect process.indirect b
  let b ← (entries process mapped auxiliary x randomOffset execfnOffset).foldlM (putEntry wire process.image) b
  reject (b.cursor ≠ x.pointerBytes ∨ b.textCursor > x.stackLength) .imageTooLarge
  pure b

def encodeProcess (argv envp : List (List UInt8)) (execfn : List UInt8) (random : Fixed 16)
    (auxiliary : List (UInt64 × UInt64)) (process : Process) (mapped : Option Layout) (output : List UInt8) :
    Outcome (EncodeError κ) (ℕ × List UInt8) := do
  checkKeys [] auxiliary
  reject (argv = []) .emptyArgumentVector
  reject (0 ∈ execfn) .invalidText
  let x ← measure wire argv envp execfn random auxiliary process mapped
  let b ← build wire argv envp execfn random auxiliary process mapped x
  match wire.encode 0 (b.stack.take x.stackLength) b.relocations output with
  | .ok result => .value result
  | .error e => .failed (.codec e)

end Encode

end MochiSyscalls.PosixClient.ProcessImage
