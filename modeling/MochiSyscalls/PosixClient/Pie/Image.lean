import MochiSyscalls.PosixClient.Pie.Symbols

/-! # A captured image

The view of one ELF object: its segments, the relocations its tables ask for, its dependencies and its search names.
Everything is read from the unmodified bytes. -/

namespace MochiSyscalls.PosixClient
open Foundations Checked
set_option autoImplicit false

namespace Pie

/-- `lifecycle::Array`. -/
structure Array where
  address : ℕ
  count : ℕ
  deriving DecidableEq

/-- `lifecycle::Metadata`. -/
structure Metadata where
  init : ℕ
  fini : ℕ
  preinit : Array
  initArray : Array
  finiArray : Array
  deriving DecidableEq

inductive Value where
  | relative (value : ℕ)
  | absolute (value : ℕ)
  | indirect (value : ℕ)
  | symbol (index addend : ℕ)
  | size (index addend width : ℕ)
  | tls (index kind addend : ℕ)
  | copy (index size : ℕ)
  deriving DecidableEq

namespace Value

def «at» (bias : ℕ) : Value → Except Error ℕ
  | .relative value => .ok ((bias + value) % wordLimit)
  | .absolute value => .ok value
  | _ => .error .unsupported

def isCopy : Value → Bool
  | .copy _ _ => true
  | _ => false

end Value

end Pie

structure Pie where
  bytes : List UInt8
  count : ℕ
  entry : ℕ
  relaOffset : ℕ
  relaCount : ℕ
  pltOffset : ℕ
  pltCount : ℕ
  relrOffset : ℕ
  relrCount : ℕ
  retained : ℕ
  symbols : Option Pie.Table
  dynamicSegment : Option Pie.Segment
  linkable : Bool
  symbolic : Bool
  lifecycle : Pie.Metadata
  fixed : Bool

namespace Pie

variable (pie : Pie)

/-! ## Segments -/

def segment (index : ℕ) : Except Error Segment := do
  let offset ← u64At pie.bytes 32
  let o := offset + index * 56
  reject (o ≥ wordLimit) .overflow
  let kind ← u32At pie.bytes o
  let flags ← u32At pie.bytes (o + 4)
  let offset ← u64At pie.bytes (o + 8)
  let address ← u64At pie.bytes (o + 16)
  let file ← u64At pie.bytes (o + 32)
  let memory ← u64At pie.bytes (o + 40)
  let alignment ← u64At pie.bytes (o + 48)
  pure ⟨kind, flags, offset, address, file, memory, alignment⟩

/-- `(0..self.count).any(|i| self.segment(i).is_ok_and(p))`. -/
def anySegment (p : Segment → Bool) : Bool :=
  (List.range pie.count).any fun index =>
    match pie.segment index with
    | .ok s => p s
    | .error _ => false

/-- The first segment, in order, for which a check gives an answer. -/
def findSegment {α : Type} (check : ℕ → Segment → Except Error (Option α)) : List ℕ → Except Error (Option α)
  | [] => .ok none
  | index :: rest => do
    match ← check index (← pie.segment index) with
    | some a => pure (some a)
    | none => findSegment check rest

variable {σ : Type}

/-- The segments in order, as a loop with `?` sees them. -/
def foldSegments (visit : σ → ℕ → Segment → Except Error σ) (s : σ) : Except Error σ :=
  (List.range pie.count).foldlM (fun s index => do visit s index (← pie.segment index)) s

/-- The word at a target, from the file bytes and the zeros behind them. -/
def relativeWord (target : ℕ) : Except Error ℕ := do
  let found ← pie.findSegment (fun _ s => do
    if s.contains target 8 then do
      let within := target - s.address
      let length := min (s.file - within) 8
      let word ← if length = 0 then pure []
        else do
          let range ← extent pie.bytes (← add s.offset within) length
          pure (range.of pie.bytes)
      pure (some (Bytes.ofLe word))
    else pure none) (List.range pie.count)
  okOr found .invalid

def tlsTemplate (bias : ℕ) : Except Error (Option StaticTls.Template) := do
  let table ← u64At pie.bytes 32
  (StaticTls.template (fun address length => do
    let range ← extent pie.bytes address length
    pure (range.of pie.bytes)) table 56 pie.count bias).mapError fun
      | .invalidImage => .invalid
      | .read error => error

/-! ## Definitions -/

def definitionValue : Definition → Except Error Value
  | .absolute value => .ok (.absolute value)
  | .image value size => do
    reject (¬ pie.anySegment (fun s => s.contains value size) = true) .invalid
    pure (.relative value)
  | .tls _ _ => .error .unsupported
  | .indirect _ _ _ => .error .unsupported

def resolverSource (value size : ℕ) : Except Error Unit :=
  reject (¬ pie.anySegment (fun s => s.flags % 2 = 1 && s.contains value (max size 1)) = true) .invalid

def tlsDefinition : Definition → Except Error ℕ
  | .tls value size => do
    let template ← okOr (← pie.tlsTemplate 0) .invalid
    reject ((← add value size) > template.memorySize) .invalid
    pure value
  | _ => .error .invalid

def definitionSize (definition : Definition) (size : ℕ) : Except Error ℕ :=
  match definition with
  | .tls _ _ => do
    let _ ← pie.tlsDefinition definition
    pure size
  | .indirect value extent absolute => do
    if absolute then pure size
    else do
      pie.resolverSource value extent
      pure size
  | _ => do
    let _ ← pie.definitionValue definition
    pure size

/-! ## Relocations -/

/-- `R_X86_64_SIZE32` and `SIZE64`. -/
def sizeValue (symbol addend kind : ℕ) : Except Error Value := do
  let reference ← (← okOr pie.symbols .invalid).entry symbol
  match reference.definition with
  | some definition => do
    let _ ← pie.definitionSize definition reference.size
    pure (.size symbol addend (if kind = 32 then 4 else 8))
  | none => do
    reject (pie.linkable = false ∧ reference.binding ≠ 2) .unsupported
    pure (.size symbol addend (if kind = 32 then 4 else 8))

/-- `R_X86_64_COPY`: the destination is a writable or read-only object of this image. -/
def copyValue (target symbol : ℕ) : Except Error Value := do
  let reference ← (← okOr pie.symbols .invalid).entry symbol
  match ← okOr reference.definition .invalid with
  | .image value size => do
    reject ((reference.kind ≠ 0 ∧ reference.kind ≠ 1) ∨ reference.binding = 0 ∨ reference.visibility ≠ 0 ∨
      reference.name = [] ∨ value ≠ target ∨
      ¬ pie.anySegment (fun s => (s.flags.testBit 1 || s.flags = 4) && s.contains target size) = true) .invalid
    pure (.copy symbol size)
  | _ => .error .invalid

/-- The checks on what a symbol of an address relocation defines. -/
def checkAddress : Definition → Except Error Unit
  | .indirect value size absolute => do
    reject (pie.linkable = false) .unsupported
    if absolute then pure () else pie.resolverSource value size
  | definition => do
    let _ ← pie.definitionValue definition
    pure ()

/-- `R_X86_64_64`, `GLOB_DAT` and `JUMP_SLOT`. -/
def symbolValue (symbol addend kind : ℕ) : Except Error Value := do
  let table ← okOr pie.symbols .unsupported
  let reference ← table.entry symbol
  reject (reference.isTls = true) .unsupported
  reference.definition.toList.forM pie.checkAddress
  let _ ← if pie.linkable then pure () else do
    let _ ← table.definition symbol
    pure ()
  pure (.symbol symbol (if kind = 1 then addend else 0))

/-- `R_X86_64_DTPMOD64`, `DTPOFF64`, `TPOFF64` and `TLSDESC`. -/
def tlsValue (symbol addend kind : ℕ) : Except Error Value := do
  if symbol = 0 then do
    let _ ← okOr (← pie.tlsTemplate 0) .invalid
    pure (.tls symbol kind (if kind = 16 then 0 else addend))
  else do
    let reference ← (← okOr pie.symbols .unsupported).entry symbol
    reject (reference.isTls = false) .invalid
    reference.definition.toList.forM fun definition => do
      let _ ← pie.tlsDefinition definition
      pure ()
    pure (.tls symbol kind (if kind = 16 then 0 else addend))

def relocation (o : ℕ) : Except Error (ℕ × Option Value) := do
  let target ← u64At pie.bytes o
  let info ← u64At pie.bytes (o + 8)
  let kind := info % 2 ^ 32
  let symbol := info / 2 ^ 32
  let addend ← u64At pie.bytes (o + 16)
  if kind = 0 then pure (target, none)
  else if kind = 8 ∧ symbol = 0 then pure (target, some (.relative addend))
  else if kind = 37 ∧ symbol = 0 ∧ pie.linkable = true then do
    pie.resolverSource addend 0
    pure (target, some (.indirect addend))
  else if kind = 32 ∨ kind = 33 then do pure (target, some (← pie.sizeValue symbol addend kind))
  else if kind = 5 ∧ pie.linkable = true then do pure (target, some (← pie.copyValue target symbol))
  else if kind = 1 ∨ kind = 6 ∨ kind = 7 then do pure (target, some (← pie.symbolValue symbol addend kind))
  else if ((16 ≤ kind ∧ kind ≤ 18) ∨ kind = 36) ∧ pie.linkable = true then do
    pure (target, some (← pie.tlsValue symbol addend kind))
  else .error .unsupported

/-- A relocation as a loop meets it: a target with a value, or the error that ends the loop. -/
abbrev Item := Except Error (ℕ × Value)

def relativeItem (target : ℕ) : Item := do
  let value ← pie.relativeWord target
  pure (target, .relative value)

/-- The words a bitmap of RELR stands for: bit `i` is the word `i - 1` behind the cursor. -/
def bitmapItems (base word : ℕ) : List Item :=
  ((List.range' 1 63).filter fun bit => word.testBit bit).map fun bit => do
    let target ← add base ((bit - 1) * 8)
    pie.relativeItem target

def relrItems : List ℕ → Option ℕ → List Item
  | [], _ => []
  | index :: rest, cursor =>
    match u64At pie.bytes (pie.relrOffset + index * 8) with
    | .error e => [.error e]
    | .ok word =>
      if word % 2 = 0 then
        pie.relativeItem word ::
          match add word 8 with
          | .error e => [.error e]
          | .ok cursor => relrItems rest (some cursor)
      else
        match cursor with
        | none => [.error .invalid]
        | some base =>
          match add base (63 * 8) with
          | .error e => [.error e]
          | .ok last => pie.bitmapItems base word ++ relrItems rest (some last)

def relaItems (offset count : ℕ) : List Item :=
  (List.range count).flatMap fun index =>
    match pie.relocation (offset + index * 24) with
    | .error e => [.error e]
    | .ok (target, some value) => [.ok (target, value)]
    | .ok (_, none) => []

def items : List Item :=
  pie.relrItems (List.range pie.relrCount) none ++ pie.relaItems pie.relaOffset pie.relaCount ++
    pie.relaItems pie.pltOffset pie.pltCount

def relocations (apply : σ → ℕ → Value → Except Error σ) (s : σ) : Except Error σ :=
  Streams.consume id (fun s item => apply s item.1 item.2) s pie.items

def hasCopies : Except Error Bool := pie.relocations (fun copies _ value => .ok (copies || value.isCopy)) false

/-! ## The dynamic section -/

/-- The entries of the dynamic section up to its terminator; `true` if there is one. -/
def scanDynamic (bytes : List UInt8) (visit : σ → ℕ → ℕ → Except Error σ) :
    List ℕ → σ → Except Error (σ × Bool)
  | [], s => .ok (s, false)
  | offset :: rest, s => do
    let tag ← u64At bytes offset
    if tag = 0 then pure (s, true)
    else do scanDynamic bytes visit rest (← visit s tag offset)

/-- A scan of the dynamic section of the image, if it has one. -/
def foldDynamic (visit : σ → ℕ → ℕ → Except Error σ) (s : σ) : Except Error σ :=
  match pie.dynamicSegment with
  | none => .ok s
  | some dynamic => do
    let range ← extent pie.bytes dynamic.offset dynamic.file
    let (s, _) ← scanDynamic pie.bytes visit (range.stepBy 16) s
    pure s

def dynamicString (offset : ℕ) : Except Error (List UInt8) := do
  let table ← okOr pie.symbols .invalid
  table.string (← u64At pie.bytes (offset + 8))

/-- The names of the dependencies among the entries, up to the terminator. -/
def neededItems : List ℕ → List (Except Error (List UInt8))
  | [] => []
  | offset :: rest =>
    match u64At pie.bytes offset with
    | .error e => [.error e]
    | .ok tag =>
      if tag = 0 then []
      else if tag = 1 then
        (do
          let name ← pie.dynamicString offset
          reject (name = []) .invalid
          pure name) :: neededItems rest
      else neededItems rest

def dependencyItems : List (Except Error (List UInt8)) :=
  match pie.dynamicSegment with
  | none => []
  | some dynamic =>
    match extent pie.bytes dynamic.offset dynamic.file with
    | .error e => [.error e]
    | .ok range => pie.neededItems (range.stepBy 16)

/-- `DT_NEEDED` names in source order; the visitor may fail in its own way. -/
def dependencies {ε : Type} (lift : Error → ε) (visit : σ → List UInt8 → Except ε σ) (s : σ) : Except ε σ :=
  Streams.consume lift visit s pie.dependencyItems

def soname : Except Error (Option (List UInt8)) :=
  pie.foldDynamic (fun name tag offset =>
    if tag = 14 then do
      let value ← pie.dynamicString offset
      reject (value = [] ∨ name.isSome) .invalid
      pure (some value)
    else .ok name) none

/-! ## The image in memory -/

def alignment : ℕ :=
  (List.range pie.count).foldl (fun a index =>
    match pie.segment index with
    | .ok s => if s.kind = Kind.load then max a s.alignment else a
    | .error _ => a) pageSize

/-- Where the program headers of the source lie in memory, if a LOAD has them. -/
def sourceProgramHeaders (bias : ℕ) : Except Error (Option ℕ) := do
  let offset ← u64At pie.bytes 32
  let length := pie.count * 56
  pie.findSegment (fun _ s => do
    if s.kind = Kind.load ∧ s.offset ≤ offset then do
      let stop ← add offset length
      let last ← add s.offset s.file
      if stop ≤ last then some <$> (do add (← add s.address (offset - s.offset)) bias) else pure none
    else pure none) (List.range pie.count)

def metadataHeaderBytes : ℕ := 64 + (pie.retained + 2) * 56

def metadataBytes : Except Error ℕ := do
  let copy := if (← pie.sourceProgramHeaders 0).isNone then pie.count * 56 else 0
  page (← add pie.metadataHeaderBytes copy)

/-- The pages of the LOADs, from the lowest to the highest. -/
def loadBounds : Except Error (ℕ × ℕ) := do
  let (start, stop) ← pie.foldSegments (fun (bounds : ℕ × ℕ) _ s =>
    if s.kind = Kind.load ∧ s.memory ≠ 0 then do
      let last ← page (← add s.address s.memory)
      pure (min bounds.1 (pageDown s.address), max bounds.2 last)
    else .ok bounds) (wordLimit - 1, 0)
  reject (start = wordLimit - 1) .invalid
  pure (start, stop)

def metadataAddress (bias : ℕ) : Except Error ℕ := do
  let (start, stop) ← pie.loadBounds
  let address ← if pie.fixed then do
      reject (bias ≠ 0 ∨ start < userMin) .invalid
      pure stop
    else do
      let first ← add start bias
      let metadata ← pie.metadataBytes
      reject (first < metadata) .invalid
      pure (first - metadata)
  reject (address < userMin) .invalid
  reject ((← add address (← pie.metadataBytes)) > userEnd) .invalid
  pure address

end Pie

end MochiSyscalls.PosixClient
