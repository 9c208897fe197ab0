import MochiSyscalls.PosixClient.Pie.Elf

/-! # Symbol versions

The GNU version tables: the version definitions and needs of an object are chains of records with chains of auxiliary
records. A visit hands over the nodes in order and stops at the first error, so a table is the list of what a visit
meets. -/

namespace MochiSyscalls.PosixClient.Pie
open Foundations Checked
set_option autoImplicit false

abbrev Read := ℕ → ℕ → Except Error (List UInt8)

/-- The text that starts at an offset and ends before the next zero byte. -/
def string (strings : List UInt8) (offset : ℕ) : Except Error (List UInt8) := do
  reject (offset > strings.length) .invalid
  let tail := strings.drop offset
  reject ((0 : UInt8) ∉ tail) .invalid
  pure (tail.takeWhile (· ≠ 0))

def hash (name : List UInt8) : ℕ :=
  (name.foldl (fun (hash : UInt32) byte =>
    let hash := (hash <<< 4) + byte.toUInt32
    let high := hash &&& 0xf0000000
    (hash ^^^ (high >>> 24)) &&& ~~~high) 0).toNat

inductive Version where
  | unversioned
  | local
  | global
  | named (name : List UInt8) (hash index : ℕ) (hidden strict imported : Bool)
  deriving DecidableEq

structure Node where
  index : ℕ
  name : List UInt8
  hash : ℕ
  file : Option (List UInt8)
  weak : Bool
  strict : Bool

/-! ## Chains of records -/

structure Records where
  bytes : List UInt8
  count : ℕ
  definitions : Bool

namespace Records

variable (definitions : Bool)

/-- Where a record and its auxiliary records keep their words, for definitions and for needs. -/
def pick (ofDefinitions ofNeeds : ℕ) : ℕ := if definitions then ofDefinitions else ofNeeds

/-- The auxiliary records of one record: `left` of them, the last with no successor. Returns where the last ends. -/
def captureAux (definitions : Bool) (read : Read) (address offset : ℕ) : ℕ → ℕ → ℕ → Except Error ℕ
  | 0, _, length => .ok length
  | left + 1, aux, _ => do
    let auxiliary := pick definitions 8 16
    let bytes ← read (← add (← add address offset) aux) auxiliary
    let length ← add (← add offset aux) auxiliary
    let next ← u32At bytes (pick definitions 4 12)
    if left = 0 then do
      reject (next ≠ 0) .invalid
      pure length
    else do
      reject (next < auxiliary ∨ next % 4 ≠ 0) .invalid
      captureAux definitions read address offset left (← add aux next) length

def captureRecords (definitions : Bool) (read : Read) (address : ℕ) : ℕ → ℕ → ℕ → Except Error ℕ
  | 0, _, length => .ok length
  | left + 1, offset, length => do
    let header := pick definitions 20 16
    let record ← read (← add address offset) header
    reject ((← u16At record 0) ≠ 1) .unsupported
    let number ← u16At record (pick definitions 6 2)
    reject (number = 0) .invalid
    let aux ← u32At record (pick definitions 12 8)
    reject (aux < header ∨ aux % 4 ≠ 0) .invalid
    let length ← captureAux definitions read address offset number aux length
    let next ← u32At record (pick definitions 16 12)
    if left = 0 then do
      reject (next ≠ 0) .invalid
      pure length
    else do
      reject (next % 4 ≠ 0) .invalid
      let following ← add offset next
      reject (following < length) .invalid
      captureRecords definitions read address left following length

def capture (address count : Option ℕ) (definitions : Bool) (read : Read) : Except Error Records :=
  match address, count with
  | none, none => .ok ⟨[], 0, false⟩
  | some address, some count => do
    reject (count = 0 ∨ count > 0x7fff) .invalid
    let length ← captureRecords definitions read address count 0 0
    let bytes ← read address length
    pure ⟨bytes, count, definitions⟩
  | _, _ => .error .invalid

/-- The node of an auxiliary record; a definition is named by its first one only. -/
def node (strings record bytes : List UInt8) (file : Option (List UInt8)) (index : ℕ) : Except Error (Option Node) := do
  let name ← string strings (← u32At bytes (pick definitions 0 8))
  reject (name = []) .invalid
  if definitions = true ∧ index ≠ 0 then pure none
  else do
    let id ← if definitions then u16At record 4 else u16At bytes 6
    let flags ← if definitions then u16At record 2 else u16At bytes 4
    let digest ← if definitions then u32At record 8 else u32At bytes 0
    reject (if definitions then flags / 4 ≠ 0 else flags ≠ 0 ∧ flags ≠ 2) .unsupported
    let number := id % 0x8000
    reject (hash name ≠ digest ∨ number = 0 ∨
      (definitions = true ∧ (id ≠ number ∨ ¬ (number = 1 ↔ flags % 2 ≠ 0))) ∨ (definitions = false ∧ number = 1)) .invalid
    pure (some ⟨number, name, digest, file, flags.testBit 1, !definitions && id.testBit 15⟩)

/-- What a visit of the auxiliary records of one record meets. -/
def auxNodes (definitions : Bool) (strings record : List UInt8) (file : Option (List UInt8)) :
    ℕ → ℕ → ℕ → List (Except Error Node)
  | 0, _, _ => []
  | left + 1, index, aux =>
    let bytes := record.drop aux
    match node definitions strings record bytes file index with
    | .error e => [.error e]
    | .ok found =>
      found.toList.map .ok ++
        match u32At bytes (pick definitions 4 12) with
        | .error e => [.error e]
        | .ok next => auxNodes definitions strings record file left (index + 1) (aux + next)

/-- The head of a record: how many auxiliary records it has, the file it is about and where they start. -/
def recordHead (strings record : List UInt8) : Except Error (ℕ × Option (List UInt8) × ℕ) := do
  let number ← u16At record (pick definitions 6 2)
  let file ← if definitions then pure none else some <$> (do string strings (← u32At record 4))
  reject (file = some []) .invalid
  let aux ← u32At record (pick definitions 12 8)
  pure (number, file, aux)

def recordNodes (r : Records) (strings : List UInt8) : ℕ → ℕ → List (Except Error Node)
  | 0, _ => []
  | left + 1, offset =>
    let record := r.bytes.drop offset
    match recordHead r.definitions strings record with
    | .error e => [.error e]
    | .ok (number, file, aux) =>
      auxNodes r.definitions strings record file number 0 aux ++
        match u32At record (pick r.definitions 16 12) with
        | .error e => [.error e]
        | .ok next => recordNodes r strings left (offset + next)

def nodes (r : Records) (strings : List UInt8) : List (Except Error Node) := recordNodes r strings r.count 0

def visit {σ : Type} (r : Records) (strings : List UInt8) (visit : σ → Node → Except Error σ) (s : σ) : Except Error σ :=
  Streams.consume id visit s (r.nodes strings)

end Records

/-! ## The tables of an object -/

structure VersionTags where
  symbols : Option ℕ
  definitions : Option ℕ
  definitionCount : Option ℕ
  needs : Option ℕ
  needCount : Option ℕ

structure Versions where
  symbols : List UInt8
  strings : List UInt8
  definitions : Records
  needs : Records

namespace Versions

structure Indices where
  seen : List ℕ
  defined : List ℕ

def Indices.insert (s : Indices) (node : Node) : Except Error Indices := do
  reject (node.index ∈ s.seen) .invalid
  pure ⟨node.index :: s.seen, if node.file.isNone then node.index :: s.defined else s.defined⟩

def checkSymbol (symbols entries : List UInt8) (s : Indices) (index : ℕ) : Except Error Unit := do
  let raw ← u16At symbols (index * 2)
  let id := raw % 0x8000
  reject ((index = 0 ∧ raw ≠ 0) ∨ (id ≤ 1 ∧ raw ≠ id)) .invalid
  if 1 < id then do
    reject (id ∉ s.seen) .invalid
    let «section» ← u16At entries (index * 24 + 6)
    reject («section» = 0 ∧ id ∈ s.defined) .unsupported
  else pure ()

def parse (tags : VersionTags) (entries strings : List UInt8) (read : Read) : Except Error Versions := do
  let definitions ← Records.capture tags.definitions tags.definitionCount true read
  let needs ← Records.capture tags.needs tags.needCount false read
  let symbols ← match tags.symbols with
    | some address => read address (entries.length / 24 * 2)
    | none => if definitions.count = 0 ∧ needs.count = 0 then pure [] else .error .invalid
  let s ← definitions.visit strings Indices.insert ⟨[], []⟩
  let s ← needs.visit strings Indices.insert s
  (List.range (symbols.length / 2)).forM (checkSymbol symbols entries s)
  pure ⟨symbols, strings, definitions, needs⟩

/-- The version of a node, for a symbol with the raw version word `raw`. -/
def named (raw : ℕ) (found : Option Version) (node : Node) : Option Version :=
  if node.index = raw % 0x8000 then
    some (.named node.name node.hash (raw % 0x8000) (raw.testBit 15) node.strict node.file.isSome)
  else found

def «at» (v : Versions) (index : ℕ) : Except Error Version :=
  if v.symbols = [] then .ok .unversioned
  else do
    let raw ← u16At v.symbols (index * 2)
    if raw % 0x8000 = 0 then pure .local
    else if raw % 0x8000 = 1 then pure .global
    else do
      let found ← v.definitions.visit v.strings (fun found node => .ok (named raw found node)) none
      let found ← v.needs.visit v.strings (fun found node => .ok (named raw found node)) found
      okOr found .invalid

def provides (v : Versions) (name : List UInt8) (hash : ℕ) : Except Error Bool :=
  v.definitions.visit v.strings
    (fun found node => .ok (found || (node.index ≠ 1 && node.hash = hash && node.name = name)))
    (v.definitions.count = 0)

end Versions

end MochiSyscalls.PosixClient.Pie
