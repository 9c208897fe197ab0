import MochiSyscalls.PosixClient.Pie.Versions
import MochiSyscalls.PosixClient.StaticTls

/-! # Dynamic symbols

The symbol table of an object, captured through its hash tables: how many symbols there are is what the hash tables
say, never what the neighbouring tables suggest. Looking a name up walks one chain of a hash table. -/

namespace MochiSyscalls.PosixClient.Pie
open Foundations Checked Loops
set_option autoImplicit false

inductive Query where
  | reference (required : Version)
  | export (version : Option (List UInt8 × ℕ))

inductive Definition where
  | absolute (value : ℕ)
  | image (value size : ℕ)
  | tls (value size : ℕ)
  | indirect (value size : ℕ) (absolute : Bool)
  deriving DecidableEq

inductive Lookup where
  | sysv (buckets chains : List UInt8)
  | gnu (buckets chains : List UInt8) (first : ℕ)

structure Entry where
  size : ℕ
  name : List UInt8
  binding : ℕ
  visibility : ℕ
  definition : Option Definition
  isTls : Bool
  kind : ℕ
  version : Version
  deriving DecidableEq

/-- The words of the dynamic section that describe the symbols. -/
structure SymbolTags where
  hash : Option ℕ
  strings : Option ℕ
  entries : Option ℕ
  stringSize : Option ℕ
  entrySize : Option ℕ
  gnuHash : Option ℕ

structure Table where
  entries : List UInt8
  strings : List UInt8
  versions : Versions
  lookup : Lookup

namespace Table

/-! ## Capturing the table -/

variable (read : Read)

/-- The System V hash table: its buckets and chains, and the number of symbols. -/
def parseHash (address : ℕ) : Except Error (Lookup × ℕ) := do
  let header ← read address 8
  let buckets ← u32At header 0
  let chains ← u32At header 4
  reject (buckets = 0 ∨ chains = 0) .invalid
  let table ← read address (← add 8 ((← add buckets chains) * 4))
  (Span.mk 8 table.length |>.stepBy 4).forM fun offset => do reject ((← u32At table offset) ≥ chains) .invalid
  let split := 8 + buckets * 4
  pure (.sysv ((table.take split).drop 8) (table.drop split), chains)

/-- The end of the chain that starts at the highest bucket: one past the last hashed symbol. -/
def chainEnd (chainBase first : ℕ) : Loop ℕ ℕ Error where
  body last := do
    let offset := (last - first) * 4
    reject (offset ≥ wordLimit) .overflow
    let word ← u32At (← read (← add chainBase offset) 4) 0
    let last ← add last 1
    pure (if word % 2 ≠ 0 then .done last else .again last)
  measure last := wordLimit - last
  descends last last' h := by
    iterate 4 obtain ⟨_, _, h⟩ := bind_eq_ok.1 h
    obtain ⟨next, hnext, h⟩ := bind_eq_ok.1 h
    obtain ⟨hlt, rfl⟩ := add_eq_ok.1 hnext
    split at h
    · cases h
    · cases h
      omega

/-- The highest bucket of a GNU hash table, none of which may name an unhashed symbol. -/
def highestBucket (table : List UInt8) (first : ℕ) (offsets : List ℕ) : Except Error ℕ :=
  offsets.foldlM (fun highest offset => do
    let bucket ← u32At table offset
    reject (bucket ≠ 0 ∧ bucket < first) .invalid
    pure (max highest bucket)) 0

/-- The GNU hash table; `count` is what a System V table said before. -/
def parseGnuHash (requiredSymbols : ℕ) (count : Option ℕ) (address : ℕ) : Except Error (Lookup × ℕ) := do
  let header ← read address 16
  let buckets ← u32At header 0
  let first ← u32At header 4
  let bloom ← u32At header 8
  reject (buckets = 0 ∨ first = 0 ∨ ¬ StaticTls.powerOfTwo bloom) .invalid
  let bucketOffset ← add 16 (bloom * 8)
  let table ← read address (← add bucketOffset (buckets * 4))
  let highest ← highestBucket table first (Span.mk bucketOffset table.length |>.stepBy 4)
  let last ← if highest = 0 then pure first else do (chainEnd read (← add address table.length) first).run highest
  reject (count.any fun count => if highest = 0 then first > count else count ≠ last) .invalid
  let chainAddress ← add address table.length
  reject ((last - first) * 4 ≥ wordLimit) .overflow
  let chains ← read chainAddress ((last - first) * 4)
  pure (.gnu (table.drop bucketOffset) chains first,
    if highest = 0 then count.getD (max first requiredSymbols) else last)

/-- The lookup structure and the number of symbols, from the hash tables there are. -/
def parseLookup (requiredSymbols : ℕ) (hash gnuHash : Option ℕ) : Except Error (Option (Lookup × ℕ)) := do
  let sysv ← match hash with
    | some address => some <$> parseHash read address
    | none => pure none
  match gnuHash with
    | some address => some <$> parseGnuHash read requiredSymbols (sysv.map Prod.snd) address
    | none => pure sysv

def parse (tags : SymbolTags) (versionTags : VersionTags) (requiredSymbols : ℕ) (read : Read) : Except Error Table := do
  reject (tags.entrySize ≠ some 24) .invalid
  let (lookup, count) ← okOr (← parseLookup read requiredSymbols tags.hash tags.gnuHash) .unsupported
  reject (count < requiredSymbols) .invalid
  let entriesAddress ← okOr tags.entries .invalid
  reject (count * 24 ≥ wordLimit) .overflow
  let entries ← read entriesAddress (count * 24)
  let stringsAddress ← okOr tags.strings .invalid
  let stringSize ← okOr tags.stringSize .invalid
  let strings ← read stringsAddress stringSize
  reject ((∃ byte ∈ entries.take 24, byte ≠ 0) ∨ strings.head? ≠ some 0 ∨ strings.getLast? ≠ some 0) .invalid
  let versions ← Versions.parse versionTags entries strings read
  pure ⟨entries, strings, versions, lookup⟩

/-! ## Entries -/

variable (t : Table)

def string (offset : ℕ) : Except Error (List UInt8) := Pie.string t.strings offset

variable (index : ℕ)

def raw : Except Error (List UInt8) := do
  reject (index * 24 + 24 ≥ wordLimit) .overflow
  okOr (Bytes.slice t.entries (index * 24) (index * 24 + 24)) .invalid

def byteAt (bytes : List UInt8) (offset : ℕ) : ℕ := (bytes.getD offset 0).toNat

def entryDefinition («section» kind value size : ℕ) : Except Error (Option Definition) :=
  if «section» = 0 then .ok (if index = 0 then some (.absolute 0) else none)
  else if «section» = 0xfff1 ∧ kind = 10 then .ok (some (.indirect value size true))
  else if «section» = 0xfff1 ∧ kind ≠ 6 then .ok (some (.absolute value))
  else if 0xff00 ≤ «section» then .error .unsupported
  else if kind = 6 then .ok (some (.tls value size))
  else if kind = 10 then .ok (some (.indirect value size false))
  else .ok (some (.image value size))

def entry : Except Error Entry := do
  let raw ← t.raw index
  let name ← t.string (← u32At raw 0)
  let binding := byteAt raw 4 / 16
  let kind := byteAt raw 4 % 16
  reject (binding > 2 ∨ ¬ (kind ≤ 3 ∨ kind = 6 ∨ kind = 10) ∨ byteAt raw 5 / 4 ≠ 0) .unsupported
  let «section» ← u16At raw 6
  let value ← u64At raw 8
  let size ← u64At raw 16
  let definition ← entryDefinition index «section» kind value size
  let version ← t.versions.at index
  pure ⟨size, name, binding, byteAt raw 5, definition, kind = 6, kind, version⟩

def definition : Except Error Definition := do
  let entry ← t.entry index
  okOr (entry.definition.or (if entry.binding = 2 then some (.absolute 0) else none)) .unsupported

/-- The check of one entry that defines an imported version: it must be the destination of a copy. -/
def validateImported (copied : ℕ → ℕ → Except Error Bool) (index : ℕ) : Except Error Unit := do
  let raw := (t.entries.drop (index * 24)).take 24
  if (← u16At raw 6) = 0 then pure ()
  else match ← t.versions.at index with
    | .named _ _ _ _ _ true => do
      let entry ← t.entry index
      match entry.definition with
      | some (.image value size) => do
        reject (entry.kind ≠ 0 ∧ entry.kind ≠ 1) .invalid
        reject (¬ (← copied value size) = true) .invalid
      | _ => .error .invalid
    | _ => pure ()

def validateImportedDefinitions (copied : ℕ → ℕ → Except Error Bool) : Except Error Unit :=
  (List.range (t.entries.length / 24)).forM (t.validateImported copied)

/-! ## Matching -/

/-- How a version answers a query: `none` not at all, `some false` at once, `some true` only for want of another. -/
def accepts : Query → Version → Option Bool
  | .export none, .local => none
  | .export none, .named _ _ _ hidden _ _ => if hidden then none else some true
  | .export none, _ => some false
  | .export (some (requested, digest)), .named name hash _ _ _ _ =>
    if name = requested ∧ hash = digest then some false else none
  | .export (some _), .unversioned => some false
  | .export (some (requested, _)), .global => if requested = [] then some false else none
  | .export (some _), .local => none
  | .reference _, .local => none
  | .reference .local, _ => none
  | .reference (.named name hash _ _ _ _), .named other digest _ _ _ _ =>
    if name ≠ other ∨ hash ≠ digest then none else some false
  | .reference (.named _ _ _ _ strict _), .global => if strict then none else some true
  | .reference (.named _ _ _ _ _ _), .unversioned => some false
  | .reference _, .named _ _ index hidden _ _ => if index = 2 then some false else if hidden then none else some true
  | .reference _, _ => some false

/-- Whether an entry may answer an external lookup at all. -/
def exported (query : Query) (raw : List UInt8) («section» : ℕ) : Bool :=
  byteAt raw 4 / 16 ≠ 0 && !(byteAt raw 5 % 4 = 1 || byteAt raw 5 % 4 = 2) && «section» ≠ 0 &&
    match query with
    | .export _ => !(byteAt raw 4 % 16 = 3 || byteAt raw 4 % 16 = 4)
    | .reference _ => true

def matching (name : List UInt8) (query : Query) : Except Error (Option (Entry × Bool)) := do
  let raw ← t.raw index
  if (← t.string (← u32At raw 0)) ≠ name then pure none
  else if !exported query raw (← u16At raw 6) then pure none
  else match accepts query (← t.versions.at index) with
    | none => pure none
    | some fallback => do
      let entry ← t.entry index
      if entry.binding ≠ 0 ∧ ¬ (entry.visibility = 1 ∨ entry.visibility = 2) ∧ entry.definition.isSome then
        pure (some (entry, fallback))
      else pure none

/-! ## Lookup -/

/-- What a lookup has met so far: how many deferred matches, and the last of them. -/
structure Found where
  count : ℕ
  fallback : Option Entry

def Found.result (f : Found) : Option Entry := if f.count = 1 then f.fallback else none

variable (name : List UInt8)

/-- One symbol of a chain: an immediate match ends the lookup. -/
def consider (query : Query) (index : ℕ) (f : Found) : Except Error (Pass Found Entry) := do
  match ← t.matching index name query with
  | some (entry, false) => pure (.done entry)
  | some (entry, true) => pure (.again ⟨f.count + 1, some entry⟩)
  | none => pure (.again f)

def gnuHash : ℕ := (name.foldl (fun (hash : UInt32) byte => hash * 33 + byte.toUInt32) 5381).toNat

/-- The System V chain from a symbol on, in at most as many passes as there are symbols. -/
def sysvChain (t : Table) (chains : List UInt8) (name : List UInt8) (query : Query) :
    ℕ → ℕ → Found → Except Error (Option Entry)
  | 0, _, _ => .error .invalid
  | passes + 1, index, f =>
    if index = 0 then .ok f.result
    else do
      match ← t.consider name query index f with
      | .done entry => pure (some entry)
      | .again f => sysvChain t chains name query passes (← u32At chains (index * 4)) f

/-- A symbol of a GNU chain is compared only if its hash agrees in all bits but the last. -/
def gnuStep (query : Query) (chain index : ℕ) (f : Found) : Except Error (Pass Found Entry) :=
  if chain / 2 = gnuHash name / 2 then t.consider name query index f else .ok (.again f)

def gnuChain (chains : List UInt8) (first : ℕ) (name : List UInt8) (query : Query) :
    Loop (ℕ × Found) (Option Entry) Error where
  body s := do
    reject (s.1 < first) .invalid
    let chain ← u32At chains ((s.1 - first) * 4)
    match ← t.gnuStep name query chain s.1 s.2 with
    | .done entry => pure (.done (some entry))
    | .again f =>
      if chain % 2 ≠ 0 then pure (.done f.result)
      else do
        reject (s.1 + 1 ≥ 2 ^ 32) .overflow
        pure (.again (s.1 + 1, f))
  measure s := 2 ^ 32 - s.1
  descends s s' h := by
    iterate 2 obtain ⟨_, _, h⟩ := bind_eq_ok.1 h
    obtain ⟨pass, _, h⟩ := bind_eq_ok.1 h
    cases pass with
    | done entry => cases h
    | again f =>
      simp only at h
      split at h
      · cases h
      · obtain ⟨_, hlt, h⟩ := bind_eq_ok.1 h
        cases h
        have hbound := reject_eq_ok.1 hlt
        simp only
        omega

def findQuery (query : Query) : Except Error (Option Entry) :=
  match t.lookup with
  | .sysv buckets chains => do
    let index ← u32At buckets (hash name % (buckets.length / 4) * 4)
    t.sysvChain chains name query (t.entries.length / 24) index ⟨0, none⟩
  | .gnu buckets chains first => do
    let index ← u32At buckets (gnuHash name % (buckets.length / 4) * 4)
    if index = 0 then pure none else (t.gnuChain chains first name query).run (index, ⟨0, none⟩)

def findVersioned (required : Version) : Except Error (Option Entry) :=
  t.findQuery name (.reference required)

def find : Except Error (Option Entry) := t.findVersioned name .global

def findExport (version : Option (List UInt8)) : Except Error (Option Entry) :=
  t.findQuery name (.export (version.map fun v => (v, hash v)))

/-! ## Requirements -/

def requirements {σ : Type} (t : Table) (visit : σ → List UInt8 → List UInt8 → ℕ → Bool → Except Error σ) (s : σ) :
    Except Error σ :=
  t.versions.needs.visit t.versions.strings (fun s node => do
    visit s (← okOr node.file .invalid) node.name node.hash node.weak) s

def provides (hash : ℕ) : Except Error Bool := t.versions.provides name hash

end Table

end MochiSyscalls.PosixClient.Pie
