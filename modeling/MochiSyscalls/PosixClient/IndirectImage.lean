import MochiSyscalls.Foundations.Checked
import MochiSyscalls.Foundations.Intervals
import MochiSyscalls.Foundations.LittleEndian
import MochiSyscalls.Foundations.PartitionPoint
import MochiSyscalls.Foundations.Pieces
import MochiSyscalls.Foundations.Runs

/-! # Deferred fixups

The record of regions and fixups that a launched image gets for its own runtime to carry out: resolver calls whose results
are stored, and copies of finished bytes. The producer encodes it, the receiver captures and validates it again, and
`execute` carries it out once. -/

namespace MochiSyscalls.PosixClient.IndirectImage
open Foundations Checked BinarySearch Intervals
set_option autoImplicit false

inductive Error (ε : Type) where
  | invalid
  | tooLarge
  | bufferTooSmall
  | read (e : ε)
  | resolve (e : ε)
  | write (e : ε)
  | reentrant
  | failed
  deriving DecidableEq

def magic : ℕ := Bytes.ofLe [0x4d, 0x49, 0x52, 0x45, 0x4c, 0x30, 0x30, 0x31]

def version : ℕ := 1

def copyVersion : ℕ := 2

def headerBytes : ℕ := 40

def regionBytes : ℕ := 24

def fixupBytes : ℕ := 32

def userMin : ℕ := 0x00400000

def userEnd : ℕ := 0x0000800000000000

def wordLimit : ℕ := 2 ^ 64

inductive Access where
  | executable
  | writable
  | readable
  | readExecute
  | readWrite
  deriving DecidableEq

def Access.flags : Access → ℕ
  | .executable => 1
  | .writable => 2
  | .readable => 4
  | .readExecute => 5
  | .readWrite => 6

structure Region where
  address : UInt64
  length : UInt64
  access : Access
  deriving DecidableEq

structure Fixup where
  target : UInt64
  resolver : UInt64
  addend : UInt64
  order : ℕ
  copy : Bool
  deriving DecidableEq

namespace Region

/-- The end of a region as a number; `end` checks it. -/
def stop (r : Region) : ℕ := r.address.toNat + r.length.toNat

def «end» {ε : Type} (r : Region) : Except (Error ε) ℕ := do
  reject (¬ (r.stop < wordLimit ∧ userMin ≤ r.address.toNat ∧ r.length ≠ 0 ∧ r.stop ≤ userEnd)) .invalid
  pure r.stop

end Region

namespace Fixup

def new (target resolver addend : UInt64) : Fixup := ⟨target, resolver, addend, 0, false⟩

def copyOf (target source length : UInt64) : Fixup := ⟨target, source, length, 0, true⟩

def width (f : Fixup) : ℕ := if f.copy then f.addend.toNat else 8

def stop (f : Fixup) : ℕ := f.target.toNat + f.width

end Fixup

def length {ε : Type} (regions fixups : ℕ) : Except (Error ε) ℕ := do
  reject (regions ≥ 2 ^ 32) .tooLarge
  let size := fixups * fixupBytes + (regions * regionBytes + headerBytes)
  reject (size ≥ wordLimit) .tooLarge
  pure size

/-! ## Validation -/

def contains (regions : List Region) (address width : ℕ) (access : Access) : Bool :=
  let index := partitionPoint (fun r => r.address.toNat ≤ address) regions
  if index = 0 then false
  else match regions[index - 1]? with
    | none => false
    | some r =>
      r.access.flags &&& access.flags = access.flags && address + width < wordLimit && address + width ≤ r.stop

def validFixup (regions : List Region) (f : Fixup) : Bool :=
  if f.copy then
    f.width ≠ 0 && contains regions f.target.toNat f.width .writable &&
      contains regions f.resolver.toNat f.width .readable &&
      (f.target.toNat + f.width ≤ f.resolver.toNat || f.resolver.toNat + f.width ≤ f.target.toNat)
  else contains regions f.target.toNat 8 .writable && contains regions f.resolver.toNat 1 .executable

def checkRegions {ε : Type} (regions : List Region) : Except (Error ε) ℕ :=
  regions.foldlM (fun last r => do
    reject (r.address.toNat < last) .invalid
    r.end) userMin

/-- Each fixup is checked and given its place; the first that is not valid ends the loop. -/
def mark (regions : List Region) : ℕ → List Fixup → Bool × List Fixup
  | _, [] => (true, [])
  | index, f :: rest =>
    if validFixup regions f then
      let marked := mark regions (index + 1) rest
      (marked.1, { f with order := index } :: marked.2)
    else (false, f :: rest)

/-- `validate`: whether the plan is valid, and the fixups as it leaves them. -/
def validate {ε : Type} (sort : Sorter Fixup) (regions : List Region) (fixups : List Fixup) :
    Except (Error ε) Unit × List Fixup :=
  match (checkRegions regions : Except (Error ε) ℕ) with
  | .error e => (.error e, fixups)
  | .ok _ =>
    let marked := mark regions 0 fixups
    if marked.1 = false then (.error .invalid, marked.2)
    else
      let sorted := sort.run (·.target.toNat) marked.2
      let overlap := overlapping (·.target.toNat) Fixup.stop sorted
      (if overlap then .error .invalid else .ok (), sort.run Fixup.order sorted)

/-! ## The encoded plan -/

/-- The version of a plan: the second one only if it needs it. -/
def planVersion (regions : List Region) (fixups : List Fixup) : ℕ :=
  if fixups.any (·.copy) || regions.any (fun r => r.access.flags &&& 4 ≠ 0) then copyVersion else version

def header (regions : List Region) (fixups : List Fixup) (size : ℕ) : List UInt8 :=
  [magic, planVersion regions fixups + regions.length * 2 ^ 32, fixups.length, size, 0].flatMap (Bytes.toLe 8)

def regionRow (r : Region) : List UInt8 := [r.address.toNat, r.length.toNat, r.access.flags].flatMap (Bytes.toLe 8)

def fixupRow (f : Fixup) : List UInt8 :=
  [f.target.toNat, f.resolver.toNat, f.addend.toNat, f.copy.toNat].flatMap (Bytes.toLe 8)

def encoded (regions : List Region) (fixups : List Fixup) (size : ℕ) : List UInt8 :=
  header regions fixups size ++ (regions.flatMap regionRow ++ fixups.flatMap fixupRow)

/-- `encode`: the size of the plan, the fixups as validation leaves them, and the output buffer. -/
def encode {ε : Type} (sort : Sorter Fixup) (regions : List Region) (fixups : List Fixup) (out : List UInt8) :
    Except (Error ε) ℕ × List Fixup × List UInt8 :=
  match (length regions.length fixups.length : Except (Error ε) ℕ) with
  | .error e => (.error e, fixups, out)
  | .ok size =>
    if out.length < size then (.error .bufferTooSmall, fixups, out)
    else
      match (validate sort regions fixups : Except (Error ε) Unit × List Fixup) with
      | (.error e, fixups) => (.error e, fixups, out)
      | (.ok _, fixups) => (.ok size, fixups, encoded regions fixups size ++ out.drop size)

/-! ## Capturing -/

section Capture

variable {ε : Type} (read : ℕ → ℕ → Except ε (List UInt8))

def word (bytes : List UInt8) (offset : ℕ) : ℕ := Bytes.ofLe ((bytes.drop offset).take 8)

def accessOf (version flags : ℕ) : Except (Error ε) Access :=
  if flags = 1 then .ok .executable
  else if flags = 2 then .ok .writable
  else if flags = 4 ∧ version = copyVersion then .ok .readable
  else if flags = 5 ∧ version = copyVersion then .ok .readExecute
  else if flags = 6 ∧ version = copyVersion then .ok .readWrite
  else .error .invalid

def readRegion (base version index : ℕ) : Except (Error ε) Region := do
  let bytes ← (read (base + (headerBytes + index * regionBytes)) regionBytes).mapError .read
  let access ← accessOf version (word bytes 16)
  pure ⟨UInt64.ofNat (word bytes 0), UInt64.ofNat (word bytes 8), access⟩

def readFixup (base start version index : ℕ) : Except (Error ε) Fixup := do
  let bytes ← (read (base + (start + index * fixupBytes)) fixupBytes).mapError .read
  let target := UInt64.ofNat (word bytes 0)
  let resolver := UInt64.ofNat (word bytes 8)
  let addend := UInt64.ofNat (word bytes 16)
  if word bytes 24 = 0 then pure (.new target resolver addend)
  else if word bytes 24 = 1 ∧ version = copyVersion then pure (.copyOf target resolver addend)
  else .error .invalid

/-- What `capture` hands out: the regions and the fixups in the storage of the caller. -/
structure Captured where
  regions : List Region
  fixups : List Fixup

/-- `Captured::capture`, with storage for `regionStorage` regions and `fixupStorage` fixups. -/
def capture (sort : Sorter Fixup) (base maximum regionStorage fixupStorage : ℕ) : Except (Error ε) Captured := do
  reject (base < userMin ∨ base % 8 ≠ 0 ∨ maximum < headerBytes) .invalid
  reject (base + headerBytes > userEnd) .invalid
  let header ← (read base headerBytes).mapError .read
  let version' := word header 8 % 2 ^ 32
  reject (word header 0 ≠ magic ∨ (version' ≠ version ∧ version' ≠ copyVersion) ∨ word header 32 ≠ 0) .invalid
  let regions := word header 8 / 2 ^ 32
  let fixups := word header 16
  let size ← length regions fixups
  reject (size > maximum) .tooLarge
  reject (word header 24 ≠ size) .invalid
  reject (base + size > userEnd) .invalid
  reject (regionStorage < regions ∨ fixupStorage < fixups) .bufferTooSmall
  let regionList ← (List.range regions).mapM (readRegion read base version')
  let fixupList ← (List.range fixups).mapM (readFixup read base (headerBytes + regions * regionBytes) version')
  let validated : Except (Error ε) Unit × List Fixup := validate sort regionList fixupList
  validated.1
  pure ⟨regionList, validated.2⟩

end Capture

/-! ## Execution -/

/-- One thing a call of `execute` does for a fixup. -/
inductive Op where
  | read (source size : ℕ)
  | resolve (resolver addend : ℕ)
  | write (fixup address size : ℕ)

def fixupOps (index : ℕ) (f : Fixup) : List Op :=
  if f.copy then
    (Pieces.pieces 256 f.addend.toNat 0).flatMap fun piece =>
      [.read (f.resolver.toNat + piece.1) piece.2, .write index (f.target.toNat + piece.1) piece.2]
  else [.resolve f.resolver.toNat f.addend.toNat, .write index f.target.toNat 8]

def program (fixups : List Fixup) : List Op := fixups.zipIdx.flatMap fun f => fixupOps f.2 f.1

/-- A call of `execute` that is under way: its buffer and what it has still to do. -/
structure Call where
  buffer : List UInt8
  todo : List Op

structure Write where
  fixup : ℕ
  address : ℕ
  bytes : List UInt8

inductive Phase where
  | ready
  | running
  | complete
  | failed
  deriving DecidableEq

structure State where
  phase : Phase
  calls : ℕ → Option Call
  writes : List Write

def State.initial : State := ⟨.ready, fun _ => none, []⟩

/-- Calls may overlap, on several threads or because a resolver calls back. A callback answers with bytes, or fails. -/
inductive Action where
  | call (id : ℕ) (withRead : Bool)
  | step (id : ℕ) (answer : Option (List UInt8))

/-- `size` bytes of a buffer that a callback has filled. -/
def fill (size : ℕ) (bytes : List UInt8) : List UInt8 := (bytes ++ List.replicate size 0).take size

namespace State

variable (fixups : List Fixup)

def setCall (s : State) (id : ℕ) (call : Option Call) : State := { s with calls := Function.update s.calls id call }

/-- The entry of `execute`: only the first caller gets past the phase. -/
def enter (s : State) (id : ℕ) (withRead : Bool) : State :=
  if withRead = false ∧ fixups.any (·.copy) then s
  else match s.phase with
    | .ready => { s with phase := .running }.setCall id (some ⟨[], program fixups⟩)
    | _ => s

/-- One callback of a call under way, or its end. A callback that fails or panics leaves the phase failed. -/
def advance (s : State) (id : ℕ) (c : Call) (answer : Option (List UInt8)) : State :=
  match c.todo with
  | [] => { s with phase := .complete }.setCall id none
  | .read _ size :: rest =>
    match answer with
    | some bytes => s.setCall id (some ⟨fill size bytes, rest⟩)
    | none => { s with phase := .failed }.setCall id none
  | .resolve _ addend :: rest =>
    match answer with
    | some bytes => s.setCall id (some ⟨Bytes.toLe 8 ((Bytes.ofLe bytes + addend) % wordLimit), rest⟩)
    | none => { s with phase := .failed }.setCall id none
  | .write fixup address size :: rest =>
    let s := { s with writes := s.writes ++ [Write.mk fixup address (fill size c.buffer)] }
    match answer with
    | some _ => s.setCall id (some ⟨c.buffer, rest⟩)
    | none => { s with phase := .failed }.setCall id none

def act (s : State) : Action → State
  | .call id withRead =>
    match s.calls id with
    | some _ => s
    | none => s.enter fixups id withRead
  | .step id answer =>
    match s.calls id with
    | some c => s.advance id c answer
    | none => s

end State

end MochiSyscalls.PosixClient.IndirectImage
