import MochiSyscalls.PosixClient.StaticTls
import MochiSyscalls.Foundations.Emissions
import MochiSyscalls.Foundations.Patches
import MochiSyscalls.Foundations.Pieces

/-! # Initial TLS modules

The plan of the static TLS blocks of several objects, its initialization in a fresh mapping, and the table by which the
runtime finds the block of a module again. -/

namespace MochiSyscalls.PosixClient.StaticTls
open Foundations Effects Emissions
set_option autoImplicit false

structure Module where
  index : ℕ
  template : Template
  distance : ℕ

inductive InitializeError (ε : Type) where
  | invalidMapping
  | read (e : ε)
  | write (e : ε)

namespace Dtv

def tcbBytes : ℕ := 16

def headerBytes : ℕ := 8

def moduleBytes : ℕ := 16

def word (mapping : List UInt8) (base address : ℕ) : Option ℕ := do
  guard (base ≤ address)
  Bytes.readLe 8 mapping (address - base)

def address (mapping : List UInt8) (base threadPointer module offset : ℕ) : Option ℕ := do
  let _ ← checkedAdd base mapping.length
  guard ((← word mapping base threadPointer) = threadPointer)
  let table ← word mapping base (← checkedAdd threadPointer 8)
  guard (table = (← checkedAdd threadPointer tcbBytes))
  let count ← word mapping base table
  let stop ← checkedAdd (← checkedAdd table headerBytes) (← checkedMul count moduleBytes)
  guard (stop ≤ base + mapping.length ∧ module ≠ 0 ∧ module ≤ count)
  let entry := table + headerBytes + (module - 1) * moduleBytes
  let data ← word mapping base entry
  let size ← word mapping base (entry + 8)
  guard (data ≠ 0 ∧ base ≤ data)
  guard ((← checkedAdd data size) ≤ threadPointer ∧ offset ≤ size)
  checkedAdd data offset

end Dtv

structure Plan where
  templates : List (Option Template)
  layout : Layout

namespace Plan

/-- One template of the loop of `Plan::new`: the distance and the alignment so far. -/
def extend (s : ℕ × ℕ) (template : Template) : Option (ℕ × ℕ) := do
  let _ ← checkedAdd template.source template.fileSize
  let distance ← distanceAfter s.1 template
  pure (distance, max s.2 template.alignment)

def new (templates : List (Option Template)) (pageSize : ℕ) : Option Plan := do
  let (distance, alignment) ← (templates.filterMap id).foldlM extend (0, 1)
  let tail ← checkedAdd (Dtv.tcbBytes + Dtv.headerBytes) (← checkedMul templates.length Dtv.moduleBytes)
  let layout ← Layout.withTail distance alignment pageSize tail
  pure ⟨templates, layout⟩

def modulesFrom : ℕ → ℕ → List (Option Template) → List Module
  | _, _, [] => []
  | index, distance, none :: rest => modulesFrom (index + 1) distance rest
  | index, distance, some template :: rest =>
    match distanceAfter distance template with
    | none => modulesFrom (index + 1) distance rest
    | some distance => ⟨index, template, distance⟩ :: modulesFrom (index + 1) distance rest

variable (plan : Plan)

def modules : List Module := modulesFrom 0 0 plan.templates

/-! ## Initialization -/

section Initialize

variable {ε : Type} (read : ℕ → ℕ → Except ε (List UInt8)) (write : ℕ → List UInt8 → Except ε Unit)

/-- What initialization does: it writes patches at addresses, and may fail. -/
abbrev Init (ε : Type) := Eff (List Bytes.Patch) (InitializeError ε)

/-- `size` bytes of a buffer that the reader has filled. -/
def filled (source size : ℕ) : List UInt8 :=
  match read source size with
  | .ok bytes => (bytes ++ List.replicate size 0).take size
  | .error _ => List.replicate size 0

def readAt (source size : ℕ) : Init ε (List UInt8) :=
  Eff.lift (match read source size with
    | .ok _ => .value (filled read source size)
    | .error e => .failed (.read e))

def writeAt (address : ℕ) (bytes : List UInt8) : Init ε Unit :=
  emitThen ⟨address, bytes⟩ (match write address bytes with
    | .ok _ => .value ()
    | .error e => .failed (.write e))

/-- One piece of a template, through a buffer of 512 bytes. -/
def copyPiece (source destination : ℕ) (piece : ℕ × ℕ) : Init ε Unit := do
  let bytes ← readAt read (source + piece.1) piece.2
  writeAt write (destination + piece.1) bytes

variable (threadPointer : ℕ) (m : Module)

def copyModule : Init ε Unit :=
  (Pieces.pieces 512 m.template.fileSize 0).forM (copyPiece read write m.template.source (threadPointer - m.distance))

def entryBytes : List UInt8 :=
  Bytes.toLe 8 (threadPointer - m.distance) ++ Bytes.toLe 8 m.template.memorySize

/-- Where the table of modules starts, behind the two words of the thread control block. -/
def table : ℕ := threadPointer + Dtv.tcbBytes

def writeEntry : Init ε Unit :=
  writeAt write (table threadPointer + Dtv.headerBytes + m.index * Dtv.moduleBytes) (entryBytes threadPointer m)

/-- The writes for a thread pointer: the blocks, the table and last the thread control block. -/
def install (plan : Plan) (threadPointer : ℕ) : Init ε Unit := do
  plan.modules.forM (copyModule read write threadPointer)
  writeAt write (table threadPointer) (Bytes.toLe 8 plan.templates.length)
  plan.modules.forM (writeEntry write threadPointer)
  writeAt write (threadPointer + 8) (Bytes.toLe 8 (table threadPointer))
  writeAt write threadPointer (Bytes.toLe 8 threadPointer)

def initializeZeroed (plan : Plan) (base size : ℕ) : Init ε ℕ := do
  Eff.lift (Outcome.reject (size < plan.layout.mappingSize ∨ base + size ≥ wordLimit) .invalidMapping)
  let placed ← Eff.lift (Outcome.okOr (plan.layout.place base) .invalidMapping)
  plan.install read write placed.threadPointer
  pure placed.threadPointer

end Initialize

end Plan

end MochiSyscalls.PosixClient.StaticTls
