import MochiSyscalls.Foundations.Streams
import MochiSyscalls.Foundations.LittleEndian

/-! # Words, ranges and segments of an ELF file

The readers and the checked arithmetic every part of the PIE preparation shares. Addresses, sizes and offsets are
numbers below `2 ^ 64`; a sum that would not be is an error. -/

namespace MochiSyscalls.PosixClient.Pie
open Foundations Checked
set_option autoImplicit false

inductive Error where
  | invalid
  | unsupported
  | overflow
  | bufferTooSmall
  deriving DecidableEq

/-- `u64::MAX + 1`. -/
def wordLimit : ℕ := 2 ^ 64

/-- `PAGE`. -/
def pageSize : ℕ := 4096

def userMin : ℕ := 0x00400000

def userEnd : ℕ := 0x0000800000000000

/-- `LOAD`. -/
def Kind.load : ℕ := 1

/-! ## Words -/

variable (b : List UInt8)

def u16At (o : ℕ) : Except Error ℕ := okOr (Bytes.readLe 2 b o) .invalid

def u32At (o : ℕ) : Except Error ℕ := okOr (Bytes.readLe 4 b o) .invalid

def u64At (o : ℕ) : Except Error ℕ := okOr (Bytes.readLe 8 b o) .invalid

def add (a b : ℕ) : Except Error ℕ := if a + b < wordLimit then .ok (a + b) else .error .overflow

/-- `a & !(PAGE - 1)`. -/
def pageDown (a : ℕ) : ℕ := a / pageSize * pageSize

def page (a : ℕ) : Except Error ℕ := do
  let a ← add a (pageSize - 1)
  pure (pageDown a)

structure Span where
  start : ℕ
  stop : ℕ
  deriving DecidableEq

def Span.length (r : Span) : ℕ := r.stop - r.start

/-- `&bytes[range]`. -/
def Span.of (r : Span) (bytes : List UInt8) : List UInt8 := (bytes.take r.stop).drop r.start

def Span.stepBy (r : Span) (step : ℕ) : List ℕ :=
  (List.range ((r.length + step - 1) / step)).map fun i => r.start + i * step

def extent (bytes : List UInt8) (offset length : ℕ) : Except Error Span := do
  let stop ← add offset length
  reject (stop > bytes.length) .invalid
  pure ⟨offset, stop⟩

/-! ## Segments -/

structure Segment where
  kind : ℕ
  flags : ℕ
  offset : ℕ
  address : ℕ
  file : ℕ
  memory : ℕ
  alignment : ℕ
  deriving DecidableEq

namespace Segment

variable (s : Segment)

def contains (address length : ℕ) : Bool :=
  s.kind = Kind.load && s.address ≤ address && address + length < wordLimit && s.address + s.memory < wordLimit &&
    address + length ≤ s.address + s.memory

/-- The 56 bytes of a program header; the physical address is always zero. -/
def header : List UInt8 :=
  Bytes.toLe 4 s.kind ++ Bytes.toLe 4 s.flags ++
    [s.offset, s.address, 0, s.file, s.memory, s.alignment].flatMap (Bytes.toLe 8)

end Segment

theorem add_eq_ok {a b c : ℕ} : add a b = .ok c ↔ a + b < wordLimit ∧ c = a + b := by
  unfold add
  split
  next h => simp only [Except.ok.injEq, h, true_and, eq_comm]
  next h =>
    simp only [h, false_and, iff_false]
    exact nofun

end MochiSyscalls.PosixClient.Pie
