import MochiSyscalls.Foundations.Checked
import MochiSyscalls.Foundations.LittleEndian

/-! # Static thread-local storage

The TLS template of an image, read from its program headers, and the block below the thread pointer it asks for. -/

namespace MochiSyscalls.PosixClient.StaticTls
open Foundations Checked
set_option autoImplicit false

inductive Error (ε : Type) where
  | invalidImage
  | read (e : ε)
  deriving DecidableEq

structure Template where
  source : ℕ
  fileSize : ℕ
  memorySize : ℕ
  alignment : ℕ
  residue : ℕ
  deriving DecidableEq

/-- `usize::MAX + 1`. -/
def wordLimit : ℕ := 2 ^ 64

def checkedAdd (a b : ℕ) : Option ℕ := if a + b < wordLimit then some (a + b) else none

def checkedMul (a b : ℕ) : Option ℕ := if a * b < wordLimit then some (a * b) else none

def powerOfTwo (n : ℕ) : Prop := n ≠ 0 ∧ 2 ^ n.log2 = n
  deriving Decidable

theorem powerOfTwo_iff {n : ℕ} : powerOfTwo n ↔ ∃ k, n = 2 ^ k := by
  constructor
  · rintro ⟨_, h⟩
    exact ⟨n.log2, h.symm⟩
  · rintro ⟨k, rfl⟩
    exact ⟨(Nat.two_pow_pos k).ne', by rw [Nat.log2_two_pow]⟩

theorem checkedAdd_eq_some {a b c : ℕ} : checkedAdd a b = some c ↔ a + b < wordLimit ∧ c = a + b := by
  unfold checkedAdd
  split <;> simp_all [eq_comm]

theorem checkedMul_eq_some {a b c : ℕ} : checkedMul a b = some c ↔ a * b < wordLimit ∧ c = a * b := by
  unfold checkedMul
  split <;> simp_all [eq_comm]

/-! ## The template of an image -/

structure Header where
  kind : ℕ
  offset : ℕ
  address : ℕ
  fileSize : ℕ
  memorySize : ℕ
  alignment : ℕ

section Template

variable {ε : Type} (reader : ℕ → ℕ → Except ε (List UInt8))

def Header.word (bytes : List UInt8) (offset width : ℕ) : ℕ := Bytes.ofLe ((bytes.drop offset).take width)

/-- The header at an address; a reader fills all 56 bytes. -/
def Header.read (address : ℕ) : Except (Error ε) Header := do
  let bytes ← (reader address 56).mapError .read
  pure ⟨word bytes 0 4, word bytes 8 8, word bytes 16 8, word bytes 32 8, word bytes 40 8, word bytes 48 8⟩

/-- The TLS header among those looked at so far, with its template. -/
def tlsOf (bias : ℕ) (tls : Option (Header × Template)) (header : Header) :
    Except (Error ε) (Option (Header × Template)) :=
  if header.kind ≠ 7 then .ok tls
  else do
    reject (tls.isSome ∨ header.fileSize > header.memorySize) .invalidImage
    let alignment := max header.alignment 1
    reject (¬ powerOfTwo alignment) .invalidImage
    let _ ← okOr (checkedAdd header.offset header.fileSize) .invalidImage
    let _ ← okOr (checkedAdd header.address header.memorySize) .invalidImage
    let source ← okOr (checkedAdd header.address bias) .invalidImage
    let _ ← okOr (checkedAdd source header.memorySize) .invalidImage
    pure (some (header, ⟨source, header.fileSize, header.memorySize, alignment, header.address % alignment⟩))

/-- Whether a LOAD header holds the initialized bytes of the TLS segment in the file. -/
def covers (tls load : Header) : Except (Error ε) Bool :=
  if load.kind ≠ 1 ∨ load.fileSize > load.memorySize then .ok false
  else do
    let stop ← okOr (checkedAdd load.address load.fileSize) .invalidImage
    let _ ← okOr (checkedAdd load.offset load.fileSize) .invalidImage
    pure (tls.address ≥ load.address && tls.address + tls.fileSize ≤ stop &&
      checkedAdd load.offset (tls.address - load.address) = some tls.offset)

def covered (table stride : ℕ) (tls : Header) : List ℕ → Except (Error ε) Bool
  | [] => .ok false
  | index :: rest => do
    if ← covers tls (← Header.read reader (table + index * stride)) then pure true else covered table stride tls rest

def template (table stride count bias : ℕ) : Except (Error ε) (Option Template) := do
  reject (table = 0 ∨ stride < 56 ∨ stride > 65535 ∨ count = 0 ∨ count > 65535) .invalidImage
  let length ← okOr (checkedMul stride count) .invalidImage
  let _ ← okOr (checkedAdd table length) .invalidImage
  let tls ← (List.range count).foldlM (fun tls index => do
    tlsOf bias tls (← Header.read reader (table + index * stride))) none
  match tls with
  | none => pure none
  | some (header, result) => do
    if result.fileSize ≠ 0 then do
      reject (¬ (← covered reader table stride header (List.range count)) = true) .invalidImage
      pure (some result)
    else pure (some result)

end Template

/-! ## The block below the thread pointer -/

/-- How far below the thread pointer the next module starts, below all preceding ones. -/
def distanceAfter (preceding : ℕ) (template : Template) : Option ℕ := do
  guard (powerOfTwo template.alignment ∧ template.residue < template.alignment ∧ template.fileSize ≤ template.memorySize)
  let stop ← checkedAdd preceding template.memorySize
  -- the negative of `residue + stop`, in the low bits the alignment asks for
  let padding := (wordLimit - (template.residue + stop) % wordLimit) % template.alignment
  checkedAdd stop padding

structure Layout where
  mappingSize : ℕ
  alignment : ℕ
  distance : ℕ
  deriving DecidableEq

structure Placement where
  data : ℕ
  threadPointer : ℕ
  deriving DecidableEq

namespace Layout

def withTail (distance alignment pageSize tail : ℕ) : Option Layout := do
  guard (powerOfTwo pageSize ∧ powerOfTwo alignment)
  let alignment := max alignment 8
  let size ← checkedAdd (← checkedAdd distance (alignment - 1)) tail
  let mapping ← checkedAdd size (pageSize - 1)
  pure ⟨mapping / pageSize * pageSize, alignment, distance⟩

def place (l : Layout) (base : ℕ) : Option Placement := do
  let stop ← checkedAdd base l.mappingSize
  let top ← checkedAdd (← checkedAdd base l.distance) (l.alignment - 1)
  let threadPointer := top / l.alignment * l.alignment
  let tcb ← checkedAdd threadPointer 8
  guard (tcb ≤ stop)
  guard (l.distance ≤ threadPointer)
  pure ⟨threadPointer - l.distance, threadPointer⟩

end Layout

end MochiSyscalls.PosixClient.StaticTls
