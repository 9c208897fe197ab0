import MochiSyscalls.PosixClient.ProcessImage
import MochiSyscalls.Foundations.Patches
import MochiSyscalls.Foundations.FixedRows

/-! # The initial stack is a process-entry stack

What the two cursors have written, the stack after the relocations of the loader, and the vectors found on it. -/

namespace MochiSyscalls.PosixClient.ProcessImage
open Foundations Bytes Effects Utf8 Intervals List Option Patch
open Foundations.Effects.Outcome (reject okOr)
open StaticTls (checkedAdd checkedMul checkedAdd_eq_some checkedMul_eq_some)
set_option autoImplicit false

variable {κ : Type}

/-! ## Words and their relocations -/

/-- A word of the stack and the relocation that is recorded for it. -/
abbrev Cell : Type := ℕ × Option RelocationKind

def wordPatches : ℕ → List Cell → List Patch
  | _, [] => []
  | offset, cell :: cells => ⟨offset, toLe 8 cell.1⟩ :: wordPatches (offset + 8) cells

def relocationsAt : ℕ → List Cell → List Relocation
  | _, [] => []
  | offset, (_, none) :: cells => relocationsAt (offset + 8) cells
  | offset, (_, some kind) :: cells => ⟨offset, kind⟩ :: relocationsAt (offset + 8) cells

variable (offset : ℕ)

theorem wordPatches_append (cells more : List Cell) :
    wordPatches offset (cells ++ more) = wordPatches offset cells ++ wordPatches (offset + 8 * cells.length) more := by
  induction cells generalizing offset with
  | nil => rfl
  | cons cell cells ih =>
    rw [cons_append, wordPatches, wordPatches, ih, length_cons, cons_append]
    congr 3
    omega

theorem relocationsAt_append (cells more : List Cell) : relocationsAt offset (cells ++ more) =
      relocationsAt offset cells ++ relocationsAt (offset + 8 * cells.length) more := by
  induction cells generalizing offset with
  | nil => rfl
  | cons cell cells ih =>
    have hnext : offset + 8 + 8 * cells.length = offset + 8 * (cells.length + 1) := by omega
    obtain ⟨value, kind⟩ := cell
    cases kind with
    | none => rw [cons_append, relocationsAt, relocationsAt, ih, length_cons, hnext]
    | some kind => rw [cons_append, relocationsAt, relocationsAt, ih, length_cons, hnext, cons_append]

theorem wordPatches_ascending (cells : List Cell) :
    Patch.Ascending offset (offset + 8 * cells.length) (wordPatches offset cells) := by
  induction cells generalizing offset with
  | nil => exact .nil (Nat.le_add_right _ _)
  | cons cell cells ih =>
    have hfirst : Patch.Ascending offset (offset + 8) [⟨offset, toLe 8 cell.1⟩] :=
      .single le_rfl (by rw [stop, toLe_length])
    have hall := hfirst.append (ih (offset + 8))
    rwa [show offset + 8 + 8 * cells.length = offset + 8 * (cells.length + 1) by omega] at hall

theorem slice_words {memory : List UInt8} {offset : ℕ} {cells : List Cell} (hin : offset ≤ memory.length)
    (h : ∀ p ∈ wordPatches offset cells, slice memory p.offset p.stop = some p.bytes) :
    slice memory offset (offset + 8 * cells.length) = some (cells.flatMap fun cell => toLe 8 cell.1) := by
  induction cells generalizing offset with
  | nil => exact slice_eq_some.2 ⟨memory.take offset, memory.drop offset, by simp, by simpa using hin, by simp⟩
  | cons cell cells ih =>
    rw [wordPatches, forall_mem_cons] at h
    obtain ⟨hfirst, hrest⟩ := h
    simp only [stop, toLe_length] at hfirst
    have hnext : offset + 8 ≤ memory.length := by
      obtain ⟨front, rest, hmem, hfront, -⟩ := slice_eq_some.1 hfirst
      rw [hmem, length_append, length_append, toLe_length]
      omega
    have hlater := ih hnext hrest
    rw [flatMap_cons, slice_append_iff, toLe_length, length_cons,
      show offset + 8 * (cells.length + 1) = offset + 8 + 8 * cells.length by omega]
    exact ⟨hfirst, hlater⟩

/-! ## The relocations of the loader -/

variable (base : ℕ)

/-- The loader adds the base to the words that hold stack addresses. -/
def relocate (memory : List UInt8) (r : Relocation) : List UInt8 :=
  match r.kind, readLe 8 memory r.offset with
  | .stackAddress, some word => splice memory r.offset (toLe 8 ((word + base) % 2 ^ 64))
  | _, _ => memory

def relocated (stack : List UInt8) (relocations : List Relocation) : List UInt8 :=
  relocations.foldl (relocate base) stack

def Cell.word (cell : Cell) : ℕ :=
  if cell.2 = some .stackAddress then (cell.1 + base) % 2 ^ 64 else cell.1

theorem relocate_word {base value : ℕ} (hvalue : value < 2 ^ 64) (kind : RelocationKind) (front rest : List UInt8) :
    relocate base (front ++ (toLe 8 value ++ rest)) ⟨front.length, kind⟩ =
      front ++ (toLe 8 (Cell.word base (value, some kind)) ++ rest) := by
  have hread : readLe 8 (front ++ (toLe 8 value ++ rest)) front.length = some value := by
    refine readLe_eq_some.2 ⟨?_, hvalue⟩
    have h := slice_append front (toLe 8 value) rest
    rwa [toLe_length] at h
  by_cases hkind : kind = .stackAddress
  · subst hkind
    simp only [relocate, hread, Cell.word, if_true]
    rw [splice, toLe_length, take_left, ← append_assoc front, drop_left' (by simp), append_assoc]
  · simp only [Cell.word, some.injEq, hkind, if_false]
    unfold relocate
    split
    next hstack _ => exact absurd hstack hkind
    · rfl

theorem relocated_words {cells : List Cell} (hvalues : ∀ cell ∈ cells, cell.1 < 2 ^ 64) (front rest : List UInt8) :
    relocated base (front ++ (cells.flatMap (fun cell => toLe 8 cell.1) ++ rest)) (relocationsAt front.length cells) =
      front ++ (cells.flatMap (fun cell => toLe 8 (cell.word base)) ++ rest) := by
  induction cells generalizing front with
  | nil => rfl
  | cons cell cells ih =>
    obtain ⟨value, kind⟩ := cell
    obtain ⟨hvalue, hrest⟩ := forall_mem_cons.1 hvalues
    have hnext := ih hrest (front ++ toLe 8 (Cell.word base (value, kind)))
    rw [length_append, toLe_length, append_assoc, append_assoc] at hnext
    rw [flatMap_cons, flatMap_cons, append_assoc, append_assoc]
    cases kind with
    | none => exact hnext
    | some kind =>
      rw [relocationsAt, relocated, foldl_cons, relocate_word hvalue]
      exact hnext

/-! ## What the cursors have written -/

structure Built (limit : ℕ) (b : Builder) (cells : List Cell) (texts : List Patch) : Prop where
  stack : ∃ patches : List Patch, patches.Perm (wordPatches 0 cells ++ texts) ∧ Patch.Fit limit patches ∧
    b.stack = Patch.applyAll (List.replicate limit 0) patches
  cursor : b.cursor = 8 * cells.length
  relocations : b.relocations = relocationsAt 0 cells

namespace Built

variable {limit : ℕ} {b b' : Builder} {cells : List Cell} {texts : List Patch}

theorem length (h : Built limit b cells texts) : b.stack.length = limit := by
  obtain ⟨patches, -, hfit, hstack⟩ := h.stack
  rw [hstack, applyAll_length (by rwa [length_replicate]), length_replicate]

theorem patched (h : Built limit b cells texts) {p : Patch} (hp : p.stop ≤ limit) {cells' : List Cell} {texts' : List Patch}
    (hperm : (p :: (wordPatches 0 cells ++ texts)).Perm (wordPatches 0 cells' ++ texts')) :
    ∃ patches : List Patch, patches.Perm (wordPatches 0 cells' ++ texts') ∧ Patch.Fit limit patches ∧
      splice b.stack p.offset p.bytes = Patch.applyAll (List.replicate limit 0) patches := by
  obtain ⟨patches, hall, hfit, hstack⟩ := h.stack
  refine ⟨patches ++ [p], ?_, fun q hq => ?_, ?_⟩
  · exact (perm_append_singleton p patches).trans ((hall.cons p).trans hperm)
  · rcases mem_append.1 hq with hq | hq
    · exact hfit q hq
    · rw [mem_singleton] at hq
      exact hq ▸ hp
  · rw [applyAll_append, ← hstack]
    rfl

section

variable (h : Built limit b cells texts) {value offset : ℕ}
  (hput : (putWord b value : Outcome (EncodeError κ) _) = .value (b', offset))
include h hput

theorem put_word (kind : Option RelocationKind) :
    offset = 8 * cells.length ∧ b'.textCursor = b.textCursor ∧ b'.relocations = b.relocations ∧
      b'.cursor = 8 * (cells ++ [(value, kind)]).length ∧
      ∃ patches : List Patch, patches.Perm (wordPatches 0 (cells ++ [(value, kind)]) ++ texts) ∧
        Patch.Fit limit patches ∧ b'.stack = Patch.applyAll (List.replicate limit 0) patches := by
  unfold putWord at hput
  simp only [Outcome.bind_eq_value, Outcome.okOr_eq_value, checkedAdd_eq_some, Outcome.reject_eq_value,
    Outcome.pure_eq, Outcome.value.injEq, Prod.mk.injEq] at hput
  obtain ⟨stop, ⟨-, rfl⟩, _, hlen, _, -, rfl, rfl⟩ := hput
  have hcursor := h.cursor
  rw [h.length] at hlen
  refine ⟨hcursor, rfl, rfl, by rw [length_append, length_singleton]; simp only; omega, ?_⟩
  refine h.patched (p := ⟨b.cursor, toLe 8 value⟩) (by simp only [stop, toLe_length]; omega) ?_
  rw [wordPatches_append, Nat.zero_add, ← hcursor, wordPatches, wordPatches, append_assoc]
  exact perm_middle.symm

theorem putWord_built : Built limit b' (cells ++ [(value, none)]) texts ∧ b'.textCursor = b.textCursor := by
  obtain ⟨-, htext, hrelocations, hcursor, hstack⟩ := h.put_word hput none
  refine ⟨⟨hstack, hcursor, ?_⟩, htext⟩
  rw [hrelocations, h.relocations, relocationsAt_append]
  simp [relocationsAt]

end

theorem putRelocatedWord_built {wire : Wire κ} (h : Built limit b cells texts) {value : ℕ} {kind : RelocationKind}
    (hput : putRelocatedWord wire b value kind = .value b') :
    Built limit b' (cells ++ [(value, some kind)]) texts ∧ b'.textCursor = b.textCursor := by
  unfold putRelocatedWord pushRelocation at hput
  simp only [Outcome.bind_eq_value, Outcome.reject_eq_value, Outcome.pure_eq, Outcome.value.injEq] at hput
  obtain ⟨⟨b₁, offset⟩, hword, _, -, rfl⟩ := hput
  obtain ⟨hoffset, htext, hrelocations, hcursor, hstack⟩ := h.put_word hword (some kind)
  refine ⟨⟨hstack, hcursor, ?_⟩, htext⟩
  simp only
  rw [hrelocations, h.relocations, relocationsAt_append, hoffset, Nat.zero_add]
  rfl

section

variable (h : Built limit b cells texts)
include h

theorem text {p : Patch} (hp : p.stop ≤ limit) {textCursor : ℕ} :
    Built limit ⟨splice b.stack p.offset p.bytes, b.relocations, b.cursor, textCursor⟩ cells (texts ++ [p]) := by
  refine ⟨h.patched hp ?_, h.cursor, h.relocations⟩
  rw [← append_assoc]
  exact (perm_append_singleton p _).symm

theorem copyText_built {value : List UInt8} {offset : ℕ}
    (hput : (copyText b value : Outcome (EncodeError κ) _) = .value (b', offset)) :
    offset = b.textCursor ∧ b'.textCursor = b.textCursor + (value.length + 1) ∧
      Built limit b' cells (texts ++ [⟨b.textCursor, value ++ [0]⟩]) := by
  unfold copyText addText at hput
  simp only [Outcome.bind_eq_value, Outcome.okOr_eq_value, bind_eq_bind, bind_eq_some_iff,
    checkedAdd_eq_some, Outcome.reject_eq_value, Outcome.pure_eq, Outcome.value.injEq, Prod.mk.injEq] at hput
  obtain ⟨stop, ⟨_, ⟨-, rfl⟩, -, rfl⟩, _, hlen, rfl, rfl⟩ := hput
  rw [h.length] at hlen
  refine ⟨rfl, by simp only; omega, h.text (p := ⟨b.textCursor, value ++ [0]⟩) ?_⟩
  simp only [stop, length_append, length_singleton]
  omega

theorem store_built {offset : ℕ} {bytes : List UInt8}
    (hput : (store b offset bytes : Outcome (EncodeError κ) _) = .value b') :
    b'.textCursor = b.textCursor ∧ Built limit b' cells (texts ++ [⟨offset, bytes⟩]) := by
  unfold store at hput
  split at hput
  next hlen =>
    cases hput
    rw [h.length] at hlen
    exact ⟨rfl, h.text (p := ⟨offset, bytes⟩) hlen⟩
  · cases hput

end

end Built

/-! ## Vectors -/

def textPatches : ℕ → List (List UInt8) → List Patch
  | _, [] => []
  | offset, value :: values => ⟨offset, value ++ [0]⟩ :: textPatches (offset + (value.length + 1)) values

variable (values : List (List UInt8))

def textBytes : ℕ := (values.map fun value => value.length + 1).sum

theorem textBytes_cons (value : List UInt8) (values : List (List UInt8)) :
    textBytes (value :: values) = value.length + 1 + textBytes values := by
  rw [textBytes, map_cons, sum_cons, textBytes]

def pointerCells : List Cell :=
  (textPatches offset values).map fun p => (p.offset, some .stackAddress)

theorem textPatches_ascending : Patch.Ascending offset (offset + textBytes values) (textPatches offset values) := by
  induction values generalizing offset with
  | nil => exact .nil (Nat.le_add_right _ _)
  | cons value values ih =>
    have hfirst : Patch.Ascending offset (offset + (value.length + 1)) [⟨offset, value ++ [0]⟩] :=
      .single le_rfl (by rw [stop, length_append, length_singleton])
    have hall := hfirst.append (ih (offset + (value.length + 1)))
    rwa [textBytes_cons, ← Nat.add_assoc]

theorem putPointers_built {wire : Wire κ} {limit : ℕ} {b b' : Builder} {cells : List Cell} {texts : List Patch}
    {values : List (List UInt8)} (h : Built limit b cells texts)
    (hput : values.foldlM (putPointer wire) b = .value b') :
    Built limit b' (cells ++ pointerCells b.textCursor values) (texts ++ textPatches b.textCursor values) ∧
      b'.textCursor = b.textCursor + textBytes values := by
  induction values generalizing b cells texts with
  | nil =>
    cases hput
    rw [pointerCells, textPatches, map_nil, append_nil, append_nil]
    exact ⟨h, rfl⟩
  | cons value values ih =>
    rw [foldlM_cons, Outcome.bind_eq_value] at hput
    obtain ⟨b₁, hfirst, hrest⟩ := hput
    unfold putPointer at hfirst
    rw [Outcome.bind_eq_value] at hfirst
    obtain ⟨⟨b₂, offset⟩, htext, hword⟩ := hfirst
    obtain ⟨rfl, hcursor, hbuilt⟩ := h.copyText_built htext
    obtain ⟨hbuilt₁, hcursor₁⟩ := hbuilt.putRelocatedWord_built hword
    obtain ⟨hbuilt', hcursor'⟩ := ih hbuilt₁ hrest
    rw [hcursor₁, hcursor] at hbuilt' hcursor'
    rw [append_assoc, append_assoc] at hbuilt'
    refine ⟨hbuilt', ?_⟩
    rw [hcursor', textBytes_cons, Nat.add_assoc]

def entryCells (image : Option Executable) (entries : List Entry) : List Cell :=
  entries.flatMap fun e => [(e.key, none), e.resolve image]

theorem putEntries_built {wire : Wire κ} {image : Option Executable} {limit : ℕ} {b b' : Builder} {cells : List Cell}
    {texts : List Patch} {entries : List Entry} (h : Built limit b cells texts)
    (hput : entries.foldlM (putEntry wire image) b = .value b') :
    Built limit b' (cells ++ entryCells image entries) texts := by
  induction entries generalizing b cells with
  | nil =>
    cases hput
    rwa [entryCells, flatMap_nil, append_nil]
  | cons e entries ih =>
    rw [foldlM_cons, Outcome.bind_eq_value] at hput
    obtain ⟨b₁, hfirst, hrest⟩ := hput
    unfold putEntry at hfirst
    rw [Outcome.bind_eq_value] at hfirst
    obtain ⟨⟨b₂, _⟩, hkey, hvalue⟩ := hfirst
    change putValue wire b₂ (e.resolve image) = .value b₁ at hvalue
    have hbuilt := (h.putWord_built hkey).1
    have hbuilt₁ : Built limit b₁ (cells ++ [(e.key, none)] ++ [e.resolve image]) texts := by
      generalize e.resolve image = cell at hvalue ⊢
      obtain ⟨value, kind⟩ := cell
      cases kind with
      | none =>
        simp only [putValue, Outcome.bind_eq_value, Outcome.pure_eq, Outcome.value.injEq] at hvalue
        obtain ⟨⟨b₃, _⟩, hword, rfl⟩ := hvalue
        exact (hbuilt.putWord_built hword).1
      | some kind => exact (hbuilt.putRelocatedWord_built hvalue).1
    have hbuilt' := ih hbuilt₁ hrest
    rw [append_assoc, append_assoc] at hbuilt'
    exact hbuilt'

/-! ## Sizes -/

theorem addText_eq {total size : ℕ} {value : List UInt8}
    (h : (addText total value : Outcome (EncodeError κ) ℕ) = .value size) : size = total + (value.length + 1) := by
  unfold addText at h
  simp only [Outcome.okOr_eq_value, bind_eq_bind, bind_eq_some_iff, checkedAdd_eq_some] at h
  obtain ⟨_, ⟨-, rfl⟩, -, rfl⟩ := h
  omega

theorem textSize_eq {values : List (List UInt8)} {total size : ℕ} (h : values.foldlM (fun total value => do
      reject (0 ∈ value) .invalidText
      addText total value) total = (.value size : Outcome (EncodeError κ) ℕ)) :
    size = total + textBytes values ∧ ∀ value ∈ values, 0 ∉ value := by
  induction values generalizing total with
  | nil =>
    cases h
    exact ⟨rfl, nofun⟩
  | cons value values ih =>
    simp only [foldlM_cons, Outcome.bind_eq_value, Outcome.reject_eq_value] at h
    obtain ⟨next, ⟨_, hzero, hnext⟩, hrest⟩ := h
    obtain ⟨hsize, hzeros⟩ := ih hrest
    rw [textBytes_cons, hsize, addText_eq hnext]
    exact ⟨by omega, forall_mem_cons.2 ⟨hzero, hzeros⟩⟩

theorem environment_eq {identity : Identity} {envp : List (List UInt8)} {total sizes : ℕ × ℕ}
    (h : envp.foldlM (addEnvironment identity) total = (.value sizes : Outcome (EncodeError κ) (ℕ × ℕ))) :
    sizes.2 = total.2 + textBytes (envp.filter identity.allowsEnvironment) ∧ ∀ entry ∈ envp, 0 ∉ entry := by
  induction envp generalizing total with
  | nil =>
    cases h
    exact ⟨rfl, nofun⟩
  | cons entry envp ih =>
    simp only [foldlM_cons, Outcome.bind_eq_value] at h
    obtain ⟨next, hnext, hrest⟩ := h
    obtain ⟨hsize, hzeros⟩ := ih hrest
    unfold addEnvironment at hnext
    simp only [Outcome.bind_eq_value, Outcome.reject_eq_value] at hnext
    obtain ⟨_, hzero, hnext⟩ := hnext
    refine ⟨?_, forall_mem_cons.2 ⟨hzero, hzeros⟩⟩
    split at hnext
    next hallowed =>
      simp only [Outcome.bind_eq_value, Outcome.pure_eq, Outcome.value.injEq] at hnext
      obtain ⟨size, htext, rfl⟩ := hnext
      rw [filter_cons_of_pos hallowed, textBytes_cons, hsize, addText_eq htext]
      omega
    next hallowed =>
      cases hnext
      rw [filter_cons_of_neg hallowed, hsize]

def imagePatch (bytes : List UInt8) : List Patch := if bytes.isEmpty then [] else [⟨offset, bytes⟩]

theorem alignUp_eq {n alignment size : ℕ} (hpos : 0 < alignment) (h : alignUp n alignment = some size) :
    n ≤ size ∧ alignment ∣ size ∧ size < 2 ^ 64 := by
  simp only [alignUp, map_eq_some_iff, checkedAdd_eq_some] at h
  obtain ⟨_, ⟨hlimit, rfl⟩, rfl⟩ := h
  have hdiv := Nat.div_add_mod (n + (alignment - 1)) alignment
  have hmod := Nat.mod_lt (n + (alignment - 1)) hpos
  rw [Nat.mul_comm] at hdiv
  refine ⟨by omega, Nat.dvd_mul_left _ _, ?_⟩
  have hle := Nat.div_mul_le_self (n + (alignment - 1)) alignment
  exact hle.trans_lt hlimit

theorem placeImage_eq {bytes : List UInt8} {stop : ℕ} {place : ℕ × ℕ}
    (h : (placeImage none bytes stop : Outcome (EncodeError κ) _) = .value place) :
    8 ∣ place.1 ∧ Patch.Ascending stop place.2 (imagePatch place.1 bytes) := by
  unfold placeImage at h
  simp only [Outcome.bind_eq_value, Outcome.okOr_eq_value] at h
  obtain ⟨offset, hoffset, h⟩ := h
  obtain ⟨hle, hdvd, -⟩ := alignUp_eq (by decide) hoffset
  unfold imagePatch
  split at h
  next hempty =>
    cases h
    have hbytes : bytes.isEmpty = true := by simpa using hempty
    rw [if_pos hbytes]
    exact ⟨hdvd, .nil le_rfl⟩
  next hempty =>
    simp only [Outcome.bind_eq_value, Outcome.okOr_eq_value, checkedAdd_eq_some, Outcome.pure_eq, Outcome.value.injEq] at h
    obtain ⟨_, ⟨-, rfl⟩, rfl⟩ := h
    have hbytes : ¬ bytes.isEmpty = true := by simpa using hempty
    rw [if_neg hbytes]
    exact ⟨hdvd, .single hle le_rfl⟩

def Process.kept (process : Process) (envp : List (List UInt8)) : List (List UInt8) :=
  envp.filter process.identity.allowsEnvironment

/-- What lies behind the pointers on a stack of given extents. -/
def payload (argv envp : List (List UInt8)) (execfn : List UInt8) (random : Fixed 16) (process : Process) (x : Extents) :
    List Patch :=
  textPatches x.pointerBytes argv ++ textPatches (x.pointerBytes + textBytes argv) (process.kept envp) ++
    [⟨x.pointerBytes + textBytes argv + textBytes (process.kept envp), random.1⟩] ++
    [⟨x.pointerBytes + textBytes argv + textBytes (process.kept envp) + 16, execfn ++ [0]⟩] ++
    imagePatch x.lifecycle process.lifecycle ++ imagePatch x.tls process.tls ++ imagePatch x.indirect process.indirect

structure Measured (wire : Wire κ) (argv envp : List (List UInt8)) (execfn : List UInt8) (random : Fixed 16)
    (process : Process) (x : Extents) : Prop where
  payload : Patch.Ascending x.pointerBytes x.stackLength (payload argv envp execfn random process x)
  aligned : 8 ∣ x.lifecycle ∧ 8 ∣ x.tls ∧ 8 ∣ x.indirect
  limit : x.stackLength ≤ wire.maxStackBytes ∧ x.stackLength < 2 ^ 64
  clean : (∀ value ∈ argv, 0 ∉ value) ∧ ∀ entry ∈ envp, 0 ∉ entry

theorem measure_eq {wire : Wire κ} {argv envp : List (List UInt8)} {execfn : List UInt8} {random : Fixed 16}
    {auxiliary : List (UInt64 × UInt64)} {process : Process} {x : Extents}
    (h : measure wire argv envp execfn random auxiliary process none = .value x) :
    Measured wire argv envp execfn random process x := by
  unfold measure at h
  simp only [Outcome.bind_eq_value, Outcome.okOr_eq_value, bind_eq_bind, bind_eq_some_iff,
    checkedAdd_eq_some, checkedMul_eq_some, Outcome.reject_eq_value, Outcome.pure_eq, Outcome.value.injEq] at h
  obtain ⟨argumentBytes, harguments, ⟨count, environmentBytes⟩, henvironment, words, -, pointerBytes, -, unaligned,
    hunaligned, ⟨lifecycle, lifecycleEnd⟩, hlifecycle, ⟨tls, tlsEnd⟩, htls, ⟨indirect, payloadLength⟩, hindirect,
    stackLength, hstack, _, hlimit, rfl⟩ := h
  obtain ⟨hargumentBytes, hclean⟩ := textSize_eq harguments
  obtain ⟨henvironmentBytes, hclean'⟩ := environment_eq henvironment
  obtain ⟨hle, -, hstacklimit⟩ := alignUp_eq (by decide) hstack
  obtain ⟨hdvd₁, himage₁⟩ := placeImage_eq hlifecycle
  obtain ⟨hdvd₂, himage₂⟩ := placeImage_eq htls
  obtain ⟨hdvd₃, himage₃⟩ := placeImage_eq hindirect
  obtain ⟨_, ⟨-, rfl⟩, _, ⟨-, rfl⟩, _, ⟨-, rfl⟩, _, ⟨-, rfl⟩, -, rfl⟩ := hunaligned
  refine ⟨?_, ⟨hdvd₁, hdvd₂, hdvd₃⟩, ⟨Nat.le_of_not_lt hlimit, hstacklimit⟩, hclean, hclean'⟩
  simp only at henvironmentBytes
  rw [Nat.zero_add] at hargumentBytes henvironmentBytes
  have hrandom : Patch.Ascending (pointerBytes + textBytes argv + textBytes (process.kept envp))
      (pointerBytes + textBytes argv + textBytes (process.kept envp) + 16)
      [⟨pointerBytes + textBytes argv + textBytes (process.kept envp), random.1⟩] :=
    .single le_rfl (by simp only [stop, random.2, le_refl])
  have hexecfn : Patch.Ascending (pointerBytes + textBytes argv + textBytes (process.kept envp) + 16)
      (pointerBytes + textBytes argv + textBytes (process.kept envp) + 16 + execfn.length + 1)
      [⟨pointerBytes + textBytes argv + textBytes (process.kept envp) + 16, execfn ++ [0]⟩] :=
    .single le_rfl (by simp only [stop, length_append, length_singleton]; omega)
  have hend : pointerBytes + argumentBytes + environmentBytes + random.1.length + execfn.length + 1 =
      pointerBytes + textBytes argv + textBytes (process.kept envp) + 16 + execfn.length + 1 := by
    rw [hargumentBytes, henvironmentBytes, random.2]
    rfl
  rw [hend] at himage₁
  have hall := ((((((textPatches_ascending pointerBytes argv).append
    (textPatches_ascending (pointerBytes + textBytes argv) (process.kept envp))).append hrandom).append hexecfn).append
      himage₁).append himage₂).append himage₃
  exact ⟨hall.range.trans hle, fun p hp => ⟨(hall.inside p hp).1, (hall.inside p hp).2.trans hle⟩, hall.ordered⟩

/-! ## The stack that is handed on -/

def pointerArea (argv envp : List (List UInt8)) (auxiliary : List (UInt64 × UInt64)) (process : Process) (x : Extents) :
    List Cell :=
  [(argv.length, none)] ++ pointerCells x.pointerBytes argv ++ [(0, none)] ++
    pointerCells (x.pointerBytes + textBytes argv) (process.kept envp) ++ [(0, none)] ++
    entryCells process.image (entries process none auxiliary x
      (x.pointerBytes + textBytes argv + textBytes (process.kept envp))
      (x.pointerBytes + textBytes argv + textBytes (process.kept envp) + 16))

theorem storeImage_built {limit : ℕ} {b b' : Builder} {cells : List Cell} {texts : List Patch} {offset : ℕ}
    {bytes : List UInt8} (h : Built limit b cells texts)
    (hput : (storeImage none offset bytes b : Outcome (EncodeError κ) Builder) = .value b') :
    Built limit b' cells (texts ++ imagePatch offset bytes) := by
  unfold storeImage at hput
  unfold imagePatch
  split at hput
  next hbytes =>
    have hne : ¬ bytes.isEmpty = true := by simpa using hbytes
    rw [if_neg hne]
    exact (h.store_built hput).2
  next hbytes =>
    cases hput
    have hempty : bytes.isEmpty = true := by simpa using hbytes
    rwa [if_pos hempty, append_nil]

theorem build_eq {wire : Wire κ} {argv envp : List (List UInt8)} {execfn : List UInt8} {random : Fixed 16}
    {auxiliary : List (UInt64 × UInt64)} {process : Process} {x : Extents} {b : Builder}
    (h : build wire argv envp execfn random auxiliary process none x = .value b) :
    Built wire.maxStackBytes b (pointerArea argv envp auxiliary process x) (payload argv envp execfn random process x) ∧
      b.cursor = x.pointerBytes := by
  unfold build at h
  simp only [Outcome.bind_eq_value, Outcome.reject_eq_value, Outcome.pure_eq, Outcome.value.injEq] at h
  obtain ⟨⟨b₁, _⟩, hargc, b₂, hargv, ⟨b₃, _⟩, hnull₁, b₄, henvp, ⟨b₅, _⟩, hnull₂, b₆, hrandom, ⟨b₇, _⟩, hexecfn, b₈,
    hlifecycle, b₉, htls, b₁₀, hindirect, b₁₁, hentries, _, hcheck, rfl⟩ := h
  have hstart : Built wire.maxStackBytes ⟨replicate wire.maxStackBytes 0, [], 0, x.pointerBytes⟩ [] [] :=
    ⟨⟨[], .refl _, nofun, rfl⟩, rfl, rfl⟩
  obtain ⟨hbuilt₁, htext₁⟩ := hstart.putWord_built hargc
  obtain ⟨hbuilt₂, htext₂⟩ := putPointers_built hbuilt₁ hargv
  obtain ⟨hbuilt₃, htext₃⟩ := hbuilt₂.putWord_built hnull₁
  obtain ⟨hbuilt₄, htext₄⟩ := putPointers_built hbuilt₃ henvp
  obtain ⟨hbuilt₅, htext₅⟩ := hbuilt₄.putWord_built hnull₂
  simp only at htext₁ hrandom hexecfn hentries
  have hrandomOffset : b₅.textCursor = x.pointerBytes + textBytes argv + textBytes (process.kept envp) := by
    rw [htext₅, htext₄, htext₃, htext₂, htext₁]
    rfl
  obtain ⟨htext₆, hbuilt₆⟩ := hbuilt₅.store_built hrandom
  have hbuilt₆' : Built wire.maxStackBytes { b₆ with textCursor := b₆.textCursor + random.1.length } _ _ :=
    ⟨hbuilt₆.stack, hbuilt₆.cursor, hbuilt₆.relocations⟩
  obtain ⟨hexecfnOffset, -, hbuilt₇⟩ := hbuilt₆'.copyText_built hexecfn
  have hbuilt := putEntries_built (storeImage_built (storeImage_built (storeImage_built hbuilt₇ hlifecycle) htls) hindirect)
    hentries
  simp only at hexecfnOffset
  rw [htext₆, random.2, hrandomOffset] at hexecfnOffset
  refine ⟨?_, by omega⟩
  simp only [htext₆, random.2, hexecfnOffset, hrandomOffset, htext₃, htext₂, htext₁, nil_append] at hbuilt
  exact hbuilt

end MochiSyscalls.PosixClient.ProcessImage
