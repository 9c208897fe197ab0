import MochiSyscalls.Foundations.Intervals
import MochiSyscalls.Foundations.LittleEndian

/-! # Patches of a buffer

Writes into a buffer, one after the other. Patches that are apart do not disturb one another: each can be read back, and
what none of them touches is as before. -/

namespace MochiSyscalls.Foundations.Bytes
open Intervals List
set_option autoImplicit false

section

variable {mem bytes : List UInt8} {offset : ℕ} (h : offset + bytes.length ≤ mem.length)
include h

theorem splice_length : (splice mem offset bytes).length = mem.length := by
  unfold splice
  rw [length_append, length_append, length_take, length_drop]
  omega

theorem getElem?_splice (i : ℕ) :
    (splice mem offset bytes)[i]? = if offset ≤ i ∧ i < offset + bytes.length then bytes[i - offset]? else mem[i]? := by
  unfold splice
  have hfront : (mem.take offset).length = offset := by
    rw [length_take]
    omega
  rw [append_assoc]
  rcases Nat.lt_or_ge i offset with hlow | hlow
  · rw [if_neg (by omega), getElem?_append_left (by omega), getElem?_take_of_lt hlow]
  rw [getElem?_append_right (by omega), hfront]
  rcases Nat.lt_or_ge i (offset + bytes.length) with hhigh | hhigh
  · rw [if_pos ⟨hlow, hhigh⟩, getElem?_append_left (by omega)]
  · rw [if_neg (by omega), getElem?_append_right (by omega), getElem?_drop]
    congr 1
    omega

end

theorem getElem?_slice {mem body : List UInt8} {start stop k : ℕ} (h : slice mem start stop = some body)
    (hk : k < stop - start) : body[k]? = mem[start + k]? := by
  unfold slice at h
  split at h
  next hr =>
    cases h
    rw [getElem?_drop, getElem?_take_of_lt (by omega)]
  · cases h

theorem slice_eq_some_of_bytes {mem body : List UInt8} {start : ℕ} (hlen : start + body.length ≤ mem.length)
    (h : ∀ k < body.length, mem[start + k]? = body[k]?) : slice mem start (start + body.length) = some body := by
  rw [slice_isSome (Nat.le_add_right _ _) hlen]
  congr 1
  refine ext_getElem? fun k => ?_
  rw [getElem?_drop]
  rcases Nat.lt_or_ge k body.length with hk | hk
  · rw [getElem?_take_of_lt (by omega), h k hk]
  · rw [getElem?_eq_none (by rw [length_take]; omega), getElem?_eq_none hk]

theorem slice_take {mem body : List UInt8} {start stop length : ℕ} (h : slice mem start stop = some body)
    (hstop : stop ≤ length) : slice (mem.take length) start stop = some body := by
  obtain ⟨front, rest, rfl, rfl, rfl⟩ := slice_eq_some.1 h
  have hlen : (front ++ body).length ≤ length := by rwa [length_append]
  rw [← append_assoc, take_append, take_of_length_le hlen, append_assoc]
  exact slice_append _ _ _

theorem slice_behind {front front' tail body : List UInt8} {start stop : ℕ} (hlen : front.length = front'.length)
    (hstart : front.length ≤ start) (h : slice (front ++ tail) start stop = some body) :
    slice (front' ++ tail) start stop = some body := by
  have hstop := slice_stop h
  have hin : stop ≤ (front ++ tail).length := by
    obtain ⟨a, b, heq, ha, hb⟩ := slice_eq_some.1 h
    rw [heq, length_append, length_append]
    omega
  rw [← hstop]
  refine slice_eq_some_of_bytes ?_ fun k hk => ?_
  · rw [length_append] at hin ⊢
    omega
  · rw [getElem?_slice h (by omega), getElem?_append_right (by omega), getElem?_append_right (by omega), hlen]

structure Patch where
  offset : ℕ
  bytes : List UInt8

namespace Patch

def stop (p : Patch) : ℕ := p.offset + p.bytes.length

def apply (mem : List UInt8) (p : Patch) : List UInt8 := splice mem p.offset p.bytes

def applyAll (mem : List UInt8) (patches : List Patch) : List UInt8 := patches.foldl apply mem

def Fit (length : ℕ) (patches : List Patch) : Prop := ∀ p ∈ patches, p.stop ≤ length

variable {mem : List UInt8} {patches : List Patch}

theorem applyAll_append (more : List Patch) : applyAll mem (patches ++ more) = applyAll (applyAll mem patches) more :=
  foldl_append

theorem applyAll_length (h : Fit mem.length patches) : (applyAll mem patches).length = mem.length := by
  induction patches generalizing mem with
  | nil => rfl
  | cons p patches ih =>
    obtain ⟨hp, hrest⟩ := forall_mem_cons.1 h
    have hlen : (p.apply mem).length = mem.length := splice_length hp
    rw [applyAll, foldl_cons]
    exact (ih (by rw [hlen]; exact hrest)).trans hlen

theorem applyAll_untouched (h : Fit mem.length patches) {i : ℕ} (hi : ∀ p ∈ patches, i < p.offset ∨ p.stop ≤ i) :
    (applyAll mem patches)[i]? = mem[i]? := by
  induction patches generalizing mem with
  | nil => rfl
  | cons p patches ih =>
    obtain ⟨hp, hrest⟩ := forall_mem_cons.1 h
    obtain ⟨hpi, hresti⟩ := forall_mem_cons.1 hi
    have hlen : (p.apply mem).length = mem.length := splice_length hp
    rw [applyAll, foldl_cons]
    refine (ih (by rw [hlen]; exact hrest) hresti).trans ?_
    rw [apply, getElem?_splice hp, if_neg]
    rw [stop] at hpi
    omega

variable {p : Patch}

section

variable (h : Fit mem.length patches) (hapart : patches.Pairwise (Apart offset stop))
  (hp : p ∈ patches)
include h hapart hp

theorem applyAll_patched
    {k : ℕ} (hk : k < p.bytes.length) : (applyAll mem patches)[p.offset + k]? = p.bytes[k]? := by
  induction patches generalizing mem with
  | nil => cases hp
  | cons q patches ih =>
    obtain ⟨hq, hrest⟩ := forall_mem_cons.1 h
    obtain ⟨hqapart, hpairs⟩ := pairwise_cons.1 hapart
    have hlen : (q.apply mem).length = mem.length := splice_length hq
    rw [applyAll, foldl_cons]
    rcases mem_cons.1 hp with rfl | hp
    · have huntouched : ∀ r ∈ patches, p.offset + k < r.offset ∨ r.stop ≤ p.offset + k := by
        intro r hr
        have hor := hqapart r hr
        unfold Apart at hor
        simp only [stop] at hor ⊢
        omega
      refine (applyAll_untouched (by rw [hlen]; exact hrest) huntouched).trans ?_
      rw [apply, getElem?_splice hq, if_pos (by omega), Nat.add_sub_cancel_left]
    · exact ih (by rw [hlen]; exact hrest) hpairs hp

theorem slice_applyAll : slice (applyAll mem patches) p.offset p.stop = some p.bytes :=
  slice_eq_some_of_bytes (by rw [applyAll_length h]; exact h p hp) fun _ hk => applyAll_patched h hapart hp hk

theorem readLe_applyAll
    {front rest : List UInt8} {n x : ℕ} (hbytes : p.bytes = front ++ (toLe n x ++ rest))
    (hx : x < 256 ^ n) : readLe n (applyAll mem patches) (p.offset + front.length) = some x := by
  have hslice := slice_applyAll h hapart hp
  rw [hbytes, slice_append_iff, slice_append_iff, toLe_length] at hslice
  exact readLe_eq_some.2 ⟨hslice.2.1, hx⟩

end

/-! ## Patches in ascending order -/

structure Ascending (low high : ℕ) (patches : List Patch) : Prop where
  range : low ≤ high
  inside : ∀ p ∈ patches, low ≤ p.offset ∧ p.stop ≤ high
  ordered : patches.Pairwise fun p q => p.stop ≤ q.offset

theorem Ascending.nil {low high : ℕ} (h : low ≤ high) : Ascending low high [] := ⟨h, nofun, .nil⟩

theorem Ascending.single {low high : ℕ} (hlow : low ≤ p.offset) (hhigh : p.stop ≤ high) : Ascending low high [p] := by
  refine ⟨?_, fun q hq => ?_, pairwise_singleton _ _⟩
  · rw [stop] at hhigh
    omega
  · rw [mem_singleton] at hq
    subst hq
    exact ⟨hlow, hhigh⟩

theorem Ascending.append {low middle high : ℕ} {front rest : List Patch} (hfront : Ascending low middle front)
    (hrest : Ascending middle high rest) : Ascending low high (front ++ rest) := by
  refine ⟨hfront.range.trans hrest.range, fun p hp => ?_, pairwise_append.2 ⟨hfront.ordered, hrest.ordered, ?_⟩⟩
  · rcases mem_append.1 hp with hp | hp
    · exact ⟨(hfront.inside p hp).1, (hfront.inside p hp).2.trans hrest.range⟩
    · exact ⟨hfront.range.trans (hrest.inside p hp).1, (hrest.inside p hp).2⟩
  · exact fun p hp q hq => (hfront.inside p hp).2.trans (hrest.inside q hq).1

theorem Ascending.apart {low high : ℕ} (h : Ascending low high patches) : patches.Pairwise (Apart offset stop) :=
  h.ordered.imp .inl

/-- Patches that can be put in ascending order are all read back, in whatever order they were applied. -/
theorem Ascending.slice_of_perm {low high : ℕ} {ordered : List Patch} (h : Ascending low high ordered)
    (hperm : patches.Perm ordered) (hhigh : high ≤ mem.length) (hp : p ∈ ordered) :
    slice (applyAll mem patches) p.offset p.stop = some p.bytes := by
  refine slice_applyAll (fun q hq => ?_) ?_ (hperm.mem_iff.2 hp)
  · exact (h.inside q (hperm.mem_iff.1 hq)).2.trans hhigh
  · exact (hperm.pairwise_iff fun {a b} hab => Or.symm hab).2 h.apart

end Patch

end MochiSyscalls.Foundations.Bytes
