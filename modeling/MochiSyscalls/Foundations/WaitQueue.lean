import Mathlib

/-! # Threads blocked at an address

A waiting thread is blocked while it is in the list; waking takes threads out of it. Which of them is woken is not the
waker's choice: `prefer` lists the threads that are taken first. -/

namespace MochiSyscalls.Foundations.WaitQueue
open List
set_option autoImplicit false

def woken (count : ℕ) (prefer blocked : List ℕ) : List ℕ :=
  (blocked.filter (· ∈ prefer) ++ blocked.filter (· ∉ prefer)).take count

def wake (count : ℕ) (prefer blocked : List ℕ) : List ℕ := blocked.filter (· ∉ woken count prefer blocked)

variable {count id : ℕ} {prefer blocked : List ℕ}

theorem mem_order : id ∈ blocked.filter (· ∈ prefer) ++ blocked.filter (· ∉ prefer) ↔ id ∈ blocked := by
  simp only [mem_append, mem_filter, decide_eq_true_eq]
  tauto

theorem mem_of_woken (h : id ∈ woken count prefer blocked) : id ∈ blocked := mem_order.1 (List.mem_of_mem_take h)

theorem mem_wake : id ∈ wake count prefer blocked ↔ id ∈ blocked ∧ id ∉ woken count prefer blocked := by
  rw [wake, mem_filter, decide_eq_true_eq]

theorem mem_of_wake (h : id ∈ wake count prefer blocked) : id ∈ blocked := (mem_wake.1 h).1

theorem exists_woken (hcount : 0 < count) (h : blocked ≠ []) : ∃ id ∈ blocked, id ∉ wake count prefer blocked := by
  obtain ⟨first, hfirst⟩ := exists_mem_of_ne_nil blocked h
  have horder : blocked.filter (· ∈ prefer) ++ blocked.filter (· ∉ prefer) ≠ [] :=
    ne_nil_of_mem (mem_order.2 hfirst)
  obtain ⟨id, rest, hcons⟩ := exists_cons_of_ne_nil horder
  obtain ⟨more, rfl⟩ : ∃ more, count = more + 1 := ⟨count - 1, by omega⟩
  have hwoken : id ∈ woken (more + 1) prefer blocked := by
    rw [woken, hcons, take_succ_cons]
    exact mem_cons_self
  exact ⟨id, mem_of_woken hwoken, fun hstays => (mem_wake.1 hstays).2 hwoken⟩

theorem wake_nil : wake count prefer [] = [] := rfl

end MochiSyscalls.Foundations.WaitQueue
