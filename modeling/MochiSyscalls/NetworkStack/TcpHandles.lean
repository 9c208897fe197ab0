import MochiSyscalls.NetworkStack.TcpTable
import MochiSyscalls.Foundations.Orbits

/-! # Free handles

`allocate_handle` walks the orbit of the seed under one fixed map. With a row left the walk is longer than the list of
handles in use, so it fails exactly when the orbit never leaves that list. The map has a fixed point, and an orbit that
starts at a fixed point in use never leaves. -/

namespace MochiSyscalls.NetworkStack.TcpConnectionTable
open Foundations Words Orbits List
set_option autoImplicit false

def probe (candidate : UInt64) : UInt64 := max (rotateLeft candidate 17 + 0x9e3779b97f4a7c15) 1

def handles (t : TcpConnectionTable) : List UInt64 := t.listeners.map (·.handle) ++ t.connections.map (·.handle)

variable {t : TcpConnectionTable} {candidate handle seed : UInt64}

theorem mem_handles : handle ∈ t.handles ↔ t.HandleUsed handle := by
  simp only [handles, HandleUsed, mem_append, mem_map]

theorem card_handles : t.handles.toFinset.card ≤ t.connections.length + t.listeners.length := by
  refine (toFinset_card_le _).trans ?_
  rw [handles, length_append, length_map, length_map, Nat.add_comm]

theorem max_one_ne_zero (word : UInt64) : max word 1 ≠ 0 := by
  change (if word ≤ 1 then 1 else word) ≠ 0
  split
  · decide
  next h =>
    rintro rfl
    exact h (by decide)

theorem allocateFrom_succ (n : ℕ) : t.allocateFrom (n + 1) candidate =
    if t.HandleUsed candidate then t.allocateFrom n (probe candidate) else .ok candidate := rfl

theorem allocateFrom_ok {n : ℕ} (h : t.allocateFrom n candidate = .ok handle) (hne : candidate ≠ 0) :
    handle ≠ 0 ∧ ¬ t.HandleUsed handle := by
  induction n generalizing candidate with
  | zero => cases h
  | succ n ih =>
    rw [allocateFrom_succ] at h
    split at h
    · exact ih h (max_one_ne_zero _)
    next hfree =>
      cases h
      exact ⟨hne, hfree⟩

theorem allocateFrom_error (n : ℕ) :
    t.allocateFrom n candidate = .error .capacity ↔ ∀ k < n, t.HandleUsed (probe^[k] candidate) := by
  induction n generalizing candidate with
  | zero => exact ⟨fun _ _ h => absurd h (Nat.not_lt_zero _), fun _ => rfl⟩
  | succ n ih =>
    rw [allocateFrom_succ]
    split
    next hused =>
      rw [ih]
      constructor
      · intro h k hk
        cases k with
        | zero => exact hused
        | succ k =>
          rw [Function.iterate_succ_apply]
          exact h k (Nat.lt_of_succ_lt_succ hk)
      · intro h k hk
        have hnext := h (k + 1) (Nat.succ_lt_succ hk)
        rwa [Function.iterate_succ_apply] at hnext
    next hfree => exact ⟨nofun, fun h => absurd (h 0 n.succ_pos) hfree⟩

theorem allocateFrom_total (n : ℕ) :
    t.allocateFrom n candidate = .error .capacity ∨ ∃ handle, t.allocateFrom n candidate = .ok handle := by
  induction n generalizing candidate with
  | zero => exact .inl rfl
  | succ n ih =>
    rw [allocateFrom_succ]
    split
    · exact ih
    · exact .inr ⟨candidate, rfl⟩

/-- **A free handle is found, unless the orbit of the seed is trapped** in the handles in use; then the table is
reported full. -/
theorem allocateHandle_finds (hroom : ¬ t.Full) (seed : UInt64) :
    (∀ handle, t.allocateHandle seed = .ok handle → handle ≠ 0 ∧ ¬ t.HandleUsed handle) ∧
    ((∃ handle, t.allocateHandle seed = .ok handle) ↔ ∃ k, ¬ t.HandleUsed (probe^[k] (max seed 1))) ∧
    ((∀ k, t.HandleUsed (probe^[k] (max seed 1))) → t.allocateHandle seed = .error .capacity) := by
  have hcard : t.handles.toFinset.card ≤ t.capacity := card_handles.trans (not_le.1 hroom).le
  refine ⟨fun handle h => allocateFrom_ok h (max_one_ne_zero _), ⟨?_, ?_⟩,
    fun h => (allocateFrom_error _).2 fun k _ => h k⟩
  · rintro ⟨handle, h⟩
    by_contra hnone
    have herror := (allocateFrom_error (t.capacity + 1)).2 fun k _ => not_not.1 (not_exists.1 hnone k)
    rw [allocateHandle, herror] at h
    cases h
  · rintro ⟨k, hfree⟩
    refine (allocateFrom_total (t.capacity + 1)).resolve_left fun herror => hfree ?_
    rw [← mem_handles, ← mem_toFinset]
    -- a walk of `capacity + 1` handles in use is longer than their list
    refine iterate_mem (fun k hk => ?_) k
    rw [mem_toFinset, mem_handles]
    exact (allocateFrom_error _).1 herror k (Nat.lt_succ_of_le (hk.trans hcard))

namespace HandleFixture

def fixedPoint : UInt64 := 0x4de6d7d7af0f17e2

def config : TcpListenConfig :=
  { backlog := 1, localMss := 536, sendCapacity := 64, receiveCapacity := 64, retransmitTimeout := 1000, retryLimit := 3 }

def listener : Listener :=
  { handle := fixedPoint, owner := 7, address := .any, port := 80, config, pending := [], ready := [] }

def table : TcpConnectionTable := { connections := [], listeners := [listener], capacity := 2 }

theorem allocateHandle_trapped : probe fixedPoint = fixedPoint ∧ ¬ table.Full ∧ ¬ table.HandleUsed 1 ∧
      table.allocateHandle fixedPoint = .error .capacity := by decide +kernel

/-- The seed itself is in use. -/
def taken : TcpConnectionTable := { table with listeners := [{ listener with handle := 5 }] }

theorem allocateHandle_finds_next : taken.HandleUsed 5 ∧ taken.allocateHandle 5 = .ok (probe 5) ∧
      ((∃ handle, taken.allocateHandle 5 = .ok handle) ↔ ∃ k, ¬ taken.HandleUsed (probe^[k] (max 5 1))) :=
  ⟨by decide, by rfl, (allocateHandle_finds (by decide) 5).2.1⟩

end HandleFixture

end MochiSyscalls.NetworkStack.TcpConnectionTable
