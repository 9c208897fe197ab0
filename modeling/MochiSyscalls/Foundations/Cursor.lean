import Mathlib

/-! # A cursor that goes round a range

A search that resumes where the last one stopped: the cursor turns over the numbers from `lo` to
`hi`, and `search` tries at most `n` of them. A search of full length that finds nothing has tried
every number of the range, wherever it started. -/

namespace MochiSyscalls.Foundations.Cursor
set_option autoImplicit false

def turn (lo hi c : ℕ) : ℕ := if c = hi then lo else c + 1

theorem turn_range {lo hi c : ℕ} (hlo : lo ≤ c) (hhi : c ≤ hi) : lo ≤ turn lo hi c ∧ turn lo hi c ≤ hi := by
  unfold turn
  split <;> omega

theorem iterate_turn {lo hi c : ℕ} (hlo : lo ≤ c) (hhi : c ≤ hi) {k : ℕ} (hk : k ≤ hi - lo) :
    (turn lo hi)^[k] c = if c + k ≤ hi then c + k else c + k - (hi - lo + 1) := by
  induction k with
  | zero => simp [hhi]
  | succ k ih =>
    rw [Function.iterate_succ_apply', ih (by omega)]
    unfold turn
    split <;> split <;> split <;> omega

theorem exists_iterate_turn {lo hi c p : ℕ} (hlo : lo ≤ c) (hhi : c ≤ hi) (hp : lo ≤ p) (hp' : p ≤ hi) :
    ∃ k < hi - lo + 1, (turn lo hi)^[k] c = p := by
  obtain h | h := le_or_gt c p
  · refine ⟨p - c, by omega, ?_⟩
    rw [iterate_turn hlo hhi (by omega), if_pos (by omega)]
    omega
  · refine ⟨p + (hi - lo + 1) - c, by omega, ?_⟩
    rw [iterate_turn hlo hhi (by omega), if_neg (by omega)]
    omega

variable {α : Type}

/-- At most `n` candidates: the cursor afterwards and the first candidate that is free. -/
def search (next : α → α) (busy : α → Prop) [DecidablePred busy] : ℕ → α → α × Option α
  | 0, c => (c, none)
  | n + 1, c => if busy c then search next busy n (next c) else (next c, some c)

section

variable {next : α → α} {busy : α → Prop} [DecidablePred busy]

theorem search_invariant {P : α → Prop} (hnext : ∀ c, P c → P (next c)) {n : ℕ} {c : α} (hc : P c) :
    P (search next busy n c).1 ∧ ∀ p, (search next busy n c).2 = some p → ¬ busy p ∧ P p := by
  induction n generalizing c with
  | zero => exact ⟨hc, nofun⟩
  | succ n ih =>
    unfold search
    split
    · exact ih (hnext c hc)
    next hb =>
      refine ⟨hnext c hc, ?_⟩
      intro p hp
      cases hp
      exact ⟨hb, hc⟩

theorem search_none {n : ℕ} {c : α} (h : (search next busy n c).2 = none) : ∀ k < n, busy (next^[k] c) := by
  induction n generalizing c with
  | zero => exact fun k hk => absurd hk (Nat.not_lt_zero k)
  | succ n ih =>
    unfold search at h
    split at h
    next hb =>
      intro k hk
      cases k with
      | zero => exact hb
      | succ k => exact ih h k (by omega)
    · cases h

end

end MochiSyscalls.Foundations.Cursor
