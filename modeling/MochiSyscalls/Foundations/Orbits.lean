import Mathlib

/-! # Orbits of a map inside a finite set -/

namespace MochiSyscalls.Foundations.Orbits
set_option autoImplicit false

variable {α : Type} {f : α → α} {x : α}

theorem iterate_of_repeat {i j : ℕ} (hij : i < j) (heq : f^[i] x = f^[j] x) (k : ℕ) : ∃ m < j, f^[k] x = f^[m] x := by
  induction k with
  | zero => exact ⟨0, by omega, rfl⟩
  | succ k ih =>
    obtain ⟨m, hm, hk⟩ := ih
    have hnext : f^[k + 1] x = f^[m + 1] x := by rw [Function.iterate_succ_apply', hk, Function.iterate_succ_apply']
    by_cases hlast : m + 1 = j
    · exact ⟨i, hij, hnext.trans (by rw [hlast, heq])⟩
    · exact ⟨m + 1, by omega, hnext⟩

/-- An orbit that stays in a finite set for as many steps as the set has elements never leaves it. -/
theorem iterate_mem [DecidableEq α] {s : Finset α} (h : ∀ k ≤ s.card, f^[k] x ∈ s) (k : ℕ) : f^[k] x ∈ s := by
  have hcard : s.card < (Finset.range (s.card + 1)).card := by
    rw [Finset.card_range]
    exact Nat.lt_succ_self _
  have hmaps : ∀ m ∈ Finset.range (s.card + 1), f^[m] x ∈ s :=
    fun m hm => h m (Nat.lt_succ_iff.1 (Finset.mem_range.1 hm))
  have hinside : ∀ {a b : ℕ}, a < b → b ∈ Finset.range (s.card + 1) → f^[a] x = f^[b] x → f^[k] x ∈ s := by
    intro a b hab hb heq
    obtain ⟨m, hm, hk⟩ := iterate_of_repeat hab heq k
    rw [hk]
    exact h m (hm.le.trans (Nat.lt_succ_iff.1 (Finset.mem_range.1 hb)))
  obtain ⟨a, ha, b, hb, hab, heq⟩ := Finset.exists_ne_map_eq_of_card_lt_of_maps_to hcard hmaps
  rcases Nat.lt_or_gt_of_ne hab with hlt | hgt
  · exact hinside hlt hb heq
  · exact hinside hgt ha heq.symm

end MochiSyscalls.Foundations.Orbits
