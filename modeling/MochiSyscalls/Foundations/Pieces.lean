import Mathlib

/-! # Pieces

A length worked off in pieces of at most a given size, as a loop over a buffer does. -/

namespace MochiSyscalls.Foundations.Pieces
set_option autoImplicit false

/-- The offsets and sizes of the pieces from an offset on. -/
def pieces (limit length : ℕ) (offset : ℕ) : List (ℕ × ℕ) :=
  if offset < length ∧ 0 < limit then
    (offset, min (length - offset) limit) :: pieces limit length (offset + min (length - offset) limit)
  else []
termination_by length - offset

theorem pieces_spec (limit length offset : ℕ) :
    (∀ piece ∈ pieces limit length offset, offset ≤ piece.1 ∧ piece.1 + piece.2 ≤ length) ∧
      (pieces limit length offset).Pairwise fun a b => a.1 + a.2 ≤ b.1 := by
  induction offset using pieces.induct limit length with
  | case1 offset hlt ih =>
    rw [pieces, if_pos hlt]
    obtain ⟨hin, hpairs⟩ := ih
    refine ⟨List.forall_mem_cons.2 ⟨⟨le_rfl, by omega⟩, fun piece hp => ?_⟩, List.pairwise_cons.2 ⟨fun piece hp => ?_, hpairs⟩⟩
    · have h := hin piece hp
      omega
    · exact (hin piece hp).1
  | case2 offset hge =>
    rw [pieces, if_neg hge]
    exact ⟨nofun, .nil⟩

end MochiSyscalls.Foundations.Pieces
