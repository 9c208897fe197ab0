import MochiSyscalls.Foundations.Checked

/-! # Streams that can break off

What an enumeration hands to its visitor one by one: values, or the error that ends it. A visit that goes through has met
no error, and is then a fold over the values. -/

namespace MochiSyscalls.Foundations.Streams
open Checked Loops List
set_option autoImplicit false

variable {α σ ε ε' : Type}

/-- Visiting a stream; the visitor may end it with an error of its own. -/
def consume (lift : ε → ε') (visit : σ → α → Except ε' σ) (s : σ) (items : List (Except ε α)) : Except ε' σ :=
  items.foldlM (fun s item => item.mapError lift >>= visit s) s

theorem consume_map_ok (lift : ε → ε') (visit : σ → α → Except ε' σ) (s : σ) (values : List α) :
    consume lift visit s (values.map .ok) = values.foldlM visit s := by
  unfold consume
  rw [foldlM_map]
  rfl

theorem consume_eq_ok {lift : ε → ε'} {visit : σ → α → Except ε' σ} {s s' : σ} {items : List (Except ε α)} :
    consume lift visit s items = .ok s' ↔ ∃ values : List α, items = values.map .ok ∧ values.foldlM visit s = .ok s' := by
  constructor
  · intro h
    unfold consume at h
    induction items generalizing s with
    | nil => exact ⟨[], rfl, h⟩
    | cons item items ih =>
      rw [foldlM_cons] at h
      obtain ⟨s₁, hitem, hrest⟩ := bind_eq_ok.1 h
      obtain ⟨a, ha, hvisit⟩ := bind_eq_ok.1 hitem
      obtain ⟨values, rfl, hfold⟩ := ih hrest
      rw [mapError_eq_ok] at ha
      refine ⟨a :: values, by rw [ha, map_cons], ?_⟩
      rw [foldlM_cons, hvisit]
      exact hfold
  · rintro ⟨values, rfl, h⟩
    rw [consume_map_ok, h]

def values (items : List (Except ε α)) : List α := items.filterMap fun
  | .ok a => some a
  | .error _ => none

@[simp] theorem values_map_ok (as : List α) : values (as.map (@Except.ok ε α)) = as := by
  unfold values
  rw [filterMap_map]
  exact filterMap_some

end MochiSyscalls.Foundations.Streams
