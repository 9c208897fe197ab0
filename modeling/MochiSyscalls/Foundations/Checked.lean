import MochiSyscalls.Foundations.Loops

/-! # Checked steps

The steps of a function that returns early with an error, and when each of them goes on. -/

namespace MochiSyscalls.Foundations.Checked
set_option autoImplicit false

variable {ε ε' α β : Type}

def reject (p : Prop) [Decidable p] (e : ε) : Except ε Unit := if p then .error e else .ok ()

def okOr (o : Option α) (e : ε) : Except ε α :=
  match o with
  | some a => .ok a
  | none => .error e

theorem reject_eq_ok {p : Prop} [Decidable p] {e : ε} {u : Unit} : reject p e = .ok u ↔ ¬ p := by
  unfold reject
  split
  · exact iff_of_false nofun (not_not_intro ‹p›)
  · exact iff_of_true rfl ‹¬ p›

theorem reject_bind {p : Prop} [Decidable p] {e : ε} {f : Unit → Except ε α} {a : α} (hp : ¬ p) (h : f () = .ok a) :
    (reject p e >>= f) = .ok a := Loops.bind_ok (reject_eq_ok.mpr hp) h

theorem okOr_eq_ok {o : Option α} {e : ε} {a : α} : okOr o e = .ok a ↔ o = some a := by
  cases o <;> simp [okOr]

theorem mapError_eq_ok {f : ε → ε'} {x : Except ε α} {a : α} : x.mapError f = .ok a ↔ x = .ok a := by
  cases x <;> simp [Except.mapError]

theorem forM_eq_ok {f : α → Except ε Unit} {items : List α} {u : Unit} :
    items.forM f = .ok u ↔ ∀ a ∈ items, f a = .ok () := by
  induction items with
  | nil => exact iff_of_true rfl nofun
  | cons a items ih =>
    rw [List.forM, Loops.bind_eq_ok, List.forall_mem_cons]
    constructor
    · rintro ⟨_, ha, h⟩
      exact ⟨ha, ih.mp h⟩
    · rintro ⟨ha, h⟩
      exact ⟨(), ha, ih.mpr h⟩

end MochiSyscalls.Foundations.Checked
