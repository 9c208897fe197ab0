import MochiSyscalls.Foundations.Effects

/-! # Counted loops of effects

`forRange f n b` is `for i in 0..n` with one carried value. A loop is reasoned about through an invariant
indexed by the iterations done; what may be said when the loop does not end with a value is one proposition,
so that one rule gives partial correctness (`True`), totality (`False`), and everything between. -/

namespace MochiSyscalls.Foundations.Effects
open Outcome
set_option autoImplicit false

variable {ω ε α β : Type}

/-- The condition holds of the value and the world, or there is no value and `bad` holds. -/
structure Settled (I : α → ω → Prop) (bad : Prop) (r : Outcome ε α) (w : ω) : Prop where
  of_value : ∀ a, r = value a → I a w
  of_none : (∀ a, r ≠ value a) → bad

variable {bad : Prop} {I : α → ω → Prop} {w : ω}

theorem settled_value {a : α} (h : I a w) : Settled I bad (value a : Outcome ε α) w :=
  ⟨fun b hb => by cases hb; exact h, fun hnone => absurd rfl (hnone a)⟩

theorem settled_failed {e : ε} (h : bad) : Settled I bad (failed e) w :=
  ⟨nofun, fun _ => h⟩

theorem settled_panicked (h : bad) : Settled I bad (panicked : Outcome ε α) w :=
  ⟨nofun, fun _ => h⟩

namespace Eff

def forRange (f : ℕ → β → Eff ω ε β) : ℕ → β → Eff ω ε β
  | 0, b => pure b
  | n + 1, b => forRange f n b >>= f n

theorem after_pure_settled {a : α} (h : I a w) : after (pure a : Eff ω ε α) (Settled I bad) w := settled_value h

theorem after.mono {x : Eff ω ε α} {J : α → ω → Prop} (hx : after x (Settled I bad) w)
    (hIJ : ∀ a w', I a w' → J a w') : after x (Settled J bad) w :=
  hx.imp fun _ _ hr => ⟨fun a ha => hIJ a _ (hr.of_value a ha), hr.of_none⟩

variable {J : β → ω → Prop}

theorem after_bind_settled {x : Eff ω ε α} {f : α → Eff ω ε β}
    (hx : after x (Settled I bad) w) (hf : ∀ a w', I a w' → after (f a) (Settled J bad) w') :
    after (x >>= f) (Settled J bad) w := by
  rw [after_bind]
  refine hx.imp fun r w' hr => ?_
  cases r with
  | value a => exact hf a w' (hr.of_value a rfl)
  | failed e => exact settled_failed (hr.of_none nofun)
  | panicked => exact settled_panicked (hr.of_none nofun)

theorem after_forRange {f : ℕ → β → Eff ω ε β} {I : ℕ → β → ω → Prop} {n : ℕ}
    (hstep : ∀ i < n, ∀ b w, I i b w → after (f i b) (Settled (I (i + 1)) bad) w) {b : β} (h : I 0 b w) :
    after (forRange f n b) (Settled (I n) bad) w := by
  induction n with
  | zero => exact after_pure_settled h
  | succ n ih =>
    have hfront := ih fun i hi => hstep i (Nat.lt_succ_of_lt hi)
    exact after_bind_settled hfront (hstep n (Nat.lt_succ_self n))

@[simp]
theorem lift_okOr_some_bind (a : α) (e : ε) (f : α → Eff ω ε β) : (lift (okOr (some a) e) >>= f) = f a := rfl

theorem onFst_bind {σ : Type} (x : Eff ω ε α) (f : α → Eff ω ε β) :
    (onFst (x >>= f) : Eff (ω × σ) ε β) = onFst x >>= fun a => onFst (f a) := by
  funext w
  have hleft : onFst (x >>= f) w = (((x >>= f) w.1).1, ((x >>= f) w.1).2, w.2) := rfl
  cases hx : x w.1 with
  | mk r w' =>
    have hfst : (onFst x : Eff (ω × σ) ε α) w = (r, w', w.2) := by
      unfold onFst
      rw [hx]
    rw [hleft]
    simp only [bind, hx, hfst]
    cases r <;> rfl

theorem after_bind_lift {x : Outcome ε α} {f : α → Eff ω ε β}
    (hvalue : ∀ a, x = value a → after (f a) (Settled J bad) w) (hbad : (∀ a, x ≠ value a) → bad) :
    after (lift x >>= f) (Settled J bad) w := by
  rw [after_bind]
  cases x with
  | value a => exact hvalue a rfl
  | failed e => exact settled_failed (hbad nofun)
  | panicked => exact settled_panicked (hbad nofun)

theorem after_bind_guard {p : Prop} [Decidable p] {e : ε} {f : Unit → Eff ω ε β}
    (hreject : p → bad) (hnext : ¬ p → after (f ()) (Settled J bad) w) :
    after (lift (reject p e) >>= f) (Settled J bad) w :=
  after_bind_reject (fun hp => settled_failed (hreject hp)) hnext

end Eff

end MochiSyscalls.Foundations.Effects
