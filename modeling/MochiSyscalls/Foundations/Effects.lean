import Mathlib

/-! # Outcomes and effects

A checked computation ends with a value, with an error it returns, or with a panic. An effect is a
checked computation over a world that it reads and changes; what it changed before an error stays
changed. `after` is the precondition of an effect for a condition on its outcome and on the world it
leaves, with one rule for each way to build effects. -/

namespace MochiSyscalls.Foundations.Effects
set_option autoImplicit false

inductive Outcome (ε α : Type) where
  | value (a : α)
  | failed (e : ε)
  | panicked
  deriving DecidableEq

namespace Outcome

variable {ε ε' α β : Type}

instance : Monad (Outcome ε) where
  pure := value
  bind x f :=
    match x with
    | value a => f a
    | failed e => failed e
    | panicked => panicked

/-- A slice or an index, which panics when it is out of range. -/
def ofOption : Option α → Outcome ε α
  | some a => value a
  | none => panicked

def reject (p : Prop) [Decidable p] (e : ε) : Outcome ε Unit := if p then failed e else value ()

/-- `map_err`. -/
def mapError (f : ε → ε') : Outcome ε α → Outcome ε' α
  | value a => value a
  | failed e => failed (f e)
  | panicked => panicked

/-- `.ok()`. -/
def toOption : Outcome ε α → Outcome ε' (Option α)
  | value a => value (some a)
  | failed _ => value none
  | panicked => panicked

def isValue : Outcome ε α → Bool
  | value _ => true
  | _ => false

@[simp] theorem value_bind (a : α) (f : α → Outcome ε β) : (value a >>= f) = f a := rfl

@[simp] theorem failed_bind (e : ε) (f : α → Outcome ε β) : (failed e >>= f) = failed e := rfl

@[simp] theorem panicked_bind (f : α → Outcome ε β) : ((panicked : Outcome ε α) >>= f) = panicked := rfl

@[simp] theorem pure_eq (a : α) : (pure a : Outcome ε α) = value a := rfl

variable {x : Outcome ε α}

theorem bind_eq_panicked {f : α → Outcome ε β} :
    (x >>= f) = panicked ↔ x = panicked ∨ ∃ a, x = value a ∧ f a = panicked := by
  cases x <;> simp

theorem bind_eq_value {f : α → Outcome ε β} {b : β} : (x >>= f) = value b ↔ ∃ a, x = value a ∧ f a = value b := by
  cases x <;> simp

theorem bind_ne_panicked {f : α → Outcome ε β} (hx : x ≠ panicked)
    (hf : ∀ a, x = value a → f a ≠ panicked) : (x >>= f) ≠ panicked := by
  rw [ne_eq, bind_eq_panicked]
  rintro (h | ⟨a, ha, h⟩)
  · exact hx h
  · exact hf a ha h

variable {o : Option α}

theorem ofOption_eq_panicked : (ofOption o : Outcome ε α) = panicked ↔ o = none := by
  cases o <;> simp [ofOption]

theorem ofOption_eq_value {a : α} : (ofOption o : Outcome ε α) = value a ↔ o = some a := by
  cases o <;> simp [ofOption]

variable {p : Prop}

theorem reject_ne_panicked [Decidable p] {e : ε} : reject p e ≠ panicked := by
  unfold reject
  split <;> exact nofun

theorem reject_eq_value [Decidable p] {e : ε} {u : Unit} : reject p e = value u ↔ ¬ p := by
  unfold reject
  split
  · exact iff_of_false nofun (not_not_intro ‹p›)
  · exact iff_of_true rfl ‹¬ p›

theorem mapError_eq_panicked {f : ε → ε'} : mapError f x = panicked ↔ x = panicked := by
  cases x <;> simp [mapError]

theorem mapError_eq_value {f : ε → ε'} {a : α} : mapError f x = value a ↔ x = value a := by
  cases x <;> simp [mapError]

def okOr (o : Option α) (e : ε) : Outcome ε α :=
  match o with
  | some a => value a
  | none => failed e

theorem okOr_eq_value {e : ε} {a : α} : okOr o e = value a ↔ o = some a := by
  cases o <;> simp [okOr]

end Outcome

open Outcome

/-! ## Effects -/

def Eff (ω ε α : Type) : Type := ω → Outcome ε α × ω

namespace Eff

variable {ω ε α β : Type}

instance : Monad (Eff ω ε) where
  pure a := fun w => (value a, w)
  bind x f := fun w =>
    match x w with
    | (value a, w') => f a w'
    | (failed e, w') => (failed e, w')
    | (panicked, w') => (panicked, w')

def lift (x : Outcome ε α) : Eff ω ε α := fun w => (x, w)

def get : Eff ω ε ω := fun w => (value w, w)

def set (w : ω) : Eff ω ε Unit := fun _ => (value (), w)

def onFst {σ : Type} (x : Eff ω ε α) : Eff (ω × σ) ε α := fun w => ((x w.1).1, ((x w.1).2, w.2))

def onSnd {σ : Type} (x : Eff ω ε α) : Eff (σ × ω) ε α := fun w => ((x w.2).1, (w.1, (x w.2).2))

/-- `.ok()`. -/
def toOption (x : Eff ω ε α) : Eff ω ε (Option α) := fun w => ((x w).1.toOption, (x w).2)

/-- The condition holds of the outcome and of the world after it. -/
def after (x : Eff ω ε α) (Q : Outcome ε α → ω → Prop) (w : ω) : Prop := Q (x w).1 (x w).2

variable {w : ω}

theorem after_lift {x : Outcome ε α} {Q : Outcome ε α → ω → Prop} : after (lift x) Q w ↔ Q x w := Iff.rfl

theorem after_onFst {σ : Type} {x : Eff ω ε α} {Q : Outcome ε α → ω × σ → Prop} {w : ω × σ} :
    after (onFst x) Q w ↔ after x (fun r w' => Q r (w', w.2)) w.1 := Iff.rfl

/-- What remains to be shown of a sequence after its first part. -/
def next (f : α → Eff ω ε β) (Q : Outcome ε β → ω → Prop) : Outcome ε α → ω → Prop
  | value a, w => after (f a) Q w
  | failed e, w => Q (failed e) w
  | panicked, w => Q panicked w

variable {Q : Outcome ε β → ω → Prop} {f : α → Eff ω ε β}

theorem after_bind {x : Eff ω ε α} : after (x >>= f) Q w ↔ after x (next f Q) w := by
  have hbind : (x >>= f) w = match x w with
      | (value a, w') => f a w'
      | (failed e, w') => (failed e, w')
      | (panicked, w') => (panicked, w') := rfl
  unfold after
  rw [hbind]
  rcases x w with ⟨_ | _ | _, w'⟩ <;> exact Iff.rfl

theorem next_value {a : α} : next f Q (value a) w ↔ after (f a) Q w := Iff.rfl

theorem bind_of_value {x : Eff ω ε α} {w' : ω} {a : α} (h : x w = (value a, w')) : (x >>= f) w = f a w' := by
  show (match x w with
    | (value a, w') => f a w'
    | (failed e, w') => (failed e, w')
    | (panicked, w') => (panicked, w')) = _
  rw [h]

theorem after_bind_of_value {x : Eff ω ε α} {a : α}
    (h : (x w).1 = value a) (hnext : after (f a) Q (x w).2) : after (x >>= f) Q w := by
  rw [after_bind]
  unfold after
  rw [h]
  exact hnext

theorem after_bind_of_failed {x : Eff ω ε α} {e : ε}
    (h : (x w).1 = failed e) (hfail : Q (failed e) (x w).2) : after (x >>= f) Q w := by
  rw [after_bind]
  unfold after
  rw [h]
  exact hfail

theorem after_bind_reject {p : Prop} [Decidable p] {e : ε} {f : Unit → Eff ω ε β}
    (hreject : p → Q (failed e) w) (hnext : ¬ p → after (f ()) Q w) : after (lift (reject p e) >>= f) Q w := by
  by_cases hp : p
  · exact after_bind_of_failed (if_pos hp) (hreject hp)
  · exact after_bind_of_value (if_neg hp) (hnext hp)

/-- Until its last part a sequence keeps the second half of the world. -/
theorem after_bind_kept {σ : Type} {x : Eff (ω × σ) ε α} {f : α → Eff (ω × σ) ε β} {w : ω × σ} {z : σ}
    (hx : (x w).2.2 = z) (hf : ∀ a w', w'.2 = z → after (f a) (fun r w' => r.isValue = false → w'.2 = z) w') :
    after (x >>= f) (fun r w' => r.isValue = false → w'.2 = z) w := by
  rw [after_bind]
  unfold after next
  cases (x w).1 with
  | value a => exact hf a _ hx
  | failed | panicked => exact fun _ => hx

theorem after.imp {x : Eff ω ε α} {Q R : Outcome ε α → ω → Prop} (h : after x Q w)
    (hQR : ∀ r w', Q r w' → R r w') : after x R w := hQR _ _ h

end Eff

theorem Eff.bind_value {ω ε α β : Type} {x : Eff ω ε α} {f : α → Eff ω ε β} {w : ω} {b : β}
    (h : ((x >>= f) w).1 = value b) : ∃ a, (x w).1 = value a ∧ (f a (x w).2).1 = value b := by
  have hafter : after (x >>= f) (fun r _ => r = value b) w := h
  rw [after_bind] at hafter
  unfold after at hafter
  cases hx : (x w).1 with
  | value a =>
    rw [hx] at hafter
    exact ⟨a, rfl, hafter⟩
  | failed e =>
    rw [hx] at hafter
    cases hafter
  | panicked =>
    rw [hx] at hafter
    cases hafter

/-! ## Effects that answer or fail -/

/-- The outcome is the answer `a`, or a failure where failures are allowed. -/
def Answers {ε α : Type} (mayFail : Prop) (a : α) (r : Outcome ε α) : Prop :=
  r = value a ∨ (mayFail ∧ ∃ e, r = failed e)

theorem Eff.after_bind_of_answers {ω ε α β : Type} {x : Eff ω ε α} {f : α → Eff ω ε β} {P : ω → Prop} {mayFail : Prop}
    {a : α} {Q : Outcome ε β → ω → Prop} {w : ω} (h : after x (fun r w' => P w' ∧ Answers mayFail a r) w)
    (hnext : ∀ w', P w' → after (f a) Q w') (hfail : ∀ w' e, P w' → mayFail → Q (failed e) w') :
    after (x >>= f) Q w := by
  rw [after_bind]
  refine h.imp fun r w' hr => ?_
  obtain ⟨hw', rfl | ⟨hmay, e, rfl⟩⟩ := hr
  · exact hnext w' hw'
  · exact hfail w' e hw' hmay

end MochiSyscalls.Foundations.Effects
