import Mathlib

/-! # Runs of a deterministic step function

`run step s as` is the state after the inputs `as`; `Along step C s as` says that every step of the
run meets the condition `C` on the state before it and its input. The rules below carry an
invariant over a run: unconditionally, under a condition on the steps, and below a bound that the
steps can only approach. -/

namespace MochiSyscalls.Foundations.Runs
open List
set_option autoImplicit false

variable {σ α : Type} (step : σ → α → σ)

def run (s : σ) (as : List α) : σ := as.foldl step s

@[simp] theorem run_nil (s : σ) : run step s [] = s := rfl

@[simp] theorem run_cons (s : σ) (a : α) (as : List α) : run step s (a :: as) = run step (step s a) as := rfl

theorem run_append (s : σ) (as bs : List α) : run step s (as ++ bs) = run step (run step s as) bs :=
  foldl_append

theorem run_snoc (s : σ) (as : List α) (a : α) : run step s (as ++ [a]) = step (run step s as) a := by
  rw [run_append, run_cons, run_nil]

theorem run_map {β : Type} (f : β → α) (s : σ) (bs : List β) :
    run step s (bs.map f) = run (fun s b => step s (f b)) s bs := List.foldl_map

/-! ## Conditions on the steps of a run -/

def Along (C : σ → α → Prop) : σ → List α → Prop
  | _, [] => True
  | s, a :: as => C s a ∧ Along C (step s a) as

instance decidableAlong {C : σ → α → Prop} [∀ s a, Decidable (C s a)] : ∀ s as, Decidable (Along step C s as)
  | _, [] => inferInstanceAs (Decidable True)
  | s, a :: as => @instDecidableAnd (C s a) (Along step C (step s a) as) _ (decidableAlong (step s a) as)

variable {C : σ → α → Prop}

theorem along_append (s : σ) (as bs : List α) :
    Along step C s (as ++ bs) ↔ Along step C s as ∧ Along step C (run step s as) bs := by
  induction as generalizing s with
  | nil => simp [Along]
  | cons a as ih => simp [Along, ih, and_assoc]

theorem along_iff (s : σ) (as : List α) :
    Along step C s as ↔ ∀ pre a post, as = pre ++ a :: post → C (run step s pre) a := by
  constructor
  · rintro h pre a post rfl
    rw [along_append] at h
    exact h.2.1
  · induction as generalizing s with
    | nil => exact fun _ => trivial
    | cons a as ih =>
      intro h
      refine ⟨h [] a as rfl, ih (step s a) ?_⟩
      rintro pre b post rfl
      exact h (a :: pre) b post rfl

/-! ## Invariant rules -/

variable {s : σ} {P : σ → Prop}

theorem run_invariant (hstep : ∀ s a, P s → P (step s a)) (h : P s) (as : List α) : P (run step s as) := by
  induction as generalizing s with
  | nil => exact h
  | cons a as ih => exact ih (hstep s a h)

variable {as : List α}

theorem along_invariant (hstep : ∀ s a, P s → C s a → P (step s a)) (h : P s)
    (hC : Along step C s as) : P (run step s as) := by
  induction as generalizing s with
  | nil => exact h
  | cons a as ih => exact ih (hstep s a h hC.1) hC.2

variable {D : σ → α → Prop}

/-- Two conditions that agree in the states of an invariant, which the steps that meet them keep,
agree along every run. -/
theorem along_congr (hstep : ∀ s a, P s → C s a → P (step s a))
    (hCD : ∀ s a, P s → (C s a ↔ D s a)) (h : P s) (as : List α) : Along step C s as ↔ Along step D s as := by
  induction as generalizing s with
  | nil => exact Iff.rfl
  | cons a as ih =>
    unfold Along
    rw [← hCD s a h]
    exact and_congr_right fun hC => ih (hstep s a h hC)

theorem along_and (s : σ) (as : List α) :
    Along step (fun s a => C s a ∧ D s a) s as ↔ Along step C s as ∧ Along step D s as := by
  induction as generalizing s with
  | nil => simp [Along]
  | cons a as ih => simp [Along, ih, and_assoc, and_left_comm]

theorem along_of_invariant (hstep : ∀ s a, P s → C s a → P (step s a))
    (hD : ∀ s a, P s → C s a → D s a) (h : P s) (hC : Along step C s as) : Along step D s as := by
  induction as generalizing s with
  | nil => trivial
  | cons a as ih => exact ⟨hD s a h hC.1, ih (hstep s a h hC.1) hC.2⟩

theorem along_of_forall (h : ∀ a ∈ as, ∀ s, C s a) (s : σ) : Along step C s as := by
  rw [along_iff]
  rintro pre a post rfl
  exact h a (mem_append_right _ (mem_cons_self ..)) _

variable {B : σ → Prop}

/-- An invariant kept by the steps that end below a bound, when no step leads back below it, holds after such runs. -/
theorem along_invariant_below (hback : ∀ s a, B (step s a) → B s)
    (hstep : ∀ s a, P s → C s a → B (step s a) → P (step s a)) (h : P s)
    (hC : Along step C s as) (hB : B (run step s as)) : P (run step s as) := by
  induction as using reverseRecOn with
  | nil => exact h
  | append_singleton as a ih =>
    rw [run_snoc] at hB ⊢
    rw [along_append] at hC
    exact hstep _ _ (ih hC.1 (hback _ _ hB)) hC.2.1 hB

theorem run_invariant_below (hback : ∀ s a, B (step s a) → B s)
    (hstep : ∀ s a, P s → B (step s a) → P (step s a)) (h : P s) (hB : B (run step s as)) : P (run step s as) :=
  along_invariant_below step (C := fun _ _ => True) hback (fun s a hp _ => hstep s a hp) h
    (along_of_forall step (fun _ _ _ => trivial) s) hB

/-! ## Steps that can fail -/

section Partial

variable (step : σ → α → Option σ)

def runPartial (s : σ) (as : List α) : Option σ := as.foldlM step s

/-- An invariant whose states do not fail: no run fails, and the invariant holds at its end. -/
theorem runPartial_invariant (hstep : ∀ s a, P s → ∃ s', step s a = some s' ∧ P s') {s : σ}
    (h : P s) (as : List α) : ∃ s', runPartial step s as = some s' ∧ P s' := by
  induction as generalizing s with
  | nil => exact ⟨s, rfl, h⟩
  | cons a as ih =>
    obtain ⟨s', he, hp⟩ := hstep s a h
    obtain ⟨s'', he', hp'⟩ := ih hp
    refine ⟨s'', ?_, hp'⟩
    rw [← he', runPartial, foldlM_cons, he]
    rfl

end Partial

end MochiSyscalls.Foundations.Runs
