import MochiSyscalls.Foundations.Runs

/-! # Threads over a shared state

Every thread is at a place of its own; one step of one thread reads and writes the shared state and its own place,
and a schedule says whose step is next. `Holds G P g` is a proof outline: `G` is about the shared state, `P` says what
is true of the shared state while a thread is at its place, both under one ghost value `g`. A step keeps an outline
when it keeps `G`, leads its thread to a place where `P` holds, and does not disturb the places of the others. -/

namespace MochiSyscalls.Foundations.Interleaving
open List
set_option autoImplicit false

variable {S T A Γ : Type}

@[ext] structure Config (S T : Type) where
  shared : S
  thread : ℕ → T

/-- One step of the thread `a.1`; `a.2` is what its surroundings answer. -/
def step (f : ℕ → A → S → T → S × T) (c : Config S T) (a : ℕ × A) : Config S T :=
  ⟨(f a.1 a.2 c.shared (c.thread a.1)).1, Function.update c.thread a.1 (f a.1 a.2 c.shared (c.thread a.1)).2⟩

section Step

variable (f : ℕ → A → S → T → S × T) (c : Config S T) (id : ℕ) (a : A)

@[simp] theorem step_shared : (step f c (id, a)).shared = (f id a c.shared (c.thread id)).1 := rfl

@[simp] theorem step_thread_self : (step f c (id, a)).thread id = (f id a c.shared (c.thread id)).2 :=
  Function.update_self ..

variable {id}

theorem step_thread_other {other : ℕ} (h : other ≠ id) : (step f c (id, a)).thread other = c.thread other :=
  Function.update_of_ne h ..

end Step

theorem run_thread_other (f : ℕ → A → S → T → S × T) (c : Config S T) {other : ℕ} {as : List (ℕ × A)}
    (h : ∀ a ∈ as, a.1 ≠ other) : (Runs.run (step f) c as).thread other = c.thread other := by
  induction as generalizing c with
  | nil => rfl
  | cons a as ih =>
    rw [Runs.run_cons, ih _ fun b hb => h b (mem_cons_of_mem a hb)]
    exact step_thread_other f c a.2 (h a mem_cons_self).symm

theorem run_solo (f : ℕ → A → S → T → S × T) (c : Config S T) (id : ℕ) (as : List A) :
    ((Runs.run (step f) c (as.map (id, ·))).shared, (Runs.run (step f) c (as.map (id, ·))).thread id) =
      as.foldl (fun r a => f id a r.1 r.2) (c.shared, c.thread id) := by
  induction as generalizing c with
  | nil => rfl
  | cons a as ih => rw [map_cons, Runs.run_cons, ih, foldl_cons, step_shared, step_thread_self]

/-! ## Proof outlines -/

structure Holds (G : Γ → S → Prop) (P : Γ → ℕ → S → T → Prop) (g : Γ) (c : Config S T) : Prop where
  shared : G g c.shared
  place : ∀ id, P g id c.shared (c.thread id)

structure Keeps (G : Γ → S → Prop) (P : Γ → ℕ → S → T → Prop) (g : Γ) (id : ℕ) (s : S) (r : S × T) (g' : Γ) : Prop where
  shared : G g' r.1
  place : P g' id r.1 r.2
  others : ∀ other t, other ≠ id → P g other s t → P g' other r.1 t

section

variable {G : Γ → S → Prop} {P : Γ → ℕ → S → T → Prop}

theorem Keeps.after {g g₁ g₂ : Γ} {id : ℕ} {s s₁ : S} {r : S × T}
    (h' : Keeps G P g₁ id s₁ r g₂) (h : ∀ other t, other ≠ id → P g other s t → P g₁ other s₁ t) :
    Keeps G P g id s r g₂ :=
  ⟨h'.shared, h'.place, fun other t hother ht => h'.others other t hother (h other t hother ht)⟩

theorem Holds.step {g g' : Γ} {c : Config S T} {id : ℕ} {a : A} {f : ℕ → A → S → T → S × T} (h : Holds G P g c)
    (hkeeps : Keeps G P g id c.shared (f id a c.shared (c.thread id)) g') : Holds G P g' (step f c (id, a)) where
  shared := hkeeps.shared
  place := by
    intro other
    by_cases hother : other = id
    · subst hother
      rw [step_thread_self]
      exact hkeeps.place
    · rw [step_thread_other f c a hother]
      exact hkeeps.others other _ hother (h.place other)

end

/-! ## Traces

A trace lists what the threads did, each event with its thread. -/

section Trace

variable {E : Type}

def Latest (trace : List (ℕ × E)) (id : ℕ) (e : E) : Prop :=
  ∃ before during, trace = before ++ (id, e) :: during ∧ ∀ x ∈ during, x.1 ≠ id

theorem Latest.self (trace : List (ℕ × E)) (id : ℕ) (e : E) : Latest (trace ++ [(id, e)]) id e :=
  ⟨trace, [], rfl, nofun⟩

theorem Latest.other {trace : List (ℕ × E)} {id : ℕ} {e : E} (h : Latest trace id e) {more : List (ℕ × E)}
    (hmore : ∀ x ∈ more, x.1 ≠ id) : Latest (trace ++ more) id e := by
  obtain ⟨before, during, rfl, hduring⟩ := h
  refine ⟨before, during ++ more, by simp, ?_⟩
  intro x hx
  rcases mem_append.1 hx with hx | hx
  · exact hduring x hx
  · exact hmore x hx

def Always (Q : List (ℕ × E) → ℕ × E → Prop) (trace : List (ℕ × E)) : Prop :=
  ∀ pre e post, trace = pre ++ e :: post → Q pre e

theorem Always.nil (Q : List (ℕ × E) → ℕ × E → Prop) : Always Q [] := by
  intro pre e post h
  simp at h

theorem Always.snoc {Q : List (ℕ × E) → ℕ × E → Prop} {trace : List (ℕ × E)} {e : ℕ × E} (h : Always Q trace)
    (he : Q trace e) : Always Q (trace ++ [e]) := by
  intro pre e' post heq
  rcases eq_nil_or_concat post with rfl | ⟨post', last, rfl⟩
  · obtain ⟨rfl, hlast⟩ := append_inj' heq rfl
    cases hlast
    exact he
  · rw [concat_eq_append, ← cons_append, ← append_assoc] at heq
    obtain ⟨rfl, _⟩ := append_inj' heq rfl
    exact h pre e' post' rfl

end Trace

end MochiSyscalls.Foundations.Interleaving
