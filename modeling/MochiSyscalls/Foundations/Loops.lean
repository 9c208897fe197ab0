import Mathlib

/-! # Loops that leave, fail or go on

A loop body is a function from the state to a failure, a result, or the state of the next pass. A
loop carries a measure that goes down whenever it goes on, so that running it is a total function.
The rules are the loop equation, an invariant rule, and that loops with the same body agree. -/

namespace MochiSyscalls.Foundations.Loops
open List
set_option autoImplicit false

variable {σ α ε : Type}

/-- What one pass of a loop body does, if it does not fail. -/
inductive Pass (σ α : Type) where
  | again (s : σ)
  | done (a : α)

structure Loop (σ α ε : Type) where
  body : σ → Except ε (Pass σ α)
  measure : σ → ℕ
  descends : ∀ s s', body s = .ok (.again s') → measure s' < measure s

def runFor (body : σ → Except ε (Pass σ α)) : ℕ → σ → Option (Except ε α)
  | 0, _ => none
  | n + 1, s =>
    match body s with
    | .error e => some (.error e)
    | .ok (.done a) => some (.ok a)
    | .ok (.again s') => runFor body n s'

namespace Loop

variable (l : Loop σ α ε) {s : σ}

theorem runFor_isSome {n : ℕ} (h : l.measure s < n) : (runFor l.body n s).isSome := by
  induction n generalizing s with
  | zero => exact absurd h (Nat.not_lt_zero _)
  | succ n ih =>
    unfold runFor
    split
    · rfl
    · rfl
    next s' hs =>
      have hlt := l.descends s s' hs
      exact ih (by omega)

def run (s : σ) : Except ε α :=
  (runFor l.body (l.measure s + 1) s).get (l.runFor_isSome (Nat.lt_succ_self _))

theorem runFor_eq {n : ℕ} (h : l.measure s < n) : runFor l.body n s = some (l.run s) := by
  have hmono : ∀ (m : ℕ) (s : σ), l.measure s < m → ∀ k, runFor l.body (m + k) s = runFor l.body m s := by
    intro m
    induction m with
    | zero => exact fun s hs => absurd hs (Nat.not_lt_zero _)
    | succ m ih =>
      intro s hs k
      rw [Nat.succ_add]
      unfold runFor
      split
      · rfl
      · rfl
      next s' hb =>
        have hlt := l.descends s s' hb
        exact ih s' (by omega) k
  have hk := hmono (l.measure s + 1) s (Nat.lt_succ_self _) (n - (l.measure s + 1))
  rw [Nat.add_sub_of_le h] at hk
  rw [hk, run, Option.some_get]

theorem run_eq (s : σ) : l.run s = match l.body s with
      | .error e => .error e
      | .ok (.done a) => .ok a
      | .ok (.again s') => l.run s' := by
  apply Option.some.inj
  rw [← l.runFor_eq (Nat.lt_succ_self (l.measure s)), runFor]
  split
  · rfl
  · rfl
  next s' hs => exact l.runFor_eq (l.descends s s' hs)

theorem run_eq_ok {l : Loop σ α ε} {a : α} :
    l.run s = .ok a ↔ l.body s = .ok (.done a) ∨ ∃ s', l.body s = .ok (.again s') ∧ l.run s' = .ok a := by
  rw [run_eq]
  cases l.body s with
  | error e => exact ⟨nofun, by rintro (h | ⟨_, h, _⟩) <;> cases h⟩
  | ok pass =>
    cases pass with
    | done b => simp
    | again s' => simp

theorem pass_induction {P : σ → Prop} (h : ∀ s, (∀ s', l.body s = .ok (.again s') → P s') → P s) (s : σ) : P s := by
  induction hm : l.measure s using Nat.strong_induction_on generalizing s with
  | h m ih =>
    subst hm
    exact h s fun s' hs => ih _ (l.descends s s' hs) s' rfl

theorem run_congr {l l' : Loop σ α ε} (h : ∀ s, l.body s = l'.body s) (s : σ) : l.run s = l'.run s := by
  induction s using l.pass_induction with
  | h s ih =>
    rw [l.run_eq, l'.run_eq, ← h s]
    split
    · rfl
    · rfl
    next s' hs => exact ih s' hs

/-- A property of the state that every pass keeps, and what it gives when the loop is left. -/
theorem run_invariant {l : Loop σ α ε} {P : σ → Prop} {Q : α → Prop}
    (hagain : ∀ s s', P s → l.body s = .ok (.again s') → P s')
    (hdone : ∀ s a, P s → l.body s = .ok (.done a) → Q a) {a : α} (hs : P s) (h : l.run s = .ok a) : Q a := by
  induction s using l.pass_induction with
  | h s ih =>
    rw [l.run_eq] at h
    split at h
    · cases h
    next b hb =>
      cases h
      exact hdone s a hs hb
    next s' hb => exact ih s' hb (hagain s s' hs hb) h

end Loop

/-! ## Scans that can fail -/

variable {β : Type}

theorem bind_eq_ok {x : Except ε α} {f : α → Except ε β} {b : β} :
    (x >>= f) = .ok b ↔ ∃ a, x = .ok a ∧ f a = .ok b := by
  cases x with
  | error e => exact ⟨nofun, fun ⟨_, h, _⟩ => nomatch h⟩
  | ok a =>
    constructor
    · exact fun h => ⟨a, rfl, h⟩
    · rintro ⟨_, he, h⟩
      cases he
      exact h

theorem bind_ok {x : Except ε α} {f : α → Except ε β} {a : α} {b : β} (hx : x = .ok a) (h : f a = .ok b) :
    (x >>= f) = .ok b := bind_eq_ok.mpr ⟨a, hx, h⟩

theorem bind_eq_error {x : Except ε α} {f : α → Except ε β} {e : ε} :
    (x >>= f) = .error e ↔ x = .error e ∨ ∃ a, x = .ok a ∧ f a = .error e := by
  cases x with
  | error e' =>
    constructor
    · exact fun h => .inl (by cases h; rfl)
    · rintro (h | ⟨_, h, _⟩)
      · cases h
        rfl
      · cases h
  | ok a =>
    constructor
    · exact fun h => .inr ⟨a, rfl, h⟩
    · rintro (h | ⟨_, he, h⟩)
      · cases h
      · cases he
        exact h

variable {f : σ → α → Except ε σ}

theorem foldlM_error {P : ε → Prop} (hf : ∀ s a e, f s a = .error e → P e)
    {xs : List α} {s : σ} {e : ε} (h : xs.foldlM f s = .error e) : P e := by
  induction xs generalizing s with
  | nil => cases h
  | cons a xs ih =>
    rw [foldlM_cons, bind_eq_error] at h
    obtain h | ⟨s', _, h⟩ := h
    · exact hf s a e h
    · exact ih h

theorem foldlM_invariant {P : σ → Prop} (hf : ∀ s a s', P s → f s a = .ok s' → P s')
    {xs : List α} {s s' : σ} (hs : P s) (h : xs.foldlM f s = .ok s') : P s' := by
  induction xs generalizing s with
  | nil =>
    obtain rfl := Except.ok.inj h
    exact hs
  | cons a xs ih =>
    rw [foldlM_cons] at h
    obtain ⟨s₁, hstep, h⟩ := bind_eq_ok.mp h
    exact ih (hf s a s₁ hs hstep) h

/-- A scan that puts one item behind the others at each step, as long as there is room. -/
theorem foldlM_snoc {f : List α → β → Except ε (List α)} {encode : α → β} {limit : ℕ} {items front : List α}
    (hf : ∀ front, front.length < limit → ∀ a ∈ items, f front (encode a) = .ok (front ++ [a]))
    (hroom : front.length + items.length ≤ limit) : (items.map encode).foldlM f front = .ok (front ++ items) := by
  induction items generalizing front with
  | nil => simp [pure, Except.pure]
  | cons a items ih =>
    rw [length_cons] at hroom
    rw [map_cons, foldlM_cons, hf front (by omega) a mem_cons_self]
    have hrest := ih (fun front hfront b hb => hf front hfront b (mem_cons_of_mem _ hb))
      (show (front ++ [a]).length + items.length ≤ limit by rw [length_append, length_singleton]; omega)
    rwa [append_assoc, singleton_append] at hrest

/-- A scan whose steps commute, failures included, does not depend on the order. -/
theorem foldlM_perm (hcomm : ∀ s a b, (f s a >>= (f · b)) = (f s b >>= (f · a)))
    {xs ys : List α} (h : xs.Perm ys) (s : σ) : xs.foldlM f s = ys.foldlM f s := by
  induction h generalizing s with
  | nil => rfl
  | cons a _ ih =>
    rw [foldlM_cons, foldlM_cons]
    exact congrArg (f s a >>= ·) (funext ih)
  | swap a b xs =>
    simp only [foldlM_cons]
    rw [← bind_assoc, ← bind_assoc, hcomm]
  | trans _ _ ih ih' => exact (ih s).trans (ih' s)

end MochiSyscalls.Foundations.Loops
