import MochiSyscalls.Foundations.Rows

/-! # Leases

Slots are leased under generations that are never used twice. A slot carries the generation of the lease
that holds it, or zero. A lease is granted over free slots, given up as a whole, and lost when all slots are
cleared; whichever way it ends, no slot carries its generation again. -/

namespace MochiSyscalls.Foundations.Leases
open Rows List
set_option autoImplicit false

variable {ι : Type}

structure Lease (ι : Type) where
  slots : List ι
  generation : ℕ

/-- The stamps on the slots, the last generation used, and the leases issued and ended so far. -/
structure Ledger (ι : Type) where
  stamp : ι → ℕ
  next : ℕ
  issued : List (Lease ι)
  ended : List (Lease ι)

namespace Lease

def Live (l : Lease ι) (stamp : ι → ℕ) : Prop := ∀ i ∈ l.slots, stamp i = l.generation

def Dead (l : Lease ι) (stamp : ι → ℕ) : Prop := ∀ i ∈ l.slots, stamp i ≠ l.generation

end Lease

namespace Ledger

structure Consistent (s : Ledger ι) : Prop where
  generation : ∀ l ∈ s.issued, l.slots ≠ [] → 0 < l.generation ∧ l.generation ≤ s.next
  unique : ∀ l ∈ s.issued, ∀ l' ∈ s.issued, l.slots ≠ [] → l'.slots ≠ [] → l.generation = l'.generation → l = l'
  covered : ∀ i, s.stamp i ≠ 0 → ∃ l ∈ s.issued, i ∈ l.slots ∧ s.stamp i = l.generation
  whole : ∀ l ∈ s.issued, l.Live s.stamp ∨ l.Dead s.stamp
  ended : ∀ l ∈ s.ended, l.Dead s.stamp
  ended_issued : ∀ l ∈ s.ended, l ∈ s.issued

variable {s : Ledger ι}

theorem Consistent.skip (h : s.Consistent) {next : ℕ} (hle : s.next ≤ next) : Consistent { s with next } :=
  { h with generation := fun l hl hne => ⟨(h.generation l hl hne).1, (h.generation l hl hne).2.trans hle⟩ }

theorem Consistent.idle (h : s.Consistent) {l : Lease ι} (hl : l.slots = []) :
    Consistent { s with issued := s.issued ++ [l] } where
  generation l' hl' hne := by
    rcases mem_snoc.mp hl' with hl' | rfl
    · exact h.generation l' hl' hne
    · exact absurd hl hne
  unique l₁ h₁ l₂ h₂ hne₁ hne₂ heq := by
    rcases mem_snoc.mp h₁ with h₁ | rfl
    · rcases mem_snoc.mp h₂ with h₂ | rfl
      · exact h.unique l₁ h₁ l₂ h₂ hne₁ hne₂ heq
      · exact absurd hl hne₂
    · exact absurd hl hne₁
  covered i hi := by
    obtain ⟨l', hl', hmem, heq⟩ := h.covered i hi
    exact ⟨l', mem_append_left _ hl', hmem, heq⟩
  whole l' hl' := by
    rcases mem_append.mp hl' with hl' | hl'
    · exact h.whole l' hl'
    · left
      intro i hi
      rw [mem_singleton.mp hl', hl] at hi
      exact absurd hi not_mem_nil
  ended := h.ended
  ended_issued l' hl' := mem_append_left _ (h.ended_issued l' hl')

theorem Consistent.clear (h : s.Consistent) :
    Consistent { s with stamp := fun _ => 0, ended := s.ended ++ s.issued } := by
  have hdead : ∀ l ∈ s.issued, l.Dead fun _ => 0 := by
    intro l hl i hi
    exact (h.generation l hl (ne_nil_of_mem hi)).1.ne
  refine ⟨h.generation, h.unique, fun i hi => absurd rfl hi, fun l hl => .inr (hdead l hl), ?_, ?_⟩
  · intro l hl
    rcases mem_append.mp hl with hl | hl
    · exact hdead l (h.ended_issued l hl)
    · exact hdead l hl
  · intro l hl
    rcases mem_append.mp hl with hl | hl
    · exact h.ended_issued l hl
    · exact hl

def new : Ledger ι := { stamp := fun _ => 0, next := 0, issued := [], ended := [] }

theorem new_consistent : Consistent (new : Ledger ι) where
  generation _ hl := absurd hl not_mem_nil
  unique _ hl := absurd hl not_mem_nil
  covered _ hi := absurd rfl hi
  whole _ hl := absurd hl not_mem_nil
  ended _ hl := absurd hl not_mem_nil
  ended_issued _ hl := absurd hl not_mem_nil

end Ledger

/-! ## Granting and giving up -/

variable [DecidableEq ι]

namespace Lease

def grant (l : Lease ι) (stamp : ι → ℕ) (i : ι) : ℕ := if i ∈ l.slots then l.generation else stamp i

def release (l : Lease ι) (stamp : ι → ℕ) (i : ι) : ℕ := if i ∈ l.slots ∧ stamp i = l.generation then 0 else stamp i

theorem release_cons (i : ι) (slots : List ι) (generation : ℕ) (stamp : ι → ℕ) :
    release ⟨i :: slots, generation⟩ stamp = release ⟨slots, generation⟩ (release ⟨[i], generation⟩ stamp) := by
  funext j
  simp only [release, mem_cons, not_mem_nil, or_false]
  by_cases heq : stamp j = generation
  · by_cases hj : j = i
    · have hinner : (if j = i ∧ stamp j = generation then 0 else stamp j) = 0 := if_pos ⟨hj, heq⟩
      rw [hinner, if_pos ⟨.inl hj, heq⟩, ite_self]
    · simp only [hj, false_or, false_and, if_false]
  · simp only [heq, and_false, if_false]

variable {l : Lease ι}

theorem release_of_live {stamp : ι → ℕ} (h : l.Live stamp) :
    l.release stamp = fun i => if i ∈ l.slots then 0 else stamp i := by
  funext i
  exact if_congr (and_iff_left_of_imp (h i)) rfl rfl

theorem release_eq_of_dead {stamp : ι → ℕ} (h : l.Dead stamp) : l.release stamp = stamp := by
  funext i
  exact if_neg fun hi => h i hi.1 hi.2

end Lease

namespace Ledger

inductive Step : Ledger ι → Ledger ι → Prop
  /-- A generation is passed over. -/
  | skip (s : Ledger ι) (next : ℕ) (h : s.next ≤ next) : Step s { s with next }
  | grant (s : Ledger ι) (l : Lease ι) (hnew : s.next < l.generation) (hfree : ∀ i ∈ l.slots, s.stamp i = 0) :
    Step s { s with stamp := l.grant s.stamp, next := l.generation, issued := s.issued ++ [l] }
  /-- A lease over no slots. -/
  | idle (s : Ledger ι) (l : Lease ι) (h : l.slots = []) : Step s { s with issued := s.issued ++ [l] }
  | release (s : Ledger ι) (l : Lease ι) (h : l ∈ s.issued) :
    Step s { s with stamp := l.release s.stamp, ended := s.ended ++ [l] }
  | clear (s : Ledger ι) : Step s { s with stamp := fun _ => 0, ended := s.ended ++ s.issued }

abbrev Steps : Ledger ι → Ledger ι → Prop := Relation.ReflTransGen Step

variable {l l' : Lease ι} {s : Ledger ι}

section

variable (h : s.Consistent) (hnew : s.next < l.generation) (hfree : ∀ i ∈ l.slots, s.stamp i = 0)
include h hnew hfree

theorem Consistent.grant_other (hl' : l' ∈ s.issued) {i : ι} (hi : i ∈ l'.slots) :
    l.grant s.stamp i = l'.generation ↔ s.stamp i = l'.generation := by
  have hgen := h.generation l' hl' (ne_nil_of_mem hi)
  unfold Lease.grant
  split
  next hmem =>
    rw [hfree i hmem]
    exact iff_of_false (by omega) (by omega)
  · exact Iff.rfl

theorem Consistent.grant :
    Consistent { s with stamp := l.grant s.stamp, next := l.generation, issued := s.issued ++ [l] } where
  generation l' hl' hne := by
    rcases mem_snoc.mp hl' with hl' | rfl
    · obtain ⟨hpos, hle⟩ := h.generation l' hl' hne
      exact ⟨hpos, hle.trans hnew.le⟩
    · exact ⟨by omega, le_rfl⟩
  unique l₁ h₁ l₂ h₂ hne₁ hne₂ heq := by
    rcases mem_snoc.mp h₁ with hm₁ | rfl <;> rcases mem_snoc.mp h₂ with hm₂ | rfl
    · exact h.unique l₁ hm₁ l₂ hm₂ hne₁ hne₂ heq
    · have hle := (h.generation l₁ hm₁ hne₁).2
      omega
    · have hle := (h.generation l₂ hm₂ hne₂).2
      omega
    · rfl
  covered i hi := by
    dsimp only at hi ⊢
    unfold Lease.grant at hi ⊢
    split at hi
    next hmem =>
      rw [if_pos hmem]
      exact ⟨l, mem_append_right _ (mem_singleton_self _), hmem, rfl⟩
    next hmem =>
      rw [if_neg hmem]
      obtain ⟨l', hl', hmem', heq⟩ := h.covered i hi
      exact ⟨l', mem_append_left _ hl', hmem', heq⟩
  whole l' hl' := by
    rcases mem_append.mp hl' with hl' | hl'
    · rcases h.whole l' hl' with hlive | hdead
      · exact .inl fun i hi => (h.grant_other hnew hfree hl' hi).mpr (hlive i hi)
      · exact .inr fun i hi heq => hdead i hi ((h.grant_other hnew hfree hl' hi).mp heq)
    · left
      intro i hi
      rw [mem_singleton.mp hl'] at hi ⊢
      exact if_pos hi
  ended l' hl' i hi heq :=
    h.ended l' hl' i hi ((h.grant_other hnew hfree (h.ended_issued l' hl') hi).mp heq)
  ended_issued l' hl' := mem_append_left _ (h.ended_issued l' hl')

end

theorem Consistent.release_dead (h : s.Consistent) (hl : l ∈ s.issued) : l.Dead (l.release s.stamp) := by
  intro i hi
  have hpos := (h.generation l hl (ne_nil_of_mem hi)).1
  unfold Lease.release
  split
  · exact hpos.ne
  next hne => exact fun heq => hne ⟨hi, heq⟩

theorem Consistent.release_of_dead (h : s.Consistent) (l : Lease ι)
    (hl' : l' ∈ s.issued) (hdead : l'.Dead s.stamp) : l'.Dead (l.release s.stamp) := by
  intro i hi
  have hpos := (h.generation l' hl' (ne_nil_of_mem hi)).1
  unfold Lease.release
  split
  · exact hpos.ne
  · exact hdead i hi

theorem Consistent.release (h : s.Consistent) (hl : l ∈ s.issued) :
    Consistent { s with stamp := l.release s.stamp, ended := s.ended ++ [l] } where
  generation := h.generation
  unique := h.unique
  covered i hi := by
    dsimp only at hi ⊢
    unfold Lease.release at hi ⊢
    split at hi
    · exact absurd rfl hi
    next hne =>
      rw [if_neg hne]
      exact h.covered i hi
  whole l' hl' := by
    rcases h.whole l' hl' with hlive | hdead
    · by_cases hgen : l'.generation = l.generation ∧ l'.slots ≠ [] ∧ l.slots ≠ []
      · -- the lease itself
        rw [h.unique l' hl' l hl hgen.2.1 hgen.2.2 hgen.1]
        exact .inr (h.release_dead hl)
      · left
        intro i hi
        refine (if_neg ?_).trans (hlive i hi)
        rintro ⟨hmem, heq⟩
        exact hgen ⟨(hlive i hi).symm.trans heq, ne_nil_of_mem hi, ne_nil_of_mem hmem⟩
    · exact .inr (h.release_of_dead l hl' hdead)
  ended l' hl' := by
    rcases mem_snoc.mp hl' with hl' | rfl
    · exact h.release_of_dead l (h.ended_issued l' hl') (h.ended l' hl')
    · exact h.release_dead hl
  ended_issued l' hl' := by
    rcases mem_snoc.mp hl' with hl' | rfl
    · exact h.ended_issued l' hl'
    · exact hl

variable {s' : Ledger ι}

theorem Step.consistent (h : s.Consistent) (hstep : Step s s') : s'.Consistent := by
  cases hstep with
  | skip next hle => exact h.skip hle
  | grant l hnew hfree => exact h.grant hnew hfree
  | idle l hl => exact h.idle hl
  | release l hl => exact h.release hl
  | clear => exact h.clear

theorem Steps.consistent (h : s.Consistent) (hsteps : Steps s s') : s'.Consistent := by
  induction hsteps with
  | refl => exact h
  | tail _ hstep ih => exact hstep.consistent ih

end Ledger

end MochiSyscalls.Foundations.Leases
