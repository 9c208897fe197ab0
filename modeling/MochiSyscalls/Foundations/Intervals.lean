import Mathlib

/-! # Sorting by a key, and intervals that do not overlap

A sort by a key is any function that permutes its list into the order of the keys, as an unstable sort does. Intervals in
which no neighbour reaches into the next are apart from one another, in whatever order. -/

namespace MochiSyscalls.Foundations.Intervals
open List
set_option autoImplicit false

variable {α : Type}

/-- `sort_unstable_by_key`. -/
structure Sorter (α : Type) where
  run : (α → ℕ) → List α → List α
  perm : ∀ key items, (run key items).Perm items
  sorted : ∀ key items, (run key items).Pairwise fun a b => key a ≤ key b

def Sorter.insertion (α : Type) : Sorter α where
  run key items := items.insertionSort fun a b => key a ≤ key b
  perm key items := List.perm_insertionSort (fun a b => key a ≤ key b) items
  sorted key items := by
    have : Std.Total fun a b : α => key a ≤ key b := ⟨fun a b => le_total (key a) (key b)⟩
    have : IsTrans α fun a b => key a ≤ key b := ⟨fun _ _ _ => le_trans⟩
    exact List.pairwise_insertionSort (fun a b => key a ≤ key b) items

theorem Sorter.run_eq (sort : Sorter α) {key : α → ℕ} {items other : List α} (hperm : other.Perm items)
    (hkeys : items.Pairwise fun a b => key a < key b) : sort.run key other = items := by
  have hnodup : (items.map key).Nodup := pairwise_map.2 (hkeys.imp Nat.ne_of_lt)
  have hpermuted := (sort.perm key other).trans hperm
  refine hpermuted.eq_of_pairwise (fun a b ha hb hab hba => ?_) (sort.sorted key other) (hkeys.imp Nat.le_of_lt)
  exact inj_on_of_nodup_map hnodup (hpermuted.mem_iff.1 ha) hb (Nat.le_antisymm hab hba)

/-! ## Intervals -/

def Apart (start stop : α → ℕ) (a b : α) : Prop := stop a ≤ start b ∨ stop b ≤ start a

/-- `windows(2)`, with a neighbour that begins before the one before it has ended. -/
def overlapping (start stop : α → ℕ) : List α → Bool
  | a :: b :: rest => decide (start b < stop a) || overlapping start stop (b :: rest)
  | _ => false

variable {start stop : α → ℕ}

theorem isChain_of_not_overlapping {items : List α} (h : overlapping start stop items = false) :
    items.IsChain fun a b => stop a ≤ start b := by
  induction items with
  | nil => exact .nil
  | cons a items ih =>
    cases items with
    | nil => exact .singleton a
    | cons b rest =>
      rw [overlapping, Bool.or_eq_false_iff, decide_eq_false_iff_not] at h
      exact isChain_cons_cons.2 ⟨Nat.le_of_not_lt h.1, ih h.2⟩

/-- Sorted or not, a list without overlapping neighbours has no overlap at all, and neither has a permutation of it. -/
theorem pairwise_apart {items other : List α} (hle : ∀ a ∈ items, start a ≤ stop a)
    (h : overlapping start stop items = false) (hperm : items.Perm other) : other.Pairwise (Apart start stop) := by
  have hpairwise : items.Pairwise fun a b => stop a ≤ start b := by
    have hchain := isChain_of_not_overlapping h
    clear h hperm
    induction items with
    | nil => exact .nil
    | cons a items ih =>
      have htail := ih (fun b hb => hle b (mem_cons_of_mem a hb)) hchain.of_cons
      refine pairwise_cons.2 ⟨fun c hc => ?_, htail⟩
      cases items with
      | nil => cases hc
      | cons b rest =>
        have hab := (isChain_cons_cons.1 hchain).1
        rcases mem_cons.1 hc with rfl | hc
        · exact hab
        · have hbc := (pairwise_cons.1 htail).1 c hc
          have hb := hle b (mem_cons_of_mem a mem_cons_self)
          omega
  exact (hperm.pairwise_iff Or.symm).1 (hpairwise.imp .inl)

end MochiSyscalls.Foundations.Intervals
