import MochiSyscalls.Foundations.BinarySearch

/-! # Partition points

`slice::partition_point`: the binary search for the end of the items that satisfy a test, on items where these come
first. -/

namespace MochiSyscalls.Foundations.BinarySearch
open List
set_option autoImplicit false

variable {α : Type} {p : α → Bool} {items : List α}

def partitionPoint (p : α → Bool) (items : List α) : ℕ :=
  match binarySearchBy (fun a => if p a then .lt else .gt) items with
  | .ok i => i
  | .error i => i

def Partitioned (p : α → Bool) (items : List α) : Prop := items.Pairwise fun a b => p b = true → p a = true

theorem Partitioned.of_lt (h : Partitioned p items) {i j : ℕ} {a b : α} (hij : i ≤ j) (hi : items[i]? = some a)
    (hj : items[j]? = some b) (hb : p b = true) : p a = true := by
  obtain ⟨hil, rfl⟩ := List.getElem?_eq_some_iff.mp hi
  obtain ⟨hjl, rfl⟩ := List.getElem?_eq_some_iff.mp hj
  rcases Nat.lt_or_eq_of_le hij with hlt | rfl
  · exact List.pairwise_iff_getElem.mp h i j hil hjl hlt hb
  · exact hb

theorem narrow_partition (h : Partitioned p items) {fuel base size : ℕ} (hfuel : size ≤ fuel)
    (hrange : base + size ≤ items.length) (hlow : base = 0 ∨ ∃ a, items[base]? = some a ∧ p a = true)
    (hhigh : ∀ j a, base + size ≤ j → items[j]? = some a → p a = false) :
    let last := narrow (fun a => if p a then .lt else .gt) items fuel base size
    (last = 0 ∨ ∃ a, items[last]? = some a ∧ p a = true) ∧ ∀ j a, last + 1 ≤ j → items[j]? = some a → p a = false := by
  induction fuel generalizing base size with
  | zero => exact ⟨hlow, fun j a hj => hhigh j a (by rw [narrow] at hj; omega)⟩
  | succ fuel ih =>
    rw [narrow]
    split
    next hsize =>
      have hmid : base + size / 2 < items.length := by omega
      have hget : items[base + size / 2]? = some items[base + size / 2] := getElem?_eq_getElem hmid
      simp only [hget, Option.map_some]
      cases hp : p items[base + size / 2] with
      | true =>
        simp only [if_true, Option.some.injEq, reduceCtorEq, if_false]
        exact ih (by omega) (by omega) (.inr ⟨_, hget, hp⟩) fun j a hj => hhigh j a (by omega)
      | false =>
        simp only [Bool.false_eq_true, if_false, if_true]
        refine ih (by omega) (by omega) hlow fun j a hj hja => ?_
        refine Bool.eq_false_iff.2 fun hpa => ?_
        have hmidtrue := h.of_lt (by omega : base + size / 2 ≤ j) hget hja hpa
        rw [hp] at hmidtrue
        cases hmidtrue
    · exact ⟨hlow, fun j a hj => hhigh j a (by omega)⟩

theorem lt_partitionPoint (h : Partitioned p items) {i : ℕ} {a : α} (ha : items[i]? = some a) :
    i < partitionPoint p items ↔ p a = true := by
  have hend : ∀ j b, 0 + items.length ≤ j → items[j]? = some b → p b = false := by
    intro j b hj hb
    rw [getElem?_eq_none (by omega)] at hb
    cases hb
  obtain ⟨hlow, hhigh⟩ := narrow_partition h (le_refl items.length) (Nat.zero_add _).le (.inl rfl) hend
  unfold partitionPoint binarySearchBy
  dsimp only
  generalize narrow (fun a => if p a then Ordering.lt else .gt) items items.length 0 items.length = last at hlow hhigh ⊢
  rcases hlast : items[last]? with _ | b
  · -- an empty list
    rcases hlow with rfl | ⟨b, hb, -⟩
    · have hnone := getElem?_eq_none_iff.1 hlast
      rw [getElem?_eq_none (by omega)] at ha
      cases ha
    · rw [hlast] at hb
      cases hb
  · cases hb : p b with
    | true =>
      simp only [Option.map_some, hb, if_true]
      constructor
      · exact fun hi => h.of_lt (by omega) ha hlast hb
      · intro hpa
        by_contra hle
        rw [hhigh i a (by omega) ha] at hpa
        cases hpa
    | false =>
      rcases hlow with rfl | ⟨c, hc, hpc⟩
      · simp only [Option.map_some, hb, Bool.false_eq_true, if_false]
        refine iff_of_false (Nat.not_lt_zero i) fun hpa => ?_
        rw [h.of_lt (Nat.zero_le i) hlast ha hpa] at hb
        cases hb
      · rw [hlast] at hc
        cases hc
        rw [hb] at hpc
        cases hpc

end MochiSyscalls.Foundations.BinarySearch
