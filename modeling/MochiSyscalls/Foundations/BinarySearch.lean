import Mathlib

/-! # Binary search

`slice::binary_search_by`: the loop halves the range until one item is left and compares that one. On
items in the order of the comparison it finds an item exactly when there is one. -/

namespace MochiSyscalls.Foundations.BinarySearch
open List
set_option autoImplicit false

variable {α : Type} {f : α → Ordering} {items : List α}

/-- The loop: the range is `[base, base + size)`, and the fuel is spent once a pass. -/
def narrow (f : α → Ordering) (items : List α) : ℕ → ℕ → ℕ → ℕ
  | 0, base, _ => base
  | fuel + 1, base, size =>
    if 1 < size then
      let half := size / 2
      let mid := base + half
      let base := if items[mid]?.map f = some .gt then base else mid
      narrow f items fuel base (size - half)
    else base

/-- The position of an item found, or the one where it would have to be inserted. -/
def binarySearchBy (f : α → Ordering) (items : List α) : Except ℕ ℕ :=
  let base := narrow f items items.length 0 items.length
  match items[base]?.map f with
  | some .eq => .ok base
  | some .lt => .error (base + 1)
  | _ => .error base

/-- The items run from the smaller ones over the equal ones to the greater ones. -/
def Ordered (f : α → Ordering) (items : List α) : Prop :=
  items.Pairwise fun a b => (f a = .gt → f b = .gt) ∧ (f b = .lt → f a = .lt)

def Hit (f : α → Ordering) (items : List α) (i : ℕ) : Prop := items[i]?.map f = some .eq

theorem Ordered.hit_of_between (h : Ordered f items) {i j : ℕ} (hi : Hit f items i) (hij : i < j)
    (hj : j < items.length) (hne : items[j]?.map f ≠ some .gt) : Hit f items j := by
  have hlt : i < items.length := by omega
  have hpair := pairwise_iff_getElem.mp h i j hlt hj hij
  unfold Hit at hi ⊢
  rw [getElem?_eq_getElem hlt, Option.map_some] at hi
  rw [getElem?_eq_getElem hj, Option.map_some] at hne ⊢
  have heq := Option.some.inj hi
  cases hf : f items[j] with
  | eq => rfl
  | gt => exact absurd (by rw [hf]) hne
  | lt => exact absurd (hpair.2 hf) (by rw [heq]; decide)

theorem Ordered.lt_of_gt (h : Ordered f items) {i j : ℕ} (hi : Hit f items i) (hj : items[j]?.map f = some .gt) :
    i < j := by
  unfold Hit at hi
  obtain ⟨a, ha, hfa⟩ := Option.map_eq_some_iff.mp hi
  obtain ⟨b, hb, hfb⟩ := Option.map_eq_some_iff.mp hj
  obtain ⟨hil, rfl⟩ := List.getElem?_eq_some_iff.mp ha
  obtain ⟨hjl, rfl⟩ := List.getElem?_eq_some_iff.mp hb
  by_contra hle
  rcases Nat.lt_or_eq_of_le (Nat.le_of_not_lt hle) with hlt | rfl
  · have hpair := List.pairwise_iff_getElem.mp h j i hjl hil hlt
    rw [hpair.1 hfb] at hfa
    cases hfa
  · rw [hfa] at hfb
    cases hfb

theorem narrow_hit (h : Ordered f items) {fuel base size i : ℕ} (hfuel : size ≤ fuel)
    (hrange : base + size ≤ items.length) (hlo : base ≤ i) (hhi : i < base + size) (hit : Hit f items i) :
    Hit f items (narrow f items fuel base size) := by
  induction fuel generalizing base size i with
  | zero => omega
  | succ fuel ih =>
    rw [narrow]
    split
    next hsize =>
      have hmid : base + size / 2 < items.length := by omega
      simp only
      split
      next hgt =>
        have hbefore := h.lt_of_gt hit hgt
        exact ih (by omega) (by omega) hlo (by omega) hit
      next hngt =>
        by_cases hbefore : i < base + size / 2
        · exact ih (by omega) (by omega) le_rfl (by omega) (h.hit_of_between hit hbefore hmid hngt)
        · exact ih (by omega) (by omega) (by omega) (by omega) hit
    · rw [show base = i by omega]
      exact hit

theorem ordered_of_isChain {β : Type} {cmp : β → β → Ordering} [Std.TransCmp cmp] {toKey : α → β} {key : β}
    (h : items.IsChain fun a b => cmp (toKey a) (toKey b) = .lt) : Ordered (fun a => cmp (toKey a) key) items := by
  have : Trans (fun a b => cmp (toKey a) (toKey b) = .lt) (fun a b => cmp (toKey a) (toKey b) = .lt)
      (fun a b => cmp (toKey a) (toKey b) = .lt) := ⟨Std.TransCmp.lt_trans⟩
  refine (isChain_iff_pairwise.mp h).imp fun {a b} hab => ⟨fun hgt => ?_, Std.TransCmp.lt_trans hab⟩
  have hkey : cmp key (toKey b) = .lt := Std.TransCmp.lt_trans (Std.OrientedCmp.gt_iff_lt.mp hgt) hab
  exact Std.OrientedCmp.gt_iff_lt.mpr hkey

theorem isOk_iff_hit :
    (binarySearchBy f items).isOk = true ↔ Hit f items (narrow f items items.length 0 items.length) := by
  unfold binarySearchBy Hit
  dsimp only
  split
  next heq => exact iff_of_true rfl heq
  next hlt => exact iff_of_false Bool.false_ne_true (by rw [hlt]; decide)
  next hne _ => exact iff_of_false Bool.false_ne_true hne

theorem binarySearchBy_isOk (h : Ordered f items) : (binarySearchBy f items).isOk = true ↔ ∃ a ∈ items, f a = .eq := by
  rw [isOk_iff_hit]
  constructor
  · intro hit
    obtain ⟨a, ha, hfa⟩ := Option.map_eq_some_iff.mp hit
    exact ⟨a, mem_of_getElem? ha, hfa⟩
  · rintro ⟨a, ha, hfa⟩
    obtain ⟨i, hi, rfl⟩ := mem_iff_getElem.mp ha
    have hit : Hit f items i := by rw [Hit, getElem?_eq_getElem hi, Option.map_some, hfa]
    have hend : i < 0 + items.length := by omega
    exact narrow_hit h le_rfl (Nat.zero_add _).le (Nat.zero_le _) hend hit

end MochiSyscalls.Foundations.BinarySearch
