import Mathlib

/-! # Rows of a table

A table is a list of rows. A row is found by the first match of a test and written back at its
position; rows keep an identity (a key) while their content evolves. `findRow` returns the position
next to the row, as a mutable reference does. -/

namespace MochiSyscalls.Foundations.Rows
open List
set_option autoImplicit false

variable {α β : Type}

/-- `iter_mut().find(p)`: the position of the first row that satisfies `p`, and the row. -/
def findRow (p : α → Prop) [DecidablePred p] : List α → Option (ℕ × α)
  | [] => none
  | a :: rows => if p a then some (0, a) else (findRow p rows).map fun r => (r.1 + 1, r.2)

variable {rows : List α} {p : α → Prop}

theorem mem_snoc {a b : α} : b ∈ rows ++ [a] ↔ b ∈ rows ∨ b = a := by
  rw [mem_append, mem_singleton]

theorem pairwise_snoc {R : α → α → Prop} {a : α} (h : rows.Pairwise R) (ha : ∀ b ∈ rows, R b a) :
    (rows ++ [a]).Pairwise R :=
  pairwise_append.mpr ⟨h, pairwise_singleton _ _, fun b hb _ hc => mem_singleton.mp hc ▸ ha b hb⟩

theorem nodup_snoc {a : α} (h : rows.Nodup) (ha : a ∉ rows) : (rows ++ [a]).Nodup :=
  pairwise_snoc h fun _ hb heq => ha (heq ▸ hb)

theorem findRow_none [DecidablePred p] : findRow p rows = none ↔ ∀ a ∈ rows, ¬ p a := by
  induction rows with
  | nil => simp [findRow]
  | cons a rows ih => by_cases h : p a <;> simp [findRow, h, ih]

variable {i : ℕ} {a : α}

theorem findRow_some [DecidablePred p] (h : findRow p rows = some (i, a)) : rows[i]? = some a ∧ p a := by
  induction rows generalizing i with
  | nil => cases h
  | cons b rows ih =>
    unfold findRow at h
    split at h
    next hb =>
      cases h
      exact ⟨rfl, hb⟩
    · rw [Option.map_eq_some_iff] at h
      obtain ⟨⟨j, c⟩, hj, he⟩ := h
      cases he
      exact ih hj

/-- `swap_remove`: the last row takes the place of the removed one. -/
def swapRemove (rows : List α) (i : ℕ) : List α :=
  match rows.getLast? with
  | none => []
  | some last => (rows.set i last).dropLast

theorem swapRemove_perm (hi : i < rows.length) : (swapRemove rows i).Perm (rows.eraseIdx i) := by
  obtain ⟨pre, last, rfl⟩ : ∃ pre last, rows = pre ++ [last] :=
    ⟨_, _, (dropLast_append_getLast (ne_nil_of_length_pos (by omega))).symm⟩
  have hs : swapRemove (pre ++ [last]) i = ((pre ++ [last]).set i last).dropLast := by
    simp [swapRemove]
  rw [hs]
  obtain hlt | heq : i < pre.length ∨ i = pre.length := by simp at hi; omega
  · rw [set_append_left _ _ hlt, dropLast_concat, eraseIdx_append_of_lt_length hlt,
      set_eq_take_append_cons_drop, if_pos hlt, eraseIdx_eq_take_drop_succ, append_assoc]
    exact List.Perm.append_left _ (perm_append_singleton _ _).symm
  · subst heq
    rw [set_append_right _ _ le_rfl, Nat.sub_self, set_cons_zero, dropLast_concat,
      eraseIdx_append_of_length_le le_rfl]
    simp

theorem key_ne_of_mem_swapRemove {κ : Type} {f : α → κ} (hnodup : (rows.map f).Nodup) {b : α} (hi : rows[i]? = some a)
    (hb : b ∈ swapRemove rows i) : f b ≠ f a := by
  obtain ⟨hlt, rfl⟩ := List.getElem?_eq_some_iff.mp hi
  have hmem : f b ∈ (rows.eraseIdx i).map f := List.mem_map_of_mem ((swapRemove_perm hlt).mem_iff.mp hb)
  have hperm : List.Perm (rows.map f) (f rows[i] :: (rows.eraseIdx i).map f) :=
    (List.getElem_cons_eraseIdx_perm hlt).symm.map f
  rw [hperm.nodup_iff, List.nodup_cons] at hnodup
  exact fun he => hnodup.1 (he ▸ hmem)

/-! ## Rows that evolve in place -/

variable {R : α → α → Prop}

theorem forall₂_set (hrefl : ∀ a, R a a) {b : α}
    (ha : rows[i]? = some a) (hab : R a b) : List.Forall₂ R rows (rows.set i b) := by
  induction rows generalizing i with
  | nil => cases ha
  | cons c rows ih =>
    cases i with
    | zero =>
      cases ha
      exact .cons hab (forall₂_same.mpr fun x _ => hrefl x)
    | succ i => exact .cons (hrefl c) (ih ha)

section

variable {R : α → β → Prop} {rows' : List β} (h : List.Forall₂ R rows rows')
include h

theorem exists_of_mem_right {b : β} (hb : b ∈ rows') : ∃ a ∈ rows, R a b := by
  induction h with
  | nil => cases hb
  | @cons x y xs ys hxy _ ih =>
    obtain rfl | hb := mem_cons.mp hb
    · exact ⟨x, mem_cons_self, hxy⟩
    · obtain ⟨a, ha, hr⟩ := ih hb
      exact ⟨a, mem_cons_of_mem _ ha, hr⟩

theorem exists_of_mem_left (ha : a ∈ rows) : ∃ b ∈ rows', R a b :=
  exists_of_mem_right h.flip ha

end

theorem map_eq_of_forall₂ {γ : Type} {f : α → γ} (hf : ∀ a b, R a b → f b = f a)
    {rows' : List α} (h : List.Forall₂ R rows rows') : rows'.map f = rows.map f := by
  induction h with
  | nil => rfl
  | cons hab _ ih => rw [map_cons, map_cons, hf _ _ hab, ih]

theorem mem_set_of_key {κ : Type} {f : α → κ} (hnodup : (rows.map f).Nodup)
    {b c : α} (hi : rows[i]? = some a) (hb : f b = f a) (hc : c ∈ rows.set i b) : c = b ∨ (c ∈ rows ∧ f c ≠ f a) := by
  have hkeys : (rows.set i b).map f = rows.map f :=
    map_eq_of_forall₂ (fun _ _ hr => hr) (forall₂_set (R := fun x y => f y = f x) (fun _ => rfl) hi hb)
  by_cases hk : f c = f a
  · left
    have hbm : b ∈ rows.set i b := List.mem_set (List.getElem?_eq_some_iff.mp hi).1 b
    exact List.inj_on_of_nodup_map (hkeys ▸ hnodup) hc hbm (hk.trans hb.symm)
  · exact (List.mem_or_eq_of_mem_set hc).elim (fun hm => .inr ⟨hm, hk⟩) .inl

theorem mem_set_of_ne {b c : α} (hi : rows[i]? = some a) (hc : c ∈ rows) (hne : c ≠ a) : c ∈ rows.set i b := by
  obtain ⟨j, hj⟩ := mem_iff_getElem?.mp hc
  have hij : i ≠ j := by
    rintro rfl
    exact hne (Option.some.inj (hj.symm.trans hi))
  exact mem_iff_getElem?.mpr ⟨j, by rw [getElem?_set_ne hij, hj]⟩

theorem set_self (hi : rows[i]? = some a) : rows.set i a = rows := by
  obtain ⟨hlt, rfl⟩ := List.getElem?_eq_some_iff.mp hi
  exact List.set_getElem_self hlt

theorem filter_set [DecidablePred p] (hold : ∀ a ∈ rows, ¬ p a)
    (hi : i < rows.length) (b : α) : (rows.set i b).filter p = [b].filter p := by
  have htake : (rows.take i).filter p = [] :=
    filter_eq_nil_iff.mpr fun a ha => by simpa using hold a (mem_of_mem_take ha)
  have hdrop : (rows.drop (i + 1)).filter p = [] :=
    filter_eq_nil_iff.mpr fun a ha => by simpa using hold a (mem_of_mem_drop ha)
  rw [set_eq_take_append_cons_drop, if_pos hi, filter_append, htake, nil_append,
    ← singleton_append, filter_append, hdrop, append_nil]

theorem filter_length_le_one [DecidablePred p]
    (hpair : rows.Pairwise R) (h : ∀ a b, p a → p b → ¬ R a b) : (rows.filter p).length ≤ 1 := by
  have hsub : (rows.filter p).Pairwise R := hpair.sublist filter_sublist
  have hall : ∀ a ∈ rows.filter p, p a := fun a ha => by simpa using (mem_filter.mp ha).2
  generalize rows.filter p = found at hsub hall
  match found with
  | [] => exact Nat.zero_le _
  | [_] => exact le_rfl
  | a :: b :: _ =>
    have hab := (pairwise_cons.mp hsub).1 b (mem_cons_self ..)
    exact absurd hab (h a b (hall a (mem_cons_self ..)) (hall b (mem_cons_of_mem _ (mem_cons_self ..))))

end MochiSyscalls.Foundations.Rows
