import MochiSyscalls.Foundations.Rows

/-! # Breadth-first order

The levels of a graph from a root: what is first reached in `k` steps, in the order in which the level before names
it. A search that appends each new node to the list it walks along produces the levels one after the other. -/

namespace MochiSyscalls.Foundations.BreadthFirst
open Rows List
set_option autoImplicit false

variable {α : Type} [DecidableEq α]

def fresh (known : List α) : List α → List α
  | [] => []
  | v :: vs => if v ∈ known then fresh known vs else v :: fresh (known ++ [v]) vs

theorem fresh_append (known xs ys : List α) :
    fresh known (xs ++ ys) = fresh known xs ++ fresh (known ++ fresh known xs) ys := by
  induction xs generalizing known with
  | nil => simp [fresh]
  | cons x xs ih =>
    rw [cons_append, fresh, fresh]
    split
    · exact ih known
    · rw [ih, cons_append, append_assoc, singleton_append]

variable {v : α}

theorem mem_fresh {known vs : List α} : v ∈ fresh known vs ↔ v ∈ vs ∧ v ∉ known := by
  induction vs generalizing known with
  | nil => simp [fresh]
  | cons w vs ih =>
    rw [fresh]
    split
    next hw =>
      rw [ih, mem_cons]
      constructor
      · exact fun h => ⟨.inr h.1, h.2⟩
      · rintro ⟨rfl | h, hv⟩
        · exact absurd hw hv
        · exact ⟨h, hv⟩
    next hw =>
      rw [mem_cons, mem_cons, ih, mem_append, mem_singleton]
      constructor
      · rintro (rfl | ⟨h, hv⟩)
        · exact ⟨.inl rfl, hw⟩
        · exact ⟨.inr h, fun hk => hv (.inl hk)⟩
      · rintro ⟨rfl | h, hv⟩
        · exact .inl rfl
        · by_cases heq : v = w
          · exact .inl heq
          · exact .inr ⟨h, fun hk => hk.elim hv heq⟩

theorem nodup_append_fresh {known : List α} (hknown : known.Nodup) (vs : List α) : (known ++ fresh known vs).Nodup := by
  induction vs generalizing known with
  | nil => simpa [fresh] using hknown
  | cons w vs ih =>
    rw [fresh]
    split
    · exact ih hknown
    next hw =>
      have h := ih (nodup_snoc hknown hw)
      rwa [append_assoc, singleton_append] at h

/-! ## Levels -/

variable (succ : α → List α) (root : α)

mutual

def before : ℕ → List α
  | 0 => []
  | k + 1 => before k ++ level k

def level : ℕ → List α
  | 0 => [root]
  | k + 1 => fresh (before k ++ level k) ((level k).flatMap succ)

end

def Walk : ℕ → α → Prop
  | 0, v => v = root
  | k + 1, v => ∃ u, Walk k u ∧ v ∈ succ u

variable {k : ℕ}

omit [DecidableEq α] in
theorem Walk.reachable (h : Walk succ root k v) : Relation.ReflTransGen (fun a b => b ∈ succ a) root v := by
  induction k generalizing v with
  | zero => rw [Walk] at h; exact h ▸ .refl
  | succ k ih =>
    obtain ⟨u, hu, hv⟩ := h
    exact (ih hu).tail hv

theorem mem_before : v ∈ before succ root k ↔ ∃ j < k, v ∈ level succ root j := by
  induction k with
  | zero => simp [before]
  | succ k ih =>
    rw [before, mem_append, ih]
    constructor
    · rintro (⟨j, hj, h⟩ | h)
      · exact ⟨j, by omega, h⟩
      · exact ⟨k, by omega, h⟩
    · rintro ⟨j, hj, h⟩
      rcases Nat.lt_succ_iff_lt_or_eq.1 hj with hlt | rfl
      · exact .inl ⟨j, hlt, h⟩
      · exact .inr h

theorem mem_level : v ∈ level succ root k ↔ Walk succ root k v ∧ ∀ j < k, ¬ Walk succ root j v := by
  induction k using Nat.strong_induction_on generalizing v with
  | _ k ih =>
    cases k with
    | zero => simp [level, Walk]
    | succ k =>
      -- what is within a distance lies in one of its levels
      have hwithin : ∀ j, j ≤ k → ∀ w, Walk succ root j w → w ∈ before succ root (k + 1) := by
        intro j hj w hwalk
        induction j using Nat.strong_induction_on with
        | _ j ihj =>
          by_cases hshort : ∃ i < j, Walk succ root i w
          · obtain ⟨i, hi, hwi⟩ := hshort
            exact ihj i hi (by omega) hwi
          · refine (mem_before succ root).2 ⟨j, by omega, (ih j (by omega)).2 ⟨hwalk, fun i hi hwi => hshort ⟨i, hi, hwi⟩⟩⟩
      have hknown : ∀ w, w ∈ before succ root (k + 1) ↔ ∃ j ≤ k, Walk succ root j w := by
        intro w
        constructor
        · intro h
          obtain ⟨j, hj, hmem⟩ := (mem_before succ root).1 h
          exact ⟨j, by omega, ((ih j hj).1 hmem).1⟩
        · rintro ⟨j, hj, hwalk⟩
          exact hwithin j hj w hwalk
      have hstep : before succ root k ++ level succ root k = before succ root (k + 1) := by rw [before]
      rw [level, mem_fresh, hstep, hknown]
      constructor
      · rintro ⟨hnamed, hnew⟩
        obtain ⟨u, hu, hv⟩ := mem_flatMap.1 hnamed
        exact ⟨⟨u, ((ih k (by omega)).1 hu).1, hv⟩, fun j hj hwalk => hnew ⟨j, by omega, hwalk⟩⟩
      · rintro ⟨⟨u, hu, hv⟩, hfar⟩
        refine ⟨mem_flatMap.2 ⟨u, (ih k (by omega)).2 ⟨hu, fun j hj hwalk => ?_⟩, hv⟩, fun h => ?_⟩
        · exact hfar (j + 1) (by omega) ⟨u, hwalk, hv⟩
        · obtain ⟨j, hj, hwalk⟩ := h
          exact hfar j (by omega) hwalk

theorem before_nodup (k : ℕ) : (before succ root k ++ level succ root k).Nodup := by
  induction k with
  | zero => simp [before, level]
  | succ k ih =>
    rw [before, level]
    exact nodup_append_fresh ih _

/-! ## The search -/

/-- Walking along the list it extends: the node at the cursor adds what is new to it. -/
inductive Search : List α → ℕ → List α → Prop
  | done {order : List α} {cursor : ℕ} (h : order.length ≤ cursor) : Search order cursor order
  | visit {order result : List α} {cursor : ℕ} {v : α} (hv : order[cursor]? = some v)
      (h : Search (order ++ fresh order (succ v)) (cursor + 1) result) : Search order cursor result

variable {succ root} {result : List α}

theorem Search.level_rest {known rest : List α} {cursor : ℕ} (vs : List α) (hcursor : cursor = known.length)
    (h : Search succ (known ++ rest ++ fresh (known ++ rest) vs) cursor result) :
    Search succ (known ++ rest ++ fresh (known ++ rest) (vs ++ rest.flatMap succ)) (known.length + rest.length) result := by
  induction rest generalizing known cursor vs with
  | nil =>
    subst hcursor
    simpa using h
  | cons v rest ih =>
    have hv : (known ++ v :: rest ++ fresh (known ++ v :: rest) vs)[cursor]? = some v := by
      subst hcursor
      rw [append_assoc, getElem?_append_right le_rfl]
      simp
    cases h with
    | done hlen =>
      subst hcursor
      simp only [length_append, length_cons] at hlen
      omega
    | visit hv' hnext =>
      rw [hv] at hv'
      cases hv'
      have hlist : known ++ v :: rest = (known ++ [v]) ++ rest := by simp
      rw [append_assoc (known ++ v :: rest), ← fresh_append, hlist] at hnext
      have hfinal := ih (vs ++ succ v) (by simp [hcursor]) hnext
      rw [← hlist, append_assoc vs] at hfinal
      simpa [Nat.add_assoc, Nat.add_comm 1] using hfinal

theorem Search.next_level
    (h : Search succ (before succ root k ++ level succ root k) (before succ root k).length result) :
    Search succ (before succ root (k + 1) ++ level succ root (k + 1)) (before succ root (k + 1)).length result := by
  have hrest := Search.level_rest [] rfl (by simpa [fresh] using h)
  rw [nil_append] at hrest
  rw [before, level, length_append]
  exact hrest

theorem Search.grows {order : List α} {cursor : ℕ} (h : Search succ order cursor result) : order <+: result := by
  induction h with
  | done => exact prefix_rfl
  | visit _ _ ih => exact (prefix_append _ _).trans ih

/-- **The search finds the levels in order.** -/
theorem Search.eq_levels (h : Search succ [root] 0 result) :
    ∃ k, level succ root k = [] ∧ result = before succ root k := by
  have hat : ∀ k, Search succ (before succ root k ++ level succ root k) (before succ root k).length result := by
    intro k
    induction k with
    | zero => simpa [before, level] using h
    | succ k ih => exact ih.next_level
  -- a level that is not empty makes the result longer
  have hempty : ∃ k, level succ root k = [] := by
    by_contra hall
    have hlong : ∀ k, k ≤ (before succ root k).length := by
      intro k
      induction k with
      | zero => exact Nat.zero_le _
      | succ k ih =>
        have hpos : 0 < (level succ root k).length := length_pos_iff.2 fun heq => hall ⟨k, heq⟩
        rw [before, length_append]
        omega
    have hlen := (hat (result.length + 1)).grows.length_le
    have hlow := hlong (result.length + 1)
    rw [length_append] at hlen
    omega
  obtain ⟨k, hk⟩ := hempty
  have hlast := hat k
  rw [hk, append_nil] at hlast
  refine ⟨k, hk, ?_⟩
  cases hlast with
  | done => rfl
  | visit hv =>
    rw [getElem?_eq_none le_rfl] at hv
    cases hv

end MochiSyscalls.Foundations.BreadthFirst
