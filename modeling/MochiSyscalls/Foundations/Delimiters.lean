import Mathlib

/-! # Delimiters

`find` is the first position of a delimiter in a text, and `splitPair` cuts a text at a delimiter of two
bytes. A delimiter found in a text is found at the same place in every longer text, and in every shorter
one that still holds it. -/

namespace MochiSyscalls.Foundations.Delimiters
open List
set_option autoImplicit false

variable {needle text front rest : List UInt8} {k : ℕ}

/-- `text.windows(needle.len()).position(|window| window == needle)`. -/
def find (needle : List UInt8) : List UInt8 → Option ℕ
  | [] => none
  | b :: rest => if needle.isPrefixOf (b :: rest) then some 0 else (find needle rest).map (· + 1)

theorem find_eq_some (hne : needle ≠ []) :
    find needle text = some k ↔ needle <+: text.drop k ∧ ∀ j < k, ¬ needle <+: text.drop j := by
  induction text generalizing k with
  | nil =>
    refine iff_of_false nofun fun h => hne ?_
    rw [drop_nil] at h
    exact prefix_nil.mp h.1
  | cons b text ih =>
    rw [find]
    split
    next hpre =>
      rw [List.isPrefixOf_iff_prefix] at hpre
      constructor
      · intro h
        obtain rfl := Option.some.inj h
        exact ⟨hpre, fun j hj => absurd hj (Nat.not_lt_zero _)⟩
      · rintro ⟨-, hfirst⟩
        cases k with
        | zero => rfl
        | succ k => exact absurd hpre (hfirst 0 (Nat.succ_pos _))
    next hpre =>
      rw [List.isPrefixOf_iff_prefix] at hpre
      rw [Option.map_eq_some_iff]
      constructor
      · rintro ⟨i, hi, rfl⟩
        obtain ⟨hat, hfirst⟩ := ih.mp hi
        refine ⟨hat, fun j hj => ?_⟩
        cases j with
        | zero => exact hpre
        | succ j => exact hfirst j (by omega)
      · rintro ⟨hat, hfirst⟩
        cases k with
        | zero => exact absurd hat hpre
        | succ k => exact ⟨k, ih.mpr ⟨hat, fun j hj => hfirst (j + 1) (by omega)⟩, rfl⟩

theorem find_eq_none (hne : needle ≠ []) : find needle text = none ↔ ∀ j, ¬ needle <+: text.drop j := by
  constructor
  · intro h j hj
    -- the least position with the delimiter would be found
    classical
    have hex : ∃ j, needle <+: text.drop j := ⟨j, hj⟩
    have hfound := (find_eq_some hne).mpr ⟨Nat.find_spec hex, fun i hi => Nat.find_min hex hi⟩
    rw [h] at hfound
    cases hfound
  · intro h
    cases hfind : find needle text with
    | none => rfl
    | some k => exact absurd ((find_eq_some hne).mp hfind).1 (h k)

theorem eq_of_find (hne : needle ≠ []) (h : find needle text = some k) :
    text = text.take k ++ needle ++ text.drop (k + needle.length) ∧ k + needle.length ≤ text.length := by
  obtain ⟨⟨rest, hrest⟩, -⟩ := (find_eq_some hne).mp h
  have hlen := congrArg length hrest
  have hpos := length_pos_iff.mpr hne
  rw [length_append, length_drop] at hlen
  have hbehind : text.drop (k + needle.length) = rest := by
    rw [← drop_drop, ← hrest, drop_left]
  rw [hbehind, append_assoc, hrest, take_append_drop]
  exact ⟨rfl, by omega⟩

variable {piece : List UInt8}

theorem find_skip {a : UInt8} (h : a ∉ piece) (text : List UInt8) :
    find (a :: needle) (piece ++ text) = (find (a :: needle) text).map (· + piece.length) := by
  induction piece with
  | nil => exact Option.map_id'.symm
  | cons b piece ih =>
    rw [mem_cons, not_or] at h
    have hpre : ¬ (a :: needle).isPrefixOf (b :: (piece ++ text)) = true := by
      rw [List.isPrefixOf_iff_prefix, cons_prefix_cons]
      exact fun hp => h.1 hp.1
    rw [cons_append, find, if_neg hpre, ih h.2, Option.map_map]
    rfl

/-! ## Shorter texts -/

theorem prefix_drop_append (rest : List UInt8) {j : ℕ} (hfit : j + needle.length ≤ text.length) :
    needle <+: (text ++ rest).drop j ↔ needle <+: text.drop j := by
  rw [drop_append_of_le_length (by omega)]
  constructor
  · intro h
    exact prefix_of_prefix_length_le h (prefix_append _ _) (by rw [length_drop]; omega)
  · intro h
    exact h.trans (prefix_append _ _)

theorem find_append (hne : needle ≠ []) (h : find needle text = some k) : find needle (text ++ rest) = some k := by
  obtain ⟨-, hlen⟩ := eq_of_find hne h
  obtain ⟨hat, hfirst⟩ := (find_eq_some hne).mp h
  refine (find_eq_some hne).mpr ⟨(prefix_drop_append rest hlen).mpr hat, fun j hj => ?_⟩
  rw [prefix_drop_append rest (by omega)]
  exact hfirst j hj

section

variable (hne : needle ≠ []) (h : find needle (text ++ rest) = some k)
include hne h

theorem find_of_append (hfit : k + needle.length ≤ text.length) : find needle text = some k := by
  obtain ⟨hat, hfirst⟩ := (find_eq_some hne).mp h
  refine (find_eq_some hne).mpr ⟨(prefix_drop_append rest hfit).mp hat, fun j hj => ?_⟩
  rw [← prefix_drop_append rest (by omega)]
  exact hfirst j hj

theorem find_none_of_append
    (hshort : text.length < k + needle.length) : find needle text = none := by
  cases hfind : find needle text with
  | none => rfl
  | some j =>
    have hlong : find needle (text ++ rest) = some j := find_append hne hfind
    obtain ⟨-, hlen⟩ := eq_of_find hne hfind
    rw [h] at hlong
    obtain rfl := Option.some.inj hlong
    omega

end

/-! ## Two-byte delimiters -/

variable {a b : UInt8}

/-- `text.split(..)` at the pair `a`, `b`. -/
def splitPair (a b : UInt8) : List UInt8 → List (List UInt8)
  | [] => [[]]
  | [x] => [[x]]
  | x :: y :: rest =>
    if x = a ∧ y = b then [] :: splitPair a b rest else (splitPair a b (y :: rest)).modifyHead (x :: ·)

theorem splitPair_ne_nil (text : List UInt8) : splitPair a b text ≠ [] := by
  fun_induction splitPair a b text with
  | case1 => exact cons_ne_nil _ _
  | case2 => exact cons_ne_nil _ _
  | case3 => exact cons_ne_nil _ _
  | case4 x y rest hpair ih => exact fun h => ih (modifyHead_eq_nil_iff.mp h)

theorem intercalate_splitPair (text : List UInt8) : [a, b].intercalate (splitPair a b text) = text := by
  fun_induction splitPair a b text with
  | case1 => rfl
  | case2 => rfl
  | case3 x y rest hpair ih =>
    rw [intercalate_cons_of_ne_nil (splitPair_ne_nil rest), ih, hpair.1, hpair.2]
    rfl
  | case4 x y rest hpair ih =>
    cases hsplit : splitPair a b (y :: rest) with
    | nil => exact absurd hsplit (splitPair_ne_nil _)
    | cons piece pieces =>
      rw [hsplit] at ih
      rw [modifyHead_cons]
      cases pieces with
      | nil =>
        rw [intercalate_singleton] at ih ⊢
        rw [ih]
      | cons next pieces =>
        rw [intercalate_cons_cons] at ih ⊢
        rw [cons_append, cons_append, ih]

theorem splitPair_append (h : a ∉ piece) (rest : List UInt8) :
    splitPair a b (piece ++ a :: b :: rest) = piece :: splitPair a b rest := by
  induction piece with
  | nil => rw [nil_append, splitPair, if_pos ⟨rfl, rfl⟩]
  | cons x piece ih =>
    rw [mem_cons, not_or] at h
    have hrest := ih h.2
    cases piece with
    | nil =>
      rw [nil_append] at hrest
      rw [singleton_append, splitPair, if_neg (fun hp => h.1 hp.1.symm), hrest, modifyHead_cons]
    | cons y piece =>
      rw [cons_append] at hrest
      rw [cons_append, cons_append, splitPair, if_neg (fun hp => h.1 hp.1.symm), hrest, modifyHead_cons]

theorem splitPair_of_notMem (h : a ∉ piece) : splitPair a b piece = [piece] := by
  fun_induction splitPair a b piece with
  | case1 => rfl
  | case2 => rfl
  | case3 x y rest hpair ih => exact absurd (by rw [hpair.1]; exact mem_cons_self) h
  | case4 x y rest hpair ih =>
    rw [mem_cons, not_or] at h
    rw [ih h.2, modifyHead_cons]

theorem splitPair_intercalate {pieces : List (List UInt8)} (hne : pieces ≠ []) (h : ∀ piece ∈ pieces, a ∉ piece) :
    splitPair a b ([a, b].intercalate pieces) = pieces := by
  induction pieces with
  | nil => exact absurd rfl hne
  | cons piece pieces ih =>
    obtain ⟨hpiece, h⟩ := forall_mem_cons.mp h
    cases pieces with
    | nil => rw [intercalate_singleton, splitPair_of_notMem hpiece]
    | cons next pieces =>
      rw [intercalate_cons_cons, append_assoc]
      rw [show [a, b] ++ [a, b].intercalate (next :: pieces) = a :: b :: [a, b].intercalate (next :: pieces) from rfl,
        splitPair_append hpiece, ih (cons_ne_nil _ _) h]

end MochiSyscalls.Foundations.Delimiters
