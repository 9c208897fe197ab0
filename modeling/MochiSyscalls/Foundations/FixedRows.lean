import MochiSyscalls.Foundations.LittleEndian

/-! # Rows of fixed length

A buffer made of rows of one length, read back row by row, and the words of a row. -/

namespace MochiSyscalls.Foundations.Bytes
open List
set_option autoImplicit false

variable {α β : Type}

section

variable {f : α → List β} {n : ℕ} (hf : ∀ a, (f a).length = n)
include hf

theorem flatMap_length (items : List α) : (items.flatMap f).length = items.length * n := by
  induction items with
  | nil => simp
  | cons a items ih =>
    rw [flatMap_cons, length_append, hf, ih, length_cons, Nat.succ_mul, Nat.add_comm]

theorem row_of_flatMap {items : List α} {i : ℕ} {a : α}
    (h : items[i]? = some a) (rest : List β) : ((items.flatMap f ++ rest).drop (i * n)).take n = f a := by
  induction items generalizing i with
  | nil => cases h
  | cons b items ih =>
    rw [flatMap_cons, append_assoc]
    cases i with
    | zero =>
      cases h
      rw [Nat.zero_mul, drop_zero, take_left' (hf a)]
    | succ i =>
      rw [Nat.succ_mul, Nat.add_comm, ← drop_drop, drop_left' (hf b)]
      exact ih h

end

section

variable {words : List ℕ} {i w : ℕ} (h : words[i]? = some w) (hw : w < 2 ^ 64) (rest : List UInt8)
include h hw

theorem word_of_row : ofLe (((words.flatMap (toLe 8) ++ rest).drop (i * 8)).take 8) = w := by
  rw [row_of_flatMap (toLe_length 8) h, ofLe_toLe]
  exact hw

theorem readLe_words : readLe 8 (words.flatMap (toLe 8) ++ rest) (8 * i) = some w := by
  have hi := (List.getElem?_eq_some_iff.1 h).1
  have hlen : (words.flatMap (toLe 8)).length = words.length * 8 := flatMap_length (toLe_length 8) words
  refine readLe_eq_some.2 ⟨?_, hw⟩
  rw [slice_isSome (by omega) (by rw [List.length_append, hlen]; omega), List.drop_take, Nat.add_sub_cancel_left,
    Nat.mul_comm 8 i, row_of_flatMap (toLe_length 8) h]

end

theorem mapM_range {m : Type → Type} [Monad m] [LawfulMonad m] {f : ℕ → m α} {items : List α}
    (h : ∀ i a, items[i]? = some a → f i = pure a) : (List.range items.length).mapM f = pure items := by
  induction items using reverseRecOn with
  | nil => rfl
  | append_singleton items a ih =>
    have hinit : (range items.length).mapM f = pure items := by
      refine ih fun i b hb => h i b ?_
      rw [List.getElem?_append_left (List.getElem?_eq_some_iff.1 hb).1, hb]
    have hlast : f items.length = pure a := h _ _ (by rw [List.getElem?_append_right le_rfl]; simp)
    rw [List.length_append, List.length_singleton, List.range_succ, List.mapM_append, hinit]
    simp only [pure_bind, List.mapM_cons, hlast, List.mapM_nil]

end MochiSyscalls.Foundations.Bytes
