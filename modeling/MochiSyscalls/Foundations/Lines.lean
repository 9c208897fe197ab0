import MochiSyscalls.Foundations.Utf8

/-! # Lines

`str::lines`: a text is cut behind every line feed; a carriage return in front of it belongs to the line
end, and nothing follows the last one. -/

namespace MochiSyscalls.Foundations.Lines
open Utf8 List
set_option autoImplicit false

def stripReturn (line : List UInt8) : List UInt8 :=
  if line.getLast? = some (byte '\r') then line.dropLast else line

/-- The pieces between the line feeds as lines: the last one ends without a line feed. -/
def ofPieces : List (List UInt8) → List (List UInt8)
  | [] => []
  | [last] => if last.isEmpty then [] else [last]
  | line :: pieces => stripReturn line :: ofPieces pieces

def lines (text : List UInt8) : List (List UInt8) := ofPieces (text.splitOn (byte '\n'))

theorem mem_intercalate {x b : UInt8} {parts : List (List UInt8)} (h : b ∈ [x].intercalate parts) :
    b = x ∨ ∃ part ∈ parts, b ∈ part := by
  induction parts with
  | nil => exact absurd h not_mem_nil
  | cons part parts ih =>
    cases parts with
    | nil =>
      rw [intercalate_singleton] at h
      exact .inr ⟨part, mem_singleton_self _, h⟩
    | cons next parts =>
      rw [intercalate_cons_cons, append_assoc, mem_append, mem_append, mem_singleton] at h
      rcases h with h | h | h
      · exact .inr ⟨part, mem_cons_self, h⟩
      · exact .inl h
      · rcases ih h with h | ⟨p, hp, h⟩
        · exact .inl h
        · exact .inr ⟨p, mem_cons_of_mem _ hp, h⟩

theorem lines_terminated {items : List (List UInt8)} (hfeed : ∀ line ∈ items, byte '\n' ∉ line)
    (hreturn : ∀ line ∈ items, byte '\r' ∉ line) : lines (items.flatMap (· ++ [byte '\n'])) = items := by
  unfold lines
  induction items with
  | nil => rfl
  | cons line items ih =>
    obtain ⟨hline, hfeed⟩ := forall_mem_cons.mp hfeed
    obtain ⟨hstrip, hreturn⟩ := forall_mem_cons.mp hreturn
    have hrest := ih hfeed hreturn
    have hkeep : stripReturn line = line := by
      refine if_neg fun hlast => hstrip (mem_of_getLast? hlast)
    rw [flatMap_cons, append_assoc, singleton_append, splitOn_append_cons_self_of_not_mem hline]
    cases hpieces : (items.flatMap (· ++ [byte '\n'])).splitOn (byte '\n') with
    | nil => exact (splitOn_ne_nil _ _ hpieces).elim
    | cons piece pieces => rw [ofPieces, hkeep, ← hpieces, hrest]; simp

/-- A line of a text file: ASCII, without a line end. -/
def Inline (line : List UInt8) : Prop := ∀ b ∈ line, b ≠ byte '\n' ∧ b ≠ byte '\r' ∧ b < 0x80

theorem text_of_inline {items : List (List UInt8)} (h : ∀ line ∈ items, Inline line) :
    lines (items.flatMap (· ++ [byte '\n'])) = items ∧ valid (items.flatMap (· ++ [byte '\n'])) = true := by
  refine ⟨lines_terminated (fun line hline hb => (h line hline _ hb).1 rfl) fun line hline hb => (h line hline _ hb).2.1 rfl,
    valid_of_ascii fun b hb => ?_⟩
  obtain ⟨line, hline, hb⟩ := mem_flatMap.mp hb
  rcases mem_append.mp hb with hb | hb
  · exact (h line hline b hb).2.2
  · rw [mem_singleton.mp hb]
    decide

end MochiSyscalls.Foundations.Lines
