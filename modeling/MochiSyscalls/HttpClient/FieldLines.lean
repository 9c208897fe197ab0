import MochiSyscalls.HttpClient.Response

/-! # Field lines

Heads and trailers are lines that end in CRLF, with an empty line behind them: `lineBlock`. Lines that are
not empty and hold no carriage return are found again, by the search for the blank line and by the split. -/

namespace MochiSyscalls.HttpClient
open Foundations Checked Delimiters Loops Utf8 List
set_option autoImplicit false

/-! ## Cutting a line -/

theorem cut_of_notMem {x : UInt8} {text : List UInt8} (h : x ∉ text) : cut x text = (text, none) := by
  have hdrop : text.dropWhile (· != x) = [] := by
    rw [dropWhile_eq_nil_iff]
    intro b hb
    rw [bne_iff_ne]
    rintro rfl
    exact h hb
  rw [cut, hdrop]

theorem cut_append {x : UInt8} {front rest : List UInt8} (h : x ∉ front) :
    cut x (front ++ x :: rest) = (front, some rest) := by
  have hall : ∀ b ∈ front, (b != x) = true := by
    intro b hb
    rw [bne_iff_ne]
    rintro rfl
    exact h hb
  have hdrop : (front ++ x :: rest).dropWhile (· != x) = x :: rest := by
    rw [dropWhile_append_of_pos hall, dropWhile_cons_of_neg (by simp)]
  have htake : (front ++ x :: rest).takeWhile (· != x) = front := by
    rw [takeWhile_append_of_pos hall, takeWhile_cons_of_neg (by simp), append_nil]
  rw [cut, hdrop, htake]

theorem cut_cases (x : UInt8) (text : List UInt8) : (x ∉ text ∧ cut x text = (text, none)) ∨
      ∃ front rest, text = front ++ x :: rest ∧ x ∉ front ∧ cut x text = (front, some rest) := by
  by_cases h : x ∈ text
  · obtain ⟨front, rest, rfl, hfront⟩ := eq_append_cons_of_mem h
    exact .inr ⟨front, rest, rfl, hfront, cut_append hfront⟩
  · exact .inl ⟨h, cut_of_notMem h⟩

/-! ## Header lines -/

variable (line : List UInt8)

/-- `field-name ":" OWS field-value OWS`. -/
def HeaderLine : Prop :=
  ∃ name value, line = name ++ byte ':' :: value ∧ name ≠ [] ∧ (∀ b ∈ name, isTokenByte b = true) ∧
    ∀ b ∈ value, isValueByte b = true

theorem isValueByte_of_isBlank {b : UInt8} (h : isBlank b = true) : isValueByte b = true := by
  rw [isBlank, Bool.or_eq_true, beq_iff_eq, beq_iff_eq] at h
  rcases h with rfl | rfl <;> decide

theorem forall_trimBlanks {value : List UInt8} :
    (∀ b ∈ trimBlanks value, isValueByte b = true) ↔ ∀ b ∈ value, isValueByte b = true := by
  have hdrop : ∀ text : List UInt8, (∀ b ∈ text.dropWhile isBlank, isValueByte b = true) ↔
      ∀ b ∈ text, isValueByte b = true := by
    intro text
    constructor
    · intro h b hb
      rw [← takeWhile_append_dropWhile (p := isBlank) (l := text), mem_append] at hb
      rcases hb with hb | hb
      · exact isValueByte_of_isBlank (mem_takeWhile_imp hb)
      · exact h b hb
    · exact fun h b hb => h b ((dropWhile_suffix isBlank).mem hb)
  rw [trimBlanks, rdropWhile]
  simp only [mem_reverse]
  rw [hdrop]
  simp only [mem_reverse]
  exact hdrop value

theorem parseHeader_eq_ok {line name value : List UInt8} : parseHeader line = .ok (name, value) ↔
      ∃ raw, line = name ++ byte ':' :: raw ∧ name ≠ [] ∧ (∀ b ∈ name, isTokenByte b = true) ∧
        (∀ b ∈ raw, isValueByte b = true) ∧ value = trimBlanks raw := by
  constructor
  · intro h
    rcases cut_cases (byte ':') line with ⟨-, hcut⟩ | ⟨front, rest, heq, -, hcut⟩
    · rw [parseHeader, hcut] at h
      cases h
    · rw [parseHeader, hcut] at h
      simp only [bind_eq_ok] at h
      obtain ⟨raw, hraw, _, hname, _, hvalue, h⟩ := h
      rw [okOr_eq_ok] at hraw
      rw [reject_eq_ok] at hname hvalue
      obtain rfl := Option.some.inj hraw
      obtain ⟨rfl, rfl⟩ := Prod.mk.inj (Except.ok.inj h)
      rw [not_or, not_not, List.isEmpty_iff, List.all_eq_true] at hname
      rw [not_not, List.all_eq_true, forall_trimBlanks] at hvalue
      exact ⟨rest, heq, hname.1, hname.2, hvalue, rfl⟩
  · rintro ⟨raw, rfl, hne, hname, hraw, rfl⟩
    have hcolon : byte ':' ∉ name := fun hmem => absurd (hname _ hmem) (by decide)
    unfold parseHeader
    rw [cut_append hcolon]
    refine bind_ok (okOr_eq_ok.mpr rfl) ?_
    refine reject_bind ?_ ?_
    · rw [not_or, not_not, List.isEmpty_iff, List.all_eq_true]
      exact ⟨hne, hname⟩
    refine reject_bind ?_ rfl
    rw [not_not, List.all_eq_true, forall_trimBlanks]
    exact hraw

theorem headerLine_iff {line : List UInt8} : HeaderLine line ↔ ∃ header, parseHeader line = .ok header := by
  constructor
  · rintro ⟨name, raw, heq, hne, hname, hraw⟩
    exact ⟨(name, trimBlanks raw), parseHeader_eq_ok.mpr ⟨raw, heq, hne, hname, hraw, rfl⟩⟩
  · rintro ⟨⟨name, value⟩, h⟩
    obtain ⟨raw, heq, hne, hname, hraw, -⟩ := parseHeader_eq_ok.mp h
    exact ⟨name, raw, heq, hne, hname, hraw⟩

theorem HeaderLine.notMem {line : List UInt8} (h : HeaderLine line) : 13 ∉ line := by
  obtain ⟨name, raw, rfl, -, hname, hraw⟩ := h
  rw [mem_append, mem_cons, not_or, not_or]
  exact ⟨fun hmem => absurd (hname _ hmem) (by decide), by decide, fun hmem => absurd (hraw _ hmem) (by decide)⟩

theorem HeaderLine.ne_nil {line : List UInt8} (h : HeaderLine line) : line ≠ [] := by
  obtain ⟨name, raw, rfl, hne, -⟩ := h
  exact append_ne_nil_of_left_ne_nil hne _

/-! ## Blocks -/

/-- A line that is not empty and does not hold the first byte of a line end. -/
def Plain : Prop := line ≠ [] ∧ 13 ∉ line

theorem HeaderLine.plain {line : List UInt8} (h : HeaderLine line) : Plain line := ⟨h.ne_nil, h.notMem⟩

/-- The lines with their line ends, and the empty line behind them. -/
def lineBlock (lines : List (List UInt8)) : List UInt8 := lines.flatMap (· ++ crlf) ++ crlf

variable {lines : List (List UInt8)}

theorem flatMap_crlf (hne : lines ≠ []) : lines.flatMap (· ++ crlf) = crlf.intercalate lines ++ crlf := by
  induction lines with
  | nil => exact absurd rfl hne
  | cons line lines ih =>
    rw [flatMap_cons]
    cases lines with
    | nil => rw [flatMap_nil, append_nil, intercalate_singleton]
    | cons next lines =>
      rw [ih (cons_ne_nil _ _), intercalate_cons_cons, append_assoc, append_assoc, append_assoc]

theorem lineBlock_eq (hne : lines ≠ []) : lineBlock lines = crlf.intercalate lines ++ blankLine := by
  rw [lineBlock, flatMap_crlf hne, append_assoc]
  rfl

theorem lineBlock_cons (lines : List (List UInt8)) :
    lineBlock (line :: lines) = line ++ (13 :: 10 :: lineBlock lines) := by
  rw [lineBlock, flatMap_cons, append_assoc, append_assoc]
  rfl

theorem four_le_lineBlock (hne : lines ≠ []) : 4 ≤ (lineBlock lines).length := by
  rw [lineBlock_eq hne, length_append]
  exact Nat.le_add_left _ _

theorem no_return_first (hne : lines ≠ []) (hlines : ∀ line ∈ lines, Plain line)
    (needle : List UInt8) : ¬ 13 :: needle <+: lineBlock lines := by
  obtain ⟨line, rest, rfl⟩ := exists_cons_of_ne_nil hne
  obtain ⟨hline, hcr⟩ := hlines line mem_cons_self
  obtain ⟨b, tail, rfl⟩ := exists_cons_of_ne_nil hline
  rw [lineBlock_cons, cons_append, cons_prefix_cons]
  rintro ⟨rfl, -⟩
  exact hcr mem_cons_self

theorem find_blankLine_lineBlock (hne : lines ≠ []) (hlines : ∀ line ∈ lines, Plain line) :
    find blankLine (lineBlock lines) = some ((lineBlock lines).length - 4) := by
  induction lines with
  | nil => exact absurd rfl hne
  | cons line lines ih =>
    obtain ⟨hline, hlines⟩ := forall_mem_cons.mp hlines
    rw [lineBlock_cons, blankLine, find_skip hline.2, length_append]
    by_cases hlast : lines = []
    · rw [hlast, show find [13, 10, 13, 10] (13 :: 10 :: lineBlock []) = some 0 from rfl, Option.map_some,
        show (13 :: 10 :: lineBlock []).length = 4 from rfl, Nat.add_sub_cancel, Nat.zero_add]
    · -- the line end in front of another line does not start a blank line
      have hlen := four_le_lineBlock hlast
      have hfirst : ¬ [13, 10, 13, 10].isPrefixOf (13 :: 10 :: lineBlock lines) = true := by
        rw [List.isPrefixOf_iff_prefix, cons_prefix_cons, cons_prefix_cons]
        exact fun hp => no_return_first hlast hlines [10] hp.2.2
      have hsecond : ¬ [13, 10, 13, 10].isPrefixOf (10 :: lineBlock lines) = true := by
        rw [List.isPrefixOf_iff_prefix, cons_prefix_cons]
        exact fun hp => absurd hp.1 (by decide)
      have hrest : find [13, 10, 13, 10] (lineBlock lines) = some ((lineBlock lines).length - 4) := ih hlast hlines
      rw [find, if_neg hfirst, find, if_neg hsecond, hrest, Option.map_some, Option.map_some, Option.map_some,
        length_cons, length_cons]
      congr 1
      omega

theorem splitPair_lineBlock (hlines : ∀ line ∈ lines, Plain line) :
    splitPair 13 10 (lineBlock lines) = lines ++ [[], []] := by
  induction lines with
  | nil => rfl
  | cons line lines ih =>
    obtain ⟨hline, hlines⟩ := forall_mem_cons.mp hlines
    rw [lineBlock_cons, splitPair_append hline.2, ih hlines, cons_append]

end MochiSyscalls.HttpClient
