import MochiSyscalls.Foundations.Lines

/-! # Paths

A path is a text with slashes. Its components are the pieces between them that are not empty, and
`resolve` follows the dots: one dot stays, two go back to the parent, and the parent of the root is the
root. Textual nesting, `q = p ++ "/" ++ rest`, is the prefix order on the pieces. -/

namespace MochiSyscalls.Foundations.Paths
open Utf8 Lines List
set_option autoImplicit false

abbrev Path : Type := List UInt8

variable (path : Path)

def pieces : List Path := path.splitOn (byte '/')

def components : List Path := (pieces path).filter fun piece => !piece.isEmpty

def dot : Path := ascii "."
def dotDot : Path := ascii ".."

def walk (dir : List Path) (piece : Path) : List Path :=
  if piece = [] ∨ piece = dot then dir else if piece = dotDot then dir.dropLast else dir ++ [piece]

def resolve : List Path := (pieces path).foldl walk []

def Proper (piece : Path) : Prop := piece ≠ [] ∧ piece ≠ dot ∧ piece ≠ dotDot
  deriving Decidable

variable {dir : List Path}

theorem walk_proper {piece : Path} (h : Proper piece) : walk dir piece = dir ++ [piece] := by
  rw [walk, if_neg (by rw [not_or]; exact ⟨h.1, h.2.1⟩), if_neg h.2.2]

variable {names : List Path}

theorem foldl_walk_proper (h : ∀ piece ∈ names, Proper piece) : names.foldl walk dir = dir ++ names := by
  induction names generalizing dir with
  | nil => rw [foldl_nil, append_nil]
  | cons piece names ih =>
    obtain ⟨hpiece, h⟩ := forall_mem_cons.mp h
    rw [foldl_cons, walk_proper hpiece, ih h, append_assoc, singleton_append]

/-! ## Pieces and nesting -/

theorem pieces_append (p rest : Path) : pieces (p ++ byte '/' :: rest) = pieces p ++ pieces rest :=
  splitOnP_append_cons _ _ (beq_self_eq_true _)

theorem pieces_ne_nil (p : Path) : pieces p ≠ [] := List.splitOn_ne_nil _ _

theorem pieces_slash (rest : Path) : pieces (byte '/' :: rest) = [] :: pieces rest := pieces_append [] rest

theorem intercalate_pieces (p : Path) : [byte '/'].intercalate (pieces p) = p := List.intercalate_splitOn _

/-- A path is below another, or equal to it, exactly when its pieces begin with the other's. -/
theorem pieces_le_iff {p q : Path} : pieces p <+: pieces q ↔ q = p ∨ ∃ rest, q = p ++ byte '/' :: rest := by
  constructor
  · rintro ⟨more, hmore⟩
    have hq := intercalate_pieces q
    rw [← hmore] at hq
    cases more with
    | nil =>
      rw [append_nil, intercalate_pieces] at hq
      exact .inl hq.symm
    | cons piece more =>
      refine .inr ⟨[byte '/'].intercalate (piece :: more), ?_⟩
      have hjoin : ∀ front : List Path, front ≠ [] → [byte '/'].intercalate (front ++ piece :: more) =
          [byte '/'].intercalate front ++ byte '/' :: [byte '/'].intercalate (piece :: more) := by
        intro front hfront
        induction front with
        | nil => exact absurd rfl hfront
        | cons head front ih =>
          cases front with
          | nil => simp [intercalate_cons_cons]
          | cons next front =>
            rw [cons_append, cons_append, intercalate_cons_cons, intercalate_cons_cons,
              ← cons_append, ih (cons_ne_nil _ _)]
            simp only [append_assoc]
      rw [hjoin _ (pieces_ne_nil p), intercalate_pieces] at hq
      exact hq.symm
  · rintro (rfl | ⟨rest, rfl⟩)
    · exact prefix_rfl
    · rw [pieces_append]
      exact prefix_append _ _

/-! ## Levels and climbing -/

/-- The component by which the walk leaves level `k` for the last time, if it ends below it: only levels are counted. -/
def entered (k : ℕ) : ℕ → Option Path → List Path → Option Path
  | level, held, [] => if k < level then held else none
  | level, held, piece :: rest =>
    if piece = [] ∨ piece = dot then entered k level held rest
    else if piece = dotDot then entered k (level - 1) held rest
    else entered k (level + 1) (if level = k then some piece else held) rest

theorem getElem?_foldl_walk {k : ℕ} {held : Option Path} (h : k < dir.length → dir[k]? = held) :
    (names.foldl walk dir)[k]? = entered k dir.length held names := by
  induction names generalizing dir held with
  | nil =>
    rw [entered, foldl_nil]
    split
    next hk => exact h hk
    next hk => exact getElem?_eq_none (Nat.le_of_not_lt hk)
  | cons piece names ih =>
    have hnext : (dir ++ [piece]).length = dir.length + 1 := length_append
    rw [foldl_cons, walk, entered]
    split_ifs with hskip hback hlevel
    · exact ih h
    · rw [← length_dropLast]
      refine ih fun hk => ?_
      rw [length_dropLast] at hk
      rw [getElem?_dropLast, if_pos hk]
      exact h (by omega)
    · rw [← hnext]
      refine ih fun _ => ?_
      rw [← hlevel, getElem?_concat_length]
    · rw [← hnext]
      refine ih fun hk => ?_
      rw [getElem?_append_left (by omega)]
      exact h (by omega)

theorem getElem?_resolve (k : ℕ) : (resolve path)[k]? = entered k 0 none (pieces path) :=
  getElem?_foldl_walk fun h => absurd h (Nat.not_lt_zero k)

/-- The walk comes back to the root, `depth` directories below which it begins. -/
def climbs : ℕ → List Path → Bool
  | _, [] => false
  | depth, piece :: rest =>
    if piece = [] ∨ piece = dot then climbs depth rest
    else if piece = dotDot then depth ≤ 1 || climbs (depth - 1) rest
    else climbs (depth + 1) rest

theorem head_of_not_climbs {top : Path}
    (h : climbs (dir.length + 1) names = false) : [top] <+: names.foldl walk (top :: dir) := by
  induction names generalizing dir with
  | nil => exact ⟨dir, rfl⟩
  | cons piece names ih =>
    rw [climbs] at h
    rw [foldl_cons, walk]
    split at h
    next hskip =>
      rw [if_pos hskip]
      exact ih h
    next hskip =>
      rw [if_neg hskip]
      split at h
      next hback =>
        rw [if_pos hback]
        rw [Bool.or_eq_false_iff, decide_eq_false_iff_not] at h
        obtain ⟨hdeep, h⟩ := h
        have hne : dir ≠ [] := by
          rintro rfl
          exact hdeep le_rfl
        rw [dropLast_cons_of_ne_nil hne]
        refine ih ?_
        have hlen : 0 < dir.length := length_pos_iff.mpr hne
        rwa [length_dropLast, Nat.sub_add_cancel hlen]
      next hback =>
        rw [if_neg hback, cons_append]
        refine ih ?_
        rwa [length_append, length_singleton]

theorem climbs_eq_false_of_no_dotDot {depth : ℕ} (h : dotDot ∉ names) : climbs depth names = false := by
  induction names generalizing depth with
  | nil => rfl
  | cons piece names ih =>
    rw [mem_cons, not_or] at h
    rw [climbs]
    split
    · exact ih h.2
    · rw [if_neg (Ne.symm h.1)]
      exact ih h.2

end MochiSyscalls.Foundations.Paths
