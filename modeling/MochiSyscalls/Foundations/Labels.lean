import Mathlib

/-! # Names as lists of labels

The wire form of a domain name: each label behind its length, and the empty label of the root at the end. -/

namespace MochiSyscalls.Foundations.Labels
open List
set_option autoImplicit false

def Fits (label : List UInt8) : Prop := label ≠ [] ∧ label.length ≤ 63

def wire (labels : List (List UInt8)) : List UInt8 :=
  labels.flatMap (fun label => UInt8.ofNat label.length :: label) ++ [0]

variable {label : List UInt8} {labels : List (List UInt8)}

theorem wire_cons (label : List UInt8) (labels : List (List UInt8)) :
    wire (label :: labels) = UInt8.ofNat label.length :: (label ++ wire labels) := by
  simp [wire]

theorem wire_cons_length (label : List UInt8) (labels : List (List UInt8)) :
    (wire (label :: labels)).length = 1 + label.length + (wire labels).length := by
  rw [wire_cons, length_cons, length_append]
  omega

theorem Fits.toNat (h : Fits label) : (UInt8.ofNat label.length).toNat = label.length := by
  rw [UInt8.toNat_ofNat']
  exact Nat.mod_eq_of_lt (by have := h.2; omega)

theorem Fits.pos (h : Fits label) : 0 < label.length := List.length_pos_of_ne_nil h.1

theorem map_wire {f : UInt8 → UInt8} (hf : ∀ b : UInt8, b.toNat ≤ 63 → f b = b) (h : ∀ l ∈ labels, Fits l) :
    (wire labels).map f = wire (labels.map (·.map f)) := by
  induction labels with
  | nil => exact congrArg (· :: []) (hf 0 (by decide))
  | cons l ls ih =>
    have hl := h l mem_cons_self
    rw [map_cons, wire_cons, wire_cons, map_cons, map_append,
      ih fun x hx => h x (mem_cons_of_mem _ hx), length_map, hf _ (hl.toNat.trans_le hl.2)]

end MochiSyscalls.Foundations.Labels
