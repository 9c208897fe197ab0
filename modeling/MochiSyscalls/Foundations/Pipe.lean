import Mathlib

/-! # A byte pipe

What a reliable one-way stream is for, without any machinery: a writer appends to a list and may end
it, the network moves the list over piece by piece and in order, and a reader takes what has
arrived. A stream implementation is correct when each of its steps is a sequence of these. -/

namespace MochiSyscalls.Foundations.Pipe
open List
set_option autoImplicit false

variable {α : Type}

structure State (α : Type) where
  written : List α
  arrived : List α
  read : List α
  ended : Bool
  eof : Bool

inductive Step : State α → State α → Prop
  | write (p : State α) (xs : List α) (h : p.ended = false) : Step p { p with written := p.written ++ xs }
  | finish (p : State α) : Step p { p with ended := true }
  | arrive (p : State α) (xs : List α) (h : p.arrived ++ xs <+: p.written) :
      Step p { p with arrived := p.arrived ++ xs }
  | read (p : State α) (xs : List α) (h : p.read ++ xs <+: p.arrived) : Step p { p with read := p.read ++ xs }
  | eof (p : State α) (h : p.ended = true) (hall : p.arrived = p.written) : Step p { p with eof := true }

/-- The reader has a prefix of what was written, and sees the end only after all of it. -/
structure Safe (p : State α) : Prop where
  arrived : p.arrived <+: p.written
  read : p.read <+: p.arrived
  eof : p.eof = true → p.ended = true ∧ p.arrived = p.written

theorem Step.safe {p q : State α} (h : Step p q) (hs : Safe p) : Safe q := by
  cases h with
  | write xs hopen =>
    refine ⟨hs.arrived.trans (prefix_append _ _), hs.read, fun he => ?_⟩
    rw [(hs.eof he).1] at hopen
    cases hopen
  | finish => exact ⟨hs.arrived, hs.read, fun he => ⟨rfl, (hs.eof he).2⟩⟩
  | arrive xs hx =>
    refine ⟨hx, hs.read.trans (prefix_append _ _), fun he => ⟨(hs.eof he).1, ?_⟩⟩
    have hall := (hs.eof he).2
    have hlen := hx.length_le
    rw [length_append, ← hall] at hlen
    have hnil : xs = [] := eq_nil_of_length_eq_zero (by omega)
    rw [hnil, append_nil]
    exact hall
  | read xs hx => exact ⟨hs.arrived, hx, hs.eof⟩
  | eof hend hall => exact ⟨hs.arrived, hs.read, fun _ => ⟨hend, hall⟩⟩

abbrev Steps : State α → State α → Prop := Relation.ReflTransGen Step

theorem Steps.safe {p q : State α} (h : Steps p q) (hs : Safe p) : Safe q := by
  induction h with
  | refl => exact hs
  | tail _ hstep ih => exact hstep.safe ih

/-! ## Composite steps -/

theorem steps_write (p : State α) (xs : List α) (fin : Bool) (h : p.ended = true → xs = [] ∧ fin = true) :
    Steps p { p with written := p.written ++ xs, ended := fin } := by
  cases hend : p.ended with
  | true =>
    obtain ⟨hxs, hfin⟩ := h hend
    rw [hxs, hfin, append_nil, ← hend]
  | false =>
    have h1 := Step.write p xs hend
    cases fin with
    | false =>
      rw [← hend]
      exact .single h1
    | true => exact (Relation.ReflTransGen.single h1).tail (Step.finish _)

theorem steps_take (p : State α) (xs : List α) (fin : Bool) (h : p.arrived ++ xs <+: p.written)
    (hfin : fin = true → p.ended = true ∧ p.arrived ++ xs = p.written) :
    Steps p { p with arrived := p.arrived ++ xs, eof := p.eof || fin } := by
  have h1 := Step.arrive p xs h
  cases fin with
  | false =>
    rw [Bool.or_false]
    exact .single h1
  | true =>
    obtain ⟨hend, hall⟩ := hfin rfl
    rw [Bool.or_true]
    exact (Relation.ReflTransGen.single h1).tail (Step.eof _ hend hall)

end MochiSyscalls.Foundations.Pipe
