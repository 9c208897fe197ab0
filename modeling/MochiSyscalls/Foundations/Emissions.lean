import MochiSyscalls.Foundations.Effects

/-! # Emissions

Actions whose effect is to append to a list, one item after the other, and that may fail on the way. `Emits x items` says
which items an action appends: all of them if it succeeds, and the first ones if it fails. -/

namespace MochiSyscalls.Foundations.Emissions
open Effects Effects.Outcome Effects.Eff List
set_option autoImplicit false

variable {σ ε α β : Type} (item : σ)

def emitThen (answer : Outcome ε α) : Eff (List σ) ε α := fun items => (answer, items ++ [item])

def emit : Eff (List σ) ε Unit := emitThen item (value ())

structure Emitted (items before : List σ) (out : Outcome ε α) (now : List σ) : Prop where
  part : ∃ emitted, now = before ++ emitted ∧ emitted <+: items
  all : ∀ a, out = value a → now = before ++ items
  safe : out ≠ panicked

structure Emits (x : Eff (List σ) ε α) (items : List σ) : Prop where
  run : ∀ before, after x (Emitted items before) before

namespace Emits

theorem pure (a : α) : Emits (Pure.pure a : Eff (List σ) ε α) [] where
  run before := ⟨⟨[], (append_nil before).symm, prefix_rfl⟩, fun _ _ => (append_nil before).symm, nofun⟩

theorem emitThen {answer : Outcome ε α} (h : answer ≠ panicked) : Emits (Emissions.emitThen item answer) [item] where
  run _ := ⟨⟨[item], rfl, prefix_rfl⟩, fun _ _ => rfl, h⟩

theorem emit : Emits (Emissions.emit item : Eff (List σ) ε Unit) [item] := emitThen item nofun

theorem bind {x : Eff (List σ) ε α} {y : α → Eff (List σ) ε β} {first second : List σ} (hx : Emits x first)
    (hy : ∀ a, Emits (y a) second) : Emits (x >>= y) (first ++ second) where
  run before := by
    rw [after_bind]
    refine (hx.run before).imp fun out now h => ?_
    obtain ⟨emitted, hnow, hpart⟩ := h.part
    cases out with
    | value a =>
      have hall := h.all a rfl
      refine ((hy a).run now).imp fun out' now' h' => ?_
      obtain ⟨emitted', hnow', hpart'⟩ := h'.part
      refine ⟨⟨first ++ emitted', ?_, (prefix_append_right_inj first).2 hpart'⟩, fun b hout => ?_, h'.safe⟩
      · rw [hnow', hall, append_assoc]
      · rw [h'.all b hout, hall, append_assoc]
    | failed e => exact ⟨⟨emitted, hnow, hpart.trans (prefix_append _ _)⟩, nofun, nofun⟩
    | panicked => exact absurd rfl h.safe

theorem lift {x : Outcome ε α} {y : α → Eff (List σ) ε β} {items : List σ} (hsafe : x ≠ panicked)
    (hy : ∀ a, x = value a → Emits (y a) items) : Emits (Eff.lift x >>= y) items where
  run before := by
    rw [after_bind, after_lift]
    cases x with
    | value a => exact (hy a rfl).run before
    | failed e => exact ⟨⟨[], (append_nil before).symm, nil_prefix⟩, nofun, nofun⟩
    | panicked => exact absurd rfl hsafe

theorem forM {γ : Type} {visit : γ → Eff (List σ) ε Unit} {items : γ → List σ} {order : List γ}
    (h : ∀ v ∈ order, Emits (visit v) (items v)) : Emits (order.forM visit) (order.flatMap items) := by
  induction order with
  | nil => exact pure ()
  | cons v order ih =>
    rw [List.forM, List.flatMap_cons]
    obtain ⟨hv, hrest⟩ := List.forall_mem_cons.1 h
    exact hv.bind fun _ => ih hrest

end Emits

end MochiSyscalls.Foundations.Emissions
