import MochiSyscalls.Foundations.Rows

/-! # Depth-first postorder

An explicit stack of nodes, each with the successors still to be looked at. A node is finished when none is left, and
the finished nodes are kept in that order. Whatever the graph, the search visits each node it reaches once and finishes
the root last; if the graph has no cycle, a node is finished after all its successors. -/

namespace MochiSyscalls.Foundations.DepthFirst
open Rows Relation List
set_option autoImplicit false

variable {α : Type} (succ : α → List α) (root : α)

def Edge (a b : α) : Prop := b ∈ succ a

def Acyclic : Prop := ∀ v, ¬ TransGen (Edge succ) v v

structure State (α : Type) where
  stack : List (α × List α)
  finished : List α

namespace State

def nodes (s : State α) : List α := s.stack.map Prod.fst

def Seen (s : State α) (v : α) : Prop := v ∈ s.nodes ∨ v ∈ s.finished

end State

def start : State α := ⟨[(root, succ root)], []⟩

inductive Step : State α → State α → Prop
  | finish {v : α} {below : List (α × List α)} {finished : List α} :
      Step ⟨(v, []) :: below, finished⟩ ⟨below, finished ++ [v]⟩
  | skip {v w : α} {rest : List α} {below : List (α × List α)} {finished : List α}
      (h : State.Seen ⟨(v, w :: rest) :: below, finished⟩ w) :
      Step ⟨(v, w :: rest) :: below, finished⟩ ⟨(v, rest) :: below, finished⟩
  | push {v w : α} {rest : List α} {below : List (α × List α)} {finished : List α}
      (h : ¬ State.Seen ⟨(v, w :: rest) :: below, finished⟩ w) :
      Step ⟨(v, w :: rest) :: below, finished⟩ ⟨(w, succ w) :: (v, rest) :: below, finished⟩

structure Inv (s : State α) : Prop where
  nodup : (s.nodes ++ s.finished).Nodup
  chain : s.nodes.IsChain fun a b => Edge succ b a
  visited : ∀ v rest, (v, rest) ∈ s.stack → ∃ front, succ v = front ++ rest ∧ ∀ w ∈ front, s.Seen w
  closed : ∀ v ∈ s.finished, ∀ w ∈ succ v, s.Seen w
  bottom : s.nodes.getLast? = some root ∨ (s.stack = [] ∧ s.finished.getLast? = some root)
  reached : ∀ v, s.Seen v → ReflTransGen (Edge succ) root v
  ordered : Acyclic succ → ∀ front v rest, s.finished = front ++ v :: rest → ∀ w ∈ succ v, w ∈ front

variable {succ root}

theorem inv_start : Inv succ root (start succ root) where
  nodup := by simp [start, State.nodes]
  chain := by simp [start, State.nodes]
  visited v rest h := by
    simp only [start, mem_singleton, Prod.mk.injEq] at h
    obtain ⟨rfl, rfl⟩ := h
    exact ⟨[], rfl, nofun⟩
  closed := nofun
  bottom := .inl rfl
  reached v h := by
    simp only [start, State.Seen, State.nodes, map_cons, map_nil, mem_singleton, not_mem_nil,
      or_false] at h
    exact h ▸ .refl
  ordered _ front v rest h := by simp [start] at h

variable {rest : List α}

theorem reaches_top {v w : α} (h : (v :: rest).IsChain fun a b => Edge succ b a) (hw : w ∈ v :: rest) :
    ReflTransGen (Edge succ) w v := by
  induction rest generalizing v with
  | nil =>
    rw [mem_singleton.1 hw]
  | cons x rest ih =>
    obtain ⟨hedge, htail⟩ := isChain_cons_cons.1 h
    rcases mem_cons.1 hw with rfl | hin
    · exact .refl
    · exact (ih htail hin).tail hedge

variable {finished : List α} {below : List (α × List α)}

theorem Inv.finish {v : α}
    (h : Inv succ root ⟨(v, []) :: below, finished⟩) : Inv succ root ⟨below, finished ++ [v]⟩ := by
  have hseen : ∀ w, State.Seen ⟨(v, []) :: below, finished⟩ w ↔ State.Seen ⟨below, finished ++ [v]⟩ w := by
    intro w
    simp only [State.Seen, State.nodes, map_cons, mem_cons, mem_append]
    tauto
  have hfinished : ∀ w ∈ succ v, State.Seen ⟨below, finished ++ [v]⟩ w := by
    intro w hw
    obtain ⟨front, hsucc, hfront⟩ := h.visited v [] mem_cons_self
    rw [hsucc, append_nil] at hw
    exact (hseen w).1 (hfront w hw)
  refine ⟨?_, ?_, ?_, ?_, ?_, ?_, ?_⟩
  · have hnodup := h.nodup
    have hperm : (State.nodes ⟨(v, []) :: below, finished⟩ ++ finished).Perm
        (State.nodes ⟨below, finished ++ [v]⟩ ++ (finished ++ [v])) := by
      simp only [State.nodes, map_cons, cons_append]
      rw [← append_assoc]
      exact (perm_append_singleton v _).symm
    exact hperm.nodup_iff.1 hnodup
  · exact h.chain.of_cons
  · intro x rest hx
    obtain ⟨front, hsucc, hfront⟩ := h.visited x rest (mem_cons_of_mem _ hx)
    exact ⟨front, hsucc, fun w hw => (hseen w).1 (hfront w hw)⟩
  · intro x hx w hw
    rcases mem_snoc.1 hx with hx | rfl
    · exact (hseen w).1 (h.closed x hx w hw)
    · exact hfinished w hw
  · have hbottom : State.nodes ⟨(v, []) :: below, finished⟩ = v :: below.map Prod.fst := rfl
    rcases h.bottom with hb | hb
    · cases below with
      | nil =>
        rw [hbottom] at hb
        exact .inr ⟨rfl, by simpa using hb⟩
      | cons x below =>
        rw [hbottom] at hb
        exact .inl (by simpa [State.nodes] using hb)
    · cases hb.1
  · exact fun w hw => h.reached w ((hseen w).2 hw)
  · intro hacyclic front x rest hsplit w hw
    rcases eq_nil_or_concat rest with rfl | ⟨rest', last, rfl⟩
    · obtain ⟨rfl, hx⟩ := append_inj' hsplit rfl
      cases hx
      rcases (hseen w).2 (hfinished w hw) with hstack | hdone
      · -- a successor on the stack closes a cycle
        exact absurd (TransGen.head' hw (reaches_top h.chain hstack)) (hacyclic v)
      · exact hdone
    · rw [concat_eq_append, ← cons_append, ← append_assoc] at hsplit
      obtain ⟨hsplit, _⟩ := append_inj' hsplit rfl
      exact h.ordered hacyclic front x rest' hsplit w hw

section

variable {v w : α} (h : Inv succ root ⟨(v, w :: rest) :: below, finished⟩)
include h

theorem Inv.skip (hw : State.Seen ⟨(v, w :: rest) :: below, finished⟩ w) :
    Inv succ root ⟨(v, rest) :: below, finished⟩ where
  nodup := h.nodup
  chain := h.chain
  visited x rest' hx := by
    rcases mem_cons.1 hx with heq | hx
    · cases heq
      obtain ⟨front, hsucc, hfront⟩ := h.visited v (w :: rest) mem_cons_self
      refine ⟨front ++ [w], by rw [hsucc, append_assoc, singleton_append], fun y hy => ?_⟩
      rcases mem_snoc.1 hy with hy | rfl
      · exact hfront y hy
      · exact hw
    · exact h.visited x rest' (mem_cons_of_mem _ hx)
  closed := h.closed
  bottom := h.bottom.imp_right fun hb => nomatch hb.1
  reached := h.reached
  ordered := h.ordered

theorem Inv.push (hw : ¬ State.Seen ⟨(v, w :: rest) :: below, finished⟩ w) :
    Inv succ root ⟨(w, succ w) :: (v, rest) :: below, finished⟩ := by
  obtain ⟨front, hsucc, hfront⟩ := h.visited v (w :: rest) mem_cons_self
  have hedge : w ∈ succ v := by
    rw [hsucc]
    simp
  have hmore : ∀ x, State.Seen ⟨(v, w :: rest) :: below, finished⟩ x →
      State.Seen ⟨(w, succ w) :: (v, rest) :: below, finished⟩ x := fun x hx => hx.imp_left (mem_cons_of_mem w)
  refine ⟨?_, ?_, ?_, ?_, ?_, ?_, h.ordered⟩
  · have hnot : w ∉ State.nodes ⟨(v, w :: rest) :: below, finished⟩ ++ finished := fun hmem => hw (mem_append.1 hmem)
    exact nodup_cons.2 ⟨hnot, h.nodup⟩
  · exact isChain_cons_cons.2 ⟨hedge, h.chain⟩
  · intro x rest' hx
    rcases mem_cons.1 hx with heq | hx
    · cases heq
      exact ⟨[], rfl, nofun⟩
    · rcases mem_cons.1 hx with heq | hx
      · cases heq
        refine ⟨front ++ [w], by rw [hsucc, append_assoc, singleton_append], fun y hy => ?_⟩
        rcases mem_snoc.1 hy with hy | rfl
        · exact hmore y (hfront y hy)
        · exact .inl mem_cons_self
      · obtain ⟨front', hsucc', hfront'⟩ := h.visited x rest' (mem_cons_of_mem _ hx)
        exact ⟨front', hsucc', fun y hy => hmore y (hfront' y hy)⟩
  · exact fun x hx y hy => hmore y (h.closed x hx y hy)
  · rcases h.bottom with hb | hb
    · refine .inl ?_
      have hnodes : State.nodes ⟨(w, succ w) :: (v, rest) :: below, finished⟩ = w :: v :: below.map Prod.fst := rfl
      rw [hnodes, getLast?_cons_cons]
      exact hb
    · cases hb.1
  · intro x hx
    by_cases hxw : x = w
    · subst hxw
      exact (h.reached v (.inl mem_cons_self)).tail hedge
    · refine h.reached x (hx.imp_left fun hin => ?_)
      exact (mem_cons.1 hin).resolve_left hxw

end

theorem Inv.step {s s' : State α} (h : Inv succ root s) (hstep : Step succ s s') : Inv succ root s' := by
  cases hstep with
  | finish => exact h.finish
  | skip hw => exact h.skip hw
  | push hw => exact h.push hw

/-! ## The end of the search -/

theorem Inv.reachable_finished (h : Inv succ root ⟨[], finished⟩) {v : α} :
    v ∈ finished ↔ ReflTransGen (Edge succ) root v := by
  have hroot : root ∈ finished := by
    rcases h.bottom with hb | hb
    · cases hb
    · exact mem_of_getLast? hb.2
  constructor
  · exact fun hv => h.reached v (.inr hv)
  · intro hreach
    induction hreach with
    | refl => exact hroot
    | tail _ hedge ih => exact (h.closed _ ih _ hedge).resolve_left nofun

/-! ## Steps left -/

section Measure

variable [DecidableEq α]

variable (succ) in
/-- Looks and finishes still to come, for the nodes on the stack and for those not seen. -/
def remaining (all : Finset α) (s : State α) : ℕ :=
  (∑ v ∈ all.filter (fun v => v ∉ s.nodes ∧ v ∉ s.finished), ((succ v).length + 1)) +
    (s.stack.map fun entry => entry.2.length + 1).sum

theorem Inv.remaining_step {all : Finset α} {s s' : State α} (h : Inv succ root s)
    (hall : ∀ v, ReflTransGen (Edge succ) root v → v ∈ all) (hstep : Step succ s s') :
    remaining succ all s = remaining succ all s' + 1 := by
  cases hstep with
  | @finish v below finished =>
    have hfilter : all.filter (fun x => x ∉ State.nodes ⟨(v, []) :: below, finished⟩ ∧ x ∉ finished) =
        all.filter (fun x => x ∉ State.nodes ⟨below, finished ++ [v]⟩ ∧ x ∉ finished ++ [v]) := by
      refine Finset.filter_congr fun x _ => ?_
      simp only [State.nodes, map_cons, mem_cons, mem_append]
      tauto
    simp only [remaining, hfilter, map_cons, sum_cons, length_nil]
    omega
  | @skip v w rest below finished _ =>
    simp only [remaining, State.nodes, map_cons, sum_cons, length_cons]
    omega
  | @push v w rest below finished hw =>
    have hin : w ∈ all := hall w ((h.push hw).reached w (.inl mem_cons_self))
    have hmem : w ∈ all.filter (fun x => x ∉ State.nodes ⟨(v, w :: rest) :: below, finished⟩ ∧ x ∉ finished) :=
      Finset.mem_filter.2 ⟨hin, not_or.1 hw⟩
    have hfilter : all.filter (fun x => x ∉ State.nodes ⟨(w, succ w) :: (v, rest) :: below, finished⟩ ∧ x ∉ finished) =
        (all.filter (fun x => x ∉ State.nodes ⟨(v, w :: rest) :: below, finished⟩ ∧ x ∉ finished)).erase w := by
      ext x
      simp only [State.nodes, map_cons, mem_cons, Finset.mem_filter, Finset.mem_erase]
      tauto
    have hsum := Finset.add_sum_erase _ (fun x => (succ x).length + 1) hmem
    simp only [remaining, hfilter, map_cons, sum_cons, length_cons]
    omega

end Measure

end MochiSyscalls.Foundations.DepthFirst
