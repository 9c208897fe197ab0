import MochiSyscalls.PosixClient.Pie.Symbols

/-! # What a symbol lookup answers

A lookup follows a chain of a hash table that the object itself supplies. -/

namespace MochiSyscalls.PosixClient.Pie.Table
open Foundations Checked Loops List
set_option autoImplicit false

variable {t : Table} {name : List UInt8} {query : Query} {i : ℕ}

/-- A symbol of the table that is exported and defined under the name, with a version that the query accepts. -/
structure Answers (t : Table) (name : List UInt8) (query : Query) (e : Entry) : Prop where
  entry : ∃ i, t.entry i = .ok e
  name : e.name = name
  version : (accepts query e.version).isSome
  exported : e.binding ≠ 0 ∧ ¬ (e.visibility = 1 ∨ e.visibility = 2) ∧ e.definition.isSome

theorem entry_eq_ok {e : Entry} (h : t.entry i = .ok e) : ∃ raw offset, t.raw i = .ok raw ∧ u32At raw 0 = .ok offset ∧
    t.string offset = .ok e.name ∧ t.versions.at i = .ok e.version := by
  simp only [entry, bind_eq_ok] at h
  obtain ⟨raw, hraw, offset, hoffset, name, hname, _, _, _, _, _, _, _, _, _, _, version, hversion, heq⟩ := h
  cases heq
  exact ⟨raw, offset, hraw, hoffset, hname, hversion⟩

theorem matching_eq_some {x : Entry × Bool} (h : t.matching i name query = .ok (some x)) : t.Answers name query x.1 := by
  unfold matching at h
  obtain ⟨raw, hraw, h⟩ := bind_eq_ok.1 h
  obtain ⟨offset, hoffset, h⟩ := bind_eq_ok.1 h
  obtain ⟨found, hfound, h⟩ := bind_eq_ok.1 h
  split at h
  · cases h
  next hname =>
    obtain ⟨«section», hsection, h⟩ := bind_eq_ok.1 h
    split at h
    · cases h
    next hexported =>
      obtain ⟨version, hversion, h⟩ := bind_eq_ok.1 h
      split at h
      · cases h
      next deferred haccepts =>
        obtain ⟨entry, hentry, h⟩ := bind_eq_ok.1 h
        split at h
        next hgood =>
          cases h
          obtain rfl := not_not.1 hname
          obtain ⟨raw', offset', hraw', hoffset', hname', hversion'⟩ := entry_eq_ok hentry
          obtain rfl := Except.ok.inj (hraw'.symm.trans hraw)
          obtain rfl := Except.ok.inj (hoffset'.symm.trans hoffset)
          refine ⟨⟨i, hentry⟩, Except.ok.inj (hname'.symm.trans hfound), ?_, hgood⟩
          rw [Except.ok.inj (hversion'.symm.trans hversion), haccepts]
          rfl
        · cases h

/-- A deferred match that a lookup remembers is an answer. -/
def Found.Sound (t : Table) (name : List UInt8) (query : Query) (f : Found) : Prop :=
  ∀ e, f.fallback = some e → t.Answers name query e

theorem Found.Sound.result {f : Found} (h : f.Sound t name query) {e : Entry} (he : f.result = some e) :
    t.Answers name query e := by
  unfold Found.result at he
  split at he
  · exact h e he
  · cases he

def PassSound (t : Table) (name : List UInt8) (query : Query) : Pass Found Entry → Prop
  | .done e => t.Answers name query e
  | .again f => f.Sound t name query

theorem Found.Sound.consider {f : Found} (h : f.Sound t name query) {pass : Pass Found Entry}
    (hpass : t.consider name query i f = .ok pass) : t.PassSound name query pass := by
  obtain ⟨x, hx, hpass⟩ := bind_eq_ok.1 hpass
  match x with
  | none =>
    cases hpass
    exact h
  | some (entry, false) =>
    cases hpass
    exact matching_eq_some hx
  | some (entry, true) =>
    cases hpass
    rintro e he
    cases he
    exact matching_eq_some hx

theorem sysvChain_answers {chains : List UInt8} {passes : ℕ} {f : Found} {e : Entry} (hf : f.Sound t name query)
    (h : t.sysvChain chains name query passes i f = .ok (some e)) : t.Answers name query e := by
  induction passes generalizing i f with
  | zero => cases h
  | succ passes ih =>
    rw [sysvChain] at h
    split at h
    · exact hf.result (Except.ok.inj h)
    · obtain ⟨pass, hpass, h⟩ := bind_eq_ok.1 h
      have hsound := hf.consider hpass
      cases pass with
      | done e' =>
        cases h
        exact hsound
      | again f' =>
        obtain ⟨_, _, h⟩ := bind_eq_ok.1 h
        exact ih hsound h

theorem gnuChain_answers {chains : List UInt8} {first : ℕ} {s : ℕ × Found} (hs : s.2.Sound t name query)
    {pass : Pass (ℕ × Found) (Option Entry)} (h : (t.gnuChain chains first name query).body s = .ok pass) :
    match pass with
    | .done r => ∀ e, r = some e → t.Answers name query e
    | .again s' => s'.2.Sound t name query := by
  simp only [gnuChain, bind_eq_ok] at h
  obtain ⟨_, _, chain, _, step, hstep, h⟩ := h
  have hsound : t.PassSound name query step := by
    unfold gnuStep at hstep
    split at hstep
    · exact hs.consider hstep
    · cases hstep
      exact hs
  cases step with
  | done e =>
    cases h
    rintro _ ⟨⟩
    exact hsound
  | again f =>
    simp only at h
    split at h
    · cases h
      exact fun e => Found.Sound.result hsound
    · obtain ⟨_, _, ⟨⟩⟩ := bind_eq_ok.1 h
      exact hsound

/-- **A lookup invents nothing**: whatever the hash table holds, also one with loops or with foreign chains, what a lookup
answers is a symbol of the table that is exported and defined under the name, with a version that the query accepts. -/
theorem lookup_answers_truly (t : Table) (name : List UInt8) (query : Query) (e : Entry)
    (h : t.findQuery name query = .ok (some e)) : t.Answers name query e := by
  have hstart : Found.Sound t name query ⟨0, none⟩ := nofun
  unfold findQuery at h
  split at h
  · obtain ⟨index, -, h⟩ := bind_eq_ok.1 h
    exact sysvChain_answers hstart h
  · obtain ⟨index, -, h⟩ := bind_eq_ok.1 h
    split at h
    · cases h
    · refine Loop.run_invariant (P := fun s => s.2.Sound t name query)
        (Q := fun r => ∀ e, r = some e → t.Answers name query e) ?_ ?_ hstart h e rfl
      · exact fun s s' hs hbody => gnuChain_answers hs hbody
      · exact fun s a hs hbody => gnuChain_answers hs hbody

/-- Two symbols, whose chain goes from the one to the other and back. -/
def looped : Table where
  entries := replicate 24 0 ++ [3, 0, 0, 0, 0x12, 0, 1, 0, 0, 16, 0, 0, 0, 0, 0, 0, 8, 0, 0, 0, 0, 0, 0, 0] ++
    [1, 0, 0, 0, 0x12, 0, 1, 0, 0, 16, 0, 0, 0, 0, 0, 0, 8, 0, 0, 0, 0, 0, 0, 0]
  strings := [0, 102, 0, 103, 0]
  versions := ⟨[], [], ⟨[], 0, true⟩, ⟨[], 0, false⟩⟩
  lookup := .sysv [1, 0, 0, 0] [0, 0, 0, 0, 2, 0, 0, 0, 1, 0, 0, 0]

theorem lookup_answers_truly_looped :
    looped.Answers [102] (.export none) ⟨8, [102], 1, 0, some (.image 4096 8), false, 2, .unversioned⟩ :=
  lookup_answers_truly looped [102] (.export none) _ rfl

end MochiSyscalls.PosixClient.Pie.Table
