import Mathlib

/-! # The log of a queue that loses entries

Keys arrive at a queue, wait, and leave it either because they are taken or because they are lost.
The log keeps every arrival in order with its fate so far. `Fifo` says that no entry was taken over
the head of one that still waits: whoever takes the first waiting key each time takes a subsequence
of the arrivals, and skips lost keys only. -/

namespace MochiSyscalls.Foundations.Queue
open List
set_option autoImplicit false

inductive Fate where
  | waiting
  | taken
  | lost
  deriving DecidableEq, Repr

variable {κ : Type} (fate : Fate)

def withFate (log : List (κ × Fate)) : List κ := (log.filter (·.2 = fate)).map (·.1)

variable (log : List (κ × Fate)) (keys : List κ)

def arrive : List (κ × Fate) := log ++ keys.map (·, .waiting)

/-- The waiting keys that satisfy `p` are lost. -/
def lose (p : κ → Prop) [DecidablePred p] (log : List (κ × Fate)) : List (κ × Fate) :=
  log.map fun e => if e.2 = .waiting ∧ p e.1 then (e.1, .lost) else e

def take [DecidableEq κ] (key : κ) : List (κ × Fate) → List (κ × Fate)
  | [] => []
  | e :: log => if e.2 = .waiting ∧ e.1 = key then (key, .taken) :: log else e :: take key log

def Fifo : Prop := log.Pairwise fun a b => a.2 = .waiting → b.2 ≠ .taken

theorem withFate_sublist (log : List (κ × Fate)) : (withFate fate log).Sublist (log.map (·.1)) :=
  filter_sublist.map _

@[simp] theorem withFate_nil : withFate fate ([] : List (κ × Fate)) = [] := rfl

@[simp] theorem withFate_cons_self (k : κ) (log : List (κ × Fate)) :
    withFate fate ((k, fate) :: log) = k :: withFate fate log := by
  simp [withFate]

theorem withFate_cons_of_ne {fate other : Fate} (h : other ≠ fate) (k : κ) (log : List (κ × Fate)) :
    withFate fate ((k, other) :: log) = withFate fate log := by
  simp [withFate, h]

theorem withFate_append (log log' : List (κ × Fate)) :
    withFate fate (log ++ log') = withFate fate log ++ withFate fate log' := by
  simp [withFate]

/-! ## Arrivals -/

theorem waiting_arrive : withFate .waiting (arrive log keys) = withFate .waiting log ++ keys := by
  have hk : withFate .waiting (keys.map (·, Fate.waiting)) = keys := by
    induction keys with
    | nil => rfl
    | cons k keys ih => rw [map_cons, withFate_cons_self, ih]
  rw [arrive, withFate_append, hk]

theorem taken_arrive : withFate .taken (arrive log keys) = withFate .taken log := by
  have hk : withFate .taken (keys.map (·, Fate.waiting)) = [] := by
    induction keys with
    | nil => rfl
    | cons k keys ih => rw [map_cons, withFate_cons_of_ne (by decide), ih]
  rw [arrive, withFate_append, hk, append_nil]

theorem keys_arrive : (arrive log keys).map (·.1) = log.map (·.1) ++ keys := by
  rw [arrive, map_append, map_map]
  congr 1
  exact map_id keys

theorem Fifo.arrive {log : List (κ × Fate)} (h : Fifo log) (keys : List κ) : Fifo (arrive log keys) := by
  have hk : ∀ e ∈ keys.map (·, Fate.waiting), e.2 ≠ .taken := by
    intro e he
    obtain ⟨k, _, rfl⟩ := mem_map.mp he
    exact nofun
  refine pairwise_append.mpr ⟨h, ?_, fun a _ b hb _ => hk b hb⟩
  exact pairwise_of_forall_mem_list fun a _ b hb _ => hk b hb

/-! ## Losses -/

section Lose

variable (p : κ → Prop) [DecidablePred p]

theorem waiting_lose : withFate .waiting (lose p log) = (withFate .waiting log).filter fun k => ¬ p k := by
  induction log with
  | nil => rfl
  | cons e log ih =>
    obtain ⟨k, fate⟩ := e
    cases fate <;> by_cases hp : p k <;> simp_all [withFate, lose]

theorem taken_lose : withFate .taken (lose p log) = withFate .taken log := by
  induction log with
  | nil => rfl
  | cons e log ih =>
    obtain ⟨k, fate⟩ := e
    cases fate <;> by_cases hp : p k <;> simp_all [withFate, lose]

theorem keys_lose : (lose p log).map (·.1) = log.map (·.1) := by
  rw [lose, map_map]
  apply map_congr_left
  intro e _
  change (if e.2 = .waiting ∧ p e.1 then (e.1, Fate.lost) else e).1 = e.1
  split <;> rfl

variable {p}

theorem Fifo.lose {log : List (κ × Fate)} (h : Fifo log) : Fifo (lose p log) := by
  refine pairwise_map.mpr (h.imp ?_)
  intro a b hab
  split <;> split <;> simp_all

end Lose

/-! ## Taking -/

theorem take_spec [DecidableEq κ] {log : List (κ × Fate)} (h : Fifo log) {key : κ} {keys : List κ}
    (hw : withFate .waiting log = key :: keys) :
    Fifo (take key log) ∧ withFate .waiting (take key log) = keys ∧
      withFate .taken (take key log) = withFate .taken log ++ [key] ∧
      (take key log).map (·.1) = log.map (·.1) := by
  induction log with
  | nil => cases hw
  | cons e log ih =>
    obtain ⟨k, fate⟩ := e
    obtain ⟨hhead, htail⟩ := pairwise_cons.mp h
    by_cases hfate : fate = .waiting
    · subst hfate
      rw [withFate_cons_self] at hw
      obtain ⟨rfl, hrest⟩ := cons.inj hw
      -- the head is the entry taken, and nothing behind it is
      have hnone : withFate .taken log = [] := by
        simp only [withFate, map_eq_nil_iff, filter_eq_nil_iff, decide_eq_true_eq]
        exact fun b hb => hhead b hb rfl
      have ht : take k ((k, .waiting) :: log) = (k, .taken) :: log := by simp [take]
      rw [ht]
      refine ⟨pairwise_cons.mpr ⟨fun b _ hc => (nomatch hc), htail⟩, ?_, ?_, rfl⟩
      · rw [withFate_cons_of_ne (by decide), hrest]
      · rw [withFate_cons_self, withFate_cons_of_ne (by decide), hnone, nil_append]
    · have ht : take key ((k, fate) :: log) = (k, fate) :: take key log := by simp [take, hfate]
      rw [withFate_cons_of_ne hfate] at hw
      obtain ⟨hf, h1, h2, h3⟩ := ih htail hw
      rw [ht]
      refine ⟨pairwise_cons.mpr ⟨fun b _ hc => absurd hc hfate, hf⟩, ?_, ?_, ?_⟩
      · rw [withFate_cons_of_ne hfate, h1]
      · by_cases htk : fate = .taken
        · subst htk
          rw [withFate_cons_self, withFate_cons_self, h2, cons_append]
        · rw [withFate_cons_of_ne htk, withFate_cons_of_ne htk, h2]
      · rw [map_cons, map_cons, h3]

end MochiSyscalls.Foundations.Queue
