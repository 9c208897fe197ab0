import MochiSyscalls.PosixClient.StaticTlsModules

/-! # The layout of the TLS blocks

Where the blocks of a plan lie: apart from one another, below the thread pointer, aligned as their templates ask. -/

namespace MochiSyscalls.PosixClient.StaticTls
open Foundations Effects Emissions Intervals List Option
set_option autoImplicit false

/-! ## Distances -/

theorem powerOfTwo_dvd {a b : ℕ} (ha : powerOfTwo a) (hb : powerOfTwo b) (hle : a ≤ b) : a ∣ b := by
  obtain ⟨i, rfl⟩ := powerOfTwo_iff.1 ha
  obtain ⟨j, rfl⟩ := powerOfTwo_iff.1 hb
  exact Nat.pow_dvd_pow 2 ((Nat.pow_le_pow_iff_right (by decide)).1 hle)

theorem powerOfTwo_max {a b : ℕ} (ha : powerOfTwo a) (hb : powerOfTwo b) : powerOfTwo (max a b) := by
  rcases Nat.le_total a b with hle | hle
  · rwa [max_eq_right hle]
  · rwa [max_eq_left hle]

theorem dvd_wordLimit {a : ℕ} (ha : powerOfTwo a) (hlt : a < wordLimit) : a ∣ wordLimit :=
  powerOfTwo_dvd ha (powerOfTwo_iff.2 ⟨64, rfl⟩) hlt.le

structure Below (preceding : ℕ) (template : Template) (distance : ℕ) : Prop where
  power : powerOfTwo template.alignment
  residue : template.residue < template.alignment
  file : template.fileSize ≤ template.memorySize
  room : preceding + template.memorySize ≤ distance
  limit : distance < wordLimit
  aligned : template.alignment < wordLimit → template.alignment ∣ distance + template.residue

theorem padding_dvd {a w x : ℕ} (haw : a ∣ w) (hw : 0 < w) : a ∣ x + (w - x % w) % a := by
  have hle : x % w ≤ w := (Nat.mod_lt x hw).le
  have hsum : a ∣ x + (w - x % w) := by
    have hx := Nat.div_add_mod x w
    have heq : x + (w - x % w) = w * (x / w + 1) := by rw [Nat.mul_add, Nat.mul_one]; omega
    rw [heq]
    exact haw.mul_right _
  rw [Nat.dvd_iff_mod_eq_zero, Nat.add_mod, Nat.mod_mod, ← Nat.add_mod]
  exact Nat.mod_eq_zero_of_dvd hsum

theorem distanceAfter_eq_some {preceding distance : ℕ} {template : Template}
    (h : distanceAfter preceding template = some distance) : Below preceding template distance := by
  simp only [distanceAfter, bind_eq_bind, bind_eq_some_iff, guard_eq_some', checkedAdd_eq_some] at h
  obtain ⟨_, ⟨hpower, hresidue, hfile⟩, stop, ⟨hstop, rfl⟩, hlimit, rfl⟩ := h
  refine ⟨hpower, hresidue, hfile, Nat.le_add_right _ _, hlimit, fun hlt => ?_⟩
  have hdvd := padding_dvd (x := template.residue + (preceding + template.memorySize)) (dvd_wordLimit hpower hlt)
    (show 0 < wordLimit by decide)
  have heq : ∀ padding, preceding + template.memorySize + padding + template.residue =
      template.residue + (preceding + template.memorySize) + padding := by
    intro padding
    omega
  rwa [heq]

/-! ## Modules -/

/-- A module in a plan whose blocks take up to a distance and are aligned to at most `alignment`. -/
structure Module.Placed (m : Module) (distance alignment : ℕ) : Prop where
  below : Below 0 m.template m.distance
  within : m.distance ≤ distance
  coarse : m.template.alignment ≤ alignment

def Module.Next (m m' : Module) : Prop := m.index < m'.index ∧ m.distance + m'.template.memorySize ≤ m'.distance

structure Modules (first preceding : ℕ) (templates : List (Option Template)) (distance alignment : ℕ)
    (modules : List Module) : Prop where
  grows : preceding ≤ distance
  placed : ∀ m ∈ modules, m.Placed distance alignment
  beyond : ∀ m ∈ modules, preceding + m.template.memorySize ≤ m.distance
  indexed : ∀ m ∈ modules, first ≤ m.index ∧ templates[m.index - first]? = some (some m.template)
  ordered : modules.Pairwise Module.Next
  complete : ∀ i t, templates[i]? = some (some t) → ∃ m ∈ modules, m.index = first + i ∧ m.template = t

theorem extend_eq_some {s s' : ℕ × ℕ} {template : Template} (h : Plan.extend s template = some s') :
    distanceAfter s.1 template = some s'.1 ∧ s'.2 = max s.2 template.alignment := by
  simp only [Plan.extend, bind_eq_bind, bind_eq_some_iff] at h
  obtain ⟨_, -, distance, hdistance, hs⟩ := h
  cases hs
  exact ⟨hdistance, rfl⟩

theorem Below.mono {p p' d : ℕ} {t : Template} (h : Below p t d) (hle : p' ≤ p) : Below p' t d :=
  { h with room := by have := h.room; omega }

theorem modulesFrom_spec {templates : List (Option Template)} {first : ℕ} {s : ℕ × ℕ} {distance alignment : ℕ}
    (hs : powerOfTwo s.2) (h : (templates.filterMap id).foldlM Plan.extend s = some (distance, alignment)) :
    Modules first s.1 templates distance alignment (Plan.modulesFrom first s.1 templates) ∧ s.2 ≤ alignment ∧
      powerOfTwo alignment := by
  induction templates generalizing first s with
  | nil =>
    cases h
    exact ⟨⟨le_rfl, nofun, nofun, nofun, .nil, nofun⟩, le_rfl, hs⟩
  | cons template templates ih =>
    cases template with
    | none =>
      obtain ⟨hm, hle, hpower⟩ := @ih (first + 1) s hs h
      rw [Plan.modulesFrom]
      refine ⟨⟨hm.grows, hm.placed, hm.beyond, fun m hmem => ?_, hm.ordered, fun i t ht => ?_⟩, hle, hpower⟩
      · obtain ⟨hfirst, htemplate⟩ := hm.indexed m hmem
        refine ⟨by omega, ?_⟩
        rwa [show m.index - first = m.index - (first + 1) + 1 by omega]
      · cases i with
        | zero => cases ht
        | succ i =>
          obtain ⟨m, hmem, hindex, htemplate⟩ := hm.complete i t ht
          exact ⟨m, hmem, by omega, htemplate⟩
    | some template =>
      rw [filterMap_cons] at h
      simp only [id_eq, foldlM_cons, bind_eq_bind, bind_eq_some_iff] at h
      obtain ⟨s', hextend, hrest⟩ := h
      obtain ⟨hdistance, halign⟩ := extend_eq_some hextend
      have hbelow := distanceAfter_eq_some hdistance
      have hpower' : powerOfTwo s'.2 := by
        rw [halign]
        exact powerOfTwo_max hs hbelow.power
      obtain ⟨hm, hle, hpower⟩ := @ih (first + 1) s' hpower' hrest
      have hmax : s.2 ≤ s'.2 ∧ template.alignment ≤ s'.2 := by
        rw [halign]
        exact ⟨le_max_left _ _, le_max_right _ _⟩
      have hroom := hbelow.room
      have hgrows := hm.grows
      rw [Plan.modulesFrom, hdistance]
      refine ⟨⟨by omega, ?_, ?_, ?_, ?_, fun i t ht => ?_⟩, by omega, hpower⟩
      · exact forall_mem_cons.2 ⟨⟨hbelow.mono (Nat.zero_le _), hgrows, by simp only; omega⟩, hm.placed⟩
      · refine forall_mem_cons.2 ⟨hroom, fun m hmem => ?_⟩
        have hbeyond := hm.beyond m hmem
        omega
      · refine forall_mem_cons.2 ⟨⟨le_rfl, by simp⟩, fun m hmem => ?_⟩
        obtain ⟨hfirst, htemplate⟩ := hm.indexed m hmem
        refine ⟨by omega, ?_⟩
        rwa [show m.index - first = m.index - (first + 1) + 1 by omega]
      · refine pairwise_cons.2 ⟨fun m hmem => ⟨?_, hm.beyond m hmem⟩, hm.ordered⟩
        have hfirst := (hm.indexed m hmem).1
        simp only
        omega
      · cases i with
        | zero =>
          cases ht
          exact ⟨_, mem_cons_self, rfl, rfl⟩
        | succ i =>
          obtain ⟨m, hmem, hindex, htemplate⟩ := hm.complete i t ht
          exact ⟨m, mem_cons_of_mem _ hmem, by omega, htemplate⟩

/-! ## Plans -/

/-- What a plan is: its modules, and a mapping with room for the blocks, the thread control block and the table. -/
structure Plan.Sound (plan : Plan) (alignment : ℕ) : Prop where
  modules : Modules 0 0 plan.templates plan.layout.distance alignment plan.modules
  power : powerOfTwo plan.layout.alignment
  coarse : alignment ≤ plan.layout.alignment
  limit : plan.layout.alignment < wordLimit
  size : plan.layout.distance + (plan.layout.alignment - 1) +
    (Dtv.tcbBytes + Dtv.headerBytes + plan.templates.length * Dtv.moduleBytes) ≤ plan.layout.mappingSize

theorem roundUp_le {size page : ℕ} (hpage : 0 < page) : size ≤ (size + (page - 1)) / page * page := by
  have hdiv := Nat.div_add_mod (size + (page - 1)) page
  have hmod := Nat.mod_lt (size + (page - 1)) hpage
  rw [Nat.mul_comm] at hdiv
  omega

theorem withTail_eq_some {distance alignment pageSize tail : ℕ} {layout : Layout}
    (h : Layout.withTail distance alignment pageSize tail = some layout) :
    layout.distance = distance ∧ layout.alignment = max alignment 8 ∧
      distance + (max alignment 8 - 1) + tail ≤ layout.mappingSize ∧ max alignment 8 - 1 + tail < wordLimit := by
  simp only [Layout.withTail, Option.bind_eq_bind, Option.bind_eq_some_iff, Option.guard_eq_some', checkedAdd_eq_some,
    Option.pure_def, Option.some.injEq] at h
  obtain ⟨_, ⟨hpage, -⟩, _, ⟨-, rfl⟩, size, ⟨hsize, rfl⟩, mapping, ⟨-, rfl⟩, rfl⟩ := h
  exact ⟨rfl, rfl, roundUp_le (Nat.pos_of_ne_zero hpage.1), by omega⟩

variable {plan : Plan}

theorem Plan.sound_of_new {templates : List (Option Template)} {pageSize : ℕ}
    (h : Plan.new templates pageSize = some plan) :
    plan.templates = templates ∧
      ∃ alignment, (templates.filterMap id).foldlM Plan.extend (0, 1) = some (plan.layout.distance, alignment) ∧
        plan.Sound alignment := by
  simp only [Plan.new, Option.bind_eq_bind, Option.bind_eq_some_iff, checkedAdd_eq_some, checkedMul_eq_some,
    Option.pure_def, Option.some.injEq] at h
  obtain ⟨⟨distance, alignment⟩, hfold, _, ⟨-, rfl⟩, tail, ⟨-, rfl⟩, layout, hlayout, rfl⟩ := h
  obtain ⟨hdistance, halign, hsize, hlimit⟩ := withTail_eq_some hlayout
  obtain ⟨hmodules, -, hpower⟩ := @modulesFrom_spec templates 0 (0, 1) distance alignment (powerOfTwo_iff.2 ⟨0, rfl⟩) hfold
  refine ⟨rfl, alignment, by rw [hdistance]; exact hfold, by rw [hdistance]; exact hmodules, ?_, ?_, ?_,
    by rw [hdistance, halign]; exact hsize⟩
  · rw [halign]
    exact powerOfTwo_max hpower (powerOfTwo_iff.2 ⟨3, rfl⟩)
  · rw [halign]
    exact le_max_left _ _
  · rw [halign]
    simp only [Dtv.tcbBytes, Dtv.headerBytes] at hlimit
    omega

/-! ## Placement -/

/-- Where a thread pointer is: with the blocks below it and the table above it inside of the mapping. -/
structure Plan.At (plan : Plan) (base threadPointer : ℕ) : Prop where
  low : base + plan.layout.distance ≤ threadPointer
  aligned : plan.layout.alignment ∣ threadPointer
  high : threadPointer + (Dtv.tcbBytes + Dtv.headerBytes + plan.templates.length * Dtv.moduleBytes) ≤
    base + plan.layout.mappingSize
  limit : base + plan.layout.mappingSize < wordLimit

theorem Plan.Sound.at_of_place {alignment base : ℕ} {placed : Placement} (h : plan.Sound alignment)
    (hplace : plan.layout.place base = some placed) : plan.At base placed.threadPointer := by
  simp only [Layout.place, Option.bind_eq_bind, Option.bind_eq_some_iff, Option.guard_eq_some', checkedAdd_eq_some,
    Option.pure_def, Option.some.injEq] at hplace
  obtain ⟨stop, ⟨hstop, rfl⟩, _, ⟨-, rfl⟩, top, ⟨-, rfl⟩, tcb, ⟨-, rfl⟩, _, -, _, -, rfl⟩ := hplace
  have hpos : 0 < plan.layout.alignment := Nat.pos_of_ne_zero h.power.1
  have hlow : base + plan.layout.distance ≤ _ := roundUp_le hpos
  have hhigh : (base + plan.layout.distance + (plan.layout.alignment - 1)) / plan.layout.alignment * plan.layout.alignment ≤
      base + plan.layout.distance + (plan.layout.alignment - 1) := Nat.div_mul_le_self _ _
  have hsize := h.size
  exact ⟨hlow, Nat.dvd_mul_left _ _, by simp only; omega, hstop⟩

def Module.start (threadPointer : ℕ) (m : Module) : ℕ := threadPointer - m.distance

def Module.stop (threadPointer : ℕ) (m : Module) : ℕ := threadPointer - m.distance + m.template.memorySize

/-- A block lies in the mapping below the thread pointer and has the residue its template asks for. -/
structure Module.Block (m : Module) (base threadPointer : ℕ) : Prop where
  low : base ≤ m.start threadPointer
  high : m.stop threadPointer ≤ threadPointer
  residue : m.start threadPointer % m.template.alignment = m.template.residue
  distance : m.distance ≤ threadPointer

section

variable {alignment base threadPointer : ℕ} (h : plan.Sound alignment)
  (hat : plan.At base threadPointer)
include h hat

theorem Plan.Sound.block {m : Module} (hm : m ∈ plan.modules) : m.Block base threadPointer := by
  have hplaced := h.modules.placed m hm
  have hbelow := hplaced.below
  have hroom := hbelow.room
  have hwithin := hplaced.within
  have hlow := hat.low
  have hcoarse : m.template.alignment ≤ plan.layout.alignment := hplaced.coarse.trans h.coarse
  have hle : m.distance ≤ threadPointer := by omega
  refine ⟨by rw [Module.start]; omega, by rw [Module.stop]; omega, ?_, hle⟩
  have hdvd : m.template.alignment ∣ threadPointer := (powerOfTwo_dvd hbelow.power h.power hcoarse).trans hat.aligned
  have halign := hbelow.aligned (hcoarse.trans_lt h.limit)
  -- `start + distance` and `distance + residue` are both multiples of the alignment
  have hmod : (m.start threadPointer + m.distance) ≡ (m.template.residue + m.distance) [MOD m.template.alignment] := by
    rw [Module.start, Nat.sub_add_cancel hle, Nat.add_comm m.template.residue]
    exact (Nat.modEq_zero_iff_dvd.2 hdvd).trans (Nat.modEq_zero_iff_dvd.2 halign).symm
  have hres : m.start threadPointer % m.template.alignment = m.template.residue % m.template.alignment :=
    Nat.ModEq.add_right_cancel' m.distance hmod
  rw [hres, Nat.mod_eq_of_lt hbelow.residue]

theorem Plan.Sound.blocks_apart :
    plan.modules.Pairwise (Apart (Module.start threadPointer) (Module.stop threadPointer)) := by
  refine (pairwise_iff_getElem.2 fun i j hi hj hij => .inr ?_)
  have hnext := (pairwise_iff_getElem.1 h.modules.ordered i j hi hj hij).2
  have hi' := (h.block hat (getElem_mem hi)).distance
  have hj' := (h.block hat (getElem_mem hj)).distance
  rw [Module.start, Module.stop]
  omega

end

end MochiSyscalls.PosixClient.StaticTls
