import MochiSyscalls.PosixClient.StaticTlsLayout
import MochiSyscalls.PosixClient.Pie.LinkScope

/-! # Linker and runtime agree on the TLS blocks

The writes of the initialization, the table the runtime reads back, and the offsets from the thread pointer that the
linker computes for the same objects. -/

namespace MochiSyscalls.PosixClient.StaticTls
open Foundations Bytes Effects Emissions Intervals List Eff Dtv Plan Patch
set_option autoImplicit false

variable {ε : Type}

/-! ## The writes of the initialization -/

namespace Plan

variable (plan : Plan) (read : ℕ → ℕ → Except ε (List UInt8)) (threadPointer : ℕ) (m : Module)

def dataPatches : List Patch :=
  (Pieces.pieces 512 m.template.fileSize 0).map fun piece =>
    ⟨threadPointer - m.distance + piece.1, filled read (m.template.source + piece.1) piece.2⟩

def entryPatch : Patch :=
  ⟨table threadPointer + Dtv.headerBytes + m.index * Dtv.moduleBytes, entryBytes threadPointer m⟩

def countPatch : Patch := ⟨table threadPointer, toLe 8 plan.templates.length⟩

def tablePatch : Patch := ⟨threadPointer + 8, toLe 8 (table threadPointer)⟩

def selfPatch : Patch := ⟨threadPointer, toLe 8 threadPointer⟩

/-- The blocks, then everything above the thread pointer. -/
def upperPatches : List Patch :=
  [plan.countPatch threadPointer] ++
    (plan.modules.flatMap (fun m => [entryPatch threadPointer m]) ++
      ([tablePatch threadPointer] ++ [selfPatch threadPointer]))

def patches : List Patch := plan.modules.flatMap (dataPatches read threadPointer) ++ plan.upperPatches threadPointer

theorem filled_length (source size : ℕ) : (filled read source size).length = size := by
  unfold filled
  split <;> simp

section

variable (write : ℕ → List UInt8 → Except ε Unit)

theorem writeAt_emits (address : ℕ) (bytes : List UInt8) : Emits (writeAt write address bytes) [⟨address, bytes⟩] :=
  Emits.emitThen _ (by split <;> nofun)

theorem copyModule_emits (m : Module) :
    Emits (copyModule read write threadPointer m) (dataPatches read threadPointer m) := by
  rw [dataPatches, map_eq_flatMap]
  refine Emits.forM fun piece _ => Emits.lift (by split <;> nofun) fun bytes hbytes => ?_
  split at hbytes
  · cases hbytes
    exact writeAt_emits write _ _
  · cases hbytes

theorem install_emits : Emits (plan.install read write threadPointer) (plan.patches read threadPointer) := by
  refine (Emits.forM fun m _ => copyModule_emits read threadPointer write m).bind fun _ => ?_
  refine (writeAt_emits write _ _).bind fun _ => ?_
  refine (Emits.forM fun m _ => writeAt_emits write _ _).bind fun _ => ?_
  exact (writeAt_emits write _ _).bind fun _ => writeAt_emits write _ _

end

theorem initializeZeroed_eq {write : ℕ → List UInt8 → Except ε Unit} {base size : ℕ} {written : List Patch}
    (h : plan.initializeZeroed read write base size [] = (.value threadPointer, written)) :
    plan.layout.mappingSize ≤ size ∧ base + size < wordLimit ∧
      (∃ placed, plan.layout.place base = some placed ∧ placed.threadPointer = threadPointer) ∧
      written = plan.patches read threadPointer := by
  have hafter : after (plan.initializeZeroed read write base size) (fun out now => out = .value threadPointer →
      plan.layout.mappingSize ≤ size ∧ base + size < wordLimit ∧
      (∃ placed, plan.layout.place base = some placed ∧ placed.threadPointer = threadPointer) ∧
      now = plan.patches read threadPointer) [] := by
    unfold initializeZeroed
    by_cases hsize : size < plan.layout.mappingSize ∨ base + size ≥ wordLimit
    · refine after_bind_of_failed (if_pos hsize) nofun
    refine after_bind_of_value (if_neg hsize) ?_
    cases hplace : plan.layout.place base with
    | none => exact after_bind_of_failed rfl nofun
    | some placed =>
      refine after_bind_of_value rfl ?_
      rw [after_bind]
      refine ((plan.install_emits read placed.threadPointer write).run []).imp fun out now hout => ?_
      cases out with
      | value u =>
        rw [next_value]
        refine fun hvalue => ⟨by omega, by omega, ⟨placed, rfl, ?_⟩, ?_⟩
        · cases hvalue
          rfl
        · cases hvalue
          exact hout.all u rfl
      | failed e | panicked => nofun
  unfold Eff.after at hafter
  rw [h] at hafter
  exact hafter rfl

/-! ## Where they lie -/

variable {p : Patch}

theorem dataPatches_inside {m : Module} (hfile : m.template.fileSize ≤ m.template.memorySize)
    (hp : p ∈ dataPatches read threadPointer m) : m.start threadPointer ≤ p.offset ∧ p.stop ≤ m.stop threadPointer := by
  obtain ⟨piece, hpiece, rfl⟩ := mem_map.1 hp
  have h := (Pieces.pieces_spec 512 m.template.fileSize 0).1 piece hpiece
  simp only [stop, filled_length, Module.start, Module.stop]
  omega

theorem dataPatches_apart : (dataPatches read threadPointer m).Pairwise (Apart Patch.offset Patch.stop) := by
  refine pairwise_map.2 ((Pieces.pieces_spec 512 m.template.fileSize 0).2.imp fun {a b} hab => .inl ?_)
  simp only [stop, filled_length]
  omega

variable {plan read threadPointer}

theorem entryBytes_length : (entryBytes threadPointer m).length = Dtv.moduleBytes := by
  simp [entryBytes, moduleBytes]

theorem mem_upperPatches (hp : p ∈ plan.upperPatches threadPointer) :
    p = selfPatch threadPointer ∨ p = tablePatch threadPointer ∨ p = plan.countPatch threadPointer ∨
      ∃ m ∈ plan.modules, p = entryPatch threadPointer m := by
  simp only [upperPatches, mem_append, mem_singleton, mem_flatMap] at hp
  tauto

section Bounds

variable {alignment base : ℕ} (h : plan.Sound alignment) (hat : plan.At base threadPointer)

include h

theorem index_lt {m : Module} (hm : m ∈ plan.modules) : m.index < plan.templates.length := by
  have hindexed := (h.modules.indexed m hm).2
  exact (List.getElem?_eq_some_iff.1 hindexed).1

theorem upperPatches_inside (hp : p ∈ plan.upperPatches threadPointer) : threadPointer ≤ p.offset ∧
      p.stop ≤ threadPointer + (Dtv.tcbBytes + Dtv.headerBytes + plan.templates.length * Dtv.moduleBytes) := by
  rcases mem_upperPatches hp with rfl | rfl | rfl | ⟨m, hm, rfl⟩
  · simp [selfPatch, stop, tcbBytes, headerBytes]
    omega
  · simp [tablePatch, stop, tcbBytes, headerBytes]
    omega
  · simp [countPatch, stop, table, tcbBytes, headerBytes]
    omega
  · have hindex := index_lt h hm
    simp only [entryPatch, stop, entryBytes_length, table, tcbBytes, headerBytes, moduleBytes]
    omega

theorem upperPatches_apart : (plan.upperPatches threadPointer).Pairwise (Apart Patch.offset Patch.stop) := by
  have hentries : (plan.modules.flatMap fun m => [entryPatch threadPointer m]).Pairwise (Apart offset stop) := by
    rw [← map_eq_flatMap]
    refine pairwise_map.2 (h.modules.ordered.imp fun {m m'} hnext => .inl ?_)
    have hindex := hnext.1
    simp only [entryPatch, stop, entryBytes_length, moduleBytes]
    omega
  have hhigh : ∀ p ∈ plan.modules.flatMap (fun m => [entryPatch threadPointer m]), threadPointer + 24 ≤ p.offset := by
    intro p hp
    obtain ⟨m, -, hp⟩ := mem_flatMap.1 hp
    rw [mem_singleton] at hp
    subst hp
    simp only [entryPatch, table, tcbBytes, headerBytes]
    omega
  rw [upperPatches]
  refine pairwise_append.2 ⟨pairwise_singleton _ _, pairwise_append.2 ⟨hentries, ?_, ?_⟩, ?_⟩
  · simp [pairwise_cons, Apart, tablePatch, selfPatch, stop]
  · intro p hp q hq
    have hlow := hhigh p hp
    simp only [singleton_append, mem_cons, not_mem_nil, or_false] at hq
    rcases hq with rfl | rfl
    · exact .inr (by simp only [tablePatch, stop, toLe_length]; omega)
    · exact .inr (by simp only [selfPatch, stop, toLe_length]; omega)
  · intro p hp q hq
    rw [mem_singleton] at hp
    subst hp
    rcases mem_append.1 hq with hq | hq
    · have hlow := hhigh q hq
      exact .inl (by simp only [countPatch, stop, toLe_length, table, tcbBytes]; omega)
    · simp only [singleton_append, mem_cons, not_mem_nil, or_false] at hq
      rcases hq with rfl | rfl
      · exact .inr (by simp only [countPatch, tablePatch, stop, toLe_length, table, tcbBytes]; omega)
      · exact .inr (by simp only [countPatch, selfPatch, stop, toLe_length, table, tcbBytes]; omega)

include hat

theorem patches_inside (hp : p ∈ plan.patches read threadPointer) :
    base ≤ p.offset ∧ p.stop ≤ base + plan.layout.mappingSize := by
  have hhigh := hat.high
  have hlow := hat.low
  rcases mem_append.1 hp with hp | hp
  · obtain ⟨m, hm, hp⟩ := mem_flatMap.1 hp
    have hblock := h.block hat hm
    obtain ⟨hstart, hstop⟩ := dataPatches_inside read threadPointer (h.modules.placed m hm).below.file hp
    have := hblock.low
    have := hblock.high
    omega
  · obtain ⟨hstart, hstop⟩ := upperPatches_inside h hp
    omega

theorem patches_apart : (plan.patches read threadPointer).Pairwise (Apart Patch.offset Patch.stop) := by
  refine pairwise_append.2 ⟨?_, upperPatches_apart h, fun p hp q hq => ?_⟩
  · rw [pairwise_flatMap]
    refine ⟨fun m _ => dataPatches_apart read threadPointer m, ?_⟩
    refine (h.blocks_apart hat).imp_of_mem fun {m m'} hm hm' happart p hp q hq => ?_
    obtain ⟨hpstart, hpstop⟩ :=
      dataPatches_inside read threadPointer (h.modules.placed m hm).below.file hp
    obtain ⟨hqstart, hqstop⟩ :=
      dataPatches_inside read threadPointer (h.modules.placed m' hm').below.file hq
    rcases happart with happart | happart
    · exact .inl (hpstop.trans (happart.trans hqstart))
    · exact .inr (hqstop.trans (happart.trans hpstart))
  · obtain ⟨m, hm, hp⟩ := mem_flatMap.1 hp
    have hblock := h.block hat hm
    have hstop := (dataPatches_inside read threadPointer (h.modules.placed m hm).below.file hp).2
    exact .inl (hstop.trans (hblock.high.trans (upperPatches_inside h hq).1))

end Bounds

end Plan

/-! ## The table -/

/-- A fresh mapping at an address, after writes at addresses. -/
def mappingAfter (base size : ℕ) (written : List Patch) : List UInt8 :=
  Patch.applyAll (List.replicate size 0) (written.map fun p => ⟨p.offset - base, p.bytes⟩)

section Table

variable {plan : Plan} {alignment base size threadPointer : ℕ} {read : ℕ → ℕ → Except ε (List UInt8)}
  (h : plan.Sound alignment) (hat : plan.At base threadPointer) (hsize : plan.layout.mappingSize ≤ size)

include h hat hsize

theorem mapped_fit : Patch.Fit (List.replicate size (0 : UInt8)).length
    ((plan.patches read threadPointer).map fun p => ⟨p.offset - base, p.bytes⟩) := by
  intro q hq
  obtain ⟨p, hp, rfl⟩ := mem_map.1 hq
  obtain ⟨hlow, hhigh⟩ := patches_inside h hat hp
  rw [length_replicate]
  simp only [stop] at hhigh ⊢
  omega

theorem mapping_length : (mappingAfter base size (plan.patches read threadPointer)).length = size := by
  rw [mappingAfter, applyAll_length (mapped_fit h hat hsize), length_replicate]

theorem word_mapped {p : Patch} (hp : p ∈ plan.patches read threadPointer) (front rest : List UInt8) {x : ℕ}
    (hbytes : p.bytes = front ++ (toLe 8 x ++ rest)) (hx : x < wordLimit) :
    Dtv.word (mappingAfter base size (plan.patches read threadPointer)) base (p.offset + front.length) = some x := by
  obtain ⟨hlow, hhigh⟩ := patches_inside h hat hp
  have hapart : ((plan.patches read threadPointer).map fun p => Patch.mk (p.offset - base) p.bytes).Pairwise
      (Apart Patch.offset Patch.stop) := by
    refine pairwise_map.2 ((patches_apart h hat).imp_of_mem fun {a b} ha hb hab => ?_)
    have hafits := (patches_inside h hat ha).1
    have hbfits := (patches_inside h hat hb).1
    unfold Apart at hab ⊢
    simp only [stop] at hab ⊢
    omega
  have hread := readLe_applyAll (mapped_fit h hat hsize) hapart (mem_map_of_mem hp) hbytes hx
  have hle : base ≤ p.offset + front.length := by omega
  simp only [word, guard, hle, if_true]
  rw [show p.offset + front.length - base = p.offset - base + front.length by omega]
  exact hread

/-- **The runtime finds a block where the plan has put it**, and addresses in it up to its end. -/
theorem address_module (hlimit : base + size < wordLimit) {m : Module} (hm : m ∈ plan.modules) (offset : ℕ) :
    Dtv.address (mappingAfter base size (plan.patches read threadPointer)) base threadPointer (m.index + 1) offset =
      if m.start threadPointer ≠ 0 ∧ offset ≤ m.template.memorySize then some (m.start threadPointer + offset)
      else none := by
  have hblock := h.block hat hm
  have hbelow := (h.modules.placed m hm).below
  have hindex := index_lt h hm
  have hhigh := hat.high
  have hatlimit := hat.limit
  have hstart := hblock.low
  have hstop := hblock.high
  have hdistance := hblock.distance
  have hroom := hbelow.room
  simp only [Module.start, Module.stop] at hstart hstop
  simp only [tcbBytes, headerBytes, moduleBytes] at hhigh
  have hlen := @mapping_length ε plan alignment base size threadPointer read h hat hsize
  have hword := fun {p : Patch} (hp : p ∈ plan.upperPatches threadPointer) =>
    @word_mapped ε plan alignment base size threadPointer read h hat hsize p (mem_append_right _ hp)
  generalize mappingAfter base size (plan.patches read threadPointer) = memory at *
  have hself : word memory base threadPointer = some threadPointer :=
    hword (p := selfPatch threadPointer) (by simp [upperPatches]) [] [] (by simp [selfPatch]) (by omega)
  have htable : word memory base (threadPointer + 8) = some (threadPointer + 16) :=
    hword (p := tablePatch threadPointer) (by simp [upperPatches]) [] [] (by simp [tablePatch, table, tcbBytes]) (by omega)
  have hcount : word memory base (threadPointer + 16) = some plan.templates.length :=
    hword (p := plan.countPatch threadPointer) (by simp [upperPatches]) [] [] (by simp [countPatch]) (by omega)
  have hentry : entryPatch threadPointer m ∈ plan.upperPatches threadPointer := by
    simp only [upperPatches, mem_append, mem_flatMap, mem_singleton]
    exact .inr (.inl ⟨m, hm, rfl⟩)
  have hdata : word memory base (threadPointer + 16 + 8 + m.index * 16) = some (threadPointer - m.distance) :=
    hword hentry [] (toLe 8 m.template.memorySize) (by simp [entryPatch, entryBytes]) (by omega)
  have hmemory : word memory base (threadPointer + 16 + 8 + m.index * 16 + 8) = some m.template.memorySize :=
    hword hentry (toLe 8 (threadPointer - m.distance)) [] (by simp [entryPatch, entryBytes]) (by omega)
  have hsum : ∀ {a b : ℕ}, a + b < wordLimit → checkedAdd a b = some (a + b) := fun hab => if_pos hab
  have hproduct : checkedMul plan.templates.length 16 = some (plan.templates.length * 16) := if_pos (by omega)
  have hcheck : threadPointer + 16 + 8 + plan.templates.length * 16 ≤ base + size ∧ m.index + 1 ≠ 0 ∧
      m.index + 1 ≤ plan.templates.length := ⟨by omega, by omega, by omega⟩
  simp only [address, hlen, hsum hlimit, tcbBytes, headerBytes, moduleBytes, Option.bind_eq_bind,
    Option.bind_some, hself, guard, if_true, hsum (show threadPointer + 8 < wordLimit by omega), htable,
    hsum (show threadPointer + 16 < wordLimit by omega), hcount, hsum (show threadPointer + 16 + 8 < wordLimit by omega),
    hproduct, hsum (show threadPointer + 16 + 8 + plan.templates.length * 16 < wordLimit by omega), hcheck,
    Nat.add_sub_cancel, hdata, hmemory, hsum (show threadPointer - m.distance + m.template.memorySize < wordLimit by omega),
    hstart, hstop, and_true, true_and, Module.start, Option.pure_def, ne_eq, not_false_eq_true]
  by_cases hzero : threadPointer - m.distance = 0
  · simp [hzero]
  · by_cases hoffset : offset ≤ m.template.memorySize
    · simp [hzero, hoffset, hsum (show threadPointer - m.distance + offset < wordLimit by omega)]
    · simp [hzero, hoffset]

end Table

/-! ## The linker -/

/-- Two templates that ask for the same block; the bytes may lie elsewhere. -/
structure SameBlock (t t' : Template) : Prop where
  file : t.fileSize = t'.fileSize
  memory : t.memorySize = t'.memorySize
  alignment : t.alignment = t'.alignment
  residue : t.residue = t'.residue

theorem SameBlock.distanceAfter_eq {t t' : Template} (h : SameBlock t t') (preceding : ℕ) :
    distanceAfter preceding t = distanceAfter preceding t' := by
  unfold distanceAfter
  rw [h.file, h.memory, h.alignment, h.residue]

/-- What an object of a link scope answers for its TLS segment, next to the template of a plan. -/
def Describes (object : Pie.Object) (template : Option Template) : Prop :=
  ∃ answer, object.image.tlsTemplate 0 = .ok answer ∧ Option.Rel SameBlock answer template

variable {templates : List (Option Template)}

theorem modulesFrom_index {first preceding : ℕ} {m : Module}
    (hm : m ∈ Plan.modulesFrom first preceding templates) : first ≤ m.index := by
  induction templates generalizing first preceding with
  | nil => cases hm
  | cons template templates ih =>
    cases template with
    | none =>
      have h := ih hm
      omega
    | some template =>
      rw [modulesFrom] at hm
      split at hm
      · have h := ih hm
        omega
      · rcases mem_cons.1 hm with rfl | hm
        · exact le_rfl
        · have h := ih hm
          omega

def distanceBehind (preceding : ℕ) : Option Template → Except Pie.Error ℕ
  | some t => Checked.okOr (distanceAfter preceding t) .overflow
  | none => .ok preceding

theorem addTls_describes {object : Pie.Object} {template : Option Template} (h : Describes object template) (preceding : ℕ) :
    Pie.Scope.addTls preceding object = distanceBehind preceding template := by
  obtain ⟨answer, hanswer, hrel⟩ := h
  unfold Pie.Scope.addTls
  rw [hanswer]
  cases hrel with
  | none => rfl
  | some hblock =>
    rw [distanceBehind, ← hblock.distanceAfter_eq]
    rfl

/-- **The distance the linker sums up is the distance of the module.** -/
theorem tlsDistance_eq {objects : List Pie.Object}
    (hsame : List.Forall₂ Describes objects templates) {first : ℕ} {s last : ℕ × ℕ}
    (hfold : (templates.filterMap id).foldlM Plan.extend s = some last) {m : Module}
    (hm : m ∈ Plan.modulesFrom first s.1 templates) :
    (objects.take (m.index - first + 1)).foldlM Pie.Scope.addTls s.1 = .ok m.distance := by
  -- along the objects and the templates at once
  induction hsame generalizing first s with
  | nil => cases hm
  | @cons object template objects templates hdescribes hsame ih =>
    rw [take_succ_cons, foldlM_cons, addTls_describes hdescribes]
    cases template with
    | none =>
      have hfirst := modulesFrom_index hm
      have hnext := ih hfold hm
      rw [show m.index - first = m.index - (first + 1) + 1 by
        have := @modulesFrom_index templates (first + 1) s.1 m hm
        omega]
      exact hnext
    | some template =>
      rw [filterMap_cons] at hfold
      simp only [id_eq, foldlM_cons, Option.bind_eq_bind, Option.bind_eq_some_iff] at hfold
      obtain ⟨s', hextend, hrest⟩ := hfold
      have hdistance := (extend_eq_some hextend).1
      rw [modulesFrom, hdistance] at hm
      simp only [distanceBehind, hdistance, Checked.okOr]
      rcases mem_cons.1 hm with rfl | hm
      · simp only [Nat.sub_self, take_zero, foldlM_nil]
        rfl
      · rw [show m.index - first = m.index - (first + 1) + 1 by
          have := modulesFrom_index hm
          omega]
        exact ih hrest hm

theorem resolve_tpoff {scope : Pie.Scope} (hsame : List.Forall₂ Describes scope.objects templates) {last : ℕ × ℕ}
    (hfold : (templates.filterMap id).foldlM Plan.extend (0, 1) = some last) {m : Module}
    (hm : m ∈ Plan.modulesFrom 0 0 templates) (hindex : templates[m.index]? = some (some m.template))
    {origin index offset : ℕ} (htarget : scope.tlsTarget origin index = .ok (m.index, offset)) :
    scope.resolve origin index 18 = if m.distance ≥ 2 ^ 63 then .error .overflow
      else .ok ((offset + (Pie.wordLimit - m.distance)) % Pie.wordLimit) := by
  have hlt : m.index < scope.objects.length := by
    rw [hsame.length_eq]
    exact (List.getElem?_eq_some_iff.1 hindex).1
  have hobject : scope.objects[m.index]? = some scope.objects[m.index] := List.getElem?_eq_getElem hlt
  obtain ⟨answer, hanswer, hrel⟩ : Describes scope.objects[m.index] (some m.template) := by
    have h := List.forall₂_iff_get.1 hsame
    obtain ⟨hlt', hget⟩ := List.getElem?_eq_some_iff.1 hindex
    have hdescribes := h.2 m.index hlt hlt'
    simp only [List.get_eq_getElem, hget] at hdescribes
    exact hdescribes
  have hdistance : Pie.Scope.tlsDistance (scope.objects.take (m.index + 1)) = .ok m.distance := tlsDistance_eq hsame hfold hm
  cases hrel with
  | some hblock =>
    have htls : scope.resolve origin index 18 = scope.resolveTls 18 m.index offset := by
      simp only [Pie.Scope.resolve, Pie.Scope.image, htarget, hobject, Option.map_some, Checked.okOr, hanswer, bind,
        Except.bind]
      rfl
    rw [htls]
    unfold Pie.Scope.resolveTls
    rw [if_neg (by decide), if_neg (by decide), if_pos rfl]
    simp only [hdistance, bind, Except.bind, Checked.reject]
    by_cases hlarge : m.distance ≥ 2 ^ 63
    · rw [if_pos hlarge, if_pos hlarge]
    · rw [if_neg hlarge, if_neg hlarge]
      rfl

/-! ## Agreement -/

/-- The regions of an initialized mapping: the thread control block, the table and the blocks. -/
def Plan.regions (plan : Plan) (threadPointer : ℕ) : List (ℕ × ℕ) :=
  (threadPointer, threadPointer + Dtv.tcbBytes) ::
    (Plan.table threadPointer, Plan.table threadPointer + Dtv.headerBytes + plan.templates.length * Dtv.moduleBytes) ::
      plan.modules.map fun m => (m.start threadPointer, m.stop threadPointer)

section

variable {plan : Plan} {alignment base threadPointer : ℕ} (h : plan.Sound alignment)
  (hat : plan.At base threadPointer)
include h hat

theorem Plan.Sound.regions_apart : (plan.regions threadPointer).Pairwise (Apart Prod.fst Prod.snd) := by
  refine pairwise_cons.2 ⟨forall_mem_cons.2 ⟨.inl le_rfl, fun r hr => ?_⟩,
    pairwise_cons.2 ⟨fun r hr => ?_, pairwise_map.2 (h.blocks_apart hat)⟩⟩
  · obtain ⟨m, hm, rfl⟩ := mem_map.1 hr
    exact .inr (h.block hat hm).high
  · obtain ⟨m, hm, rfl⟩ := mem_map.1 hr
    exact .inr ((h.block hat hm).high.trans (Nat.le_add_right _ _))

theorem Plan.Sound.regions_inside {r : ℕ × ℕ} (hr : r ∈ plan.regions threadPointer) :
    base ≤ r.1 ∧ r.2 ≤ base + plan.layout.mappingSize := by
  have hlow := hat.low
  have hhigh := hat.high
  simp only [tcbBytes, headerBytes, moduleBytes] at hhigh
  simp only [regions, table, tcbBytes, headerBytes, moduleBytes, mem_cons, mem_map] at hr
  rcases hr with rfl | rfl | ⟨m, hm, rfl⟩
  · exact ⟨by simp only; omega, by simp only; omega⟩
  · exact ⟨by simp only; omega, by simp only; omega⟩
  · have hblock := h.block hat hm
    have hstop := hblock.high
    exact ⟨hblock.low, by simp only; omega⟩

end

theorem tpoff_mod {threadPointer distance offset : ℕ} (hle : distance ≤ threadPointer) (hlt : distance < Pie.wordLimit) :
    (threadPointer + (offset + (Pie.wordLimit - distance)) % Pie.wordLimit) % 2 ^ 64 =
      (threadPointer - distance + offset) % 2 ^ 64 := by
  have hsum : threadPointer + (offset + (Pie.wordLimit - distance)) = threadPointer - distance + offset + Pie.wordLimit := by
    omega
  rw [show (2 : ℕ) ^ 64 = Pie.wordLimit from rfl, Nat.add_mod_mod, hsum, Nat.add_mod_right]

/-- **The planner, the initialization, the runtime's table and the linker agree on every block**; the runtime takes one
offset more and a block at address zero for a missing one. -/
theorem linker_and_runtime_agree {templates : List (Option Template)} {pageSize : ℕ} {plan : Plan}
    (hplan : Plan.new templates pageSize = some plan) {read : ℕ → ℕ → Except ε (List UInt8)}
    {write : ℕ → List UInt8 → Except ε Unit} {base size threadPointer : ℕ} {written : List Patch}
    (hinit : plan.initializeZeroed read write base size [] = (.value threadPointer, written)) :
    (∀ i t, templates[i]? = some (some t) → ∃ m ∈ plan.modules, m.index = i ∧ m.template = t) ∧
    (∀ m ∈ plan.modules, templates[m.index]? = some (some m.template) ∧ m.Block base threadPointer) ∧
    (plan.regions threadPointer).Pairwise (Apart Prod.fst Prod.snd) ∧
    (∀ r ∈ plan.regions threadPointer, base ≤ r.1 ∧ r.2 ≤ base + plan.layout.mappingSize) ∧
    (∀ p ∈ written, base ≤ p.offset ∧ p.offset + p.bytes.length ≤ base + plan.layout.mappingSize) ∧
    (∀ m ∈ plan.modules, ∀ offset,
      Dtv.address (mappingAfter base size written) base threadPointer (m.index + 1) offset =
        if m.start threadPointer ≠ 0 ∧ offset ≤ m.template.memorySize then some (threadPointer - m.distance + offset)
        else none) ∧
    (∀ scope : Pie.Scope, List.Forall₂ Describes scope.objects templates → ∀ m ∈ plan.modules, ∀ origin index offset,
      scope.tlsTarget origin index = .ok (m.index, offset) →
        (2 ^ 63 ≤ m.distance → scope.resolve origin index 18 = .error .overflow) ∧
        (m.distance < 2 ^ 63 → ∃ v, scope.resolve origin index 18 = .ok v ∧
          (threadPointer + v) % 2 ^ 64 = (threadPointer - m.distance + offset) % 2 ^ 64)) := by
  obtain ⟨rfl, alignment, hfold, hsound⟩ := sound_of_new hplan
  obtain ⟨hsize, hlimit, ⟨placed, hplace, rfl⟩, rfl⟩ := plan.initializeZeroed_eq read threadPointer hinit
  have hat := hsound.at_of_place hplace
  have hindexed : ∀ m ∈ plan.modules, plan.templates[m.index]? = some (some m.template) :=
    fun m hm => (hsound.modules.indexed m hm).2
  refine ⟨fun i t ht => ?_, fun m hm => ⟨hindexed m hm, hsound.block hat hm⟩, hsound.regions_apart hat,
    fun r hr => hsound.regions_inside hat hr, fun p hp => patches_inside hsound hat hp,
    fun m hm offset => address_module hsound hat hsize hlimit hm offset, ?_⟩
  · obtain ⟨m, hm, hindex, htemplate⟩ := hsound.modules.complete i t ht
    exact ⟨m, hm, by omega, htemplate⟩
  · intro scope hsame m hm origin index offset htarget
    have hresolve := resolve_tpoff hsame hfold hm (hindexed m hm) htarget
    refine ⟨fun hlarge => by rw [hresolve, if_pos hlarge], fun hsmall => ⟨_, by rw [hresolve, if_neg (by omega)], ?_⟩⟩
    exact tpoff_mod (hsound.block hat hm).distance (hsound.modules.placed m hm).below.limit

namespace TlsFixture

def template : Template := ⟨0, 0, 8, 8, 0⟩

def plan : Plan := ⟨[some template], ⟨64, 8, 8⟩⟩

def block : Module := ⟨0, template, 8⟩

def read : ℕ → ℕ → Except Unit (List UInt8) := fun _ size => .ok (replicate size 7)

def write : ℕ → List UInt8 → Except Unit Unit := fun _ _ => .ok ()

theorem forM_returns {α : Type} {f : α → Init Unit Unit} (h : ∀ a w, ∃ w', f a w = (.value (), w')) (l : List α)
    (w : List Patch) : ∃ w', l.forM f w = (.value (), w') := by
  induction l generalizing w with
  | nil => exact ⟨w, rfl⟩
  | cons a l ih =>
    obtain ⟨w₁, h₁⟩ := h a w
    obtain ⟨w₂, h₂⟩ := ih w₁
    exact ⟨w₂, (bind_of_value h₁).trans h₂⟩

theorem initialized {plan : Plan} {base size : ℕ} {placed : Placement} (hplace : plan.layout.place base = some placed)
    (hsize : ¬ (size < plan.layout.mappingSize ∨ base + size ≥ wordLimit)) :
    plan.initializeZeroed read write base size [] =
      (.value placed.threadPointer, plan.patches read placed.threadPointer) := by
  obtain ⟨w₁, h₁⟩ : ∃ w₁, plan.modules.forM (copyModule read write placed.threadPointer) [] = (.value (), w₁) :=
    forM_returns (fun m w => forM_returns (fun piece w => ⟨_, rfl⟩) _ w) _ _
  obtain ⟨w₂, h₂⟩ := forM_returns (fun m w => ⟨_, rfl⟩) plan.modules _
  have hinstall : plan.install read write placed.threadPointer [] = (.value (), _) :=
    (bind_of_value h₁).trans ((bind_of_value rfl).trans ((bind_of_value h₂).trans rfl))
  have hplaced (w : List Patch) : (Eff.lift (Outcome.okOr (plan.layout.place base) .invalidMapping) : Init Unit _) w =
      (.value placed, w) := by
    rw [hplace]
    rfl
  have hsized (w : List Patch) : (Eff.lift (Outcome.reject (size < plan.layout.mappingSize ∨ base + size ≥ wordLimit)
      .invalidMapping) : Init Unit _) w = (.value (), w) := Prod.ext (if_neg hsize) rfl
  have hrun : plan.initializeZeroed read write base size [] = (.value placed.threadPointer, _) :=
    (bind_of_value (hsized _)).trans ((bind_of_value (hplaced _)).trans (bind_of_value hinstall))
  rw [hrun, (plan.initializeZeroed_eq read _ hrun).2.2.2]

/-- Two modules with initialized bytes; the second one lies at an odd address. -/
def modules : List Template := [⟨16, 2, 8, 8, 0⟩, ⟨33, 3, 5, 4, 1⟩]

def pair : Plan := ⟨modules.map some, ⟨128, 8, 15⟩⟩

/-- An object whose headers load its first bytes and describe the template. -/
def object (t : Template) : Pie.Object :=
  ⟨[], ⟨List.replicate 32 0 ++ toLe 8 64 ++ List.replicate 24 0 ++ (Pie.Segment.mk 1 4 0 0 64 64 8).header ++
    (Pie.Segment.mk 7 4 t.source t.source t.fileSize t.memorySize t.alignment).header, 2, 0, 0, 0, 0, 0, 0,
    0, 0, none, none, true, false, ⟨0, 0, ⟨0, 0⟩, ⟨0, 0⟩, ⟨0, 0⟩⟩, false⟩, 0⟩

theorem objects_describe : List.Forall₂ Describes (modules.map object) pair.templates := by
  refine .cons ⟨_, ?_, .some ⟨rfl, rfl, rfl, rfl⟩⟩ (.cons ⟨_, ?_, .some ⟨rfl, rfl, rfl, rfl⟩⟩ .nil)
  all_goals decide +kernel

theorem linker_and_runtime_agree_pair : (pair.regions 80).Pairwise (Apart Prod.fst Prod.snd) ∧
    Dtv.address (mappingAfter 64 128 (pair.patches read 80)) 64 80 2 4 = some 69 ∧
    ∃ v, (Pie.Scope.mk (modules.map object) [0, 1]).resolve 1 0 18 = .ok v ∧ (80 + v) % 2 ^ 64 = 65 := by
  have hplan : Plan.new (modules.map some) 64 = some pair := by rfl
  have hplace : pair.layout.place 64 = some ⟨65, 80⟩ := by rfl
  have hsize : ¬ (128 < pair.layout.mappingSize ∨ 64 + 128 ≥ wordLimit) := by decide
  obtain ⟨-, -, happart, -, -, haddress, hresolve⟩ := linker_and_runtime_agree hplan (initialized hplace hsize)
  have hblock : (⟨1, ⟨33, 3, 5, 4, 1⟩, 15⟩ : Module) ∈ pair.modules := mem_cons_of_mem _ (mem_singleton.2 rfl)
  refine ⟨happart, (haddress _ hblock 4).trans rfl, ?_⟩
  exact (hresolve ⟨_, [0, 1]⟩ objects_describe _ hblock 1 0 0 rfl).2 (by decide)

theorem plan_new : Plan.new [some template] 64 = some plan := by rfl

theorem plan_patches (threadPointer : ℕ) : plan.patches read threadPointer = plan.upperPatches threadPointer := by
  rw [patches, show plan.modules = [block] from rfl, flatMap_cons, dataPatches,
    show block.template.fileSize = 0 from rfl, Pieces.pieces, if_neg (by simp)]
  rfl

theorem initialized_at {base : ℕ} (h : base = 0 ∨ base = 64) :
    plan.initializeZeroed read write base 64 [] = (.value (base + 8), plan.upperPatches (base + 8)) := by
  rw [← plan_patches]
  rcases h with rfl | rfl
  · exact initialized (show plan.layout.place 0 = some ⟨0, 8⟩ from rfl) (by decide)
  · exact initialized (show plan.layout.place 64 = some ⟨64, 72⟩ from rfl) (by decide)

/-- The runtime gives an address for the offset one past the block, and none in a block at address zero. -/
theorem dtv_address_end_and_null : Plan.new [some template] 64 = some plan ∧ block ∈ plan.modules ∧
    plan.initializeZeroed read write 64 64 [] = (.value 72, plan.upperPatches 72) ∧
    Dtv.address (mappingAfter 64 64 (plan.upperPatches 72)) 64 72 1 8 = some 72 ∧ ¬ 8 < block.template.memorySize ∧
    plan.initializeZeroed read write 0 64 [] = (.value 8, plan.upperPatches 8) ∧
    Dtv.address (mappingAfter 0 64 (plan.upperPatches 8)) 0 8 1 4 = none ∧ 4 < block.template.memorySize :=
  ⟨plan_new, mem_singleton.2 rfl, initialized_at (.inr rfl), by decide, by decide, initialized_at (.inl rfl),
    by decide, by decide⟩

end TlsFixture

end MochiSyscalls.PosixClient.StaticTls
