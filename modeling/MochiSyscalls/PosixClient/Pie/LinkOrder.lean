import MochiSyscalls.PosixClient.Pie.LinkScope
import MochiSyscalls.Foundations.BreadthFirst
import MochiSyscalls.Foundations.DepthFirst

/-! # The orders of a link scope

The dependency graph of a scope has its objects as nodes and the objects that satisfy their `DT_NEEDED` names as
successors. The search order is the breadth-first order of that graph, and the plan of initialization its depth-first
postorder. -/

namespace MochiSyscalls.PosixClient.Pie
open Foundations Checked Loops Effects Emissions BreadthFirst List
  Relation
set_option autoImplicit false

def neededNames (image : Pie) : List (List UInt8) := Streams.values image.dependencyItems

/-- The dependency graph: the objects that satisfy the names an object needs, in their order. -/
def needed (objects : List Object) (index : ℕ) : List ℕ :=
  match objects[index]? with
  | some object => (neededNames object.image).filterMap (position objects)
  | none => []

/-- An object whose dependencies can be enumerated and are all among the objects. -/
structure Linked (objects : List Object) (index : ℕ) (object : Object) : Prop where
  found : objects[index]? = some object
  enumerated : object.image.dependencyItems = (neededNames object.image).map .ok
  supplied : ∀ name ∈ neededNames object.image, (position objects name).isSome

theorem position_lt {objects : List Object} {name : List UInt8} {index : ℕ} (h : position objects name = some index) :
    index < objects.length := by
  obtain ⟨hlt, -⟩ := findIdx?_eq_some_iff_findIdx_eq.1 h
  exact hlt

variable {v : ℕ}

theorem needed_lt {objects : List Object} {w : ℕ} (h : w ∈ needed objects v) : w < objects.length := by
  unfold needed at h
  split at h
  · obtain ⟨name, -, hname⟩ := mem_filterMap.1 h
    exact position_lt hname
  · cases h

section

variable {objects : List Object} {index : ℕ} {object : Object} (h : Linked objects index object)
include h

theorem Linked.lt : index < objects.length := (List.getElem?_eq_some_iff.1 h.found).1

theorem Linked.needed_eq : needed objects index = (neededNames object.image).filterMap (position objects) := by
  unfold needed
  rw [h.found]

end

/-! ## Breadth-first search order -/

variable {capacity : ℕ}

section

variable {objects : List Object}

theorem discover_names {names : List (List UInt8)} {order order' : List ℕ}
    (h : names.foldlM (discover objects capacity) order = .ok order') :
    (∀ name ∈ names, (position objects name).isSome) ∧
      order' = order ++ fresh order (names.filterMap (position objects)) := by
  induction names generalizing order with
  | nil =>
    cases h
    exact ⟨nofun, by simp [fresh]⟩
  | cons name names ih =>
    rw [foldlM_cons] at h
    obtain ⟨order₁, hname, hrest⟩ := bind_eq_ok.1 h
    obtain ⟨index, hindex, hadd⟩ := bind_eq_ok.1 hname
    rw [okOr_eq_ok] at hindex
    obtain ⟨hsome, heq⟩ := ih hrest
    refine ⟨forall_mem_cons.2 ⟨by rw [hindex]; rfl, hsome⟩, ?_⟩
    rw [filterMap_cons, hindex, heq, fresh]
    split at hadd
    next hin =>
      cases hadd
      rw [if_pos hin]
    next hout =>
      obtain ⟨_, _, hadd⟩ := bind_eq_ok.1 hadd
      cases hadd
      rw [if_neg hout, append_assoc, singleton_append]

theorem breadthFirst_again {s s' : List ℕ × ℕ} (h : (breadthFirst objects capacity).body s = .ok (.again s')) :
    ∃ v object, s.1[s.2]? = some v ∧ Linked objects v object ∧ s' = (s.1 ++ fresh s.1 (needed objects v), s.2 + 1) := by
  simp only [breadthFirst] at h
  split at h
  · simp only [bind_eq_ok] at h
    obtain ⟨_, _, v, hv, object, hobject, order, horder, h⟩ := h
    cases h
    rw [okOr_eq_ok] at hv hobject
    obtain ⟨names, hitems, hfold⟩ := Streams.consume_eq_ok.1 horder
    have hnames : neededNames object.image = names := by rw [neededNames, hitems, Streams.values_map_ok]
    obtain ⟨hsome, heq⟩ := discover_names hfold
    have hlinked : Linked objects v object := ⟨hobject, by rw [hnames, hitems], by rwa [hnames]⟩
    exact ⟨v, object, hv, hlinked, by rw [hlinked.needed_eq, hnames, heq]⟩
  · cases h

theorem breadthFirst_done {s : List ℕ × ℕ} {order : List ℕ}
    (h : (breadthFirst objects capacity).body s = .ok (.done order)) : s.1.length ≤ s.2 ∧ order = s.1 := by
  simp only [breadthFirst] at h
  split at h
  · iterate 4 obtain ⟨_, _, h⟩ := bind_eq_ok.1 h
    cases h
  next hlt =>
    cases h
    exact ⟨Nat.le_of_not_lt hlt, rfl⟩

theorem breadthFirst_run (s : List ℕ × ℕ) {result : List ℕ} (h : (breadthFirst objects capacity).run s = .ok result) :
    Search (needed objects) s.1 s.2 result ∧
      ∀ i v, s.2 ≤ i → result[i]? = some v → ∃ object, Linked objects v object := by
  induction s using (breadthFirst objects capacity).pass_induction with
  | h s ih =>
    rw [Loop.run_eq] at h
    split at h
    · cases h
    next order hbody =>
      cases h
      obtain ⟨hlen, rfl⟩ := breadthFirst_done hbody
      refine ⟨.done hlen, fun i v hi hv => ?_⟩
      rw [getElem?_eq_none (by omega)] at hv
      cases hv
    next s' hbody =>
      obtain ⟨v, object, hv, hlinked, hs'⟩ := breadthFirst_again hbody
      obtain ⟨hsearch, hall⟩ := ih s' hbody h
      rw [hs'] at hsearch hall
      have hvisit : Search (needed objects) s.1 s.2 result := .visit hv hsearch
      refine ⟨hvisit, fun i w hi hw => ?_⟩
      rcases Nat.eq_or_lt_of_le hi with rfl | hlt
      · obtain ⟨rest, rfl⟩ := hvisit.grows
        rw [List.getElem?_append_left (List.getElem?_eq_some_iff.1 hv).1, hv] at hw
        exact ⟨object, Option.some.inj hw ▸ hlinked⟩
      · exact hall i w hlt hw

end

/-! ## What a scope is made of -/

structure Scope.Built (scope : Scope) : Prop where
  search : Search (needed scope.objects) [0] 0 scope.order
  linked : ∀ v ∈ scope.order, ∃ object, Linked scope.objects v object
  complete : scope.order.length = scope.objects.length

variable {scratch : ℕ}

theorem Scope.built_of_new {objects : List Object} {scope : Scope} (h : Scope.new objects scratch = .ok scope) :
    scope.objects = objects ∧ scope.Built := by
  simp only [Scope.new, bind_eq_ok] at h
  obtain ⟨root, _, _, _, _, _, order, horder, _, hlen, _, _, _, _, h⟩ := h
  cases h
  obtain ⟨hsearch, hall⟩ := breadthFirst_run ([0], 0) horder
  refine ⟨rfl, hsearch, fun v hv => ?_, not_not.1 (reject_eq_ok.1 hlen)⟩
  obtain ⟨i, hi⟩ := mem_iff_getElem?.1 hv
  exact hall i v (Nat.zero_le i) hi

namespace Scope.Built

variable {scope : Scope} (h : scope.Built)

include h

theorem levels : ∃ k, level (needed scope.objects) 0 k = [] ∧ scope.order = before (needed scope.objects) 0 k :=
  h.search.eq_levels

theorem nodup : scope.order.Nodup := by
  obtain ⟨k, hk, heq⟩ := h.levels
  have hnodup := before_nodup (needed scope.objects) 0 k
  rwa [hk, append_nil, ← heq] at hnodup

theorem head : scope.order.head? = some 0 := by
  obtain ⟨rest, hrest⟩ := h.search.grows
  rw [← hrest]
  rfl

theorem mem_order_lt (hv : v ∈ scope.order) : v < scope.objects.length := by
  obtain ⟨object, hlinked⟩ := h.linked v hv
  exact hlinked.lt

theorem perm : scope.order.Perm (List.range scope.objects.length) := by
  have hsub : scope.order ⊆ range scope.objects.length := fun v hv => mem_range.2 (h.mem_order_lt hv)
  exact (h.nodup.subperm hsub).perm_of_length_le (by rw [length_range, h.complete])

theorem linked_of_lt (hv : v < scope.objects.length) : ∃ object, Linked scope.objects v object :=
  h.linked v (h.perm.mem_iff.2 (mem_range.2 hv))

theorem root_lt : 0 < scope.objects.length := h.mem_order_lt (List.mem_of_head? h.head)

theorem reachable_iff : ReflTransGen (DepthFirst.Edge (needed scope.objects)) 0 v ↔ v < scope.objects.length := by
  constructor
  · intro hreach
    cases hreach with
    | refl => exact h.root_lt
    | tail _ hedge => exact needed_lt hedge
  · intro hv
    obtain ⟨k, -, heq⟩ := h.levels
    have hmem : v ∈ before (needed scope.objects) 0 k := heq ▸ h.perm.mem_iff.2 (mem_range.2 hv)
    obtain ⟨j, -, hlevel⟩ := (mem_before _ _).1 hmem
    exact ((mem_level _ _).1 hlevel).1.reachable

end Scope.Built

/-! ## Depth-first plans -/

theorem Scope.selectOrdinal_fold {scope : Scope} {next : ℕ} {names : List (List UInt8)} (found : Option ℕ) (ordinal : ℕ)
    (h : ∀ name ∈ names, (position scope.objects name).isSome) :
    names.foldlM (scope.selectOrdinal next) (found, ordinal) =
      .ok (if next < ordinal then found else ((names.filterMap (position scope.objects))[next - ordinal]?).or found,
        ordinal + names.length) := by
  induction names generalizing found ordinal with
  | nil => simp [pure, Except.pure]
  | cons name names ih =>
    obtain ⟨hname, hrest⟩ := forall_mem_cons.1 h
    obtain ⟨index, hindex⟩ := Option.isSome_iff_exists.1 hname
    have hstep : scope.selectOrdinal next (found, ordinal) name =
        .ok (if ordinal = next then some index else found, ordinal + 1) := by
      unfold Scope.selectOrdinal
      rw [hindex]
      split <;> rfl
    have hbind : ∀ s : Option ℕ × ℕ, (Except.ok s >>= fun s' => names.foldlM (scope.selectOrdinal next) s') =
        names.foldlM (scope.selectOrdinal next) s := fun _ => rfl
    rw [foldlM_cons, hstep, hbind, ih _ _ hrest, filterMap_cons, hindex, length_cons,
      Nat.add_assoc, Nat.add_comm 1]
    congr 2
    rcases Nat.lt_trichotomy next ordinal with hlt | rfl | hgt
    · rw [if_pos (by omega), if_pos hlt, if_neg (by omega)]
    · rw [if_pos (Nat.lt_succ_self _), if_pos rfl, if_neg (Nat.lt_irrefl _), Nat.sub_self]
      rfl
    · rw [if_neg (by omega), if_neg (by omega), if_neg (by omega), show next - ordinal = next - (ordinal + 1) + 1 by omega,
        getElem?_cons_succ]

theorem Linked.dependency_eq {scope : Scope} {object : Object} (h : Linked scope.objects v object) (next : ℕ) :
    scope.dependency object.image next = .ok (needed scope.objects v)[next]? := by
  unfold Scope.dependency Pie.dependencies
  rw [h.enumerated, Streams.consume_map_ok, Scope.selectOrdinal_fold none 0 h.supplied, h.needed_eq]
  simp [bind, Except.bind, pure, Except.pure]

/-! ### The passes of the walk -/

section Passes

variable {scope : Scope} {room object next : ℕ} {w : Walk} {below : List (ℕ × ℕ)} {member : Object}
  (hframes : w.frames = (object, next) :: below) (hlinked : Linked scope.objects object member)

include hframes hlinked

theorem lifecycleStep_leave (hdep : (needed scope.objects object)[next]? = none) (hobject : object < w.states.length)
    (horder : w.order.length < room) :
    scope.lifecycleStep room w = .ok (.again ⟨w.states.set object 2, below, w.order ++ [object]⟩) := by
  unfold Scope.lifecycleStep
  rw [hframes]
  simp only [hlinked.found, Option.map_some, okOr, bind, Except.bind, hlinked.dependency_eq, hdep, reject,
    if_neg (Nat.not_le_of_lt hobject), if_neg (Nat.not_le_of_lt horder), ge_iff_le, pure, Except.pure]

theorem lifecycleStep_skip {dep state : ℕ} (hdep : (needed scope.objects object)[next]? = some dep)
    (hstate : w.states[dep]? = some state) (hseen : state ≠ 0) :
    scope.lifecycleStep room w = .ok (.again ⟨w.states, (object, next + 1) :: below, w.order⟩) := by
  unfold Scope.lifecycleStep
  rw [hframes]
  simp only [hlinked.found, Option.map_some, okOr, bind, Except.bind, hlinked.dependency_eq, hdep, hstate, if_neg hseen,
    pure, Except.pure]

theorem lifecycleStep_enter {dep : ℕ} (hdep : (needed scope.objects object)[next]? = some dep)
    (hstate : w.states[dep]? = some 0) (hdepth : w.frames.length < scope.objects.length) :
    scope.lifecycleStep room w =
      .ok (.again ⟨w.states.set dep 1, (dep, 0) :: (object, next + 1) :: below, w.order⟩) := by
  rw [hframes] at hdepth
  unfold Scope.lifecycleStep
  rw [hframes]
  simp only [hlinked.found, Option.map_some, okOr, bind, Except.bind, hlinked.dependency_eq, hdep, hstate, if_true, reject,
    ge_iff_le, if_neg (Nat.not_le_of_lt hdepth), pure, Except.pure]

end Passes

/-- The scratch space of a walk holds the state of a depth-first search. -/
structure Holds (scope : Scope) (w : Walk) (s : DepthFirst.State ℕ) : Prop where
  frames : s.stack = w.frames.map fun frame => (frame.1, (needed scope.objects frame.1).drop frame.2)
  order : s.finished = w.order
  length : w.states.length = scope.objects.length
  states : ∀ v < scope.objects.length, w.states[v]? = some 0 ↔ ¬ s.Seen v

section Walk

variable {scope : Scope} (h : scope.Built) {w : Walk} {s : DepthFirst.State ℕ} (hw : Holds scope w s)
  (hs : DepthFirst.Inv (needed scope.objects) 0 s)

include h hs

theorem seen_lt (hv : s.Seen v) : v < scope.objects.length := h.reachable_iff.1 (hs.reached v hv)

theorem seen_length : s.nodes.length + s.finished.length ≤ scope.objects.length := by
  have hsub : s.nodes ++ s.finished ⊆ range scope.objects.length :=
    fun v hv => mem_range.2 (seen_lt h hs (mem_append.1 hv))
  have hle := (hs.nodup.subperm hsub).length_le
  rwa [length_append, length_range] at hle

theorem seen_length_lt (hv : v < scope.objects.length) (hnew : ¬ s.Seen v) :
    s.nodes.length + s.finished.length < scope.objects.length := by
  have hnodup : (v :: (s.nodes ++ s.finished)).Nodup :=
    nodup_cons.2 ⟨fun hmem => hnew (mem_append.1 hmem), hs.nodup⟩
  have hsub : v :: (s.nodes ++ s.finished) ⊆ range scope.objects.length := by
    intro x hx
    rcases mem_cons.1 hx with rfl | hx
    · exact mem_range.2 hv
    · exact mem_range.2 (seen_lt h hs (mem_append.1 hx))
  have hle := (hnodup.subperm hsub).length_le
  rw [length_cons, length_append, length_range] at hle
  omega

theorem finished_perm (hempty : s.stack = []) : s.finished.Perm (List.range scope.objects.length) := by
  obtain ⟨stack, finished⟩ := s
  cases hempty
  have hnodup : finished.Nodup := by simpa [DepthFirst.State.nodes] using hs.nodup
  refine (perm_ext_iff_of_nodup hnodup nodup_range).2 fun v => ?_
  rw [hs.reachable_finished, h.reachable_iff, mem_range]

include hw

/-- **One pass of the walk is one step of the search**, and stays inside the scratch space. -/
theorem lifecycleStep_cons {room : ℕ} (hroom : scope.objects.length ≤ room) {object next : ℕ} {below : List (ℕ × ℕ)}
    (hframes : w.frames = (object, next) :: below) :
    ∃ w' s', scope.lifecycleStep room w = .ok (.again w') ∧ DepthFirst.Step (needed scope.objects) s s' ∧
      Holds scope w' s' := by
  obtain ⟨stack, finished⟩ := s
  obtain ⟨hstack, horder, hlength, hstates⟩ := hw
  simp only at hstack horder
  subst horder
  rw [hframes, map_cons] at hstack
  simp only at hstack
  subst hstack
  have hobject : object < scope.objects.length := seen_lt h hs (.inl mem_cons_self)
  obtain ⟨member, hlinked⟩ := h.linked_of_lt hobject
  cases hdep : (needed scope.objects object)[next]? with
  | none =>
    have hrest : (needed scope.objects object).drop next = [] := drop_eq_nil_of_le (getElem?_eq_none_iff.1 hdep)
    have hwritten : w.order.length < room := by
      have hle := seen_length h hs
      rw [DepthFirst.State.nodes, map_cons, length_cons] at hle
      simp only at hle
      omega
    rw [hrest] at hs hstates ⊢
    refine ⟨_, _, lifecycleStep_leave hframes hlinked hdep (hlength ▸ hobject) hwritten, .finish, rfl, rfl,
      by rw [length_set, hlength], fun v hv => ?_⟩
    have hsame : DepthFirst.State.Seen ⟨below.map fun frame => (frame.1, (needed scope.objects frame.1).drop frame.2),
        w.order ++ [object]⟩ v ↔ DepthFirst.State.Seen ⟨(object, []) ::
          below.map fun frame => (frame.1, (needed scope.objects frame.1).drop frame.2), w.order⟩ v := by
      simp only [DepthFirst.State.Seen, DepthFirst.State.nodes, map_cons, mem_cons, mem_append]
      tauto
    rw [hsame, ← hstates v hv]
    by_cases hvo : v = object
    · subst hvo
      have hnot : ¬ w.states[v]? = some 0 := fun hz => (hstates v hv).1 hz (.inl mem_cons_self)
      rw [getElem?_set_self (hlength ▸ hv)]
      exact iff_of_false (by simp) hnot
    · rw [getElem?_set_ne (Ne.symm hvo)]
  | some dep =>
    obtain ⟨hnext, hget⟩ := List.getElem?_eq_some_iff.1 hdep
    have hrest : (needed scope.objects object).drop next = dep :: (needed scope.objects object).drop (next + 1) := by
      rw [List.drop_eq_getElem_cons hnext, hget]
    have hdeplt : dep < scope.objects.length := needed_lt (List.mem_of_getElem? hdep)
    obtain ⟨state, hstate⟩ : ∃ state, w.states[dep]? = some state :=
      ⟨_, getElem?_eq_getElem (hlength ▸ hdeplt)⟩
    by_cases hzero : state = 0
    · subst hzero
      have hnew := (hstates dep hdeplt).1 hstate
      have hdepth : w.frames.length < scope.objects.length := by
        have hlt := seen_length_lt h hs hdeplt hnew
        rw [DepthFirst.State.nodes, List.map_cons, List.map_map, List.length_cons, List.length_map] at hlt
        rw [hframes, List.length_cons]
        omega
      rw [hrest] at hs hstates hnew ⊢
      refine ⟨_, _, lifecycleStep_enter hframes hlinked hdep hstate hdepth, .push hnew, by simp, rfl,
        by rw [length_set, hlength], fun v hv => ?_⟩
      by_cases hvd : v = dep
      · subst hvd
        rw [getElem?_set_self (hlength ▸ hv)]
        exact iff_of_false (by simp) (not_not_intro (.inl mem_cons_self))
      · rw [getElem?_set_ne (Ne.symm hvd), hstates v hv]
        simp only [DepthFirst.State.Seen, DepthFirst.State.nodes, map_cons, mem_cons, hvd, false_or]
    · have hold : DepthFirst.State.Seen _ dep := not_not.1 fun hnew => hzero (Option.some.inj (hstate.symm.trans
        ((hstates dep hdeplt).2 hnew)))
      rw [hrest] at hs hstates hold ⊢
      exact ⟨_, _, lifecycleStep_skip hframes hlinked hdep hstate hzero, .skip hold, rfl, rfl, hlength, hstates⟩

end Walk

theorem lifecycleStep_nil {scope : Scope} {w : Walk} (hframes : w.frames = [])
    (hcount : w.order.length = scope.objects.length) (room : ℕ) : scope.lifecycleStep room w = .ok (.done w.order) := by
  unfold Scope.lifecycleStep
  rw [hframes]
  simp only [reject, ne_eq, hcount, not_true_eq_false, if_false]
  rfl

theorem lifecycle_walk {scope : Scope} (h : scope.Built) {room : ℕ} (hroom : scope.objects.length ≤ room) (left : ℕ)
    {w : Walk} {s : DepthFirst.State ℕ} (hw : Holds scope w s) (hs : DepthFirst.Inv (needed scope.objects) 0 s)
    (hleft : DepthFirst.remaining (needed scope.objects) (Finset.range scope.objects.length) s = left) :
    ∃ order, (∀ passes > left, runFor (scope.lifecycleStep room) passes w = some (.ok order)) ∧
      DepthFirst.Inv (needed scope.objects) 0 ⟨[], order⟩ := by
  -- on the steps the search has left
  induction left using Nat.strong_induction_on generalizing w s with
  | _ left ih =>
    cases hframes : w.frames with
    | nil =>
      have hempty : s.stack = [] := by rw [hw.frames, hframes]; rfl
      have hcount : w.order.length = scope.objects.length := by
        rw [← hw.order, (finished_perm h hs hempty).length_eq, length_range]
      refine ⟨w.order, fun passes hpasses => ?_, by rw [← hw.order, ← hempty]; exact hs⟩
      obtain ⟨passes, rfl⟩ := Nat.exists_eq_succ_of_ne_zero (Nat.ne_of_gt (Nat.zero_lt_of_lt hpasses))
      rw [runFor, lifecycleStep_nil hframes hcount]
    | cons frame below =>
      obtain ⟨object, next⟩ := frame
      obtain ⟨w', s', hstep, hsearch, hw'⟩ := lifecycleStep_cons h hw hs hroom hframes
      have hless : DepthFirst.remaining (needed scope.objects) (Finset.range scope.objects.length) s =
          DepthFirst.remaining (needed scope.objects) (Finset.range scope.objects.length) s' + 1 :=
        hs.remaining_step (fun v hv => Finset.mem_range.2 (h.reachable_iff.1 hv)) hsearch
      obtain ⟨order, hrun, hinv⟩ := ih _ (by omega) hw' (hs.step hsearch) rfl
      refine ⟨order, fun passes hpasses => ?_, hinv⟩
      obtain ⟨passes, rfl⟩ := Nat.exists_eq_succ_of_ne_zero (Nat.ne_of_gt (Nat.zero_lt_of_lt hpasses))
      rw [runFor, hstep]
      exact hrun passes (by omega)

theorem holds_start {scope : Scope} (h : scope.Built) :
    Holds scope ⟨(List.replicate scope.objects.length 0).set 0 1, [(0, 0)], []⟩
      (DepthFirst.start (needed scope.objects) 0) where
  frames := rfl
  order := rfl
  length := by rw [length_set, length_replicate]
  states v hv := by
    have hlen : (replicate scope.objects.length 0).length = scope.objects.length := length_replicate
    have hseen : (DepthFirst.start (needed scope.objects) 0).Seen v ↔ v = 0 := by
      simp [DepthFirst.start, DepthFirst.State.Seen, DepthFirst.State.nodes]
    rw [hseen]
    by_cases hz : v = 0
    · subst hz
      rw [getElem?_set_self (by rw [hlen]; exact h.root_lt)]
      simp
    · rw [getElem?_set_ne (Ne.symm hz), getElem?_replicate, if_pos hv]
      exact iff_of_true rfl hz

/-! ## The calls of a plan -/

namespace Plan

variable (plan : Plan)

def functionSteps (object : Object) (index address : ℕ) : List Step :=
  if address ≠ 0 then [.function index (address + object.bias)] else []

def arraySteps (object : Object) (index : ℕ) (array : Array) (reverse : Bool) : List Step :=
  if array.count ≠ 0 then [.array index (array.address + object.bias) array.count reverse] else []

def initSteps (index : ℕ) : List Step :=
  match plan.scope.objects[index]? with
  | some object => functionSteps object index object.image.lifecycle.init ++
      arraySteps object index object.image.lifecycle.initArray false
  | none => []

def finiSteps (index : ℕ) : List Step :=
  match plan.scope.objects[index]? with
  | some object => arraySteps object index object.image.lifecycle.finiArray true ++
      functionSteps object index object.image.lifecycle.fini
  | none => []

def preinitSteps : List Step :=
  match plan.scope.objects[0]? with
  | some object => arraySteps object 0 object.image.lifecycle.preinit false
  | none => []

variable {plan} {index : ℕ} {object : Object} (h : plan.scope.objects[index]? = some object)

include h

theorem object_bind {steps : List Step} {f : Object → Emit Unit} (hf : Emits (f object) steps) :
    Emits (plan.object index >>= f) steps := by
  refine Emits.lift (by rw [h]; nofun) fun a ha => ?_
  rw [h] at ha
  cases ha
  exact hf

theorem function_emits (address : ℕ) : Emits (plan.function index address) (functionSteps object index address) := by
  unfold function functionSteps
  split
  · refine object_bind h (Emits.lift ?_ fun a ha => ?_)
    · split <;> nofun
    · split at ha
      · cases ha
        exact Emits.emit _
      · cases ha
  · exact Emits.pure ()

theorem array_emits (array : Array) (reverse : Bool) :
    Emits (plan.array index array reverse) (arraySteps object index array reverse) := by
  unfold Plan.array arraySteps
  split
  · refine object_bind h (Emits.lift ?_ fun a ha => ?_)
    · split <;> nofun
    · split at ha
      · cases ha
        exact Emits.emit _
      · cases ha
  · exact Emits.pure ()

theorem visitInit_emits : Emits (plan.visitInit index) (plan.initSteps index) := by
  unfold visitInit initSteps
  rw [h]
  exact object_bind h ((function_emits h _).bind fun _ => array_emits h _ _)

theorem visitFini_emits : Emits (plan.visitFini index) (plan.finiSteps index) := by
  unfold visitFini finiSteps
  rw [h]
  exact object_bind h ((array_emits h _ _).bind fun _ => function_emits h _)

end Plan

theorem Plan.emits {plan : Plan} (hroot : 0 < plan.scope.objects.length)
    (horder : ∀ v ∈ plan.order, v < plan.scope.objects.length) :
    Emits plan.initializers (plan.preinitSteps ++ plan.order.flatMap plan.initSteps) ∧
      Emits plan.finalizers (plan.order.reverse.flatMap plan.finiSteps) := by
  constructor
  · have hobject := getElem?_eq_getElem hroot
    unfold initializers preinitSteps
    rw [hobject]
    refine Plan.object_bind hobject ((array_emits hobject _ _).bind fun _ => Emits.forM fun v hv => ?_)
    exact visitInit_emits (getElem?_eq_getElem (horder v hv))
  · refine Emits.forM fun v hv => ?_
    exact visitFini_emits (getElem?_eq_getElem (horder v (mem_reverse.1 hv)))

/-! ## The whole -/

/-- A plan of a scope: all objects, the root last, without cycles dependencies first, finalizers in reverse. -/
structure Plan.Ordered (plan : Plan) (objects : List Object) : Prop where
  perm : plan.order.Perm (List.range objects.length)
  last : plan.order.getLast? = some 0
  topological : DepthFirst.Acyclic (needed objects) →
    ∀ front v rest, plan.order = front ++ v :: rest → ∀ w ∈ needed objects v, w ∈ front
  initializers : Emits plan.initializers (plan.preinitSteps ++ plan.order.flatMap plan.initSteps)
  finalizers : Emits plan.finalizers (plan.order.reverse.flatMap plan.finiSteps)

def Scope.Plannable (scope : Scope) (scratch : ℕ) : Prop :=
  4 * scope.objects.length < wordLimit ∧ 4 * scope.objects.length ≤ scratch ∧
    ∀ object ∈ scope.objects.drop 1, object.image.lifecycle.preinit.count = 0

theorem Scope.Built.plan {scope : Scope} (h : scope.Built) (hplan : scope.Plannable scratch) :
    ∃ plan bound, (∀ passes > bound, scope.lifecycle scratch passes = some (.ok plan)) ∧ plan.Ordered scope.objects := by
  obtain ⟨hlimit, hscratch, hpreinit⟩ := hplan
  have hroom : scope.objects.length ≤ scratch - 3 * scope.objects.length := by omega
  obtain ⟨order, hrun, hinv⟩ := lifecycle_walk h hroom _ (holds_start h) DepthFirst.inv_start rfl
  have hnone : (scope.objects.drop 1).any (fun object => object.image.lifecycle.preinit.count ≠ 0) = false := by
    simpa using hpreinit
  have hperm := finished_perm h hinv rfl
  refine ⟨⟨scope, order⟩, DepthFirst.remaining (needed scope.objects) (Finset.range scope.objects.length)
    (DepthFirst.start (needed scope.objects) 0), fun passes hpasses => ?_, ?_⟩
  · unfold Scope.lifecycle
    rw [if_neg (by omega), if_neg (by omega), if_neg (by rw [hnone]; exact Bool.false_ne_true), hrun passes hpasses]
    rfl
  · have hemits := @Plan.emits ⟨scope, order⟩ h.root_lt fun v hv => mem_range.1 (hperm.mem_iff.1 hv)
    refine ⟨hperm, ?_, hinv.ordered, hemits.1, hemits.2⟩
    exact hinv.bottom.elim nofun fun hb => hb.2

theorem Scope.lifecycle_refused {scope : Scope} (hplan : ¬ scope.Plannable scratch) :
    ∃ e, ∀ passes, scope.lifecycle scratch passes = some (.error (.returned e)) := by
  unfold Scope.lifecycle
  by_cases hlimit : 4 * scope.objects.length ≥ wordLimit
  · exact ⟨_, fun _ => if_pos hlimit⟩
  by_cases hscratch : scratch < 4 * scope.objects.length
  · exact ⟨_, fun _ => by rw [if_neg hlimit, if_pos hscratch]⟩
  have hpreinit : (scope.objects.drop 1).any (fun object => object.image.lifecycle.preinit.count ≠ 0) = true := by
    by_contra hnone
    refine hplan ⟨by omega, by omega, ?_⟩
    simpa using hnone
  exact ⟨_, fun _ => by rw [if_neg hlimit, if_neg hscratch, if_pos hpreinit]⟩

/-- **Link orders.** The search order is breadth-first. A walk for a plan always ends inside its scratch space; unless
it refuses the scope, it gives all objects, the root last, without cycles dependencies first, and finalizers in reverse. -/
theorem link_orders_correct {objects : List Object} {scratch : ℕ} {scope : Scope}
    (h : Scope.new objects scratch = .ok scope) :
    (scope.order.Nodup ∧ scope.order.Perm (List.range objects.length) ∧ scope.order.head? = some 0 ∧
      ∃ k, level (needed objects) 0 k = [] ∧ scope.order = before (needed objects) 0 k) ∧
    ∀ words, ∃ result bound, (∀ passes > bound, scope.lifecycle words passes = some result) ∧
      result ≠ .error .panicked ∧ (scope.Plannable words → ∃ plan, result = .ok plan) ∧
      ∀ plan, result = .ok plan → plan.Ordered objects := by
  obtain ⟨rfl, hbuilt⟩ := Scope.built_of_new h
  refine ⟨⟨hbuilt.nodup, hbuilt.perm, hbuilt.head, hbuilt.levels⟩, fun words => ?_⟩
  by_cases hplan : scope.Plannable words
  · obtain ⟨plan, bound, hrun, hordered⟩ := hbuilt.plan hplan
    exact ⟨.ok plan, bound, hrun, nofun, fun _ => ⟨plan, rfl⟩, fun plan' heq => by cases heq; exact hordered⟩
  · obtain ⟨e, hrun⟩ := Scope.lifecycle_refused hplan
    exact ⟨_, 0, fun passes _ => hrun passes, nofun, fun hp => absurd hp hplan, nofun⟩

namespace LinkFixture

/-- An image of one LOAD of 152 bytes, with a dynamic section that asks for the name at an offset of the strings. -/
def bytes (need : ℕ) : List UInt8 :=
  List.replicate 32 0 ++ Bytes.toLe 8 64 ++ List.replicate 24 0 ++
    (Segment.mk 1 5 0 0 152 152 4096).header ++ [1, need, 0, 0].flatMap (Bytes.toLe 8)

def table : Table := ⟨List.replicate 24 0, [0, 97, 0, 98, 0], ⟨[], [], ⟨[], 0, false⟩, ⟨[], 0, false⟩⟩, .sysv [0, 0, 0, 0] []⟩

def image (dynamic : Option Segment) : Pie :=
  ⟨bytes 3, 1, 0, 0, 0, 0, 0, 0, 0, 1, some table, dynamic, true, false, ⟨0, 0, ⟨0, 0⟩, ⟨0, 0⟩, ⟨0, 0⟩⟩, false⟩

def objects : List Object :=
  [⟨[97], image (some ⟨2, 4, 120, 120, 32, 32, 8⟩), 0x500000⟩, ⟨[98], image none, 0x600000⟩]

theorem link_orders_correct_pair : ∃ scope, Scope.new objects 2 = .ok scope ∧ scope.order = [0, 1] ∧
      ∀ words, ∃ result bound, (∀ passes > bound, scope.lifecycle words passes = some result) ∧
        result ≠ .error .panicked ∧ (scope.Plannable words → ∃ plan, result = .ok plan) ∧
        ∀ plan, result = .ok plan → plan.Ordered objects := by
  have horder : (Scope.new objects 2).toOption.map Scope.order = some [0, 1] := by decide +kernel
  cases h : Scope.new objects 2 with
  | error e =>
    rw [h] at horder
    cases horder
  | ok scope =>
    rw [h] at horder
    exact ⟨scope, rfl, Option.some.inj horder, (link_orders_correct h).2⟩

end LinkFixture

end MochiSyscalls.PosixClient.Pie
