import MochiSyscalls.PosixClient.IndirectImage
import MochiSyscalls.Foundations.FixedRows

/-! # Deferred fixups stay in bounds

What validation establishes, that a plan survives the transfer, and what the calls of `execute` may write. -/

namespace MochiSyscalls.PosixClient.IndirectImage
open Foundations Checked Loops BinarySearch Intervals List Function Fixup Bool
set_option autoImplicit false

variable {ε : Type}

/-! ## Regions -/

structure Region.Sound (r : Region) : Prop where
  low : userMin ≤ r.address.toNat
  nonempty : r.address.toNat < r.stop
  high : r.stop ≤ userEnd

variable {r : Region}

theorem Region.end_eq_ok {last : ℕ} (h : (r.end : Except (Error ε) ℕ) = .ok last) : last = r.stop ∧ r.Sound := by
  obtain ⟨_, hcheck, h⟩ := bind_eq_ok.1 h
  cases h
  obtain ⟨-, hlow, hlength, hhigh⟩ := not_not.1 (reject_eq_ok.1 hcheck)
  have hpos : 0 < r.length.toNat := by
    refine Nat.pos_of_ne_zero fun hz => hlength ?_
    exact UInt64.toNat_inj.1 hz
  exact ⟨rfl, hlow, by rw [Region.stop]; omega, hhigh⟩

structure Sorted (regions : List Region) : Prop where
  sound : ∀ r ∈ regions, r.Sound
  apart : regions.Pairwise fun a b => a.stop ≤ b.address.toNat

theorem checkRegions_ok {regions : List Region} {last : ℕ} (h : (checkRegions regions : Except (Error ε) ℕ) = .ok last) :
    Sorted regions := by
  have hfrom : ∀ (regions : List Region) (first : ℕ), regions.foldlM (fun last r => do
        reject (r.address.toNat < last) (Error.invalid : Error ε)
        r.end) first = .ok last →
      Sorted regions ∧ ∀ r ∈ regions, first ≤ r.address.toNat := by
    intro regions
    induction regions with
    | nil => exact fun first _ => ⟨⟨nofun, .nil⟩, nofun⟩
    | cons r regions ih =>
      intro first h
      rw [foldlM_cons] at h
      obtain ⟨next, hr, hrest⟩ := bind_eq_ok.1 h
      obtain ⟨_, hfirst, hend⟩ := bind_eq_ok.1 hr
      obtain ⟨rfl, hsound⟩ := Region.end_eq_ok hend
      obtain ⟨hsorted, hafter⟩ := ih _ hrest
      have hle := Nat.le_of_not_lt (reject_eq_ok.1 hfirst)
      refine ⟨⟨forall_mem_cons.2 ⟨hsound, hsorted.sound⟩, pairwise_cons.2 ⟨hafter, hsorted.apart⟩⟩,
        forall_mem_cons.2 ⟨hle, fun b hb => ?_⟩⟩
      have hlow := hafter b hb
      have hnonempty := hsound.nonempty
      omega
  exact (hfrom regions userMin h).1

def Within (regions : List Region) (address width : ℕ) (access : Access) : Prop :=
  ∃ r ∈ regions, r.access.flags &&& access.flags = access.flags ∧ r.address.toNat ≤ address ∧ address + width ≤ r.stop

theorem Sorted.partitioned {regions : List Region} (h : Sorted regions) (address : ℕ) :
    Partitioned (fun r => decide (r.address.toNat ≤ address)) regions := by
  refine h.apart.imp fun {a b} hab hb => ?_
  have hle := of_decide_eq_true hb
  refine decide_eq_true ?_
  have hstop : a.address.toNat ≤ a.stop := Nat.le_add_right _ _
  omega

theorem contains_within {regions : List Region} (h : Sorted regions) {address width : ℕ} {access : Access}
    (hc : contains regions address width access = true) : Within regions address width access := by
  simp only [contains] at hc
  split at hc
  · cases hc
  next hindex =>
    split at hc
    · cases hc
    next r hr =>
      simp only [and_eq_true, decide_eq_true_eq] at hc
      have hlow := (lt_partitionPoint (h.partitioned address) hr).1 (by omega)
      exact ⟨r, mem_of_getElem? hr, hc.1.1, of_decide_eq_true hlow, hc.2⟩

/-! ## Fixups -/

def Fixup.content (f : Fixup) : Fixup := { f with order := 0 }

theorem validFixup_content (regions : List Region) (f : Fixup) : validFixup regions f.content = validFixup regions f := rfl

def placed (f : Fixup × ℕ) : Fixup := { f.1 with order := f.2 }

theorem mark_content (regions : List Region) (index : ℕ) (fixups : List Fixup) :
    (mark regions index fixups).2.map Fixup.content = fixups.map Fixup.content := by
  induction fixups generalizing index with
  | nil => rfl
  | cons f rest ih =>
    rw [mark]
    split
    · rw [map_cons, map_cons, ih (index + 1)]
      rfl
    · rfl

theorem mark_true {regions : List Region} {index : ℕ} {fixups : List Fixup} (h : (mark regions index fixups).1 = true) :
    ∀ f ∈ fixups, validFixup regions f = true := by
  induction fixups generalizing index with
  | nil => nofun
  | cons f rest ih =>
    rw [mark] at h
    split at h
    next hf => exact forall_mem_cons.2 ⟨hf, ih h⟩
    next => cases h

theorem mark_of_valid {regions : List Region} {fixups : List Fixup} (h : ∀ f ∈ fixups, validFixup regions f = true)
    (index : ℕ) : mark regions index fixups = (true, (fixups.zipIdx index).map placed) := by
  induction fixups generalizing index with
  | nil => rfl
  | cons f rest ih =>
    obtain ⟨hf, hrest⟩ := forall_mem_cons.1 h
    rw [mark, if_pos hf, ih hrest]
    rfl

theorem placed_sorted (fixups : List Fixup) (index : ℕ) :
    ((fixups.zipIdx index).map placed).Pairwise fun a b => a.order < b.order := by
  induction fixups generalizing index with
  | nil => exact .nil
  | cons f rest ih =>
    rw [zipIdx_cons, map_cons]
    refine pairwise_cons.2 ⟨fun b hb => ?_, ih (index + 1)⟩
    obtain ⟨⟨g, k⟩, hg, rfl⟩ := mem_map.1 hb
    have hle := (mem_zipIdx hg).1
    exact hle

theorem restored (sort : Sorter Fixup) (fixups : List Fixup) :
    sort.run Fixup.order (sort.run (·.target.toNat) ((fixups.zipIdx 0).map placed)) = (fixups.zipIdx 0).map placed :=
  sort.run_eq (sort.perm _ _) (placed_sorted fixups 0)

theorem placed_content (fixups : List Fixup) :
    ((fixups.zipIdx 0).map placed).map Fixup.content = fixups.map Fixup.content := by
  have h : content ∘ placed = content ∘ Prod.fst := rfl
  rw [map_map, h, ← map_map, zipIdx_map_fst]

theorem validate_content (sort : Sorter Fixup) (regions : List Region) (fixups : List Fixup) :
    (validate sort regions fixups : Except (Error ε) Unit × List Fixup).2.map Fixup.content =
      fixups.map Fixup.content := by
  unfold validate
  split
  · rfl
  · simp only
    split
    · exact mark_content regions 0 fixups
    next hmarked =>
      rw [mark_of_valid (mark_true (eq_true_of_not_eq_false hmarked)), restored, placed_content]

/-- What a valid plan is: sorted regions, fixups that stay in them, and no two that overlap. -/
structure Valid (regions : List Region) (fixups : List Fixup) : Prop where
  sorted : Sorted regions
  inside : ∀ f ∈ fixups, validFixup regions f = true
  apart : fixups.Pairwise (Apart (·.target.toNat) Fixup.stop)

variable {sort : Sorter Fixup}

section

variable {regions : List Region} {fixups fixups' : List Fixup}
  (h : (validate sort regions fixups : Except (Error ε) Unit × List Fixup) = (.ok (), fixups'))
include h

theorem validate_ok :
    Valid regions fixups' ∧ (∀ f ∈ fixups, validFixup regions f = true) ∧ fixups' = (fixups.zipIdx 0).map placed ∧
      overlapping (·.target.toNat) Fixup.stop (sort.run (·.target.toNat) fixups') = false := by
  unfold validate at h
  split at h
  · cases h
  next last hregions =>
    simp only at h
    split at h
    · cases h
    next hmarked =>
      have hvalid := mark_true (eq_true_of_not_eq_false hmarked)
      rw [mark_of_valid hvalid, restored] at h
      obtain ⟨hoverlap, rfl⟩ := Prod.mk.inj h
      split at hoverlap
      · cases hoverlap
      next hnone =>
        have hnone := eq_false_of_not_eq_true hnone
        refine ⟨⟨checkRegions_ok hregions, fun f hf => ?_, ?_⟩, hvalid, rfl, hnone⟩
        · obtain ⟨⟨g, k⟩, hg, rfl⟩ := mem_map.1 hf
          exact hvalid g (fst_mem_of_mem_zipIdx hg)
        · exact pairwise_apart (fun f _ => Nat.le_add_right _ _) hnone (sort.perm _ _)

theorem validate_of_content :
    (validate sort regions (fixups.map Fixup.content) : Except (Error ε) Unit × List Fixup) = (.ok (), fixups') := by
  obtain ⟨-, hvalid, hplaced, hnone⟩ := validate_ok h
  have hsame : ((fixups.map content).zipIdx 0).map placed = fixups' := by
    rw [hplaced, zipIdx_map, map_map]
    rfl
  have hmark : mark regions 0 (fixups.map content) = (true, fixups') := by
    rw [mark_of_valid fun f hf => ?_, hsame]
    obtain ⟨g, hg, rfl⟩ := mem_map.1 hf
    rw [validFixup_content, hvalid g hg]
  unfold validate at h ⊢
  split at h
  · cases h
  · simp only [hmark, true_eq_false, hnone, false_eq_true, if_false]
    rw [← hsame, restored]

end

/-! ## The transfer -/

theorem regionRow_length (r : Region) : (regionRow r).length = regionBytes := by
  simp [regionRow, regionBytes]

theorem fixupRow_length (f : Fixup) : (fixupRow f).length = fixupBytes := by
  simp [fixupRow, fixupBytes]

theorem header_length (regions : List Region) (fixups : List Fixup) (size : ℕ) :
    (header regions fixups size).length = headerBytes := by
  simp [header, headerBytes]

theorem encoded_length (regions : List Region) (fixups : List Fixup) (size : ℕ) :
    (encoded regions fixups size).length = headerBytes + (regions.length * regionBytes + fixups.length * fixupBytes) := by
  rw [encoded, length_append, length_append, header_length, Bytes.flatMap_length regionRow_length,
    Bytes.flatMap_length fixupRow_length]

theorem length_eq_ok {regions fixups size : ℕ} (h : (length regions fixups : Except (Error ε) ℕ) = .ok size) :
    regions < 2 ^ 32 ∧ size < wordLimit ∧ size = headerBytes + (regions * regionBytes + fixups * fixupBytes) := by
  obtain ⟨_, hregions, h⟩ := bind_eq_ok.1 h
  obtain ⟨_, hsize, h⟩ := bind_eq_ok.1 h
  cases h
  have hlt := reject_eq_ok.1 hregions
  have hlimit := reject_eq_ok.1 hsize
  simp only [ge_iff_le, not_le] at hlt hlimit
  exact ⟨hlt, hlimit, by omega⟩

def Holding (read : ℕ → ℕ → Except ε (List UInt8)) (base : ℕ) (bytes : List UInt8) : Prop :=
  ∀ offset size, offset + size ≤ bytes.length → read (base + offset) size = .ok ((bytes.drop offset).take size)

theorem accessOf_flags {version' : ℕ} {access : Access} (h : access.flags &&& 4 ≠ 0 → version' = copyVersion) :
    (accessOf version' access.flags : Except (Error ε) Access) = .ok access := by
  cases access with
  | executable | writable => rfl
  | readable | readExecute | readWrite => rw [h (by decide)]; rfl

theorem word_row {words : List ℕ} {i w : ℕ} (h : words[i]? = some w) (hw : w < 2 ^ 64) :
    word (words.flatMap (Bytes.toLe 8)) (i * 8) = w := by
  have hword := Bytes.word_of_row h hw []
  rwa [append_nil] at hword

theorem flags_lt (access : Access) : access.flags < 2 ^ 64 := by
  cases access <;> decide

section Transfer

variable {read : ℕ → ℕ → Except ε (List UInt8)} {base size : ℕ} {regions : List Region} {fixups : List Fixup}
  (hread : Holding read base (encoded regions fixups size))

include hread

theorem readRegion_encoded {version' i : ℕ} (hr : regions[i]? = some r)
    (hversion : r.access.flags &&& 4 ≠ 0 → version' = copyVersion) : readRegion read base version' i = .ok r := by
  have hi := (List.getElem?_eq_some_iff.1 hr).1
  have hle : headerBytes + i * regionBytes + regionBytes ≤ (encoded regions fixups size).length := by
    rw [encoded_length]
    simp only [regionBytes]
    omega
  have hrow : ((encoded regions fixups size).drop (headerBytes + i * regionBytes)).take regionBytes = regionRow r := by
    rw [encoded, ← drop_drop, drop_left' (header_length _ _ _)]
    exact Bytes.row_of_flatMap regionRow_length hr _
  have haddress : word (regionRow r) 0 = r.address.toNat := word_row (i := 0) rfl r.address.toNat_lt
  have hlength : word (regionRow r) 8 = r.length.toNat := word_row (i := 1) rfl r.length.toNat_lt
  have hflags : word (regionRow r) 16 = r.access.flags := word_row (i := 2) rfl (flags_lt _)
  unfold readRegion
  rw [hread _ _ hle, hrow]
  simp only [Except.mapError, bind, Except.bind, hflags, accessOf_flags hversion, haddress, hlength, UInt64.ofNat_toNat,
    pure, Except.pure]

theorem readFixup_encoded {version' i : ℕ} {f : Fixup} (hf : fixups[i]? = some f)
    (hversion : f.copy = true → version' = copyVersion) :
    readFixup read base (headerBytes + regions.length * regionBytes) version' i = .ok f.content := by
  have hi := (List.getElem?_eq_some_iff.1 hf).1
  have hle : headerBytes + regions.length * regionBytes + i * fixupBytes + fixupBytes ≤
      (encoded regions fixups size).length := by
    rw [encoded_length]
    simp only [fixupBytes]
    omega
  have hrow : ((encoded regions fixups size).drop (headerBytes + regions.length * regionBytes + i * fixupBytes)).take
      fixupBytes = fixupRow f := by
    have hrows := Bytes.row_of_flatMap fixupRow_length hf []
    rw [append_nil] at hrows
    rw [encoded, ← drop_drop, ← drop_drop, drop_left' (header_length _ _ _),
      drop_left' (Bytes.flatMap_length regionRow_length _), hrows]
  have htarget : word (fixupRow f) 0 = f.target.toNat := word_row (i := 0) rfl f.target.toNat_lt
  have hresolver : word (fixupRow f) 8 = f.resolver.toNat := word_row (i := 1) rfl f.resolver.toNat_lt
  have haddend : word (fixupRow f) 16 = f.addend.toNat := word_row (i := 2) rfl f.addend.toNat_lt
  have hcopy : word (fixupRow f) 24 = f.copy.toNat := word_row (i := 3) rfl (by cases f.copy <;> decide)
  unfold readFixup
  rw [hread _ _ hle, hrow]
  simp only [Except.mapError, bind, Except.bind, htarget, hresolver, haddend, hcopy, UInt64.ofNat_toNat]
  cases hc : f.copy with
  | false => simp [pure, Except.pure, new, content, hc]
  | true => simp [pure, Except.pure, copyOf, content, hc, hversion hc]

end Transfer

/-- Where a plan may be captured: aligned user memory, within the limit and the storage of the receiver. -/
structure Receivable (base size maximum regionStorage fixupStorage regions fixups : ℕ) : Prop where
  low : userMin ≤ base
  aligned : base % 8 = 0
  high : base + size ≤ userEnd
  limit : size ≤ maximum
  regions : regions ≤ regionStorage
  fixups : fixups ≤ fixupStorage

theorem planVersion_cases (regions : List Region) (fixups : List Fixup) :
    planVersion regions fixups = version ∨ planVersion regions fixups = copyVersion := by
  unfold planVersion
  split
  · exact .inr rfl
  · exact .inl rfl

theorem planVersion_lt (regions : List Region) (fixups : List Fixup) : planVersion regions fixups < 2 ^ 32 := by
  rcases planVersion_cases regions fixups with h | h <;> rw [h] <;> decide

theorem planVersion_region {regions : List Region} (hr : r ∈ regions) (h : r.access.flags &&& 4 ≠ 0)
    (fixups : List Fixup) : planVersion regions fixups = copyVersion := by
  have hany : regions.any (fun r => decide (r.access.flags &&& 4 ≠ 0)) = true := any_eq_true.2 ⟨r, hr, decide_eq_true h⟩
  rw [planVersion, hany, Bool.or_true, if_pos rfl]

theorem planVersion_fixup {fixups : List Fixup} {f : Fixup} (hf : f ∈ fixups) (h : f.copy = true)
    (regions : List Region) : planVersion regions fixups = copyVersion := by
  have hany : fixups.any (·.copy) = true := any_eq_true.2 ⟨f, hf, h⟩
  rw [planVersion, hany, Bool.true_or, if_pos rfl]

theorem header_words {regions : List Region} {fixups : List Fixup} {size : ℕ} (hregions : regions.length < 2 ^ 32)
    (hsize : size < 2 ^ 64) (hfixups : fixups.length < 2 ^ 64) :
    word (header regions fixups size) 0 = magic ∧
      word (header regions fixups size) 8 = planVersion regions fixups + regions.length * 2 ^ 32 ∧
      word (header regions fixups size) 16 = fixups.length ∧ word (header regions fixups size) 24 = size ∧
      word (header regions fixups size) 32 = 0 := by
  have hversion := planVersion_lt regions fixups
  exact ⟨word_row (i := 0) rfl (by decide), word_row (i := 1) rfl (by omega), word_row (i := 2) rfl hfixups,
    word_row (i := 3) rfl hsize, word_row (i := 4) rfl (by decide)⟩

/-- **A plan survives the transfer.** -/
theorem capture_encoded {read : ℕ → ℕ → Except ε (List UInt8)}
    {base size maximum regionStorage fixupStorage : ℕ} {regions : List Region} {given fixups : List Fixup}
    (hvalid : (validate sort regions given : Except (Error ε) Unit × List Fixup) = (.ok (), fixups))
    (hlength : (length regions.length fixups.length : Except (Error ε) ℕ) = .ok size)
    (hread : Holding read base (encoded regions fixups size))
    (hr : Receivable base size maximum regionStorage fixupStorage regions.length fixups.length) :
    capture read sort base maximum regionStorage fixupStorage = .ok ⟨regions, fixups⟩ := by
  obtain ⟨hcount, hlimit, hsize⟩ := length_eq_ok hlength
  have hlow := hr.low
  have hhigh := hr.high
  have hmax := hr.limit
  have hheader : read base headerBytes = .ok (header regions fixups size) := by
    have h := hread 0 headerBytes (by rw [encoded_length]; omega)
    rwa [Nat.add_zero, drop_zero, encoded, take_left' (header_length _ _ _)] at h
  obtain ⟨hmagic, hformat, hfixups, hwords, hzero⟩ := header_words hcount hlimit
    (show fixups.length < 2 ^ 64 by simp only [wordLimit, fixupBytes] at *; omega)
  have hlt := planVersion_lt regions fixups
  have hversion : (planVersion regions fixups + regions.length * 2 ^ 32) % 2 ^ 32 = planVersion regions fixups := by omega
  have hregions : (planVersion regions fixups + regions.length * 2 ^ 32) / 2 ^ 32 = regions.length := by omega
  have hregionList : (range regions.length).mapM (readRegion read base (planVersion regions fixups)) =
      .ok regions := Bytes.mapM_range fun i r hi =>
    readRegion_encoded hread hi fun h => planVersion_region (mem_of_getElem? hi) h fixups
  have hfixupList : (range fixups.length).mapM (readFixup read base (headerBytes + regions.length * regionBytes)
      (planVersion regions fixups)) = .ok (fixups.map content) := by
    have h := @Bytes.mapM_range _ _ _ _ (readFixup read base (headerBytes + regions.length * regionBytes)
      (planVersion regions fixups)) (fixups.map content) fun i f hi => by
        rw [getElem?_map, Option.map_eq_some_iff] at hi
        obtain ⟨g, hg, rfl⟩ := hi
        exact readFixup_encoded hread hg fun h => planVersion_fixup (mem_of_getElem? hg) h regions
    rwa [length_map] at h
  have hcontent : fixups.map content = given.map content := by
    have h := @validate_content ε sort regions given
    rwa [hvalid] at h
  have hagain : (validate sort regions (fixups.map content) : Except (Error ε) Unit × List Fixup) =
      (.ok (), fixups) := by
    rw [hcontent]
    exact validate_of_content hvalid
  unfold capture
  refine reject_bind (by have := hr.aligned; omega) ?_
  refine reject_bind (by omega) ?_
  refine bind_ok (by rw [hheader]; rfl) ?_
  simp only [hmagic, hformat, hversion, hregions, hfixups, hwords, hzero]
  refine reject_bind ?_ ?_
  · rcases planVersion_cases regions fixups with hv | hv <;> simp [hv]
  refine bind_ok hlength ?_
  refine reject_bind (by omega) ?_
  refine reject_bind (not_not_intro rfl) ?_
  refine reject_bind (by omega) ?_
  refine reject_bind (by have := hr.regions; have := hr.fixups; omega) ?_
  refine bind_ok hregionList ?_
  refine bind_ok hfixupList ?_
  rw [hagain]
  rfl

theorem capture_valid {read : ℕ → ℕ → Except ε (List UInt8)}
    {base maximum regionStorage fixupStorage : ℕ} {image : Captured}
    (h : capture read sort base maximum regionStorage fixupStorage = .ok image) : Valid image.regions image.fixups := by
  unfold capture at h
  iterate 9 obtain ⟨_, _, h⟩ := bind_eq_ok.1 h
  simp only [bind_eq_ok] at h
  obtain ⟨regions, _, fixups, _, _, hvalid, h⟩ := h
  cases h
  exact (validate_ok (Prod.ext hvalid rfl)).1

/-! ## What the program writes -/

/-- The place of a write: the fixup it is for, its address and its length. -/
abbrev Place := ℕ × ℕ × ℕ

def Op.place : Op → Option Place
  | .write fixup address size => some (fixup, address, size)
  | _ => none

def places (ops : List Op) : List Place := ops.filterMap Op.place

def Place.start (p : Place) : ℕ := p.2.1

def Place.stop (p : Place) : ℕ := p.2.1 + p.2.2

theorem places_fixupOps (index : ℕ) (f : Fixup) : places (fixupOps index f) =
      if f.copy then (Pieces.pieces 256 f.addend.toNat 0).map fun piece => (index, f.target.toNat + piece.1, piece.2)
      else [(index, f.target.toNat, 8)] := by
  unfold places fixupOps
  split
  · rw [filterMap_flatMap]
    exact map_eq_flatMap.symm
  · rfl

theorem places_inside {index : ℕ} {f : Fixup} {p : Place} (hp : p ∈ places (fixupOps index f)) :
    f.target.toNat ≤ p.start ∧ p.stop ≤ f.stop := by
  rw [places_fixupOps] at hp
  split at hp
  next hcopy =>
    obtain ⟨piece, hpiece, rfl⟩ := mem_map.1 hp
    have h := (Pieces.pieces_spec 256 f.addend.toNat 0).1 piece hpiece
    simp only [Place.start, Place.stop, stop, width, hcopy, if_true]
    omega
  next hcopy =>
    rw [mem_singleton] at hp
    subst hp
    simp only [Place.start, Place.stop, stop, width, hcopy]
    exact ⟨le_rfl, le_rfl⟩

theorem places_apart (index : ℕ) (f : Fixup) : (places (fixupOps index f)).Pairwise (Apart Place.start Place.stop) := by
  rw [places_fixupOps]
  split
  · refine pairwise_map.2 ((Pieces.pieces_spec 256 f.addend.toNat 0).2.imp fun {a b} hab => .inl ?_)
    simp only [Place.start, Place.stop]
    omega
  · exact pairwise_singleton _ _

theorem places_program (fixups : List Fixup) :
    places (program fixups) = fixups.zipIdx.flatMap fun f => places (fixupOps f.2 f.1) := List.filterMap_flatMap

theorem program_apart {fixups : List Fixup} (h : fixups.Pairwise (Apart (·.target.toNat) Fixup.stop)) :
    (places (program fixups)).Pairwise (Apart Place.start Place.stop) := by
  rw [places_program, pairwise_flatMap]
  refine ⟨fun f _ => places_apart f.2 f.1, ?_⟩
  have hfixups : fixups.zipIdx.Pairwise fun a b => Apart (·.target.toNat) stop a.1 b.1 := by
    rw [← pairwise_map, zipIdx_map_fst]
    exact h
  refine hfixups.imp fun {a b} hab p hp q hq => ?_
  obtain ⟨hplow, hphigh⟩ := places_inside hp
  obtain ⟨hqlow, hqhigh⟩ := places_inside hq
  rcases hab with hab | hab
  · exact .inl (hphigh.trans (hab.trans hqlow))
  · exact .inr (hqhigh.trans (hab.trans hplow))

theorem program_within {regions : List Region} {fixups : List Fixup} (h : Valid regions fixups) {p : Place}
    (hp : p ∈ places (program fixups)) : Within regions p.2.1 p.2.2 .writable := by
  rw [places_program] at hp
  obtain ⟨⟨f, index⟩, hf, hp⟩ := mem_flatMap.1 hp
  have hvalid := h.inside f (fst_mem_of_mem_zipIdx hf)
  obtain ⟨hlow, hhigh⟩ := places_inside hp
  have hwithin : Within regions f.target.toNat f.width .writable := by
    unfold validFixup at hvalid
    split at hvalid
    · simp only [and_eq_true] at hvalid
      exact contains_within h.sorted hvalid.1.1.2
    next hcopy =>
      simp only [and_eq_true] at hvalid
      rw [width, if_neg hcopy]
      exact contains_within h.sorted hvalid.1
  obtain ⟨r, hr, hflags, haddress, hstop⟩ := hwithin
  simp only [Place.start, Place.stop, stop] at hlow hhigh
  exact ⟨r, hr, hflags, by omega, by omega⟩

/-! ## What the calls write -/

def Write.place (w : Write) : Place := (w.fixup, w.address, w.bytes.length)

theorem fill_length (size : ℕ) (bytes : List UInt8) : (fill size bytes).length = size := by
  simp [fill]

/-- One call at most gets past the phase; the writes so far and those it has still to make are the writes of the
program. -/
structure Once (fixups : List Fixup) (s : State) : Prop where
  ready : s.phase = .ready → s.writes = [] ∧ ∀ id, s.calls id = none
  made : s.writes.map Write.place <+: places (program fixups)
  running : ∀ id c, s.calls id = some c → s.phase = .running ∧
    s.writes.map Write.place ++ places c.todo = places (program fixups)
  single : ∀ id id' c c', s.calls id = some c → s.calls id' = some c' → id = id'

theorem eq_of_update {calls : ℕ → Option Call} {call : Option Call} {id id' : ℕ} {c : Call}
    (halone : ∀ id', id' ≠ id → calls id' = none) (h : update calls id call id' = some c) : id' = id ∧ call = some c := by
  by_cases hid : id' = id
  · rw [hid, update_self] at h
    exact ⟨hid, h⟩
  · rw [update_of_ne hid, halone id' hid] at h
    cases h

theorem once_initial (fixups : List Fixup) : Once fixups .initial where
  ready _ := ⟨rfl, fun _ => rfl⟩
  made := nil_prefix
  running := nofun
  single := nofun

namespace Once

variable {fixups : List Fixup} {s : State}

section

variable (h : Once fixups s)
include h

theorem enter (id : ℕ) (withRead : Bool) : Once fixups (s.enter fixups id withRead) := by
  unfold State.enter
  split
  · exact h
  · split
    next hphase =>
      obtain ⟨hwrites, hcalls⟩ := h.ready hphase
      have halone : ∀ id', id' ≠ id → s.calls id' = none := fun id' _ => hcalls id'
      refine ⟨nofun, h.made, fun id' c hc => ?_, fun id' id'' c c' hc hc' => ?_⟩
      · cases (eq_of_update halone hc).2
        refine ⟨rfl, ?_⟩
        show s.writes.map Write.place ++ _ = _
        rw [hwrites]
        rfl
      · rw [(eq_of_update halone hc).1, (eq_of_update halone hc').1]
    next => exact h

theorem alone {id : ℕ} {c : Call} (hc : s.calls id = some c) (id' : ℕ) (hid : id' ≠ id) : s.calls id' = none :=
  Option.eq_none_iff_forall_ne_some.2 fun d hd => hid (h.single id' id d c hd hc)

theorem goOn {id : ℕ} {c c' : Call} {writes : List Write} (hc : s.calls id = some c)
    (hprogram : writes.map Write.place ++ places c'.todo = places (program fixups)) :
    Once fixups (State.setCall { s with writes := writes } id (some c')) where
  ready hphase := by
    have hrunning := (h.running id c hc).1
    rw [show s.phase = .ready from hphase] at hrunning
    cases hrunning
  made := ⟨_, hprogram⟩
  running id' d hd := by
    cases (eq_of_update (h.alone hc) hd).2
    exact ⟨(h.running id c hc).1, hprogram⟩
  single id₁ id₂ d₁ d₂ h₁ h₂ := by rw [(eq_of_update (h.alone hc) h₁).1, (eq_of_update (h.alone hc) h₂).1]

theorem leave {id : ℕ} {c : Call} {writes : List Write} {phase : Phase} (hc : s.calls id = some c)
    (hphase : phase ≠ .ready) (hmade : writes.map Write.place <+: places (program fixups)) :
    Once fixups (State.setCall { s with phase := phase, writes := writes } id none) where
  ready hready := absurd hready hphase
  made := hmade
  running _ _ hd := nomatch (eq_of_update (h.alone hc) hd).2
  single _ _ _ _ hd _ := nomatch (eq_of_update (h.alone hc) hd).2

theorem advance {id : ℕ} {c : Call} (hc : s.calls id = some c) (answer : Option (List UInt8)) :
    Once fixups (s.advance id c answer) := by
  have hprogram := (h.running id c hc).2
  unfold State.advance
  split
  next => exact h.leave hc nofun h.made
  next source size rest htodo =>
    rw [htodo] at hprogram
    cases answer with
    | some bytes => exact h.goOn hc hprogram
    | none => exact h.leave hc nofun h.made
  next resolver addend rest htodo =>
    rw [htodo] at hprogram
    cases answer with
    | some bytes => exact h.goOn hc hprogram
    | none => exact h.leave hc nofun h.made
  next fixup address size rest htodo =>
    have hnext : (s.writes ++ [Write.mk fixup address (fill size c.buffer)]).map Write.place ++ places rest =
        places (program fixups) := by
      have hplace : (Write.mk fixup address (fill size c.buffer)).place = (fixup, address, size) := by
        rw [Write.place, fill_length]
      rw [htodo] at hprogram
      rw [map_append, map_singleton, hplace, append_assoc]
      exact hprogram
    cases answer with
    | some bytes => exact h.goOn hc hnext
    | none => exact h.leave hc nofun ⟨_, hnext⟩

theorem act (a : Action) : Once fixups (s.act fixups a) := by
  cases a with
  | call id withRead =>
    simp only [State.act]
    split
    · exact h
    · exact h.enter id withRead
  | step id answer =>
    simp only [State.act]
    split
    next c hc => exact h.advance hc answer
    next => exact h

end

end Once

/-! ## The whole -/

/-- **Deferred fixups.** What `encode` accepts is captured as it was, and in any interleaving of calls every write lies
in a writable region, no byte is written twice, and the writes are those of one pass over the fixups. -/
theorem fixups_stay_in_bounds (sort : Sorter Fixup) : (∀ regions given out size fixups out',
      (encode sort regions given out : Except (Error ε) ℕ × List Fixup × List UInt8) = (.ok size, fixups, out') →
      fixups.map Fixup.content = given.map Fixup.content ∧
      ∀ (read : ℕ → ℕ → Except ε (List UInt8)) base maximum regionStorage fixupStorage,
        Holding read base (out'.take size) →
        Receivable base size maximum regionStorage fixupStorage regions.length fixups.length →
        capture read sort base maximum regionStorage fixupStorage = .ok ⟨regions, fixups⟩) ∧
    (∀ (read : ℕ → ℕ → Except ε (List UInt8)) base maximum regionStorage fixupStorage image,
      capture read sort base maximum regionStorage fixupStorage = .ok image →
      ∀ actions, let s := Runs.run (State.act image.fixups) .initial actions
        (∀ w ∈ s.writes, Within image.regions w.address w.bytes.length .writable) ∧
        s.writes.Pairwise (Apart Write.address fun w => w.address + w.bytes.length) ∧
        s.writes.map Write.place <+: places (program image.fixups)) ∧
    ∀ regions fixups, (validate sort regions fixups : Except (Error ε) Unit × List Fixup).2.map Fixup.content =
      fixups.map Fixup.content := by
  refine ⟨fun regions given out size fixups out' h => ?_, fun read base maximum rs fs image h actions => ?_,
    validate_content sort⟩
  · unfold encode at h
    split at h
    · cases h
    next size' hlength =>
      split at h
      · cases h
      next hroom =>
        split at h
        · cases h
        next u fixups' hvalid =>
          cases h
          have hplaced := (validate_ok hvalid).2.2.1
          have hcount : fixups.length = given.length := by rw [hplaced, length_map, length_zipIdx]
          have hcontent : fixups.map content = given.map content := by
            have hc := @validate_content ε sort regions given
            rwa [hvalid] at hc
          refine ⟨hcontent, fun read base maximum rs fs hread hr => ?_⟩
          rw [← hcount] at hlength
          have hsize := (length_eq_ok hlength).2.2
          rw [take_left' (by rw [encoded_length, hsize])] at hread
          exact capture_encoded hvalid hlength hread hr
  · have hvalid := capture_valid h
    have honce : Once image.fixups (Runs.run (State.act image.fixups) .initial actions) :=
      Runs.run_invariant _ (fun _ a hs => hs.act a) (once_initial _) actions
    refine ⟨fun w hw => ?_, ?_, honce.made⟩
    · exact program_within hvalid (honce.made.subset (mem_map_of_mem hw))
    · have hapart := (program_apart hvalid.apart).sublist honce.made.sublist
      exact (pairwise_map.1 hapart).imp id

namespace IndirectFixture

def regions : List Region := [⟨0x400000, 0x1000, .executable⟩, ⟨0x500000, 16, .writable⟩]

def fixups : List Fixup := [⟨0x500008, 0x400010, 0, 0, false⟩, ⟨0x500000, 0x400020, 4, 1, false⟩]

def bytes : List UInt8 := encoded regions fixups 152

def read (address size : ℕ) : Except Unit (List UInt8) := .ok ((bytes.drop (address - 0x600000)).take size)

theorem fixups_stay_in_bounds_two : capture read (.insertion Fixup) 0x600000 4096 2 2 = .ok ⟨regions, fixups⟩ ∧
      ∀ actions, ∀ w ∈ (Runs.run (State.act fixups) .initial actions).writes,
        Within regions w.address w.bytes.length .writable := by
  have hencode : (encode (.insertion Fixup) regions [.new 0x500008 0x400010 0, .new 0x500000 0x400020 4]
      (replicate 152 0) : Except (Error Unit) ℕ × List Fixup × List UInt8) = (.ok 152, fixups, bytes) := by
    decide +kernel
  obtain ⟨hencoded, hcaptured, -⟩ := @fixups_stay_in_bounds Unit (.insertion Fixup)
  have hread : Holding read 0x600000 (bytes.take 152) := by
    intro offset size _
    have hwhole : bytes.take 152 = bytes := by decide
    rw [hwhole, read, Nat.add_sub_cancel_left]
  have hcapture := (hencoded _ _ _ _ _ _ hencode).2 read 0x600000 4096 2 2 hread
    ⟨by decide, by decide, by decide, by decide, by decide, by decide⟩
  exact ⟨hcapture, fun actions => (hcaptured _ _ _ _ _ _ hcapture actions).1⟩

end IndirectFixture

end MochiSyscalls.PosixClient.IndirectImage
