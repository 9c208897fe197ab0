import MochiSyscalls.PosixClient.InitialStack

/-! # The entry stack of a process

What a process finds at its stack pointer: the vectors, and the copies they point to. -/

namespace MochiSyscalls.PosixClient.ProcessImage
open Foundations Bytes Effects Utf8 Intervals List
open Foundations.Effects.Outcome (reject okOr)
set_option autoImplicit false

variable {κ : Type}

/-! ## The specification -/

/-- The words of an entry stack, with the addresses some of them are. -/
structure EntryStack where
  arguments : List ℕ
  environment : List ℕ
  auxiliary : List (ℕ × ℕ)
  random : ℕ
  execfn : ℕ
  /-- Key, address and bytes. -/
  images : List (ℕ × ℕ × List UInt8)

namespace EntryStack

variable (stack : EntryStack)

def words : List ℕ :=
  [stack.arguments.length] ++ stack.arguments ++ [0] ++ stack.environment ++ [0] ++
    stack.auxiliary.flatMap fun entry => [entry.1, entry.2]

def copies (argv envp : List (List UInt8)) (execfn random : List UInt8) : List (ℕ × List UInt8) :=
  stack.arguments.zip (argv.map fun value => value ++ [0]) ++ stack.environment.zip (envp.map fun value => value ++ [0]) ++
    [(stack.random, random)] ++ [(stack.execfn, execfn ++ [0])] ++ stack.images.map Prod.snd

/-- The regions of a stack at a base: the vectors and the copies. -/
def regions (base : ℕ) (copies : List (ℕ × List UInt8)) : List (ℕ × ℕ) :=
  (base, base + 8 * stack.words.length) :: copies.map fun copy => (copy.1, copy.1 + copy.2.length)

end EntryStack

def Process.images (process : Process) : List (ℕ × List UInt8) :=
  [(atLifecycleImage, process.lifecycle), (atTlsImage, process.tls), (atIndirectImage, process.indirect)].filter
    fun image => !image.2.isEmpty

/-- A stack in memory from a base on that says what a process is started with. -/
structure EntryStack.Correct (stack : EntryStack) (base : ℕ) (memory : List UInt8) (argv envp : List (List UInt8))
    (execfn random : List UInt8) (auxiliary : List (UInt64 × UInt64)) (process : Process) : Prop where
  words : ∀ i word, stack.words[i]? = some word → readLe 8 memory (8 * i) = some word
  argc : stack.arguments.length = argv.length
  envc : stack.environment.length = envp.length
  copies : ∀ copy ∈ stack.copies argv envp execfn random,
    base ≤ copy.1 ∧ slice memory (copy.1 - base) (copy.1 - base + copy.2.length) = some copy.2
  /-- No text ends before its terminator. -/
  clean : ∀ text ∈ argv ++ envp ++ [execfn], 0 ∉ text
  terminated : stack.auxiliary.getLast? = some (atNull, 0)
  distinct : (stack.auxiliary.map Prod.fst).Nodup
  randomEntry : (atRandom, stack.random) ∈ stack.auxiliary
  execfnEntry : (atExecfn, stack.execfn) ∈ stack.auxiliary
  images : stack.images.map (fun image => (image.1, image.2.2)) = process.images ∧
    ∀ image ∈ stack.images, (image.1, image.2.1) ∈ stack.auxiliary ∧ 8 ∣ image.2.1
  given : ∀ entry ∈ auxiliary, (entry.1.toNat, entry.2.toNat) ∈ stack.auxiliary
  apart : (stack.regions base (stack.copies argv envp execfn random)).Pairwise (Apart Prod.fst Prod.snd)
  inside : ∀ region ∈ stack.regions base (stack.copies argv envp execfn random),
    base ≤ region.1 ∧ region.2 ≤ base + memory.length

/-! ## The keys of the auxiliary vector -/

theorem checkKeys_eq {before rest : List (UInt64 × UInt64)}
    (h : (checkKeys before rest : Outcome (EncodeError κ) Unit) = .value ()) :
    (∀ e ∈ rest, atExecfn < e.1.toNat ∧ e.1.toNat ∉ [atImageLoadBias, atLifecycleImage, atTlsImage, atIndirectImage] ∧
      ∀ other ∈ before, other.1 ≠ e.1) ∧ (rest.map Prod.fst).Nodup := by
  induction rest generalizing before with
  | nil => exact ⟨nofun, .nil⟩
  | cons e rest ih =>
    obtain ⟨key, value⟩ := e
    simp only [checkKeys, Outcome.bind_eq_value, Outcome.reject_eq_value, not_or, any_eq_true, beq_iff_eq,
      not_exists, not_and] at h
    obtain ⟨_, ⟨hlarge, hbias, hlifecycle, htls, hindirect, hbefore⟩, hrest⟩ := h
    obtain ⟨hkeys, hnodup⟩ := ih hrest
    refine ⟨forall_mem_cons.2 ⟨⟨by simp only; omega, by simp [hbias, hlifecycle, htls, hindirect], hbefore⟩, ?_⟩,
      nodup_cons.2 ⟨fun hmem => ?_, hnodup⟩⟩
    · intro e he
      obtain ⟨hlarge', hspecial, hnew⟩ := hkeys e he
      exact ⟨hlarge', hspecial, fun other hother => hnew other (mem_append_left _ hother)⟩
    · obtain ⟨e, he, heq⟩ := mem_map.1 hmem
      exact (hkeys e he).2.2 (key, value) (by simp) heq.symm

def fixedKeys : List ℕ :=
  [atPhdr, atPhent, atPhnum, atPagesz, atBase, atFlags, atEntry, atUid, atEuid, atGid, atEgid, atHwcap, atClktck, atSecure,
    atRandom, atExecfn, atImageLoadBias]

def keyPart (key : ℕ) : ℕ :=
  if key = atNull then 5
  else if key ≤ atExecfn ∨ key = atImageLoadBias then 0
  else if key = atLifecycleImage then 1
  else if key = atTlsImage then 2
  else if key = atIndirectImage then 3
  else 4

theorem nodup_next {front rest : List ℕ} {part : ℕ} (hfront : front.Nodup ∧ ∀ k ∈ front, keyPart k < part)
    (hrest : rest.Nodup ∧ ∀ k ∈ rest, keyPart k = part) :
    (front ++ rest).Nodup ∧ ∀ k ∈ front ++ rest, keyPart k < part + 1 := by
  refine ⟨nodup_append.2 ⟨hfront.1, hrest.1, fun a ha b hb hab => ?_⟩, fun k hk => ?_⟩
  · have hlt := hfront.2 a ha
    rw [hab, hrest.2 b hb] at hlt
    exact lt_irrefl _ hlt
  · rcases mem_append.1 hk with hk | hk
    · exact (hfront.2 k hk).trans (Nat.lt_succ_self _)
    · exact (hrest.2 k hk).trans_lt (Nat.lt_succ_self _)

theorem imageEntry_keys (index offset : ℕ) {key part : ℕ} (bytes : List UInt8) (hpart : keyPart key = part) :
    ((imageEntry none index key offset bytes).map Entry.key).Nodup ∧
      ∀ k ∈ (imageEntry none index key offset bytes).map Entry.key, keyPart k = part := by
  unfold imageEntry
  split
  · exact ⟨.nil, nofun⟩
  · refine ⟨nodup_singleton _, fun k hk => ?_⟩
    rw [map_singleton, mem_singleton] at hk
    rw [hk, hpart]

theorem given_keys {auxiliary : List (UInt64 × UInt64)}
    (h : (checkKeys [] auxiliary : Outcome (EncodeError κ) Unit) = .value ()) :
    ((auxiliary.map fun e => (⟨e.1.toNat, e.2.toNat, none⟩ : Entry)).map Entry.key).Nodup ∧
      ∀ k ∈ (auxiliary.map fun e => (⟨e.1.toNat, e.2.toNat, none⟩ : Entry)).map Entry.key, keyPart k = 4 := by
  obtain ⟨hkeys, hnodup⟩ := checkKeys_eq h
  rw [map_map]
  refine ⟨?_, fun k hk => ?_⟩
  · have hmap := hnodup.map (f := UInt64.toNat) fun _ _ heq => UInt64.toNat.inj heq
    rwa [map_map] at hmap
  · obtain ⟨e, he, rfl⟩ := mem_map.1 hk
    obtain ⟨hlarge, hspecial, -⟩ := hkeys e he
    simp only [mem_cons, not_mem_nil, or_false, not_or] at hspecial
    obtain ⟨hbias, hlifecycle, htls, hindirect⟩ := hspecial
    have hnull : e.1.toNat ≠ atNull := Nat.ne_of_gt ((Nat.zero_lt_succ _).trans hlarge)
    have hsmall : ¬ (e.1.toNat ≤ atExecfn ∨ e.1.toNat = atImageLoadBias) := not_or.2 ⟨Nat.not_le_of_lt hlarge, hbias⟩
    simp only [Function.comp, keyPart, if_neg hnull, if_neg hsmall, if_neg hlifecycle, if_neg htls, if_neg hindirect]

theorem entries_nodup {process : Process} {auxiliary : List (UInt64 × UInt64)} {x : Extents} {random execfn : ℕ}
    (h : (checkKeys [] auxiliary : Outcome (EncodeError κ) Unit) = .value ()) :
    ((entries process none auxiliary x random execfn).map Entry.key).Nodup := by
  have hfixed : ((fixedEntries process random execfn).filter fun e => e.key ≠ atNull).map Entry.key = fixedKeys := by rfl
  have hfirst : fixedKeys.Nodup ∧ ∀ k ∈ fixedKeys, keyPart k < 1 := by decide
  unfold entries
  rw [map_append, map_append, map_append, map_append, map_append, hfixed]
  have hlifecycle := nodup_next hfirst (@imageEntry_keys 0 x.lifecycle atLifecycleImage _ process.lifecycle rfl)
  have htls := nodup_next hlifecycle (@imageEntry_keys 1 x.tls atTlsImage _ process.tls rfl)
  have hindirect := nodup_next htls (@imageEntry_keys 2 x.indirect atIndirectImage _ process.indirect rfl)
  exact (nodup_next (nodup_next hindirect (given_keys h)) ⟨nodup_singleton _, by decide⟩).1

/-! ## The parts of the stack -/

def placedImages (process : Process) (x : Extents) : List (ℕ × ℕ × List UInt8) :=
  [(atLifecycleImage, x.lifecycle, process.lifecycle), (atTlsImage, x.tls, process.tls),
    (atIndirectImage, x.indirect, process.indirect)].filter fun image => !image.2.2.isEmpty

theorem images_eq (process : Process) (x : Extents) :
    (placedImages process x).map (fun image => (image.1, image.2.2)) = process.images ∧
    imagePatch x.lifecycle process.lifecycle ++ imagePatch x.tls process.tls ++ imagePatch x.indirect process.indirect =
      (placedImages process x).map (fun image => ⟨image.2.1, image.2.2⟩) ∧
    imageEntry none 0 atLifecycleImage x.lifecycle process.lifecycle ++ imageEntry none 1 atTlsImage x.tls process.tls ++
        imageEntry none 2 atIndirectImage x.indirect process.indirect =
      (placedImages process x).map (fun image => ⟨image.1, image.2.1, some .stackAddress⟩) := by
  unfold placedImages Process.images imagePatch imageEntry
  cases hlifecycle : process.lifecycle.isEmpty <;> cases htls : process.tls.isEmpty <;>
    cases hindirect : process.indirect.isEmpty <;> simp [hlifecycle, htls, hindirect]

theorem textPatches_bytes (offset : ℕ) (values : List (List UInt8)) :
    (textPatches offset values).map Patch.bytes = values.map fun value => value ++ [0] := by
  induction values generalizing offset with
  | nil => rfl
  | cons value values ih => rw [textPatches, map_cons, map_cons, ih]

theorem textPatches_length (offset : ℕ) (values : List (List UInt8)) :
    (textPatches offset values).length = values.length := by
  have h := congrArg length (textPatches_bytes offset values)
  rwa [length_map, length_map] at h

section Assemble

variable {wire : Wire κ} {argv envp : List (List UInt8)} {execfn : List UInt8} {random : Fixed 16}
  {auxiliary : List (UInt64 × UInt64)} {process : Process} {x : Extents} {base : ℕ}

def randomOffset (argv envp : List (List UInt8)) (process : Process) (x : Extents) : ℕ :=
  x.pointerBytes + textBytes argv + textBytes (process.kept envp)

def vector (argv envp : List (List UInt8)) (auxiliary : List (UInt64 × UInt64)) (process : Process) (x : Extents) :
    List Entry :=
  entries process none auxiliary x (randomOffset argv envp process x) (randomOffset argv envp process x + 16)

def entryStack (base : ℕ) (argv envp : List (List UInt8)) (auxiliary : List (UInt64 × UInt64)) (process : Process)
    (x : Extents) : EntryStack where
  arguments := (textPatches x.pointerBytes argv).map fun p => base + p.offset
  environment := (textPatches (x.pointerBytes + textBytes argv) (process.kept envp)).map fun p => base + p.offset
  auxiliary := (vector argv envp auxiliary process x).map fun e => (e.key, Cell.word base (e.resolve process.image))
  random := base + randomOffset argv envp process x
  execfn := base + (randomOffset argv envp process x + 16)
  images := (placedImages process x).map fun image => (image.1, base + image.2.1, image.2.2)

theorem payload_ne_nil {p : Patch} (hp : p ∈ payload argv envp execfn random process x) : p.offset < p.stop := by
  have htext : ∀ offset values, ∀ p ∈ textPatches offset values, p.offset < p.stop := by
    intro offset values
    induction values generalizing offset with
    | nil => nofun
    | cons value values ih =>
      refine forall_mem_cons.2 ⟨?_, ih _⟩
      simp only [Patch.stop, length_append, length_singleton]
      omega
  have himage : ∀ offset bytes, ∀ p ∈ imagePatch offset bytes, p.offset < p.stop := by
    intro offset bytes p hp
    unfold imagePatch at hp
    split at hp
    · cases hp
    next hne =>
      rw [mem_singleton] at hp
      subst hp
      have hpos : 0 < bytes.length := length_pos_iff.2 (by simpa using hne)
      simp only [Patch.stop]
      omega
  simp only [payload, mem_append, mem_singleton] at hp
  rcases hp with (((((hp | hp) | rfl) | rfl) | hp) | hp) | hp
  · exact htext _ _ p hp
  · exact htext _ _ p hp
  · simp only [Patch.stop, random.2]
    omega
  · simp only [Patch.stop, length_append, length_singleton]
    omega
  · exact himage _ _ p hp
  · exact himage _ _ p hp
  · exact himage _ _ p hp

theorem copies_eq (base : ℕ) (argv envp : List (List UInt8)) (execfn : List UInt8) (random : Fixed 16)
    (auxiliary : List (UInt64 × UInt64)) (process : Process) (x : Extents) :
    (entryStack base argv envp auxiliary process x).copies argv (process.kept envp) execfn random.1 =
      (payload argv envp execfn random process x).map fun p => (base + p.offset, p.bytes) := by
  unfold EntryStack.copies entryStack payload
  rw [← textPatches_bytes x.pointerBytes argv, ← textPatches_bytes (x.pointerBytes + textBytes argv) (process.kept envp),
    zip_map', zip_map', append_assoc _ (imagePatch x.lifecycle process.lifecycle),
    append_assoc _ (imagePatch x.lifecycle process.lifecycle ++ imagePatch x.tls process.tls),
    (images_eq process x).2.1]
  simp only [map_append, map_map, map_cons, map_nil]
  rfl

theorem resolve_of_none {e : Entry} (h : ∀ image : Executable, image.supplies e.key = none) (image : Option Executable) :
    e.resolve image = (e.value, e.relocation) := by
  unfold Entry.resolve
  cases image with
  | none => rfl
  | some image => rw [Option.bind_some, h image]

theorem supplies_given {key : ℕ} (hlarge : atExecfn < key) (hbias : key ≠ atImageLoadBias) (image : Executable) :
    image.supplies key = none := by
  have hne : ∀ other ≤ atExecfn, key ≠ other := fun other hle heq => by omega
  unfold Executable.supplies
  rw [if_neg (hne _ (by decide)), if_neg (hne _ (by decide)), if_neg (hne _ (by decide)), if_neg (hne _ (by decide)),
    if_neg (hne _ (by decide)), if_neg hbias]

theorem mem_vector {e : Entry} : e ∈ vector argv envp auxiliary process x ↔
    e ∈ (fixedEntries process (randomOffset argv envp process x) (randomOffset argv envp process x + 16)).filter
        (fun e => e.key ≠ atNull) ∨
      (∃ image ∈ placedImages process x, e = ⟨image.1, image.2.1, some .stackAddress⟩) ∨
      (∃ given ∈ auxiliary, e = ⟨given.1.toNat, given.2.toNat, none⟩) ∨ e = ⟨atNull, 0, none⟩ := by
  unfold vector entries
  rw [append_assoc _ (imageEntry none 0 _ _ _), append_assoc _ (imageEntry none 0 _ _ _ ++ _),
    (images_eq process x).2.2]
  simp only [mem_append, mem_map, mem_singleton, or_assoc, eq_comm]

variable {image : ℕ × ℕ × List UInt8}

section

variable (h : image ∈ placedImages process x)
include h

theorem placed_mem : (⟨image.2.1, image.2.2⟩ : Patch) ∈ payload argv envp execfn random process x := by
  have hmem : (⟨image.2.1, image.2.2⟩ : Patch) ∈ imagePatch x.lifecycle process.lifecycle ++ imagePatch x.tls process.tls ++
      imagePatch x.indirect process.indirect := by
    rw [(images_eq process x).2.1]
    exact mem_map_of_mem h
  simp only [payload, mem_append] at hmem ⊢
  tauto

theorem placed_key : image.1 ∈ [atLifecycleImage, atTlsImage, atIndirectImage] := by
  simp only [placedImages, mem_filter, mem_cons, not_mem_nil, or_false] at h
  rcases h.1 with rfl | rfl | rfl <;> simp

theorem placed_supplies (executable : Executable) : executable.supplies image.1 = none := by
  have hkey := placed_key h
  simp only [mem_cons, not_mem_nil, or_false] at hkey
  rcases hkey with hkey | hkey | hkey <;> rw [hkey] <;> rfl

end

theorem placed_aligned (haligned : 8 ∣ x.lifecycle ∧ 8 ∣ x.tls ∧ 8 ∣ x.indirect)
    (h : image ∈ placedImages process x) : 8 ∣ image.2.1 := by
  simp only [placedImages, mem_filter, mem_cons, not_mem_nil, or_false] at h
  rcases h.1 with rfl | rfl | rfl
  · exact haligned.1
  · exact haligned.2.1
  · exact haligned.2.2

theorem fixedEntries_lt {process : Process} {random execfn : ℕ} (hrandom : random < 2 ^ 64) (hexecfn : execfn < 2 ^ 64) :
    ∀ e ∈ fixedEntries process random execfn, e.key < 2 ^ 64 ∧ e.value < 2 ^ 64 := by
  have hkeys : ∀ k ∈ fixedKeys ++ [atNull], k < 2 ^ 64 := by decide
  have hid : ∀ id : UInt32, id.toNat < 2 ^ 64 := fun id => id.toNat_lt.trans (by decide)
  have hsecure : (if process.identity.isSecure then 1 else 0) < 2 ^ 64 := by split <;> decide
  have hclock : clockTicksPerSecond < 2 ^ 64 := by decide
  have hzero : 0 < 2 ^ 64 := by decide
  intro e he
  refine ⟨hkeys e.key ?_, ?_⟩
  · rw [show fixedKeys ++ [atNull] = (fixedEntries process random execfn).map Entry.key from rfl]
    exact mem_map_of_mem he
  · have hvalues : ∀ v ∈ (fixedEntries process random execfn).map Entry.value, v < 2 ^ 64 := by
      simp only [fixedEntries, map_cons, map_nil, forall_mem_cons]
      exact ⟨hzero, hzero, hzero, hzero, hzero, hzero, hzero, hid _, hid _, hid _, hid _, hzero, hclock, hsecure, hrandom,
        hexecfn, hzero, hzero, nofun⟩
    exact hvalues _ (mem_map_of_mem he)

theorem payload_lt (h : Measured wire argv envp execfn random process x) {p : Patch}
    (hp : p ∈ payload argv envp execfn random process x) : p.offset < x.stackLength := by
  have hne := payload_ne_nil hp
  have hstop := (h.payload.inside p hp).2
  omega

theorem vector_lt (h : Measured wire argv envp execfn random process x) {e : Entry}
    (he : e ∈ vector argv envp auxiliary process x) : e.key < 2 ^ 64 ∧ (e.resolve process.image).1 < 2 ^ 64 := by
  have hpayload : ∀ p ∈ payload argv envp execfn random process x, p.offset < 2 ^ 64 :=
    fun p hp => (payload_lt h hp).trans h.limit.2
  have hvalue : e.key < 2 ^ 64 ∧ e.value < 2 ^ 64 := by
    rcases mem_vector.1 he with he | ⟨image, himage, rfl⟩ | ⟨given, -, rfl⟩ | rfl
    · have hrandom := hpayload ⟨randomOffset argv envp process x, random.1⟩ (by simp [payload, randomOffset])
      have hexecfn := hpayload ⟨randomOffset argv envp process x + 16, execfn ++ [0]⟩ (by simp [payload, randomOffset])
      exact fixedEntries_lt hrandom hexecfn e (mem_of_mem_filter he)
    · have hkey := placed_key himage
      have hsmall : ∀ k ∈ [atLifecycleImage, atTlsImage, atIndirectImage], k < 2 ^ 64 := by decide
      exact ⟨hsmall _ hkey, hpayload _ (placed_mem himage)⟩
    · exact ⟨given.1.toNat_lt, given.2.toNat_lt⟩
    · exact ⟨by decide, by decide⟩
  refine ⟨hvalue.1, ?_⟩
  unfold Entry.resolve
  split
  next value _ => exact value.toNat_lt
  · exact hvalue.2

theorem pointerCells_mem {offset : ℕ} {values : List (List UInt8)} {cell : Cell} (h : cell ∈ pointerCells offset values) :
    ∃ p ∈ textPatches offset values, cell = (p.offset, some .stackAddress) := by
  obtain ⟨p, hp, rfl⟩ := mem_map.1 h
  exact ⟨p, hp, rfl⟩

theorem argument_mem {p : Patch} (hp : p ∈ textPatches x.pointerBytes argv) :
    p ∈ payload argv envp execfn random process x := by
  simp only [payload, mem_append]
  tauto

theorem environment_mem {p : Patch} (hp : p ∈ textPatches (x.pointerBytes + textBytes argv) (process.kept envp)) :
    p ∈ payload argv envp execfn random process x := by
  simp only [payload, mem_append]
  tauto

section Placed

variable (h : Measured wire argv envp execfn random process x) (hbase : base + x.stackLength ≤ 2 ^ 64)

include h

theorem pointerArea_lt (hcells : 8 * (pointerArea argv envp auxiliary process x).length = x.pointerBytes) :
    ∀ cell ∈ pointerArea argv envp auxiliary process x, cell.1 < 2 ^ 64 := by
  have hlimit := h.limit.2
  have hrange := h.payload.range
  have hargc : argv.length < 2 ^ 64 := by
    have hlen : argv.length ≤ (pointerArea argv envp auxiliary process x).length := by
      simp only [pointerArea, pointerCells, length_append, length_map, textPatches_length]
      omega
    omega
  intro cell hcell
  simp only [pointerArea, mem_append, mem_singleton] at hcell
  rcases hcell with ((((rfl | hcell) | rfl) | hcell) | rfl) | hcell
  · exact hargc
  · obtain ⟨p, hp, rfl⟩ := pointerCells_mem hcell
    exact (payload_lt h (argument_mem hp)).trans hlimit
  · exact Nat.two_pow_pos 64
  · obtain ⟨p, hp, rfl⟩ := pointerCells_mem hcell
    exact (payload_lt h (environment_mem hp)).trans hlimit
  · exact Nat.two_pow_pos 64
  · obtain ⟨e, he, hcell⟩ := mem_flatMap.1 hcell
    have hlt := @vector_lt κ wire argv envp execfn random auxiliary process x h e he
    simp only [mem_cons, not_mem_nil, or_false] at hcell
    rcases hcell with rfl | rfl
    · exact hlt.1
    · exact hlt.2

include hbase

theorem word_of_payload {p : Patch} (hp : p ∈ payload argv envp execfn random process x) :
    Cell.word base (p.offset, some .stackAddress) = base + p.offset := by
  have hlt := payload_lt h hp
  simp only [Cell.word, if_true]
  rw [Nat.mod_eq_of_lt (by omega), Nat.add_comm]

theorem words_eq : (pointerArea argv envp auxiliary process x).map (Cell.word base) =
    (entryStack base argv envp auxiliary process x).words := by
  have hpointers : ∀ offset values, (∀ p ∈ textPatches offset values, p ∈ payload argv envp execfn random process x) →
      (pointerCells offset values).map (Cell.word base) = (textPatches offset values).map fun p => base + p.offset := by
    intro offset values hmem
    rw [pointerCells, map_map]
    exact map_congr_left fun p hp => word_of_payload h hbase (hmem p hp)
  have hentries : ∀ items : List Entry, (entryCells process.image items).map (Cell.word base) =
      (items.map fun e => (e.key, Cell.word base (e.resolve process.image))).flatMap fun entry => [entry.1, entry.2] := by
    intro items
    rw [entryCells, map_flatMap, flatMap_map]
    rfl
  simp only [pointerArea, EntryStack.words, entryStack, map_append, map_cons, map_nil,
    hpointers _ _ (fun p hp => argument_mem hp), hpointers _ _ (fun p hp => environment_mem hp), hentries,
    length_map, textPatches_length]
  rfl

theorem mem_auxiliary {p : Patch} (hp : p ∈ payload argv envp execfn random process x) {key : ℕ}
    (he : ⟨key, p.offset, some .stackAddress⟩ ∈ vector argv envp auxiliary process x)
    (hnone : ∀ image : Executable, image.supplies key = none) :
    (key, base + p.offset) ∈ (entryStack base argv envp auxiliary process x).auxiliary := by
  refine mem_map.2 ⟨_, he, ?_⟩
  rw [resolve_of_none hnone, word_of_payload h hbase hp]

end Placed

section

variable {b : Builder} (h : Measured wire argv envp execfn random process x)
  (hbuilt : Built wire.maxStackBytes b (pointerArea argv envp auxiliary process x)
    (payload argv envp execfn random process x))
  (hcells : 8 * (pointerArea argv envp auxiliary process x).length = x.pointerBytes)
include h hbuilt hcells

theorem memory_of_built (hbase : base + x.stackLength ≤ 2 ^ 64) :
    ∃ tail, relocated base (b.stack.take x.stackLength) b.relocations =
        (entryStack base argv envp auxiliary process x).words.flatMap (toLe 8) ++ tail ∧
      (relocated base (b.stack.take x.stackLength) b.relocations).length = x.stackLength ∧
      ∀ p ∈ payload argv envp execfn random process x,
        slice (relocated base (b.stack.take x.stackLength) b.relocations) p.offset p.stop = some p.bytes := by
  have hwords := wordPatches_ascending 0 (pointerArea argv envp auxiliary process x)
  rw [Nat.zero_add, hcells] at hwords
  have hall := hwords.append h.payload
  obtain ⟨patches, hperm, -, hstack⟩ := hbuilt.stack
  have hslice : ∀ p ∈ wordPatches 0 (pointerArea argv envp auxiliary process x) ++
      payload argv envp execfn random process x, slice (b.stack.take x.stackLength) p.offset p.stop = some p.bytes := by
    intro p hp
    refine slice_take ?_ (hall.inside p hp).2
    rw [hstack]
    exact hall.slice_of_perm hperm (by rw [length_replicate]; exact h.limit.1) hp
  have hfront := slice_words (Nat.zero_le _) fun p hp => hslice p (mem_append_left _ hp)
  obtain ⟨front, tail, htaken, hempty, -⟩ := slice_eq_some.1 hfront
  rw [length_eq_zero_iff] at hempty
  subst hempty
  have hmemory := relocated_words base (pointerArea_lt h hcells) [] tail
  rw [← htaken, length_nil, ← hbuilt.relocations] at hmemory
  rw [nil_append] at htaken hmemory
  have hlen : ∀ f : Cell → ℕ, ((pointerArea argv envp auxiliary process x).flatMap fun cell => toLe 8 (f cell)).length =
      x.pointerBytes := by
    intro f
    rw [flatMap_length (fun cell => toLe_length 8 (f cell)), Nat.mul_comm]
    exact hcells
  have htotal : (b.stack.take x.stackLength).length = x.stackLength := by
    rw [length_take, hbuilt.length, min_eq_left h.limit.1]
  refine ⟨tail, ?_, ?_, fun p hp => ?_⟩
  · rw [hmemory, ← words_eq h hbase, flatMap_map]
  · rw [htaken, length_append, hlen Prod.fst] at htotal
    rw [hmemory, length_append, hlen (Cell.word base), htotal]
  · rw [hmemory]
    have htake := hslice p (mem_append_right _ hp)
    rw [htaken] at htake
    refine slice_behind ((hlen Prod.fst).trans (hlen (Cell.word base)).symm) ?_ htake
    rw [hlen Prod.fst]
    exact (h.payload.inside p hp).1

theorem correct_of_built
    (hkeys : (checkKeys [] auxiliary : Outcome (EncodeError κ) Unit) = .value ()) (hexecfn : 0 ∉ execfn)
    (halign : 16 ∣ base) (hbase : base + x.stackLength ≤ 2 ^ 64) :
    (entryStack base argv envp auxiliary process x).Correct base
      (relocated base (b.stack.take x.stackLength) b.relocations) argv (process.kept envp) execfn random.1 auxiliary
      process := by
  obtain ⟨tail, hmemory, hlen, hcopies⟩ := memory_of_built h hbuilt hcells hbase
  have hwords : 8 * (entryStack base argv envp auxiliary process x).words.length = x.pointerBytes := by
    rw [← words_eq h hbase, length_map, hcells]
  have hcopy := copies_eq base argv envp execfn random auxiliary process x
  have hsmall : ∀ word ∈ (entryStack base argv envp auxiliary process x).words, word < 2 ^ 64 := by
    intro word hword
    rw [← words_eq h hbase] at hword
    obtain ⟨cell, hcell, rfl⟩ := mem_map.1 hword
    unfold Cell.word
    split
    · exact Nat.mod_lt _ (Nat.two_pow_pos 64)
    · exact pointerArea_lt h hcells cell hcell
  have hlast : (vector argv envp auxiliary process x).getLast? = some ⟨atNull, 0, none⟩ := by
    rw [vector, entries, getLast?_append]
    rfl
  have hnull : ∀ image : Executable, image.supplies atNull = none := fun _ => rfl
  refine ⟨fun i word hword => ?_, ?_, ?_, ?_, ?_, ?_, ?_, ?_, ?_, ⟨?_, ?_⟩, ?_, ?_, ?_⟩
  · rw [hmemory]
    exact readLe_words hword (hsmall word (mem_of_getElem? hword)) tail
  · simp only [entryStack, length_map, textPatches_length]
  · simp only [entryStack, length_map, textPatches_length]
  · intro copy hmem
    rw [hcopy] at hmem
    obtain ⟨p, hp, rfl⟩ := mem_map.1 hmem
    refine ⟨Nat.le_add_right _ _, ?_⟩
    rw [Nat.add_sub_cancel_left]
    exact hcopies p hp
  · intro text htext
    simp only [mem_append, mem_singleton] at htext
    rcases htext with (htext | htext) | rfl
    · exact h.clean.1 text htext
    · exact h.clean.2 text (mem_of_mem_filter htext)
    · exact hexecfn
  · simp only [entryStack, getLast?_map, hlast, Option.map_some]
    rw [resolve_of_none hnull]
    rfl
  · simp only [entryStack, map_map]
    exact entries_nodup hkeys
  · refine mem_auxiliary h hbase (p := ⟨_, random.1⟩) (by simp [payload]) (mem_vector.2 (.inl ?_)) fun _ => rfl
    simp [fixedEntries, atNull, atRandom, randomOffset]
  · refine mem_auxiliary h hbase (p := ⟨_, execfn ++ [0]⟩) (by simp [payload, randomOffset]) (mem_vector.2 (.inl ?_))
      fun _ => rfl
    simp [fixedEntries, atNull, atExecfn]
  · rw [← (images_eq process x).1]
    simp only [entryStack, map_map]
    rfl
  · intro image himage
    obtain ⟨placed, hplaced, rfl⟩ := mem_map.1 himage
    refine ⟨mem_auxiliary h hbase (placed_mem hplaced) (mem_vector.2 (.inr (.inl ⟨placed, hplaced, rfl⟩)))
      (placed_supplies hplaced :), ?_⟩
    exact (Dvd.dvd.trans (by decide) halign).add (placed_aligned h.aligned hplaced)
  · intro given hgiven
    obtain ⟨hlarge, hspecial, -⟩ := (checkKeys_eq hkeys).1 given hgiven
    have hnone := supplies_given hlarge fun heq => hspecial (by rw [heq]; simp)
    refine mem_map.2 ⟨⟨given.1.toNat, given.2.toNat, none⟩, mem_vector.2 (.inr (.inr (.inl ⟨given, hgiven, rfl⟩))), ?_⟩
    rw [resolve_of_none hnone]
    rfl
  · rw [EntryStack.regions, hcopy, hwords, map_map]
    refine pairwise_cons.2 ⟨fun region hregion => ?_, pairwise_map.2 (h.payload.ordered.imp fun {p q} hpq => ?_)⟩
    · obtain ⟨p, hp, rfl⟩ := mem_map.1 hregion
      exact .inl (Nat.add_le_add_left (h.payload.inside p hp).1 base)
    · rw [Patch.stop] at hpq
      exact .inl (by simp only [Function.comp]; omega)
  · intro region hregion
    rw [EntryStack.regions, hcopy, hwords, map_map] at hregion
    have hrange := h.payload.range
    rcases mem_cons.1 hregion with rfl | hregion
    · exact ⟨le_rfl, by rw [hlen]; exact Nat.add_le_add_left hrange base⟩
    · obtain ⟨p, hp, rfl⟩ := mem_map.1 hregion
      have hstop := (h.payload.inside p hp).2
      rw [Patch.stop] at hstop
      exact ⟨Nat.le_add_right _ _, by rw [hlen]; simp only [Function.comp]; omega⟩

end

end Assemble

/-! ## The encoder -/

theorem encodeProcess_eq {wire : Wire κ} {argv envp : List (List UInt8)} {execfn : List UInt8} {random : Fixed 16}
    {auxiliary : List (UInt64 × UInt64)} {process : Process} {output : List UInt8} {result : ℕ × List UInt8}
    (h : encodeProcess wire argv envp execfn random auxiliary process none output = .value result) :
    (checkKeys [] auxiliary : Outcome (EncodeError κ) Unit) = .value () ∧ 0 ∉ execfn ∧
      ∃ x b, measure wire argv envp execfn random auxiliary process none = .value x ∧
        build wire argv envp execfn random auxiliary process none x = .value b ∧
        wire.encode 0 (b.stack.take x.stackLength) b.relocations output = .ok result := by
  unfold encodeProcess at h
  simp only [Outcome.bind_eq_value, Outcome.reject_eq_value] at h
  obtain ⟨_, hkeys, _, -, _, hexecfn, x, hmeasure, b, hbuild, hencode⟩ := h
  refine ⟨hkeys, hexecfn, x, b, hmeasure, hbuild, ?_⟩
  split at hencode
  next hok =>
    cases hencode
    exact hok
  · cases hencode

theorem kept_secure {process : Process} {envp : List (List UInt8)} (hsecure : process.identity.isSecure = true)
    {entry : List UInt8} (h : entry ∈ process.kept envp) {name : List UInt8} (hname : name ∈ loaderControls) :
    ¬ name ++ ascii "=" <+: entry := by
  rintro ⟨rest, rfl⟩
  have hallowed := (mem_filter.1 h).2
  simp only [Identity.allowsEnvironment, hsecure, Bool.not_true, Bool.false_or, Bool.not_eq_true', any_eq_false,
    Bool.and_eq_true, not_and, Bool.not_eq_true] at hallowed
  have hrefused := hallowed name hname (by simp)
  rw [append_assoc, drop_left, Bool.eq_false_iff] at hrefused
  exact hrefused (List.isPrefixOf_iff_prefix.2 (prefix_append _ _))

/-- **An encoded process finds its entry stack**: the arguments, the kept environment and the auxiliary vector, at any
aligned base. -/
theorem encoded_stack_correct {wire : Wire κ} {argv envp : List (List UInt8)} {execfn : List UInt8} {random : Fixed 16}
    {auxiliary : List (UInt64 × UInt64)} {process : Process} {output : List UInt8} {result : ℕ × List UInt8}
    (h : encodeProcess wire argv envp execfn random auxiliary process none output = .value result) :
    ∃ stack relocations, wire.encode 0 stack relocations output = .ok result ∧
      (∀ base, 16 ∣ base → base + stack.length ≤ 2 ^ 64 → ∃ entry : EntryStack,
        entry.Correct base (relocated base stack relocations) argv
          (envp.filter fun e => process.identity.allowsEnvironment e) execfn random.1 auxiliary process) ∧
      (process.identity.realUid ≠ process.identity.effectiveUid ∨ process.identity.realGid ≠ process.identity.effectiveGid →
        ∀ e ∈ envp.filter fun e => process.identity.allowsEnvironment e,
          ∀ name ∈ [ascii "LD_PRELOAD", ascii "LD_LIBRARY_PATH", ascii "LD_AUDIT"], ¬ name ++ ascii "=" <+: e) := by
  obtain ⟨hkeys, hexecfn, x, b, hmeasure, hbuild, hencode⟩ := encodeProcess_eq h
  have hmeasured := measure_eq hmeasure
  obtain ⟨hbuilt, hcursor⟩ := build_eq hbuild
  refine ⟨_, _, hencode, fun base halign hbase => ⟨entryStack base argv envp auxiliary process x, ?_⟩, ?_⟩
  · rw [length_take, hbuilt.length, min_eq_left hmeasured.limit.1] at hbase
    exact correct_of_built hmeasured hbuilt (hbuilt.cursor.symm.trans hcursor) hkeys hexecfn halign hbase
  · intro hids e he name hname
    have hsecure : process.identity.isSecure = true := by simpa [Identity.isSecure] using hids
    exact kept_secure hsecure he (by simp only [loaderControls, mem_cons, not_mem_nil, or_false] at hname ⊢; tauto)

namespace StackFixture

def wire : Wire Unit := ⟨400, 16, fun _ stack _ _ => .ok (stack.length, stack)⟩

def process : Process := ⟨none, ⟨1, 0, 0, 0⟩, [7, 7, 7], [], []⟩

def encoded : Outcome (EncodeError Unit) (ℕ × List UInt8) :=
  encodeProcess wire [ascii "sh"] [ascii "LD_PRELOAD=x", ascii "A=b"] (ascii "sh") ⟨List.replicate 16 5, rfl⟩
    [(100, 9)] process none []

def encodedLength : Option ℕ :=
  match encoded with
  | .value result => some result.1
  | _ => none

theorem encoded_stack_correct_shell : ∃ stack relocations, wire.encode 0 stack relocations [] = .ok (stack.length, stack) ∧
    ∃ entry : EntryStack, entry.Correct 4096 (relocated 4096 stack relocations) [ascii "sh"] [ascii "A=b"] (ascii "sh")
      (List.replicate 16 5) [(100, 9)] process := by
  have hlength : encodedLength = some 400 := by decide +kernel
  unfold encodedLength at hlength
  cases h : encoded with
  | value result =>
    rw [h] at hlength
    obtain ⟨stack, relocations, hencode, hcorrect, -⟩ := encoded_stack_correct h
    cases hencode
    have hsize : stack.length = 400 := Option.some.inj hlength
    obtain ⟨entry, hentry⟩ := hcorrect 4096 (by decide) (by rw [hsize]; decide)
    exact ⟨stack, relocations, rfl, entry, hentry⟩
  | failed e | panicked =>
    rw [h] at hlength
    cases hlength

end StackFixture

end MochiSyscalls.PosixClient.ProcessImage
