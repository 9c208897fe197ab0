import MochiSyscalls.PosixClient.LaunchContext

/-! # What a launch passes on

Both writers fill a launch context slot by slot with the same metadata words; they differ in the name under
which a handle is passed. The reader finds under the keys of a slot what was put there, since no two slots
share a key. -/

namespace MochiSyscalls.PosixClient
open Foundations Effects Outcome Eff PosixProtocol LaunchContext Function Option
set_option autoImplicit false

/-! ## Slots and keys -/

variable (index : ℕ)

def handleKeyAt : UInt64 := fdHandleKeyPrefix ||| (UInt32.ofInt index).toUInt64

def metadataKeyAt : UInt64 := fdMetadataKeyPrefix ||| (UInt32.ofInt index).toUInt64

theorem fdHandleKey_index : fdHandleKey index = some (handleKeyAt index) := by
  unfold fdHandleKey keyOf
  exact if_neg (by omega)

theorem fdMetadataKey_index : fdMetadataKey index = some (metadataKeyAt index) := by
  unfold fdMetadataKey keyOf
  exact if_neg (by omega)

theorem isFd_of_lt {index : ℕ} (h : index < defaultFdLimit) : IsFd index := by
  unfold defaultFdLimit at h
  exact ⟨by omega, by omega⟩

variable {i j : ℕ}

theorem keysAt_ne (hi : i < defaultFdLimit) (hj : j < defaultFdLimit) (h : i ≠ j) :
    handleKeyAt i ≠ handleKeyAt j ∧ metadataKeyAt i ≠ metadataKeyAt j := by
  have hfd : (i : ℤ) ≠ j := by exact_mod_cast h
  constructor <;> intro hkey <;> apply hfd
  · exact fdHandleKey_injective (isFd_of_lt hi) (isFd_of_lt hj) (by rw [fdHandleKey_index, fdHandleKey_index, hkey])
  · exact fdMetadataKey_injective (isFd_of_lt hi) (isFd_of_lt hj) (by rw [fdMetadataKey_index, fdMetadataKey_index, hkey])

theorem metadataKeyAt_ne_fdTableKey (hi : i < defaultFdLimit) : metadataKeyAt i ≠ fdTableKey := by
  intro hkey
  exact fdMetadataKey_ne_fdTableKey (isFd_of_lt hi) (by rw [fdMetadataKey_index, hkey])

/-! ## Filling a context -/

namespace LaunchContent

variable {G G' : Type}

def put (c : LaunchContent G) (index : ℕ) (word : Option UInt64) (handle : Option G) : LaunchContent G :=
  (c.putHandle (handleKeyAt index) handle).putValue (metadataKeyAt index) word

theorem putValue_putHandle (c : LaunchContent G) (key key' : UInt64) (word : Option UInt64) (handle : Option G) :
    (c.putValue key word).putHandle key' handle = (c.putHandle key' handle).putValue key word := rfl

/-- The slots below `n`, put into an empty context. -/
def filled (word : ℕ → Option UInt64) (handle : ℕ → Option G) : ℕ → LaunchContent G
  | 0 => empty
  | n + 1 => (filled word handle n).put n (word n) (handle n)

variable {i : ℕ} {word : ℕ → Option UInt64} {handle : ℕ → Option G}

theorem filled_at {n : ℕ} (hn : n ≤ defaultFdLimit) (hi : i < n) :
    (filled word handle n).values (metadataKeyAt i) = word i ∧
      (filled word handle n).handles (handleKeyAt i) = handle i := by
  induction n with
  | zero => omega
  | succ n ih =>
    by_cases heq : i = n
    · subst heq
      exact ⟨update_self .., update_self ..⟩
    · obtain ⟨hvalue, hhandle⟩ := ih (by omega) (by omega)
      have hne := keysAt_ne (by omega : i < defaultFdLimit) (by omega : n < defaultFdLimit) heq
      exact ⟨(update_of_ne hne.2 ..).trans hvalue, (update_of_ne hne.1 ..).trans hhandle⟩

/-- One content is the other with its handles renamed: the same values, handles under the same keys. -/
def SameUpTo (name : G → Option G') (c : LaunchContent G) (c' : LaunchContent G') : Prop :=
  c'.values = c.values ∧ ∀ key, (c'.handles key).map some = (c.handles key).map name

variable {c : LaunchContent G} {c' : LaunchContent G'} {name : G → Option G'}

theorem SameUpTo.putValue (h : SameUpTo name c c')
    (key : UInt64) (word : Option UInt64) : SameUpTo name (c.putValue key word) (c'.putValue key word) := by
  refine ⟨?_, h.2⟩
  simp only [LaunchContent.putValue, h.1]

theorem SameUpTo.putHandle (h : SameUpTo name c c')
    (key : UInt64) {handle : Option G} {handle' : Option G'} (hhandle : handle'.map some = handle.map name) :
    SameUpTo name (c.putHandle key handle) (c'.putHandle key handle') := by
  refine ⟨h.1, fun other => ?_⟩
  by_cases hkey : other = key
  · subst hkey
    simp only [LaunchContent.putHandle, update_self]
    exact hhandle
  · simp only [LaunchContent.putHandle, update_of_ne hkey]
    exact h.2 other

theorem filled_sameUpTo {handle' : ℕ → Option G'} {n : ℕ} (h : ∀ i < n, (handle' i).map some = (handle i).map name) :
    SameUpTo name (filled word handle n) (filled word handle' n) := by
  induction n with
  | zero => exact ⟨rfl, fun _ => rfl⟩
  | succ n ih =>
    have hfront := ih fun i hi => h i (by omega)
    exact (hfront.putHandle (handleKeyAt n) (h n (by omega))).putValue (metadataKeyAt n) (word n)

end LaunchContent

open LaunchContent

section Passing

variable {H H' E ε α : Type} {table : FdTable H} {describe : H → Option LaunchFdDescription} {label : H → Option UInt64}
  {attach : H → Option H'} {rights : H' → UInt64} {restore : Restorer H'} {limit n : ℕ} {entry : Entry H}
  {description : LaunchFdDescription} {word : UInt64} {context : LaunchContext H E}

/-! ## What the writers pass -/

/-- The entry a slot passes on, what `describe` says of it, and its metadata word. -/
def passed (table : FdTable H) (describe : H → Option LaunchFdDescription) (index : ℕ) :
    Option (Entry H × LaunchFdDescription × UInt64) :=
  match inheritable table index with
  | none => none
  | some entry =>
    match (launchEntryMetadata entry describe : Outcome (LaunchFdError Empty) _) with
    | value (description, word) => some (entry, description, word)
    | _ => none

def passedWord (table : FdTable H) (describe : H → Option LaunchFdDescription) (index : ℕ) : Option UInt64 :=
  (passed table describe index).map fun p => p.2.2

def passedHandle (table : FdTable H) (describe : H → Option LaunchFdDescription) (index : ℕ) : Option H :=
  (passed table describe index).bind fun p => if p.2.1.hasHandle then some p.1.handle else none

structure Describes (describe : H → Option LaunchFdDescription) (entry : Entry H) (description : LaunchFdDescription)
    (word : UInt64) : Prop where
  description_eq : describe entry.handle = some description
  requires : inheritedFdKindRequiresHandle description.kind = some description.hasHandle
  flags_small : entry.descriptorFlags.toNat < 256
  encodes : encodeInheritedFdMetadata ⟨description.kind, description.openFlags, entry.descriptorFlags.toUInt8⟩ = some word

theorem launchEntryMetadata_eq_value :
    (launchEntryMetadata entry describe : Outcome (LaunchFdError E) _) = value (description, word) ↔
      Describes describe entry description word := by
  unfold launchEntryMetadata narrowFlags
  simp only [bind_eq_value, okOr_eq_value, reject_eq_value]
  constructor
  · rintro ⟨d, hd, requires, hrequires, -, hsame, flags, hflags, w, hw, hresult⟩
    simp only [value.injEq, Prod.mk.injEq] at hresult
    obtain ⟨rfl, rfl⟩ := hresult
    rw [not_not] at hsame
    split at hflags
    · cases hflags
      exact ⟨hd, hsame ▸ hrequires, ‹_›, hw⟩
    · cases hflags
  · intro h
    exact ⟨_, h.description_eq, _, h.requires, (), not_not_intro rfl, _, if_pos h.flags_small, _, h.encodes, rfl⟩

theorem passed_of_describes {index : ℕ} (hentry : inheritable table index = some entry)
    (h : Describes describe entry description word) :
    passed table describe index = some (entry, description, word) := by
  unfold passed
  rw [hentry]
  simp only [launchEntryMetadata_eq_value.2 h]

theorem passed_of_none (describe : H → Option LaunchFdDescription) {index : ℕ} (h : inheritable table index = none) :
    passed table describe index = none := by
  unfold passed
  rw [h]

def AllDescribed (table : FdTable H) (describe : H → Option LaunchFdDescription) (n : ℕ) : Prop :=
  ∀ i < n, ∀ entry, inheritable table i = some entry → ∃ description word, Describes describe entry description word

/-! ### Staging -/

theorem after_call {answer : LaunchContext H E → α} {change : LaunchContent H → LaunchContent H} {bad : Prop}
    (hbad : ∀ n e, context.fault n = some e → bad) :
    after (call answer change)
      (Settled (fun a c => a = answer context ∧ c.content = change context.content ∧ c.rights = context.rights ∧
        c.fault = context.fault) bad) context := by
  unfold after call
  split
  next e he => exact settled_failed (hbad _ e he)
  next he => exact settled_value ⟨rfl, rfl, rfl, rfl⟩

theorem after_stageHandle {key : UInt64} :
    after (stageHandle description key entry)
      (Settled (fun _ c => c.content =
        context.content.putHandle key (if description.hasHandle then some entry.handle else none)) True) context := by
  unfold stageHandle
  split <;> exact (after_call fun _ _ _ => trivial).mono fun _ _ h => h.2.1

theorem after_stageSlot {index : ℕ} :
    after (stageSlot table describe index) (Settled (fun _ c =>
        c.content = context.content.put index (passedWord table describe index) (passedHandle table describe index) ∧
          ∀ entry, inheritable table index = some entry → ∃ description word, Describes describe entry description word)
        True) context := by
  unfold stageSlot
  simp only [fdHandleKey_index, fdMetadataKey_index, lift_okOr_some_bind]
  cases hentry : inheritable table index with
  | none =>
    have hnone := passed_of_none describe hentry
    refine after_bind_settled (after_call fun _ _ _ => trivial) fun _ c hc => ?_
    refine (after_call fun _ _ _ => trivial).mono fun _ c' hc' => ?_
    refine ⟨?_, nofun⟩
    rw [hc'.2.1, hc.2.1, passedWord, passedHandle, hnone]
    exact putValue_putHandle ..
  | some entry =>
    refine after_bind_lift (fun p hp => ?_) fun _ => trivial
    obtain ⟨description, word⟩ := p
    have hdescribes := launchEntryMetadata_eq_value.1 hp
    refine after_bind_settled after_stageHandle fun _ c hc => ?_
    refine (after_call fun _ _ _ => trivial).mono fun _ c' hc' => ?_
    refine ⟨?_, fun other hother => ?_⟩
    · rw [hc'.2.1, hc, passedWord, passedHandle, passed_of_describes hentry hdescribes]
      rfl
    · cases hother
      exact ⟨description, word, hdescribes⟩

def written {G : Type} (word : ℕ → Option UInt64) (handle : ℕ → Option G) (limit : ℕ) : LaunchContent G :=
  (filled word handle limit).putValue fdTableKey (some fdTableVersion)

theorem after_stageLaunchContext (hempty : context.content = LaunchContent.empty) :
    after (stageLaunchContext table limit describe)
      (Settled (fun _ c => limit ≤ defaultFdLimit ∧ AllDescribed table describe limit ∧
        c.content = written (passedWord table describe) (passedHandle table describe) limit) True) context := by
  unfold stageLaunchContext
  refine after_bind_guard (fun _ => trivial) fun hlimit => ?_
  have hloop : after (forRange (fun index _ => stageSlot table describe index) limit ())
      (Settled (fun _ c => AllDescribed table describe limit ∧
        c.content = filled (passedWord table describe) (passedHandle table describe) limit) True) context := by
    refine after_forRange (I := fun n _ (c : LaunchContext H E) => AllDescribed table describe n ∧
        c.content = filled (passedWord table describe) (passedHandle table describe) n)
      (fun i _ _ c hc => ?_) ⟨fun i hi => absurd hi (Nat.not_lt_zero i), hempty⟩
    refine after_stageSlot.mono fun _ c' hc' => ?_
    refine ⟨Nat.forall_lt_succ_right.2 ⟨hc.1, hc'.2⟩, ?_⟩
    rw [hc'.1, hc.2]
    rfl
  refine after_bind_settled hloop fun _ c hc => ?_
  refine (after_call fun _ _ _ => trivial).mono fun _ c' hc' => ?_
  exact ⟨by omega, hc.1, by rw [hc'.2.1, hc.2, written]⟩

/-! ### Planning -/

variable {output : List ContextUpdate} {maximum : UInt64}

theorem after_putUpdate {index : ℕ} {update : ContextUpdate} {bad : Prop} (hindex : index < output.length) :
    after (putUpdate index update)
      (Settled (fun _ out => out.length = output.length ∧ out.take (index + 1) = output.take index ++ [update]) bad)
      output := by
  unfold after putUpdate
  rw [if_pos hindex]
  refine settled_value ⟨List.length_set .., ?_⟩
  rw [List.take_succ_eq_append_getElem (by simpa using hindex), List.take_set_of_le (le_refl index),
    List.getElem_set_self]

theorem apply_handleUpdate (c : LaunchContent UInt64) (index : ℕ) (handle : Option UInt64) :
    ContextUpdate.apply c ⟨if handle.isSome then .setHandle else .removeHandle, handleKeyAt index, handle.getD 0⟩ =
      c.putHandle (handleKeyAt index) handle := by
  cases handle <;> rfl

theorem apply_metadataUpdate (c : LaunchContent UInt64) (index : ℕ) (word : Option UInt64) :
    ContextUpdate.apply c ⟨if word.isSome then .setValue else .removeValue, metadataKeyAt index, word.getD 0⟩ =
      c.putValue (metadataKeyAt index) word := by
  cases word <;> rfl

/-- The label under which the plan passes the handle of a slot. -/
def plannedHandle (table : FdTable H) (describe : H → Option LaunchFdDescription) (label : H → Option UInt64) (index : ℕ) :
    Option UInt64 :=
  (passedHandle table describe index).bind label

theorem planEntry_eq_value {index : ℕ} {handle word : Option UInt64}
    (h : planEntry maximum describe label (inheritable table index) = value (handle, word)) :
    word = passedWord table describe index ∧ handle = plannedHandle table describe label index ∧
      handle.map some = (passedHandle table describe index).map label ∧
      ∀ entry, inheritable table index = some entry → ∃ description word, Describes describe entry description word := by
  cases hentry : inheritable table index with
  | none =>
    have hnone := passed_of_none describe hentry
    rw [hentry] at h
    cases h
    simp [passedWord, plannedHandle, passedHandle, hnone]
  | some entry =>
    rw [hentry, planEntry, bind_eq_value] at h
    obtain ⟨⟨description, encoded⟩, hmetadata, h⟩ := h
    have hdescribes := launchEntryMetadata_eq_value.1 hmetadata
    have hpassed := passed_of_describes hentry hdescribes
    rw [bind_eq_value] at h
    obtain ⟨planned, hplanned, h⟩ := h
    cases h
    have hhandle : handle = (if description.hasHandle then some entry.handle else none).bind label ∧
        handle.map some = (if description.hasHandle then some entry.handle else none).map label := by
      unfold planHandle at hplanned
      split at hplanned
      · rw [bind_eq_value] at hplanned
        obtain ⟨l, hl, hplanned⟩ := hplanned
        cases hplanned
        have hlabel : label entry.handle = some l := (filter_eq_some_iff.1 (okOr_eq_value.1 hl)).1
        simp [*]
      · cases hplanned
        simp [*]
    refine ⟨?_, ?_, ?_, fun other hother => ?_⟩
    · rw [passedWord, hpassed]
      rfl
    · rw [plannedHandle, passedHandle, hpassed]
      exact hhandle.1
    · rw [passedHandle, hpassed]
      exact hhandle.2
    · cases hother
      exact ⟨description, encoded, hdescribes⟩

/-- The updates written for the slots below `n` fill an empty context. -/
structure Planned (table : FdTable H) (describe : H → Option LaunchFdDescription) (label : H → Option UInt64)
    (length n : ℕ) (output : List ContextUpdate) : Prop where
  length_eq : output.length = length
  described : AllDescribed table describe n
  labelled : ∀ i < n, (plannedHandle table describe label i).map some = (passedHandle table describe i).map label
  fills : applyUpdates (output.take (n * 2)) LaunchContent.empty =
    filled (passedWord table describe) (plannedHandle table describe label) n

theorem after_planSlot {index length : ℕ} (hlength : index * 2 + 1 < length)
    (h : Planned table describe label length index output) :
    after (planSlot maximum table describe label index)
      (Settled (fun _ out => Planned table describe label length (index + 1) out) True) output := by
  unfold planSlot
  simp only [fdHandleKey_index, fdMetadataKey_index, lift_okOr_some_bind]
  refine after_bind_lift (fun p hp => ?_) fun _ => trivial
  obtain ⟨handle, word⟩ := p
  obtain ⟨hword, hhandle, hlabel, hdescribed⟩ := planEntry_eq_value hp
  have hout := h.length_eq
  refine after_bind_settled (after_putUpdate (by omega)) fun _ out₁ h₁ => ?_
  obtain ⟨hlen₁, htake₁⟩ := h₁
  refine (after_putUpdate (by omega)).mono fun _ out₂ h₂ => ?_
  obtain ⟨hlen₂, htake₂⟩ := h₂
  refine ⟨by omega, Nat.forall_lt_succ_right.2 ⟨h.described, hdescribed⟩,
    Nat.forall_lt_succ_right.2 ⟨h.labelled, hhandle ▸ hlabel⟩, ?_⟩
  have hfills := h.fills
  unfold applyUpdates at hfills ⊢
  rw [show (index + 1) * 2 = index * 2 + 1 + 1 by omega, htake₂, htake₁, List.foldl_append, List.foldl_append, hfills,
    hword, hhandle]
  simp only [List.foldl_cons, List.foldl_nil]
  rw [apply_metadataUpdate, apply_handleUpdate]
  rfl

theorem after_planLaunchContext :
    after (planLaunchContext maximum table limit describe label)
      (Settled (fun count out => limit ≤ defaultFdLimit ∧ AllDescribed table describe limit ∧
        (∀ i < limit, (plannedHandle table describe label i).map some = (passedHandle table describe i).map label) ∧
        applyUpdates (out.take count) LaunchContent.empty =
          written (passedWord table describe) (plannedHandle table describe label) limit) True) output := by
  unfold planLaunchContext
  refine after_bind_of_value (a := output) rfl ?_
  refine after_bind_guard (fun _ => trivial) fun hsizes => ?_
  have hloop : after (forRange (fun index _ => planSlot maximum table describe label index) limit ())
      (Settled (fun _ out => Planned table describe label output.length limit out) True) output := by
    refine after_forRange (I := fun n _ out => Planned table describe label output.length n out)
      (fun i hi _ out hout => after_planSlot (by omega) hout)
      ⟨rfl, fun i hi => absurd hi (Nat.not_lt_zero i), fun i hi => absurd hi (Nat.not_lt_zero i), rfl⟩
  refine after_bind_settled hloop fun _ out hout => ?_
  have hlength := hout.length_eq
  refine after_bind_settled (after_putUpdate (by omega)) fun _ out' hout' => ?_
  refine after_pure_settled ⟨by omega, hout.described, hout.labelled, ?_⟩
  have hfills := hout.fills
  unfold applyUpdates at hfills ⊢
  rw [hout'.2, List.foldl_append, hfills]
  rfl

/-! ## Reading the context back -/

/-- What `restore` is told about an entry that was passed on. -/
def offered (entry : Entry H) (description : LaunchFdDescription) : InheritedFdMetadata :=
  ⟨description.kind, description.openFlags, entry.descriptorFlags.toUInt8⟩

/-- The handle that reached the new image for an entry, with its rights there. -/
def attached (attach : H → Option H') (rights : H' → UInt64) (entry : Entry H) (description : LaunchFdDescription) :
    Option (H' × UInt64) :=
  if description.hasHandle then (attach entry.handle).map fun handle => (handle, rights handle) else none

def rebuiltEntry (attach : H → Option H') (rights : H' → UInt64) (restore : Restorer H') (entry : Entry H)
    (description : LaunchFdDescription) : Option (Entry H') :=
  (restore (offered entry description) (attached attach rights entry description)).map fun handle =>
    ⟨handle, (attached attach rights entry description).elim 0 Prod.snd, entry.descriptorFlags⟩

/-- The content holds what the writers pass on, under names that `attach` knows. -/
structure Carries (table : FdTable H) (describe : H → Option LaunchFdDescription) (attach : H → Option H') (limit : ℕ)
    (content : LaunchContent H') : Prop where
  small : limit ≤ defaultFdLimit
  described : AllDescribed table describe limit
  version : content.values fdTableKey = some fdTableVersion
  words : ∀ i < limit, content.values (metadataKeyAt i) = passedWord table describe i
  handles : ∀ i < limit, (content.handles (handleKeyAt i)).map some = (passedHandle table describe i).map attach

/-- Every descriptor that is passed on is accepted by `restore`. -/
def Accepts (table : FdTable H) (describe : H → Option LaunchFdDescription) (attach : H → Option H')
    (rights : H' → UInt64) (restore : Restorer H') (limit : ℕ) : Prop :=
  ∀ i < limit, ∀ entry description, inheritable table i = some entry → describe entry.handle = some description →
    (restore (offered entry description) (attached attach rights entry description)).isSome

/-- No call on the context fails and every descriptor is accepted. -/
def Smooth (table : FdTable H) (describe : H → Option LaunchFdDescription) (attach : H → Option H')
    (context : LaunchContext H' E) (restore : Restorer H') (limit : ℕ) : Prop :=
  (∀ n, context.fault n = none) ∧ Accepts table describe attach context.rights restore limit

theorem written_carries {handle : ℕ → Option H'} (hsmall : limit ≤ defaultFdLimit)
    (hdescribed : AllDescribed table describe limit)
    (hhandle : ∀ i < limit, (handle i).map some = (passedHandle table describe i).map attach) :
    Carries table describe attach limit (written (passedWord table describe) handle limit) where
  small := hsmall
  described := hdescribed
  version := by simp [written, LaunchContent.putValue]
  words i hi := by
    have hkey := metadataKeyAt_ne_fdTableKey (Nat.lt_of_lt_of_le hi hsmall)
    exact (update_of_ne hkey ..).trans (filled_at hsmall hi).1
  handles i hi := by
    rw [← hhandle i hi]
    exact congrArg (Option.map some) (filled_at hsmall hi).2

theorem after_onFst_call {answer : LaunchContext H' E → α} {w : RestoreWorld H' E ε} {bad : Prop}
    (hbad : ∀ n e, w.1.fault n = some e → bad) :
    after (onFst (call answer id))
      (Settled (fun a w' => a = answer w.1 ∧ w'.1.content = w.1.content ∧ w'.1.rights = w.1.rights ∧
        w'.1.fault = w.1.fault ∧ w'.2 = w.2) bad) w := by
  rw [after_onFst]
  refine (after_call hbad).imp fun _ _ hr => ⟨fun a ha => ?_, hr.of_none⟩
  obtain ⟨hanswer, hcontent, hrights, hfault⟩ := hr.of_value a ha
  exact ⟨hanswer, hcontent, hrights, hfault, rfl⟩

/-- The table after the slots below `n`: what was passed on has an entry, nothing else has. -/
structure Restored (table : FdTable H) (describe : H → Option LaunchFdDescription) (attach : H → Option H')
    (rights : H' → UInt64) (restore : Restorer H') (n : ℕ) (rebuilt : FdTable H') : Prop where
  reservations : ∀ slot, rebuilt.reservations slot = 0
  above : ∀ slot : Slot, n ≤ slot.val → rebuilt.entries slot = none
  absent : ∀ slot : Slot, slot.val < n → inheritable table slot.val = none → rebuilt.entries slot = none
  present : ∀ slot : Slot, slot.val < n → ∀ entry, inheritable table slot.val = some entry →
    ∃ description entry', describe entry.handle = some description ∧
      rebuiltEntry attach rights restore entry description = some entry' ∧ rebuilt.entries slot = some entry'

theorem restored_new (table : FdTable H) (describe : H → Option LaunchFdDescription) (attach : H → Option H')
    (rights : H' → UInt64) (restore : Restorer H') : Restored table describe attach rights restore 0 FdTable.new where
  reservations _ := rfl
  above _ _ := rfl
  absent _ _ _ := rfl
  present _ h := absurd h (Nat.not_lt_zero _)

variable {rebuilt : FdTable H'}

section

variable (h : Restored table describe attach rights restore n rebuilt)
include h

theorem Restored.skip (hnone : inheritable table n = none) :
    Restored table describe attach rights restore (n + 1) rebuilt where
  reservations := h.reservations
  above slot hslot := h.above slot (by omega)
  absent slot hslot hentry := by
    rcases Nat.lt_succ_iff_lt_or_eq.1 hslot with hlt | heq
    · exact h.absent slot hlt hentry
    · exact h.above slot (by omega)
  present slot hslot entry hentry := by
    rcases Nat.lt_succ_iff_lt_or_eq.1 hslot with hlt | heq
    · exact h.present slot hlt entry hentry
    · rw [heq, hnone] at hentry
      cases hentry

theorem Restored.install (hn : n < defaultFdLimit) {entry' : Entry H'} (hentry : inheritable table n = some entry)
    (hdescription : describe entry.handle = some description)
    (hrebuilt : rebuiltEntry attach rights restore entry description = some entry') :
    Restored table describe attach rights restore (n + 1) (rebuilt.setEntry ⟨n, hn⟩ (some entry')) where
  reservations := h.reservations
  above slot hslot := by
    rw [FdTable.setEntry_of_ne _ (by intro heq; subst heq; simp at hslot)]
    exact h.above slot (by omega)
  absent slot hslot hnone := by
    rcases Nat.lt_succ_iff_lt_or_eq.1 hslot with hlt | heq
    · rw [FdTable.setEntry_of_ne _ (by intro heq; subst heq; simp at hlt)]
      exact h.absent slot hlt hnone
    · rw [heq, hentry] at hnone
      cases hnone
  present slot hslot other hother := by
    rcases Nat.lt_succ_iff_lt_or_eq.1 hslot with hlt | heq
    · rw [FdTable.setEntry_of_ne _ (by intro heq; subst heq; simp at hlt)]
      exact h.present slot hlt other hother
    · rw [heq, hentry] at hother
      cases hother
      have hslotEq : slot = ⟨n, hn⟩ := Fin.ext heq
      subst hslotEq
      exact ⟨description, entry', hdescription, hrebuilt, FdTable.setEntry_self ..⟩

end

theorem installAt_free (operations : HandleOps H' ε) (entry' : Entry H') (hn : n < defaultFdLimit)
    (hreservation : rebuilt.reservations ⟨n, hn⟩ = 0) (hempty : rebuilt.entries ⟨n, hn⟩ = none) :
    rebuilt.installAt n entry' operations = (.ok (), rebuilt.setEntry ⟨n, hn⟩ (some entry'), operations) := by
  have hslot : slotOf n = some ⟨n, hn⟩ := dif_pos ⟨by omega, by exact_mod_cast hn⟩
  unfold FdTable.installAt
  rw [hslot]
  simp only [hreservation, hempty]
  rfl

theorem flags_restored (h : Describes describe entry description word) :
    (offered entry description).descriptorFlags.toUInt32 = entry.descriptorFlags := by
  apply UInt32.toNat_inj.1
  have hsmall := h.flags_small
  simp only [offered, UInt8.toNat_toUInt32, UInt32.toNat_toUInt8]
  omega

theorem cloexec_clear {index : ℕ} (h : inheritable table index = some entry) :
    (offered entry description).descriptorFlags &&& inheritedFdDescriptorCloexec = 0 := by
  have hclear := (filter_eq_some_iff.1 h).2
  rw [beq_iff_eq] at hclear
  have hbit := congrArg UInt32.toUInt8 hclear
  rw [UInt32.toUInt8_and] at hbit
  exact hbit

variable {receiver : LaunchContext H' E} {operations : HandleOps H' ε}

/-- The context is as it was, no handle was closed, and the table is rebuilt as far as the loop has come. -/
structure Reading (table : FdTable H) (describe : H → Option LaunchFdDescription) (attach : H → Option H')
    (restore : Restorer H') (receiver : LaunchContext H' E) (operations : HandleOps H' ε) (n : ℕ)
    (w : RestoreWorld H' E ε) : Prop where
  content : w.1.content = receiver.content
  rights : w.1.rights = receiver.rights
  fault : w.1.fault = receiver.fault
  operations_eq : w.2.2 = operations
  restored : Restored table describe attach receiver.rights restore n w.2.1

variable {w : RestoreWorld H' E ε}

theorem Reading.call {answer : LaunchContext H' E → α}
    (h : Reading table describe attach restore receiver operations n w) :
    after (onFst (LaunchContext.call answer id))
      (Settled (fun a w' => a = answer w.1 ∧ Reading table describe attach restore receiver operations n w')
        (¬ Smooth table describe attach receiver restore limit)) w := by
  refine (after_onFst_call fun k e he hsmooth => ?_).mono fun a w' hw' => ?_
  · rw [h.fault, hsmooth.1 k] at he
    cases he
  · obtain ⟨ha, hcontent, hrights, hfault, hrest⟩ := hw'
    refine ⟨ha, hcontent.trans h.content, hrights.trans h.rights, hfault.trans h.fault, ?_, ?_⟩
    · rw [hrest, h.operations_eq]
    · rw [hrest]
      exact h.restored

theorem after_attachmentOf (entry : Entry H) {handle : Option H'}
    (h : Reading table describe attach restore receiver operations n w)
    (hhandle : handle.map some = (if description.hasHandle then some entry.handle else none).map attach) :
    after (onFst (attachmentOf description.hasHandle handle))
      (Settled (fun a w' => a = attached attach receiver.rights entry description ∧
        Reading table describe attach restore receiver operations n w')
        (¬ Smooth table describe attach receiver restore limit)) w := by
  unfold attached
  cases hhas : description.hasHandle with
  | false =>
    rw [hhas] at hhandle
    cases handle with
    | none => exact settled_value ⟨rfl, h⟩
    | some _ => cases hhandle
  | true =>
    rw [hhas] at hhandle
    cases handle with
    | none => cases hhandle
    | some handle =>
      have hattach : attach entry.handle = some handle := by simpa using hhandle.symm
      have hrights : after (onFst (getHandleRights handle))
          (Settled (fun a w' => a = w.1.rights handle ∧ Reading table describe attach restore receiver operations n w')
            (¬ Smooth table describe attach receiver restore limit)) w := h.call
      unfold attachmentOf
      rw [onFst_bind]
      refine after_bind_settled hrights fun rights w' hw' => after_pure_settled ⟨?_, hw'.2⟩
      rw [if_pos rfl, hattach, hw'.1, h.rights]
      rfl

theorem after_installRestored {entry' : Entry H'} {bad : Prop}
    (h : Reading table describe attach restore receiver operations n w) (hn : n < defaultFdLimit)
    (hentry : inheritable table n = some entry) (hdescription : describe entry.handle = some description)
    (hrebuilt : rebuiltEntry attach receiver.rights restore entry description = some entry') :
    after (installRestored n entry')
      (Settled (fun _ w' => Reading table describe attach restore receiver operations (n + 1) w') bad) w := by
  have hinstall := installAt_free w.2.2 entry' hn (h.restored.reservations ⟨n, hn⟩)
    (h.restored.above ⟨n, hn⟩ (le_refl n))
  unfold after installRestored
  rw [hinstall]
  exact settled_value ⟨h.content, h.rights, h.fault, h.operations_eq, h.restored.install hn hentry hdescription hrebuilt⟩

theorem after_restoreEntry (hcarries : Carries table describe attach limit receiver.content)
    (h : Reading table describe attach restore receiver operations n w) (hn : n < limit)
    (hentry : inheritable table n = some entry) (hdescribes : Describes describe entry description word) :
    after (restoreEntry restore n word)
      (Settled (fun _ w' => Reading table describe attach restore receiver operations (n + 1) w')
        (¬ Smooth table describe attach receiver restore limit)) w := by
  have hpassed := passed_of_describes hentry hdescribes
  have hhandle := hcarries.handles n hn
  rw [passedHandle, hpassed] at hhandle
  have hmetadata : decodeInheritedFdMetadata word = some (offered entry description) := decode_encode hdescribes.encodes
  have hkind : inheritedFdKindRequiresHandle (offered entry description).kind = some description.hasHandle :=
    hdescribes.requires
  unfold restoreEntry
  rw [hmetadata, fdHandleKey_index]
  simp only [lift_okOr_some_bind]
  refine after_bind_guard (fun hcloexec => absurd (cloexec_clear hentry) hcloexec) fun _ => ?_
  refine after_bind_settled h.call fun handle w₁ h₁ => ?_
  rw [hkind]
  simp only [lift_okOr_some_bind]
  refine after_bind_settled (after_attachmentOf entry h₁.2 ?_) fun attachment w₂ h₂ => ?_
  · rw [h₁.1, h.content]
    exact hhandle
  · rw [h₂.1]
    refine after_bind_lift (fun handle' hrestore => ?_) fun hnone hsmooth => ?_
    · rw [okOr_eq_value] at hrestore
      refine after_installRestored h₂.2 (lt_of_lt_of_le hn hcarries.small) hentry hdescribes.description_eq ?_
      unfold rebuiltEntry
      rw [hrestore, flags_restored hdescribes]
      rfl
    · have haccepts := hsmooth.2 n hn entry description hentry hdescribes.description_eq
      obtain ⟨handle', hrestore⟩ := isSome_iff_exists.1 haccepts
      exact hnone handle' (okOr_eq_value.2 hrestore)

theorem after_restoreSlot {restored : Bool} (hcarries : Carries table describe attach limit receiver.content)
    (h : Reading table describe attach restore receiver operations n w) (hn : n < limit) (hrestored : restored = true) :
    after (restoreSlot restore n restored)
      (Settled (fun restored' w' => restored' = true ∧ Reading table describe attach restore receiver operations (n + 1) w')
        (¬ Smooth table describe attach receiver restore limit)) w := by
  have hword := hcarries.words n hn
  unfold restoreSlot
  rw [fdMetadataKey_index]
  simp only [lift_okOr_some_bind]
  refine after_bind_settled h.call fun found w₁ h₁ => ?_
  have hfound : found = passedWord table describe n := by rw [h₁.1, h.content, hword]
  cases hentry : inheritable table n with
  | none =>
    have hnone : found = none := by
      rw [hfound, passedWord, passed_of_none describe hentry]
      rfl
    rw [hnone]
    exact after_pure_settled ⟨hrestored, h₁.2.content, h₁.2.rights, h₁.2.fault, h₁.2.operations_eq,
      h₁.2.restored.skip hentry⟩
  | some entry =>
    obtain ⟨description, word, hdescribes⟩ := hcarries.described n hn entry hentry
    have hsome : found = some word := by
      rw [hfound, passedWord, passed_of_describes hentry hdescribes]
      rfl
    rw [hsome]
    exact after_bind_settled (after_restoreEntry hcarries h₁.2 hn hentry hdescribes) fun _ w₂ h₂ =>
      after_pure_settled ⟨rfl, h₂⟩

variable (restore operations) in
theorem after_restoreLaunchContext (target : FdTable H')
    (hcarries : Carries table describe attach limit receiver.content) :
    after (restoreLaunchContext limit restore) (Settled (fun restored w' => restored = true ∧
        Reading table describe attach restore receiver operations limit w')
        (¬ Smooth table describe attach receiver restore limit)) (receiver, target, operations) := by
  have hsmall := hcarries.small
  unfold restoreLaunchContext
  refine after_bind_guard (fun hlimit => ?_) fun _ => ?_
  · unfold defaultFdLimit at hsmall hlimit
    omega
  have hcall : after (onFst (getValue fdTableKey))
      (Settled (fun version w => version = some fdTableVersion ∧ w.1.content = receiver.content ∧
        w.1.rights = receiver.rights ∧ w.1.fault = receiver.fault ∧ w.2 = (target, operations))
        (¬ Smooth table describe attach receiver restore limit)) (receiver, target, operations) := by
    refine (after_onFst_call fun k e he hsmooth => ?_).mono fun a w hw => ?_
    · rw [hsmooth.1 k] at he
      cases he
    · exact ⟨hw.1.trans hcarries.version, hw.2⟩
  refine after_bind_settled hcall fun version w hw => ?_
  obtain ⟨hversion, hcontent, hrights, hfault, hrest⟩ := hw
  rw [hversion]
  refine after_bind_of_value (a := true) rfl ?_
  refine after_bind_of_value (a := ()) rfl ?_
  refine after_forRange
    (I := fun n restored w => restored = true ∧ Reading table describe attach restore receiver operations n w)
    (fun n hn restored w h => after_restoreSlot hcarries h.2 hn h.1) ⟨rfl, hcontent, hrights, hfault, ?_, ?_⟩
  · exact congrArg Prod.snd hrest
  · exact restored_new ..

end Passing

/-! ## Inheritance -/

section Inheritance

variable {H H' E E' ε : Type}

/-- An entry exactly for the descriptors below the limit that stay open, with their flags and what `restore` makes of
them. -/
structure Rebuilt (table : FdTable H) (limit : ℕ) (describe : H → Option LaunchFdDescription) (attach : H → Option H')
    (rights : H' → UInt64) (restore : Restorer H') (rebuilt : FdTable H') : Prop where
  occupied : ∀ slot : Slot, (rebuilt.entries slot).isSome ↔
    slot.val < limit ∧ ∃ entry, table.entries slot = some entry ∧ entry.descriptorFlags &&& fdCloexec = 0
  inherited : ∀ slot entry', rebuilt.entries slot = some entry' →
    ∃ entry description, table.entries slot = some entry ∧ describe entry.handle = some description ∧
      entry'.descriptorFlags = entry.descriptorFlags ∧
      restore ⟨description.kind, description.openFlags, entry.descriptorFlags.toUInt8⟩
        (attached attach rights entry description) = some entry'.handle ∧
      entry'.rights = (attached attach rights entry description).elim 0 Prod.snd

/-- A restoration that ends with a value ends in the rebuilt table, and it does so when nothing fails. -/
def RebuildsExactly (E' ε : Type) (table : FdTable H) (limit : ℕ) (describe : H → Option LaunchFdDescription)
    (attach : H → Option H') (content : LaunchContent H') : Prop :=
  ∀ (receiver : LaunchContext H' E') (target : FdTable H') (operations : HandleOps H' ε) (restore : Restorer H'),
    receiver.content = content →
      let result := restoreLaunchContext limit restore (receiver, target, operations)
      (∀ restored, result.1 = value restored → restored = true ∧
        Rebuilt table limit describe attach receiver.rights restore result.2.2.1 ∧ result.2.2.2 = operations) ∧
      (Smooth table describe attach receiver restore limit → result.1 = value true)

theorem inheritable_slot (table : FdTable H) (slot : Slot) :
    inheritable table (slot.val : ℤ) =
      (table.entries slot).filter fun entry => entry.descriptorFlags &&& fdCloexec == 0 := by
  have hslot : slotOf (slot.val : ℤ) = some slot := dif_pos ⟨by omega, by exact_mod_cast slot.isLt⟩
  unfold inheritable FdTable.get
  rw [hslot]
  rfl

theorem inheritable_slot_eq_some {table : FdTable H} {slot : Slot} {entry : Entry H} :
    inheritable table (slot.val : ℤ) = some entry ↔
      table.entries slot = some entry ∧ entry.descriptorFlags &&& fdCloexec = 0 := by
  rw [inheritable_slot, filter_eq_some_iff, beq_iff_eq]

section

variable {table : FdTable H} {describe : H → Option LaunchFdDescription} {attach : H → Option H'}

theorem Restored.rebuilt
    {rights : H' → UInt64} {restore : Restorer H'} {limit : ℕ} {rebuilt : FdTable H'}
    (h : Restored table describe attach rights restore limit rebuilt) :
    Rebuilt table limit describe attach rights restore rebuilt where
  occupied slot := by
    constructor
    · intro hsome
      by_cases hlt : slot.val < limit
      · cases hentry : inheritable table slot.val with
        | none =>
          rw [h.absent slot hlt hentry] at hsome
          cases hsome
        | some entry => exact ⟨hlt, entry, inheritable_slot_eq_some.1 hentry⟩
      · rw [h.above slot (by omega)] at hsome
        cases hsome
    · rintro ⟨hlt, entry, hentry⟩
      obtain ⟨_, entry', _, _, hrebuilt⟩ := h.present slot hlt entry (inheritable_slot_eq_some.2 hentry)
      rw [hrebuilt]
      rfl
  inherited slot entry' hentry' := by
    by_cases hlt : slot.val < limit
    · cases hentry : inheritable table slot.val with
      | none =>
        rw [h.absent slot hlt hentry] at hentry'
        cases hentry'
      | some entry =>
        obtain ⟨description, rebuilt', hdescription, hmade, hrebuilt⟩ := h.present slot hlt entry hentry
        rw [hrebuilt] at hentry'
        cases hentry'
        obtain ⟨handle, hrestore, hmade⟩ := map_eq_some_iff.1 hmade
        subst hmade
        exact ⟨entry, description, (inheritable_slot_eq_some.1 hentry).1, hdescription, rfl, hrestore, rfl⟩
    · rw [h.above slot (by omega)] at hentry'
      cases hentry'

theorem Carries.rebuilds
    {limit : ℕ} {content : LaunchContent H'} (h : Carries table describe attach limit content) :
    RebuildsExactly E' ε table limit describe attach content := by
  intro receiver target operations restore hcontent
  subst hcontent
  have hafter := after_restoreLaunchContext restore operations target h
  constructor
  · intro restored hvalue
    obtain ⟨hrestored, hreading⟩ := hafter.of_value restored hvalue
    exact ⟨hrestored, hreading.restored.rebuilt, hreading.operations_eq⟩
  · intro hsmooth
    by_contra hnot
    refine hafter.of_none (fun restored hvalue => hnot ?_) hsmooth
    rw [hvalue, (hafter.of_value restored hvalue).1]

end

theorem Carries.mapHandles {G : Type} {table : FdTable H} {describe : H → Option LaunchFdDescription}
    {attach : H → Option G} {limit : ℕ} {content : LaunchContent G} (h : Carries table describe attach limit content)
    (name : G → H') : Carries table describe (fun handle => (attach handle).map name) limit
    (content.mapHandles name) where
  small := h.small
  described := h.described
  version := h.version
  words := h.words
  handles i hi := by
    have hhandle := h.handles i hi
    simp only [LaunchContent.mapHandles]
    cases hpassed : passedHandle table describe i with
    | none =>
      rw [hpassed, map_none, map_eq_none_iff] at hhandle
      rw [hhandle]
      rfl
    | some handle =>
      rw [hpassed] at hhandle
      obtain ⟨named, hnamed, hattach⟩ := map_eq_some_iff.1 hhandle
      rw [hnamed, map_some, map_some, map_some, ← hattach]
      rfl

/-- **Descriptors are inherited exactly.** Plan and staging write the same, up to the labels of the handles; from either
the table is rebuilt with exactly the descriptors that stay open; and no two share a key. -/
theorem descriptors_inherited_exactly (table : FdTable H) (limit : ℕ) (describe : H → Option LaunchFdDescription)
    (label : H → Option UInt64) (maximum : UInt64) :
    (∀ (context : LaunchContext H E) (output : List ContextUpdate) (count : ℕ), context.content = LaunchContent.empty →
      (stageLaunchContext table limit describe context).1 = value () →
      (planLaunchContext maximum table limit describe label output).1 = value count →
        SameUpTo label (stageLaunchContext table limit describe context).2.content
          (applyUpdates ((planLaunchContext maximum table limit describe label output).2.take count)
            LaunchContent.empty)) ∧
    (∀ (context : LaunchContext H E) (name : H → H'), context.content = LaunchContent.empty →
      (stageLaunchContext table limit describe context).1 = value () →
        RebuildsExactly E' ε table limit describe (fun handle => some (name handle))
          ((stageLaunchContext table limit describe context).2.content.mapHandles name)) ∧
    (∀ (output : List ContextUpdate) (count : ℕ) (name : UInt64 → H'),
      (planLaunchContext maximum table limit describe label output).1 = value count →
        RebuildsExactly E' ε table limit describe (fun handle => (label handle).map name)
          ((applyUpdates ((planLaunchContext maximum table limit describe label output).2.take count)
            LaunchContent.empty).mapHandles name)) ∧
    (∀ fd fd', IsFd fd → IsFd fd' →
      (fdHandleKey fd = fdHandleKey fd' → fd = fd') ∧ (fdMetadataKey fd = fdMetadataKey fd' → fd = fd') ∧
      fdHandleKey fd ≠ fdMetadataKey fd' ∧ fdHandleKey fd ≠ some fdTableKey ∧ fdMetadataKey fd ≠ some fdTableKey ∧
      (fdHandleKey fd).bind inheritedFdFromKey = some fd ∧ (fdMetadataKey fd).bind inheritedFdFromKey = some fd) := by
  refine ⟨fun context output count hempty hstage hplan => ?_, fun context name hempty hstage => ?_,
    fun output count name hplan => ?_, fun fd fd' hfd hfd' => ?_⟩
  · obtain ⟨_, _, hstaged⟩ := (after_stageLaunchContext hempty).of_value () hstage
    obtain ⟨_, _, hlabelled, hplanned⟩ := after_planLaunchContext.of_value count hplan
    rw [hstaged, hplanned]
    exact (filled_sameUpTo hlabelled).putValue fdTableKey (some fdTableVersion)
  · obtain ⟨hsmall, hdescribed, hstaged⟩ := (after_stageLaunchContext hempty).of_value () hstage
    rw [hstaged]
    have hcarries : Carries table describe some limit
        (written (passedWord table describe) (passedHandle table describe) limit) :=
      written_carries hsmall hdescribed fun _ _ => rfl
    exact (hcarries.mapHandles name).rebuilds
  · obtain ⟨hsmall, hdescribed, hlabelled, hplanned⟩ := after_planLaunchContext.of_value count hplan
    rw [hplanned]
    exact ((written_carries hsmall hdescribed hlabelled).mapHandles name).rebuilds
  · exact ⟨fdHandleKey_injective hfd hfd', fdMetadataKey_injective hfd hfd', fdHandleKey_ne_fdMetadataKey hfd hfd',
      fdHandleKey_ne_fdTableKey hfd, fdMetadataKey_ne_fdTableKey hfd, inheritedFdFromKey_fdHandleKey hfd,
      inheritedFdFromKey_fdMetadataKey hfd⟩

end Inheritance

/-! ### A table with a stream, a file and a descriptor that is closed on exec -/

namespace LaunchFixture

def table : FdTable ℕ :=
  ((FdTable.new.setEntry ⟨0, Nat.succ_pos _⟩ (some ⟨10, 0, 0⟩)).setEntry ⟨1, by decide⟩ (some ⟨11, 3, 0⟩)).setEntry
    ⟨2, by decide⟩ (some ⟨12, 3, fdCloexec⟩)

def describe (handle : ℕ) : Option LaunchFdDescription :=
  if handle = 10 then some ⟨1, 0, false⟩ else some ⟨5, 2, true⟩

def label (handle : ℕ) : Option UInt64 := some (UInt64.ofNat handle)

def context : LaunchContext ℕ Empty := ⟨LaunchContent.empty, fun _ => 3, fun _ => none, 0⟩

def blank : List ContextUpdate := List.replicate 7 ⟨.removeValue, 0, 0⟩

theorem staged : (stageLaunchContext table 3 describe context).1 = value () := by decide

theorem planned : (planLaunchContext 64 table 3 describe label blank).1 = value 7 := by decide

theorem descriptors_inherited_exactly_three : SameUpTo label (stageLaunchContext table 3 describe context).2.content
        (applyUpdates ((planLaunchContext 64 table 3 describe label blank).2.take 7) LaunchContent.empty) ∧
      RebuildsExactly Empty Empty table 3 describe (fun handle => some (handle + 100))
        ((stageLaunchContext table 3 describe context).2.content.mapHandles (· + 100)) := by
  obtain ⟨hsame, hstage, -⟩ := @descriptors_inherited_exactly ℕ ℕ Empty Empty Empty table 3 describe label 64
  exact ⟨hsame context blank 7 rfl staged planned, hstage context (· + 100) rfl staged⟩

end LaunchFixture

end MochiSyscalls.PosixClient
