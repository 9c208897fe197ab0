import MochiSyscalls.Foundations.Labels
import MochiSyscalls.NetworkStack.DnsMessage

/-! # Compressed names

What `decode_record_name` returns, against the expansion of a name by RFC 1035: labels in place, up to the root or to a
pointer that goes on with a name further down in the packet. -/

namespace MochiSyscalls.NetworkStack
open Foundations Bytes Labels Loops List
set_option autoImplicit false

def pointerTarget (high low : UInt8) : ℕ := (high.toNat - 192) * 256 + low.toNat

/-- The name at `offset`, in a fragment from `fragment` on whose bytes end at `boundary`: its labels and its end. A
pointer leads behind the header and before its fragment; what it leads to may use the whole packet. -/
inductive Expansion (packet : List UInt8) : ℕ → ℕ → ℕ → List (List UInt8) → ℕ → Prop
  | root {boundary fragment offset : ℕ} : offset < boundary → packet[offset]? = some 0 →
      Expansion packet boundary fragment offset [] (offset + 1)
  | label {boundary fragment offset stop : ℕ} {label : List UInt8} {labels : List (List UInt8)} : Fits label →
      offset + 1 + label.length ≤ boundary → packet[offset]? = some (UInt8.ofNat label.length) →
      slice packet (offset + 1) (offset + 1 + label.length) = some label →
      Expansion packet boundary fragment (offset + 1 + label.length) labels stop →
      Expansion packet boundary fragment offset (label :: labels) stop
  | pointer {boundary fragment offset stop : ℕ} {high low : UInt8} {labels : List (List UInt8)} :
      offset + 2 ≤ boundary → packet[offset]? = some high → packet[offset + 1]? = some low → 192 ≤ high.toNat →
      dnsHeaderLen ≤ pointerTarget high low → pointerTarget high low < fragment →
      Expansion packet packet.length (pointerTarget high low) (pointerTarget high low) labels stop →
      Expansion packet boundary fragment offset labels (offset + 2)

variable {packet : List UInt8} {boundary limit : ℕ} {c : NameCursor}

section

variable {fragment offset stop : ℕ} {labels : List (List UInt8)}
  (h : Expansion packet boundary fragment offset labels stop)
include h

theorem Expansion.fits : ∀ l ∈ labels, Fits l := by
  induction h with
  | root => exact nofun
  | label hfits _ _ _ _ ih =>
    intro l hl
    rcases mem_cons.1 hl with rfl | hl
    · exact hfits
    · exact ih l hl
  | pointer _ _ _ _ _ _ _ ih => exact ih

theorem Expansion.stop_range : offset < stop ∧ stop ≤ boundary := by
  induction h with
  | root h => exact ⟨Nat.lt_succ_self _, h⟩
  | label _ _ _ _ _ ih => exact ⟨by omega, ih.2⟩
  | pointer h => exact ⟨by omega, h⟩

end

/-! ## One pass -/

set_option maxRecDepth 10000 in
theorem length_mask (b : UInt8) : (b &&& 0xc0 = 0xc0 ↔ 192 ≤ b.toNat) ∧ (b &&& 0xc0 = 0 ↔ b.toNat ≤ 63) ∧
      (192 ≤ b.toNat → (b &&& 63).toNat = b.toNat - 192) := by
  revert b
  decide

theorem followPointer_eq_ok {length : UInt8} {c' : NameCursor} (hlength : 192 ≤ length.toNat)
    (hfragment : c.ceiling ≤ c.offset) (hboundary : boundary ≤ packet.length) :
    followPointer packet boundary length c = .ok c' ↔
      ∃ low, c.offset + 2 ≤ boundary ∧ packet[c.offset + 1]? = some low ∧
        dnsHeaderLen ≤ pointerTarget length low ∧ pointerTarget length low < c.ceiling ∧
        c' = { c with ceiling := pointerTarget length low, next := some (c.next.getD (c.offset + 2)),
                      offset := pointerTarget length low } := by
  unfold followPointer
  by_cases hroom : c.offset + 2 > boundary
  · rw [if_pos hroom]
    exact ⟨nofun, fun ⟨_, h, _⟩ => absurd hroom (not_lt.2 h)⟩
  have hlow : c.offset + 1 < packet.length := by omega
  rw [if_neg hroom, getElem?_eq_getElem hlow]
  dsimp only
  generalize packet[c.offset + 1] = low
  rw [(length_mask length).2.2 hlength, show (length.toNat - 192) * 256 + low.toNat = pointerTarget length low from rfl]
  constructor
  · intro h
    split_ifs at h with h₁ h₂ h₃ h₄
    cases h
    exact ⟨low, by omega, rfl, by omega, by omega, rfl⟩
  · rintro ⟨_, _, heq, hheader, hbelow, rfl⟩
    cases heq
    rw [if_neg (by omega), if_neg (by omega), if_neg (by omega), if_neg (by omega)]

theorem nameStep_eq_ok {pass : Pass NameCursor (DnsRecordName × ℕ)} (hfragment : c.ceiling ≤ c.offset)
    (hboundary : boundary ≤ packet.length) :
    nameStep packet boundary c = .ok pass ↔
      (c.offset < boundary ∧ packet[c.offset]? = some 0 ∧ c.wire.length + 1 ≤ maxNameWireLen ∧
        pass = .done (⟨c.wire ++ [0]⟩, c.next.getD (c.offset + 1))) ∨
      (∃ label, Fits label ∧ c.offset + 1 + label.length ≤ boundary ∧
        packet[c.offset]? = some (UInt8.ofNat label.length) ∧
        slice packet (c.offset + 1) (c.offset + 1 + label.length) = some label ∧
        c.wire.length + 1 + label.length ≤ maxNameWireLen ∧
        pass = .again { c with wire := c.wire ++ UInt8.ofNat label.length :: label.map toAsciiLowercase,
                               offset := c.offset + 1 + label.length }) ∨
      ∃ high low, c.offset + 2 ≤ boundary ∧ packet[c.offset]? = some high ∧ packet[c.offset + 1]? = some low ∧
        192 ≤ high.toNat ∧ dnsHeaderLen ≤ pointerTarget high low ∧ pointerTarget high low < c.ceiling ∧
        pass = .again { c with ceiling := pointerTarget high low, next := some (c.next.getD (c.offset + 2)),
                               offset := pointerTarget high low } := by
  unfold nameStep
  by_cases hoffset : c.offset ≥ boundary
  · rw [if_pos hoffset]
    refine ⟨nofun, ?_⟩
    rintro (⟨h, _⟩ | ⟨_, _, h, _⟩ | ⟨_, _, h, _⟩) <;> omega
  have hlength : c.offset < packet.length := by omega
  rw [if_neg hoffset, getElem?_eq_getElem hlength]
  dsimp only
  generalize packet[c.offset] = length
  simp only [Option.some.injEq]
  by_cases hpointer : 192 ≤ length.toNat
  · rw [if_pos ((length_mask length).1.2 hpointer)]
    have hnot : ∀ label : List UInt8, Fits label → length ≠ UInt8.ofNat label.length := by
      rintro label hfits rfl
      have htoNat := hfits.toNat
      have hle := hfits.2
      omega
    constructor
    · intro h
      cases hfollow : followPointer packet boundary length c with
      | error e =>
        rw [hfollow] at h
        cases h
      | ok c' =>
        rw [hfollow] at h
        cases h
        obtain ⟨low, hroom, hlow, hheader, hbelow, rfl⟩ :=
          (followPointer_eq_ok hpointer hfragment hboundary).1 hfollow
        exact .inr (.inr ⟨length, low, hroom, rfl, hlow, hpointer, hheader, hbelow, rfl⟩)
    · rintro (⟨_, rfl, _⟩ | ⟨label, hfits, _, heq, _⟩ | ⟨high, low, hroom, rfl, hlow, _, hheader, hbelow, rfl⟩)
      · exact absurd hpointer (by decide)
      · exact absurd heq (hnot label hfits)
      · rw [(followPointer_eq_ok hpointer hfragment hboundary).2 ⟨low, hroom, hlow, hheader, hbelow, rfl⟩]
        rfl
  · rw [if_neg (mt (length_mask length).1.1 hpointer)]
    by_cases hlabel : length.toNat ≤ 63
    swap
    · rw [if_pos (mt (length_mask length).2.1.1 hlabel)]
      refine ⟨nofun, ?_⟩
      rintro (⟨_, rfl, _⟩ | ⟨label, hfits, _, rfl, _⟩ | ⟨_, _, _, rfl, _, h, _⟩)
      · exact absurd (by decide) hlabel
      · exact absurd (hfits.toNat.trans_le hfits.2) hlabel
      · exact absurd h hpointer
    rw [if_neg (not_not.2 ((length_mask length).2.1.2 hlabel))]
    by_cases hstop : c.offset + 1 + length.toNat > boundary
    · rw [if_pos hstop]
      refine ⟨nofun, ?_⟩
      rintro (⟨_, rfl, _⟩ | ⟨label, hfits, h, rfl, _⟩ | ⟨_, _, _, rfl, _, h, _⟩)
      · change c.offset + 1 > boundary at hstop
        omega
      · rw [hfits.toNat] at hstop
        omega
      · exact absurd h hpointer
    obtain ⟨label, hslice⟩ : ∃ label, slice packet (c.offset + 1) (c.offset + 1 + length.toNat) = some label :=
      ⟨_, slice_isSome (by omega) (by omega)⟩
    have hlen : label.length = length.toNat := by
      rw [slice_length hslice]
      omega
    rw [if_neg hstop, hslice]
    dsimp only
    constructor
    · intro h
      split_ifs at h with hlong hzero
      · subst hzero
        obtain rfl := eq_nil_of_length_eq_zero hlen
        cases h
        exact .inl ⟨not_le.1 hoffset, rfl, not_lt.1 hlong, rfl⟩
      · cases h
        have hfits : Fits label :=
          ⟨fun hnil => hzero (UInt8.toNat_inj.1 (by rw [← hlen, hnil]; rfl)), hlen.trans_le hlabel⟩
        have hbyte : length = UInt8.ofNat label.length := by rw [hlen, UInt8.ofNat_toNat]
        rw [← hlen] at hslice hstop
        exact .inr (.inl ⟨label, hfits, not_lt.1 hstop, hbyte, hslice, not_lt.1 hlong, by rw [← hbyte, hlen]⟩)
    · rintro (⟨_, rfl, hroom, rfl⟩ | ⟨found, hfits, _, rfl, hfound, hroom, rfl⟩ | ⟨_, _, _, rfl, _, h, _⟩)
      · obtain rfl := eq_nil_of_length_eq_zero hlen
        rw [if_neg (show ¬ c.wire.length + 1 + ([] : List UInt8).length > maxNameWireLen from not_lt.2 hroom),
          if_pos rfl]
        rfl
      · rw [hfits.toNat] at hslice ⊢
        obtain rfl := Option.some.inj (hslice.symm.trans hfound)
        have hne : UInt8.ofNat label.length ≠ 0 := by
          intro hzero
          have hpos := hfits.pos
          rw [← hfits.toNat, hzero] at hpos
          exact absurd hpos (by decide)
        rw [if_neg (not_lt.2 hroom), if_neg hne]
      · exact absurd h hpointer

/-! ## The loop -/

theorem toAsciiLowercase_length (b : UInt8) (h : b.toNat ≤ 63) : toAsciiLowercase b = b := by
  rw [toAsciiLowercase, if_neg]
  rintro ⟨hlow, _⟩
  rw [UInt8.le_iff_toNat_le, show (65 : UInt8).toNat = 65 from rfl] at hlow
  omega

theorem lower_wire_cons {label : List UInt8} (hfits : Fits label) (labels : List (List UInt8)) :
    (wire (label :: labels)).map toAsciiLowercase =
      UInt8.ofNat label.length :: label.map toAsciiLowercase ++ (wire labels).map toAsciiLowercase := by
  rw [wire_cons, map_cons, map_append, toAsciiLowercase_length _ (hfits.toNat.trans_le hfits.2)]
  rfl

def NameCursor.reach (c : NameCursor) (packet : List UInt8) (limit : ℕ) : ℕ :=
  if c.next.isNone then limit else packet.length

theorem nameLoop_eq_ok (hlimit : limit ≤ packet.length) (c : NameCursor) (hfragment : c.ceiling ≤ c.offset)
    {name : DnsRecordName} {next : ℕ} :
    (nameLoop packet limit).run c = .ok (name, next) ↔
      ∃ labels stop, Expansion packet (c.reach packet limit) c.ceiling c.offset labels stop ∧
        c.wire.length + (wire labels).length ≤ maxNameWireLen ∧
        name = ⟨c.wire ++ (wire labels).map toAsciiLowercase⟩ ∧ next = c.next.getD stop := by
  have hreach : ∀ c : NameCursor, c.reach packet limit ≤ packet.length := by
    intro c
    unfold NameCursor.reach
    split
    · exact hlimit
    · exact le_rfl
  induction c using (nameLoop packet limit).pass_induction generalizing name next with
  | h c ih =>
    have hstep := fun pass => (nameStep_eq_ok hfragment (hreach c) : nameStep packet _ c = .ok pass ↔ _)
    -- the label that a pass reads is in front of the labels that the later passes read
    have hgrow : ∀ label labels, Fits label → c.wire.length + (wire (label :: labels)).length =
          (c.wire ++ UInt8.ofNat label.length :: label.map toAsciiLowercase).length + (wire labels).length ∧
        c.wire ++ (wire (label :: labels)).map toAsciiLowercase =
          c.wire ++ UInt8.ofNat label.length :: label.map toAsciiLowercase ++ (wire labels).map toAsciiLowercase := by
      intro label labels hfits
      rw [wire_cons_length, lower_wire_cons hfits, append_assoc, length_append, length_cons,
        length_map]
      exact ⟨by omega, rfl⟩
    rw [Loop.run_eq_ok]
    constructor
    · rintro (hdone | ⟨c', hagain, hrun⟩)
      · rcases (hstep _).1 hdone with ⟨hoffset, hbyte, hroom, heq⟩ | ⟨_, _, _, _, _, _, heq⟩ |
          ⟨_, _, _, _, _, _, _, _, heq⟩ <;> cases heq
        exact ⟨[], _, .root hoffset hbyte, hroom, rfl, rfl⟩
      · rcases (hstep _).1 hagain with ⟨_, _, _, heq⟩ | ⟨label, hfits, hstop, hbyte, hslice, hroom, heq⟩ |
          ⟨high, low, hroom, hhigh, hlow, hpointer, hheader, hbelow, heq⟩ <;> cases heq
        · obtain ⟨labels, stop, hexp, hlen, rfl, rfl⟩ := (ih _ hagain (by dsimp only; omega)).1 hrun
          refine ⟨label :: labels, stop, .label hfits hstop hbyte hslice hexp, ?_, ?_, rfl⟩
          · rwa [(hgrow label labels hfits).1]
          · rw [(hgrow label labels hfits).2]
        · obtain ⟨labels, stop, hexp, hlen, rfl, rfl⟩ := (ih _ hagain le_rfl).1 hrun
          exact ⟨labels, _, .pointer hroom hhigh hlow hpointer hheader hbelow hexp, hlen, rfl, rfl⟩
    · rintro ⟨labels, stop, hexp, hlen, rfl, rfl⟩
      cases hexp with
      | root hoffset hbyte => exact .inl ((hstep _).2 (.inl ⟨hoffset, hbyte, hlen, rfl⟩))
      | label hfits hstop hbyte hslice hexp =>
        rename_i label labels
        rw [(hgrow label labels hfits).1] at hlen
        have hroom : c.wire.length + 1 + label.length ≤ maxNameWireLen := by
          rw [length_append, length_cons, length_map] at hlen
          omega
        have hagain := (hstep _).2 (.inr (.inl ⟨label, hfits, hstop, hbyte, hslice, hroom, rfl⟩))
        refine .inr ⟨_, hagain, (ih _ hagain (by dsimp only; omega)).2 ⟨labels, stop, hexp, hlen, ?_, rfl⟩⟩
        rw [(hgrow label labels hfits).2]
      | pointer hroom hhigh hlow hpointer hheader hbelow hexp =>
        have hagain := (hstep _).2 (.inr (.inr ⟨_, _, hroom, hhigh, hlow, hpointer, hheader, hbelow, rfl⟩))
        exact .inr ⟨_, hagain, (ih _ hagain le_rfl).2 ⟨labels, _, hexp, hlen, rfl, rfl⟩⟩

/-- **Names are decompressed as RFC 1035 says**: exactly when there is an expansion of at most 255 bytes whose pointers
lead down, to that expansion in lower case. -/
theorem decodeRecordName_expands (start : ℕ) (hlimit : limit ≤ packet.length) :
    (∀ name next, decodeRecordName packet start limit = .ok (name, next) ↔
      ∃ labels, Expansion packet limit start start labels next ∧ (wire labels).length ≤ maxNameWireLen ∧
        name.wire = (wire labels).map toAsciiLowercase) ∧
    ∀ name next, decodeRecordName packet start limit = .ok (name, next) →
      (∃ labels, name.wire = wire labels ∧ ∀ l ∈ labels, Fits l) ∧ start < next ∧ next ≤ limit := by
  have hiff : ∀ name next, decodeRecordName packet start limit = .ok (name, next) ↔
      ∃ labels, Expansion packet limit start start labels next ∧ (wire labels).length ≤ maxNameWireLen ∧
        name.wire = (wire labels).map toAsciiLowercase := by
    intro name next
    refine (nameLoop_eq_ok hlimit ⟨[], start, none, start⟩ le_rfl).trans ⟨?_, ?_⟩
    · rintro ⟨labels, stop, hexp, hlen, rfl, rfl⟩
      exact ⟨labels, hexp, (Nat.zero_add _).symm.trans_le hlen, rfl⟩
    · rintro ⟨labels, hexp, hlen, hname⟩
      exact ⟨labels, next, hexp, (Nat.zero_add _).trans_le hlen, by cases name; exact congrArg _ hname, rfl⟩
  refine ⟨hiff, fun name next h => ?_⟩
  obtain ⟨labels, hexp, _, hname⟩ := (hiff name next).1 h
  refine ⟨⟨labels.map (·.map toAsciiLowercase), ?_, ?_⟩, hexp.stop_range⟩
  · rw [hname, map_wire toAsciiLowercase_length hexp.fits]
  · intro l hl
    obtain ⟨label, hlabel, rfl⟩ := mem_map.1 hl
    have hfits := hexp.fits label hlabel
    exact ⟨fun hnil => hfits.1 (map_eq_nil_iff.1 hnil), (length_map ..).trans_le hfits.2⟩

namespace DnsFixture

def compressed : List UInt8 := List.replicate 12 0 ++ [1, 66, 0, 1, 99, 192, 12]

theorem decodeRecordName_expands_pointer : decodeRecordName compressed 15 19 = .ok (⟨[1, 99, 1, 98, 0]⟩, 19) ∧
      ∃ labels, Expansion compressed 19 15 15 labels 19 ∧ (wire labels).length ≤ maxNameWireLen ∧
        [1, 99, 1, 98, 0] = (wire labels).map toAsciiLowercase :=
  have h : decodeRecordName compressed 15 19 = .ok (⟨[1, 99, 1, 98, 0]⟩, 19) := by decide
  ⟨h, ((decodeRecordName_expands 15 (by decide)).1 _ _).1 h⟩

end DnsFixture

end MochiSyscalls.NetworkStack
