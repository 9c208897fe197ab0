import MochiSyscalls.HttpClient.Response

/-! # The streaming decoder

`StreamingResponseDecoder` takes the head of a response byte by byte and hands what follows to a sink. The
state it is in is a function of the bytes it has been fed, `received`, however they were cut into calls; a
call fails exactly where `received` has no state for the longer text. -/

namespace MochiSyscalls.HttpClient
open Foundations Checked Delimiters Loops Numerals Utf8 List
open Words
set_option autoImplicit false

inductive StreamError (ε : Type) where
  | protocol (e : HttpError)
  | sink (e : ε)
  deriving DecidableEq

structure StreamingResponseDecoder where
  headerBytes : List UInt8
  head : Option StreamHead
  remaining : ℕ
  failed : Bool
  deriving DecidableEq

namespace StreamingResponseDecoder

variable {σ ε : Type}

def new : StreamingResponseDecoder := { headerBytes := [], head := none, remaining := 0, failed := false }

def isComplete (d : StreamingResponseDecoder) : Bool := !d.failed && d.head.isSome && d.remaining == 0

/-- The loop over the bytes of the head. What is left of the bytes is returned. -/
def takeHeader (d : StreamingResponseDecoder) : List UInt8 → Except HttpError (List UInt8) × StreamingResponseDecoder
  | [] => (.ok [], d)
  | byte :: rest =>
    if d.headerBytes.length = maxHeaderBytes then (.error .headersTooLarge, d)
    else
      let headerBytes := d.headerBytes ++ [byte]
      if blankLine.isSuffixOf headerBytes then
        match parseStreamHead headerBytes with
        | .error e => (.error e, { d with headerBytes })
        | .ok head => (.ok rest, { d with headerBytes := [], head := some head, remaining := head.contentLength })
      else takeHeader { d with headerBytes } rest

def takeBody (d : StreamingResponseDecoder) (bytes : List UInt8) (sink : σ → List UInt8 → Except ε Unit × σ) (s : σ) :
    Except (StreamError ε) Unit × StreamingResponseDecoder × σ :=
  if d.head.isSome ∧ bytes ≠ [] then
    if d.remaining < bytes.length then (.error (.protocol .trailingData), d, s)
    else
      match sink s bytes with
      | (.error e, s) => (.error (.sink e), d, s)
      | (.ok (), s) => (.ok (), { d with remaining := d.remaining - bytes.length }, s)
  else (.ok (), d, s)

def feedInner (d : StreamingResponseDecoder) (bytes : List UInt8) (sink : σ → List UInt8 → Except ε Unit × σ) (s : σ) :
    Except (StreamError ε) Unit × StreamingResponseDecoder × σ :=
  if d.head.isNone then
    match d.takeHeader bytes with
    | (.error e, d) => (.error (.protocol e), d, s)
    | (.ok rest, d) => d.takeBody rest sink s
  else d.takeBody bytes sink s

def feed (d : StreamingResponseDecoder) (bytes : List UInt8) (sink : σ → List UInt8 → Except ε Unit × σ) (s : σ) :
    Except (StreamError ε) Unit × StreamingResponseDecoder × σ :=
  if d.failed then (.error (.protocol .streamPoisoned), d, s)
  else
    match d.feedInner bytes sink s with
    | (.error e, d, s) => (.error e, { d with failed := true }, s)
    | (.ok (), d, s) => (.ok (), d, s)

def finish (d : StreamingResponseDecoder) : Except HttpError Unit × StreamingResponseDecoder :=
  if d.failed then (.error .streamPoisoned, d)
  else if d.isComplete then (.ok (), d)
  else (.error .unexpectedEnd, { d with failed := true })

/-! ## Runs -/

def collect (sunk bytes : List UInt8) : Except Empty Unit × List UInt8 := (.ok (), sunk ++ bytes)

/-- Feeding one piece after another: whether every call succeeded, the decoder, and what the sink holds. -/
def feedAll (d : StreamingResponseDecoder) (sunk : List UInt8) :
    List (List UInt8) → Bool × StreamingResponseDecoder × List UInt8
  | [] => (true, d, sunk)
  | piece :: pieces =>
    match d.feed piece collect sunk with
    | (.ok (), d, sunk) => feedAll d sunk pieces
    | (.error _, d, sunk) => (false, (feedAll d sunk pieces).2)

variable (pieces : List (List UInt8))

def Succeeds : Prop :=
  (new.feedAll [] pieces).1 = true ∧ ((new.feedAll [] pieces).2.1.finish).1 = .ok ()

def sunk : List UInt8 := (new.feedAll [] pieces).2.2

/-! ## The state after some bytes -/

/-- The decoder and the sink after the bytes `m`, from the bytes alone. -/
def received (m : List UInt8) : Option (StreamingResponseDecoder × List UInt8) :=
  match find blankLine m with
  | none =>
    if m.length ≤ maxHeaderBytes then some ({ headerBytes := m, head := none, remaining := 0, failed := false }, [])
    else none
  | some k =>
    if k + 4 ≤ maxHeaderBytes then
      match parseStreamHead (m.take (k + 4)) with
      | .error _ => none
      | .ok head =>
        if m.length - (k + 4) ≤ head.contentLength then
          some ({ headerBytes := [], head := some head, remaining := head.contentLength - (m.length - (k + 4)),
                  failed := false }, m.drop (k + 4))
        else none
    else none

variable {h : List UInt8}

theorem find_blankLine_push (hnone : find blankLine h = none) (b : UInt8) :
    find blankLine (h ++ [b]) = if blankLine.isSuffixOf (h ++ [b]) then some (h.length - 3) else none := by
  have hshort : ∀ j, blankLine <+: (h ++ [b]).drop j → j + 4 = h.length + 1 := by
    intro j hj
    have hle := hj.length_le
    rw [length_drop, length_append, length_singleton, show blankLine.length = 4 from rfl] at hle
    by_contra hne
    rw [prefix_drop_append _ (by rw [show blankLine.length = 4 from rfl]; omega)] at hj
    exact (find_eq_none blankLine_ne_nil).mp hnone j hj
  split
  next hsuffix =>
    rw [isSuffixOf_iff_suffix, suffix_iff_eq_drop] at hsuffix
    have hlen := congrArg length hsuffix
    rw [length_drop, length_append, length_singleton, show blankLine.length = 4 from rfl] at hlen
    have hat : h.length + 1 - 4 = h.length - 3 := by omega
    rw [length_append, length_singleton, show blankLine.length = 4 from rfl, hat] at hsuffix
    refine (find_eq_some blankLine_ne_nil).mpr ⟨?_, fun j hj hp => ?_⟩
    · rw [← hsuffix]
    · have hjlen := hshort j hp
      omega
  next hsuffix =>
    rw [find_eq_none blankLine_ne_nil]
    intro j hp
    have hjlen := hshort j hp
    refine hsuffix (isSuffixOf_iff_suffix.mpr ?_)
    have hall : blankLine = (h ++ [b]).drop j := by
      refine hp.eq_of_length ?_
      rw [length_drop, length_append, length_singleton, show blankLine.length = 4 from rfl]
      omega
    rw [hall]
    exact drop_suffix _ _

theorem find_blankLine_completed (hnone : find blankLine h = none) {b : UInt8}
    (hsuffix : blankLine.isSuffixOf (h ++ [b]) = true) (rest : List UInt8) :
    find blankLine (h ++ b :: rest) = some (h.length - 3) ∧ h.length - 3 + 4 = h.length + 1 := by
  have hfind := find_blankLine_push hnone b
  rw [if_pos hsuffix] at hfind
  have hlen := (isSuffixOf_iff_suffix.mp hsuffix).length_le
  rw [length_append, length_singleton, show blankLine.length = 4 from rfl] at hlen
  rw [append_cons]
  exact ⟨find_append blankLine_ne_nil hfind, by omega⟩

/-- The head of `m`, where `m` holds one that the decoder takes. -/
def HeadOf (m : List UInt8) (k : ℕ) (head : StreamHead) : Prop :=
  find blankLine m = some k ∧ k + 4 ≤ maxHeaderBytes ∧ parseStreamHead (m.take (k + 4)) = .ok head

theorem takeHeader_spec (hnone : find blankLine h = none) (hlen : h.length ≤ maxHeaderBytes) (bytes : List UInt8) :
    (find blankLine (h ++ bytes) = none ∧ (h ++ bytes).length ≤ maxHeaderBytes ∧
      takeHeader ⟨h, none, 0, false⟩ bytes = (.ok [], ⟨h ++ bytes, none, 0, false⟩)) ∨
    (∃ k head, HeadOf (h ++ bytes) k head ∧ takeHeader ⟨h, none, 0, false⟩ bytes =
        (.ok ((h ++ bytes).drop (k + 4)), ⟨[], some head, head.contentLength, false⟩)) ∨
    (received (h ++ bytes) = none ∧ ∃ e d, takeHeader ⟨h, none, 0, false⟩ bytes = (.error e, d)) := by
  induction bytes generalizing h with
  | nil =>
    left
    rw [append_nil]
    exact ⟨hnone, hlen, rfl⟩
  | cons b rest ih =>
    unfold takeHeader
    by_cases hfull : h.length = maxHeaderBytes
    · -- the head is too large, whether it ends later or not
      refine .inr (.inr ⟨?_, .headersTooLarge, ⟨h, none, 0, false⟩, by rw [if_pos hfull]⟩)
      unfold received
      split
      · rw [if_neg]
        rw [length_append, length_cons]
        omega
      next k hfind =>
        rw [if_neg]
        intro hk
        have hshort := find_of_append blankLine_ne_nil hfind (show k + 4 ≤ h.length by omega)
        rw [hnone] at hshort
        cases hshort
    rw [if_neg hfull]
    dsimp only
    split
    next hsuffix =>
      obtain ⟨hfind, hk⟩ := find_blankLine_completed hnone hsuffix rest
      have htake : (h ++ b :: rest).take (h.length - 3 + 4) = h ++ [b] := by
        rw [hk, append_cons]
        exact take_left' (by rw [length_append, length_singleton])
      have hdrop : (h ++ b :: rest).drop (h.length - 3 + 4) = rest := by
        rw [hk, append_cons]
        exact drop_left' (by rw [length_append, length_singleton])
      have hlimit : h.length - 3 + 4 ≤ maxHeaderBytes := by omega
      cases hparse : parseStreamHead (h ++ [b]) with
      | error e =>
        refine .inr (.inr ⟨?_, e, _, rfl⟩)
        unfold received
        rw [hfind]
        dsimp only
        rw [if_pos hlimit, htake, hparse]
      | ok head =>
        refine .inr (.inl ⟨h.length - 3, head, ⟨hfind, hlimit, ?_⟩, ?_⟩)
        · rw [htake]
          exact hparse
        · rw [hdrop]
    next hsuffix =>
      have hfind := find_blankLine_push hnone b
      rw [if_neg hsuffix] at hfind
      rw [append_cons]
      refine ih hfind ?_
      rw [length_append, length_singleton]
      omega

variable {k : ℕ} {m : List UInt8} {head : StreamHead}

theorem HeadOf.fits (h : HeadOf m k head) : k + 4 ≤ m.length :=
  (eq_of_find blankLine_ne_nil h.1).2

theorem HeadOf.append (h : HeadOf m k head) (piece : List UInt8) : HeadOf (m ++ piece) k head := by
  refine ⟨find_append blankLine_ne_nil h.1, h.2.1, ?_⟩
  rw [take_append_of_le_length h.fits]
  exact h.2.2

theorem received_of_headOf (h : HeadOf m k head) : received m = if m.length - (k + 4) ≤ head.contentLength then
      some (⟨[], some head, head.contentLength - (m.length - (k + 4)), false⟩, m.drop (k + 4)) else none := by
  obtain ⟨hfind, hlimit, hparse⟩ := h
  unfold received
  rw [hfind]
  dsimp only
  rw [if_pos hlimit, hparse]

theorem received_of_find_none (hfind : find blankLine m = none) (hlen : m.length ≤ maxHeaderBytes) :
    received m = some (⟨m, none, 0, false⟩, []) := by
  unfold received
  rw [hfind]
  exact if_pos hlen

variable {d : StreamingResponseDecoder}

theorem received_cases {s : List UInt8} (h : received m = some (d, s)) :
    (find blankLine m = none ∧ m.length ≤ maxHeaderBytes ∧ d = ⟨m, none, 0, false⟩ ∧ s = []) ∨
    ∃ k head, HeadOf m k head ∧ m.length - (k + 4) ≤ head.contentLength ∧
      d = ⟨[], some head, head.contentLength - (m.length - (k + 4)), false⟩ ∧ s = m.drop (k + 4) := by
  unfold received at h
  split at h
  next hfind =>
    split at h
    next hlen =>
      obtain ⟨rfl, rfl⟩ := Prod.mk.inj (Option.some.inj h)
      exact .inl ⟨hfind, hlen, rfl, rfl⟩
    · cases h
  next k hfind =>
    split at h
    next hlimit =>
      split at h
      · cases h
      next head hparse =>
        split at h
        next hle =>
          obtain ⟨rfl, rfl⟩ := Prod.mk.inj (Option.some.inj h)
          exact .inr ⟨k, head, ⟨hfind, hlimit, hparse⟩, hle, rfl, rfl⟩
        · cases h
    · cases h

/-! ## One call -/

theorem takeBody_collect {remaining : ℕ} (bytes s : List UInt8) :
    takeBody ⟨[], some head, remaining, false⟩ bytes collect s =
      if remaining < bytes.length then (.error (.protocol .trailingData), ⟨[], some head, remaining, false⟩, s)
      else (.ok (), ⟨[], some head, remaining - bytes.length, false⟩, s ++ bytes) := by
  unfold takeBody
  by_cases hempty : bytes = []
  · rw [if_neg (fun h => h.2 hempty), hempty, length_nil, if_neg (Nat.not_lt_zero _), append_nil]
    rfl
  · rw [if_pos ⟨rfl, hempty⟩]
    rfl

def settle : Except (StreamError ε) Unit × StreamingResponseDecoder × σ →
    Except (StreamError ε) Unit × StreamingResponseDecoder × σ
  | (.error e, d, s) => (.error e, { d with failed := true }, s)
  | (.ok (), d, s) => (.ok (), d, s)

variable {piece : List UInt8}

theorem feed_header {sink : σ → List UInt8 → Except ε Unit × σ} {s : σ} : feed ⟨h, none, 0, false⟩ piece sink s = settle
      (match takeHeader ⟨h, none, 0, false⟩ piece with
        | (.error e, d) => (.error (.protocol e), d, s)
        | (.ok rest, d) => d.takeBody rest sink s) := rfl

theorem feed_body {remaining : ℕ} {sink : σ → List UInt8 → Except ε Unit × σ} {s : σ} :
    feed ⟨[], some head, remaining, false⟩ piece sink s =
      settle (takeBody ⟨[], some head, remaining, false⟩ piece sink s) := rfl

/-- A call on the state after `m` leads to the state after `m` and the piece, or fails where there is none. -/
theorem feed_received {s : List UInt8} (h : received m = some (d, s)) (piece : List UInt8) :
    (∃ d' s', received (m ++ piece) = some (d', s') ∧ d.feed piece collect s = (.ok (), d', s')) ∨
    (received (m ++ piece) = none ∧ ∃ e d', d'.failed = true ∧ d.feed piece collect s = (.error e, d', s)) := by
  rcases received_cases h with ⟨hfind, hlen, rfl, rfl⟩ | ⟨k, head, hhead, hle, rfl, rfl⟩
  · rcases takeHeader_spec hfind hlen piece with ⟨hnone, hlen', htake⟩ | ⟨k, head, hhead, htake⟩ | ⟨hnone, e, d', htake⟩
    · refine .inl ⟨_, _, received_of_find_none hnone hlen', ?_⟩
      rw [feed_header, htake]
      rfl
    · rw [feed_header, htake]
      dsimp only
      rw [takeBody_collect, received_of_headOf hhead, length_drop, nil_append]
      by_cases hfit : (m ++ piece).length - (k + 4) ≤ head.contentLength
      · rw [if_pos hfit, if_neg (Nat.not_lt_of_le hfit)]
        exact .inl ⟨_, _, rfl, rfl⟩
      · rw [if_neg hfit, if_pos (Nat.lt_of_not_le hfit)]
        exact .inr ⟨rfl, _, _, rfl, rfl⟩
    · refine .inr ⟨hnone, .protocol e, { d' with failed := true }, rfl, ?_⟩
      rw [feed_header, htake]
      rfl
  · have hfits := hhead.fits
    have hlen : (m ++ piece).length - (k + 4) = m.length - (k + 4) + piece.length := by
      rw [length_append]
      omega
    rw [feed_body, takeBody_collect, received_of_headOf (hhead.append piece), hlen, drop_append_of_le_length hfits]
    by_cases hfit : m.length - (k + 4) + piece.length ≤ head.contentLength
    · rw [if_pos hfit, if_neg (by omega), Nat.sub_sub]
      exact .inl ⟨_, _, rfl, rfl⟩
    · rw [if_neg hfit, if_pos (by omega)]
      exact .inr ⟨rfl, _, _, rfl, rfl⟩

theorem feedAll_failed (h : d.failed = true) (s : List UInt8)
    (pieces : List (List UInt8)) : (d.feedAll s pieces).2 = (d, s) := by
  induction pieces with
  | nil => rfl
  | cons piece pieces ih =>
    rw [feedAll, feed, if_pos h]
    exact ih

/-! ## Whole runs -/

theorem received_none_append (h : received m = none) (rest : List UInt8) : received (m ++ rest) = none := by
  -- a run over the longer text passes through the state of `m`
  cases hlong : received (m ++ rest) with
  | none => rfl
  | some state =>
    exfalso
    rcases received_cases hlong with ⟨hfind, hlen, -⟩ | ⟨k, head, hhead, hle, -⟩
    · have hm : find blankLine m = none := by
        cases hf : find blankLine m with
        | none => rfl
        | some k =>
          rw [find_append blankLine_ne_nil hf] at hfind
          cases hfind
      rw [length_append] at hlen
      rw [received_of_find_none hm (by omega)] at h
      cases h
    · rcases Nat.lt_or_ge m.length (k + 4) with hshort | hfits
      · have hm := find_none_of_append blankLine_ne_nil hhead.1 hshort
        have hlimit := hhead.2.1
        rw [received_of_find_none hm (by omega)] at h
        cases h
      · have hparse := hhead.2.2
        rw [take_append_of_le_length hfits] at hparse
        have hm : HeadOf m k head := ⟨find_of_append blankLine_ne_nil hhead.1 hfits, hhead.2.1, hparse⟩
        rw [length_append] at hle
        rw [received_of_headOf hm, if_pos (by omega)] at h
        cases h

theorem feedAll_received {s : List UInt8} (h : received m = some (d, s)) (pieces : List (List UInt8)) :
    (∃ d' s', received (m ++ pieces.flatten) = some (d', s') ∧ d.feedAll s pieces = (true, d', s')) ∨
    (received (m ++ pieces.flatten) = none ∧ ∃ d' front d₁ s', d'.failed = true ∧ front <+: pieces.flatten ∧
      received (m ++ front) = some (d₁, s') ∧ d.feedAll s pieces = (false, d', s')) := by
  induction pieces generalizing m d s with
  | nil =>
    left
    rw [flatten_nil, append_nil]
    exact ⟨d, s, h, rfl⟩
  | cons piece pieces ih =>
    rw [flatten_cons, ← append_assoc, feedAll]
    rcases feed_received h piece with ⟨d', s', hnext, hfeed⟩ | ⟨hnone, e, d', hfailed, hfeed⟩
    · rw [hfeed]
      rcases ih hnext with hok | ⟨hnone, d'', front, d₁, s'', hfailed, hfront, hat, hrun⟩
      · exact .inl hok
      · refine .inr ⟨hnone, d'', piece ++ front, d₁, s'', hfailed, (prefix_append_right_inj piece).mpr hfront, ?_, hrun⟩
        rw [← append_assoc]
        exact hat
    · rw [hfeed]
      refine .inr ⟨received_none_append hnone _, d', [], d, s, hfailed, nil_prefix, ?_, ?_⟩
      · rw [append_nil]
        exact h
      · dsimp only
        rw [feedAll_failed hfailed]

theorem received_nil : received [] = some (new, []) := received_of_find_none rfl (Nat.zero_le _)

theorem succeeds_iff {pieces : List (List UInt8)} :
    Succeeds pieces ↔ ∃ k head, HeadOf pieces.flatten k head ∧
      pieces.flatten.length - (k + 4) = head.contentLength := by
  rcases feedAll_received received_nil pieces with ⟨d, s, hstate, hrun⟩ | ⟨hnone, d, front, d₁, s, -, -, -, hrun⟩
  · rw [nil_append] at hstate
    rw [Succeeds, hrun]
    rcases received_cases hstate with ⟨hfind, -, rfl, -⟩ | ⟨k, head, hhead, hle, rfl, -⟩
    · refine iff_of_false (fun h => ?_) ?_
      · cases h.2
      · rintro ⟨k, head, hhead, -⟩
        rw [hhead.1] at hfind
        cases hfind
    · have hfinish : (finish ⟨[], some head, head.contentLength - (pieces.flatten.length - (k + 4)), false⟩).1 = .ok () ↔
          head.contentLength - (pieces.flatten.length - (k + 4)) = 0 := by
        rw [finish, if_neg Bool.false_ne_true, isComplete]
        by_cases hzero : head.contentLength - (pieces.flatten.length - (k + 4)) = 0
        · exact iff_of_true (by rw [hzero]; rfl) hzero
        · refine iff_of_false ?_ hzero
          rw [if_neg (by rw [Bool.and_eq_true, beq_iff_eq]; exact fun h => hzero h.2)]
          intro h
          cases h
      rw [hfinish]
      constructor
      · rintro ⟨-, hzero⟩
        exact ⟨k, head, hhead, by omega⟩
      · rintro ⟨k', head', hhead', heq⟩
        obtain rfl : k = k' := Option.some.inj (hhead.1.symm.trans hhead'.1)
        obtain rfl : head = head' := Except.ok.inj (hhead.2.2.symm.trans hhead'.2.2)
        exact ⟨rfl, by omega⟩
  · rw [nil_append] at hnone
    rw [Succeeds, hrun]
    refine iff_of_false (fun h => absurd h.1 Bool.false_ne_true) ?_
    rintro ⟨k, head, hhead, heq⟩
    rw [received_of_headOf hhead, if_pos heq.le] at hnone
    cases hnone

theorem feedAll_of_succeeds {pieces : List (List UInt8)}
    (hhead : HeadOf pieces.flatten k head) (heq : pieces.flatten.length - (k + 4) = head.contentLength) :
    (new.feedAll [] pieces).2.1.head = some head ∧ sunk pieces = pieces.flatten.drop (k + 4) := by
  have hreceived := received_of_headOf hhead
  rw [if_pos heq.le] at hreceived
  rcases feedAll_received received_nil pieces with ⟨d, s, hstate, hrun⟩ | ⟨hnone, -⟩
  · rw [nil_append, hreceived] at hstate
    obtain ⟨rfl, rfl⟩ := Prod.mk.inj (Option.some.inj hstate)
    rw [sunk, hrun]
    exact ⟨rfl, rfl⟩
  · rw [nil_append, hreceived] at hnone
    cases hnone

theorem sunk_front :
    (∀ k head, HeadOf pieces.flatten k head → sunk pieces <+: (pieces.flatten.drop (k + 4)).take head.contentLength) ∧
    ((¬ ∃ k head, HeadOf pieces.flatten k head) → sunk pieces = []) := by
  obtain ⟨front, d, hfront, hstate⟩ : ∃ front d, front <+: pieces.flatten ∧ received front = some (d, sunk pieces) := by
    rcases feedAll_received received_nil pieces with ⟨d, s, hstate, hrun⟩ | ⟨-, _, front, d, s, -, hfront, hstate, hrun⟩
    · refine ⟨pieces.flatten, d, prefix_rfl, ?_⟩
      rw [sunk, hrun]
      exact hstate
    · refine ⟨front, d, hfront, ?_⟩
      rw [sunk, hrun]
      exact hstate
  obtain ⟨rest, hrest⟩ := hfront
  rcases received_cases hstate with ⟨-, -, -, hsunk⟩ | ⟨k, head, hhead, hle, -, hsunk⟩
  · rw [hsunk]
    exact ⟨fun k head _ => nil_prefix, fun _ => rfl⟩
  · have hlong := hhead.append rest
    rw [hrest] at hlong
    refine ⟨fun k' head' hhead' => ?_, fun hno => absurd ⟨k, head, hlong⟩ hno⟩
    obtain rfl : k = k' := Option.some.inj (hlong.1.symm.trans hhead'.1)
    obtain rfl : head = head' := Except.ok.inj (hlong.2.2.symm.trans hhead'.2.2)
    rw [hsunk, ← hrest, drop_append_of_le_length hhead.fits]
    have hlen : (front.drop (k + 4)).length ≤ head.contentLength := by
      rw [length_drop]
      exact hle
    rw [take_append, take_of_length_le hlen]
    exact prefix_append _ _

end StreamingResponseDecoder

/-! ## Against the buffered decoder -/

variable {s s' : StreamLines}

theorem StreamLines.addLine_contentLength {line : List UInt8} {n : ℕ}
    (h : s.addLine line = .ok s') (hn : s.contentLength = some n) : s'.contentLength = some n := by
  simp only [StreamLines.addLine, bind_eq_ok] at h
  obtain ⟨_, _, _, _, ⟨name, value⟩, _, _, _, _, _, length, hlength, h⟩ := h
  obtain rfl := Except.ok.inj h
  rw [StreamLines.nextContentLength] at hlength
  split at hlength
  · obtain ⟨parsed, _, hlength⟩ := bind_eq_ok.mp hlength
    obtain ⟨_, hsame, hlength⟩ := bind_eq_ok.mp hlength
    rw [reject_eq_ok, hn, Option.any_some, bne_iff_ne, not_not] at hsame
    rw [← Except.ok.inj hlength, hsame]
  · rw [← Except.ok.inj hlength]
    exact hn

theorem Head.addLine_of_stream {line : List UInt8} (h : s.addLine line = .ok s')
    (hsmall : ∀ n, s'.contentLength = some n → n ≤ maxBodyBytes) :
    Head.addLine ⟨s.headers, s.contentLength, false⟩ line = .ok ⟨s'.headers, s'.contentLength, false⟩ := by
  simp only [StreamLines.addLine, bind_eq_ok] at h
  obtain ⟨_, hlen, _, hcount, ⟨name, value⟩, hheader, _, htransfer, _, _, length, hlength, h⟩ := h
  obtain rfl := Except.ok.inj h
  have hnext : Head.nextContentLength ⟨s.headers, s.contentLength, false⟩ name value = .ok length := by
    rw [StreamLines.nextContentLength] at hlength
    unfold Head.nextContentLength
    split at hlength
    next hname =>
      obtain ⟨parsed, hparsed, hlength⟩ := bind_eq_ok.mp hlength
      obtain ⟨_, hsame, hlength⟩ := bind_eq_ok.mp hlength
      have hle : parsed ≤ maxBodyBytes := hsmall parsed (Except.ok.inj hlength).symm
      rw [if_pos hname]
      refine bind_ok hparsed ?_
      exact reject_bind (Nat.not_lt_of_le hle) (bind_ok hsame hlength)
    next hname =>
      rw [if_neg hname]
      exact hlength
  have hchunked : Head.nextChunked ⟨s.headers, s.contentLength, false⟩ name value = .ok false := by
    rw [Head.nextChunked, if_neg (reject_eq_ok.mp htransfer)]
  exact bind_ok hlen (bind_ok hcount (bind_ok hheader (bind_ok hnext (bind_ok hchunked rfl))))

theorem Head.foldlM_of_stream {lines : List (List UInt8)}
    (h : lines.foldlM StreamLines.addLine s = .ok s') (hsmall : ∀ n, s'.contentLength = some n → n ≤ maxBodyBytes) :
    lines.foldlM Head.addLine ⟨s.headers, s.contentLength, false⟩ = .ok ⟨s'.headers, s'.contentLength, false⟩ := by
  induction lines generalizing s with
  | nil =>
    obtain rfl := Except.ok.inj h
    rfl
  | cons line lines ih =>
    rw [foldlM_cons] at h ⊢
    obtain ⟨s₁, hline, h⟩ := bind_eq_ok.mp h
    -- a length that is set stays, so the one of this line is the last one
    have hfirst : ∀ n, s₁.contentLength = some n → n ≤ maxBodyBytes := by
      intro n hn
      refine hsmall n (foldlM_invariant (P := fun s : StreamLines => s.contentLength = some n) ?_ hn h)
      exact fun _ _ _ hs hstep => StreamLines.addLine_contentLength hstep hs
    exact bind_ok (Head.addLine_of_stream hline hfirst) (ih h)

theorem decodeResponse_of_stream {m : List UInt8} {k : ℕ} {head : StreamHead}
    (hhead : StreamingResponseDecoder.HeadOf m k head) (heq : m.length - (k + 4) = head.contentLength)
    (hsmall : head.contentLength ≤ maxBodyBytes) :
    ∃ reason, decodeResponse m false =
      .ok { statusCode := head.statusCode, reason, headers := head.headers, body := m.drop (k + 4) } := by
  obtain ⟨hfind, hlimit, hparse⟩ := hhead
  have hfits : k + 4 ≤ m.length := (eq_of_find blankLine_ne_nil hfind).2
  have htake : (m.take (k + 4)).take ((m.take (k + 4)).length - 4) = m.take k := by
    rw [take_take, length_take_of_le hfits, Nat.add_sub_cancel, Nat.min_eq_left (Nat.le_add_right _ _)]
  obtain ⟨_, _, hparse⟩ := bind_eq_ok.mp hparse
  rw [htake] at hparse
  simp only [bind_eq_ok] at hparse
  obtain ⟨_, hvalid, statusLine, hstatusLine, ⟨status, reason⟩, hstatus, _, _, _, hok, s, hfold, length,
    hlength, hparse⟩ := hparse
  obtain rfl := Except.ok.inj hparse
  obtain rfl : status = 200 := not_not.mp (reject_eq_ok.mp hok)
  have hcontent : s.contentLength = some length := okOr_eq_ok.mp hlength
  have hlines := Head.foldlM_of_stream hfold fun n hn => by
    rw [hcontent] at hn
    exact (Option.some.inj hn) ▸ hsmall
  refine ⟨reason, bind_ok (okOr_eq_ok.mpr hfind) ?_⟩
  refine reject_bind (Nat.not_lt_of_le hlimit) ?_
  refine bind_ok (a := (200, reason, ⟨s.headers, s.contentLength, false⟩)) ?_ ?_
  · exact bind_ok hvalid (bind_ok hstatusLine (bind_ok hstatus (bind_ok hlines
      (reject_bind (fun h => Bool.false_ne_true h.1) rfl))))
  · refine bind_ok (a := m.drop (k + 4)) ?_ rfl
    have hlen : (m.drop (k + 4)).length = length := by
      rw [length_drop]
      exact heq
    rw [decodeBody, if_neg (by decide), if_neg Bool.false_ne_true, hcontent]
    exact reject_bind (by omega) (reject_bind (by omega) rfl)

namespace StreamingResponseDecoder

/-- **How a response is cut into calls does not matter, and the buffered decoder agrees.** -/
theorem packetisation_independent (m : List UInt8) (pieces pieces' : List (List UInt8)) (h : pieces.flatten = m)
    (h' : pieces'.flatten = m) :
    (Succeeds pieces ↔ Succeeds pieces') ∧
    (Succeeds pieces → sunk pieces = sunk pieces' ∧
      ∃ head, (new.feedAll [] pieces).2.1.head = some head ∧ (new.feedAll [] pieces').2.1.head = some head ∧
        (head.contentLength ≤ maxBodyBytes → ∃ response, decodeResponse m false = .ok response ∧
          response.statusCode = head.statusCode ∧ response.headers = head.headers ∧ response.body = sunk pieces)) ∧
    (∀ k head, HeadOf m k head → sunk pieces <+: (m.drop (k + 4)).take head.contentLength) ∧
    ((¬ ∃ k head, HeadOf m k head) → sunk pieces = []) := by
  refine ⟨?_, fun hsucceeds => ?_, ?_⟩
  · rw [succeeds_iff, succeeds_iff, h, h']
  · obtain ⟨k, head, hhead, heq⟩ := succeeds_iff.mp hsucceeds
    obtain ⟨hstate, hsunk⟩ := feedAll_of_succeeds hhead heq
    rw [h, ← h'] at hhead heq
    obtain ⟨hstate', hsunk'⟩ := feedAll_of_succeeds hhead heq
    rw [h'] at hhead heq hsunk'
    rw [h] at hsunk
    refine ⟨hsunk.trans hsunk'.symm, head, hstate, hstate', fun hsmall => ?_⟩
    obtain ⟨reason, hdecode⟩ := decodeResponse_of_stream hhead heq hsmall
    exact ⟨_, hdecode, rfl, rfl, hsunk.symm⟩
  · rw [← h]
    exact sunk_front pieces

end StreamingResponseDecoder

namespace Fixture

def lengthResponse : List UInt8 := ascii "HTTP/1.1 200 OK\r\nContent-Length: 5\r\n\r\nhello"

theorem packetisation_independent_hello : StreamingResponseDecoder.Succeeds (lengthResponse.map ([·])) ∧
    StreamingResponseDecoder.sunk [lengthResponse] = ascii "hello" ∧
    StreamingResponseDecoder.sunk (lengthResponse.map ([·])) = ascii "hello" := by
  obtain ⟨hiff, hsame, -, -⟩ := StreamingResponseDecoder.packetisation_independent lengthResponse [lengthResponse]
    (lengthResponse.map ([·])) (flatten_singleton) (by decide)
  have hwhole : StreamingResponseDecoder.Succeeds [lengthResponse] := ⟨by decide +kernel, by decide +kernel⟩
  have hsunk : StreamingResponseDecoder.sunk [lengthResponse] = ascii "hello" := by decide +kernel
  exact ⟨hiff.mp hwhole, hsunk, (hsame hwhole).1.symm.trans hsunk⟩

end Fixture

end MochiSyscalls.HttpClient
