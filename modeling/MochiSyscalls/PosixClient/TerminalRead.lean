import MochiSyscalls.Foundations.Loops

/-! # Reads of a terminal

`read` (`crates/posix-client/src/terminal_read.rs`): one loop for the five kinds of read. The three callbacks are
functions on a state of their own, so that they may answer anything; the loop records what it asked and was
answered, the latest first. -/

namespace MochiSyscalls.PosixClient.TerminalRead
open Foundations.Loops
set_option autoImplicit false

inductive Attempt where
  | bytes (count : ℕ)
  | unavailable

inductive Error (E : Type) where
  | io (error : E)
  | invalidResult

structure TerminalReadSettings where
  noncanonical : Bool
  minimum : UInt8
  deciseconds : UInt8

structure Call (W E : Type) where
  settings : TerminalReadSettings
  capacity : ℕ
  nonblocking : Bool
  unavailable : E
  read : W → ℕ → ℕ → Except E Attempt × W
  clock : W → Except E ℕ × W
  wait : W → Option ℕ → Except E Bool × W

inductive Event (E : Type) where
  | read (offset room : ℕ) (result : Except E Attempt)
  | clock (result : Except E ℕ)
  | wait (deadline : Option ℕ) (result : Except E Bool)

structure State (W E : Type) where
  world : W
  deadline : Option ℕ
  total : ℕ
  history : List (Event E)

abbrev Ending (E : Type) := Except (Error E) ℕ × List (Event E)

variable {W E : Type}

def failed (total : ℕ) (error : E) : Except (Error E) ℕ := if total = 0 then .error (.io error) else .ok total

def u64Max : ℕ := 2 ^ 64 - 1

namespace Call

variable (r : Call W E)

def minimum : ℕ := min r.settings.minimum.toNat r.capacity

def interval : ℕ := r.settings.deciseconds.toNat * 100000000

def deadlineAfter (now : ℕ) : ℕ := min (min (now + r.interval) u64Max) (u64Max - 1)

def afterWait (s : State W E) : Pass (State W E) (Ending E) :=
  match r.wait s.world s.deadline with
  | (.ok true, world) => .again { s with world, history := .wait s.deadline (.ok true) :: s.history }
  | (.ok false, _) =>
    if s.deadline.isSome then .done (.ok s.total, .wait s.deadline (.ok false) :: s.history)
    else .done (.error .invalidResult, .wait s.deadline (.ok false) :: s.history)
  | (.error e, _) => .done (failed s.total e, .wait s.deadline (.error e) :: s.history)

def afterUnavailable (s : State W E) : Pass (State W E) (Ending E) :=
  if r.nonblocking then .done (failed s.total r.unavailable, s.history)
  else if r.settings.noncanonical ∧ r.minimum = 0 ∧ r.interval = 0 then .done (.ok s.total, s.history)
  else
    match s.deadline with
    | none => r.afterWait s
    | some stop =>
      match r.clock s.world with
      | (.ok now, world) =>
        if stop ≤ now then .done (.ok s.total, .clock (.ok now) :: s.history)
        else r.afterWait { s with world, history := .clock (.ok now) :: s.history }
      | (.error e, _) => .done (failed s.total e, .clock (.error e) :: s.history)

def afterBytes (s : State W E) (count : ℕ) : Pass (State W E) (Ending E) :=
  if r.capacity - s.total < count then .done (.error .invalidResult, s.history)
  else
    let s := { s with total := s.total + count }
    if count = 0 ∨ r.nonblocking ∨ !r.settings.noncanonical ∨ r.minimum = 0 ∨ r.minimum ≤ s.total then
      .done (.ok s.total, s.history)
    else if r.interval ≠ 0 then
      match r.clock s.world with
      | (.ok now, world) =>
        .again { s with world, deadline := some (r.deadlineAfter now), history := .clock (.ok now) :: s.history }
      | (.error e, _) => .done (failed s.total e, .clock (.error e) :: s.history)
    else .again s

def pass (s : State W E) : Pass (State W E) (Ending E) :=
  let answer := r.read s.world s.total (r.capacity - s.total)
  let s := { s with world := answer.2, history := .read s.total (r.capacity - s.total) answer.1 :: s.history }
  match answer.1 with
  | .ok (.bytes count) => r.afterBytes s count
  | .ok .unavailable => r.afterUnavailable s
  | .error e => .done (failed s.total e, s.history)

def loop : ℕ → State W E → Option (Ending E)
  | 0, _ => none
  | passes + 1, s =>
    match r.pass s with
    | .again s => loop passes s
    | .done ending => some ending

end Call

/-- The result and what was asked on the way, if at most `passes` passes are made. -/
def read (r : Call W E) (passes : ℕ) (world : W) : Option (Ending E) :=
  if r.capacity = 0 then some (.ok 0, [])
  else if !r.nonblocking ∧ r.settings.noncanonical ∧ r.minimum = 0 ∧ r.interval ≠ 0 then
    match r.clock world with
    | (.ok now, world) => r.loop passes ⟨world, some (r.deadlineAfter now), 0, [.clock (.ok now)]⟩
    | (.error e, _) => some (.error (.io e), [.clock (.error e)])
  else r.loop passes ⟨world, none, 0, []⟩

/-! ## What a history says -/

namespace Event

def count : Event E → ℕ
  | .read _ _ (.ok (.bytes count)) => count
  | _ => 0

def ends : Event E → Bool
  | .read _ _ (.ok (.bytes 0)) | .read _ _ (.error _) | .clock (.error _) | .wait _ (.error _) => true
  | _ => false

end Event

@[grind =] def delivered : List (Event E) → ℕ
  | [] => 0
  | e :: past => e.count + delivered past

namespace Call

variable (r : Call W E)

/-- A read goes on at the bytes delivered; while a number is asked for, there is a deadline only when some were
delivered. -/
def Fits (past : List (Event E)) : Event E → Prop
  | .read offset room _ => offset = delivered past ∧ room = r.capacity - delivered past
  | .clock _ | .wait (some _) _ => 0 < r.minimum → 0 < delivered past
  | .wait none _ => True

def Regular : List (Event E) → Prop
  | [] => True
  | e :: past => r.Fits past e ∧ Regular past

/-- The deadline in force: given at entry when no number of bytes is asked for, else right after the last batch. -/
def Armed (deadline : ℕ) (history : List (Event E)) : Prop :=
  ∃ now during past, history = during ++ .clock (.ok now) :: past ∧ deadline = r.deadlineAfter now ∧
    (∀ e ∈ during, e.count = 0) ∧ if r.minimum = 0 then past = [] else ∃ e earlier, past = e :: earlier ∧ 0 < e.count

def Expired (history : List (Event E)) : Prop :=
  ∃ deadline e past, history = e :: past ∧ r.Armed deadline past ∧
    ((∃ now, e = .clock (.ok now) ∧ deadline ≤ now) ∨ e = .wait (some deadline) (.ok false))

structure Posix (result : Except (Error E) ℕ) (history : List (Event E)) : Prop where
  regular : r.Regular history
  result_eq : result = .ok (delivered history) ∨ delivered history = 0 ∧ ∃ e, result = .error e
  batch : r.nonblocking = false → r.settings.noncanonical = true → 0 < r.minimum → delivered history < r.minimum →
    (∃ e past, history = e :: past ∧ e.ends = true) ∨ r.Expired history
  poll : r.settings.minimum = 0 → result = .ok 0 →
    (∃ past, history = .read 0 r.capacity (.ok (.bytes 0)) :: past) ∨
      (r.settings.deciseconds = 0 ∧ history = [.read 0 r.capacity (.ok .unavailable)]) ∨ r.Expired history
  once : r.nonblocking = true → ∃ answer, history = [.read 0 r.capacity answer]

/-! ## The loop keeps it -/

structure Sound (s : State W E) : Prop where
  regular : r.Regular s.history
  total : s.total = delivered s.history
  armed : ∀ deadline, s.deadline = some deadline → r.Armed deadline s.history ∧ r.interval ≠ 0

/-- Neither a single attempt nor a poll without a deadline. -/
def Lasting : Prop := r.nonblocking = false ∧ ¬ (r.settings.noncanonical = true ∧ r.minimum = 0 ∧ r.interval = 0)

def Good : Pass (State W E) (Ending E) → Prop
  | .again s => r.Sound s ∧ r.Lasting
  | .done ending => r.Posix ending.1 ending.2

variable {r} {s : State W E} {e : Event E} {past : List (Event E)} {deadline total count : ℕ}

theorem Armed.fits (h : r.Armed deadline past) (hmin : 0 < r.minimum) : 0 < delivered past := by
  obtain ⟨now, during, past, rfl, -, -, horigin⟩ := h
  rw [if_neg (by omega)] at horigin
  obtain ⟨e, earlier, rfl, he⟩ := horigin
  induction during with
  | nil => simp [delivered, he]
  | cons e during ih => simp [delivered, ih]

theorem Sound.push (h : r.Sound s) (hcount : e.count = 0) (hfits : r.Fits s.history e) (world : W) :
    r.Sound { s with world, history := e :: s.history } where
  regular := ⟨hfits, h.regular⟩
  total := by simp [delivered, hcount, h.total]
  armed deadline hd := by
    obtain ⟨⟨now, during, past, heq, hnow, hnone, horigin⟩, htime⟩ := h.armed deadline hd
    exact ⟨⟨now, e :: during, past, by simp [heq], hnow, by simpa [hcount] using hnone, horigin⟩, htime⟩

theorem posix_failed (error : E) (hregular : r.Regular (e :: past)) (htotal : total = delivered (e :: past))
    (hends : r.nonblocking = false → e.ends = true)
    (honce : r.nonblocking = true → ∃ answer, e :: past = [.read 0 r.capacity answer]) :
    r.Posix (failed total error) (e :: past) := by
  unfold failed
  refine ⟨hregular, ?_, fun h _ _ _ => .inl ⟨e, past, rfl, hends h⟩, ?_, honce⟩ <;> grind

theorem Sound.expired (h : r.Sound s) (hblocking : r.nonblocking = false) (hd : s.deadline = some deadline)
    (hcount : e.count = 0) (hfits : r.Fits s.history e)
    (he : (∃ now, e = .clock (.ok now) ∧ deadline ≤ now) ∨ e = .wait (some deadline) (.ok false)) :
    r.Posix (.ok s.total) (e :: s.history) := by
  have hexpired : r.Expired (e :: s.history) := ⟨deadline, e, s.history, rfl, (h.armed deadline hd).1, he⟩
  refine ⟨⟨hfits, h.regular⟩, .inl ?_, fun _ _ _ _ => .inr hexpired, fun _ _ => .inr (.inr hexpired), by simp [hblocking]⟩
  rw [delivered, hcount, h.total, Nat.zero_add]

section

variable (hwait : ∀ w w', r.wait w none ≠ (.ok false, w')) (h : r.Sound s)
include hwait h

theorem afterWait_good (hlasting : r.Lasting) : r.Good (r.afterWait s) := by
  have hfits : ∀ answer, r.Fits s.history (.wait s.deadline answer) := by
    intro answer
    cases hd : s.deadline with
    | none => trivial
    | some deadline => exact (h.armed deadline hd).1.fits
  rw [afterWait]
  split
  · exact ⟨h.push rfl (hfits _) _, hlasting⟩
  next heq =>
    cases hd : s.deadline with
    | none => exact absurd (hd ▸ heq) (hwait _ _)
    | some deadline => exact h.expired hlasting.1 hd rfl (hd ▸ hfits _) (.inr rfl)
  next error _ _ =>
    have hpush := h.push rfl (hfits (.error error)) s.world
    exact posix_failed error hpush.regular hpush.total (fun _ => rfl) (by simp [hlasting.1])

theorem afterUnavailable_good
    (hread : s.history = .read (delivered past) (r.capacity - delivered past) (.ok .unavailable) :: past)
    (hpast : past = [] ∨ r.Lasting) : r.Good (r.afterUnavailable s) := by
  have htotal := h.total
  have hregular := h.regular
  rw [afterUnavailable]
  split
  next hnon =>
    obtain rfl : past = [] := hpast.resolve_right fun hl => by simp [hl.1] at hnon
    rw [hread] at hregular htotal ⊢
    exact posix_failed r.unavailable hregular htotal (by simp [hnon]) fun _ => ⟨_, rfl⟩
  next hblocking =>
    split
    next hpoll =>
      obtain rfl : past = [] := hpast.resolve_right fun hl => hl.2 hpoll
      have hseconds : r.settings.deciseconds = 0 := UInt8.toNat_inj.1 (by simpa [interval] using hpoll.2.2)
      rw [hread] at hregular htotal ⊢
      exact ⟨hregular, .inl (by rw [htotal]), by omega, fun _ _ => .inr (.inl ⟨hseconds, rfl⟩), fun h => absurd h hblocking⟩
    next hpoll =>
      have hlasting : r.Lasting := ⟨by simpa using hblocking, hpoll⟩
      split
      · exact afterWait_good hwait h hlasting
      next deadline hd =>
        have hfits : ∀ answer, r.Fits s.history (.clock answer) := fun _ => (h.armed deadline hd).1.fits
        split
        next now world _ =>
          split
          next hle => exact h.expired hlasting.1 hd rfl (hfits _) (.inl ⟨now, rfl, hle⟩)
          · exact afterWait_good hwait (h.push rfl (hfits (.ok now)) world) hlasting
        next error _ _ =>
          have hpush := h.push rfl (hfits (.error error)) s.world
          exact posix_failed error hpush.regular hpush.total (fun _ => rfl) (by simp [hlasting.1])

end

theorem afterBytes_good (hregular : r.Regular s.history) (htotal : s.total = delivered past)
    (hread : s.history = .read (delivered past) (r.capacity - delivered past) (.ok (.bytes count)) :: past)
    (hcount : count ≤ r.capacity - s.total) (hpast : past = [] ∨ r.Lasting)
    (hdeadline : ∀ deadline, s.deadline = some deadline → r.interval ≠ 0) : r.Good (r.afterBytes s count) := by
  have hsum : s.total + count = delivered s.history := by
    rw [hread, delivered, Event.count, htotal, Nat.add_comm]
  rw [afterBytes, if_neg (not_lt.2 hcount)]
  dsimp only
  split
  next hdone =>
    refine ⟨hregular, .inl (by rw [hsum]), fun hnon hcanonical hmin hfew => .inl ?_, fun hmin hzero => .inl ?_,
      fun hnon => ?_⟩
    · obtain rfl : count = 0 := by grind
      exact ⟨_, _, hread, rfl⟩
    · have := Except.ok.inj hzero
      obtain rfl : count = 0 := by omega
      exact ⟨past, by simp [hread, ← htotal, show s.total = 0 by omega]⟩
    · obtain rfl : past = [] := hpast.resolve_right fun hl => by simp [hl.1] at hnon
      exact ⟨_, hread⟩
  next hmore =>
    have hlasting : r.Lasting := by grind [Lasting]
    have hfits : ∀ answer, r.Fits s.history (.clock answer) := fun _ _ => by omega
    have htotal' : ∀ answer, s.total + count = delivered (.clock answer :: s.history) := fun _ => by
      simp [delivered, Event.count, hsum]
    split
    next htime =>
      split
      next now world _ =>
        refine ⟨⟨⟨hfits _, hregular⟩, htotal' _, fun deadline hd => ⟨⟨now, [], s.history, rfl, ?_, nofun, ?_⟩, htime⟩⟩,
          hlasting⟩
        · exact (Option.some.inj hd).symm
        · rw [if_neg (by omega)]
          exact ⟨_, _, hread, by simp only [Event.count]; omega⟩
      next error _ _ => exact posix_failed error ⟨hfits _, hregular⟩ (htotal' _) (fun _ => rfl) (by simp [hlasting.1])
    next htime => exact ⟨⟨hregular, hsum, fun deadline hd => absurd (hdeadline deadline hd) htime⟩, hlasting⟩

variable (hread : ∀ w offset room count w', r.read w offset room = (.ok (.bytes count), w') → count ≤ room)
  (hwait : ∀ w w', r.wait w none ≠ (.ok false, w'))
include hread hwait

theorem pass_good (h : r.Sound s) (hpast : s.history = [] ∨ r.Lasting) : r.Good (r.pass s) := by
  have hroom := hread s.world s.total (r.capacity - s.total)
  have hfits : ∀ answer, r.Fits s.history (.read s.total (r.capacity - s.total) answer) := fun _ => by simp [Fits, h.total]
  rw [pass]
  generalize hanswer : r.read s.world s.total (r.capacity - s.total) = answer at hroom ⊢
  obtain ⟨answer, world⟩ := answer
  dsimp only
  split
  next count =>
    exact afterBytes_good ⟨hfits _, h.regular⟩ h.total (by simp [h.total]) (hroom count _ rfl) hpast
      fun deadline hd => (h.armed deadline hd).2
  next => exact afterUnavailable_good hwait (h.push rfl (hfits _) _) (by simp [h.total]) hpast
  next error =>
    have hpush := h.push rfl (hfits (.error error)) s.world
    refine posix_failed error hpush.regular hpush.total (fun _ => rfl) fun hnon => ?_
    have hnil := hpast.resolve_right fun hl => by simp [hl.1] at hnon
    exact ⟨.error error, by simp [h.total, hnil, delivered]⟩

theorem loop_posix {passes : ℕ} {ending : Ending E} (h : r.Sound s) (hpast : s.history = [] ∨ r.Lasting)
    (hrun : r.loop passes s = some ending) : r.Posix ending.1 ending.2 := by
  induction passes generalizing s with
  | zero => cases hrun
  | succ passes ih =>
    have hgood := pass_good hread hwait h hpast
    rw [loop] at hrun
    split at hrun
    next heq =>
      rw [heq] at hgood
      exact ih hgood.1 (.inr hgood.2) hrun
    next heq =>
      rw [heq] at hgood
      cases hrun
      exact hgood

/-- **MIN and TIME.** A read that returns has asked for the right bytes, returns what was delivered, and stops short
only as POSIX allows. -/
theorem read_follows_posix (hcapacity : 0 < r.capacity) {passes : ℕ} {world : W} {ending : Ending E}
    (hrun : TerminalRead.read r passes world = some ending) : r.Posix ending.1 ending.2 := by
  rw [TerminalRead.read, if_neg (by omega)] at hrun
  split at hrun
  next hpoll =>
    obtain ⟨hblocking, -, hzero, htime⟩ := hpoll
    have hfits : ∀ answer, r.Fits [] (.clock answer) := fun _ hmin => by omega
    split at hrun
    next now world _ =>
      have harmed : r.Armed (r.deadlineAfter now) [.clock (.ok now)] := ⟨now, [], [], rfl, rfl, nofun, by simp [hzero]⟩
      have hsound : r.Sound ⟨world, some (r.deadlineAfter now), 0, [.clock (.ok now)]⟩ :=
        ⟨⟨hfits _, trivial⟩, rfl, by rintro _ ⟨⟩; exact ⟨harmed, htime⟩⟩
      exact loop_posix hread hwait hsound (.inr ⟨by simpa using hblocking, fun h => htime h.2.2⟩) hrun
    next error _ _ =>
      cases hrun
      exact posix_failed error ⟨hfits _, trivial⟩ (show 0 = delivered _ from rfl) (fun _ => rfl) (by simpa using hblocking)
  next =>
    have hsound : r.Sound ⟨world, none, 0, []⟩ := ⟨trivial, rfl, nofun⟩
    exact loop_posix hread hwait hsound (.inl rfl) hrun

end Call

namespace ReadFixture

def call : Call Bool Unit where
  settings := ⟨true, 2, 1⟩
  capacity := 4
  nonblocking := false
  unavailable := ()
  read world _ room := (.ok (.bytes (if world then 0 else min 1 room)), true)
  clock world := (.ok 0, world)
  wait world deadline := (.ok deadline.isNone, world)

theorem read_follows_posix_oneByte :
    call.Posix (.ok 1) [.read 1 3 (.ok (.bytes 0)), .clock (.ok 0), .read 0 4 (.ok (.bytes 1))] := by
  refine Call.read_follows_posix ?_ (by rintro w w' ⟨⟩) (by decide) (show read call 2 false = some _ from rfl)
  intro w offset room count w' h
  cases w <;> cases h
  · exact Nat.min_le_right 1 room
  · exact Nat.zero_le room

end ReadFixture

end MochiSyscalls.PosixClient.TerminalRead
