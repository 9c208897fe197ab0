import MochiSyscalls.PosixClient.Pie.Versions

/-! # Walks over captured version tables

A table is captured by following its links through checked reads of the image, and visited later by following them again
through unchecked slices of the captured bytes. Both see the same words, so a visit keeps inside the bytes and moves
forward only. -/

namespace MochiSyscalls.PosixClient.Pie
open Foundations Checked Loops Streams List
set_option autoImplicit false

/-! ## One image -/

/-- What can be read are the bytes of one image that does not change. -/
def Consistent (read : Read) : Prop :=
  ∃ image : ℕ → UInt8, ∀ address length bytes, read address length = .ok bytes →
    bytes = (List.range length).map fun i => image (address + i)

section
variable {read : Read} (hread : Consistent read) {address total : ℕ} {bytes : List UInt8}
  (hbytes : read address total = .ok bytes)
include hread hbytes

theorem Consistent.length : bytes.length = total := by
  obtain ⟨image, himage⟩ := hread
  rw [himage _ _ _ hbytes, length_map, length_range]

theorem Consistent.word {offset size : ℕ} {inner : List UInt8} (h : read (address + offset) size = .ok inner)
    (hinside : offset + size ≤ total) {n k : ℕ} (hk : k + n ≤ size) :
    Bytes.readLe n inner k = Bytes.readLe n (bytes.drop offset) k := by
  obtain ⟨image, himage⟩ := hread
  have hinner : inner = (bytes.drop offset).take size := by
    rw [himage _ _ _ hbytes, himage _ _ _ h]
    apply List.ext_getElem
    · simp only [length_map, length_range, length_take, length_drop]
      omega
    · intro i _ _
      simp only [getElem_map, getElem_range, getElem_take, getElem_drop, Nat.add_assoc]
  unfold Bytes.readLe Bytes.slice
  rw [hinner, take_take, length_take, min_eq_left hk]
  simp only [le_min_iff, hk, true_and]

end

namespace Records

variable (definitions : Bool) (strings : List UInt8)

/-! ## The log of a visit -/

/-- An entry a visit slices off the table, and the offset its link leads to. -/
structure Step where
  offset : ℕ
  size : ℕ
  target : ℕ

abbrev Log := List (Step × List (Step × Option Node))

/-- The inner loop of a visit, for the record at `offset`: its steps and the nodes it hands over. -/
def auxLog (record : List UInt8) (file : Option (List UInt8)) (offset : ℕ) :
    ℕ → ℕ → ℕ → Except Error (List (Step × Option Node))
  | 0, _, _ => .ok []
  | left + 1, index, aux => do
    let bytes := record.drop aux
    let found ← node definitions strings record bytes file index
    let next ← u32At bytes (pick definitions 4 12)
    let rest ← auxLog record file offset left (index + 1) (aux + next)
    pure ((⟨offset + aux, pick definitions 8 16, offset + (aux + next)⟩, found) :: rest)

/-- The outer loop: each record with the log of its auxiliary records. -/
def recordLog (bytes : List UInt8) : ℕ → ℕ → Except Error (Log)
  | 0, _ => .ok []
  | left + 1, offset => do
    let record := bytes.drop offset
    let (number, file, aux) ← recordHead definitions strings record
    let inner ← auxLog definitions strings record file offset number 0 aux
    let next ← u32At record (pick definitions 16 12)
    let rest ← recordLog bytes left (offset + next)
    pure ((⟨offset, pick definitions 20 16, offset + next⟩, inner) :: rest)

def steps (log : Log) : List Step :=
  log.flatMap fun entry => entry.1 :: entry.2.map Prod.fst

def handed (log : Log) : List Node :=
  log.flatMap fun entry => entry.2.filterMap Prod.snd

variable {definitions strings} {record : List UInt8} {file : Option (List UInt8)} {offset left index aux length : ℕ}
  {r : Records} {nodes : List Node} {log : Log}

theorem auxLog_of_nodes (offset : ℕ) (h : auxNodes definitions strings record file left index aux = nodes.map .ok) :
    ∃ log, auxLog definitions strings record file offset left index aux = .ok log ∧ log.filterMap Prod.snd = nodes := by
  induction left generalizing index aux nodes with
  | zero =>
    obtain rfl := map_eq_nil_iff.mp h.symm
    exact ⟨[], rfl, rfl⟩
  | succ left ih =>
    rw [auxNodes] at h
    simp only [auxLog]
    cases hnode : node definitions strings record (record.drop aux) file index with
    | error e => cases nodes <;> simp [hnode] at h
    | ok found =>
      simp only [hnode] at h
      obtain ⟨front, back, rfl, hfront, hback⟩ := append_eq_map_iff.mp h
      have hfound : front = found.toList := map_injective_iff.mpr (fun _ _ => Except.ok.inj) hfront
      cases hnext : u32At (record.drop aux) (pick definitions 4 12) with
      | error e => cases back <;> simp [hnext] at hback
      | ok next =>
        simp only [hnext] at hback
        obtain ⟨rest, hrest, rfl⟩ := ih hback.symm
        refine ⟨_, by simp only [bind, Except.bind, hrest]; rfl, ?_⟩
        rw [hfound]
        cases found <;> rfl

theorem recordLog_of_nodes (h : recordNodes r strings left offset = nodes.map .ok) :
    ∃ log, recordLog r.definitions strings r.bytes left offset = .ok log ∧ handed log = nodes := by
  induction left generalizing offset nodes with
  | zero =>
    obtain rfl := map_eq_nil_iff.mp h.symm
    exact ⟨[], rfl, rfl⟩
  | succ left ih =>
    rw [recordNodes] at h
    simp only [recordLog]
    cases hhead : recordHead r.definitions strings (r.bytes.drop offset) with
    | error e => cases nodes <;> simp [hhead] at h
    | ok head =>
      simp only [hhead] at h
      obtain ⟨front, back, rfl, hfront, hback⟩ := append_eq_map_iff.mp h
      obtain ⟨inner, hinner, rfl⟩ := auxLog_of_nodes offset hfront.symm
      cases hnext : u32At (r.bytes.drop offset) (pick r.definitions 16 12) with
      | error e => cases back <;> simp [hnext] at hback
      | ok next =>
        simp only [hnext] at hback
        obtain ⟨rest, hrest, rfl⟩ := ih hback.symm
        exact ⟨_, by simp only [bind, Except.bind, hinner, hrest]; rfl, rfl⟩

theorem recordHead_eq_ok {head : ℕ × Option (List UInt8) × ℕ} (h : recordHead definitions strings record = .ok head) :
    u16At record (pick definitions 6 2) = .ok head.1 ∧ u32At record (pick definitions 12 8) = .ok head.2.2 := by
  cases definitions <;> simp only [recordHead, bind_eq_ok, ↓reduceIte, Bool.false_eq_true] at h
  all_goals
    obtain ⟨_, hnumber, _, -, _, -, _, haux, h⟩ := h
    cases h
    exact ⟨hnumber, haux⟩

/-! ## What capturing establishes -/

/-- Steps that go forward from `start`; their entries and the targets of their links keep below `stop`. -/
structure Forward (start stop : ℕ) (steps : List Step) : Prop where
  increasing : steps.Pairwise fun a b => a.offset < b.offset
  inside : ∀ s ∈ steps, start ≤ s.offset ∧ 0 < s.size ∧ s.offset + s.size ≤ stop ∧ s.target ≤ stop

variable {start middle stop : ℕ} {step : Step} {front back : List Step}

theorem forward_nil : Forward start stop [] := ⟨.nil, nofun⟩

theorem Forward.cons (h : Forward middle stop back) (hmiddle : step.offset < middle) (hsize : 0 < step.size)
    (hstop : step.offset + step.size ≤ stop) (htarget : step.target ≤ stop) :
    Forward step.offset stop (step :: back) := by
  constructor
  · exact pairwise_cons.mpr ⟨fun s hs => hmiddle.trans_le (h.inside s hs).1, h.increasing⟩
  · intro s hs
    obtain rfl | hs := mem_cons.mp hs
    · exact ⟨le_rfl, hsize, hstop, htarget⟩
    · exact ⟨hmiddle.le.trans (h.inside s hs).1, (h.inside s hs).2⟩

theorem Forward.append {later : ℕ} (h : Forward start middle front) (h' : Forward later stop back)
    (hlater : middle ≤ later) (hstart : start ≤ middle) (hstop : middle ≤ stop) : Forward start stop (front ++ back) := by
  constructor
  · refine pairwise_append.mpr ⟨h.increasing, h'.increasing, fun s hs t ht => ?_⟩
    have hfront := h.inside s hs
    have hback := h'.inside t ht
    omega
  · intro s hs
    obtain hs | hs := mem_append.mp hs
    · have hfront := h.inside s hs
      omega
    · exact ⟨(hstart.trans hlater).trans (h'.inside s hs).1, (h'.inside s hs).2⟩

section
variable {read : Read} (hread : Consistent read) {address total : ℕ} {bytes : List UInt8}
  (hbytes : read address total = .ok bytes)
include hread hbytes

theorem auxLog_forward {next : ℕ} {inner : List UInt8} {log : List (Step × Option Node)}
    (hinner : read (address + offset + aux) (pick definitions 8 16) = .ok inner)
    (hnext : u32At inner (pick definitions 4 12) = .ok next) (hsize : offset + aux + pick definitions 8 16 ≤ stop)
    (htarget : offset + (aux + next) ≤ stop) (hstop : stop ≤ total) (hmiddle : offset + aux < middle)
    (hrest : ∀ rest, auxLog definitions strings (bytes.drop offset) file offset left (index + 1) (aux + next) = .ok rest →
      Forward middle stop (rest.map Prod.fst))
    (hlog : auxLog definitions strings (bytes.drop offset) file offset (left + 1) index aux = .ok log) :
    Forward (offset + aux) stop (log.map Prod.fst) := by
  have hpick : 0 < pick definitions 8 16 ∧ pick definitions 4 12 + 4 ≤ pick definitions 8 16 := by
    cases definitions <;> decide
  simp only [auxLog, bind_eq_ok] at hlog
  obtain ⟨found, -, _, hlink, rest, hlater, hlog⟩ := hlog
  obtain rfl := Except.ok.inj hlog
  -- The link a visit follows is the one capturing followed.
  rw [Nat.add_assoc] at hinner
  rw [u32At, hread.word hbytes hinner (by omega) hpick.2] at hnext
  rw [u32At, drop_drop, hnext] at hlink
  obtain rfl := Except.ok.inj hlink
  exact @Forward.cons _ _ ⟨_, _, _⟩ _ (hrest rest hlater) hmiddle hpick.1 hsize htarget

theorem captureAux_forward (h : captureAux definitions read address offset (left + 1) aux length = .ok stop) :
    offset + aux + pick definitions 8 16 ≤ stop ∧ stop < wordLimit ∧ (stop ≤ total → ∀ strings file index log,
      auxLog definitions strings (bytes.drop offset) file offset (left + 1) index aux = .ok log →
        Forward (offset + aux) stop (log.map Prod.fst)) := by
  induction left generalizing aux length with
  | zero =>
    simp only [captureAux, bind_eq_ok, add_eq_ok, ↓reduceIte, reject_eq_ok, not_not] at h
    obtain ⟨_, ⟨-, rfl⟩, _, ⟨-, rfl⟩, inner, hinner, _, ⟨-, rfl⟩, _, ⟨hlimit, rfl⟩, _, hnext, _, rfl, h⟩ := h
    obtain rfl := Except.ok.inj h
    refine ⟨le_rfl, hlimit, fun hstop strings file index log hlog => ?_⟩
    refine auxLog_forward hread hbytes hinner hnext le_rfl (by omega) hstop (Nat.lt_succ_self _) (fun rest hrest => ?_) hlog
    obtain rfl := Except.ok.inj hrest
    exact forward_nil
  | succ left ih =>
    rw [captureAux] at h
    simp only [bind_eq_ok, add_eq_ok, Nat.add_one_ne_zero, ↓reduceIte, reject_eq_ok, not_or, not_lt] at h
    obtain ⟨_, ⟨-, rfl⟩, _, ⟨-, rfl⟩, inner, hinner, _, ⟨-, rfl⟩, _, ⟨-, rfl⟩, next, hnext, _, hgap, _, ⟨-, rfl⟩, h⟩ := h
    obtain ⟨hle, hlimit, hforward⟩ := ih h
    have hpos : 0 < pick definitions 8 16 := by cases definitions <;> decide
    exact ⟨by omega, hlimit, fun hstop strings file index log hlog => auxLog_forward hread hbytes hinner hnext (by omega)
      (by omega) hstop (by omega) (hforward hstop strings file (index + 1)) hlog⟩

theorem recordLog_forward {number next later : ℕ}
    (hrecord : read (address + offset) (pick definitions 20 16) = .ok record)
    (hnumber : u16At record (pick definitions 6 2) = .ok (number + 1)) (haux : u32At record (pick definitions 12 8) = .ok aux)
    (hheader : pick definitions 20 16 ≤ aux) (hnext : u32At record (pick definitions 16 12) = .ok next)
    (hinner : captureAux definitions read address offset (number + 1) aux length = .ok middle)
    (htarget : offset + next ≤ stop) (hmiddle : middle ≤ stop) (hstop : stop ≤ total) (hlater : middle ≤ later)
    (hrest : ∀ rest, recordLog definitions strings bytes left (offset + next) = .ok rest → Forward later stop (steps rest))
    (hlog : recordLog definitions strings bytes (left + 1) offset = .ok log) : Forward offset stop (steps log) := by
  have hpick : 0 < pick definitions 20 16 ∧ pick definitions 6 2 + 2 ≤ pick definitions 20 16 ∧
      pick definitions 12 8 + 4 ≤ pick definitions 20 16 ∧ pick definitions 16 12 + 4 ≤ pick definitions 20 16 := by
    cases definitions <;> decide
  obtain ⟨hle, -, hforward⟩ := captureAux_forward hread hbytes hinner
  have hword {n k : ℕ} := @Consistent.word read hread address total bytes hbytes _ _ _ hrecord (by omega) n k
  simp only [recordLog, bind_eq_ok] at hlog
  obtain ⟨head, hhead, inner, hlog, _, hlink, rest, hlast, heq⟩ := hlog
  cases heq
  obtain ⟨hcount, hfirst⟩ := recordHead_eq_ok hhead
  rw [u16At, hword hpick.2.1] at hnumber
  rw [u32At, hword hpick.2.2.1] at haux
  rw [u32At, hword hpick.2.2.2] at hnext
  rw [Except.ok.inj (hcount.symm.trans hnumber), Except.ok.inj (hfirst.symm.trans haux)] at hlog
  obtain rfl := Except.ok.inj (hlink.symm.trans hnext)
  exact @Forward.cons _ _ ⟨_, _, _⟩ _ ((hforward (by omega) _ _ _ _ hlog).append (hrest rest hlast) hlater (by omega) hmiddle)
    (show offset < offset + aux by omega) hpick.1 (show offset + pick definitions 20 16 ≤ stop by omega) htarget

theorem captureRecords_forward (h : captureRecords definitions read address (left + 1) offset length = .ok stop) :
    offset < stop ∧ stop < wordLimit ∧ (stop ≤ total → ∀ strings log,
      recordLog definitions strings bytes (left + 1) offset = .ok log → Forward offset stop (steps log)) := by
  have hpos : 0 < pick definitions 8 16 := by cases definitions <;> decide
  induction left generalizing offset length with
  | zero =>
    simp only [captureRecords, bind_eq_ok, add_eq_ok, ↓reduceIte, reject_eq_ok, not_not, not_or, not_lt] at h
    obtain ⟨_, ⟨-, rfl⟩, record, hrecord, _, -, _, -, number, hnumber, _, hzero, aux, haux, _, hheader, middle, hinner,
      _, hnext, _, rfl, h⟩ := h
    obtain rfl := Except.ok.inj h
    obtain ⟨_, rfl⟩ := Nat.exists_eq_succ_of_ne_zero hzero
    obtain ⟨hle, hlimit, -⟩ := captureAux_forward hread hbytes hinner
    refine ⟨by omega, hlimit, fun hstop strings log hlog => ?_⟩
    refine recordLog_forward hread hbytes hrecord hnumber haux hheader.1 hnext hinner (by omega) le_rfl hstop le_rfl
      (fun rest hrest => ?_) hlog
    obtain rfl := Except.ok.inj hrest
    exact forward_nil
  | succ left ih =>
    rw [captureRecords] at h
    simp only [bind_eq_ok, add_eq_ok, Nat.add_one_ne_zero, ↓reduceIte, reject_eq_ok, not_or, not_not, not_lt] at h
    obtain ⟨_, ⟨-, rfl⟩, record, hrecord, _, -, _, -, number, hnumber, _, hzero, aux, haux, _, hheader, middle, hinner,
      next, hnext, _, -, _, ⟨-, rfl⟩, _, hafter, h⟩ := h
    obtain ⟨_, rfl⟩ := Nat.exists_eq_succ_of_ne_zero hzero
    obtain ⟨hle, -, -⟩ := captureAux_forward hread hbytes hinner
    obtain ⟨hlt, hlimit, hforward⟩ := ih h
    exact ⟨by omega, hlimit, fun hstop strings log hlog => recordLog_forward hread hbytes hrecord hnumber haux hheader.1
      hnext hinner (by omega) (by omega) hstop hafter (hforward hstop strings) hlog⟩

end

variable {read : Read} (hread : Consistent read) {address count : Option ℕ}

include hread in
theorem capture_forward (h : capture address count definitions read = .ok r)
    (hlog : recordLog r.definitions strings r.bytes r.count 0 = .ok log) :
    Forward 0 r.bytes.length (steps log) ∧ r.bytes.length < wordLimit := by
  unfold capture at h
  split at h
  next =>
    cases h
    cases hlog
    exact ⟨forward_nil, by decide⟩
  next address count =>
    simp only [bind_eq_ok, reject_eq_ok, not_or] at h
    obtain ⟨_, ⟨hzero, -⟩, stop, hstop, bytes, hbytes, h⟩ := h
    cases h
    obtain ⟨_, rfl⟩ := Nat.exists_eq_succ_of_ne_zero hzero
    obtain ⟨-, hlimit, hforward⟩ := captureRecords_forward hread hbytes hstop
    rw [hread.length hbytes]
    exact ⟨hforward le_rfl strings log hlog, hlimit⟩
  next => cases h

theorem auxLog_length {log : List (Step × Option Node)}
    (h : auxLog definitions strings record file offset left index aux = .ok log) : log.length = left := by
  induction left generalizing index aux log with
  | zero =>
    cases h
    rfl
  | succ left ih =>
    simp only [auxLog, bind_eq_ok] at h
    obtain ⟨_, -, _, -, rest, hrest, h⟩ := h
    cases h
    rw [length_cons, ih hrest]

theorem recordLog_length {bytes : List UInt8} (h : recordLog definitions strings bytes left offset = .ok log) :
    log.length = left ∧ ∀ entry ∈ log, u16At (bytes.drop entry.1.offset) (pick definitions 6 2) = .ok entry.2.length := by
  induction left generalizing offset log with
  | zero =>
    cases h
    exact ⟨rfl, nofun⟩
  | succ left ih =>
    simp only [recordLog, bind_eq_ok] at h
    obtain ⟨head, hhead, inner, hinner, _, -, rest, hrest, h⟩ := h
    cases h
    obtain ⟨hlength, hentries⟩ := ih hrest
    refine ⟨by rw [length_cons, hlength], forall_mem_cons.mpr ⟨?_, hentries⟩⟩
    rw [auxLog_length hinner]
    exact (recordHead_eq_ok hhead).1

/-- A visit that goes through: its log, the nodes it hands over, and that it moves forward inside the table. -/
structure Walked (r : Records) (strings : List UInt8) (log : Log) : Prop where
  log_eq : recordLog r.definitions strings r.bytes r.count 0 = .ok log
  nodes_eq : r.nodes strings = (handed log).map .ok
  records : log.length = r.count
  auxiliaries : ∀ entry ∈ log, u16At (r.bytes.drop entry.1.offset) (pick r.definitions 6 2) = .ok entry.2.length
  forward : Forward 0 r.bytes.length (steps log)
  limit : r.bytes.length < wordLimit

variable {σ : Type} {visit : σ → Node → Except Error σ} {s s' : σ}

include hread in
theorem walked_of_visit (h : capture address count definitions read = .ok r)
    (hvisit : r.visit strings visit s = .ok s') :
    ∃ log, r.Walked strings log ∧ (handed log).foldlM visit s = .ok s' := by
  obtain ⟨nodes, hnodes, hfold⟩ := consume_eq_ok.mp hvisit
  obtain ⟨log, hlog, rfl⟩ := recordLog_of_nodes hnodes
  obtain ⟨hrecords, hauxiliaries⟩ := recordLog_length hlog
  obtain ⟨hforward, hlimit⟩ := capture_forward hread h hlog
  exact ⟨log, ⟨hlog, hnodes, hrecords, hauxiliaries, hforward, hlimit⟩, hfold⟩

theorem Walked.visit_eq (h : r.Walked strings log) : r.visit strings visit s = (handed log).foldlM visit s := by
  rw [Records.visit, h.nodes_eq, consume_map_ok]

theorem Walked.visit_ok (h : r.Walked strings log) (hvisit : ∀ s node, ∃ s', visit s node = .ok s') (s : σ) :
    ∃ s', r.visit strings visit s = .ok s' := by
  rw [h.visit_eq]
  cases hfold : (handed log).foldlM visit s with
  | ok s' => exact ⟨s', rfl⟩
  | error e =>
    refine (foldlM_error (P := fun _ => False) (fun s node e he => ?_) hfold).elim
    obtain ⟨s', hs'⟩ := hvisit s node
    cases he.symm.trans hs'

end Records

namespace Versions

open Records

variable (v : Versions)

def requirements {σ : Type} (visit : σ → Node → Except Error σ) (s : σ) : Except Error σ :=
  v.needs.visit v.strings visit s

def nodes : List Node := values (v.definitions.nodes v.strings) ++ values (v.needs.nodes v.strings)

/-- The version a symbol with the version word `raw` has: its index stands for one node of the tables only. -/
def Resolved (raw : ℕ) (version : Version) : Prop :=
  if raw % 0x8000 = 0 then version = .local
  else if raw % 0x8000 = 1 then version = .global
  else ∃ node ∈ v.nodes, node.index = raw % 0x8000 ∧ (∀ other ∈ v.nodes, other.index = raw % 0x8000 → other = node) ∧
    version = .named node.name node.hash (raw % 0x8000) (raw.testBit 15) node.strict node.file.isSome

theorem insert_seen {nodes : List Node} {s s' : Indices} (h : nodes.foldlM Indices.insert s = .ok s')
    (hs : s.seen.Nodup) : s'.seen.Nodup ∧ s'.seen = (nodes.map Node.index).reverse ++ s.seen := by
  induction nodes generalizing s with
  | nil =>
    cases h
    exact ⟨hs, rfl⟩
  | cons node nodes ih =>
    simp only [foldlM_cons, Indices.insert, bind_eq_ok, reject_eq_ok] at h
    obtain ⟨_, ⟨_, hnew, hinsert⟩, h⟩ := h
    cases hinsert
    obtain ⟨hnodup, hseen⟩ := ih h (nodup_cons.mpr ⟨hnew, hs⟩)
    exact ⟨hnodup, by rw [hseen, map_cons, reverse_cons, append_assoc, singleton_append]⟩

theorem foldl_named {raw : ℕ} {nodes : List Node} {node : Node} (hindex : node.index = raw % 0x8000)
    (hunique : ∀ other ∈ nodes, other.index = raw % 0x8000 → other = node) {found : Option Version}
    (h : node ∈ nodes ∨ found = named raw none node) : nodes.foldl (named raw) found = named raw none node := by
  induction nodes generalizing found with
  | nil => exact h.resolve_left not_mem_nil
  | cons other nodes ih =>
    refine ih (fun other hother => hunique other (mem_cons_of_mem _ hother)) ?_
    by_cases hother : other.index = raw % 0x8000
    · obtain rfl := hunique other mem_cons_self hother
      right
      simp only [named, if_pos hindex]
    · rw [named, if_neg hother]
      refine h.imp_left fun hmem => (mem_cons.mp hmem).resolve_left ?_
      rintro rfl
      exact hother hindex

theorem at_resolved {d n : Log} (hd : v.definitions.Walked v.strings d)
    (hn : v.needs.Walked v.strings n) (hnodup : (v.nodes.map Node.index).Nodup) {raw index : ℕ} (hsymbols : v.symbols ≠ [])
    (hraw : u16At v.symbols (index * 2) = .ok raw) (hmem : 1 < raw % 0x8000 → raw % 0x8000 ∈ v.nodes.map Node.index) :
    ∃ version, v.at index = .ok version ∧ v.Resolved raw version := by
  unfold «at» Resolved
  rw [if_neg hsymbols, hraw]
  split_ifs with hlocal hglobal
  · exact ⟨_, if_pos hlocal, rfl⟩
  · exact ⟨_, (if_neg hlocal).trans (if_pos hglobal), rfl⟩
  · obtain ⟨node, hnode, hindex⟩ := mem_map.mp (hmem (by omega))
    have hunique : ∀ other ∈ v.nodes, other.index = raw % 0x8000 → other = node := fun other hother h =>
      inj_on_of_nodup_map hnodup hother hnode (h.trans hindex.symm)
    refine ⟨_, ?_, node, hnode, hindex, hunique, rfl⟩
    have hfound := @foldl_named raw _ _ hindex hunique none (.inl hnode)
    rw [nodes, hd.nodes_eq, hn.nodes_eq, values_map_ok, values_map_ok, foldl_append] at hfound
    have hpure (nodes : List Node) (found : Option Version) :
        nodes.foldlM (fun found node => (Except.ok (named raw found node) : Except Error _)) found =
          .ok (nodes.foldl (named raw) found) := foldlM_pure
    have hversion : named raw none node =
        some (.named node.name node.hash (raw % 0x8000) (raw.testBit 15) node.strict node.file.isSome) := if_pos hindex
    rw [hversion] at hfound
    simp only [bind, Except.bind, if_neg hlocal, if_neg hglobal, hd.visit_eq, hn.visit_eq, hpure, hfound]
    rfl

theorem parse_eq_ok {tags : VersionTags} {entries strings : List UInt8} {read : Read} {v : Versions}
    (h : parse tags entries strings read = .ok v) :
    capture tags.definitions tags.definitionCount true read = .ok v.definitions ∧
      capture tags.needs tags.needCount false read = .ok v.needs ∧
      (v.symbols = [] ∨ ∃ address, read address (entries.length / 24 * 2) = .ok v.symbols) ∧
      ∃ s s', v.definitions.visit v.strings Indices.insert ⟨[], []⟩ = .ok s ∧
        v.needs.visit v.strings Indices.insert s = .ok s' ∧
        ∀ index < v.symbols.length / 2, checkSymbol v.symbols entries s' index = .ok () := by
  simp only [parse, bind_eq_ok] at h
  obtain ⟨definitions, hdefinitions, needs, hneeds, h⟩ := h
  split at h
  next address _ =>
    simp only [bind_eq_ok, forM_eq_ok, mem_range] at h
    obtain ⟨symbols, hsymbols, s, hs, s', hs', _, hcheck, h⟩ := h
    cases h
    exact ⟨hdefinitions, hneeds, .inr ⟨address, hsymbols⟩, s, s', hs, hs', hcheck⟩
  next =>
    split_ifs at h
    · simp only [bind_eq_ok, forM_eq_ok, mem_range] at h
      obtain ⟨symbols, hsymbols, s, hs, s', hs', _, hcheck, h⟩ := h
      cases h
      exact ⟨hdefinitions, hneeds, .inl (Except.ok.inj hsymbols).symm, s, s', hs, hs', hcheck⟩
    · cases h

/-- Accepted version tables are visited forward and inside their bytes, give no version index twice, and answer for
every symbol, requirement and provided version. -/
theorem accepted_tables_walkable {tags : VersionTags} {entries strings : List UInt8} {read : Read} {v : Versions}
    (hread : Consistent read) (h : parse tags entries strings read = .ok v) :
    (∀ r ∈ [v.definitions, v.needs], ∃ log, r.Walked v.strings log) ∧ (v.nodes.map Node.index).Nodup ∧
      (∀ index < entries.length / 24, v.symbols = [] ∧ v.at index = .ok .unversioned ∨
        ∃ raw version, u16At v.symbols (index * 2) = .ok raw ∧ v.at index = .ok version ∧ v.Resolved raw version) ∧
      (∀ (σ : Type) (visit : σ → Node → Except Error σ), (∀ s node, ∃ s', visit s node = .ok s') →
        ∀ s, ∃ s', v.requirements visit s = .ok s') ∧
      ∀ name hash, ∃ found, v.provides name hash = .ok found := by
  obtain ⟨hdefinitions, hneeds, hsymbols, s, s', hs, hs', hcheck⟩ := parse_eq_ok h
  obtain ⟨d, hd, hfold⟩ := walked_of_visit hread hdefinitions hs
  obtain ⟨n, hn, hfold'⟩ := walked_of_visit hread hneeds hs'
  have hnodes : v.nodes = handed d ++ handed n := by rw [nodes, hd.nodes_eq, hn.nodes_eq, values_map_ok, values_map_ok]
  obtain ⟨hnodup, hseen⟩ := @insert_seen v.nodes _ s'
    (by rw [hnodes, foldlM_append]; exact bind_ok hfold hfold') nodup_nil
  rw [append_nil] at hseen
  rw [hseen, nodup_reverse] at hnodup
  refine ⟨?_, hnodup, fun index hindex => ?_, fun σ visit hvisit => hn.visit_ok hvisit,
    fun name hash => hd.visit_ok (fun _ _ => ⟨_, rfl⟩) _⟩
  · simp only [mem_cons, not_mem_nil, or_false, forall_eq_or_imp, forall_eq]
    exact ⟨⟨d, hd⟩, n, hn⟩
  · by_cases hempty : v.symbols = []
    · exact .inl ⟨hempty, if_pos hempty⟩
    · obtain ⟨address, haddress⟩ := hsymbols.resolve_left hempty
      have hlength := hread.length haddress
      have hok := hcheck index (by omega)
      simp only [checkSymbol, bind_eq_ok, reject_eq_ok] at hok
      obtain ⟨raw, hraw, -, -, hok⟩ := hok
      obtain ⟨version, hat, hresolved⟩ := at_resolved v hd hn hnodup hempty hraw fun hnamed => by
        rw [if_pos hnamed] at hok
        simp only [bind_eq_ok, reject_eq_ok, not_not, hseen, mem_reverse] at hok
        obtain ⟨_, hmem, -⟩ := hok
        exact hmem
      exact .inr ⟨raw, version, hraw, hat, hresolved⟩

/-! A file `f` needed with the versions `v` and `w`, a file `g` needed with `x`, and a symbol of that last version. -/
namespace Fixture

def image : List UInt8 :=
  [1, 0, 2, 0, 1, 0, 0, 0, 16, 0, 0, 0, 48, 0, 0, 0] ++ [118, 0, 0, 0, 0, 0, 2, 0, 3, 0, 0, 0, 16, 0, 0, 0] ++
    [119, 0, 0, 0, 0, 0, 3, 0, 5, 0, 0, 0, 0, 0, 0, 0] ++ [1, 0, 1, 0, 7, 0, 0, 0, 16, 0, 0, 0, 0, 0, 0, 0] ++
    [120, 0, 0, 0, 0, 0, 4, 0, 9, 0, 0, 0, 0, 0, 0, 0] ++ [0, 0, 4, 0]

def read : Read := fun address length =>
  if address + length ≤ image.length then .ok ((image.drop address).take length) else .error .invalid

theorem read_consistent : Consistent read := by
  refine ⟨fun i => image.getD i 0, fun address length bytes h => ?_⟩
  unfold read at h
  split_ifs at h with hinside
  obtain rfl := Except.ok.inj h
  refine List.ext_getElem (by simp only [length_take, length_drop, length_map, length_range]; omega) fun i hi _ => ?_
  rw [length_take, length_drop] at hi
  rw [getElem_take, getElem_drop, getElem_map, getElem_range]
  exact (getD_eq_getElem _ _ (by omega)).symm

def parsed : Except Error Versions :=
  parse ⟨some 80, none, none, some 0, some 2⟩ (replicate 48 0) [0, 102, 0, 118, 0, 119, 0, 103, 0, 120, 0] read

theorem accepted_tables_walkable_needs :
    ∃ v, parsed = .ok v ∧ v.at 1 = .ok (.named [120] 120 4 false false true) ∧ ∃ log, v.needs.Walked v.strings log := by
  have h : ∃ v, parsed = .ok v ∧ v.at 1 = .ok (.named [120] 120 4 false false true) := ⟨_, rfl, rfl⟩
  obtain ⟨v, hparsed, hat⟩ := h
  exact ⟨v, hparsed, hat, (accepted_tables_walkable read_consistent hparsed).1 _ (mem_cons_of_mem _ mem_cons_self)⟩

end Fixture

end Versions

end MochiSyscalls.PosixClient.Pie
