import MochiSyscalls.Foundations.Rows
import MochiSyscalls.UserDatabase.Users

/-! # The group database

`GroupDatabase` (`crates/user-database/src/groups.rs`). Every group enters through `add`, which keeps the
groups in the order of their ids; the parser adds them again in that order, so nothing moves. Names are
kept as their bytes: what the validator lets in is ASCII. -/

namespace MochiSyscalls.UserDatabase
open Foundations Checked Lines Loops Numerals Utf8 List
set_option autoImplicit false

def maxMembers : ℕ := 64
def maxGroupBytes : ℕ := 1024 * 1024
def maxGroups : ℕ := 4096
def groupHeader : List UInt8 := ascii "MGRPDB\t1"

inductive GroupError where
  | invalid | tooLarge | duplicate
  deriving DecidableEq, Repr

structure Group where
  gid : UInt32
  name : List UInt8
  members : List (List UInt8)
  deriving DecidableEq

namespace Group

def validateMembers (previous : List (List UInt8)) : List (List UInt8) → Except GroupError Unit
  | [] => .ok ()
  | member :: members => do
    (validateName member).mapError fun _ => .invalid
    reject (member ∈ previous) .duplicate
    validateMembers (previous ++ [member]) members

def validate (group : Group) : Except GroupError Unit := do
  (validateName group.name).mapError fun _ => .invalid
  reject (maxMembers < group.members.length) .tooLarge
  validateMembers [] group.members

def line (group : Group) : List UInt8 :=
  decimal group.gid.toNat ++ byte '\t' :: group.name ++ byte '\t' :: [byte ','].intercalate group.members

end Group

structure Groups where
  groups : List Group
  deriving DecidableEq

namespace Groups

variable (db : Groups)

def findGid (gid : UInt32) : Option Group := db.groups.find? (·.gid == gid)

def findName (name : List UInt8) : Option Group := db.groups.find? (·.name == name)

def add (group : Group) : Except GroupError Groups := do
  group.validate
  reject (maxGroups ≤ db.groups.length) .tooLarge
  reject ((db.findGid group.gid).isSome ∨ (db.findName group.name).isSome) .duplicate
  return { groups := (db.groups ++ [group]).insertionSort (·.gid ≤ ·.gid) }

def ensurePrivate (user : UserRecord) : Except GroupError (Bool × Groups) :=
  if user.uid ≠ user.gid ∨ (db.findGid user.gid).isSome then .ok (false, db)
  else do
    let db ← db.add { gid := user.gid, name := user.name.1, members := [] }
    return (true, db)

def provision (users : Users) : Except GroupError Groups :=
  (users.users.filter fun user => user.uid == user.gid).foldlM
    (fun db user => do return (← ensurePrivate db user).2) { groups := [] }

def parseMember (names : List (List UInt8)) (member : List UInt8) : Except GroupError (List (List UInt8)) := do
  reject (names.length = maxMembers) .tooLarge
  (validateName member).mapError fun _ => .invalid
  return names ++ [member]

def parseMembers (members : List UInt8) : Except GroupError (List (List UInt8)) :=
  if members.isEmpty then .ok [] else (members.splitOn (byte ',')).foldlM parseMember []

def parseGroup (line : List UInt8) : Except GroupError Group :=
  match line.splitOn (byte '\t') with
  | [] => .error .invalid
  | id :: fields => do
    reject (id.isEmpty ∨ ¬ id.all (within '0' '9')) .invalid
    let gid ← okOr (fromStrRadix 10 u32Max id) .invalid
    match fields with
    | [name, members] => do
      let members ← parseMembers members
      return { gid := UInt32.ofNat gid, name, members }
    | _ => .error .invalid

def parseLine (line : List UInt8) : Except GroupError Groups :=
  if line.isEmpty then .ok db
  else do
    let group ← parseGroup line
    db.add group

def parse (bytes : List UInt8) : Except GroupError Groups := do
  reject (maxGroupBytes < bytes.length) .tooLarge
  reject (¬ valid bytes) .invalid
  reject ((lines bytes).head? ≠ some groupHeader) .invalid
  (lines bytes).tail.foldlM parseLine { groups := [] }

/-- The loop over the groups: the text so far, and the check of its length. -/
def encodeGroup (output : List UInt8) (group : Group) : Except GroupError (List UInt8) := do
  group.validate
  let output := output ++ group.line ++ [byte '\n']
  reject (maxGroupBytes < output.length) .tooLarge
  return output

def encode : Except GroupError (List UInt8) := do
  reject (maxGroups < db.groups.length) .tooLarge
  db.groups.foldlM encodeGroup (groupHeader ++ [byte '\n'])

/-- What callers can make of a database. A call that fails leaves it as it was. -/
inductive Reachable : Groups → Prop
  | provision {users : Users} {db : Groups} (h : provision users = .ok db) : Reachable db
  | parse {bytes : List UInt8} {db : Groups} (h : parse bytes = .ok db) : Reachable db
  | add {db db' : Groups} {group : Group} (hdb : Reachable db) (h : db.add group = .ok db') : Reachable db'
  | ensurePrivate {db db' : Groups} {user : UserRecord} {made : Bool} (hdb : Reachable db)
      (h : db.ensurePrivate user = .ok (made, db')) : Reachable db'

/-! ## The order of the groups -/

def Ordered : Prop :=
  db.groups.Pairwise (fun a b => a.gid < b.gid) ∧ db.groups.Pairwise fun a b => a.name ≠ b.name

theorem find_eq_none {α β : Type} [BEq β] [LawfulBEq β] {key : α → β} {items : List α} {b : β}
    (h : ¬ (items.find? (key · == b)).isSome = true) : ∀ a ∈ items, key a ≠ b := by
  intro a ha hab
  rw [Bool.not_eq_true, Option.isSome_eq_false_iff, Option.isNone_iff_eq_none, find?_eq_none] at h
  exact h a ha (beq_iff_eq.mpr hab)

variable {group : Group}

theorem add_eq_ok {db db' : Groups} : db.add group = .ok db' ↔ group.validate = .ok () ∧ db.groups.length < maxGroups ∧
      ((∀ a ∈ db.groups, a.gid ≠ group.gid) ∧ ∀ a ∈ db.groups, a.name ≠ group.name) ∧
      db' = { groups := (db.groups ++ [group]).insertionSort (·.gid ≤ ·.gid) } := by
  constructor
  · intro h
    simp only [Groups.add, bind_eq_ok, reject_eq_ok, not_le, not_or] at h
    obtain ⟨_, hvalid, _, hcount, _, hfound, h⟩ := h
    exact ⟨hvalid, hcount, ⟨find_eq_none hfound.1, find_eq_none hfound.2⟩, (Except.ok.inj h).symm⟩
  · rintro ⟨hvalid, hcount, ⟨hgid, hname⟩, rfl⟩
    have hnone : ¬ ((db.findGid group.gid).isSome ∨ (db.findName group.name).isSome) := by
      rw [not_or, findGid, findName, find?_isSome, find?_isSome]
      constructor
      · rintro ⟨a, ha, heq⟩
        exact hgid a ha (beq_iff_eq.mp heq)
      · rintro ⟨a, ha, heq⟩
        exact hname a ha (beq_iff_eq.mp heq)
    simp only [Groups.add, bind_eq_ok, reject_eq_ok]
    exact ⟨(), hvalid, (), not_le.mpr hcount, (), hnone, rfl⟩

theorem Ordered.add {db db' : Groups} (hdb : db.Ordered) (h : db.add group = .ok db') : db'.Ordered := by
  obtain ⟨-, -, ⟨hgid, hname⟩, rfl⟩ := add_eq_ok.mp h
  have hperm := perm_insertionSort (fun a b : Group => a.gid ≤ b.gid) (db.groups ++ [group])
  have hids : (db.groups ++ [group]).Pairwise fun a b => a.gid ≠ b.gid :=
    Rows.pairwise_snoc (hdb.1.imp fun hlt => UInt32.ne_of_lt hlt) hgid
  have hnames : (db.groups ++ [group]).Pairwise fun a b => a.name ≠ b.name := Rows.pairwise_snoc hdb.2 hname
  have : Std.Total fun a b : Group => a.gid ≤ b.gid := ⟨fun a b => UInt32.le_total _ _⟩
  have : IsTrans Group fun a b => a.gid ≤ b.gid := ⟨fun a b c => UInt32.le_trans⟩
  have hsorted := pairwise_insertionSort (fun a b : Group => a.gid ≤ b.gid) (db.groups ++ [group])
  refine ⟨(hsorted.and (hperm.symm.pairwise hids Ne.symm)).imp fun {a b} hab => ?_, hperm.symm.pairwise hnames Ne.symm⟩
  exact UInt32.lt_of_le_of_ne hab.1 hab.2

theorem Ordered.ensurePrivate {db db' : Groups} {user : UserRecord} {made : Bool} (hdb : db.Ordered)
    (h : db.ensurePrivate user = .ok (made, db')) : db'.Ordered := by
  unfold Groups.ensurePrivate at h
  split at h
  · rwa [← (Prod.mk.inj (Except.ok.inj h)).2]
  · obtain ⟨added, hadd, h⟩ := bind_eq_ok.mp h
    rw [← (Prod.mk.inj (Except.ok.inj h)).2]
    exact hdb.add hadd

theorem ordered_nil : Ordered { groups := [] } := ⟨List.Pairwise.nil, List.Pairwise.nil⟩

theorem ordered_of_parse {bytes : List UInt8} {db : Groups} (h : parse bytes = .ok db) : db.Ordered := by
  iterate 3 obtain ⟨_, _, h⟩ := bind_eq_ok.mp h
  refine foldlM_invariant (fun db line db' hdb h => ?_) ordered_nil h
  unfold parseLine at h
  split at h
  · rwa [← Except.ok.inj h]
  · obtain ⟨group, -, h⟩ := bind_eq_ok.mp h
    exact hdb.add h

theorem Reachable.ordered {db : Groups} (h : Reachable db) : db.Ordered := by
  induction h with
  | provision h =>
    refine foldlM_invariant (fun db user db' hdb h => ?_) ordered_nil h
    obtain ⟨⟨made, next⟩, hprivate, h⟩ := bind_eq_ok.mp h
    rw [← Except.ok.inj h]
    exact hdb.ensurePrivate hprivate
  | parse h => exact ordered_of_parse h
  | add _ h ih => exact ih.add h
  | ensurePrivate _ h ih => exact ih.ensurePrivate h

/-! ## A group is read back -/

theorem name_of_validateName {name : List UInt8} {u : Unit} (h : validateName name = .ok u) : name ≠ [] ∧ Plain name := by
  obtain ⟨_, hlen, h⟩ := bind_eq_ok.mp h
  obtain ⟨_, _, h⟩ := bind_eq_ok.mp h
  rw [reject_eq_ok, not_or] at hlen
  rw [reject_eq_ok, not_not] at h
  exact ⟨fun hnil => hlen.1 (by rw [hnil]; rfl), all_eq_true.mp h⟩

theorem validateMembers_eq_ok {previous members : List (List UInt8)} {u : Unit}
    (h : Group.validateMembers previous members = .ok u) : ∀ member ∈ members, validateName member = .ok () := by
  induction members generalizing previous with
  | nil => exact nofun
  | cons member members ih =>
    obtain ⟨_, hname, h⟩ := bind_eq_ok.mp h
    obtain ⟨_, _, h⟩ := bind_eq_ok.mp h
    exact forall_mem_cons.mpr ⟨mapError_eq_ok.mp hname, ih h⟩

theorem validate_eq_ok (h : group.validate = .ok ()) :
    Plain group.name ∧ group.members.length ≤ maxMembers ∧ ∀ member ∈ group.members, validateName member = .ok () := by
  obtain ⟨_, hname, h⟩ := bind_eq_ok.mp h
  obtain ⟨_, hcount, h⟩ := bind_eq_ok.mp h
  exact ⟨(name_of_validateName (mapError_eq_ok.mp hname)).2, not_lt.mp (reject_eq_ok.mp hcount), validateMembers_eq_ok h⟩

def groupFields (group : Group) : List (List UInt8) :=
  [decimal group.gid.toNat, group.name, [byte ','].intercalate group.members]

theorem line_eq (group : Group) : group.line = [byte '\t'].intercalate (groupFields group) := by
  simp [Group.line, groupFields, intercalate, intersperse]

theorem mem_groupFields (h : group.validate = .ok ()) {field : List UInt8}
    (hfield : field ∈ groupFields group) {b : UInt8} (hb : b ∈ field) :
    b ≠ byte '\t' ∧ b ≠ byte '\n' ∧ b ≠ byte '\r' ∧ b < 0x80 := by
  have hplain : ∀ {c : UInt8}, isNameByte c = true → c ≠ byte '\t' ∧ c ≠ byte '\n' ∧ c ≠ byte '\r' ∧ c < 0x80 := by
    intro c hc
    obtain ⟨htab, hfeed, hreturn, -, hascii⟩ := isNameByte_plain c hc
    exact ⟨htab, hfeed, hreturn, hascii⟩
  obtain ⟨hname, -, hmembers⟩ := validate_eq_ok h
  simp only [groupFields, mem_cons, not_mem_nil, or_false] at hfield
  rcases hfield with rfl | rfl | rfl
  · exact hplain (decimal_plain _ b hb)
  · exact hplain (hname b hb)
  · rcases mem_intercalate hb with rfl | ⟨member, hmember, hb⟩
    · decide
    · exact hplain ((name_of_validateName (hmembers member hmember)).2 b hb)

theorem line_inline (h : group.validate = .ok ()) : Inline group.line := by
  intro b hb
  rw [line_eq] at hb
  rcases mem_intercalate hb with rfl | ⟨field, hfield, hb⟩
  · decide
  · exact (mem_groupFields h hfield hb).2

theorem line_ne_nil (group : Group) : group.line ≠ [] := by
  simp [Group.line, decimal_ne_nil]

theorem parseMember_eq {front : List (List UInt8)} (hroom : front.length < maxMembers) {member : List UInt8}
    (h : validateName member = .ok ()) : parseMember front member = .ok (front ++ [member]) := by
  simp only [parseMember, bind_eq_ok, reject_eq_ok, mapError_eq_ok]
  exact ⟨(), hroom.ne, (), h, rfl⟩

theorem parseMembers_intercalate {members : List (List UInt8)} (hcount : members.length ≤ maxMembers)
    (h : ∀ member ∈ members, validateName member = .ok ()) :
    parseMembers ([byte ','].intercalate members) = .ok members := by
  cases members with
  | nil => rfl
  | cons member rest =>
    have hne : ([byte ','].intercalate (member :: rest)).isEmpty = false := by
      obtain ⟨b, hb⟩ := exists_mem_of_ne_nil _ (name_of_validateName (h member mem_cons_self)).1
      rw [isEmpty_eq_false_iff_exists_mem]
      exact ⟨b, by cases rest <;> simp [intercalate, intersperse, hb]⟩
    have hsplit : ([byte ','].intercalate (member :: rest)).splitOn (byte ',') = member :: rest := by
      refine splitOn_intercalate _ (fun m hm hcomma => ?_) (cons_ne_nil _ _)
      exact (isNameByte_plain _ ((name_of_validateName (h m hm)).2 _ hcomma)).2.2.2.1 rfl
    rw [parseMembers, if_neg (by rw [hne]; exact Bool.false_ne_true), hsplit]
    have hfold : ((member :: rest).map id).foldlM parseMember [] = .ok ([] ++ member :: rest) :=
      foldlM_snoc (fun _ hroom m hm => parseMember_eq hroom (h m hm)) (by simpa using hcount)
    simpa using hfold

theorem parseGroup_line (h : group.validate = .ok ()) : parseGroup group.line = .ok group := by
  obtain ⟨-, hcount, hmembers⟩ := validate_eq_ok h
  have hsplit : group.line.splitOn (byte '\t') = groupFields group := by
    rw [line_eq]
    refine splitOn_intercalate _ (fun field hfield htab => ?_) (cons_ne_nil _ _)
    exact (mem_groupFields h hfield htab).1 rfl
  have hid : ¬ ((decimal group.gid.toNat).isEmpty = true ∨ ¬ (decimal group.gid.toNat).all (within '0' '9') = true) := by
    rw [not_or, not_not, List.isEmpty_iff]
    exact ⟨decimal_ne_nil _, List.all_eq_true.mpr (decimal_digits _)⟩
  have hgid : fromStrRadix 10 u32Max (decimal group.gid.toNat) = some group.gid.toNat :=
    fromStrRadix_decimal (Nat.le_pred_of_lt group.gid.toNat_lt)
  rw [parseGroup, hsplit, groupFields]
  simp only [bind_eq_ok, reject_eq_ok, okOr_eq_ok]
  refine ⟨(), hid, _, hgid, _, parseMembers_intercalate hcount hmembers, ?_⟩
  rw [UInt32.ofNat_toNat]
  rfl

/-! ## The database is read back -/

theorem foldlM_encodeGroup {groups : List Group} {front output : List UInt8} (hfront : front.length ≤ maxGroupBytes)
    (h : groups.foldlM encodeGroup front = .ok output) :
    output = front ++ (groups.map Group.line).flatMap (· ++ [byte '\n']) ∧ output.length ≤ maxGroupBytes ∧
      ∀ group ∈ groups, group.validate = .ok () := by
  induction groups generalizing front with
  | nil =>
    obtain rfl := Except.ok.inj h
    exact ⟨by simp, hfront, nofun⟩
  | cons group groups ih =>
    rw [foldlM_cons] at h
    obtain ⟨next, hgroup, h⟩ := bind_eq_ok.mp h
    obtain ⟨_, hvalid, hgroup⟩ := bind_eq_ok.mp hgroup
    obtain ⟨_, hlen, hgroup⟩ := bind_eq_ok.mp hgroup
    obtain rfl := Except.ok.inj hgroup
    obtain ⟨htext, hmax, hall⟩ := ih (not_lt.mp (reject_eq_ok.mp hlen)) h
    refine ⟨?_, hmax, forall_mem_cons.mpr ⟨hvalid, hall⟩⟩
    rw [htext, map_cons, flatMap_cons]
    simp only [append_assoc]

theorem foldlM_parseLine {front groups : List Group} (hordered : Ordered { groups := front ++ groups })
    (hcount : front.length + groups.length ≤ maxGroups) (hall : ∀ group ∈ groups, group.validate = .ok ()) :
    (groups.map Group.line).foldlM parseLine { groups := front } = .ok { groups := front ++ groups } := by
  induction groups generalizing front with
  | nil => rw [map_nil, foldlM_nil, append_nil]; rfl
  | cons group groups ih =>
    obtain ⟨hvalid, hall⟩ := forall_mem_cons.mp hall
    rw [length_cons] at hcount
    rw [← singleton_append, ← append_assoc] at hordered ⊢
    have hids := (pairwise_append.mp hordered.1).1
    have hnames := (pairwise_append.mp hordered.2).1
    have hsorted : (front ++ [group]).insertionSort (·.gid ≤ ·.gid) = front ++ [group] :=
      (hids.imp fun {a b} hlt => UInt32.le_of_lt hlt).insertionSort_eq
    have hbefore : ∀ a ∈ front, a.gid ≠ group.gid ∧ a.name ≠ group.name := by
      intro a ha
      have hself := mem_singleton_self group
      exact ⟨UInt32.ne_of_lt ((pairwise_append.mp hids).2.2 a ha group hself),
        (pairwise_append.mp hnames).2.2 a ha group hself⟩
    have hline : parseLine { groups := front } group.line = .ok { groups := front ++ [group] } := by
      rw [parseLine, if_neg (by simpa using line_ne_nil group)]
      refine bind_ok (parseGroup_line hvalid) (add_eq_ok.mpr ⟨hvalid, ?_, ?_, ?_⟩)
      · show front.length < maxGroups
        omega
      · exact ⟨fun a ha => (hbefore a ha).1, fun a ha => (hbefore a ha).2⟩
      · rw [hsorted]
    rw [map_append, map_singleton, singleton_append, foldlM_cons, hline]
    refine ih hordered ?_ hall
    rw [length_append, length_singleton]
    omega

theorem parse_encode {db : Groups} {bytes : List UInt8} (hordered : db.Ordered) (h : db.encode = .ok bytes) :
    parse bytes = .ok db := by
  obtain ⟨_, hcount, h⟩ := bind_eq_ok.mp h
  have hcount := not_lt.mp (reject_eq_ok.mp hcount)
  obtain ⟨htext, hlen, hall⟩ := foldlM_encodeGroup (by decide) h
  have htext : bytes = (groupHeader :: db.groups.map Group.line).flatMap (· ++ [byte '\n']) := by
    rw [htext, flatMap_cons]
  have hinline : ∀ line ∈ groupHeader :: db.groups.map Group.line, Inline line := by
    refine forall_mem_cons.mpr ⟨by unfold Inline; decide +kernel, fun line hline => ?_⟩
    obtain ⟨group, hgroup, rfl⟩ := mem_map.mp hline
    exact line_inline (hall group hgroup)
  obtain ⟨hlines, hascii⟩ := text_of_inline hinline
  rw [← htext] at hlines hascii
  have hgroups : (db.groups.map Group.line).foldlM parseLine { groups := [] } = .ok db :=
    foldlM_parseLine hordered (by rw [length_nil, Nat.zero_add]; exact hcount) hall
  simp only [parse, hlines, bind_eq_ok, reject_eq_ok]
  exact ⟨(), not_lt.mpr hlen, (), not_not.mpr hascii, (), not_not.mpr rfl, hgroups⟩

end Groups

/-- **The account databases survive a save**, and what the parsers accept has no name and no id twice. -/
theorem accounts_survive_save :
    (∀ (db : Users) (bytes : List UInt8), db.encode = .ok bytes → Users.parse bytes = .ok db) ∧
    (∀ (db : Groups) (bytes : List UInt8), Groups.Reachable db → db.encode = .ok bytes → Groups.parse bytes = .ok db) ∧
    (∀ (bytes : List UInt8) (db : Users), Users.parse bytes = .ok db →
      db.users.Pairwise fun a b => a.name ≠ b.name ∧ a.uid ≠ b.uid) ∧
    (∀ (bytes : List UInt8) (db : Groups), Groups.parse bytes = .ok db →
      db.groups.Pairwise fun a b => a.name ≠ b.name ∧ a.gid ≠ b.gid) := by
  refine ⟨fun db bytes => Users.parse_encode, fun db bytes hdb => Groups.parse_encode hdb.ordered, ?_, ?_⟩
  · intro bytes db h
    exact (Users.validate_eq_ok.mp (Users.validate_of_parse h)).2.2.1
  · intro bytes db h
    obtain ⟨hids, hnames⟩ := Groups.ordered_of_parse h
    exact (hnames.and hids).imp fun hab => ⟨hab.1, UInt32.ne_of_lt hab.2⟩

namespace Fixture

def wheel : Group := { gid := 10, name := ascii "wheel", members := [ascii "alice", ascii "root"] }

def groups : Groups := { groups := [
  { gid := 0, name := ascii "root", members := [] }, wheel, { gid := 1000, name := ascii "alice", members := [] }] }

def groupsText : List UInt8 := ascii "MGRPDB\t1\n0\troot\t\n10\twheel\talice,root\n1000\talice\t\n"

theorem groups_reachable : Groups.Reachable groups := by
  have hprovision : Groups.provision users = .ok { groups := [
      { gid := 0, name := ascii "root", members := [] }, { gid := 1000, name := ascii "alice", members := [] }] } := by
    decide
  have hadd : Groups.add { groups := [{ gid := 0, name := ascii "root", members := [] },
      { gid := 1000, name := ascii "alice", members := [] }] } wheel = .ok groups := by
    decide
  exact .add (.provision hprovision) hadd

theorem accounts_survive_save_fixture : Users.parse usersText = .ok users ∧ Groups.parse groupsText = .ok groups ∧
      users.users.Pairwise (fun a b => a.name ≠ b.name ∧ a.uid ≠ b.uid) ∧
      groups.groups.Pairwise (fun a b => a.name ≠ b.name ∧ a.gid ≠ b.gid) := by
  obtain ⟨husers, hgroups, huserIds, hgroupIds⟩ := accounts_survive_save
  have hu := husers users usersText (by decide +kernel)
  have hg := hgroups groups groupsText groups_reachable (by decide)
  exact ⟨hu, hg, huserIds _ _ hu, hgroupIds _ _ hg⟩

end Fixture

end MochiSyscalls.UserDatabase
