import MochiSyscalls.Foundations.Checked
import MochiSyscalls.Foundations.Lines
import MochiSyscalls.Foundations.Numerals
import MochiSyscalls.Foundations.Runs

/-! # The user database

`UserRecord` and `UserDatabase` (`crates/user-database/src/lib.rs`). A record is a line of eight fields
between tabs, three decimal numbers and five texts in hexadecimal: no field holds a tab or a line end. -/

namespace MochiSyscalls.UserDatabase
open Foundations Checked Lines Loops Numerals Utf8 List
set_option autoImplicit false

def header : List UInt8 := ascii "MUSRDB\t1"
def lockedFlag : UInt32 := 1
def knownFlags : UInt32 := lockedFlag
def maxDatabaseBytes : ℕ := 1024 * 1024
def maxUsers : ℕ := 4096
def maxNameBytes : ℕ := 32
def maxDisplayNameBytes : ℕ := 128
def maxPathBytes : ℕ := 512
def maxPasswordHashBytes : ℕ := 512
def u32Max : ℕ := 2 ^ 32 - 1

inductive DatabaseError where
  | databaseTooLarge
  | invalidUtf8
  | invalidHeader
  | invalidRecord
  | invalidNumber
  | invalidHex
  | invalidName
  | invalidText
  | invalidPath
  | invalidFlags
  | invalidRoot
  | duplicateName
  | duplicateUid
  | tooManyUsers
  deriving DecidableEq, Repr

/-! ## Fields -/

variable (b : UInt8)

def isNameByte : Bool := within 'a' 'z' b || within '0' '9' b || b == byte '_' || b == byte '-'

def validateName (name : List UInt8) : Except DatabaseError Unit := do
  reject (name.isEmpty ∨ maxNameBytes < name.length) .invalidName
  reject (¬ name.head?.any fun b => within 'a' 'z' b || b == byte '_') .invalidName
  reject (¬ name.all isNameByte) .invalidName

/-- `value.chars().any(char::is_control)`: below space, delete, and U+0080 to U+009F. -/
def hasControl : List UInt8 → Bool
  | [] => false
  | b :: rest => b < 0x20 || b == 0x7f || (b == 0xc2 && rest.head?.any (· ≤ 0x9f)) || hasControl rest

def validateText (value : Text) (maxBytes : ℕ) : Except DatabaseError Unit :=
  reject (maxBytes < value.1.length ∨ hasControl value.1) .invalidText

def validateAbsolutePath (value : Text) : Except DatabaseError Unit := do
  reject (value.1.isEmpty ∨ maxPathBytes < value.1.length ∨ value.1.head? ≠ some (byte '/')) .invalidPath
  reject ((value.1.splitOn (byte '/')).any (fun component => component == ascii "." || component == ascii "..") ∨
    hasControl value.1) .invalidPath

def hexDigit (nibble : UInt8) : UInt8 := (ascii "0123456789abcdef").getD nibble.toNat 0

def encodeHex (bytes : List UInt8) : List UInt8 :=
  bytes.flatMap fun b : UInt8 => [hexDigit (b >>> 4), hexDigit (b &&& 0x0f)]

def decodeNibble : Option UInt8 :=
  if within '0' '9' b then some (b - byte '0')
  else if within 'a' 'f' b then some (b - byte 'a' + 10)
  else if within 'A' 'F' b then some (b - byte 'A' + 10)
  else none

def decodePairs : List UInt8 → Except DatabaseError (List UInt8)
  | high :: low :: rest => do
    let high ← okOr (decodeNibble high) .invalidHex
    let low ← okOr (decodeNibble low) .invalidHex
    let decoded ← decodePairs rest
    return ((high <<< 4) ||| low) :: decoded
  | _ => .ok []

def decodeHexString (bytes : List UInt8) : Except DatabaseError Text := do
  reject (bytes.length % 2 ≠ 0) .invalidHex
  let decoded ← decodePairs bytes
  okOr (fromUtf8 decoded) .invalidUtf8

/-! ## Records -/

structure UserRecord where
  uid : UInt32
  gid : UInt32
  name : Text
  displayName : Text
  home : Text
  shell : Text
  passwordHash : Text
  locked : Bool
  deriving DecidableEq

namespace UserRecord

def validate (user : UserRecord) : Except DatabaseError Unit := do
  validateName user.name.1
  validateText user.displayName maxDisplayNameBytes
  validateAbsolutePath user.home
  validateAbsolutePath user.shell
  validateText user.passwordHash maxPasswordHashBytes
  reject (user.uid = 0 ∧ user.name.1 ≠ ascii "root") .invalidRoot
  reject (user.name.1 = ascii "root" ∧ (user.uid ≠ 0 ∨ user.gid ≠ 0)) .invalidRoot

def flags (user : UserRecord) : UInt32 := if user.locked then lockedFlag else 0

def texts (user : UserRecord) : List Text := [user.name, user.displayName, user.home, user.shell, user.passwordHash]

end UserRecord

def encodeRecord (user : UserRecord) : List UInt8 :=
  decimal user.uid.toNat ++ byte '\t' :: decimal user.gid.toNat ++ byte '\t' :: decimal user.flags.toNat ++
    user.texts.flatMap fun value => byte '\t' :: encodeHex value.1

/-- `field.parse::<u32>()`. -/
def parseU32 (field : List UInt8) : Except DatabaseError UInt32 := do
  let n ← okOr (fromStrRadix 10 u32Max field) .invalidNumber
  return UInt32.ofNat n

def parseRecord (line : List UInt8) : Except DatabaseError UserRecord :=
  match line.splitOn (byte '\t') with
  | [uid, gid, flags, name, displayName, home, shell, passwordHash] => do
    let uid ← parseU32 uid
    let gid ← parseU32 gid
    let flags ← parseU32 flags
    reject (flags &&& ~~~knownFlags ≠ 0) .invalidFlags
    let name ← decodeHexString name
    let displayName ← decodeHexString displayName
    let home ← decodeHexString home
    let shell ← decodeHexString shell
    let passwordHash ← decodeHexString passwordHash
    let user : UserRecord := {
      uid, gid, name, displayName, home, shell, passwordHash
      locked := flags &&& lockedFlag != 0 }
    user.validate
    return user
  | _ => .error .invalidRecord

/-! ## The database -/

structure Users where
  users : List UserRecord
  deriving DecidableEq

namespace Users

/-- The inner loop of `validate`, over the records in front. -/
def checkDistinct (previous : List UserRecord) (user : UserRecord) : Except DatabaseError Unit :=
  previous.forM fun other => do
    reject (other.name = user.name) .duplicateName
    reject (other.uid = user.uid) .duplicateUid

def validateFrom (previous : List UserRecord) (rootCount : ℕ) : List UserRecord → Except DatabaseError ℕ
  | [] => .ok rootCount
  | user :: users => do
    user.validate
    let rootCount := if user.name.1 = ascii "root" then rootCount + 1 else rootCount
    checkDistinct previous user
    validateFrom (previous ++ [user]) rootCount users

def validate (db : Users) : Except DatabaseError Unit := do
  reject (maxUsers < db.users.length) .tooManyUsers
  let rootCount ← validateFrom [] 0 db.users
  reject (rootCount ≠ 1) .invalidRoot

def parseLine (users : List UserRecord) (line : List UInt8) : Except DatabaseError (List UserRecord) :=
  if line.isEmpty then .ok users
  else do
    reject (maxUsers ≤ users.length) .tooManyUsers
    let user ← parseRecord line
    return users ++ [user]

def parse (bytes : List UInt8) : Except DatabaseError Users := do
  reject (maxDatabaseBytes < bytes.length) .databaseTooLarge
  reject (¬ valid bytes) .invalidUtf8
  reject ((lines bytes).head? ≠ some header) .invalidHeader
  let users ← (lines bytes).tail.foldlM parseLine []
  let database : Users := { users }
  database.validate
  return database

def encode (db : Users) : Except DatabaseError (List UInt8) := do
  db.validate
  let output := header ++ byte '\n' :: db.users.flatMap fun user => encodeRecord user ++ [byte '\n']
  reject (maxDatabaseBytes < output.length) .databaseTooLarge
  return output

def findName (db : Users) (name : Text) : Option UserRecord := db.users.find? (·.name == name)

def findUid (db : Users) (uid : UInt32) : Option UserRecord := db.users.find? (·.uid == uid)

/-- An edit of the record that `find_name_mut` gives out. -/
def editName (db : Users) (name : Text) (edit : UserRecord → UserRecord) : Users :=
  match db.users.findIdx? (·.name == name) with
  | some i => { users := db.users.modify i edit }
  | none => db

/-- The database is written before its last check, which leaves it as it is. -/
def add (db : Users) (user : UserRecord) : Except DatabaseError Unit × Users :=
  let checks : Except DatabaseError Unit := do
    user.validate
    reject (maxUsers ≤ db.users.length) .tooManyUsers
    reject (db.findName user.name).isSome .duplicateName
    reject (db.findUid user.uid).isSome .duplicateUid
  match checks with
  | .error e => (.error e, db)
  | .ok () =>
    let added : Users := { users := (db.users ++ [user]).insertionSort (·.uid ≤ ·.uid) }
    (added.validate, added)

end Users

/-! ## The bytes of a field -/

theorem isNameByte_plain : ∀ b : UInt8, isNameByte b = true →
    b ≠ byte '\t' ∧ b ≠ byte '\n' ∧ b ≠ byte '\r' ∧ b ≠ byte ',' ∧ b < 0x80 := by
  refine forall_byte ?_
  decide +kernel

def Plain (bytes : List UInt8) : Prop := ∀ b ∈ bytes, isNameByte b = true

theorem decimal_plain (n : ℕ) : Plain (decimal n) := by
  intro b hb
  rw [isNameByte, decimal_digits n b hb]
  simp

theorem hex_roundtrip :
    decodeNibble (hexDigit (b >>> 4)) = some (b >>> 4) ∧ decodeNibble (hexDigit (b &&& 0x0f)) = some (b &&& 0x0f) ∧
      ((b >>> 4) <<< 4 ||| (b &&& 0x0f)) = b ∧ isNameByte (hexDigit (b >>> 4)) = true ∧
      isNameByte (hexDigit (b &&& 0x0f)) = true := by
  revert b
  refine forall_byte ?_
  decide +kernel

theorem encodeHex_cons (bytes : List UInt8) :
    encodeHex (b :: bytes) = hexDigit (b >>> 4) :: hexDigit (b &&& 0x0f) :: encodeHex bytes := rfl

theorem encodeHex_plain (bytes : List UInt8) : Plain (encodeHex bytes) := by
  induction bytes with
  | nil => exact nofun
  | cons b bytes ih =>
    obtain ⟨-, -, -, hhigh, hlow⟩ := hex_roundtrip b
    exact forall_mem_cons.mpr ⟨hhigh, forall_mem_cons.mpr ⟨hlow, ih⟩⟩

theorem decodePairs_encodeHex (bytes : List UInt8) : decodePairs (encodeHex bytes) = .ok bytes := by
  induction bytes with
  | nil => rfl
  | cons b bytes ih =>
    obtain ⟨hhigh, hlow, hjoin, -⟩ := hex_roundtrip b
    rw [encodeHex_cons, decodePairs, hhigh, hlow, ih]
    exact congrArg (fun c => Except.ok (c :: bytes)) hjoin

theorem decodeHexString_encodeHex (text : Text) : decodeHexString (encodeHex text.1) = .ok text := by
  have hlen : (encodeHex text.1).length % 2 = 0 := by
    induction text.1 with
    | nil => rfl
    | cons b bytes ih =>
      rw [encodeHex_cons, length_cons, length_cons]
      omega
  simp only [decodeHexString, bind_eq_ok, reject_eq_ok, okOr_eq_ok, fromUtf8_eq_some]
  exact ⟨(), not_not.mpr hlen, _, decodePairs_encodeHex _, rfl⟩

theorem parseU32_decimal (n : UInt32) : parseU32 (decimal n.toNat) = .ok n := by
  have hle : n.toNat ≤ u32Max := Nat.le_pred_of_lt n.toNat_lt
  refine bind_ok (okOr_eq_ok.mpr (fromStrRadix_decimal hle)) ?_
  rw [UInt32.ofNat_toNat]
  rfl

/-! ## A record is read back -/

def fields (user : UserRecord) : List (List UInt8) :=
  [decimal user.uid.toNat, decimal user.gid.toNat, decimal user.flags.toNat] ++ user.texts.map (encodeHex ·.1)

theorem fields_plain (user : UserRecord) : ∀ field ∈ fields user, Plain field := by
  simp only [fields, UserRecord.texts, map_cons, map_nil, cons_append, nil_append,
    forall_mem_cons]
  refine ⟨decimal_plain _, decimal_plain _, decimal_plain _, encodeHex_plain _, encodeHex_plain _, encodeHex_plain _,
    encodeHex_plain _, encodeHex_plain _, nofun⟩

theorem encodeRecord_eq (user : UserRecord) : encodeRecord user = [byte '\t'].intercalate (fields user) := by
  simp [encodeRecord, fields, UserRecord.texts, intercalate, intersperse]

theorem splitOn_encodeRecord (user : UserRecord) : (encodeRecord user).splitOn (byte '\t') = fields user := by
  rw [encodeRecord_eq, splitOn_intercalate]
  · intro field hfield htab
    exact (isNameByte_plain _ (fields_plain user field hfield _ htab)).1 rfl
  · exact cons_ne_nil _ _

theorem encodeRecord_inline (user : UserRecord) : Inline (encodeRecord user) := by
  intro b h
  rw [encodeRecord_eq] at h
  rcases mem_intercalate h with rfl | ⟨field, hfield, h⟩
  · decide
  · obtain ⟨-, hfeed, hreturn, -, hascii⟩ := isNameByte_plain b (fields_plain user field hfield b h)
    exact ⟨hfeed, hreturn, hascii⟩

theorem encodeRecord_ne_nil (user : UserRecord) : encodeRecord user ≠ [] := by
  simp [encodeRecord, decimal_ne_nil]

theorem parseRecord_encodeRecord {user : UserRecord} (h : user.validate = .ok ()) :
    parseRecord (encodeRecord user) = .ok user := by
  have hknown : user.flags &&& ~~~knownFlags = 0 := by
    unfold UserRecord.flags
    cases user.locked <;> decide
  have hlocked : (user.flags &&& lockedFlag != 0) = user.locked := by
    unfold UserRecord.flags
    cases user.locked <;> decide
  rw [parseRecord, splitOn_encodeRecord]
  simp only [fields, UserRecord.texts, map_cons, map_nil, cons_append, nil_append, parseU32_decimal,
    decodeHexString_encodeHex, bind_eq_ok, reject_eq_ok]
  refine ⟨_, rfl, _, rfl, _, rfl, (), not_not.mpr hknown, _, rfl, _, rfl, _, rfl, _, rfl, _, rfl, ?_⟩
  rw [hlocked]
  exact ⟨(), h, rfl⟩

/-! ## The database is read back -/

namespace Users

variable {db : Users} {bytes : List UInt8}

def Distinct (a b : UserRecord) : Prop := a.name ≠ b.name ∧ a.uid ≠ b.uid

def rootCount (users : List UserRecord) : ℕ := users.countP (·.name.1 = ascii "root")

theorem checkDistinct_eq_ok {previous : List UserRecord} {user : UserRecord} {u : Unit} :
    checkDistinct previous user = .ok u ↔ ∀ a ∈ previous, Distinct a user := by
  unfold checkDistinct
  simp only [forM_eq_ok, bind_eq_ok, reject_eq_ok, exists_const]
  rfl

theorem validateFrom_eq_ok {previous users : List UserRecord} {k n : ℕ} :
    validateFrom previous k users = .ok n ↔ (∀ user ∈ users, user.validate = .ok ()) ∧ users.Pairwise Distinct ∧
      (∀ a ∈ previous, ∀ b ∈ users, Distinct a b) ∧ k + rootCount users = n := by
  induction users generalizing previous k with
  | nil => simp [validateFrom, rootCount]
  | cons user users ih =>
    have hcount : (if user.name.1 = ascii "root" then k + 1 else k) + rootCount users = k + rootCount (user :: users) := by
      simp only [rootCount, countP_cons, decide_eq_true_eq]
      split_ifs <;> omega
    rw [validateFrom]
    simp only [bind_eq_ok, Unique.exists_iff, PUnit.default_eq_unit, checkDistinct_eq_ok, ih, hcount,
      forall_mem_cons, pairwise_cons, forall_mem_append, not_mem_nil, false_imp_iff, forall_and,
      implies_true, and_true]
    tauto

theorem validate_eq_ok : db.validate = .ok () ↔ db.users.length ≤ maxUsers ∧ (∀ user ∈ db.users, user.validate = .ok ()) ∧
    db.users.Pairwise Distinct ∧ rootCount db.users = 1 := by
  unfold validate
  simp only [bind_eq_ok, reject_eq_ok, exists_const, validateFrom_eq_ok, not_lt, ne_eq, not_not]
  simp [and_assoc]

theorem parseLine_encodeRecord {front : List UserRecord} (hroom : front.length < maxUsers) {user : UserRecord}
    (h : user.validate = .ok ()) : parseLine front (encodeRecord user) = .ok (front ++ [user]) := by
  rw [parseLine, if_neg (by simpa using encodeRecord_ne_nil user)]
  simp only [bind_eq_ok, reject_eq_ok]
  exact ⟨(), not_le.mpr hroom, _, parseRecord_encodeRecord h, rfl⟩

def textLines (db : Users) : List (List UInt8) := header :: db.users.map encodeRecord

theorem encode_eq_ok : db.encode = .ok bytes ↔ db.validate = .ok () ∧ bytes.length ≤ maxDatabaseBytes ∧
      bytes = db.textLines.flatMap (· ++ [byte '\n']) := by
  have htext : db.textLines.flatMap (· ++ [byte '\n']) =
      header ++ byte '\n' :: db.users.flatMap fun user => encodeRecord user ++ [byte '\n'] := by
    rw [textLines, flatMap_cons, flatMap_map, append_assoc, singleton_append]
  rw [htext]
  simp only [encode, bind_eq_ok, reject_eq_ok, not_lt]
  constructor
  · rintro ⟨_, hvalid, _, hlen, h⟩
    obtain rfl := Except.ok.inj h
    exact ⟨hvalid, hlen, rfl⟩
  · rintro ⟨hvalid, hlen, rfl⟩
    exact ⟨(), hvalid, (), hlen, rfl⟩

theorem textLines_inline : ∀ line ∈ db.textLines, Inline line := by
  refine forall_mem_cons.mpr ⟨by unfold Inline; decide +kernel, fun line hline => ?_⟩
  obtain ⟨user, -, rfl⟩ := mem_map.mp hline
  exact encodeRecord_inline user

theorem parse_encode (h : db.encode = .ok bytes) : parse bytes = .ok db := by
  obtain ⟨hvalid, hlen, rfl⟩ := encode_eq_ok.mp h
  obtain ⟨hcount, hall, -⟩ := validate_eq_ok.mp hvalid
  obtain ⟨hlines, hascii⟩ := text_of_inline (@textLines_inline db)
  have husers : (db.users.map encodeRecord).foldlM parseLine [] = .ok db.users :=
    foldlM_snoc (fun _ hroom user huser => parseLine_encodeRecord hroom (hall user huser)) (by rw [length_nil]; omega)
  simp only [parse, hlines, bind_eq_ok, reject_eq_ok]
  exact ⟨(), not_lt.mpr hlen, (), not_not.mpr hascii, (), not_not.mpr rfl, _, husers, (), hvalid, rfl⟩

theorem validate_of_parse (h : parse bytes = .ok db) : db.validate = .ok () := by
  simp only [parse, bind_eq_ok] at h
  obtain ⟨_, _, _, _, _, _, users, _, _, hvalid, h⟩ := h
  obtain rfl := Except.ok.inj h
  exact hvalid

/-! ## Additions

`add` sorts the new record in before its last check and does not take it out again. -/

inductive Op where
  | add (user : UserRecord)
  | edit (name : Text) (change : UserRecord → UserRecord)

def step (db : Users) : Op → Users
  | .add user => (db.add user).2
  | .edit name change => db.editName name change

/-- A refused addition leaves the database as it was, and a successful one puts the record among the old ones. -/
def Atomic (db : Users) (user : UserRecord) : Prop :=
  match (db.add user).1 with
  | .error _ => (db.add user).2 = db
  | .ok () => (db.add user).2.users.Perm (db.users ++ [user])

/-- The checks in front of the insertion. -/
def Admitted (db : Users) (user : UserRecord) : Prop :=
  user.validate = .ok () ∧ db.users.length < maxUsers ∧ db.findName user.name = none ∧ db.findUid user.uid = none

/-- What the last check asks of the other records. -/
def Sound (db : Users) (user : UserRecord) : Prop :=
  (∀ other ∈ db.users, other.validate = .ok ()) ∧ db.users.Pairwise Distinct ∧ rootCount (db.users ++ [user]) = 1

def added (db : Users) (user : UserRecord) : Users := { users := (db.users ++ [user]).insertionSort (·.uid ≤ ·.uid) }

variable {user : UserRecord}

theorem add_of_admitted (h : db.Admitted user) : db.add user = ((db.added user).validate, db.added user) := by
  obtain ⟨hvalid, hroom, hname, huid⟩ := h
  unfold add
  simp only [hvalid, hname, huid, reject, not_le.mpr hroom]
  rfl

theorem add_of_not_admitted (h : ¬ db.Admitted user) : ∃ e, db.add user = (.error e, db) := by
  unfold add
  simp only
  split
  · exact ⟨_, rfl⟩
  next hchecks =>
    refine absurd ?_ h
    simp only [bind_eq_ok, reject_eq_ok, not_le, Bool.not_eq_true, Option.isSome_eq_false_iff,
      Option.isNone_iff_eq_none] at hchecks
    obtain ⟨_, hvalid, _, hroom, _, hname, huid⟩ := hchecks
    exact ⟨hvalid, hroom, hname, huid⟩

theorem added_perm : (db.added user).users.Perm (db.users ++ [user]) := List.perm_insertionSort _ _

theorem validate_added (h : db.Admitted user) : (db.added user).validate = .ok () ↔ db.Sound user := by
  obtain ⟨hvalid, hroom, hname, huid⟩ := h
  have hsymm : Std.Symm Distinct := ⟨fun a b h => ⟨h.1.symm, h.2.symm⟩⟩
  have hfresh : ∀ other ∈ db.users, Distinct other user := by
    intro other hother
    have hname' := find?_eq_none.mp hname other hother
    have huid' := find?_eq_none.mp huid other hother
    rw [beq_iff_eq] at hname' huid'
    exact ⟨hname', huid'⟩
  rw [validate_eq_ok, added_perm.length_eq, added_perm.pairwise_iff (fun h => hsymm.symm _ _ h), pairwise_append,
    rootCount, added_perm.countP_eq]
  simp only [added_perm.mem_iff, forall_mem_append, forall_mem_singleton, length_append,
    length_singleton]
  constructor
  · rintro ⟨-, ⟨hall, -⟩, ⟨hpairwise, -⟩, hroot⟩
    exact ⟨hall, hpairwise, hroot⟩
  · rintro ⟨hall, hpairwise, hroot⟩
    exact ⟨hroom, ⟨hall, hvalid⟩, ⟨hpairwise, pairwise_singleton _ _, hfresh⟩, hroot⟩

theorem atomic_iff : db.Atomic user ↔ (db.Admitted user → db.Sound user) := by
  by_cases h : db.Admitted user
  · rw [← validate_added h, Atomic, add_of_admitted h]
    cases hv : (db.added user).validate with
    | ok u => exact iff_of_true added_perm fun _ => rfl
    | error e =>
      refine iff_of_false (fun hsame => ?_) fun hok => nomatch hok h
      have hlen := congrArg (·.users.length) hsame
      simp only [added_perm.length_eq, length_append, length_singleton] at hlen
      omega
  · obtain ⟨e, hadd⟩ := add_of_not_admitted h
    rw [Atomic, hadd]
    exact iff_of_true rfl fun hgood => absurd hgood h

theorem sound_of_valid (h : db.validate = .ok ()) (hgood : db.Admitted user) : db.Sound user := by
  obtain ⟨-, hall, hpairwise, hroot⟩ := validate_eq_ok.mp h
  refine ⟨hall, hpairwise, ?_⟩
  have hplain : rootCount [user] = 0 := by
    obtain ⟨root, hmem, hrootname⟩ := countP_pos_iff.mp (show 0 < rootCount db.users by omega)
    refine countP_eq_zero.mpr (forall_mem_singleton.mpr fun huser => ?_)
    have hname := find?_eq_none.mp hgood.2.2.1 root hmem
    simp only [decide_eq_true_eq, beq_iff_eq] at hrootname huser hname
    exact hname (Subtype.ext (hrootname.trans huser.symm))
  rw [rootCount, countP_append]
  exact congrArg₂ (· + ·) hroot hplain

/-- Every edit of the run leaves records that the validator accepts. -/
def EditsValid (db : Users) : Op → Prop
  | .add _ => True
  | .edit name change => (db.editName name change).validate = .ok ()

theorem validate_step {op : Op} (h : db.validate = .ok ()) (hedit : db.EditsValid op) : (db.step op).validate = .ok () := by
  cases op with
  | edit name change => exact hedit
  | add user =>
    rw [step]
    by_cases hgood : db.Admitted user
    · rw [add_of_admitted hgood]
      exact (validate_added hgood).mpr (sound_of_valid h hgood)
    · obtain ⟨e, hadd⟩ := add_of_not_admitted hgood
      rw [hadd]
      exact h

/-- **Refused additions.** An addition that passes the checks in front of the insertion is atomic exactly when the other
records are valid and distinct and one is root's; so is every addition to a valid database. -/
theorem add_atomic_iff {start : Users} (hparse : parse bytes = .ok start) (ops : List Op) (user : UserRecord) :
    ((Runs.run step start ops).Atomic user ↔
      ((Runs.run step start ops).Admitted user → (Runs.run step start ops).Sound user)) ∧
    (Runs.Along step EditsValid start ops → (Runs.run step start ops).Atomic user) := by
  refine ⟨atomic_iff, fun hedits => atomic_iff.mpr fun hgood => sound_of_valid ?_ hgood⟩
  exact Runs.along_invariant step (fun _ _ => validate_step) (validate_of_parse hparse) hedits

end Users

namespace Fixture

def root : UserRecord where
  uid := 0
  gid := 0
  name := textOf "root" (by decide)
  displayName := textOf "System Administrator" (by decide +kernel)
  home := textOf "/home/root" (by decide +kernel)
  shell := textOf "/bin/msh" (by decide +kernel)
  passwordHash := textOf "!" (by decide)
  locked := true

def alice : UserRecord where
  uid := 1000
  gid := 1000
  name := textOf "alice" (by decide)
  displayName := ⟨[0x41, 0xc3, 0xa9], by decide⟩
  home := textOf "/home/alice" (by decide +kernel)
  shell := textOf "/bin/msh" (by decide +kernel)
  passwordHash := textOf "x:1" (by decide)
  locked := false

def users : Users := { users := [root, alice] }

def usersText : List UInt8 :=
  ascii ("MUSRDB\t1\n0\t0\t1\t726f6f74\t53797374656d2041646d696e6973747261746f72\t2f686f6d652f726f6f74\t" ++
    "2f62696e2f6d7368\t21\n1000\t1000\t0\t616c696365\t41c3a9\t2f686f6d652f616c696365\t2f62696e2f6d7368\t783a31\n")

def empty : Users := { users := [root] }

/-- Root's shell is cleared, which no validator accepts, and set again. -/
def clear : Users.Op := .edit root.name fun user => { user with shell := textOf "" (by decide) }

def restore : Users.Op := .edit root.name fun user => { user with shell := root.shell }

theorem empty_parsed : ∃ bytes, Users.parse bytes = .ok empty :=
  ⟨_, Users.parse_encode (Users.encode_eq_ok.mpr ⟨by decide +kernel, by decide +kernel, rfl⟩)⟩

theorem refused_user_written : (∃ bytes, Users.parse bytes = .ok empty) ∧
    ((empty.step clear).add alice).1 = .error .invalidPath ∧ ¬ (empty.step clear).Atomic alice ∧
    (Runs.run Users.step empty [clear, .add alice, restore]).encode = .ok usersText := by
  have hrefused : (empty.step clear).add alice = (.error .invalidPath, (empty.step clear).added alice) := by
    decide +kernel
  refine ⟨empty_parsed, congrArg Prod.fst hrefused, fun h => ?_, by decide +kernel⟩
  rw [Users.Atomic, hrefused] at h
  exact absurd (congrArg (·.users.length) h) (by decide)

theorem add_atomic_iff_restored : (Runs.run Users.step empty [restore]).Admitted alice ∧
    (Runs.run Users.step empty [restore]).Atomic alice := by
  obtain ⟨bytes, hparse⟩ := empty_parsed
  have hvalid : (empty.step restore).validate = .ok () := by decide +kernel
  exact ⟨by unfold Users.Admitted; decide +kernel, (Users.add_atomic_iff hparse [restore] alice).2 ⟨hvalid, trivial⟩⟩

end Fixture

end MochiSyscalls.UserDatabase
