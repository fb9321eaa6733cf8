import Mathlib.Data.List.Sort
import Mathlib.Data.String.Basic
import Weflow.Lib.Keyset
import Weflow.Store.Basic

/-!
# Database contents and the schema probes

What the engine sees of one decrypted database: its tables with their column names and
rows, and the helpers of `db/open.rs` and `store/index.rs` that look for tables and columns
by name. A row carries one typed value for each group of column aliases; which of them a
query may read is decided by the column names of the table.
-/

namespace Weflow

/-- A row of a `Msg_<md5>` table, by the alias groups of `MSG_COLUMNS`. -/
structure MsgRow where
  localId : Int
  serverId : Int := 0
  localType : Int := 1
  createTime : Int := 0
  sortSeq : Int := 0
  senderUsername : Option String := none
  realSenderId : Int := 0
  messageContent : Option (List UInt8) := none
  compressContent : Option (List UInt8) := none
deriving DecidableEq, Repr

/-- A row of a `Name2Id` table, under the two spellings of its name column. -/
structure UidRow where
  rowid : Int
  userName : Option String := none
  username : Option String := none
deriving DecidableEq, Repr

/-- A row of `SessionTable`, by the alias groups of `SESSION_COLUMNS`. -/
structure SessionRow where
  username : Option String
  displayName : Option String := none
  lastTimestamp : Int := 0
  summary : Option String := none
  lastMsgType : Int := 0
  unreadCount : Int := 0
  typeRaw : Int := 0
deriving DecidableEq, Repr

/-- A row of `contact`, by the alias groups of `CONTACT_COLUMNS`. -/
structure ContactRow where
  username : Option String
  remark : Option String := none
  nickname : Option String := none
  aliasName : Option String := none
  avatarUrl : Option String := none
  typeRaw : Int := 0
deriving DecidableEq, Repr

/-- The rows of a table, by what the engine reads from it. -/
inductive TableBody
  | messages (rows : List MsgRow)
  | uids (rows : List UidRow)
  | sessions (rows : List SessionRow)
  | contacts (rows : List ContactRow)
  /-- `chat_room(username, owner)` -/
  | chatRoom (rows : List (Option String × Option String))
  /-- `chatroom_member(room_id, member_id)` -/
  | chatroomMember (rows : List (Int × Int))
  /-- the join of `chatroom_member_fts_v3_aux` and `_content`: `(room_id, member_id, c0)` -/
  | groupCards (rows : List (Int × Int × Option String))
  /-- `SnsTimeLine(tid, user_name, content)` -/
  | snsTimeLine (rows : List (Int × String × String))
  | other
deriving DecidableEq, Repr

structure Table where
  name : String
  columns : List String
  body : TableBody
deriving DecidableEq, Repr

namespace Table

def msgRows (t : Table) : List MsgRow :=
  match t.body with
  | .messages rows => rows
  | _ => []

def uidRows (t : Table) : List UidRow :=
  match t.body with
  | .uids rows => rows
  | _ => []

end Table

/-- The content of one database at one commit. Table names differ even under case folding,
`local_id` is the auto-incremented primary key of a message table, and no two rows share a
`rowid`. -/
structure Db where
  tables : List Table
  names_nodup : (tables.map fun t => asciiLower t.name).Nodup
  ids_nodup : ∀ t ∈ tables, (t.msgRows.map MsgRow.localId).Nodup
  ids_pos : ∀ t ∈ tables, ∀ r ∈ t.msgRows, 0 < r.localId
  rowids_nodup : ∀ t ∈ tables, (t.uidRows.map UidRow.rowid).Nodup

/-- A database without tables. -/
def Db.empty : Db := ⟨[], by simp, by simp, by simp, by simp⟩

instance : Inhabited Db := ⟨Db.empty⟩

/-! ## Column aliases -/

def sessionColumns : List (List String) := [
  ["user_name", "username", "userName", "talker", "talker_id", "session_id"],
  ["display_name", "displayName", "nick_name", "nickname", "name"],
  ["sort_timestamp", "sortTimestamp", "sort_time", "last_msg_time"],
  ["last_timestamp", "lastTimestamp", "last_msg_time", "lastTime"],
  ["summary", "digest", "last_msg", "lastMsg", "last_message"],
  ["last_msg_type", "lastMsgType", "last_type", "lastType"],
  ["unread_count", "unreadCount", "unread", "total_count"],
  ["type", "session_type", "sessionType"]]

def contactColumns : List (List String) := [
  ["user_name", "username", "userName"],
  ["remark", "remark_name", "remarkName"],
  ["nick_name", "nickname", "nickName"],
  ["alias", "wx_id", "wxid", "alias_name"],
  ["avatar_url", "avatar", "head_img_url", "headImageUrl"],
  ["local_type", "localType", "type", "user_type", "userType"]]

def msgColumns : List (List String) := [
  ["local_id", "localId", "id"],
  ["server_id", "serverId", "msg_svr_id", "msgSvrId"],
  ["local_type", "localType", "type", "msg_type", "msgType"],
  ["create_time", "createTime", "msg_create_time", "timestamp"],
  ["sort_seq", "sortSeq", "seq", "msg_seq"],
  ["sender_username", "senderUsername", "talker", "from_username"],
  ["real_sender_id", "realSenderId", "sender_rowid", "send_id"]]

/-- Case-insensitive first match of an alias group against table columns. -/
def pick (cols group : List String) : Option String :=
  group.findSome? fun a => cols.find? fun c => eqIgnoreAsciiCase c a

/-! ## The catalogue -/

/-- Characters of an SQL identifier that needs no quotes. -/
def isIdentChar (c : Char) : Bool := c.isAlphanum || c == '_' || c == '$' || 128 ≤ c.toNat

/-- The name can stand unquoted in `PRAGMA table_info(…)`. -/
def isPlainIdent (name : String) : Bool :=
  match name.toList with
  | [] => false
  | c :: cs => (c.isAlpha || c == '_' || 128 ≤ c.toNat) && cs.all isIdentChar

namespace Db

/-- The table of that name; SQL table names are case-insensitive. -/
def table? (db : Db) (name : String) : Option Table :=
  db.tables.find? fun t => eqIgnoreAsciiCase t.name name

/-- The rows a query finds in a table. -/
def msgRows (db : Db) (name : String) : List MsgRow := ((db.table? name).map Table.msgRows).getD []

end Db

/-- `table_columns`: the column names, none when the probe fails. The name is not quoted. -/
def tableColumns (db : Db) (name : String) : List String :=
  if isPlainIdent name then ((db.table? name).map Table.columns).getD [] else []

/-- The table names in the order of `ORDER BY name`. -/
def sortedNames (db : Db) : List String :=
  (db.tables.map Table.name).insertionSort (· ≤ ·)

/-- `table_names`: the first `limit` names. -/
def tableNames (db : Db) (limit : Nat) : List String := (sortedNames db).take limit

def isHexDigit (c : Char) : Bool := ('0' ≤ c && c ≤ '9') || ('a' ≤ c && c ≤ 'f')

/-- The lower-case digits after `msg_` in the name of a message table. -/
def msgSuffix (name : String) : Option String :=
  match asciiLower name with
  | 'm' :: 's' :: 'g' :: '_' :: rest =>
    if (rest.length = 32 ∨ rest.length = 16) ∧ rest.all isHexDigit then
      some (String.ofList rest)
    else none
  | _ => none

/-- The cap `message_tables` passes to `table_names`. -/
def messageTablesCap : Nat := 1000

/-- The cap `name2id_table` passes to `table_names`. -/
def name2idTableCap : Nat := 500

/-- `message_tables`: names and suffixes of the message tables. -/
def messageTables (db : Db) : List (String × String) :=
  (tableNames db messageTablesCap).filterMap fun t => (msgSuffix t).map fun suffix => (t, suffix)

def isName2id (name : String) : Bool := "name2id".toList.isPrefixOf (asciiLower name)

/-- `name2id_table`: the last name that starts with `name2id`. -/
def name2idTable (db : Db) : Option String :=
  (((tableNames db name2idTableCap).insertionSort (· ≤ ·)).reverse).find? isName2id

/-- `load_uid_map`: rowid to username; the name column is probed under two spellings. -/
def loadUidMap (db : Db) (name2id : Option String) : AList fun _ : Int => String :=
  match name2id with
  | none => ∅
  | some t =>
    let cols := tableColumns db t
    match ["user_name", "username"].find? fun c => cols.contains c with
    | none => ∅
    | some col =>
      (((db.table? t).map Table.uidRows).getD []).foldl (fun map row =>
        match if col = "user_name" then row.userName else row.username with
        | some name => map.insert row.rowid name
        | none => map) ∅

/-- `uid_map`: with the database's own `name2id` table. -/
def uidMap (db : Db) : AList fun _ : Int => String := loadUidMap db (name2idTable db)

/-! ## Facts about the catalogue -/

theorem perm_sortedNames (db : Db) : (sortedNames db).Perm (db.tables.map Table.name) :=
  List.perm_insertionSort _ _

theorem mem_sortedNames {db : Db} {n : String} :
    n ∈ sortedNames db ↔ n ∈ db.tables.map Table.name := (perm_sortedNames db).mem_iff

theorem sortedNames_pairwise (db : Db) : (sortedNames db).Pairwise (· ≤ ·) :=
  List.pairwise_insertionSort _ _

theorem names_nodup_exact (db : Db) : (db.tables.map Table.name).Nodup := by
  have h : ((db.tables.map Table.name).map asciiLower).Nodup := by
    rw [List.map_map]
    exact db.names_nodup
  exact h.of_map

theorem sortedNames_nodup (db : Db) : (sortedNames db).Nodup :=
  (perm_sortedNames db).nodup_iff.mpr (names_nodup_exact db)

theorem messageTables_eq (db : Db) {t suffix : String} :
    (t, suffix) ∈ messageTables db ↔
      t ∈ tableNames db messageTablesCap ∧ msgSuffix t = some suffix := by
  simp only [messageTables, List.mem_filterMap, Option.map_eq_some_iff, Prod.mk.injEq]
  constructor
  · rintro ⟨a, ha, s, hs, rfl, rfl⟩
    exact ⟨ha, hs⟩
  · rintro ⟨ht, hs⟩
    exact ⟨t, ht, suffix, hs, rfl, rfl⟩

/-- Looking a table up by its own name finds it. -/
theorem table?_of_mem {db : Db} {t : Table} (h : t ∈ db.tables) : db.table? t.name = some t := by
  have hNodup := db.names_nodup
  unfold Db.table?
  generalize db.tables = ts at h hNodup
  induction ts with
  | nil => cases h
  | cons a ts ih =>
    rw [List.map_cons, List.nodup_cons] at hNodup
    rcases List.mem_cons.mp h with rfl | hMem
    · rw [List.find?_cons_of_pos]
      simp [eqIgnoreAsciiCase]
    · rw [List.find?_cons_of_neg]
      · exact ih hMem hNodup.2
      · intro hEq
        apply hNodup.1
        rw [show asciiLower a.name = asciiLower t.name by simpa [eqIgnoreAsciiCase] using hEq]
        exact List.mem_map_of_mem hMem

/-- Every message table that holds a row is among the names `message_tables` looks at. -/
def Db.Listed (db : Db) : Prop :=
  ∀ t ∈ db.tables, (msgSuffix t.name).isSome → t.msgRows ≠ [] →
    t.name ∈ tableNames db messageTablesCap

theorem Db.listed_of_length {db : Db} (h : db.tables.length ≤ messageTablesCap) : db.Listed := by
  intro t ht _ _
  have hLength : (sortedNames db).length ≤ messageTablesCap := by
    rw [(perm_sortedNames db).length_eq, List.length_map]
    exact h
  rw [tableNames, List.take_of_length_le hLength]
  exact mem_sortedNames.mpr (List.mem_map_of_mem ht)

theorem msgRows_of_mem {db : Db} {t : Table} (h : t ∈ db.tables) :
    db.msgRows t.name = t.msgRows := by
  rw [Db.msgRows, table?_of_mem h]
  rfl

/-- In a listed database a message table with a row is enumerated, with its suffix. -/
theorem Db.Listed.mem_messageTables {db : Db} (h : db.Listed) {t : Table} (ht : t ∈ db.tables)
    {suffix : String} (hSuffix : msgSuffix t.name = some suffix) (hRows : t.msgRows ≠ []) :
    (t.name, suffix) ∈ messageTables db :=
  (messageTables_eq db).mpr ⟨h t ht (by rw [hSuffix]; rfl) hRows, hSuffix⟩

theorem table?_mem {db : Db} {n : String} {t : Table} (h : db.table? n = some t) :
    t ∈ db.tables := List.mem_of_find?_eq_some h

/-! ## Which names the caps leave -/

/-- How many table names sort before this one. -/
def Db.before (db : Db) (name : String) : Nat := (db.tables.filter fun t => t.name < name).length

/-- A table is listed if fewer names than the limit sort before its own. -/
theorem mem_tableNames {db : Db} {n : String} {limit : Nat} :
    n ∈ tableNames db limit ↔ n ∈ db.tables.map Table.name ∧ db.before n < limit := by
  have hStrict : (sortedNames db).Pairwise (· < ·) :=
    ((sortedNames_pairwise db).and (sortedNames_nodup db)).imp fun h => lt_of_le_of_ne h.1 h.2
  have hBefore : ((sortedNames db).filter (· < n)).length = db.before n := by
    rw [((perm_sortedNames db).filter _).length_eq, List.filter_map, List.length_map]
    rfl
  rw [tableNames, Keyset.mem_take_iff hStrict, hBefore, mem_sortedNames]

theorem mem_messageTables {db : Db} {t suffix : String} : (t, suffix) ∈ messageTables db ↔
    t ∈ db.tables.map Table.name ∧ db.before t < messageTablesCap ∧ msgSuffix t = some suffix := by
  rw [messageTables_eq, mem_tableNames, and_assoc]

/-- `name2id_table` is the greatest such name among those listed. -/
theorem name2idTable_eq_some {db : Db} {n : String} : name2idTable db = some n ↔
    n ∈ tableNames db name2idTableCap ∧ isName2id n = true ∧
      ∀ m ∈ tableNames db name2idTableCap, isName2id m = true → m ≤ n := by
  unfold name2idTable
  rw [Keyset.find?_reverse_eq_some (List.pairwise_insertionSort _ _)]
  simp only [List.mem_insertionSort]

theorem name2idTable_eq_none {db : Db} : name2idTable db = none ↔
    ∀ m ∈ tableNames db name2idTableCap, isName2id m = false := by
  simp [name2idTable]

/-! ## The entries of a `Name2Id` table -/

namespace Table

/-- The name a row carries, under the spelling the columns have. -/
def uidName (t : Table) (row : UidRow) : Option String :=
  match ["user_name", "username"].find? fun c => t.columns.contains c with
  | none => none
  | some col => if col = "user_name" then row.userName else row.username

/-- The table has that name for a row id. -/
def HasEntry (t : Table) (id : Int) (name : String) : Prop :=
  ∃ row ∈ t.uidRows, row.rowid = id ∧ t.uidName row = some name

end Table

/-- A map filled from rows with pairwise different ids, where they carry a name. -/
theorem lookup_foldl_uids {g : UidRow → Option String} {rows : List UidRow}
    (hIds : (rows.map UidRow.rowid).Nodup) (m : AList fun _ : Int => String) (id : Int) :
    (rows.foldl (fun m row => match g row with
      | some name => m.insert row.rowid name
      | none => m) m).lookup id =
        ((rows.find? fun row => row.rowid = id).bind g).or (m.lookup id) := by
  induction rows generalizing m with
  | nil => rfl
  | cons a rows ih =>
    rw [List.map_cons, List.nodup_cons] at hIds
    rw [List.foldl_cons, ih hIds.2]
    by_cases hId : a.rowid = id
    · have hNone : rows.find? (fun row => row.rowid = id) = none := by
        refine List.find?_eq_none.mpr fun row hRow hEq => hIds.1 ?_
        have hSame : row.rowid = a.rowid := by rw [hId]; simpa using hEq
        exact hSame ▸ List.mem_map_of_mem hRow
      subst hId
      cases hName : g a <;> simp [hNone, hName]
    · have hNe : id ≠ a.rowid := fun h => hId h.symm
      cases hName : g a <;> simp [hId, AList.lookup_insert_ne hNe]

/-- Of a table whose name needs no quotes the map has the entries. -/
theorem lookup_loadUidMap {db : Db} {t : Table} (ht : t ∈ db.tables)
    (hPlain : isPlainIdent t.name = true) {id : Int} {name : String} :
    (loadUidMap db (some t.name)).lookup id = some name ↔ t.HasEntry id name := by
  have hIds := db.rowids_nodup t ht
  have hMap : (loadUidMap db (some t.name)).lookup id =
      (t.uidRows.find? fun row => row.rowid = id).bind t.uidName := by
    have hCols : tableColumns db t.name = t.columns := by
      simp [tableColumns, hPlain, table?_of_mem ht]
    unfold loadUidMap Table.uidName
    simp only [hCols, table?_of_mem ht, Option.map_some, Option.getD_some]
    cases List.find? (fun c => t.columns.contains c) ["user_name", "username"] with
    | none => simp
    | some col => simpa using lookup_foldl_uids hIds ∅ id
  rw [hMap, Option.bind_eq_some_iff]
  constructor
  · rintro ⟨row, hFind, hName⟩
    exact ⟨row, List.mem_of_find?_eq_some hFind, by simpa using List.find?_some hFind, hName⟩
  · rintro ⟨row, hRow, hId, hName⟩
    cases hFind : t.uidRows.find? fun row => row.rowid = id with
    | none => exact absurd hId (by simpa using List.find?_eq_none.mp hFind row hRow)
    | some row' =>
      have hId' : row'.rowid = id := by simpa using List.find?_some hFind
      have hSame : row' = row := List.inj_on_of_nodup_map hIds
        (List.mem_of_find?_eq_some hFind) hRow (hId'.trans hId.symm)
      exact ⟨row', rfl, hSame ▸ hName⟩

/-- A name that needs quotes has no columns for the probe, and the map stays empty. -/
theorem loadUidMap_quoted {db : Db} {n : String} (h : isPlainIdent n = false) :
    loadUidMap db (some n) = ∅ := by
  simp [loadUidMap, tableColumns, h]

end Weflow
