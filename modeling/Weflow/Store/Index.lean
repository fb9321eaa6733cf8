import Weflow.Lib.Keyset
import Weflow.Db.Catalog

/-!
# Message rows: column probe, bulk load and incremental read

The part of `store/index.rs` that turns the rows of one message table into records. The
content parser and MD5 are code the index only calls; they enter as the functions of
`Codec`, and no result depends on what they compute.

The order of a read is fixed by `MsgCols.orderKey`. When the table has a time and a sequence
column this is the watermark of the extracted row (`orderKey_eq_mark`); without a sequence
column the two differ, the watermark then carries `0` where the order uses `local_id`.
-/

namespace Weflow

/-- The columns found by the probe; `none` where the table has no such column. -/
structure MsgCols where
  local_ : String
  server : Option String
  kind : Option String
  time : Option String
  seq : Option String
  sender : Option String
  real : Option String
  content : Option String
  compress : Option String
deriving DecidableEq, Repr

/-- The values of one row that the index keeps. -/
structure OwnedMsgRow where
  localId : Int
  serverId : Int
  localType : Int
  createTime : Int
  sortSeq : Int
  senderUsername : String
  content : Option (List UInt8)
  compress : Option (List UInt8)
deriving DecidableEq, Repr

/-- The functions the index calls: MD5 in hex, `decode_content` followed by
`parse_message`, and `parse_sns_feed`. -/
structure Codec where
  md5Hex : String → String
  parseMessage : OwnedMsgRow → ParsedMsg
  parseSnsFeed : String → String → String → SnsFeed

/-- The codec of databases whose rows are text rows without content, for running the model
on small inputs; `md5Hex` answers one digest for every name. -/
def Codec.blank (digest : String) : Codec where
  md5Hex _ := digest
  parseMessage _ := .text ""
  parseSnsFeed user tid content := ⟨tid, user, 0, content⟩

/-- Why a table could not be read. -/
inductive ReadError
  | noLocalId
  | noTimeColumn (table : String)
  | sql
deriving DecidableEq, Repr

def ReadError.message : ReadError → String
  | noLocalId => "no local_id column"
  | noTimeColumn table =>
    "message table " ++ table ++ " has no time column: incremental read cannot be ordered"
  | sql => "query failed"

namespace MsgCols

def probe (cols : List String) : Option MsgCols :=
  (pick cols (msgColumns.getD 0 [])).map fun loc =>
    { local_ := loc
      server := pick cols (msgColumns.getD 1 [])
      kind := pick cols (msgColumns.getD 2 [])
      time := pick cols (msgColumns.getD 3 [])
      seq := pick cols (msgColumns.getD 4 [])
      sender := pick cols (msgColumns.getD 5 [])
      real := pick cols (msgColumns.getD 6 [])
      content := cols.find? fun c => eqIgnoreAsciiCase c "message_content"
      compress := cols.find? fun c => eqIgnoreAsciiCase c "compress_content" }

/-- One owned row; a column that is not there reads as `0`, `""` or `None`. -/
def extract (c : MsgCols) (row : MsgRow) (name2id : AList fun _ : Int => String) :
    OwnedMsgRow :=
  let sender := if c.sender.isSome then (row.senderUsername.map trim).getD "" else ""
  { localId := row.localId
    serverId := if c.server.isSome then row.serverId else 0
    localType := if c.kind.isSome then row.localType else 0
    createTime := if c.time.isSome then row.createTime else 0
    sortSeq := if c.seq.isSome then row.sortSeq else 0
    senderUsername :=
      if sender = "" ∧ c.real.isSome then (name2id.lookup row.realSenderId).getD "" else sender
    content := if c.content.isSome then row.messageContent else none
    compress := if c.compress.isSome then row.compressContent else none }

/-- The watermark of the extracted row. -/
def mark (c : MsgCols) (row : MsgRow) : Watermark :=
  ⟨if c.time.isSome then row.createTime else 0, if c.seq.isSome then row.sortSeq else 0,
    row.localId⟩

/-- The tuple of the `ORDER BY`, and of the comparison with the watermark. -/
def orderKey (c : MsgCols) (row : MsgRow) : Watermark :=
  ⟨if c.time.isSome then row.createTime else row.localId,
    if c.seq.isSome then row.sortSeq else row.localId, row.localId⟩

/-- A table with both a time and a sequence column. -/
def Full (c : MsgCols) : Prop := c.time.isSome ∧ c.seq.isSome

instance (c : MsgCols) : Decidable c.Full := inferInstanceAs (Decidable (_ ∧ _))

theorem orderKey_eq_mark {c : MsgCols} (h : c.Full) (row : MsgRow) :
    c.orderKey row = c.mark row := by
  simp only [orderKey, mark, h.1, h.2, if_true]

end MsgCols

/-! ## Records -/

/-- `row_to_record`; `origin` is the table the row was read from. -/
def rowToRecord (x : Codec) (origin : WmKey) (myWxid : String) (contacts : Map Contact)
    (row : OwnedMsgRow) : MessageRecord :=
  let isSend := row.senderUsername ≠ "" ∧ row.senderUsername = myWxid
  let senderName := (((contacts.lookup row.senderUsername).map Contact.displayName).filter
    fun s => s ≠ "" ∧ s ≠ row.senderUsername).getD row.senderUsername
  { localId := row.localId
    serverId := row.serverId
    localType := row.localType
    createTime := row.createTime
    sortSeq := row.sortSeq
    isSend
    senderUsername := row.senderUsername
    senderName
    parsed := x.parseMessage row
    origin }

/-- `table_session`: the session whose name hashes to the suffix, else the suffix. -/
def tableSession (x : Codec) (suffix : String) (s : Store) : String :=
  (s.sessions.keys.find? fun u => (asciiLower suffix).isPrefixOf (x.md5Hex u).toList).getD suffix

def maxWatermark (a b : Watermark) : Watermark := if a < b then b else a

theorem maxWatermark_eq (a b : Watermark) : maxWatermark a b = max a b := by
  simp only [maxWatermark]
  split
  · rename_i h
    exact (max_eq_right h.le).symm
  · rename_i h
    exact (max_eq_left (not_lt.mp h)).symm

/-- `load_message_table`: all rows of one table in order, and the table's watermark. -/
def loadMessageTable (x : Codec) (origin : WmKey) (cols : List String) (rows : List MsgRow)
    (uids : AList fun _ : Int => String) (contacts : Map Contact) (myWxid : String) :
    Except ReadError (List MessageRecord × Watermark) :=
  match MsgCols.probe cols with
  | none => .error .noLocalId
  | some c =>
    let sorted := Keyset.sortBy c.orderKey rows
    .ok (sorted.map fun r => rowToRecord x origin myWxid contacts (c.extract r uids),
      sorted.foldl (fun w r => maxWatermark w (c.mark r)) .zero)

/-- The page size of the incremental read. -/
def readPage : Nat := 5000

/-- The rows `read_new` selects: above the watermark, in order, one page. -/
def newRows (c : MsgCols) (wm : Watermark) (rows : List MsgRow) : List MsgRow :=
  Keyset.page readPage c.orderKey wm rows

/-- `read_new`: one page of the rows of a table after the watermark. -/
def readNew (x : Codec) (origin : WmKey) (cols : List String) (rows : List MsgRow)
    (wm : Watermark) (uids : AList fun _ : Int => String) :
    Except ReadError (List MessageRecord) :=
  match MsgCols.probe cols with
  | none => .error .noLocalId
  | some c =>
    if c.time.isNone then .error (.noTimeColumn origin.table)
    else .ok ((newRows c wm rows).map fun r => rowToRecord x origin "" ∅ (c.extract r uids))

/-! ## What a record keeps of its row -/

@[simp] theorem origin_rowToRecord (x : Codec) (o : WmKey) (me : String) (cs : Map Contact)
    (r : OwnedMsgRow) : (rowToRecord x o me cs r).origin = o := rfl

@[simp] theorem mark_rowToRecord (x : Codec) (o : WmKey) (me : String) (cs : Map Contact)
    (c : MsgCols) (r : MsgRow) (uids : AList fun _ : Int => String) :
    (rowToRecord x o me cs (c.extract r uids)).mark = c.mark r := rfl

/-- The raw columns of a row that no later lookup changes, with the table it stands in. -/
structure SourceRow where
  origin : WmKey
  localId : Int
  serverId : Int
  localType : Int
  createTime : Int
  sortSeq : Int
deriving DecidableEq, Repr

/-- The source row a record was made from. -/
def MessageRecord.sourceRow (r : MessageRecord) : SourceRow :=
  ⟨r.origin, r.localId, r.serverId, r.localType, r.createTime, r.sortSeq⟩

/-- The source row of a table row as the probe reads it. -/
def MsgCols.sourceRow (c : MsgCols) (origin : WmKey) (r : MsgRow) : SourceRow :=
  ⟨origin, r.localId, if c.server.isSome then r.serverId else 0,
    if c.kind.isSome then r.localType else 0, if c.time.isSome then r.createTime else 0,
    if c.seq.isSome then r.sortSeq else 0⟩

@[simp] theorem sourceRow_rowToRecord (x : Codec) (o : WmKey) (me : String) (cs : Map Contact)
    (c : MsgCols) (r : MsgRow) (uids : AList fun _ : Int => String) :
    (rowToRecord x o me cs (c.extract r uids)).sourceRow = c.sourceRow o r := rfl

/-- Every sender is the sender column, or the `Name2Id` entry when that is empty. -/
theorem senderUsername_extract (c : MsgCols) (r : MsgRow)
    (uids : AList fun _ : Int => String) (name : String)
    (hEmpty : c.sender = none ∨ (r.senderUsername.map trim).getD "" = "")
    (hReal : c.real.isSome) (hName : uids.lookup r.realSenderId = some name) :
    (c.extract r uids).senderUsername = name := by
  rcases hEmpty with h | h <;> simp [MsgCols.extract, h, hReal, hName]

/-! ## The watermark of a bulk load -/

theorem le_maxWatermark_left (a b : Watermark) : a ≤ maxWatermark a b := by
  rw [maxWatermark_eq]
  exact le_max_left a b

theorem le_maxWatermark_right (a b : Watermark) : b ≤ maxWatermark a b := by
  rw [maxWatermark_eq]
  exact le_max_right a b

theorem le_foldl_mark (c : MsgCols) (rows : List MsgRow) (w : Watermark) :
    w ≤ rows.foldl (fun w r => maxWatermark w (c.mark r)) w := by
  induction rows generalizing w with
  | nil => exact le_rfl
  | cons r rows ih => exact (le_maxWatermark_left w (c.mark r)).trans (ih _)

theorem mark_le_foldl (c : MsgCols) {rows : List MsgRow} {r : MsgRow} (h : r ∈ rows)
    (w : Watermark) : c.mark r ≤ rows.foldl (fun w r => maxWatermark w (c.mark r)) w := by
  induction rows generalizing w with
  | nil => cases h
  | cons a rows ih =>
    rcases List.mem_cons.mp h with rfl | h
    · exact (le_maxWatermark_right w (c.mark r)).trans (le_foldl_mark c rows _)
    · exact ih h _

/-- The watermark of a bulk load is the zero watermark or the mark of a loaded row. -/
theorem foldl_mark_eq (c : MsgCols) (rows : List MsgRow) (w : Watermark) :
    rows.foldl (fun w r => maxWatermark w (c.mark r)) w = w ∨
      ∃ r ∈ rows, rows.foldl (fun w r => maxWatermark w (c.mark r)) w = c.mark r := by
  induction rows generalizing w with
  | nil => exact Or.inl rfl
  | cons a rows ih =>
    rcases ih (maxWatermark w (c.mark a)) with h | ⟨r, hr, h⟩
    · rw [List.foldl_cons, h]
      unfold maxWatermark
      split
      · exact Or.inr ⟨a, List.mem_cons_self, rfl⟩
      · exact Or.inl rfl
    · exact Or.inr ⟨r, List.mem_cons_of_mem _ hr, h⟩

end Weflow
