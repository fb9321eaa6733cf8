import Weflow.Lib.Runs
import Weflow.Store.Build
import Weflow.Sync.History

/-!
# The sync engine as a state machine

`AccountSync` of `sync/mod.rs` together with the databases it reads. A poll is cut into the
steps between which a foreign writer can commit: the classification, the opening of a file, the
choice of a table, every page, the apply phase, every section reload, and the bookkeeping of
every file. `Pc` says which of them comes next and carries the local variables of `poll_once`.

The environment decides per step what fails (`Io`). Between two calls of `poll_once` the key
map may be replaced. The events of a poll are collected in the order they are published.
-/

namespace Weflow.Sync

/-- A file to look at in this poll. -/
inductive Work
  | messages (f : DbFile)
  | sessions (f : DbFile)
  | sns (f : DbFile)
  | contacts (f : DbFile)
  | groupMeta (f : DbFile)
deriving DecidableEq, Repr

namespace Work

def file : Work → DbFile
  | messages f => f
  | sessions f => f
  | sns f => f
  | contacts f => f
  | groupMeta f => f

/-- The work a changed file is, if it is looked at at all. -/
def ofFile (f : DbFile) : Option Work :=
  match f.kind with
  | .message => some (messages f)
  | .session => some (sessions f)
  | .sns => some (sns f)
  | .contact => some (contacts f)
  | .contactFts => some (groupMeta f)
  | _ => none

end Work

structure AccountSync where
  wxid : String
  store : Store := {}
  published : List Event := []
  pool : LivePool := {}
  keys : KeyMap
  stamps : Map DbStamps := ∅
  stopped : Bool := false

/-- What the environment decides about one step. -/
structure Io where
  access : Access := {}
  readFails : Bool := false
  nowMs : Int := 0

/-! ## Full sync -/

/-- The stamps `full_sync` records for an open file. -/
def seedStamps (f : Source) : DbStamps :=
  ⟨some (f.stamps.main.getD ⟨0, 0⟩), f.stamps.wal⟩

/-- `full_sync`. -/
def AccountSync.fullSync (x : Codec) (a : AccountSync) (w : World) (io : BuildIo) (nowMs : Int) :
    AccountSync :=
  let (pool, store) := buildAllLive x a.wxid a.keys w io a.pool nowMs
  if a.stopped then { a with pool }
  else
    { a with
      pool
      store := store.markIndexBuilt nowMs
      stamps := w.files.foldl
        (fun m f => if pool.isOpen f.rel then m.insert f.rel (seedStamps f) else m) ∅ }

/-! ## Classification -/

/-- An open file is probed for a commit, the others are compared by their stamps. -/
def AccountSync.changed (a : AccountSync) (f : Source) (pragmaOk : Bool) : Bool :=
  if a.pool.isOpen f.rel then (a.pool.foreignCommitPending f pragmaOk).getD true
  else a.stamps.lookup f.rel ≠ some f.stamps

/-- `classify_changed`. -/
def AccountSync.classifyChanged (a : AccountSync) (w : World) (pragmaOk : String → Bool) :
    List Work :=
  (w.files.filter fun f => a.changed f (pragmaOk f.rel)).filterMap fun f => Work.ofFile f.toDbFile

/-! ## Staging rows -/

/-- The local variables of `poll_once`. `opened`, the message files this poll opened itself,
is kept for the statements. -/
structure Poll where
  work : List Work
  newRows : List (String × MessageRecord) := []
  newWatermarks : List (WmKey × Watermark) := []
  revokeRows : List (String × MessageRecord) := []
  readDone : List String := []
  opened : List String := []

/-- `split_local_type`. -/
def splitLocalType (localType : Int) : Int × Option Int :=
  if localType < 0 then (localType, none)
  else
    let base := localType % 4294967296
    let high := localType / 4294967296
    (base, if high ≠ 0 ∧ base = 49 then some high else none)

/-- Rows that are not stored: system messages and withdrawals. -/
def isRevokeRow (r : MessageRecord) : Bool :=
  (splitLocalType r.localType).1 = 10000 || (splitLocalType r.localType).1 = 10002 ||
    r.parsed.revoke.isSome

/-- One row of a page. -/
def Poll.stage (session : String) (k : WmKey) (p : Poll) (r : MessageRecord) : Poll :=
  let p := if isRevokeRow r then { p with revokeRows := p.revokeRows ++ [(session, r)] }
    else { p with newRows := p.newRows ++ [(session, r)] }
  { p with newWatermarks := p.newWatermarks ++ [(k, r.mark)] }

/-! ## Applying -/

/-- `session_type` of an event. -/
def sessionType (s : Store) (session : String) : String :=
  ((s.sessions.lookup session).map fun x => x.kind.asStr).getD "other"

/-- `group_name` of an event. -/
def groupName (s : Store) (session : String) : Option String :=
  (s.sessions.lookup session).map fun x =>
    if x.kind.asStr = "group" then (s.sessionDisplayOpt session).getD "" else ""

/-- The record as it is stored, with the names of the store. -/
def resolveRecord (s : Store) (r : MessageRecord) : MessageRecord :=
  { r with
    senderName := (((s.contacts.lookup r.senderUsername).map Contact.displayName).filter
      fun n => n ≠ "" ∧ n ≠ r.senderUsername).getD r.senderUsername
    isSend := r.senderUsername ≠ "" ∧ r.senderUsername = s.myWxid }

/-- The event for a record that was just pushed. -/
def newMessageEvent (s : Store) (session : String) (r : MessageRecord) : NewMessageEvent :=
  { sessionId := session
    sessionType := sessionType s session
    rawid := toString r.serverId
    sourceName := r.senderName
    groupName := groupName s session
    content := r.parsed.display
    timestamp := r.createTime
    media := r.parsed.media.map PushMedia.ofHint }

/-- One staged row: stored, and announced unless it is our own. -/
def applyNew (se : Store × List Event) (sr : String × MessageRecord) : Store × List Event :=
  let r := resolveRecord se.1 sr.2
  let s := se.1.extendConv sr.1 [r]
  (s, if r.isSend then se.2 else se.2 ++ [.new (newMessageEvent s sr.1 r)])

/-- `find_original`: by server id, else the nearest earlier incoming row within 300 seconds. -/
def findOriginal (s : Store) (session : String) (r : MessageRecord) : Option MessageRecord :=
  match r.parsed.revoke, s.convs.lookup session with
  | some info, some conv =>
    let ids := [info.msgId, info.newMsgId].filterMap id
    let earlier := conv.reverse
    (earlier.find? fun m => m.localId ≠ r.localId ∧ toString m.serverId ∈ ids) <|>
      ((earlier.filter fun m => m.localId < r.localId).takeWhile fun m =>
        r.createTime - m.createTime ≤ 300).find? fun m =>
          m.isSend = false ∧ m.parsed.display ≠ "[消息]"
  | _, _ => none

def revokeEvent (s : Store) (session : String) (r : MessageRecord) : RevokeEvent :=
  let original := findOriginal s session r
  let rawid := ((original.map fun o => toString o.serverId) <|>
    r.parsed.revoke.bind RevokeInfo.msgId).getD ""
  let originalContent := (original.map fun o => o.parsed.display).getD ""
  { sessionId := session
    sessionType := sessionType s session
    rawid
    sourceName := r.senderName
    groupName := groupName s session
    content :=
      if originalContent = "" then
        (r.parsed.revoke.bind RevokeInfo.replaceMsg).getD "对方撤回了一条消息"
      else "对方撤回了一条消息（rawid：" ++ rawid ++ "） 内容为\"" ++ originalContent ++ "\""
    timestamp := r.createTime }

/-- The announcements of the withdrawn rows; nothing is stored. -/
def revokeEvents (s : Store) (rows : List (String × MessageRecord)) : List Event :=
  (rows.filter fun sr => sr.2.parsed.revoke.isSome ∧ sr.2.createTime ≠ 0).map fun sr =>
    .revoke (revokeEvent s sr.1 sr.2)

/-- Phase 2 on the store, with the events it publishes. -/
def Poll.applyTo (p : Poll) (s : Store) : Store × List Event :=
  let s := p.newWatermarks.foldl (fun s kw => s.setWatermark kw.1 kw.2) s
  let se := p.newRows.foldl applyNew (s, [])
  (se.1, se.2 ++ revokeEvents se.1 p.revokeRows)

/-! ## Section reloads -/

/-- Phase 3 for one file that could be accessed. -/
def reloadSection (x : Codec) (w : Work) (db : Db) (s : Store) : Store :=
  match w with
  | .messages _ => s
  | .sessions _ => loadSessions db s
  | .contacts _ => loadChatroomMeta db (loadContacts db s)
  | .groupMeta _ => loadGroupCards db s
  | .sns _ => loadSns x db s

/-! ## The machine -/

/-- The message file being read: its remaining tables, and whether every table so far was
read to its end. -/
structure Reading where
  rel : String
  name2id : Option String
  tables : List (String × String)
  drained : Bool

/-- What a poll does next. -/
inductive Pc
  | idle
  /-- phase 1: the next file -/
  | files (p : Poll) (todo : List Work)
  /-- phase 1: the next table of a file -/
  | tables (p : Poll) (todo : List Work) (r : Reading)
  /-- phase 1: the next page of a table, after `pages` pages, from the cursor `wm` -/
  | pages (p : Poll) (todo : List Work) (r : Reading) (t : String × String) (wm : Watermark)
      (pages : Nat)
  /-- phase 2 -/
  | apply (p : Poll)
  /-- phase 3 -/
  | reload (p : Poll) (counts : Nat × Nat) (todo : List Work)
  /-- phase 4 -/
  | book (p : Poll) (counts : Nat × Nat) (todo : List Work)

structure State where
  world : World
  sync : AccountSync
  pc : Pc
  result : Except ReadError (Nat × Nat) := .ok (0, 0)

/-- `READ_MAX_PAGES`. -/
def readMaxPages : Nat := 64

/-- `applied_new` and `applied_revoke`: the announcements of each kind. -/
def appliedCounts (events : List Event) : Nat × Nat :=
  (events.countP fun | .new _ => true | _ => false,
    events.countP fun | .revoke _ => true | _ => false)

namespace State

/-- The next file of phase 1. -/
def stepFiles (s : State) (io : Io) (p : Poll) : List Work → State
  | [] => { s with pc := .apply p }
  | .messages f :: todo =>
    match s.sync.keys f.rel, s.world.source? f.rel with
    | some key, some src =>
      let wasOpen := s.sync.pool.isOpen f.rel
      match s.sync.pool.getOrOpen src key io.access with
      | (pool, some .wrongKey) =>
        { s with sync := { s.sync with pool := pool.markKeyless f.rel }, pc := .files p todo }
      | (pool, some _) => { s with sync := { s.sync with pool }, pc := .files p todo }
      | (pool, none) =>
        { s with
          sync := { s.sync with pool }
          pc := .tables { p with opened := if wasOpen then p.opened else f.rel :: p.opened } todo
            ⟨f.rel, name2idTable src.db, messageTables src.db, true⟩ }
    | _, _ => { s with pc := .files p todo }
  | _ :: todo => { s with pc := .files p todo }

/-- The next table of a file, or the end of the file. -/
def stepTables (s : State) (p : Poll) (todo : List Work) (r : Reading) : State :=
  match r.tables with
  | [] =>
    { s with
      pc := .files { p with readDone := if r.drained then p.readDone ++ [r.rel] else p.readDone }
        todo }
  | t :: ts =>
    { s with
      pc := .pages p todo { r with tables := ts } t (s.sync.store.watermark ⟨r.rel, t.1⟩) 0 }

/-- The rows one page holds, or why it cannot be read. -/
def readPageOf (x : Codec) (s : State) (io : Io) (r : Reading) (t : String × String)
    (wm : Watermark) : Except ReadError (List MessageRecord) :=
  match s.world.source? r.rel with
  | none => .error .sql
  | some src =>
    if io.readFails then .error .sql
    else readNew x ⟨r.rel, t.1⟩ (tableColumns src.db t.1) (src.db.msgRows t.1) wm
      (loadUidMap src.db r.name2id)

/-- One page of a table. An error ends the poll. -/
def stepPage (x : Codec) (s : State) (io : Io) (p : Poll) (todo : List Work) (r : Reading)
    (t : String × String) (wm : Watermark) (pages : Nat) : State :=
  match readPageOf x s io r t wm with
  | .error e => { s with pc := .idle, result := .error e }
  | .ok rows =>
    let p := rows.foldl (Poll.stage (tableSession x t.2 s.sync.store) ⟨r.rel, t.1⟩) p
    if rows.length < readPage then { s with pc := .tables p todo r }
    else if readMaxPages ≤ pages + 1 then
      { s with pc := .tables p todo { r with drained := false } }
    else
      { s with
        pc := .pages p todo r t (Keyset.cursorAfter MessageRecord.mark wm rows) (pages + 1) }

/-- Phase 2. -/
def stepApply (s : State) (p : Poll) : State :=
  if s.sync.stopped then { s with pc := .idle, result := .ok (0, 0) }
  else
    let (store, events) := p.applyTo s.sync.store
    { s with
      sync := { s.sync with store, published := s.sync.published ++ events }
      pc := .reload p (appliedCounts events) p.work }

/-- One item of phase 3. -/
def stepReload (x : Codec) (s : State) (io : Io) (p : Poll) (counts : Nat × Nat)
    (todo : List Work) : State :=
  match todo with
  | [] => { s with pc := .book p counts p.work }
  | .messages _ :: todo =>
    if s.sync.stopped then { s with pc := .idle, result := .ok counts }
    else { s with pc := .reload p counts todo }
  | w :: todo =>
    if s.sync.stopped then { s with pc := .idle, result := .ok counts }
    else
      match s.sync.keys w.file.rel, s.world.source? w.file.rel with
      | some key, some src =>
        let (pool, err) := s.sync.pool.getOrOpen src key io.access
        { s with
          sync :=
            { s.sync with
              pool
              store := if err = none then reloadSection x w src.db s.sync.store else s.sync.store }
          pc := .reload p counts todo }
      | _, _ => { s with pc := .reload p counts todo }

/-- One item of phase 4: the stamps and the baseline of a file that was read. -/
def stepBook (s : State) (io : Io) (p : Poll) (counts : Nat × Nat) (todo : List Work) : State :=
  match todo with
  | [] =>
    { s with
      sync := { s.sync with store := s.sync.store.markIndexBuilt io.nowMs }
      pc := .idle
      result := .ok counts }
  | w :: todo =>
    if w.file.rel ∈ p.readDone then
      match s.world.source? w.file.rel with
      | some src =>
        { s with
          sync :=
            { s.sync with
              stamps := s.sync.stamps.insert w.file.rel src.stamps
              pool := s.sync.pool.advanceDataVersion src io.access.pragmaOk }
          pc := .book p counts todo }
      | none => { s with pc := .book p counts todo }
    else { s with pc := .book p counts todo }

/-- The next step of the running poll. -/
def tick (x : Codec) (s : State) (io : Io) : Option State :=
  match s.pc with
  | .idle => none
  | .files p todo => some (s.stepFiles io p todo)
  | .tables p todo r => some (s.stepTables p todo r)
  | .pages p todo r t wm pages => some (s.stepPage x io p todo r t wm pages)
  | .apply p => some (s.stepApply p)
  | .reload p counts todo => some (s.stepReload x io p counts todo)
  | .book p counts todo => some (s.stepBook io p counts todo)

/-- A call of `poll_once` up to the classification. -/
def poll (s : State) (pragmaOk : String → Bool) : State :=
  if s.sync.stopped then { s with result := .ok (0, 0) }
  else
    let work := s.sync.classifyChanged s.world pragmaOk
    if work = [] then { s with result := .ok (0, 0) }
    else { s with pc := .files { work } work }

end State

/-- Replace the content of a file by a commit. -/
def World.commit (w : World) (rel : String) (stamps : DbStamps) (db : Db) : World where
  files := w.files.map fun f =>
    if f.rel = rel then { f with stamps, db, version := f.version + 1 } else f
  rels_nodup := by
    have hRels : (w.files.map fun f => if f.rel = rel then
        { f with stamps, db, version := f.version + 1 } else f).map (fun f => f.rel) =
        w.files.map fun f => f.rel := by
      rw [List.map_map]
      apply List.map_congr_left
      intro f _
      simp only [Function.comp_apply]
      split <;> rfl
    rw [hRels]
    exact w.rels_nodup

/-- What can happen. -/
inductive Op
  /-- a foreign writer commits to a file -/
  | commit (rel : String) (stamps : DbStamps) (db : Db)
  /-- the registered keys change, between two polls -/
  | setKeys (keys : KeyMap)
  /-- the account is deregistered -/
  | stop
  /-- `poll_once` is called -/
  | poll (pragmaOk : String → Bool)
  /-- the running poll does its next step -/
  | tick (io : Io)

def step (x : Codec) (s : State) : Op → Option State
  | .commit rel stamps db => some { s with world := World.commit s.world rel stamps db }
  | .setKeys keys =>
    match s.pc with
    | .idle => some { s with sync := { s.sync with keys } }
    | _ => none
  | .stop => some { s with sync := { s.sync with stopped := true } }
  | .poll pragmaOk =>
    match s.pc with
    | .idle => some (s.poll pragmaOk)
    | _ => none
  | .tick io => s.tick x io

/-! ## What a step leaves alone -/

namespace State

variable (x : Codec) (s : State) (io : Io) (p : Poll) (counts : Nat × Nat) (todo : List Work)

@[simp] theorem world_stepFiles : (s.stepFiles io p todo).world = s.world := by
  unfold stepFiles
  repeat' split
  all_goals rfl

@[simp] theorem world_stepTables (r : Reading) : (s.stepTables p todo r).world = s.world := by
  unfold stepTables
  split <;> rfl

@[simp] theorem world_stepPage (r : Reading) (t : String × String) (wm : Watermark) (n : Nat) :
    (s.stepPage x io p todo r t wm n).world = s.world := by
  unfold stepPage
  split
  · rfl
  · dsimp only
    repeat' split
    all_goals rfl

@[simp] theorem world_stepApply : (s.stepApply p).world = s.world := by
  unfold stepApply
  split <;> rfl

@[simp] theorem world_stepReload : (s.stepReload x io p counts todo).world = s.world := by
  unfold stepReload
  repeat' split
  all_goals rfl

@[simp] theorem world_stepBook : (s.stepBook io p counts todo).world = s.world := by
  unfold stepBook
  repeat' split
  all_goals rfl

@[simp] theorem world_poll (pragmaOk : String → Bool) : (s.poll pragmaOk).world = s.world := by
  unfold poll
  dsimp only
  repeat' split
  all_goals rfl

variable {x s io}

theorem world_tick {t : State} (h : s.tick x io = some t) : t.world = s.world := by
  unfold tick at h
  split at h <;> cases h <;> simp

end State

/-- Only a commit changes the files. -/
theorem world_step {x : Codec} {s t : State} {op : Op} (h : step x s op = some t) :
    t.world = match op with
      | .commit rel stamps db => World.commit s.world rel stamps db
      | _ => s.world := by
  cases op with
  | commit rel stamps db =>
    obtain rfl := Option.some.inj h
    rfl
  | stop =>
    obtain rfl := Option.some.inj h
    rfl
  | tick io => exact State.world_tick h
  | setKeys keys =>
    simp only [step] at h
    split at h <;> cases h
    rfl
  | poll pragmaOk =>
    simp only [step] at h
    split at h <;> cases h
    simp

/-- The state after the full sync of a fresh engine. -/
def start (x : Codec) (wxid : String) (keys : KeyMap) (w : World) (io : BuildIo) (nowMs : Int) :
    State :=
  { world := w
    sync := AccountSync.fullSync x { wxid, keys } w io nowMs
    pc := .idle }

end Weflow.Sync
