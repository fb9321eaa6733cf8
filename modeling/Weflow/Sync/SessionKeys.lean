import Mathlib.Data.Set.Function
import Weflow.Sync.Pending

/-!
# One conversation key per message table

The key of a conversation is resolved from the sessions of the moment (`tableSession`), and a
row that is stored keeps its key. Sessions are added by the reload of phase 3 only, after the
rows of the same poll are applied. So the key of a table stays the same along a run as long as
no reload adds a session whose table already has rows in the store (`FirstSeen`); a session and
its first message seen by one poll are enough to break it: `first_message_keeps_its_suffix`.
-/

namespace Weflow

/-- The digest of the name starts with the suffix of a message table. -/
def HashesTo (x : Codec) (suffix u : String) : Prop :=
  (asciiLower suffix).isPrefixOf (x.md5Hex u).toList = true

instance (x : Codec) (suffix u : String) : Decidable (HashesTo x suffix u) :=
  inferInstanceAs (Decidable (_ = _))

/-- The digests of the names differ in the digits that the shortest suffix keeps. -/
def PrefixesDiffer (x : Codec) (names : Set String) : Prop :=
  names.InjOn fun u => (x.md5Hex u).toList.take 16

/-- All rows of one table are stored under one key, and under the session's name if a session
of that table is known. -/
def OneKey (x : Codec) (s : Store) : Prop :=
  ∀ table suffix, msgSuffix table = some suffix → ∃ key,
    (∀ u, ∀ r ∈ s.conv u, msgSuffix r.origin.table = some suffix → u = key) ∧
      ∀ v ∈ s.sessions, HashesTo x suffix v → key = v

/-- No stored row belongs to the table of a session that the database is the first to list. -/
def FirstSeen (x : Codec) (s : Store) (db : Db) : Prop :=
  ∀ y ∈ listedSessions db, y.username ∉ s.sessions → ∀ u, ∀ r ∈ s.conv u, ∀ suffix,
    msgSuffix r.origin.table = some suffix → ¬HashesTo x suffix y.username

/-- Every stored row is under the key that its table resolves to. -/
structure Keyed (x : Codec) (names : Set String) (s : Store) : Prop where
  known : ∀ u ∈ s.sessions, u ∈ names
  rows : ∀ u, ∀ r ∈ s.conv u, ∀ suffix, msgSuffix r.origin.table = some suffix →
    u = tableSession x suffix s

/-! ## Resolving a table -/

section

variable {x : Codec} {names : Set String} {s s' : Store} {table suffix u v : String}

theorem length_msgSuffix (h : msgSuffix table = some suffix) : 16 ≤ (asciiLower suffix).length := by
  unfold msgSuffix at h
  split at h
  · split at h
    · rename_i hHex
      obtain rfl := Option.some.inj h
      simp only [asciiLower, String.toList_ofList, List.length_map]
      omega
    · cases h
  · cases h

/-- A table belongs to at most one of the names. -/
theorem eq_of_hashesTo (hNames : PrefixesDiffer x names) (hSuffix : msgSuffix table = some suffix)
    (hu : u ∈ names) (hv : v ∈ names) (hashU : HashesTo x suffix u) (hashV : HashesTo x suffix v) :
    u = v := by
  have hTake : ∀ w, HashesTo x suffix w →
      (x.md5Hex w).toList.take 16 = (asciiLower suffix).take 16 := by
    intro w hw
    obtain ⟨rest, hRest⟩ := List.isPrefixOf_iff_prefix.mp hw
    rw [← hRest, List.take_append_of_le_length (length_msgSuffix hSuffix)]
  exact hNames hu hv ((hTake u hashU).trans (hTake v hashV).symm)

theorem tableSession_congr (h : s'.sessions.keys = s.sessions.keys) (suffix : String) :
    tableSession x suffix s' = tableSession x suffix s := by
  rw [tableSession, h, tableSession]

/-- The session of the table, if it is known. -/
theorem tableSession_of_hashesTo (hNames : PrefixesDiffer x names)
    (hKnown : ∀ u ∈ s.sessions, u ∈ names) (hSuffix : msgSuffix table = some suffix)
    (hu : u ∈ s.sessions) (hash : HashesTo x suffix u) : tableSession x suffix s = u := by
  unfold tableSession
  cases hFind : s.sessions.keys.find? fun u => (asciiLower suffix).isPrefixOf (x.md5Hex u).toList with
  | none => exact absurd hash (List.find?_eq_none.mp hFind u hu)
  | some v =>
    have hv : v ∈ s.sessions := List.mem_of_find?_eq_some hFind
    have hashV : HashesTo x suffix v := by
      have hFound := List.find?_some hFind
      exact hFound
    exact eq_of_hashesTo hNames hSuffix (hKnown v hv) (hKnown u hu) hashV hash

/-- The suffix itself, if no session of the table is known. -/
theorem tableSession_of_not (h : ∀ u ∈ s.sessions, ¬HashesTo x suffix u) :
    tableSession x suffix s = suffix := by
  have hFind : (s.sessions.keys.find? fun u =>
      (asciiLower suffix).isPrefixOf (x.md5Hex u).toList) = none :=
    List.find?_eq_none.mpr h
  rw [tableSession, hFind, Option.getD_none]

theorem mem_sessions_loadSessions {db : Db} : u ∈ (loadSessions db s).sessions ↔
    u ∈ s.sessions ∨ ∃ y ∈ listedSessions db, y.username = u :=
  Map.mem_foldl_insert Session.username id _ _ _

/-- A reload that adds no session of the table leaves its key. -/
theorem tableSession_loadSessions (hNames : PrefixesDiffer x names) {db : Db}
    (hKnown : ∀ u ∈ (loadSessions db s).sessions, u ∈ names)
    (hSuffix : msgSuffix table = some suffix)
    (hNew : ∀ y ∈ listedSessions db, y.username ∉ s.sessions → ¬HashesTo x suffix y.username) :
    tableSession x suffix (loadSessions db s) = tableSession x suffix s := by
  by_cases h : ∃ u ∈ s.sessions, HashesTo x suffix u
  · obtain ⟨u, hu, hash⟩ := h
    have hKept : u ∈ (loadSessions db s).sessions := mem_sessions_loadSessions.mpr (.inl hu)
    have hBefore : ∀ v ∈ s.sessions, v ∈ names := fun v hv =>
      hKnown v (mem_sessions_loadSessions.mpr (.inl hv))
    rw [tableSession_of_hashesTo hNames hKnown hSuffix hKept hash,
      tableSession_of_hashesTo hNames hBefore hSuffix hu hash]
  · have hNot : ∀ u ∈ s.sessions, ¬HashesTo x suffix u := fun u hu hash => h ⟨u, hu, hash⟩
    rw [tableSession_of_not hNot, tableSession_of_not]
    intro u hu
    rcases mem_sessions_loadSessions.mp hu with hu | ⟨y, hy, rfl⟩
    · exact hNot u hu
    · by_cases hOld : y.username ∈ s.sessions
      · exact hNot _ hOld
      · exact hNew y hy hOld

end

/-! ## Keyed stores -/

namespace Keyed

variable {x : Codec} {names : Set String} {s s' : Store}

theorem oneKey (h : Keyed x names s) (hNames : PrefixesDiffer x names) : OneKey x s := by
  intro table suffix hSuffix
  refine ⟨tableSession x suffix s, fun u r hr hTable => h.rows u r hr suffix hTable, ?_⟩
  intro v hv hash
  exact tableSession_of_hashesTo hNames h.known hSuffix hv hash

theorem congr (h : Keyed x names s) (hConvs : s'.convs = s.convs)
    (hSessions : s'.sessions.keys = s.sessions.keys) : Keyed x names s' where
  known u hu := by
    change u ∈ s'.sessions.keys at hu
    rw [hSessions] at hu
    exact h.known u hu
  rows u r hr suffix hSuffix := by
    rw [Store.conv, hConvs] at hr
    rw [tableSession_congr hSessions]
    exact h.rows u r hr suffix hSuffix

theorem setWatermark (h : Keyed x names s) (k : WmKey) (wm : Watermark) :
    Keyed x names (s.setWatermark k wm) := h.congr rfl rfl

/-- Rows stored under the key of their table. -/
theorem extendConv (h : Keyed x names s) {key : String} {rs : List MessageRecord}
    (hRows : ∀ r ∈ rs, ∀ suffix, msgSuffix r.origin.table = some suffix →
      key = tableSession x suffix s) : Keyed x names (s.extendConv key rs) where
  known := h.known
  rows u r hr suffix hSuffix := by
    change u = tableSession x suffix s
    by_cases hKey : u = key
    · subst hKey
      rw [Store.conv_extendConv] at hr
      rcases List.mem_append.mp hr with hr | hr
      · exact h.rows u r hr suffix hSuffix
      · exact hRows r hr suffix hSuffix
    · rw [Store.conv_extendConv_ne _ _ hKey] at hr
      exact h.rows u r hr suffix hSuffix

theorem loadSessions (h : Keyed x names s) (hNames : PrefixesDiffer x names) {db : Db}
    (hListed : ∀ y ∈ listedSessions db, y.username ∈ names) (hFirst : FirstSeen x s db) :
    Keyed x names (loadSessions db s) := by
  have hKnown : ∀ u ∈ (Weflow.loadSessions db s).sessions, u ∈ names := by
    intro u hu
    rcases mem_sessions_loadSessions.mp hu with hu | ⟨y, hy, rfl⟩
    · exact h.known u hu
    · exact hListed y hy
  refine ⟨hKnown, fun u r hr suffix hSuffix => ?_⟩
  rw [tableSession_loadSessions hNames hKnown hSuffix fun y hy hOld =>
    hFirst y hy hOld u r hr suffix hSuffix]
  exact h.rows u r hr suffix hSuffix

/-! ## The build -/

theorem scanTable (h : Keyed x names s) (me : String) (contacts : Map Contact)
    (loadFails : WmKey → Bool) (f : Source) {t : String × String}
    (hTable : msgSuffix t.1 = some t.2) :
    Keyed x names (scanTable x me contacts loadFails f s t) := by
  rcases scanTable_cases x me contacts loadFails f s t with ⟨c, -, -, hEq⟩ | ⟨-, hEq⟩
  · rw [hEq]
    refine (h.extendConv fun r hr suffix hSuffix => ?_).setWatermark _ _
    obtain ⟨row, -, rfl⟩ := List.mem_map.mp hr
    rw [origin_rowToRecord] at hSuffix
    rw [Option.some.inj (hTable.symm.trans hSuffix)]
  · rw [hEq]
    exact h

theorem of_convs_empty (hConvs : s.convs = ∅) (hKnown : ∀ u ∈ s.sessions, u ∈ names) :
    Keyed x names s where
  known := hKnown
  rows u r hr := by
    rw [Store.conv, hConvs] at hr
    cases hr

/-- However a build ends, its store is keyed: it reads the sessions before the messages. -/
theorem buildAllLive {me : String} {keys : KeyMap} {w : World} {io : BuildIo} {pool : LivePool}
    (hListed : ∀ f ∈ w.files, f.kind = .session →
      ∀ y ∈ listedSessions f.db, y.username ∈ names) (nowMs : Int) :
    Keyed x names (buildAllLive x me keys w io pool nowMs).2 := by
  refine store_buildAllLive (Q := fun s => s.convs = ∅ ∧ ∀ u ∈ s.sessions.keys, u ∈ names)
    (fun s s' hs hConvs hSessions => ⟨hConvs.trans hs.1, by rw [hSessions]; exact hs.2⟩)
    (fun s s' hs => hs.congr) ⟨rfl, fun u hu => by cases hu⟩
    (fun f hf hKind s hs => ⟨hs.1, fun u hu => ?_⟩) (fun s hs => of_convs_empty hs.1 hs.2)
    (fun f _ t ht contacts s hs => ?_) nowMs
  · rcases mem_sessions_loadSessions.mp hu with hu | ⟨y, hy, rfl⟩
    · exact hs.2 u hu
    · exact hListed f hf hKind y hy
  · exact hs.scanTable me contacts io.loadFails f ((messageTables_eq f.db).mp ht).2

end Keyed

namespace Sync

/-- The rows the running poll has staged. -/
def Pc.newRows : Pc → List (String × MessageRecord)
  | .files p _ | .tables p _ _ | .pages p _ _ _ _ _ | .apply p => p.newRows
  | _ => []

/-- The tables of the file being read. -/
def Pc.tablesLeft : Pc → List (String × String)
  | .tables _ _ r => r.tables
  | .pages _ _ r t _ _ => t :: r.tables
  | _ => []

/-- The sessions a poll reads are among the names. -/
def SessionsIn (names : Set String) (s : State) : Op → Prop
  | .tick io => ∀ f db, s.reloads io = some (.sessions f, db) →
    ∀ y ∈ listedSessions db, y.username ∈ names
  | _ => True

/-- No poll adds a session whose table already has rows in the store. -/
def SessionsFirst (x : Codec) (s : State) : Op → Prop
  | .tick io => ∀ f db, s.reloads io = some (.sessions f, db) → FirstSeen x s.sync.store db
  | _ => True

/-- Stored and staged rows are under the key of their table. -/
structure KeyInv (x : Codec) (names : Set String) (store : Store) (pc : Pc) : Prop where
  keyed : Keyed x names store
  staged : ∀ sr ∈ pc.newRows, ∀ suffix, msgSuffix sr.2.origin.table = some suffix →
    sr.1 = tableSession x suffix store
  tables : ∀ t ∈ pc.tablesLeft, msgSuffix t.1 = some t.2

section

variable {x : Codec} {names : Set String}

/-! ## Steps -/

/-- Outside phase 1 only the stored rows count. -/
theorem keyInv_of_keyed {store : Store} {pc : Pc} (h : Keyed x names store)
    (hRows : pc.newRows = []) (hTables : pc.tablesLeft = []) : KeyInv x names store pc where
  keyed := h
  staged sr hsr := by rw [hRows] at hsr; cases hsr
  tables t ht := by rw [hTables] at ht; cases ht

variable {s : State} {io : Io} {p : Poll} {todo : List Work}

theorem keyInv_stepFiles (h : KeyInv x names s.sync.store (.files p todo)) :
    KeyInv x names (s.stepFiles io p todo).sync.store (s.stepFiles io p todo).pc := by
  unfold State.stepFiles
  repeat' split
  · exact ⟨h.keyed, h.staged, h.tables⟩
  · exact ⟨h.keyed, h.staged, h.tables⟩
  · exact ⟨h.keyed, h.staged, h.tables⟩
  · refine ⟨h.keyed, h.staged, fun t ht => ?_⟩
    exact ((messageTables_eq _).mp ht).2
  · exact ⟨h.keyed, h.staged, h.tables⟩
  · exact ⟨h.keyed, h.staged, h.tables⟩

theorem keyInv_stepTables {r : Reading} (h : KeyInv x names s.sync.store (.tables p todo r)) :
    KeyInv x names (s.stepTables p todo r).sync.store (s.stepTables p todo r).pc := by
  unfold State.stepTables
  split
  · exact ⟨h.keyed, h.staged, fun t ht => nomatch ht⟩
  · rename_i t ts hTables
    refine ⟨h.keyed, h.staged, fun t' ht' => h.tables t' ?_⟩
    change t' ∈ r.tables
    rw [hTables]
    exact ht'

/-- The rows of a page are staged under the key of their table. -/
theorem staged_page {r : Reading} {t : String × String} {wm : Watermark} {n : Nat}
    {rows : List MessageRecord} (h : KeyInv x names s.sync.store (.pages p todo r t wm n))
    (hPage : s.readPageOf x io r t wm = .ok rows) :
    ∀ sr ∈ (p.stageAll (tableSession x t.2 s.sync.store) ⟨r.rel, t.1⟩ rows).newRows,
      ∀ suffix, msgSuffix sr.2.origin.table = some suffix →
        sr.1 = tableSession x suffix s.sync.store := by
  intro sr hsr suffix hSuffix
  rw [newRows_stageAll] at hsr
  rcases List.mem_append.mp hsr with hsr | hsr
  · exact h.staged sr hsr suffix hSuffix
  · obtain ⟨row, hRow, rfl⟩ := List.mem_map.mp hsr
    obtain ⟨f, c, -, -, -, rfl⟩ := readPageOf_ok hPage
    obtain ⟨m, -, rfl⟩ := List.mem_map.mp (List.mem_of_mem_filter hRow)
    have hTable : msgSuffix t.1 = some t.2 := h.tables t List.mem_cons_self
    rw [origin_rowToRecord] at hSuffix
    rw [Option.some.inj (hTable.symm.trans hSuffix)]

theorem keyInv_stepPage {r : Reading} {t : String × String} {wm : Watermark} {n : Nat}
    (h : KeyInv x names s.sync.store (.pages p todo r t wm n)) :
    KeyInv x names (s.stepPage x io p todo r t wm n).sync.store
      (s.stepPage x io p todo r t wm n).pc := by
  have hRest : ∀ t' ∈ r.tables, msgSuffix t'.1 = some t'.2 := fun t' ht' =>
    h.tables t' (List.mem_cons_of_mem _ ht')
  unfold State.stepPage
  split
  · exact keyInv_of_keyed h.keyed rfl rfl
  · rename_i rows hPage
    dsimp only
    repeat' split
    · exact ⟨h.keyed, staged_page h hPage, hRest⟩
    · exact ⟨h.keyed, staged_page h hPage, hRest⟩
    · exact ⟨h.keyed, staged_page h hPage, h.tables⟩

/-- Storing rows that are staged under their keys. -/
theorem keyed_foldl_applyNew {rows : List (String × MessageRecord)} {se : Store × List Event}
    (h : Keyed x names se.1)
    (hRows : ∀ sr ∈ rows, ∀ suffix, msgSuffix sr.2.origin.table = some suffix →
      sr.1 = tableSession x suffix se.1) : Keyed x names (rows.foldl applyNew se).1 := by
  induction rows generalizing se with
  | nil => exact h
  | cons sr rows ih =>
    refine ih (h.extendConv fun r hr suffix hSuffix => ?_) fun sr' hsr' =>
      hRows sr' (List.mem_cons_of_mem _ hsr')
    obtain rfl := List.mem_singleton.mp hr
    exact hRows sr List.mem_cons_self suffix hSuffix

theorem keyInv_stepApply (h : KeyInv x names s.sync.store (.apply p)) :
    KeyInv x names (s.stepApply p).sync.store (s.stepApply p).pc := by
  unfold State.stepApply
  split
  · exact keyInv_of_keyed h.keyed rfl rfl
  · have hMarks : Keyed x names (setWatermarks s.sync.store p.newWatermarks) :=
      h.keyed.congr (convs_setWatermarks _ _) (by rw [sessions_setWatermarks])
    refine keyInv_of_keyed (keyed_foldl_applyNew hMarks fun sr hsr suffix hSuffix => ?_) rfl rfl
    have hSame : tableSession x suffix (setWatermarks s.sync.store p.newWatermarks) =
        tableSession x suffix s.sync.store := tableSession_congr (by rw [sessions_setWatermarks]) _
    exact (h.staged sr hsr suffix hSuffix).trans hSame.symm

/-- Only the sessions reload changes the sessions, and none of the reloads a conversation. -/
theorem keyed_reloadSection (hNames : PrefixesDiffer x names) {w : Work} {db : Db} {store : Store}
    (h : Keyed x names store)
    (hSessions : ∀ f, w = .sessions f → (∀ y ∈ listedSessions db, y.username ∈ names) ∧
      FirstSeen x store db) : Keyed x names (reloadSection x w db store) := by
  have hConvs := (convs_reloadSection x w db store).1
  cases w with
  | sessions f => exact h.loadSessions hNames (hSessions f rfl).1 (hSessions f rfl).2
  | messages f => exact h
  | contacts f =>
    exact h.congr hConvs (by
      rw [reloadSection, (loadChatroomMeta_frame db (loadContacts db store)).2.2.1]; rfl)
  | groupMeta f => exact h.congr hConvs (by rw [reloadSection, (loadGroupCards_frame db store).2.2.1])
  | sns f => exact h.congr hConvs (by rw [reloadSection, (loadSns_frame db store x).2.2])

theorem keyInv_stepReload (hNames : PrefixesDiffer x names) {counts : Nat × Nat}
    (hPc : s.pc = .reload p counts todo) (h : Keyed x names s.sync.store)
    (hSessions : ∀ f db, s.reloads io = some (.sessions f, db) →
      (∀ y ∈ listedSessions db, y.username ∈ names) ∧ FirstSeen x s.sync.store db) :
    KeyInv x names (s.stepReload x io p counts todo).sync.store
      (s.stepReload x io p counts todo).pc := by
  have hStore : Keyed x names (s.stepReload x io p counts todo).sync.store := by
    rw [store_stepReload hPc]
    cases hReloads : s.reloads io with
    | none => exact h
    | some wdb => exact keyed_reloadSection hNames h fun f hw => hSessions f wdb.2 (hw ▸ hReloads)
  refine keyInv_of_keyed hStore ?_ ?_
  all_goals
    unfold State.stepReload
    repeat' split
    all_goals rfl

theorem keyInv_stepBook {counts : Nat × Nat} (h : Keyed x names s.sync.store) :
    KeyInv x names (s.stepBook io p counts todo).sync.store (s.stepBook io p counts todo).pc := by
  unfold State.stepBook
  repeat' split
  · exact keyInv_of_keyed (h.congr rfl rfl) rfl rfl
  all_goals exact keyInv_of_keyed h rfl rfl

/-- Every step that adds sessions before their rows keeps the keys. -/
theorem keyInv_step (hNames : PrefixesDiffer x names) {t : State} {op : Op}
    (h : KeyInv x names s.sync.store s.pc) (hIn : SessionsIn names s op)
    (hFirst : SessionsFirst x s op) (hStep : step x s op = some t) :
    KeyInv x names t.sync.store t.pc := by
  cases op with
  | commit rel stamps db =>
    obtain rfl := Option.some.inj hStep
    exact h
  | stop =>
    obtain rfl := Option.some.inj hStep
    exact h
  | setKeys keys =>
    simp only [step] at hStep
    split at hStep <;> cases hStep
    exact h
  | poll pragmaOk =>
    simp only [step] at hStep
    split at hStep
    · cases hStep
      unfold State.poll
      dsimp only
      repeat' split
      · exact h
      · exact h
      · exact keyInv_of_keyed h.keyed rfl rfl
    · cases hStep
  | tick io =>
    have hTick : s.tick x io = some t := hStep
    unfold State.tick at hTick
    split at hTick
    · cases hTick
    all_goals
      rename_i hPc
      obtain rfl := Option.some.inj hTick
      rw [hPc] at h
    · exact keyInv_stepFiles h
    · exact keyInv_stepTables h
    · exact keyInv_stepPage h
    · exact keyInv_stepApply h
    · exact keyInv_stepReload hNames hPc h.keyed fun f db h => ⟨hIn f db h, hFirst f db h⟩
    · exact keyInv_stepBook h.keyed

theorem keyInv_start {wxid : String} {keys : KeyMap} {w : World} {bio : BuildIo} {nowMs : Int}
    (hListed : ∀ f ∈ w.files, f.kind = .session →
      ∀ y ∈ listedSessions f.db, y.username ∈ names) :
    KeyInv x names (start x wxid keys w bio nowMs).sync.store (start x wxid keys w bio nowMs).pc := by
  refine keyInv_of_keyed ?_ rfl rfl
  have hBuild : Keyed x names (buildAllLive x wxid keys w bio {} nowMs).2 :=
    Keyed.buildAllLive hListed nowMs
  exact hBuild.congr rfl rfl

/-- **One key per table.** After a full sync and any steps of polls, commits and key changes, in
which no reload adds a session whose table already has rows, the rows of every table are under
one key, the name of its session as soon as that is known. -/
theorem one_key_per_table (hNames : PrefixesDiffer x names) (wxid : String) (keys : KeyMap)
    (w : World) (bio : BuildIo) (nowMs : Int)
    (hListed : ∀ f ∈ w.files, f.kind = .session →
      ∀ y ∈ listedSessions f.db, y.username ∈ names)
    {t : State} (hRun : Runs.Run (step x) (fun s op => SessionsIn names s op ∧ SessionsFirst x s op)
      (start x wxid keys w bio nowMs) t) : OneKey x t.sync.store := by
  have hInv : KeyInv x names t.sync.store t.pc :=
    hRun.invariant (P := fun s => KeyInv x names s.sync.store s.pc) (keyInv_start hListed)
      fun s op u h hOp hStep => keyInv_step hNames h hOp.1 hOp.2 hStep
  exact hInv.keyed.oneKey hNames

end

end Sync

/-! ## A session and its first message -/

/-- The digest of the name `u`, which is the only name below. -/
def digestOfU : Codec := .blank "7b774effe4a349c6dd82ad4f4f21d34c"

theorem prefixesDiffer_u : PrefixesDiffer digestOfU {"u"} := Set.injOn_singleton _ _

/-- The message table of `u`. -/
def Db.ofU (rows : List MsgRow) (hIds : (rows.map MsgRow.localId).Nodup)
    (hPos : ∀ r ∈ rows, 0 < r.localId) : Db where
  tables := [⟨"Msg_7b774effe4a349c6dd82ad4f4f21d34c", Increment.fullColumns, .messages rows⟩]
  names_nodup := List.nodup_singleton _
  ids_nodup := by simpa [Table.msgRows] using hIds
  ids_pos := by simpa [Table.msgRows] using hPos
  rowids_nodup := by simp [Table.uidRows]

/-- A session database that lists the names. -/
def Db.listing (names : List String) : Db where
  tables := [⟨"SessionTable", ["username"],
    .sessions (names.map fun u => { username := some u })⟩]
  names_nodup := List.nodup_singleton _
  ids_nodup := by simp [Table.msgRows]
  ids_pos := by simp [Table.msgRows]
  rowids_nodup := by simp [Table.uidRows]

/-- A session file without sessions, and a message file whose table is empty. -/
def quietWorld : World where
  files := [⟨⟨"m", .message⟩, "", ⟨none, none⟩, 0, Db.ofU [] (by decide) (by decide)⟩,
    ⟨⟨"s", .session⟩, "", ⟨none, none⟩, 0, Db.listing []⟩]
  rels_nodup := by decide

namespace Sync

def quietStart : State := start digestOfU "" (fun _ => some "") quietWorld {} 0

/-- The session is listed. -/
def sessionCommit : Op := .commit "s" ⟨none, none⟩ (Db.listing ["u"])

/-- The first message arrives. -/
def messageCommit : Op := .commit "m" ⟨none, none⟩ (Db.ofU [rowOf 1 1] oneRow_ids oneRow_pos)

/-- A poll of that many further steps. -/
def pollOf (ticks : Nat) : List Op := .poll (fun _ => true) :: List.replicate ticks (.tick {})

/-- The sessions that the step reads. -/
def sessionsRead (s : State) : Op → List Session
  | .tick io =>
    match s.reloads io with
    | some (.sessions _, db) => listedSessions db
    | _ => []
  | _ => []

/-- Every session the step reads is `u`. -/
def readsOnlyU (s : State) (op : Op) : Bool := (sessionsRead s op).all fun y => y.username = "u"

theorem sessionsIn_of_readsOnlyU (s : State) (op : Op) (h : readsOnlyU s op = true) :
    SessionsIn {"u"} s op := by
  cases op with
  | tick io =>
    intro f db hdb y hy
    simp only [readsOnlyU, sessionsRead, hdb, List.all_eq_true, decide_eq_true_eq] at h
    exact h y hy
  | _ => trivial

/-- And nothing is stored before it is known. -/
def readsUFirst (s : State) (op : Op) : Bool :=
  readsOnlyU s op && ((sessionsRead s op).isEmpty || s.sync.store.records.isEmpty ||
    (s.sync.store.sessions.lookup "u").isSome)

theorem sessionsFirst_of_readsUFirst (s : State) (op : Op) (h : readsUFirst s op = true) :
    SessionsIn {"u"} s op ∧ SessionsFirst digestOfU s op := by
  simp only [readsUFirst, Bool.and_eq_true] at h
  have hIn := sessionsIn_of_readsOnlyU s op h.1
  refine ⟨hIn, ?_⟩
  cases op with
  | tick io =>
    intro f db hdb y hy hNew u r hr
    have hName : y.username = "u" := hIn f db hdb y hy
    rw [hName] at hNew
    have hRead : (sessionsRead s (.tick io)).isEmpty = false := by
      simp only [sessionsRead, hdb, List.isEmpty_eq_false_iff]
      exact List.ne_nil_of_mem hy
    have hEmpty : s.sync.store.records = [] := by
      simpa [hRead, AList.lookup_isSome, hNew] using h.2
    have hMem : r ∈ s.sync.store.records := Store.mem_records.mpr ⟨u, hr⟩
    rw [hEmpty] at hMem
    cases hMem
  | _ => trivial

/-- The session is polled before its first message is. -/
def sessionFirst : List Op := sessionCommit :: pollOf 7 ++ messageCommit :: pollOf 13

def afterSessionFirst : State :=
  (Runs.exec (step digestOfU) readsUFirst quietStart sessionFirst).getD quietStart

theorem one_key_per_table_session_first : OneKey digestOfU afterSessionFirst.sync.store :=
  one_key_per_table prefixesDiffer_u "" (fun _ => some "") quietWorld {} 0
    (fun f hf hKind y hy => by
      rcases List.mem_pair.mp hf with rfl | rfl
      · cases hKind
      · cases hy)
    (Runs.run_of_exec sessionFirst sessionsFirst_of_readsUFirst rfl)

/-- One poll sees the session and its first message. -/
def bothAtOnce : List Op := sessionCommit :: messageCommit :: pollOf 13

def afterBoth : State :=
  (Runs.exec (step digestOfU) readsOnlyU quietStart bothAtOnce).getD quietStart

/-- The message is stored under the suffix, and stays there when the session is known. -/
theorem first_message_keeps_its_suffix : PrefixesDiffer digestOfU {"u"} ∧
    ¬ ∀ t, Runs.Run (step digestOfU) (SessionsIn {"u"}) quietStart t →
      OneKey digestOfU t.sync.store := by
  refine ⟨prefixesDiffer_u, fun h => ?_⟩
  have hRun : Runs.Run (step digestOfU) (SessionsIn {"u"}) quietStart afterBoth :=
    Runs.run_of_exec bothAtOnce sessionsIn_of_readsOnlyU rfl
  have hSuffix : msgSuffix "Msg_7b774effe4a349c6dd82ad4f4f21d34c" =
      some "7b774effe4a349c6dd82ad4f4f21d34c" := by decide
  obtain ⟨key, hRows, hSessions⟩ := h afterBoth hRun _ _ hSuffix
  have hKey : key = "u" := hSessions "u" (by decide) (by decide)
  have hStored := hRows "7b774effe4a349c6dd82ad4f4f21d34c"
    (rowToRecord digestOfU ⟨"m", "Msg_7b774effe4a349c6dd82ad4f4f21d34c"⟩ "" ∅
      ⟨1, 0, 1, 100, 1, "", none, none⟩) (by decide) hSuffix
  rw [hKey] at hStored
  exact absurd hStored (by decide)

end Sync

end Weflow
