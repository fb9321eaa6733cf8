import Mathlib.Algebra.GroupWithZero.Nat
import Weflow.Lib.Runs
import Weflow.Store.Build

/-!
# The progress of a build

The counters of `IndexProgress` while `build_all_live` runs, one atomic operation a step. The
denominator is counted in a pass of its own, before the scan; between the two passes, and between
the tables of the scan, the files change as they like, and a read fails at any row. The rows that
were counted are rolled back when their table fails. `consistent_iff` says for which builds the
counters agree with one another and with the store at every moment.
-/

namespace Weflow.Indexing

/-- What one build meets. The contents are those of the moment they are read: of a file when its
tables are enumerated and when they are scanned, of a table when its rows are read. -/
structure BuildEnv where
  codec : Codec
  me : String
  keys : KeyMap
  world : World
  access : String → Nat → Access
  pool : LivePool
  enumerated : Source → Db
  listed : Source → Db
  content : WmKey → Db
  /-- The row whose read fails. -/
  failsAt : WmKey → Option Nat

structure IndexProgress where
  tablesDone : Nat := 0
  tablesTotal : Nat := 0
  messagesIndexed : Int := 0
  deriving DecidableEq

/-- What a table has to load in the end: its records and its watermark, none if the read fails. -/
abbrev Result := Option (List MessageRecord × Watermark)

/-- Where the build stands. `enumerate` and the three stores of `set_tables_total` carry the files
that the scan will find open. -/
inductive Pc
  | sections
  | enumerate (left : List Source) (total : Nat) (scan : List Source)
  | setTotal (total : Nat) (scan : List Source)
  | clearDone (scan : List Source)
  | clearIndexed (scan : List Source)
  | files (left : List Source)
  | tables (f : Source) (left : List (String × String)) (files : List Source)
  | rows (f : Source) (t : String × String) (left : List (String × String)) (files : List Source)
      (counted ahead : Nat) (result : Result)
  | sns
  | returned

/-- `loaded` is the history: the tables that were read to the end, with their rows. -/
structure BuildState where
  pc : Pc
  progress : IndexProgress
  pool : LivePool
  store : Store
  loaded : List (WmKey × Nat)

variable (env : BuildEnv)

def BuildEnv.io : BuildIo := ⟨env.access, fun _ => false⟩

/-- The sections before the messages. -/
def sections : Except (LivePool × Store) (LivePool × Store) := do
  let ps := (env.pool, ({ myWxid := env.me } : Store))
  let ps ← sectionStage .session true loadSessions env.keys env.world env.io ps
  let ps ← sectionStage .contact true (fun db s => loadChatroomMeta db (loadContacts db s))
    env.keys env.world env.io ps
  sectionStage .contactFts false loadGroupCards env.keys env.world env.io ps

/-- The files that open in the first pass. -/
def openedFirst (pool : LivePool) : LivePool × List Source :=
  openEach env.keys (env.access · 0) env.world.messageFiles pool

/-- The files that open in the scan. -/
def openedScan (pool : LivePool) : LivePool × List Source :=
  openEach env.keys (env.access · 1) env.world.messageFiles (openedFirst env pool).1

/-- `load_message_table`: the rows that are read, and what comes of them. -/
def tableRead (contacts : Map Contact) (f : Source) (t : String × String) : Nat × Result :=
  let db := env.content (f.wmKey t.1)
  match loadMessageTable env.codec (f.wmKey t.1) (tableColumns db t.1) (db.msgRows t.1)
      (uidMap (env.listed f)) contacts env.me with
  | .error _ => (0, none)
  | .ok (records, wm) =>
    match env.failsAt (f.wmKey t.1) with
    | some row => (min row records.length, none)
    | none => (records.length, some (records, wm))

/-- `conv.extend`, `watermarks.insert` -/
def installTable (s : Store) (f : Source) (t : String × String) (records : List MessageRecord)
    (wm : Watermark) : Store :=
  (s.extendConv (tableSession env.codec t.2 s) records).setWatermark (f.wmKey t.1)
    (maxWatermark (s.watermark (f.wmKey t.1)) wm)

def rowIndexed (p : IndexProgress) : IndexProgress :=
  { p with messagesIndexed := p.messagesIndexed + 1 }

def rollbackRows (p : IndexProgress) (n : Nat) : IndexProgress :=
  { p with messagesIndexed := p.messagesIndexed - n }

def finishTable (p : IndexProgress) : IndexProgress := { p with tablesDone := p.tablesDone + 1 }

/-- The moments, and the message counts of the sessions. -/
def finish (ps : LivePool × Store) : LivePool × Store :=
  match sectionStage .sns true (loadSns env.codec) env.keys env.world env.io ps with
  | .error ps => ps
  | .ok ps => (ps.1, fillMessageCounts ps.2)

/-- One step of the build. -/
def tick (s : BuildState) : BuildState :=
  match s.pc with
  | .sections =>
    match sections env with
    | .error ps => { s with pc := .returned, pool := ps.1, store := ps.2 }
    | .ok ps =>
      { s with
        pc := .enumerate (openedFirst env ps.1).2 0 (openedScan env ps.1).2
        pool := (openedScan env ps.1).1
        store := ps.2 }
  | .enumerate [] total scan => { s with pc := .setTotal total scan }
  | .enumerate (f :: left) total scan =>
    { s with pc := .enumerate left (total + (messageTables (env.enumerated f)).length) scan }
  | .setTotal total scan =>
    { s with pc := .clearDone scan, progress := { s.progress with tablesTotal := total } }
  | .clearDone scan =>
    { s with pc := .clearIndexed scan, progress := { s.progress with tablesDone := 0 } }
  | .clearIndexed scan =>
    { s with pc := .files scan, progress := { s.progress with messagesIndexed := 0 } }
  | .files [] => { s with pc := .sns }
  | .files (f :: files) => { s with pc := .tables f (messageTables (env.listed f)) files }
  | .tables _ [] files => { s with pc := .files files }
  | .tables f (t :: left) files =>
    let read := tableRead env s.store.contacts f t
    { s with pc := .rows f t left files 0 read.1 read.2 }
  | .rows f t left files counted (ahead + 1) result =>
    { s with
      pc := .rows f t left files (counted + 1) ahead result
      progress := rowIndexed s.progress }
  | .rows f t left files counted 0 (some (records, wm)) =>
    { s with
      pc := .tables f left files
      progress := finishTable s.progress
      store := installTable env s.store f t records wm
      loaded := s.loaded ++ [(f.wmKey t.1, counted)] }
  | .rows f _ left files counted 0 none =>
    { s with pc := .tables f left files, progress := rollbackRows s.progress counted }
  | .sns =>
    let ps := finish env (s.pool, s.store)
    { s with pc := .returned, pool := ps.1, store := ps.2 }
  | .returned => s

/-- A build on fresh counters. -/
def start : BuildState := ⟨.sections, {}, env.pool, { myWxid := env.me }, []⟩

/-- The state after a number of steps. -/
def after (n : Nat) : BuildState := (tick env)^[n] (start env)

/-! ## What is counted -/

/-- The rows read so far of the table that is being scanned. -/
def Pc.reading : Pc → Nat
  | .rows _ _ _ _ counted _ _ => counted
  | _ => 0

def loadedRows (s : BuildState) : Nat := (s.loaded.map Prod.snd).sum

/-- `Store::total_messages` -/
def totalMessages (s : Store) : Nat := (s.convs.entries.map fun e => e.2.length).sum

/-- The counters agree with one another and with the store. -/
structure Consistent (s : BuildState) : Prop where
  done_le : s.progress.tablesDone ≤ s.progress.tablesTotal
  rows : s.progress.messagesIndexed = loadedRows s + s.pc.reading
  nonneg : 0 ≤ s.progress.messagesIndexed
  messages : s.pc = .returned → s.progress.messagesIndexed = totalMessages s.store
  tables : s.pc = .returned → s.progress.tablesDone = s.loaded.length

/-- The table can be read to the end: it has its key column and no row fails. -/
def loads (f : Source) (t : String × String) : Bool :=
  (MsgCols.probe (tableColumns (env.content (f.wmKey t.1)) t.1)).isSome &&
    (env.failsAt (f.wmKey t.1)).isNone

/-- The tables of the files that the first pass enumerates. -/
def tablesOf (fs : List Source) : Nat :=
  (fs.map fun f => (messageTables (env.enumerated f)).length).sum

/-- The tables of the files that the scan reads to the end. -/
def loadsOf (fs : List Source) : Nat :=
  (fs.map fun f => (messageTables (env.listed f)).countP (loads env f)).sum

/-- The scan reads no more tables to the end than the first pass has enumerated. -/
def Covered : Prop :=
  match sections env with
  | .error _ => True
  | .ok ps => loadsOf env (openedScan env ps.1).2 ≤ tablesOf env (openedFirst env ps.1).2

/-! ## The stores of a build -/

theorem totalMessages_eq (s : Store) : totalMessages s = s.records.length := by
  rw [totalMessages, Store.records, List.length_flatMap]

theorem totalMessages_of_convs {s s' : Store} (h : s'.convs = s.convs) :
    totalMessages s' = totalMessages s := by
  rw [totalMessages, totalMessages, h]

theorem totalMessages_empty {s : Store} (h : s.convs = ∅) : totalMessages s = 0 := by
  rw [totalMessages, h]
  rfl

theorem convs_sections :
    Ends (sections env) (fun ps => ps.2.convs = ∅) fun ps => ps.2.convs = ∅ := by
  refine (ends_sectionStage_store (P := fun s => s.convs = ∅) (fun f _ _ s h => ?_) rfl).bind
    fun ps h => ?_
  · exact (convs_loadSessions f.db s).trans h
  refine (ends_sectionStage_store (P := fun s => s.convs = ∅) (fun f _ _ s h => ?_) h).bind
    fun ps h => ?_
  · exact (loadChatroomMeta_frame f.db (loadContacts f.db s)).1.trans h
  refine ends_sectionStage_store (P := fun s => s.convs = ∅) (fun f _ _ s h => ?_) h
  exact (loadGroupCards_frame f.db s).1.trans h

theorem totalMessages_finish (ps : LivePool × Store) :
    totalMessages (finish env ps).2 = totalMessages ps.2 := by
  have hEnds : Ends (sectionStage .sns true (loadSns env.codec) env.keys env.world env.io ps)
      (fun qs => qs.2.convs = ps.2.convs) fun qs => qs.2.convs = ps.2.convs :=
    ends_sectionStage_store (P := fun s => s.convs = ps.2.convs)
      (fun f _ _ s h => (loadSns_frame f.db s env.codec).1.trans h) rfl
  rw [finish]
  split
  · rename_i qs hStage
    rw [hStage] at hEnds
    exact totalMessages_of_convs hEnds
  · rename_i qs hStage
    rw [hStage] at hEnds
    exact totalMessages_of_convs ((convs_fillMessageCounts qs.2).1.trans hEnds)

theorem totalMessages_installTable (s : Store) (f : Source) (t : String × String)
    (records : List MessageRecord) (wm : Watermark) :
    totalMessages (installTable env s f t records wm) = totalMessages s + records.length := by
  have hPerm := s.records_extendConv (tableSession env.codec t.2 s) records
  rw [installTable, totalMessages_of_convs (Store.convs_setWatermark _ _ _), totalMessages_eq,
    totalMessages_eq, hPerm.length_eq, List.length_append]

theorem tableRead_isSome (contacts : Map Contact) (f : Source) (t : String × String) :
    (tableRead env contacts f t).2.isSome = loads env f t := by
  rw [tableRead, loads, loadMessageTable]
  cases hCols : MsgCols.probe (tableColumns (env.content (f.wmKey t.1)) t.1) with
  | none => rfl
  | some c => cases env.failsAt (f.wmKey t.1) <;> rfl

/-- A table that loads is read row by row to its last record. -/
theorem tableRead_length {contacts : Map Contact} {f : Source} {t : String × String}
    {records : List MessageRecord} {wm : Watermark}
    (h : (tableRead env contacts f t).2 = some (records, wm)) :
    (tableRead env contacts f t).1 = records.length := by
  revert h
  rw [tableRead]
  split
  · intro h
    cases h
  · split
    · intro h
      cases h
    · intro h
      cases h
      rfl

/-! ## The invariant -/

/-- The tables that the first pass enumerates, none if the build ends before it. -/
def enumTotal : Nat :=
  match sections env with
  | .error _ => 0
  | .ok ps => tablesOf env (openedFirst env ps.1).2

/-- The tables that the scan reads to the end. -/
def scanLoads : Nat :=
  match sections env with
  | .error _ => 0
  | .ok ps => loadsOf env (openedScan env ps.1).2

theorem covered_iff : Covered env ↔ scanLoads env ≤ enumTotal env := by
  rw [Covered, scanLoads, enumTotal]
  split <;> simp

/-- The tables that are still to be loaded. -/
def due : Pc → Nat
  | .sections => scanLoads env
  | .enumerate _ _ scan => loadsOf env scan
  | .setTotal _ scan => loadsOf env scan
  | .clearDone scan => loadsOf env scan
  | .clearIndexed scan => loadsOf env scan
  | .files left => loadsOf env left
  | .tables f left files => left.countP (loads env f) + loadsOf env files
  | .rows f _ left files _ _ result =>
    result.isSome.toNat + (left.countP (loads env f) + loadsOf env files)
  | .sns => 0
  | .returned => 0

/-- What the denominator is or is going to be. -/
def denominator (s : BuildState) : Nat :=
  match s.pc with
  | .sections => enumTotal env
  | .enumerate left total _ => total + tablesOf env left
  | .setTotal total _ => total
  | _ => s.progress.tablesTotal

/-- The pass before the scan, with nothing loaded yet. -/
def Pc.isEarly : Pc → Bool
  | .sections => true
  | .enumerate _ _ _ => true
  | .setTotal _ _ => true
  | .clearDone _ => true
  | .clearIndexed _ => true
  | _ => false

/-- The rows of a table that loads are those read and those ahead. -/
def Pc.Reads : Pc → Prop
  | .rows _ _ _ _ counted ahead (some (records, _)) => counted + ahead = records.length
  | _ => True

structure Inv (s : BuildState) : Prop where
  done : s.progress.tablesDone = s.loaded.length
  rows : s.progress.messagesIndexed = loadedRows s + s.pc.reading
  stored : totalMessages s.store = loadedRows s
  due : s.loaded.length + due env s.pc = scanLoads env
  total : denominator env s = enumTotal env
  early : s.pc.isEarly = true → s.loaded = []
  fresh : s.pc = .sections → s.progress.tablesTotal = 0
  reads : s.pc.Reads

theorem inv_start : Inv env (start env) :=
  ⟨rfl, rfl, rfl, Nat.zero_add _, rfl, fun _ => rfl, fun _ => rfl, trivial⟩

variable {env} {s : BuildState}

theorem loadedRows_concat (s : BuildState) (k : WmKey) (n : Nat) {t : BuildState}
    (h : t.loaded = s.loaded ++ [(k, n)]) : loadedRows t = loadedRows s + n := by
  rw [loadedRows, h, List.map_append, List.sum_append]
  rfl

theorem reads_tableRead {contacts : Map Contact} {f : Source} {t : String × String}
    {left : List (String × String)} {files : List Source} :
    Pc.Reads (.rows f t left files 0 (tableRead env contacts f t).1
      (tableRead env contacts f t).2) := by
  cases hRead : (tableRead env contacts f t).2 with
  | none => trivial
  | some r => exact (Nat.zero_add _).trans (tableRead_length env hRead)

/-- What one step preserves, by the place of the build. -/
theorem inv_tick (h : Inv env s) : Inv env (tick env s) := by
  obtain ⟨pc, progress, pool, store, loaded⟩ := s
  obtain ⟨hDone, hRows, hStored, hDue, hTotal, hEarly, hFresh, hReads⟩ := h
  cases pc with
  | sections =>
    have hLoaded : loaded = [] := hEarly rfl
    subst hLoaded
    have hConvs := convs_sections env
    have hZero : progress.tablesTotal = 0 := hFresh rfl
    rw [tick]
    dsimp only
    split
    · rename_i ps hSections
      rw [hSections] at hConvs
      refine ⟨hDone, hRows, totalMessages_empty hConvs, ?_, ?_, fun _ => rfl, nofun, trivial⟩
      · simp only [due, scanLoads, hSections, List.length_nil]
      · simp only [denominator, enumTotal, hSections, hZero]
    · rename_i ps hSections
      rw [hSections] at hConvs
      refine ⟨hDone, hRows, totalMessages_empty hConvs, ?_, ?_, fun _ => rfl, nofun, trivial⟩
      · simp only [due, scanLoads, hSections, List.length_nil, Nat.zero_add]
      · simp only [denominator, enumTotal, hSections, Nat.zero_add]
  | enumerate left total scan =>
    cases left with
    | nil => exact ⟨hDone, hRows, hStored, hDue, hTotal, hEarly, nofun, trivial⟩
    | cons f left =>
      refine ⟨hDone, hRows, hStored, hDue, ?_, hEarly, nofun, trivial⟩
      simp only [denominator, tablesOf, List.map_cons, List.sum_cons] at hTotal ⊢
      exact (Nat.add_assoc _ _ _).trans hTotal
  | setTotal total scan => exact ⟨hDone, hRows, hStored, hDue, hTotal, hEarly, nofun, trivial⟩
  | clearDone scan =>
    have hLoaded : loaded = [] := hEarly rfl
    subst hLoaded
    exact ⟨rfl, hRows, hStored, hDue, hTotal, hEarly, nofun, trivial⟩
  | clearIndexed scan =>
    have hLoaded : loaded = [] := hEarly rfl
    subst hLoaded
    exact ⟨hDone, rfl, hStored, hDue, hTotal, nofun, nofun, trivial⟩
  | files left =>
    cases left with
    | nil => exact ⟨hDone, hRows, hStored, hDue, hTotal, nofun, nofun, trivial⟩
    | cons f files => exact ⟨hDone, hRows, hStored, hDue, hTotal, nofun, nofun, trivial⟩
  | tables f left files =>
    cases left with
    | nil =>
      refine ⟨hDone, hRows, hStored, ?_, hTotal, nofun, nofun, trivial⟩
      simpa [due, tick] using hDue
    | cons t left =>
      refine ⟨hDone, hRows, hStored, ?_, hTotal, nofun, nofun, ?_⟩
      · simp only [due, tick, tableRead_isSome, List.countP_cons] at hDue ⊢
        cases hLoads : loads env f t <;> simp [hLoads] at hDue ⊢ <;> omega
      · exact reads_tableRead
  | rows f t left files counted ahead result =>
    cases ahead with
    | succ ahead =>
      refine ⟨hDone, ?_, hStored, hDue, hTotal, nofun, nofun, ?_⟩
      · simp only [tick, rowIndexed, Pc.reading, loadedRows] at hRows ⊢
        omega
      · cases result with
        | none => trivial
        | some r =>
          simp only [tick, Pc.Reads] at hReads ⊢
          omega
    | zero =>
      cases result with
      | none =>
        refine ⟨hDone, ?_, hStored, ?_, hTotal, nofun, nofun, trivial⟩
        · -- the rows of the failed table are taken out again
          simp only [tick, rollbackRows, Pc.reading, loadedRows] at hRows ⊢
          omega
        · simpa [due, tick] using hDue
      | some r =>
        obtain ⟨records, wm⟩ := r
        have hRead : counted = records.length := hReads
        have hLoaded := loadedRows_concat ⟨.rows f t left files counted 0 (some (records, wm)),
          progress, pool, store, loaded⟩ (f.wmKey t.1) counted
          (t := tick env ⟨.rows f t left files counted 0 (some (records, wm)), progress, pool,
            store, loaded⟩) rfl
        refine ⟨?_, ?_, ?_, ?_, hTotal, nofun, nofun, trivial⟩
        · simp only [tick, finishTable, List.length_append, List.length_singleton]
          exact congrArg (· + 1) hDone
        · rw [hLoaded]
          simp only [tick, finishTable, Pc.reading] at hRows ⊢
          omega
        · rw [hLoaded]
          simp only [tick, totalMessages_installTable, hRead]
          exact congrArg (· + records.length) hStored
        · simp only [due, tick, List.length_append, List.length_singleton, Option.isSome_some,
            Bool.toNat_true] at hDue ⊢
          omega
  | sns =>
    refine ⟨hDone, hRows, ?_, hDue, hTotal, nofun, nofun, trivial⟩
    exact (totalMessages_finish env (pool, store)).trans hStored
  | returned => exact ⟨hDone, hRows, hStored, hDue, hTotal, hEarly, hFresh, hReads⟩

theorem inv_after (env : BuildEnv) (n : Nat) : Inv env (after env n) :=
  Function.Iterate.rec (Inv env) (inv_start env) (fun _ h => inv_tick h) n

/-! ## Every build returns -/

/-- The work ahead: the place of the build, then files, tables and rows. -/
def work : Pc → Nat ×ₗ Nat ×ₗ Nat ×ₗ Nat
  | .sections => toLex (7, toLex (0, toLex (0, 0)))
  | .enumerate left _ _ => toLex (6, toLex (left.length, toLex (0, 0)))
  | .setTotal _ _ => toLex (5, toLex (0, toLex (0, 0)))
  | .clearDone _ => toLex (4, toLex (0, toLex (0, 0)))
  | .clearIndexed _ => toLex (3, toLex (0, toLex (0, 0)))
  | .files left => toLex (2, toLex (2 * left.length, toLex (0, 0)))
  | .tables _ left files => toLex (2, toLex (2 * files.length + 1, toLex (2 * left.length, 0)))
  | .rows _ _ left files _ ahead _ =>
    toLex (2, toLex (2 * files.length + 1, toLex (2 * left.length + 1, ahead)))
  | .sns => toLex (1, toLex (0, toLex (0, 0)))
  | .returned => toLex (0, toLex (0, toLex (0, 0)))

theorem work_tick (hNot : s.pc ≠ .returned) : work (tick env s).pc < work s.pc := by
  obtain ⟨pc, progress, pool, store, loaded⟩ := s
  cases pc with
  | sections =>
    rw [tick]
    dsimp only
    split <;> simp [work, Prod.Lex.toLex_lt_toLex]
  | enumerate left total scan => cases left <;> simp [tick, work, Prod.Lex.toLex_lt_toLex]
  | setTotal total scan => simp [tick, work, Prod.Lex.toLex_lt_toLex]
  | clearDone scan => simp [tick, work, Prod.Lex.toLex_lt_toLex]
  | clearIndexed scan => simp [tick, work, Prod.Lex.toLex_lt_toLex]
  | files left =>
    cases left with
    | nil => simp [tick, work, Prod.Lex.toLex_lt_toLex]
    | cons f left =>
      simp [tick, work, Prod.Lex.toLex_lt_toLex]
      omega
  | tables f left files =>
    cases left with
    | nil => simp [tick, work, Prod.Lex.toLex_lt_toLex]
    | cons t left =>
      simp [tick, work, Prod.Lex.toLex_lt_toLex]
      omega
  | rows f t left files counted ahead result =>
    cases ahead with
    | succ ahead => simp [tick, work, Prod.Lex.toLex_lt_toLex]
    | zero =>
      cases result with
      | none => simp [tick, work, Prod.Lex.toLex_lt_toLex]
      | some r => simp [tick, work, Prod.Lex.toLex_lt_toLex]
  | sns => simp [tick, work, Prod.Lex.toLex_lt_toLex]
  | returned => exact absurd rfl hNot

theorem exists_returned (env : BuildEnv) : ∃ n, (after env n).pc = .returned := by
  obtain ⟨n, -, hEnd⟩ := Runs.exists_iterate (f := tick env) (P := fun _ => True)
    (fun s : BuildState => work s.pc) (fun s _ hNot => ⟨trivial, work_tick hNot⟩) (start env) trivial
  exact ⟨n, hEnd⟩

/-! ## Consistency -/

/-- All but the comparison of the two table counters holds in every state. -/
theorem rows_of_inv (h : Inv env s) :
    s.progress.messagesIndexed = loadedRows s + s.pc.reading ∧ 0 ≤ s.progress.messagesIndexed ∧
      (s.pc = .returned → s.progress.messagesIndexed = totalMessages s.store) := by
  have hRows := h.rows
  refine ⟨hRows, by omega, ?_⟩
  intro hEnd
  rw [hRows, hEnd, h.stored]
  exact Int.add_zero _

/-- Until the scan starts nothing is done; from then on the denominator stands. -/
theorem done_le_of_covered (hCovered : scanLoads env ≤ enumTotal env) (h : Inv env s) :
    s.progress.tablesDone ≤ s.progress.tablesTotal := by
  rw [h.done]
  by_cases hEarly : s.pc.isEarly = true
  · rw [h.early hEarly]
    exact Nat.zero_le _
  · have hDue := h.due
    have hTotal : s.progress.tablesTotal = enumTotal env := by
      rw [← h.total, denominator]
      split
      all_goals first | rfl | (rename_i hPc; rw [hPc] at hEarly; exact absurd rfl hEarly)
    omega

/-- The counters are consistent at every moment of a build exactly when the scan reads no more
tables to the end than were enumerated before it. -/
theorem consistent_iff (env : BuildEnv) :
    (∀ n, Consistent (after env n)) ↔ Covered env := by
  rw [covered_iff]
  constructor
  · intro hAll
    obtain ⟨n, hEnd⟩ := exists_returned env
    have h := inv_after env n
    have hDue := h.due
    have hTotal := h.total
    rw [hEnd, due] at hDue
    rw [denominator, hEnd] at hTotal
    dsimp only at hTotal
    have hDone := (hAll n).done_le
    rw [h.done, hTotal] at hDone
    omega
  · intro hCovered n
    have h := inv_after env n
    obtain ⟨hRows, hNonneg, hMessages⟩ := rows_of_inv h
    exact ⟨done_le_of_covered hCovered h, hRows, hNonneg, hMessages, fun _ => h.done⟩

/-- One message table without rows. -/
def emptyTable : Db where
  tables := [⟨"Msg_7b774effe4a349c6dd82ad4f4f21d34c", ["local_id"], .messages []⟩]
  names_nodup := by decide
  ids_nodup := by decide
  ids_pos := by decide
  rowids_nodup := by decide

/-- A file that fails to open in the first pass and opens in the scan. -/
def lateFile : BuildEnv where
  codec := .blank ""
  me := ""
  keys := fun _ => some ""
  world := ⟨[⟨⟨"m", .message⟩, "", ⟨none, none⟩, 0, emptyTable⟩], by decide⟩
  access := fun _ attempt => if attempt = 0 then { fails := some .io } else {}
  pool := {}
  enumerated := Source.db
  listed := Source.db
  content := fun _ => emptyTable
  failsAt := fun _ => none

/-- One table is done of none. -/
theorem late_file_exceeds_total : ¬ ∀ n, Consistent (after lateFile n) := by
  intro h
  have hProgress : (after lateFile 8).progress = ⟨1, 0, 0⟩ := by decide +kernel
  have hDone := (h 8).done_le
  rw [hProgress] at hDone
  exact absurd hDone (by decide)

end Weflow.Indexing
