import Mathlib.Data.List.Perm.Basic
import Weflow.Lib.Cursors
import Weflow.Db.Live
import Weflow.Store.Sections

/-!
# The full build

`build_all_live` of `store/index.rs`: the sections, then every message table of every message
file that opens, then the message counts. A missing key ends the build early for the session,
contact and moments databases; the message scan skips the file.

Opening the files and scanning them are separate here: `openEach` threads the pool through the
files and collects those that opened, `scanFile` reads one of them. The progress counters are
left out.
-/

namespace Weflow

/-- What the environment decides during a build: the accesses to a file, by attempt, and the
tables whose rows cannot be read. -/
structure BuildIo where
  access : String → Nat → Access := fun _ _ => {}
  loadFails : WmKey → Bool := fun _ => false

/-! ## Sections -/

/-- One section of the build. Without a key the build ends if the key is `required`. -/
def sectionStage (kind : DbKind) (required : Bool) (load : Db → Store → Store) (keys : KeyMap)
    (w : World) (io : BuildIo) (ps : LivePool × Store) :
    Except (LivePool × Store) (LivePool × Store) :=
  match w.files.find? fun f => f.kind = kind with
  | none => .ok ps
  | some f =>
    match keys f.rel with
    | none => if required then .error ps else .ok ps
    | some key =>
      let (pool, err) := ps.1.getOrOpen f key (io.access f.rel 0)
      .ok (pool, if err = none then load f.db ps.2 else ps.2)

/-! ## Messages -/

def World.messageFiles (w : World) : List Source := w.files.filter fun f => f.kind = .message

/-- Access every file that has a key; the pool, and the files that are open then. -/
def openEach (keys : KeyMap) (access : String → Access) :
    List Source → LivePool → LivePool × List Source
  | [], pool => (pool, [])
  | f :: fs, pool =>
    match keys f.rel with
    | none => openEach keys access fs pool
    | some key =>
      let (pool, err) := pool.getOrOpen f key (access f.rel)
      let (pool, opened) := openEach keys access fs pool
      (pool, if err = none then f :: opened else opened)

/-- The key of a table's watermark. -/
def Source.wmKey (f : Source) (table : String) : WmKey := ⟨f.rel, table⟩

/-- One message table of the scan. -/
def scanTable (x : Codec) (me : String) (contacts : Map Contact) (loadFails : WmKey → Bool)
    (f : Source) (s : Store) (t : String × String) : Store :=
  let loaded :=
    if loadFails (f.wmKey t.1) then .error .sql
    else loadMessageTable x (f.wmKey t.1) (tableColumns f.db t.1) (f.db.msgRows t.1) (uidMap f.db)
      contacts me
  match loaded with
  | .ok (records, wm) =>
    (s.extendConv (tableSession x t.2 s) records).setWatermark (f.wmKey t.1)
      (maxWatermark (s.watermark (f.wmKey t.1)) wm)
  | .error _ => s

/-- One message file of the scan. -/
def scanFile (x : Codec) (me : String) (contacts : Map Contact) (loadFails : WmKey → Bool)
    (s : Store) (f : Source) : Store :=
  (messageTables f.db).foldl (scanTable x me contacts loadFails f) s

/-- The message part of the build. -/
def messageStage (x : Codec) (me : String) (keys : KeyMap) (w : World) (io : BuildIo)
    (ps : LivePool × Store) : LivePool × Store :=
  let (pool, _) := openEach keys (io.access · 0) w.messageFiles ps.1
  let (pool, opened) := openEach keys (io.access · 1) w.messageFiles pool
  (pool, opened.foldl (scanFile x me ps.2.contacts io.loadFails) ps.2)

/-- The last step: `message_count` of every session. -/
def fillMessageCounts (s : Store) : Store :=
  { s with sessions := s.sessions.mapVal fun u x => { x with messageCount := s.convCount u } }

/-! ## The build -/

def buildAllLiveInner (x : Codec) (me : String) (keys : KeyMap) (w : World) (io : BuildIo)
    (pool : LivePool) : Except (LivePool × Store) (LivePool × Store) := do
  let ps := (pool, ({ myWxid := me } : Store))
  let ps ← sectionStage .session true loadSessions keys w io ps
  let ps ← sectionStage .contact true (fun db s => loadChatroomMeta db (loadContacts db s)) keys w
    io ps
  let ps ← sectionStage .contactFts false loadGroupCards keys w io ps
  let ps := messageStage x me keys w io ps
  let ps ← sectionStage .sns true (loadSns x) keys w io ps
  .ok (ps.1, fillMessageCounts ps.2)

/-- `build_all_live`: the result, however the build ended, with its time. -/
def buildAllLive (x : Codec) (me : String) (keys : KeyMap) (w : World) (io : BuildIo)
    (pool : LivePool) (nowMs : Int) : LivePool × Store :=
  match buildAllLiveInner x me keys w io pool with
  | .ok ps | .error ps => (ps.1, ps.2.markIndexBuilt nowMs)

/-! ## Message rows of a world -/

/-- The columns of a message table as the probe finds them. -/
def Source.cols (f : Source) (table : String) : Option MsgCols :=
  MsgCols.probe (tableColumns f.db table)

/-- The source rows of one message table. -/
def Source.tableSources (f : Source) (table : String) : List SourceRow :=
  match f.cols table with
  | some c => (f.db.msgRows table).map (c.sourceRow (f.wmKey table))
  | none => []

/-- The source rows of all message tables of a file. -/
def Source.sources (f : Source) : List SourceRow :=
  (messageTables f.db).flatMap fun t => f.tableSources t.1

/-- The source rows of all message files. -/
def World.sources (w : World) : List SourceRow := w.messageFiles.flatMap Source.sources

/-- The source rows of every table that is named like a message table, listed or not. -/
def Source.messageRows (f : Source) : List SourceRow :=
  ((f.db.tables.map Table.name).filter fun n => (msgSuffix n).isSome).flatMap f.tableSources

def World.messageRows (w : World) : List SourceRow := w.messageFiles.flatMap Source.messageRows

/-- The position of a source row, as far as the probe reads it. -/
def SourceRow.mark (r : SourceRow) : Watermark := ⟨r.createTime, r.sortSeq, r.localId⟩

@[simp] theorem mark_sourceRow (c : MsgCols) (k : WmKey) (r : MsgRow) :
    (c.sourceRow k r).mark = c.mark r := rfl

@[simp] theorem origin_sourceRow (c : MsgCols) (k : WmKey) (r : MsgRow) :
    (c.sourceRow k r).origin = k := rfl

theorem origin_of_mem_tableSources {f : Source} {t : String} {r : SourceRow}
    (h : r ∈ f.tableSources t) : r.origin = f.wmKey t := by
  unfold Source.tableSources at h
  split at h
  · obtain ⟨row, -, rfl⟩ := List.mem_map.mp h
    rfl
  · cases h

theorem messageTables_names (db : Db) : (messageTables db).map Prod.fst =
    (tableNames db messageTablesCap).filter fun n => (msgSuffix n).isSome := by
  unfold messageTables
  generalize tableNames db messageTablesCap = names
  induction names with
  | nil => rfl
  | cons n names ih =>
    rw [List.filterMap_cons, List.filter_cons]
    cases hSuffix : msgSuffix n with
    | none => simpa using ih
    | some suffix => simpa using ih

/-- In a listed database the listed tables hold all message rows. -/
theorem Source.perm_messageRows {f : Source} (h : f.db.Listed) :
    f.sources.Perm f.messageRows := by
  have hSources : f.sources = ((tableNames f.db messageTablesCap).filter fun n =>
      (msgSuffix n).isSome).flatMap f.tableSources := by
    rw [← messageTables_names, List.flatMap_map]
    rfl
  have hAll : f.messageRows.Perm (((sortedNames f.db).filter fun n =>
      (msgSuffix n).isSome).flatMap f.tableSources) :=
    ((perm_sortedNames f.db).symm.filter _).flatMap_right _
  have hNodup := sortedNames_nodup f.db
  rw [← List.take_append_drop messageTablesCap (sortedNames f.db)] at hAll hNodup
  rw [List.filter_append, List.flatMap_append] at hAll
  have hRest : (((sortedNames f.db).drop messageTablesCap).filter fun n =>
      (msgSuffix n).isSome).flatMap f.tableSources = [] := by
    refine List.flatMap_eq_nil_iff.mpr fun n hn => ?_
    obtain ⟨hDrop, hSuffix⟩ := List.mem_filter.mp hn
    obtain ⟨t, ht, rfl⟩ := List.mem_map.mp (mem_sortedNames.mp (List.mem_of_mem_drop hDrop))
    -- a table beyond the cap holds no row
    have hRows : t.msgRows = [] := by
      by_contra hRows
      exact List.disjoint_of_nodup_append hNodup (h t ht hSuffix hRows) hDrop
    unfold Source.tableSources
    rw [msgRows_of_mem ht, hRows]
    split <;> rfl
  rw [hRest, List.append_nil] at hAll
  rw [hSources]
  exact hAll.symm

theorem World.perm_messageRows {w : World} (h : ∀ f ∈ w.files, f.db.Listed) :
    w.sources.Perm w.messageRows :=
  List.Perm.flatMap_left _ fun f hf => Source.perm_messageRows (h f (List.mem_of_mem_filter hf))

/-! ## The scan -/

section

variable {x : Codec} {me : String} {contacts : Map Contact} {loadFails : WmKey → Bool}
  {f : Source} {s : Store} {t : String × String}

/-- A table is skipped, or all its rows are added and its watermark is raised. -/
theorem scanTable_cases (x : Codec) (me : String) (contacts : Map Contact)
    (loadFails : WmKey → Bool) (f : Source) (s : Store) (t : String × String) :
    (∃ c, f.cols t.1 = some c ∧ loadFails (f.wmKey t.1) = false ∧
      scanTable x me contacts loadFails f s t =
        (s.extendConv (tableSession x t.2 s)
          ((Keyset.sortBy c.orderKey (f.db.msgRows t.1)).map fun r =>
            rowToRecord x (f.wmKey t.1) me contacts (c.extract r (uidMap f.db)))).setWatermark
          (f.wmKey t.1) (maxWatermark (s.watermark (f.wmKey t.1))
            ((Keyset.sortBy c.orderKey (f.db.msgRows t.1)).foldl
              (fun w r => maxWatermark w (c.mark r)) .zero))) ∨
    ((f.cols t.1 = none ∨ loadFails (f.wmKey t.1) = true) ∧
      scanTable x me contacts loadFails f s t = s) := by
  unfold scanTable
  by_cases hFail : loadFails (f.wmKey t.1) = true
  · exact .inr ⟨.inr hFail, by simp [hFail]⟩
  · have hFalse : loadFails (f.wmKey t.1) = false := by simpa using hFail
    cases hCols : f.cols t.1 with
    | none =>
      have hProbe : MsgCols.probe (tableColumns f.db t.1) = none := hCols
      exact .inr ⟨.inl rfl, by simp [hFalse, loadMessageTable, hProbe]⟩
    | some c =>
      have hProbe : MsgCols.probe (tableColumns f.db t.1) = some c := hCols
      exact .inl ⟨c, rfl, hFalse, by simp [hFalse, loadMessageTable, hProbe]⟩

/-- The source rows a scan adds. -/
def loadedSources (loadFails : WmKey → Bool) (f : Source) (t : String × String) :
    List SourceRow :=
  if loadFails (f.wmKey t.1) then [] else f.tableSources t.1

theorem records_scanTable :
    ((scanTable x me contacts loadFails f s t).records.map MessageRecord.sourceRow).Perm
      (s.records.map MessageRecord.sourceRow ++ loadedSources loadFails f t) := by
  rcases scanTable_cases x me contacts loadFails f s t with ⟨c, hCols, hFail, hEq⟩ | ⟨hSkip, hEq⟩
  · rw [hEq, loadedSources, if_neg (by simp [hFail]), Source.tableSources, hCols]
    have hRecords := (s.records_extendConv (tableSession x t.2 s)
      ((Keyset.sortBy c.orderKey (f.db.msgRows t.1)).map fun r =>
        rowToRecord x (f.wmKey t.1) me contacts (c.extract r (uidMap f.db)))).map
          MessageRecord.sourceRow
    rw [List.map_append, List.map_map] at hRecords
    refine hRecords.trans (List.Perm.append_left _ ?_)
    exact (Keyset.perm_sortBy _ _).map _
  · rw [hEq, loadedSources]
    rcases hSkip with hCols | hFail
    · simp [Source.tableSources, hCols]
    · simp [hFail]

theorem watermark_scanTable_ne {k : WmKey} (h : k ≠ f.wmKey t.1) :
    (scanTable x me contacts loadFails f s t).watermark k = s.watermark k := by
  rcases scanTable_cases x me contacts loadFails f s t with ⟨c, -, -, hEq⟩ | ⟨-, hEq⟩
  · rw [hEq, Store.watermark_setWatermark_ne _ _ h, Store.watermark_extendConv]
  · rw [hEq]

theorem le_watermark_scanTable (k : WmKey) :
    s.watermark k ≤ (scanTable x me contacts loadFails f s t).watermark k := by
  by_cases h : k = f.wmKey t.1
  · subst h
    rcases scanTable_cases x me contacts loadFails f s t with ⟨c, -, -, hEq⟩ | ⟨-, hEq⟩
    · rw [hEq, Store.watermark_setWatermark]
      exact le_maxWatermark_left _ _
    · rw [hEq]
  · rw [watermark_scanTable_ne h]

/-- Every row of a loaded table is at or below the watermark. -/
theorem mark_le_scanTable {c : MsgCols} (hCols : f.cols t.1 = some c)
    (hFail : loadFails (f.wmKey t.1) = false) {r : MsgRow} (hr : r ∈ f.db.msgRows t.1) :
    c.mark r ≤ (scanTable x me contacts loadFails f s t).watermark (f.wmKey t.1) := by
  rcases scanTable_cases x me contacts loadFails f s t with ⟨c', hCols', -, hEq⟩ | ⟨hSkip, -⟩
  · obtain rfl : c = c' := Option.some.inj (hCols.symm.trans hCols')
    rw [hEq, Store.watermark_setWatermark]
    exact (mark_le_foldl c (Keyset.mem_sortBy.mpr hr) .zero).trans (le_maxWatermark_right _ _)
  · rcases hSkip with h | h
    · rw [hCols] at h
      cases h
    · rw [hFail] at h
      cases h

theorem records_scanFile :
    ((scanFile x me contacts loadFails s f).records.map MessageRecord.sourceRow).Perm
      (s.records.map MessageRecord.sourceRow ++
        (messageTables f.db).flatMap (loadedSources loadFails f)) := by
  unfold scanFile
  induction messageTables f.db generalizing s with
  | nil => simp
  | cons t ts ih =>
    rw [List.foldl_cons, List.flatMap_cons, ← List.append_assoc]
    exact ih.trans (records_scanTable.append_right _)

theorem le_watermark_scanTables (ts : List (String × String)) (k : WmKey) :
    s.watermark k ≤ (ts.foldl (scanTable x me contacts loadFails f) s).watermark k := by
  induction ts generalizing s with
  | nil => exact le_rfl
  | cons t ts ih => exact (le_watermark_scanTable k).trans ih

theorem mark_le_scanFile {c : MsgCols} (ht : t ∈ messageTables f.db)
    (hCols : f.cols t.1 = some c) (hFail : loadFails (f.wmKey t.1) = false) {r : MsgRow}
    (hr : r ∈ f.db.msgRows t.1) :
    c.mark r ≤ (scanFile x me contacts loadFails s f).watermark (f.wmKey t.1) := by
  unfold scanFile
  generalize messageTables f.db = ts at ht
  induction ts generalizing s with
  | nil => cases ht
  | cons a ts ih =>
    rcases List.mem_cons.mp ht with rfl | ht
    · exact (mark_le_scanTable hCols hFail hr).trans (le_watermark_scanTables ts _)
    · exact ih ht

theorem le_watermark_scanFile (k : WmKey) :
    s.watermark k ≤ (scanFile x me contacts loadFails s f).watermark k :=
  le_watermark_scanTables _ k

/-- A scan writes watermarks of its own file only. -/
theorem watermark_scanFile_ne {k : WmKey} (h : k.rel ≠ f.rel) :
    (scanFile x me contacts loadFails s f).watermark k = s.watermark k := by
  unfold scanFile
  induction messageTables f.db generalizing s with
  | nil => rfl
  | cons t ts ih =>
    rw [List.foldl_cons, ih, watermark_scanTable_ne]
    rintro rfl
    exact h rfl

end

/-! ## Opening the files -/

section

variable {keys : KeyMap} {access : String → Access} {fs : List Source} {pool : LivePool}

theorem opened_sublist : (openEach keys access fs pool).2.Sublist fs := by
  induction fs generalizing pool with
  | nil => exact .refl _
  | cons f fs ih =>
    unfold openEach
    split
    · exact ih.cons f
    · simp only
      split
      · exact ih.cons_cons f
      · exact ih.cons f

/-- A connection after the pass was there before, or belongs to one of the files and was opened
at its version. -/
theorem conn?_openEach (keys : KeyMap) (access : String → Access) (fs : List Source)
    (pool : LivePool) (r : String) :
    (openEach keys access fs pool).1.conn? r = pool.conn? r ∨
      ∃ f ∈ fs, f.rel = r ∧ keys r ≠ none ∧ ((openEach keys access fs pool).1.conn? r = some none ∨
        (openEach keys access fs pool).1.conn? r = some (some f.version)) := by
  induction fs generalizing pool with
  | nil => exact .inl rfl
  | cons f fs ih =>
    unfold openEach
    split
    · rcases ih pool with h | ⟨g, hg, h⟩
      · exact .inl h
      · exact .inr ⟨g, List.mem_cons_of_mem _ hg, h⟩
    · rename_i key hKey
      simp only
      rcases ih (pool.getOrOpen f key (access f.rel)).1 with h | ⟨g, hg, h⟩
      · rw [h]
        rcases pool.getOrOpen_spec f key (access f.rel) with ⟨hSame, -⟩ | ⟨-, -, hOpened⟩
        · exact .inl (hSame r)
        · rw [hOpened r]
          split
          · rename_i hr
            refine .inr ⟨f, List.mem_cons_self, hr.symm, by rw [hr, hKey]; simp, ?_⟩
            split
            · exact .inr rfl
            · exact .inl rfl
          · exact .inl rfl
      · exact .inr ⟨g, List.mem_cons_of_mem _ hg, h⟩

/-- An open connection stays open. -/
theorem isOpen_openEach {r : String} (h : pool.isOpen r = true) :
    (openEach keys access fs pool).1.isOpen r = true := by
  rcases conn?_openEach keys access fs pool r with
    hEq | ⟨_, _, _, _, hEq | hEq⟩
  · rw [LivePool.isOpen, hEq]
    exact h
  · rw [LivePool.isOpen, hEq]
    rfl
  · rw [LivePool.isOpen, hEq]
    rfl

/-- A file that is open after the pass and has a key was collected. -/
theorem mem_opened (keys : KeyMap) (access : String → Access) (pool : LivePool)
    (hNodup : (fs.map fun f => f.rel).Nodup) {f : Source} (hf : f ∈ fs)
    {key : DbKey} (hKey : keys f.rel = some key)
    (hOpen : (openEach keys access fs pool).1.isOpen f.rel = true) :
    f ∈ (openEach keys access fs pool).2 := by
  induction fs generalizing pool with
  | nil => cases hf
  | cons g fs ih =>
    rw [List.map_cons, List.nodup_cons] at hNodup
    unfold openEach at hOpen ⊢
    rcases List.mem_cons.mp hf with rfl | hf
    · -- nothing later touches this file, so its own access left it open
      rw [hKey] at hOpen ⊢
      simp only at hOpen ⊢
      have hErr : (pool.getOrOpen f key (access f.rel)).2 = none := by
        by_contra hErr
        have hClosed := LivePool.conn?_of_error hErr
        rcases conn?_openEach keys access fs
          (pool.getOrOpen f key (access f.rel)).1 f.rel with hEq | ⟨g, hg, hRel, -⟩
        · rw [LivePool.isOpen, hEq, hClosed] at hOpen
          cases hOpen
        · exact hNodup.1 (hRel ▸ List.mem_map_of_mem hg)
      rw [if_pos hErr]
      exact List.mem_cons_self
    · have hTail : ∀ p : LivePool, (openEach keys access fs p).1.isOpen f.rel = true →
          f ∈ (openEach keys access fs p).2 := fun p h => ih p hNodup.2 hf h
      split at hOpen
      · exact hTail _ hOpen
      · simp only at hOpen ⊢
        split
        · exact List.mem_cons_of_mem _ (hTail _ hOpen)
        · exact hTail _ hOpen

end

/-! ## What a build leaves behind -/

/-- The state of a build: `scanned` are the message files read so far. -/
structure Built (w : World) (io : BuildIo) (scanned : List Source) (ps : LivePool × Store) :
    Prop where
  scanned_sublist : scanned.Sublist w.messageFiles
  open_scanned : ∀ f ∈ w.messageFiles, ps.1.isOpen f.rel = true → f ∈ scanned
  conns : ∀ r b, ps.1.conn? r = some b → b = none ∨ ∃ f ∈ w.files, f.rel = r ∧ b = some f.version
  records : (ps.2.records.map MessageRecord.sourceRow).Perm
    (scanned.flatMap fun f => (messageTables f.db).flatMap (loadedSources io.loadFails f))
  mark_le : ∀ f ∈ scanned, ∀ t ∈ messageTables f.db, io.loadFails (f.wmKey t.1) = false →
    ∀ c, f.cols t.1 = some c → ∀ r ∈ f.db.msgRows t.1, c.mark r ≤ ps.2.watermark (f.wmKey t.1)
  watermark_other : ∀ k : WmKey, (∀ f ∈ scanned, f.rel ≠ k.rel) → ps.2.watermark k = .zero
  zero_le : ∀ k, .zero ≤ ps.2.watermark k

section

variable {x : Codec} {me : String} {keys : KeyMap} {w : World} {io : BuildIo}
  {scanned : List Source} {ps : LivePool × Store}

theorem mem_files_of_messageFiles {f : Source} (h : f ∈ w.messageFiles) :
    f ∈ w.files ∧ f.kind = .message := by
  simpa [World.messageFiles] using h

/-- Files of a world with one relative path are one file. -/
theorem eq_of_rel_eq {f g : Source} (hf : f ∈ w.files) (hg : g ∈ w.files) (h : f.rel = g.rel) :
    f = g := by
  have hf' := World.source?_of_mem hf
  rw [h, World.source?_of_mem hg] at hf'
  exact (Option.some.inj hf').symm

theorem built_empty (s : Store) (hConvs : s.convs = ∅) (hMarks : s.watermarks = ∅) :
    Built w io [] ({}, s) where
  scanned_sublist := List.nil_sublist _
  open_scanned f _ h := by simp [LivePool.isOpen, LivePool.conn?] at h
  conns r b h := by simp [LivePool.conn?] at h
  records := by
    rw [Store.records, hConvs]
    exact .refl _
  mark_le f h := by cases h
  watermark_other k _ := by
    rw [Store.watermark, hMarks]
    rfl
  zero_le k := by
    rw [Store.watermark, hMarks]
    exact le_rfl

/-- A build step that opens no message file and keeps the conversations and watermarks. -/
theorem Built.frame (h : Built w io scanned ps) {pool : LivePool} {s : Store}
    (hConvs : s.convs = ps.2.convs) (hMarks : s.watermarks = ps.2.watermarks)
    (hPool : ∀ r, pool.conn? r = ps.1.conn? r ∨ ∃ f ∈ w.files, f.kind ≠ .message ∧ f.rel = r ∧
      (pool.conn? r = some none ∨ pool.conn? r = some (some f.version))) :
    Built w io scanned (pool, s) where
  scanned_sublist := h.scanned_sublist
  open_scanned f hf hOpen := by
    rcases hPool f.rel with hEq | ⟨g, hg, hKind, hRel, -⟩
    · refine h.open_scanned f hf ?_
      rw [LivePool.isOpen, hEq] at hOpen
      exact hOpen
    · obtain ⟨hf, hMsg⟩ := mem_files_of_messageFiles hf
      rw [eq_of_rel_eq hg hf hRel] at hKind
      exact absurd hMsg hKind
  conns r b hb := by
    rcases hPool r with hEq | ⟨g, hg, -, hRel, hEq | hEq⟩
    · exact h.conns r b (hEq ▸ hb)
    · rw [hEq] at hb
      exact .inl (Option.some.inj hb).symm
    · rw [hEq] at hb
      exact .inr ⟨g, hg, hRel, (Option.some.inj hb).symm⟩
  records := by
    rw [Store.records, hConvs]
    exact h.records
  mark_le f hf t ht hFail c hc r hr := by
    rw [Store.watermark, hMarks]
    exact h.mark_le f hf t ht hFail c hc r hr
  watermark_other k hk := by
    rw [Store.watermark, hMarks]
    exact h.watermark_other k hk
  zero_le k := by
    rw [Store.watermark, hMarks]
    exact h.zero_le k

theorem built_sectionStage {kind : DbKind} (hKind : kind ≠ .message) {required : Bool}
    {load : Db → Store → Store}
    (hLoad : ∀ db s, (load db s).convs = s.convs ∧ (load db s).watermarks = s.watermarks)
    (h : Built w io scanned ps) {ps' : LivePool × Store}
    (hStage : sectionStage kind required load keys w io ps = .ok ps' ∨
      sectionStage kind required load keys w io ps = .error ps') : Built w io scanned ps' := by
  unfold sectionStage at hStage
  split at hStage
  · rcases hStage with hStage | hStage
    · cases hStage
      exact h
    · cases hStage
  · rename_i f hFind
    have hFiles : f ∈ w.files := List.mem_of_find?_eq_some hFind
    have hfKind : f.kind = kind := by simpa using List.find?_some hFind
    split at hStage
    · split at hStage <;> rcases hStage with hStage | hStage <;> cases hStage <;> exact h
    · rename_i key hKey
      have hSpec := ps.1.getOrOpen_spec f key (io.access f.rel 0)
      rcases hRes : ps.1.getOrOpen f key (io.access f.rel 0) with ⟨pool, err⟩
      rw [hRes] at hStage hSpec
      rcases hStage with hStage | hStage
      · cases hStage
        refine h.frame ?_ ?_ fun r => ?_
        · split
          · exact (hLoad _ _).1
          · rfl
        · split
          · exact (hLoad _ _).2
          · rfl
        · rcases hSpec with ⟨hSame, -⟩ | ⟨-, -, hOpened⟩
          · exact .inl (hSame r)
          · by_cases hr : r = f.rel
            · refine .inr ⟨f, hFiles, by rw [hfKind]; exact hKind, hr.symm, ?_⟩
              rw [hOpened r, if_pos hr]
              split
              · exact .inr rfl
              · exact .inl rfl
            · left
              rw [hOpened r, if_neg hr]
      · cases hStage

/-! ## The message stage -/

section

variable {contacts : Map Contact} {loadFails : WmKey → Bool} {opened : List Source} {s : Store}

theorem records_scanFiles (x : Codec) (me : String) (contacts : Map Contact)
    (loadFails : WmKey → Bool) (opened : List Source) (s : Store) :
    ((opened.foldl (scanFile x me contacts loadFails) s).records.map
      MessageRecord.sourceRow).Perm (s.records.map MessageRecord.sourceRow ++
        opened.flatMap fun f => (messageTables f.db).flatMap (loadedSources loadFails f)) := by
  induction opened generalizing s with
  | nil => simp
  | cons f fs ih =>
    rw [List.foldl_cons, List.flatMap_cons, ← List.append_assoc]
    exact (ih _).trans (records_scanFile.append_right _)

theorem le_watermark_scanFiles (k : WmKey) :
    s.watermark k ≤ (opened.foldl (scanFile x me contacts loadFails) s).watermark k := by
  induction opened generalizing s with
  | nil => exact le_rfl
  | cons f fs ih => exact (le_watermark_scanFile k).trans ih

theorem mark_le_scanFiles {f : Source} (hf : f ∈ opened) {t : String × String}
    (ht : t ∈ messageTables f.db) {c : MsgCols} (hCols : f.cols t.1 = some c)
    (hFail : loadFails (f.wmKey t.1) = false) {r : MsgRow} (hr : r ∈ f.db.msgRows t.1) :
    c.mark r ≤ (opened.foldl (scanFile x me contacts loadFails) s).watermark (f.wmKey t.1) := by
  induction opened generalizing s with
  | nil => cases hf
  | cons g fs ih =>
    rcases List.mem_cons.mp hf with rfl | hf
    · exact (mark_le_scanFile ht hCols hFail hr).trans (le_watermark_scanFiles _)
    · exact ih hf

theorem watermark_scanFiles_ne {k : WmKey} (h : ∀ f ∈ opened, f.rel ≠ k.rel) :
    (opened.foldl (scanFile x me contacts loadFails) s).watermark k = s.watermark k := by
  induction opened generalizing s with
  | nil => rfl
  | cons f fs ih =>
    rw [List.foldl_cons, ih fun g hg => h g (List.mem_cons_of_mem _ hg),
      watermark_scanFile_ne (h f List.mem_cons_self).symm]

end

theorem messageFiles_rels_nodup : (w.messageFiles.map fun f => f.rel).Nodup :=
  w.rels_nodup.sublist (List.filter_sublist.map _)

theorem built_messageStage (x : Codec) (me : String) (keys : KeyMap) (h : Built w io [] ps) :
    ∃ scanned, Built w io scanned (messageStage x me keys w io ps) := by
  have hNone : ∀ f ∈ w.messageFiles, ps.1.conn? f.rel = none := by
    intro f hf
    by_contra hOpen
    exact absurd (h.open_scanned f hf (Option.isSome_iff_ne_none.mpr hOpen)) (by simp)
  have hFirst := fun r => conn?_openEach keys (io.access · 0) w.messageFiles ps.1 r
  have hSecond := fun r => conn?_openEach keys (io.access · 1) w.messageFiles
    (openEach keys (io.access · 0) w.messageFiles ps.1).1 r
  have hCollected := fun f => mem_opened keys (io.access · 1)
    (openEach keys (io.access · 0) w.messageFiles ps.1).1 (messageFiles_rels_nodup (w := w)) (f := f)
  have hSub : (openEach keys (io.access · 1) w.messageFiles
      (openEach keys (io.access · 0) w.messageFiles ps.1).1).2.Sublist w.messageFiles :=
    opened_sublist
  unfold messageStage
  rcases hOne : openEach keys (io.access · 0) w.messageFiles ps.1 with ⟨pool₁, opened₁⟩
  rw [hOne] at hFirst hSecond hCollected hSub
  simp only at hFirst hSecond hCollected hSub ⊢
  rcases hTwo : openEach keys (io.access · 1) w.messageFiles pool₁ with ⟨pool₂, opened⟩
  rw [hTwo] at hSecond hCollected hSub
  simp only at hSecond hCollected hSub ⊢
  refine ⟨opened, hSub, fun f hf hOpen => ?_, fun r b hb => ?_, ?_, ?_, fun k hk => ?_,
    fun k => ?_⟩
  · -- an open file has a key, since it was closed before the stage
    have hKey : keys f.rel ≠ none := by
      rcases hSecond f.rel with hEq | ⟨_, _, _, hKey, _⟩
      · rcases hFirst f.rel with hEq₁ | ⟨_, _, _, hKey, _⟩
        · rw [LivePool.isOpen, hEq, hEq₁, hNone f hf] at hOpen
          cases hOpen
        · exact hKey
      · exact hKey
    obtain ⟨key, hKey⟩ := Option.ne_none_iff_exists'.mp hKey
    exact hCollected f hf hKey hOpen
  · have hFile : ∀ g ∈ w.messageFiles, g.rel = r → some b = some none ∨
        some b = some (some g.version) →
        b = none ∨ ∃ f ∈ w.files, f.rel = r ∧ b = some f.version := by
      rintro g hg hRel (hEq | hEq)
      · exact .inl (Option.some.inj hEq)
      · exact .inr ⟨g, (mem_files_of_messageFiles hg).1, hRel, Option.some.inj hEq⟩
    rcases hSecond r with hEq | ⟨g, hg, hRel, -, hConn⟩
    · rcases hFirst r with hEq₁ | ⟨g, hg, hRel, -, hConn⟩
      · exact h.conns r b (by rw [← hEq₁, ← hEq]; exact hb)
      · exact hFile g hg hRel (by rw [← hb, hEq]; exact hConn)
    · exact hFile g hg hRel (by rw [← hb]; exact hConn)
  · have hNil : ps.2.records.map MessageRecord.sourceRow = [] :=
      List.perm_nil.mp (by simpa using h.records)
    simpa [hNil] using records_scanFiles x me ps.2.contacts io.loadFails opened ps.2
  · exact fun f hf t ht hFail c hc r hr => mark_le_scanFiles hf ht hc hFail hr
  · rw [watermark_scanFiles_ne hk]
    exact h.watermark_other k (by simp)
  · exact (h.zero_le k).trans (le_watermark_scanFiles k)

/-! ## The whole build -/

theorem convs_fillMessageCounts (s : Store) : (fillMessageCounts s).convs = s.convs ∧
    (fillMessageCounts s).watermarks = s.watermarks := ⟨rfl, rfl⟩

/-- Both ends of a computation that may stop early with a result. -/
def Ends {α : Type} (r : Except α α) (stopped done : α → Prop) : Prop :=
  match r with
  | .error a => stopped a
  | .ok a => done a

theorem Ends.bind {α : Type} {r : Except α α} {f : α → Except α α} {E P Q : α → Prop}
    (h : Ends r E P) (hf : ∀ a, P a → Ends (f a) E Q) : Ends (r >>= f) E Q := by
  cases r with
  | error a => exact h
  | ok a => exact hf a h

theorem Ends.mono {α : Type} {r : Except α α} {E E' P P' : α → Prop} (h : Ends r E P)
    (hE : ∀ a, E a → E' a) (hP : ∀ a, P a → P' a) : Ends r E' P' := by
  cases r with
  | error a => exact hE a h
  | ok a => exact hP a h

/-- Some scan has been done. -/
def BuiltSome (w : World) (io : BuildIo) (ps : LivePool × Store) : Prop :=
  ∃ scanned, Built w io scanned ps

theorem ends_sectionStage (kind : DbKind) (hKind : kind ≠ .message) {required : Bool}
    (load : Db → Store → Store)
    (hLoad : ∀ db s, (load db s).convs = s.convs ∧ (load db s).watermarks = s.watermarks)
    (h : Built w io scanned ps) : Ends (sectionStage kind required load keys w io ps)
      (BuiltSome w io) (Built w io scanned) := by
  cases hRes : sectionStage kind required load keys w io ps with
  | error p => exact ⟨scanned, built_sectionStage hKind hLoad h (.inr hRes)⟩
  | ok p => exact built_sectionStage hKind hLoad h (.inl hRes)

/-- What the loader of a section keeps, the section keeps. -/
theorem ends_sectionStage_store {P : Store → Prop} {kind : DbKind} {required : Bool}
    {load : Db → Store → Store}
    (hLoad : ∀ f ∈ w.files, f.kind = kind → ∀ s, P s → P (load f.db s)) (h : P ps.2) :
    Ends (sectionStage kind required load keys w io ps) (fun ps => P ps.2) fun ps => P ps.2 := by
  unfold sectionStage
  split
  · exact h
  · rename_i f hFind
    have hKind : f.kind = kind := by simpa using List.find?_some hFind
    split
    · split <;> exact h
    · dsimp only [Ends]
      split
      · exact hLoad f (List.mem_of_find?_eq_some hFind) hKind _ h
      · exact h

/-- However a build from a fresh pool ends, its result is `Built`. -/
theorem built_buildAllLive (nowMs : Int) :
    BuiltSome w io (buildAllLive x me keys w io {} nowMs) := by
  have hEnds : Ends (buildAllLiveInner x me keys w io {}) (BuiltSome w io) (BuiltSome w io) := by
    unfold buildAllLiveInner
    have h₀ : Built w io [] ({}, ({ myWxid := me } : Store)) := built_empty _ rfl rfl
    refine (ends_sectionStage .session (by decide) loadSessions (fun _ _ => ⟨rfl, rfl⟩) h₀).bind fun p₁ h₁ => ?_
    refine (ends_sectionStage .contact (by decide) _ (fun db s => ?_) h₁).bind fun p₂ h₂ => ?_
    · have hFrame := loadChatroomMeta_frame db (loadContacts db s)
      exact ⟨hFrame.1, hFrame.2.1⟩
    refine (ends_sectionStage .contactFts (by decide) loadGroupCards (fun db s => ?_) h₂).bind fun p₃ h₃ => ?_
    · have hFrame := loadGroupCards_frame db s
      exact ⟨hFrame.1, hFrame.2.1⟩
    obtain ⟨scanned, h₄⟩ := built_messageStage x me keys h₃
    refine (ends_sectionStage .sns (by decide) (loadSns x) (fun db s => ?_) h₄).bind fun p₅ h₅ => ?_
    · have hFrame := loadSns_frame db s x
      exact ⟨hFrame.1, hFrame.2.1⟩
    exact ⟨scanned, h₅.frame rfl rfl fun r => .inl rfl⟩
  unfold buildAllLive
  cases hRes : buildAllLiveInner x me keys w io {} with
  | error ps =>
    rw [hRes] at hEnds
    obtain ⟨scanned, h⟩ := hEnds
    exact ⟨scanned, h.frame rfl rfl fun r => .inl rfl⟩
  | ok ps =>
    rw [hRes] at hEnds
    obtain ⟨scanned, h⟩ := hEnds
    exact ⟨scanned, h.frame rfl rfl fun r => .inl rfl⟩

/-- An invariant of the scan holds of the store a build yields, if it holds of every store without
conversations whose sessions are the listed ones: `Q` is about the stores before the scan. Both
are about the conversations and the session names only. -/
theorem store_buildAllLive {Q P : Store → Prop} {pool : LivePool}
    (hFrame₀ : ∀ s s' : Store, Q s → s'.convs = s.convs →
      s'.sessions.keys = s.sessions.keys → Q s')
    (hFrame : ∀ s s' : Store, P s → s'.convs = s.convs →
      s'.sessions.keys = s.sessions.keys → P s')
    (hEmpty : Q { myWxid := me })
    (hSessions : ∀ f ∈ w.files, f.kind = .session → ∀ s, Q s → Q (loadSessions f.db s))
    (hFirst : ∀ s, Q s → P s)
    (hScan : ∀ f ∈ w.messageFiles, ∀ t ∈ messageTables f.db, ∀ contacts s, P s →
      P (scanTable x me contacts io.loadFails f s t)) (nowMs : Int) :
    P (buildAllLive x me keys w io pool nowMs).2 := by
  have hTables : ∀ f ∈ w.messageFiles, ∀ contacts s, P s →
      P (scanFile x me contacts io.loadFails s f) := fun f hf contacts s hs =>
    List.foldlRecOn _ _ hs fun s hs t ht => hScan f hf t ht contacts s hs
  have hStage : ∀ ps : LivePool × Store, P ps.2 → P (messageStage x me keys w io ps).2 := by
    intro ps hs
    refine List.foldlRecOn _ _ hs fun s hs f hf => hTables f ?_ _ s hs
    exact opened_sublist.subset hf
  have hEnds : Ends (buildAllLiveInner x me keys w io pool) (fun ps => P ps.2)
      fun ps => P ps.2 := by
    unfold buildAllLiveInner
    refine ((ends_sectionStage_store hSessions hEmpty).mono (fun ps => hFirst ps.2)
      fun _ => id).bind fun p₁ h₁ => ?_
    refine ((ends_sectionStage_store (fun f _ _ s hs => ?_) h₁).mono (fun ps => hFirst ps.2)
      fun _ => id).bind fun p₂ h₂ => ?_
    · have h := loadChatroomMeta_frame f.db (loadContacts f.db s)
      exact hFrame₀ s _ hs h.1 (by rw [h.2.2.1]; rfl)
    refine ((ends_sectionStage_store (fun f _ _ s hs => ?_) h₂).mono (fun ps => hFirst ps.2)
      fun _ => id).bind fun p₃ h₃ => ?_
    · have h := loadGroupCards_frame f.db s
      exact hFrame₀ s _ hs h.1 (by rw [h.2.2.1])
    refine (ends_sectionStage_store (fun f _ _ s hs => ?_) (hStage p₃ (hFirst _ h₃))).bind
      fun p₅ h₅ => ?_
    · have h := loadSns_frame f.db s x
      exact hFrame s _ hs h.1 (by rw [h.2.2])
    exact hFrame p₅.2 _ h₅ rfl (Map.keys_mapVal _ _)
  unfold buildAllLive
  cases hRes : buildAllLiveInner x me keys w io pool with
  | error ps =>
    rw [hRes] at hEnds
    exact hFrame ps.2 _ hEnds rfl rfl
  | ok ps =>
    rw [hRes] at hEnds
    exact hFrame ps.2 _ hEnds rfl rfl

/-! ## A build without failures -/

/-- A pass over files with their own keys, none of them marked, opens all of them. -/
theorem openEach_quiet {keys : KeyMap} {fs : List Source}
    (hKeys : ∀ f ∈ fs, keys f.rel = some f.key) (pool : LivePool) (hMarks : pool.keyless = []) :
    (openEach keys (fun _ => {}) fs pool).1.keyless = [] ∧
      ∀ f ∈ fs, (openEach keys (fun _ => {}) fs pool).1.isOpen f.rel = true := by
  induction fs generalizing pool with
  | nil => exact ⟨hMarks, by simp⟩
  | cons f fs ih =>
    have hKeyless : (pool.getOrOpen f f.key {}).1.keyless = [] :=
      List.sublist_nil.mp (hMarks ▸ pool.keyless_getOrOpen f f.key {})
    have hOk : (pool.getOrOpen f f.key {}).2 = none :=
      LivePool.getOrOpen_ok (by simp [LivePool.isKeyless, hMarks]) rfl rfl
    have hOpen : (pool.getOrOpen f f.key {}).1.isOpen f.rel = true :=
      (hOk ▸ pool.getOrOpen_spec f f.key {}).isOpen
    obtain ⟨hRest, hAll⟩ := ih (fun g hg => hKeys g (List.mem_cons_of_mem _ hg)) _ hKeyless
    simp only [openEach, hKeys f List.mem_cons_self]
    refine ⟨hRest, fun g hg => ?_⟩
    rcases List.mem_cons.mp hg with rfl | hg
    · exact isOpen_openEach hOpen
    · exact hAll g hg

/-- A section whose key is registered does not end the build, and closes no file. -/
theorem sectionStage_quiet (hKeys : ∀ f ∈ w.files, keys f.rel = some f.key) (kind : DbKind)
    (required : Bool) (load : Db → Store → Store) (io : BuildIo) (ps : LivePool × Store) :
    ∃ ps', sectionStage kind required load keys w io ps = .ok ps' ∧
      ps'.1.keyless.Sublist ps.1.keyless ∧ ∀ r, ps.1.isOpen r = true → ps'.1.isOpen r = true := by
  unfold sectionStage
  split
  · exact ⟨ps, rfl, .refl _, fun _ => id⟩
  · rename_i f hFind
    rw [hKeys f (List.mem_of_find?_eq_some hFind)]
    exact ⟨_, rfl, ps.1.keyless_getOrOpen _ _ _, fun r =>
      (ps.1.getOrOpen_spec f f.key (io.access f.rel 0)).isOpen_mono⟩

theorem messageStage_quiet (hKeys : ∀ f ∈ w.files, keys f.rel = some f.key)
    (hMarks : ps.1.keyless = []) {f : Source} (hf : f ∈ w.messageFiles) :
    (messageStage x me keys w {} ps).1.isOpen f.rel = true := by
  have hFirst := (openEach_quiet (fun g hg => hKeys g (mem_files_of_messageFiles hg).1) ps.1
    hMarks).2 f hf
  exact isOpen_openEach hFirst

/-- With the key of every file registered and no failure, every message file is opened. -/
theorem isOpen_quietBuild (hKeys : ∀ f ∈ w.files, keys f.rel = some f.key) (nowMs : Int)
    {f : Source} (hf : f ∈ w.messageFiles) :
    (buildAllLive x me keys w {} {} nowMs).1.isOpen f.rel = true := by
  obtain ⟨p₁, h₁, hMarks₁, -⟩ := sectionStage_quiet hKeys .session true loadSessions {} ({}, ({ myWxid := me } : Store))
  obtain ⟨p₂, h₂, hMarks₂, -⟩ := sectionStage_quiet hKeys .contact true
    (fun db s => loadChatroomMeta db (loadContacts db s)) {} p₁
  obtain ⟨p₃, h₃, hMarks₃, -⟩ := sectionStage_quiet hKeys .contactFts false loadGroupCards
    {} p₂
  obtain ⟨p₅, h₅, -, hOpen⟩ := sectionStage_quiet hKeys .sns true (loadSns x) {}
    (messageStage x me keys w {} p₃)
  have hMarks : p₃.1.keyless = [] :=
    List.sublist_nil.mp (hMarks₃.trans (hMarks₂.trans hMarks₁))
  have hInner : buildAllLiveInner x me keys w {} {} = .ok (p₅.1, fillMessageCounts p₅.2) := by
    unfold buildAllLiveInner
    simp only [h₁, h₂, h₃, h₅, bind, Except.bind]
  unfold buildAllLive
  rw [hInner]
  exact hOpen f.rel (messageStage_quiet hKeys hMarks hf)

/-- A build without failures holds the rows of all message tables, each once. -/
theorem records_quietBuild (hKeys : ∀ f ∈ w.files, keys f.rel = some f.key) (nowMs : Int) :
    ((buildAllLive x me keys w {} {} nowMs).2.records.map MessageRecord.sourceRow).Perm
      w.sources := by
  obtain ⟨scanned, hBuilt⟩ : BuiltSome w {} (buildAllLive x me keys w {} {} nowMs) :=
    built_buildAllLive nowMs
  refine hBuilt.records.trans (List.Perm.of_eq ?_)
  refine (Cursors.flatMap_sublist hBuilt.scanned_sublist ?_ fun f hf hNot => ?_).symm
  · exact messageFiles_rels_nodup.of_map
  · exact absurd (hBuilt.open_scanned f hf (isOpen_quietBuild hKeys nowMs hf)) hNot

end

end Weflow
