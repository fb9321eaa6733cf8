import Weflow.Lib.Cursors
import Weflow.Sync.Pending

/-!
# Every row is stored once

The store holds the rows at or below the watermarks, and a poll has staged the rows between the
stored and the staged watermarks, each of them exactly once. This is the invariant of this
module; it needs tables with a time and a sequence column, commits that append above the
watermarks, and pages without system messages (`LedgerOk`).
-/

namespace Weflow

/-- Every message table has a time and a sequence column. -/
def Db.AllFull (db : Db) : Prop :=
  ∀ t ∈ messageTables db, ∃ c, MsgCols.probe (tableColumns db t.1) = some c ∧ c.Full

namespace World

/-- The rows at or below the watermarks. -/
abbrev below (w : World) (g : WmKey → Watermark) : List SourceRow :=
  Cursors.below SourceRow.origin SourceRow.mark w.sources g

/-- The rows between two watermarks of their table. -/
abbrev between (w : World) (g g' : WmKey → Watermark) : List SourceRow :=
  Cursors.between SourceRow.origin SourceRow.mark w.sources g g'

end World

/-! ## The rows of one table among all rows -/

theorem rel_origin_of_mem_sources {f : Source} {r : SourceRow} (h : r ∈ f.sources) :
    r.origin.rel = f.rel := by
  obtain ⟨t, -, hr⟩ := List.mem_flatMap.mp h
  rw [origin_of_mem_tableSources hr]
  rfl

theorem filter_origin_sources {w : World} {f : Source} (hf : f ∈ w.messageFiles)
    {t : String × String} (ht : t ∈ messageTables f.db) :
    (w.sources.filter fun r => r.origin = f.wmKey t.1) = f.tableSources t.1 := by
  have hFile : (w.sources.filter fun r => r.origin.rel = f.rel) = f.sources :=
    Cursors.filter_group (fun r : SourceRow => r.origin.rel) (fun f : Source => f.rel)
      messageFiles_rels_nodup (fun g _ r hr => rel_origin_of_mem_sources hr) hf
  have hTable : (f.sources.filter fun r => r.origin.table = t.1) = f.tableSources t.1 :=
    Cursors.filter_group (fun r : SourceRow => r.origin.table) (fun t : String × String => t.1)
      (Sync.messageTables_names_nodup f.db)
      (fun t' _ r hr => by rw [origin_of_mem_tableSources hr]; rfl) ht
  rw [← hTable, ← hFile, List.filter_filter]
  refine List.filter_congr fun r _ => ?_
  rw [Source.wmKey]
  rcases r.origin with ⟨rel, table⟩
  simp [Bool.and_comm]

/-- The rows of a full table between its cursor and the end of a page are the page. -/
theorem page_perm_tableSources {f : Source} {t : String} {c : MsgCols}
    (hCols : f.cols t = some c) (hFull : c.Full) (wm : Watermark) :
    ((newRows c wm (f.db.msgRows t)).map (c.sourceRow (f.wmKey t))).Perm
      ((f.tableSources t).filter fun r => wm < r.mark ∧
        r.mark ≤ Keyset.cursorAfter c.mark wm (newRows c wm (f.db.msgRows t))) := by
  have hKey : c.orderKey = c.mark := funext fun r => MsgCols.orderKey_eq_mark hFull r
  have hNodup : ((f.db.msgRows t).map c.mark).Nodup :=
    hKey ▸ MsgCols.orderKey_nodup (f.db.msgRows_ids_nodup t)
  have hPage := (Keyset.page_perm_between (n := readPage) (w := wm) hNodup).map
    (c.sourceRow (f.wmKey t))
  rw [Source.tableSources, hCols, newRows, hKey]
  simp only [List.filter_map]
  exact hPage

namespace Sync

/-- The store holds the rows at or below the watermarks, each once. -/
def Held (w : World) (s : Store) : Prop :=
  (s.records.map MessageRecord.sourceRow).Perm (w.below s.watermark)

/-- The poll has staged the rows between the stored and the staged watermarks, each once. -/
structure Staged (w : World) (s : Store) (p : Poll) : Prop where
  le : ∀ k, s.watermark k ≤ p.staged s k
  rows : (p.newRows.map fun sr => sr.2.sourceRow).Perm (w.between s.watermark (p.staged s))

/-- The file being read is a message file, and the tables still to read are listed. -/
def Listing (w : World) (rel : String) (tables : List (String × String)) : Prop :=
  ∃ f ∈ w.messageFiles, f.rel = rel ∧ ∀ t ∈ tables, t ∈ messageTables f.db

/-- What the running poll has read. -/
def StagedAt (w : World) (s : Store) : Pc → Prop
  | .files p _ | .apply p => Staged w s p
  | .tables p _ r => Staged w s p ∧ Listing w r.rel r.tables
  | .pages p _ r t _ _ => Staged w s p ∧ Listing w r.rel (t :: r.tables)
  | _ => True

structure Ledger (s : State) : Prop where
  full : ∀ f ∈ s.world.messageFiles, f.db.AllFull
  held : Held s.world s.sync.store
  staged : StagedAt s.world s.sync.store s.pc

/-! ## The restricted steps -/

/-- The commit appends rows above the watermarks `marks`. -/
structure Appends (w : World) (marks : WmKey → Watermark) (rel : String) (db : Db) : Prop where
  full : db.AllFull
  tables : ∀ f ∈ w.messageFiles, f.rel = rel → ∀ t ∈ messageTables f.db, t ∈ messageTables db
  rows : ∀ f ∈ w.messageFiles, f.rel = rel → ∃ added,
    ({ f with db } : Source).sources.Perm (f.sources ++ added) ∧
      ∀ r ∈ added, marks r.origin < r.mark

/-- No row of the page is a system message or a withdrawal. -/
def pagePlain (x : Codec) (s : State) (io : Io) : Bool :=
  match s.pc with
  | .pages _ _ r t wm _ =>
    match s.readPageOf x io r t wm with
    | .ok rows => rows.all fun row => !isRevokeRow row
    | .error _ => true
  | _ => true

def LedgerOk (x : Codec) (s : State) : Op → Prop
  | .commit rel _ db => Appends s.world s.marks rel db
  | .tick io => pagePlain x s io = true
  | _ => True

/-! ## Commits -/

section

variable {s : State} {rel : String} {stamps : DbStamps} {db : Db}

/-- The rows of all files after a commit that appends. -/
theorem sources_commit (stamps : DbStamps) {w : World} {Q : SourceRow → Prop}
    (h : ∀ f ∈ w.messageFiles, f.rel = rel → ∃ added,
      ({ f with db } : Source).sources.Perm (f.sources ++ added) ∧ ∀ r ∈ added, Q r) :
    ∃ added, (World.commit w rel stamps db).sources.Perm (w.sources ++ added) ∧
      ∀ r ∈ added, Q r := by
  have hFiles : (World.commit w rel stamps db).messageFiles = w.messageFiles.map fun f =>
      if f.rel = rel then { f with stamps, db, version := f.version + 1 } else f := by
    rw [World.messageFiles, World.messageFiles, World.commit, List.filter_map]
    congr 1
    refine List.filter_congr fun f _ => ?_
    simp only [Function.comp_apply]
    split <;> rfl
  rw [World.sources, World.sources, hFiles]
  generalize w.messageFiles = fs at h
  induction fs with
  | nil => exact ⟨[], by simp⟩
  | cons f fs ih =>
    obtain ⟨added, hPerm, hAdded⟩ := ih fun g hg => h g (List.mem_cons_of_mem _ hg)
    rw [List.map_cons, List.flatMap_cons, List.flatMap_cons]
    by_cases hRel : f.rel = rel
    · obtain ⟨own, hOwn, hOwnAdded⟩ := h f List.mem_cons_self hRel
      refine ⟨own ++ added, ?_, fun r hr => ?_⟩
      · rw [if_pos hRel]
        have hJoin : (f.sources ++ own ++ (fs.flatMap Source.sources ++ added)).Perm
            (f.sources ++ fs.flatMap Source.sources ++ (own ++ added)) := by
          rw [List.append_assoc, List.append_assoc]
          refine List.Perm.append_left _ ?_
          rw [← List.append_assoc, ← List.append_assoc]
          exact List.perm_append_comm.append_right _
        exact (hOwn.append hPerm).trans hJoin
      · rcases List.mem_append.mp hr with hr | hr
        · exact hOwnAdded r hr
        · exact hAdded r hr
    · refine ⟨added, ?_, hAdded⟩
      rw [if_neg hRel, List.append_assoc]
      exact hPerm.append_left _

theorem Listing.commit {w : World} {rel' : String} {tables : List (String × String)}
    (h : Listing w rel' tables) (hTables : ∀ f ∈ w.messageFiles, f.rel = rel →
      ∀ t ∈ messageTables f.db, t ∈ messageTables db) :
    Listing (World.commit w rel stamps db) rel' tables := by
  obtain ⟨f, hf, hRel, hListed⟩ := h
  obtain ⟨hFiles, hKind⟩ := mem_files_of_messageFiles hf
  refine ⟨_, List.mem_filter.mpr ⟨List.mem_map_of_mem hFiles, ?_⟩, ?_, fun t ht => ?_⟩
  · split <;> simpa using hKind
  · split <;> exact hRel
  · split
    · rename_i hEq
      exact hTables f hf hEq t (hListed t ht)
    · exact hListed t ht

theorem ledger_commit (h : Ledger s) (hOk : Appends s.world s.marks rel db)
    (hMarks : ∀ k, s.sync.store.watermark k ≤ s.marks k) :
    Ledger { s with world := World.commit s.world rel stamps db } := by
  obtain ⟨added, hPerm, hAbove⟩ := sources_commit stamps hOk.rows
  have hStaged : ∀ p, s.marks = p.staged s.sync.store → Staged s.world s.sync.store p →
      Staged (World.commit s.world rel stamps db) s.sync.store p := by
    intro p hEq hStaged
    refine ⟨hStaged.le, hStaged.rows.trans ?_⟩
    refine List.Perm.trans (List.Perm.of_eq ?_) (Cursors.between_perm hPerm).symm
    refine (Cursors.between_append_above fun r hr => ?_).symm
    rw [← hEq]
    exact hAbove r hr
  refine ⟨fun f hf => ?_, ?_, ?_⟩
  · rcases mem_messageFiles_commit hf with ⟨hOld, -⟩ | ⟨g, -, -, rfl⟩
    · exact h.full f hOld
    · exact hOk.full
  · refine h.held.trans ?_
    refine List.Perm.trans (List.Perm.of_eq ?_) (Cursors.below_perm hPerm).symm
    exact (Cursors.below_append_above fun r hr => (hMarks _).trans_lt (hAbove r hr)).symm
  · have hAt := h.staged
    cases hPc : s.pc with
    | files p todo =>
      simp only [hPc, StagedAt] at hAt ⊢
      exact hStaged p (by simp [State.marks, hPc]) hAt
    | tables p todo r =>
      simp only [hPc, StagedAt] at hAt ⊢
      exact ⟨hStaged p (by simp [State.marks, hPc]) hAt.1, hAt.2.commit hOk.tables⟩
    | pages p todo r t wm n =>
      simp only [hPc, StagedAt] at hAt ⊢
      exact ⟨hStaged p (by simp [State.marks, hPc]) hAt.1, hAt.2.commit hOk.tables⟩
    | apply p =>
      simp only [hPc, StagedAt] at hAt ⊢
      exact hStaged p (by simp [State.marks, hPc]) hAt
    | idle => trivial
    | reload p counts todo => trivial
    | book p counts todo => trivial

end

/-! ## Ticks -/

section

variable {x : Codec} {s : State} {io : Io} {p : Poll} {todo : List Work}

/-- A page of a listed full table, without system messages, stages its rows. -/
theorem Staged.page {r : Reading} {t : String × String} {wm : Watermark}
    {rows : List MessageRecord} (h : Staged s.world s.sync.store p)
    (hWm : p.staged s.sync.store ⟨r.rel, t.1⟩ = wm)
    (hPage : s.readPageOf x io r t wm = .ok rows) (hPlain : ∀ row ∈ rows, isRevokeRow row = false)
    {f : Source} (hf : f ∈ s.world.messageFiles) (hRel : f.rel = r.rel)
    (ht : t ∈ messageTables f.db) (hFull : f.db.AllFull) (session : String) :
    Staged s.world s.sync.store (p.stageAll session ⟨r.rel, t.1⟩ rows) := by
  obtain ⟨g, c, hg, hCols, -, hRows⟩ := readPageOf_ok hPage
  obtain rfl : f = g := by
    rw [← hRel, World.source?_of_mem (mem_files_of_messageFiles hf).1] at hg
    exact Option.some.inj hg
  have hc : c.Full := by
    obtain ⟨c', hCols', hc'⟩ := hFull t ht
    obtain rfl : c = c' := Option.some.inj (hCols.symm.trans hCols')
    exact hc'
  have hKey : f.wmKey t.1 = ⟨r.rel, t.1⟩ := by rw [Source.wmKey, hRel]
  have hCursor : Keyset.cursorAfter MessageRecord.mark wm rows =
      Keyset.cursorAfter c.mark wm (newRows c wm (f.db.msgRows t.1)) := by
    rw [hRows, cursorAfter_map]
    rfl
  have hAt := staged_stageAll p session ⟨r.rel, t.1⟩ rows s.sync.store
  rw [hWm, hCursor] at hAt
  have hNe : ∀ k, k ≠ ⟨r.rel, t.1⟩ →
      (p.stageAll session ⟨r.rel, t.1⟩ rows).staged s.sync.store k = p.staged s.sync.store k :=
    fun k hk => staged_stageAll_ne p session ⟨r.rel, t.1⟩ rows s.sync.store hk
  have hUp : ∀ k, p.staged s.sync.store k ≤
      (p.stageAll session ⟨r.rel, t.1⟩ rows).staged s.sync.store k := by
    intro k
    by_cases hk : k = ⟨r.rel, t.1⟩
    · rw [hk, hAt, hWm]
      have hOrder : c.orderKey = c.mark := funext fun r => MsgCols.orderKey_eq_mark hc r
      rw [newRows, hOrder]
      exact Keyset.le_cursorAfter_page
    · rw [hNe k hk]
  refine ⟨fun k => (h.le k).trans (hUp k), ?_⟩
  -- the staged rows grow by the page, which is what lies between the old and the new cursor
  have hNew : (p.stageAll session ⟨r.rel, t.1⟩ rows).newRows.map (fun sr => sr.2.sourceRow) =
      p.newRows.map (fun sr => sr.2.sourceRow) ++ rows.map MessageRecord.sourceRow := by
    rw [newRows_stageAll, List.filter_eq_self.mpr fun row hRow => by simp [hPlain row hRow],
      List.map_append, List.map_map]
    rfl
  have hPageRows : (rows.map MessageRecord.sourceRow).Perm (s.world.between
      (p.staged s.sync.store)
      ((p.stageAll session ⟨r.rel, t.1⟩ rows).staged s.sync.store)) := by
    have hSplit : s.world.between (p.staged s.sync.store)
        ((p.stageAll session ⟨r.rel, t.1⟩ rows).staged s.sync.store) = _ :=
      Cursors.between_of_ne ⟨r.rel, t.1⟩ hNe
    rw [hSplit, hAt, hWm, ← hKey, filter_origin_sources hf ht, hRows, List.map_map]
    have hPerm := page_perm_tableSources hCols hc wm
    rw [hKey] at hPerm
    exact hPerm
  rw [hNew]
  exact (h.rows.append hPageRows).trans (Cursors.between_append_between h.le hUp)

theorem ledger_stepFiles (h : Ledger s) (hReads : Reads s.world s.sync p todo none)
    (hStaged : Staged s.world s.sync.store p) : Ledger (s.stepFiles io p todo) := by
  unfold State.stepFiles
  split
  · exact ⟨h.full, h.held, hStaged⟩
  · rename_i f todo
    split
    · rename_i key src hKey hSrc
      dsimp only
      split
      · exact ⟨h.full, h.held, hStaged⟩
      · exact ⟨h.full, h.held, hStaged⟩
      · refine ⟨h.full, h.held, ⟨hStaged.le, hStaged.rows⟩, ?_⟩
        obtain ⟨hFiles, hRel⟩ := World.source?_some hSrc
        obtain ⟨g, hg, hEq⟩ := messageFile_of_work hReads.todoWorks List.mem_cons_self
        obtain rfl : g = src := by
          refine eq_of_rel_eq (mem_files_of_messageFiles hg).1 hFiles ?_
          rw [hRel, ← hEq]
        exact ⟨g, hg, hRel, fun _ ht => ht⟩
    · exact ⟨h.full, h.held, hStaged⟩
  · exact ⟨h.full, h.held, hStaged⟩

theorem ledger_stepTables {r : Reading} (h : Ledger s) (hStaged : Staged s.world s.sync.store p)
    (hListing : Listing s.world r.rel r.tables) : Ledger (s.stepTables p todo r) := by
  unfold State.stepTables
  split
  · exact ⟨h.full, h.held, hStaged.le, hStaged.rows⟩
  · rename_i t ts hTables
    refine ⟨h.full, h.held, hStaged, ?_⟩
    rw [hTables] at hListing
    exact hListing

theorem ledger_stepPage {r : Reading} {t : String × String} {wm : Watermark} {n : Nat}
    (hPc : s.pc = .pages p todo r t wm n) (hInv : Inv s) (h : Ledger s)
    (hPlain : pagePlain x s io = true) : Ledger (s.stepPage x io p todo r t wm n) := by
  have hFlags := hInv.flags
  have hAt := h.staged
  simp only [Flags, hPc] at hFlags
  simp only [StagedAt, hPc] at hAt
  simp only [pagePlain, hPc] at hPlain
  obtain ⟨hStaged, f, hf, hRel, hListed⟩ := hAt
  unfold State.stepPage
  cases hPage : s.readPageOf x io r t wm with
  | error e => exact ⟨h.full, h.held, trivial⟩
  | ok rows =>
    have hRows : ∀ row ∈ rows, isRevokeRow row = false := by simpa [hPage] using hPlain
    have hStaged' := hStaged.page hFlags.2.2.2 hPage hRows hf hRel
      (hListed t List.mem_cons_self) (h.full f hf) (tableSession x t.2 s.sync.store)
    have hRest : Listing s.world r.rel r.tables :=
      ⟨f, hf, hRel, fun t' ht' => hListed t' (List.mem_cons_of_mem _ ht')⟩
    dsimp only
    split
    · exact ⟨h.full, h.held, hStaged', hRest⟩
    · split
      · exact ⟨h.full, h.held, hStaged', hRest⟩
      · exact ⟨h.full, h.held, hStaged', f, hf, hRel, hListed⟩

theorem ledger_stepApply (hBase : Base s.world s.sync) (h : Ledger s)
    (hStaged : Staged s.world s.sync.store p) : Ledger (s.stepApply p) := by
  unfold State.stepApply
  rw [if_neg (by simp [hBase.running])]
  refine ⟨h.full, ?_, trivial⟩
  change ((p.applyTo s.sync.store).1.records.map MessageRecord.sourceRow).Perm
    (s.world.below (p.applyTo s.sync.store).1.watermark)
  rw [watermark_applyTo]
  exact (records_applyTo p s.sync.store).trans
    ((h.held.append hStaged.rows).trans (Cursors.below_append_between hStaged.le))

/-- A store with the same conversations and watermarks. -/
theorem Held.frame {w : World} {s s' : Store} (h : Held w s) (hConvs : s'.convs = s.convs)
    (hMarks : s'.watermarks = s.watermarks) : Held w s' := by
  have hWm : s'.watermark = s.watermark := by
    funext k
    rw [Store.watermark, hMarks, Store.watermark]
  rw [Held, Store.records, hConvs, hWm]
  exact h

theorem ledger_stepReload {counts : Nat × Nat} (h : Ledger s) :
    Ledger (s.stepReload x io p counts todo) := by
  unfold State.stepReload
  split
  · exact ⟨h.full, h.held, trivial⟩
  · split <;> exact ⟨h.full, h.held, trivial⟩
  · split
    · exact ⟨h.full, h.held, trivial⟩
    · rename_i k _ _ _
      split
      · rename_i key src _ _
        refine ⟨h.full, h.held.frame ?_ ?_, trivial⟩
        · dsimp only
          split
          · exact (convs_reloadSection x k src.db s.sync.store).1
          · rfl
        · dsimp only
          split
          · exact (convs_reloadSection x k src.db s.sync.store).2
          · rfl
      · exact ⟨h.full, h.held, trivial⟩

theorem ledger_stepBook {counts : Nat × Nat} (h : Ledger s) :
    Ledger (s.stepBook io p counts todo) := by
  unfold State.stepBook
  split
  · exact ⟨h.full, h.held.frame rfl rfl, trivial⟩
  · split
    · split
      · exact ⟨h.full, h.held, trivial⟩
      · exact ⟨h.full, h.held, trivial⟩
    · exact ⟨h.full, h.held, trivial⟩

theorem ledger_tick {t : State} (hInv : Inv s) (h : Ledger s) (hOk : pagePlain x s io = true)
    (hStep : s.tick x io = some t) : Ledger t := by
  have hFlags := hInv.flags
  have hAt := h.staged
  unfold State.tick at hStep
  unfold Flags at hFlags
  unfold StagedAt at hAt
  cases hPc : s.pc with
  | idle => simp [hPc] at hStep
  | files p todo =>
    simp only [hPc, Option.some.injEq] at hStep hFlags hAt
    exact hStep ▸ ledger_stepFiles h hFlags hAt
  | tables p todo r =>
    simp only [hPc, Option.some.injEq] at hStep hAt
    exact hStep ▸ ledger_stepTables h hAt.1 hAt.2
  | pages p todo r t wm n =>
    simp only [hPc, Option.some.injEq] at hStep
    exact hStep ▸ ledger_stepPage hPc hInv h hOk
  | apply p =>
    simp only [hPc, Option.some.injEq] at hStep hAt
    exact hStep ▸ ledger_stepApply hInv.base h hAt
  | reload p counts todo =>
    simp only [hPc, Option.some.injEq] at hStep
    exact hStep ▸ ledger_stepReload h
  | book p counts todo =>
    simp only [hPc, Option.some.injEq] at hStep
    exact hStep ▸ ledger_stepBook h

end

/-- The staged watermarks are not behind the stored ones. -/
theorem Ledger.le_marks {s : State} (h : Ledger s) (k : WmKey) :
    s.sync.store.watermark k ≤ s.marks k := by
  have hAt := h.staged
  unfold StagedAt at hAt
  unfold State.marks
  cases hPc : s.pc with
  | files p todo =>
    simp only [hPc] at hAt
    exact hAt.le k
  | tables p todo r =>
    simp only [hPc] at hAt
    exact hAt.1.le k
  | pages p todo r t wm n =>
    simp only [hPc] at hAt
    exact hAt.1.le k
  | apply p =>
    simp only [hPc] at hAt
    exact hAt.le k
  | _ => exact le_rfl

/-- **One step.** -/
theorem ledger_step {x : Codec} {s t : State} {op : Op} (hInv : Inv s) (h : Ledger s)
    (hOk : LedgerOk x s op) (hStep : step x s op = some t) : Ledger t := by
  cases op with
  | commit rel stamps db =>
    obtain rfl := Option.some.inj hStep
    exact ledger_commit h hOk h.le_marks
  | setKeys keys =>
    simp only [step] at hStep
    split at hStep <;> cases hStep
    exact ⟨h.full, h.held, h.staged⟩
  | stop =>
    obtain rfl := Option.some.inj hStep
    exact ⟨h.full, h.held, h.staged⟩
  | poll pragmaOk =>
    simp only [step] at hStep
    split at hStep <;> cases hStep
    unfold State.poll
    split
    · exact ⟨h.full, h.held, h.staged⟩
    · dsimp only
      split
      · exact ⟨h.full, h.held, h.staged⟩
      · refine ⟨h.full, h.held, fun _ => le_rfl, ?_⟩
        change List.Perm [] (s.world.between s.sync.store.watermark s.sync.store.watermark)
        rw [World.between, Cursors.between_self]
  | tick io => exact ledger_tick hInv h hOk hStep

/-! ## The full sync -/

/-- A row of a file, with the table it stands in. -/
theorem mem_sources {f : Source} {r : SourceRow} : r ∈ f.sources ↔
    ∃ t ∈ messageTables f.db, ∃ c, f.cols t.1 = some c ∧
      ∃ row ∈ f.db.msgRows t.1, r = c.sourceRow (f.wmKey t.1) row := by
  simp only [Source.sources, List.mem_flatMap, Source.tableSources]
  refine exists_congr fun t => and_congr_right fun _ => ?_
  cases f.cols t.1 with
  | none => simp
  | some c => simp [eq_comm]

theorem cleanAt_iff {f : Source} {g : WmKey → Watermark} :
    f.CleanAt g ↔ ∀ r ∈ f.sources, r.mark ≤ g r.origin := by
  constructor
  · intro h r hr
    obtain ⟨t, ht, c, hCols, row, hRow, rfl⟩ := mem_sources.mp hr
    exact h t ht c hCols row hRow
  · intro h t ht c hCols row hRow
    exact h _ (mem_sources.mpr ⟨t, ht, c, hCols, row, hRow, rfl⟩)

theorem mem_world_sources {w : World} {r : SourceRow} :
    r ∈ w.sources ↔ ∃ f ∈ w.messageFiles, r ∈ f.sources := List.mem_flatMap

/-- No message file has a row above the watermarks. -/
def Drained (s : State) : Prop :=
  ∀ f ∈ s.world.messageFiles, f.CleanAt s.sync.store.watermark

theorem Drained.below {s : State} (h : Drained s) :
    s.world.below s.sync.store.watermark = s.world.sources := by
  refine Cursors.below_eq_self fun r hr => ?_
  obtain ⟨f, hf, hr⟩ := mem_world_sources.mp hr
  exact cleanAt_iff.mp (h f hf) r hr

section

variable {x : Codec} {wxid : String} {keys : KeyMap} {w : World} {io : BuildIo} {nowMs : Int}

/-- The full sync holds the rows at or below its watermarks, if the rows of a file it could not
open are above zero. -/
theorem ledger_start (hLoads : ∀ k, io.loadFails k = false)
    (hFull : ∀ f ∈ w.messageFiles, f.db.AllFull)
    (hZero : ∀ f ∈ w.messageFiles,
      (start x wxid keys w io nowMs).sync.pool.isOpen f.rel = false →
        ∀ r ∈ f.sources, .zero < r.mark) :
    Ledger (start x wxid keys w io nowMs) := by
  obtain ⟨scanned, hBuilt⟩ : BuiltSome w io (buildAllLive x wxid keys w io {} nowMs) :=
    built_buildAllLive nowMs
  refine ⟨hFull, ?_, trivial⟩
  unfold start AccountSync.fullSync at hZero ⊢
  rcases hRes : buildAllLive x wxid keys w io {} nowMs with ⟨pool, store⟩
  rw [hRes] at hBuilt hZero
  simp only [Bool.false_eq_true, if_false] at hZero ⊢
  have hScanned : ∀ f ∈ scanned, f.CleanAt store.watermark := fun f hf t ht c hCols r hr =>
    hBuilt.mark_le f hf t ht (hLoads _) c hCols r hr
  have hLoaded : (store.records.map MessageRecord.sourceRow).Perm
      (scanned.flatMap Source.sources) := by
    refine hBuilt.records.trans (List.Perm.of_eq (List.flatMap_congr fun f _ => ?_))
    exact List.flatMap_congr fun t _ => if_neg (by simp [hLoads])
  refine hLoaded.trans (List.Perm.of_eq ?_)
  have hBelow : w.below store.watermark =
      w.messageFiles.flatMap fun f => f.sources.filter fun r =>
        decide (r.mark ≤ store.watermark r.origin) := List.filter_flatMap
  change _ = w.below store.watermark
  rw [hBelow, Cursors.flatMap_sublist hBuilt.scanned_sublist messageFiles_rels_nodup.of_map]
  · refine List.flatMap_congr fun f hf => ?_
    refine (List.filter_eq_self.mpr fun r hr => ?_).symm
    simpa using cleanAt_iff.mp (hScanned f hf) r hr
  · intro f hf hNot
    refine List.filter_eq_nil_iff.mpr fun r hr => ?_
    have hClosed : pool.isOpen f.rel = false := by
      by_contra hOpen
      exact hNot (hBuilt.open_scanned f hf (by simpa using hOpen))
    have hOther : ∀ g ∈ scanned, g.rel ≠ r.origin.rel := by
      intro g hg hRel
      rw [rel_origin_of_mem_sources hr] at hRel
      have hgFiles := hBuilt.scanned_sublist.subset hg
      obtain rfl := eq_of_rel_eq (mem_files_of_messageFiles hgFiles).1
        (mem_files_of_messageFiles hf).1 hRel
      exact hNot hg
    rw [hBuilt.watermark_other r.origin hOther]
    simpa using hZero f hf hClosed r hr

end

end Sync

end Weflow
