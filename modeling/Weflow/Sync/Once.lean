import Weflow.Sync.Pushes
import Weflow.Sync.Walk

/-!
# Failed polls

A poll that returns an error has changed nothing but connections, and the next one reads the same
rows again. Since what is read lies above the watermark of its table, and what is stored does not,
no row is stored twice, whichever polls fail (`failed_poll_and_once`). Tables need a sequence
column, without which the watermark and the order of the read differ, and their rows have to stay.
-/

namespace Weflow

/-- Message tables have a sequence column. -/
def Db.Sequenced (db : Db) : Prop :=
  ∀ table, (msgSuffix table).isSome → ∀ c, MsgCols.probe (tableColumns db table) = some c →
    c.seq.isSome

namespace Sync

/-! ## Rows of the tables -/

/-- A row of a table is known by its table and its local id. -/
def rowId (r : SourceRow) : WmKey × Int := (r.origin, r.localId)

/-- The row stands in its table. -/
def Stands (w : World) (r : SourceRow) : Prop :=
  ∃ f ∈ w.messageFiles, f.rel = r.origin.rel ∧ r ∈ f.tableSources r.origin.table

/-- Two rows of one table with one local id are one row. -/
theorem Stands.eq {w : World} {a b : SourceRow} (ha : Stands w a) (hb : Stands w b)
    (hId : rowId a = rowId b) : a = b := by
  obtain ⟨f, hf, hRel, hMem⟩ := ha
  obtain ⟨g, hg, hRel', hMem'⟩ := hb
  obtain ⟨hOrigin, hLocal⟩ := Prod.mk.inj hId
  rw [← hOrigin] at hRel' hMem'
  obtain rfl := eq_of_rel_eq (mem_files_of_messageFiles hf).1 (mem_files_of_messageFiles hg).1
    (hRel.trans hRel'.symm)
  unfold Source.tableSources at hMem hMem'
  split at hMem
  · rename_i c hCols
    rw [hCols] at hMem'
    obtain ⟨row, hRow, hEq⟩ := List.mem_map.mp hMem
    obtain ⟨row', hRow', hEq'⟩ := List.mem_map.mp hMem'
    have hSame : row = row' := by
      refine List.inj_on_of_nodup_map (f.db.msgRows_ids_nodup a.origin.table) hRow hRow' ?_
      rw [← hEq, ← hEq'] at hLocal
      exact hLocal
    rw [← hEq, ← hEq', hSame]
  · cases hMem

/-- The commit to a file leaves the rows of its tables as they are: it only adds some. -/
structure AddsRows (w : World) (rel : String) (db : Db) : Prop where
  sequenced : db.Sequenced
  kept : ∀ f ∈ w.messageFiles, f.rel = rel → ∀ table, f.tableSources table ⊆
    ({ f with db } : Source).tableSources table

theorem Stands.commit {w : World} {r : SourceRow} {rel : String} {stamps : DbStamps} {db : Db}
    (h : Stands w r) (hAdds : AddsRows w rel db) : Stands (World.commit w rel stamps db) r := by
  obtain ⟨f, hf, hRel, hMem⟩ := h
  obtain ⟨hFiles, hKind⟩ := mem_files_of_messageFiles hf
  refine ⟨_, List.mem_filter.mpr ⟨List.mem_map_of_mem hFiles, ?_⟩, ?_, ?_⟩
  · split <;> simpa using hKind
  · split <;> exact hRel
  · split
    · rename_i hEq
      exact hAdds.kept f hf hEq _ hMem
    · exact hMem

/-- The rows of different tables, and of one table, have different ids. -/
theorem nodup_rowId_loaded {w : World} {scanned : List Source} (fails : WmKey → Bool)
    (h : scanned.Sublist w.messageFiles) : ((scanned.flatMap fun f =>
      (messageTables f.db).flatMap (loadedSources fails f)).map rowId).Nodup := by
  have hTable : ∀ (f : Source) (t : String), ((f.tableSources t).map rowId).Nodup := by
    intro f t
    unfold Source.tableSources
    split
    · rename_i c hCols
      rw [List.map_map]
      refine List.Nodup.of_map Prod.snd ?_
      rw [List.map_map]
      exact f.db.msgRows_ids_nodup t
    · exact List.nodup_nil
  have hLoaded : ∀ (f : Source) (t : String × String), ∀ r ∈ loadedSources fails f t,
      r.origin = f.wmKey t.1 := by
    intro f t r hr
    unfold loadedSources at hr
    split at hr
    · cases hr
    · exact origin_of_mem_tableSources hr
  rw [List.map_flatMap, List.nodup_flatMap]
  refine ⟨fun f _ => ?_, ?_⟩
  · rw [List.map_flatMap, List.nodup_flatMap]
    refine ⟨fun t _ => ?_, ?_⟩
    · unfold loadedSources
      split
      · exact List.nodup_nil
      · exact hTable f t.1
    · refine (List.pairwise_map.mp (messageTables_names_nodup f.db)).imp fun {t t'} hNe => ?_
      intro k hk hk'
      obtain ⟨r, hr, rfl⟩ := List.mem_map.mp hk
      obtain ⟨r', hr', hEq⟩ := List.mem_map.mp hk'
      have hOrigin : r'.origin = r.origin := congrArg Prod.fst hEq
      rw [hLoaded f t r hr, hLoaded f t' r' hr'] at hOrigin
      exact hNe (congrArg WmKey.table hOrigin).symm
  · have hRels := messageFiles_rels_nodup (w := w) |>.sublist (h.map fun f => f.rel)
    refine (List.pairwise_map.mp hRels).imp fun {f f'} hNe => ?_
    intro k hk hk'
    obtain ⟨r, hr, rfl⟩ := List.mem_map.mp hk
    obtain ⟨r', hr', hEq⟩ := List.mem_map.mp hk'
    obtain ⟨t, -, hr⟩ := List.mem_flatMap.mp hr
    obtain ⟨t', -, hr'⟩ := List.mem_flatMap.mp hr'
    have hOrigin : r'.origin = r.origin := congrArg Prod.fst hEq
    rw [hLoaded f t r hr, hLoaded f' t' r' hr'] at hOrigin
    exact hNe (congrArg WmKey.rel hOrigin).symm

/-! ## Rows stored and announced once -/

/-- The event announces a new message. -/
def isNew : Event → Bool
  | .new _ => true
  | _ => false

/-- The announcements are those of the records that were added to `base`, each of them the one built
for its record: one for every record of somebody else, in the order of its conversation, and none
for one's own. -/
def Announced (base s : Store) (events : List Event) : Prop :=
  ∃ rows : List (String × MessageRecord), List.Forall₂ EventOf (events.filter isNew) rows ∧
    (rows.map fun sr => rowId sr.2.sourceRow).Nodup ∧
    ∀ u, ∃ added, s.conv u = base.conv u ++ added ∧
      (rows.filter fun sr => sr.1 = u).map Prod.snd = added.filter fun m => !m.isSend

/-- No row is in the store twice, and none of those that were added to `base` was announced
twice. -/
structure Once (base : Store) (s : State) : Prop where
  stored : (s.sync.store.records.map fun r => rowId r.sourceRow).Nodup
  announced : Announced base s.sync.store s.sync.published

/-- What the running poll has staged: rows above the stored watermarks, each once. -/
structure NewOnce (w : World) (s : Store) (p : Poll) : Prop where
  le : ∀ k, s.watermark k ≤ p.staged s k
  inTable : ∀ sr ∈ p.newRows, Stands w sr.2.sourceRow
  above : ∀ sr ∈ p.newRows, s.watermark sr.2.origin < sr.2.mark
  below : ∀ sr ∈ p.newRows, sr.2.mark ≤ p.staged s sr.2.origin
  nodup : (p.newRows.map fun sr => rowId sr.2.sourceRow).Nodup

/-- The poll whose rows are staged, and not yet applied. -/
def Pc.poll? : Pc → Option Poll
  | .files p _ | .tables p _ _ | .pages p _ _ _ _ _ | .apply p => some p
  | _ => none

/-- Every row stored or staged is in its table, at or below the watermark that goes with it. -/
structure Applied (base : Store) (s : State) : Prop where
  sequenced : ∀ f ∈ s.world.messageFiles, f.db.Sequenced
  inTable : ∀ r ∈ s.sync.store.records, Stands s.world r.sourceRow
  below : ∀ r ∈ s.sync.store.records, r.mark ≤ s.sync.store.watermark r.origin
  once : Once base s
  staged : ∀ p, s.pc.poll? = some p → NewOnce s.world s.sync.store p

/-- Tables keep their rows. -/
def KeepsRows (s : State) : Op → Prop
  | .commit rel _ db => AddsRows s.world rel db
  | _ => True

/-! ## A page -/

section

variable {x : Codec} {s : State} {io : Io} {p : Poll} {todo : List Work} {r : Reading}
  {t : String × String} {wm : Watermark} {page : List MessageRecord}

/-- What a page of a table with a sequence column holds. -/
structure PageOf (w : World) (k : WmKey) (wm : Watermark) (page : List MessageRecord) : Prop where
  origin : ∀ row ∈ page, row.origin = k
  inTable : ∀ row ∈ page, Stands w row.sourceRow
  above : ∀ row ∈ page, wm < row.mark
  below : ∀ row ∈ page, row.mark ≤ Keyset.cursorAfter MessageRecord.mark wm page
  nodup : (page.map fun row => rowId row.sourceRow).Nodup

theorem pageOf_readPageOf (hPage : s.readPageOf x io r t wm = .ok page)
    (hSeq : ∀ f ∈ s.world.messageFiles, f.db.Sequenced)
    (hFile : ∃ f ∈ s.world.messageFiles, f.rel = r.rel) (hNamed : (msgSuffix t.1).isSome) :
    PageOf s.world ⟨r.rel, t.1⟩ wm page := by
  obtain ⟨f, c, hSrc, hCols, hTime, hRows⟩ := readPageOf_ok hPage
  obtain ⟨g, hg, hRel⟩ := hFile
  obtain rfl : f = g := by
    rw [← hRel, World.source?_of_mem (mem_files_of_messageFiles hg).1] at hSrc
    exact (Option.some.inj hSrc).symm
  have hFull : c.Full := ⟨hTime, hSeq f hg t.1 hNamed c hCols⟩
  have hKey : c.orderKey = c.mark := funext fun row => MsgCols.orderKey_eq_mark hFull row
  have hRow : ∀ row ∈ page, ∃ m ∈ newRows c wm (f.db.msgRows t.1),
      row.sourceRow = c.sourceRow ⟨r.rel, t.1⟩ m := by
    intro row hMem
    rw [hRows] at hMem
    obtain ⟨m, hm, rfl⟩ := List.mem_map.mp hMem
    exact ⟨m, hm, rfl⟩
  refine ⟨fun row hMem => ?_, fun row hMem => ?_, fun row hMem => ?_, fun row hMem => ?_, ?_⟩
  · obtain ⟨m, -, hEq⟩ := hRow row hMem
    exact congrArg SourceRow.origin hEq
  · obtain ⟨m, hm, hEq⟩ := hRow row hMem
    refine ⟨f, hg, ?_, ?_⟩
    · rw [hEq]
      exact hRel
    · rw [hEq, origin_sourceRow, Source.tableSources, hCols, Source.wmKey, hRel]
      exact List.mem_map_of_mem (Keyset.mem_of_mem_page hm).1
  · obtain ⟨m, hm, hEq⟩ := hRow row hMem
    have hAbove := (Keyset.mem_of_mem_page hm).2
    rw [hKey] at hAbove
    change wm < row.sourceRow.mark
    rw [hEq]
    exact hAbove
  · obtain ⟨m, hm, hEq⟩ := hRow row hMem
    have hPerm : m ∈ (f.db.msgRows t.1).filter fun row => wm < c.mark row ∧
        c.mark row ≤ Keyset.cursorAfter c.mark wm (newRows c wm (f.db.msgRows t.1)) := by
      have hNodup : ((f.db.msgRows t.1).map c.mark).Nodup :=
        hKey ▸ MsgCols.orderKey_nodup (f.db.msgRows_ids_nodup t.1)
      have := Keyset.page_perm_between (n := readPage) (w := wm) hNodup
      rw [newRows, hKey] at hm ⊢
      exact this.mem_iff.mp hm
    have hLe := (of_decide_eq_true (List.mem_filter.mp hPerm).2).2
    rw [hRows, cursorAfter_map]
    change row.sourceRow.mark ≤ _
    rw [hEq]
    exact hLe
  · rw [hRows, List.map_map]
    refine List.Nodup.of_map Prod.snd ?_
    rw [List.map_map]
    have hIds : ((newRows c wm (f.db.msgRows t.1)).map MsgRow.localId).Nodup := by
      have hSorted := (Keyset.perm_sortBy c.orderKey
        ((f.db.msgRows t.1).filter fun row => wm < c.orderKey row)).map MsgRow.localId
      refine List.Nodup.sublist (Keyset.page_sublist_after.map _) (hSorted.nodup_iff.mpr ?_)
      exact (f.db.msgRows_ids_nodup t.1).sublist (List.filter_sublist.map _)
    exact hIds

/-- A page of a table is staged on top of what was staged before. -/
theorem NewOnce.stageAll {w : World} {st : Store} (h : NewOnce w st p) {session : String} {k : WmKey}
    (hPage : PageOf w k wm page) (hWm : p.staged st k = wm) :
    NewOnce w st (p.stageAll session k page) := by
  have hAt : (p.stageAll session k page).staged st k =
      Keyset.cursorAfter MessageRecord.mark wm page := by
    rw [staged_stageAll, hWm]
  have hUpTable : wm ≤ Keyset.cursorAfter MessageRecord.mark wm page := by
    rcases List.eq_nil_or_concat page with hNil | ⟨q, z, hz⟩
    · rw [hNil, Keyset.cursorAfter_nil]
    · have hMem : z ∈ page := by
        rw [hz, List.concat_eq_append]
        exact List.mem_append_right _ List.mem_cons_self
      exact (hPage.above z hMem).le.trans (hPage.below z hMem)
  have hUp : ∀ k', p.staged st k' ≤ (p.stageAll session k page).staged st k' := by
    intro k'
    by_cases hk : k' = k
    · rw [hk, hAt, hWm]
      exact hUpTable
    · rw [staged_stageAll_ne p session k page st hk]
  have hNew : ∀ sr ∈ (p.stageAll session k page).newRows, sr ∈ p.newRows ∨ sr.2 ∈ page := by
    intro sr hsr
    rw [newRows_stageAll] at hsr
    rcases List.mem_append.mp hsr with hOld | hsr
    · exact .inl hOld
    · obtain ⟨row, hRow, rfl⟩ := List.mem_map.mp hsr
      exact .inr (List.mem_of_mem_filter hRow)
  have hStart : st.watermark k ≤ wm := hWm ▸ h.le k
  refine ⟨fun k' => (h.le k').trans (hUp k'), fun sr hsr => ?_, fun sr hsr => ?_,
    fun sr hsr => ?_, ?_⟩
  · exact (hNew sr hsr).elim (h.inTable sr) (hPage.inTable sr.2)
  · rcases hNew sr hsr with hOld | hRow
    · exact h.above sr hOld
    · rw [hPage.origin sr.2 hRow]
      exact hStart.trans_lt (hPage.above sr.2 hRow)
  · rcases hNew sr hsr with hOld | hRow
    · exact (h.below sr hOld).trans (hUp _)
    · rw [hPage.origin sr.2 hRow, hAt]
      exact hPage.below sr.2 hRow
  · rw [newRows_stageAll, List.map_append, List.map_map, List.nodup_append]
    refine ⟨h.nodup, hPage.nodup.sublist (List.filter_sublist.map _), ?_⟩
    -- a staged row of the table is at or below the cursor, a row of the page above it
    rintro id hOld id' hRow rfl
    obtain ⟨sr, hsr, hEq⟩ := List.mem_map.mp hOld
    obtain ⟨row, hMem, hEq'⟩ := List.mem_map.mp hRow
    have hRowMem := List.mem_of_mem_filter hMem
    have hSame := (h.inTable sr hsr).eq (hPage.inTable row hRowMem) (hEq.trans hEq'.symm)
    have hOrigin : sr.2.origin = k :=
      (congrArg SourceRow.origin hSame).trans (hPage.origin row hRowMem)
    have hBelow := h.below sr hsr
    rw [hOrigin, hWm] at hBelow
    have hMark : sr.2.mark = row.mark := congrArg SourceRow.mark hSame
    exact absurd (hMark ▸ hPage.above row hRowMem) (not_lt.mpr hBelow)

/-! ## Steps that apply nothing -/

/-- The conversations, the watermarks and the events stay. -/
theorem Applied.frame {t : State} (h : Applied base s) (hWorld : t.world = s.world)
    (hConvs : t.sync.store.convs = s.sync.store.convs)
    (hMarks : t.sync.store.watermarks = s.sync.store.watermarks)
    (hEvents : t.sync.published = s.sync.published)
    (hStaged : ∀ p, t.pc.poll? = some p → NewOnce t.world t.sync.store p) : Applied base t := by
  have hRecords : t.sync.store.records = s.sync.store.records := by
    rw [Store.records, hConvs, Store.records]
  have hConv : t.sync.store.conv = s.sync.store.conv := by
    funext u
    rw [Store.conv, hConvs, Store.conv]
  have hWm : t.sync.store.watermark = s.sync.store.watermark := by
    funext k
    rw [Store.watermark, hMarks, Store.watermark]
  refine ⟨?_, ?_, ?_, ⟨?_, ?_⟩, hStaged⟩
  · rw [hWorld]
    exact h.sequenced
  · rw [hWorld, hRecords]
    exact h.inTable
  · rw [hRecords, hWm]
    exact h.below
  · rw [hRecords]
    exact h.once.stored
  · rw [hEvents, Announced, hConv]
    exact h.once.announced

/-- No poll is on the way to being applied. -/
theorem newOnce_none {w : World} {st : Store} {pc : Pc} (h : pc.poll? = none) :
    ∀ p, pc.poll? = some p → NewOnce w st p := fun p hp => by
  rw [h] at hp
  cases hp

theorem NewOnce.congr {w : World} {st : Store} {p' : Poll} (h : NewOnce w st p)
    (hNew : p'.newRows = p.newRows) (hMarks : p'.newWatermarks = p.newWatermarks) :
    NewOnce w st p' := by
  have hStaged : p'.staged st = p.staged st := by
    funext k
    rw [Poll.staged, hMarks, Poll.staged]
  refine ⟨?_, ?_, ?_, ?_, ?_⟩
  · rw [hStaged]
    exact h.le
  · rw [hNew]
    exact h.inTable
  · rw [hNew]
    exact h.above
  · rw [hNew, hStaged]
    exact h.below
  · rw [hNew]
    exact h.nodup

theorem applied_stepFiles (h : Applied base s) (hPc : s.pc = .files p todo) :
    Applied base (s.stepFiles io p todo) := by
  have hNew : NewOnce s.world s.sync.store p := h.staged p (by rw [hPc]; rfl)
  rcases stepFiles_cases s io p todo with ⟨-, hStep⟩ | ⟨w, rest, -, hStep, -⟩ |
    ⟨m, rest, key, src, -, -, -, ⟨e, pool, -, -, hStep⟩ | ⟨-, hStep⟩⟩
  all_goals
    rw [hStep]
    refine h.frame rfl rfl rfl rfl fun q hq => ?_
    obtain rfl := Option.some.inj hq
  · exact hNew
  · exact hNew
  · exact hNew
  · exact hNew.congr rfl rfl

theorem applied_stepTables (h : Applied base s) (hPc : s.pc = .tables p todo r) :
    Applied base (s.stepTables p todo r) := by
  have hNew : NewOnce s.world s.sync.store p := h.staged p (by rw [hPc]; rfl)
  unfold State.stepTables
  split
  all_goals
    refine h.frame rfl rfl rfl rfl fun q hq => ?_
    obtain rfl := Option.some.inj hq
  · exact hNew.congr rfl rfl
  · exact hNew

theorem applied_stepPage {n : Nat} (hSound : Sound s) (h : Applied base s)
    (hPc : s.pc = .pages p todo r t wm n) : Applied base (s.stepPage x io p todo r t wm n) := by
  have hNew : NewOnce s.world s.sync.store p := h.staged p (by rw [hPc]; rfl)
  have hWalk := hSound.walk
  simp only [Walk, hPc] at hWalk
  obtain ⟨-, -, hOpened, hTable⟩ := hWalk
  unfold State.stepPage
  cases hPage : s.readPageOf x io r t wm with
  | error e => exact h.frame rfl rfl rfl rfl (newOnce_none rfl)
  | ok rows =>
    have hRows := pageOf_readPageOf hPage h.sequenced hOpened.file hTable.named
    have hNext : NewOnce s.world s.sync.store
        (p.stageAll (tableSession x t.2 s.sync.store) ⟨r.rel, t.1⟩ rows) :=
      hNew.stageAll hRows hTable.cursor
    dsimp only
    repeat' split
    all_goals
      refine h.frame rfl rfl rfl rfl fun q hq => ?_
      obtain rfl := Option.some.inj hq
      exact hNext

/-! ## The step that applies -/

theorem filter_isNew_news {news : List Event} {rows : List (String × MessageRecord)}
    (h : List.Forall₂ EventOf news rows) : news.filter isNew = news := by
  induction h with
  | nil => rfl
  | cons hOne _ ih =>
    obtain ⟨st, rfl⟩ := hOne
    rw [List.filter_cons_of_pos rfl, ih]

theorem filter_isNew_revokes (st : Store) (rows : List (String × MessageRecord)) :
    (revokeEvents st rows).filter isNew = [] := by
  refine List.filter_eq_nil_iff.mpr fun e he => ?_
  obtain ⟨sr, -, rfl⟩ := List.mem_map.mp he
  simp [isNew]

/-- The rows that are added now are announced behind those of before, and are none of them. -/
theorem Announced.applyTo {base st : Store} {events : List Event} (h : Announced base st events)
    (hStored : ∀ id ∈ st.records.map fun m => rowId m.sourceRow,
      id ∉ p.newRows.map fun sr => rowId sr.2.sourceRow)
    (hNodup : (p.newRows.map fun sr => rowId sr.2.sourceRow).Nodup) :
    Announced base (p.applyTo st).1 (events ++ (p.applyTo st).2) := by
  obtain ⟨rows, hRows, hOnce, hAdded⟩ := h
  obtain ⟨news, hEvents, hNews⟩ := events_applyTo p st
  have hIds : ((resolvedRows st p.newRows).map fun sr => rowId sr.2.sourceRow) =
      p.newRows.map fun sr => rowId sr.2.sourceRow := List.map_map
  have hIn : ∀ sr ∈ rows, rowId sr.2.sourceRow ∈ st.records.map fun m => rowId m.sourceRow := by
    intro sr hsr
    obtain ⟨added, hConv, hSame⟩ := hAdded sr.1
    have hMem : sr.2 ∈ added.filter fun m => !m.isSend := by
      rw [← hSame]
      exact List.mem_map_of_mem (List.mem_filter.mpr ⟨hsr, by simp⟩)
    refine List.mem_map_of_mem (Store.mem_records.mpr ⟨sr.1, ?_⟩)
    rw [hConv]
    exact List.mem_append_right _ (List.mem_of_mem_filter hMem)
  refine ⟨rows ++ (resolvedRows st p.newRows).filter fun sr => !sr.2.isSend, ?_, ?_, fun u => ?_⟩
  · rw [List.filter_append, hEvents, List.filter_append, filter_isNew_news hNews,
      filter_isNew_revokes, List.append_nil]
    exact List.rel_append hRows hNews
  · rw [List.map_append, List.nodup_append]
    refine ⟨hOnce, (hIds ▸ hNodup).sublist (List.filter_sublist.map _), ?_⟩
    rintro id hOld id' hRow rfl
    obtain ⟨sr, hsr, rfl⟩ := List.mem_map.mp hOld
    refine hStored _ (hIn sr hsr) ?_
    rw [← hIds]
    exact (List.filter_sublist.map _).subset hRow
  · obtain ⟨added, hConv, hSame⟩ := hAdded u
    refine ⟨added ++ ((resolvedRows st p.newRows).filter fun sr => sr.1 = u).map Prod.snd, ?_, ?_⟩
    · rw [conv_applyTo, hConv, List.append_assoc]
    · rw [List.filter_append, List.map_append, hSame, List.filter_append, List.filter_comm,
        List.filter_map]
      rfl

theorem applied_stepApply (h : Applied base s) (hPc : s.pc = .apply p) :
    Applied base (s.stepApply p) := by
  have hNew : NewOnce s.world s.sync.store p := h.staged p (by rw [hPc]; rfl)
  unfold State.stepApply
  split
  · exact h.frame rfl rfl rfl rfl (newOnce_none rfl)
  have hPerm := records_applyTo p s.sync.store
  have hIds : ((p.applyTo s.sync.store).1.records.map fun m => rowId m.sourceRow).Perm
      (s.sync.store.records.map (fun m => rowId m.sourceRow) ++
        p.newRows.map fun sr => rowId sr.2.sourceRow) := by
    have := hPerm.map rowId
    rwa [List.map_append, List.map_map, List.map_map, List.map_map] at this
  have hRow : ∀ m ∈ (p.applyTo s.sync.store).1.records,
      (∃ r ∈ s.sync.store.records, r.sourceRow = m.sourceRow) ∨
        ∃ sr ∈ p.newRows, sr.2.sourceRow = m.sourceRow := by
    intro m hm
    rcases List.mem_append.mp (hPerm.mem_iff.mp (List.mem_map_of_mem hm)) with hOld | hRow
    · exact .inl (List.mem_map.mp hOld)
    · exact .inr (List.mem_map.mp hRow)
  -- a stored row is at or below the watermark, a staged one above it
  have hStored : ∀ id ∈ s.sync.store.records.map fun m => rowId m.sourceRow,
      id ∉ p.newRows.map fun sr => rowId sr.2.sourceRow := by
    intro id hOld hStaged
    obtain ⟨r, hr, rfl⟩ := List.mem_map.mp hOld
    obtain ⟨sr, hsr, hEq⟩ := List.mem_map.mp hStaged
    have hSame := (hNew.inTable sr hsr).eq (h.inTable r hr) hEq
    have hAbove := hNew.above sr hsr
    have hBelow := h.below r hr
    have hMark : sr.2.mark = r.mark := congrArg SourceRow.mark hSame
    have hOrigin : sr.2.origin = r.origin := congrArg SourceRow.origin hSame
    rw [hMark, hOrigin] at hAbove
    exact absurd hAbove (not_lt.mpr hBelow)
  refine ⟨h.sequenced, fun m hm => ?_, fun m hm => ?_, ⟨?_, ?_⟩, newOnce_none rfl⟩
  · rcases hRow m hm with ⟨r, hr, hEq⟩ | ⟨sr, hsr, hEq⟩
    · exact hEq ▸ h.inTable r hr
    · exact hEq ▸ hNew.inTable sr hsr
  · change m.sourceRow.mark ≤ (p.applyTo s.sync.store).1.watermark m.sourceRow.origin
    rw [watermark_applyTo]
    rcases hRow m hm with ⟨r, hr, hEq⟩ | ⟨sr, hsr, hEq⟩
    · rw [← hEq]
      exact (h.below r hr).trans (hNew.le _)
    · rw [← hEq]
      exact hNew.below sr hsr
  · refine hIds.nodup_iff.mpr (List.nodup_append.mpr ⟨h.once.stored, hNew.nodup, ?_⟩)
    rintro id hOld id' hStaged rfl
    exact hStored id hOld hStaged
  · exact h.once.announced.applyTo hStored hNew.nodup

/-! ## The other steps -/

theorem applied_stepReload {counts : Nat × Nat} (h : Applied base s) :
    Applied base (s.stepReload x io p counts todo) := by
  unfold State.stepReload
  repeat' split
  all_goals first
    | exact h.frame rfl rfl rfl rfl (newOnce_none rfl)
    | exact h.frame rfl (convs_reloadSection x _ _ _).1 (convs_reloadSection x _ _ _).2 rfl
        (newOnce_none rfl)

theorem applied_stepBook {counts : Nat × Nat} (h : Applied base s) :
    Applied base (s.stepBook io p counts todo) := by
  unfold State.stepBook
  repeat' split
  all_goals exact h.frame rfl rfl rfl rfl (newOnce_none rfl)

theorem applied_poll (h : Applied base s) (pragmaOk : String → Bool) :
    Applied base (s.poll pragmaOk) := by
  unfold State.poll
  dsimp only
  repeat' split
  · exact h.frame rfl rfl rfl rfl h.staged
  · exact h.frame rfl rfl rfl rfl h.staged
  · refine h.frame rfl rfl rfl rfl fun q hq => ?_
    obtain rfl := Option.some.inj hq
    refine ⟨fun _ => le_rfl, ?_, ?_, ?_, List.nodup_nil⟩
    all_goals
      intro sr hsr
      cases hsr

theorem applied_commit {rel : String} {stamps : DbStamps} {db : Db} (h : Applied base s)
    (hAdds : AddsRows s.world rel db) :
    Applied base { s with world := World.commit s.world rel stamps db } := by
  refine ⟨fun f hf => ?_, fun m hm => (h.inTable m hm).commit hAdds, h.below, ⟨h.once.stored,
    h.once.announced⟩, fun q hq => ?_⟩
  · rcases mem_messageFiles_commit hf with ⟨hOld, -⟩ | ⟨g, -, -, rfl⟩
    · exact h.sequenced f hOld
    · exact hAdds.sequenced
  · have hNew : NewOnce s.world s.sync.store q := h.staged q hq
    exact ⟨hNew.le, fun sr hsr => (hNew.inTable sr hsr).commit hAdds, hNew.above, hNew.below,
      hNew.nodup⟩

/-- **One step.** -/
theorem applied_step {t : State} {op : Op} (hSound : Sound s) (h : Applied base s)
    (hKeeps : KeepsRows s op) (hStep : step x s op = some t) : Applied base t := by
  cases op with
  | commit rel stamps db =>
    obtain rfl := Option.some.inj hStep
    exact applied_commit h hKeeps
  | setKeys keys =>
    simp only [step] at hStep
    split at hStep <;> cases hStep
    exact h.frame rfl rfl rfl rfl h.staged
  | stop =>
    obtain rfl := Option.some.inj hStep
    exact h.frame rfl rfl rfl rfl h.staged
  | poll pragmaOk =>
    simp only [step] at hStep
    split at hStep <;> cases hStep
    exact applied_poll h pragmaOk
  | tick io =>
    have hTick : s.tick x io = some t := hStep
    unfold State.tick at hTick
    split at hTick
    · cases hTick
    all_goals
      rename_i hPc
      obtain rfl := Option.some.inj hTick
    · exact applied_stepFiles h hPc
    · exact applied_stepTables h hPc
    · exact applied_stepPage hSound h hPc
    · exact applied_stepApply h hPc
    · exact applied_stepReload h
    · exact applied_stepBook h

/-- The full sync stores every row once, and announces none. -/
theorem applied_start (x : Codec) (wxid : String) (keys : KeyMap) (w : World) (io : BuildIo)
    (nowMs : Int) (hSeq : ∀ f ∈ w.messageFiles, f.db.Sequenced) :
    Applied (start x wxid keys w io nowMs).sync.store (start x wxid keys w io nowMs) := by
  obtain ⟨scanned, hBuilt⟩ : BuiltSome w io (buildAllLive x wxid keys w io {} nowMs) :=
    built_buildAllLive nowMs
  unfold start AccountSync.fullSync
  rcases hRes : buildAllLive x wxid keys w io {} nowMs with ⟨pool, store⟩
  rw [hRes] at hBuilt
  simp only [Bool.false_eq_true, if_false]
  -- where a stored row was loaded from
  have hLoaded : ∀ m ∈ store.records, ∃ f ∈ scanned, ∃ t ∈ messageTables f.db,
      io.loadFails (f.wmKey t.1) = false ∧ m.sourceRow ∈ f.tableSources t.1 := by
    intro m hm
    have hMem := hBuilt.records.mem_iff.mp (List.mem_map_of_mem hm)
    obtain ⟨f, hf, hMem⟩ := List.mem_flatMap.mp hMem
    obtain ⟨t, ht, hMem⟩ := List.mem_flatMap.mp hMem
    unfold loadedSources at hMem
    split at hMem
    · cases hMem
    · rename_i hLoads
      exact ⟨f, hf, t, ht, by simpa using hLoads, hMem⟩
  refine ⟨hSeq, fun m hm => ?_, fun m hm => ?_, ⟨?_, [], .nil, List.nodup_nil, fun u => ?_⟩,
    newOnce_none rfl⟩
  · obtain ⟨f, hf, t, -, -, hMem⟩ := hLoaded m hm
    have hOrigin := origin_of_mem_tableSources hMem
    refine ⟨f, hBuilt.scanned_sublist.subset hf, ?_, ?_⟩
    · rw [hOrigin]
      rfl
    · rw [hOrigin]
      exact hMem
  · obtain ⟨f, hf, t, ht, hLoads, hMem⟩ := hLoaded m hm
    have hOrigin : m.origin = f.wmKey t.1 := origin_of_mem_tableSources hMem
    unfold Source.tableSources at hMem
    split at hMem
    · rename_i c hCols
      obtain ⟨row, hRow, hEq⟩ := List.mem_map.mp hMem
      have hMark : c.mark row = m.mark := congrArg SourceRow.mark hEq
      rw [hOrigin, ← hMark]
      exact hBuilt.mark_le f hf t ht hLoads c hCols row hRow
    · cases hMem
  · have := hBuilt.records.map rowId
    rw [List.map_map] at this
    exact this.nodup_iff.mpr (nodup_rowId_loaded io.loadFails hBuilt.scanned_sublist)
  · exact ⟨[], (List.append_nil _).symm, rfl⟩

end

/-! ## A poll that fails -/

/-- Store, stamps and events are as they were at the beginning of the poll, unless it has
applied. -/
def Untouched (s : State) (tr : State × List Row) : Prop :=
  match tr.1.pc with
  | .files _ _ | .tables _ _ _ | .pages _ _ _ _ _ _ | .apply _ =>
      tr.1.sync.store = s.sync.store ∧ tr.1.sync.stamps = s.sync.stamps ∧
        tr.1.sync.published = s.sync.published
  | .reload _ _ _ | .book _ _ _ => True
  | .idle => ∀ e, tr.1.result = .error e → tr.1.sync.store = s.sync.store ∧
      tr.1.sync.stamps = s.sync.stamps ∧ tr.1.sync.published = s.sync.published

section

variable {x : Codec} {s : State}

theorem untouched_poll (hIdle : s.pc = .idle) (pragmaOk : String → Bool) :
    Untouched s (s.poll pragmaOk, []) := by
  unfold State.poll
  dsimp only
  repeat' split
  · simp [Untouched, hIdle]
  · simp [Untouched, hIdle]
  · exact ⟨rfl, rfl, rfl⟩

theorem untouched_step {op : Op} {tr ur : State × List Row} (h : Untouched s tr)
    (hOp : SamePoll tr op) (hStep : readingStep x tr op = some ur) : Untouched s ur := by
  obtain ⟨t, rows⟩ := tr
  obtain ⟨u, hNext, rfl⟩ := Option.map_eq_some_iff.mp hStep
  cases op with
  | poll pragmaOk => exact hOp.elim
  | commit rel stamps db =>
    obtain rfl := Option.some.inj hNext
    exact h
  | setKeys keys =>
    simp only [step] at hNext
    split at hNext <;> cases hNext
    exact h
  | stop =>
    obtain rfl := Option.some.inj hNext
    exact h
  | tick io =>
    have hTick : t.tick x io = some u := hNext
    unfold State.tick at hTick
    split at hTick
    · cases hTick
    all_goals
      rename_i hPc
      obtain rfl := Option.some.inj hTick
      simp only [Untouched, hPc] at h
    · unfold State.stepFiles
      repeat' split
      all_goals exact h
    · unfold State.stepTables
      split <;> exact h
    · unfold State.stepPage
      split
      · exact fun e _ => h
      · dsimp only
        repeat' split
        all_goals exact h
    · unfold State.stepApply
      split
      · rintro e ⟨⟩
      · trivial
    · unfold State.stepReload
      repeat' split
      all_goals first
        | trivial
        | rintro e ⟨⟩
    · unfold State.stepBook
      repeat' split
      all_goals first
        | trivial
        | rintro e ⟨⟩

end

/-- A poll that fails leaves the store, the stamps and the events alone, whatever is committed
meanwhile; and in every run, whichever polls fail, no row is stored or announced twice. -/
theorem failed_poll_and_once (x : Codec) :
    (∀ (s : State) (pragmaOk : String → Bool) (t : State) (rows : List Row) (e : ReadError),
      s.pc = .idle → Runs.Run (readingStep x) SamePoll (s.poll pragmaOk, []) (t, rows) →
        t.pc = .idle → t.result = .error e → t.sync.store = s.sync.store ∧
          t.sync.stamps = s.sync.stamps ∧ t.sync.published = s.sync.published) ∧
    ∀ (wxid : String) (keys : KeyMap) (w : World) (io : BuildIo) (nowMs : Int) (t : State),
      (∀ f ∈ w.messageFiles, f.db.Sequenced) →
        Runs.Run (step x) KeepsRows (start x wxid keys w io nowMs) t →
          Once (start x wxid keys w io nowMs).sync.store t := by
  refine ⟨fun s pragmaOk t rows e hIdle hRun hEnd hErr => ?_,
    fun wxid keys w io nowMs t hSeq hRun => ?_⟩
  · have h := hRun.invariant (untouched_poll hIdle pragmaOk) fun tr op ur => untouched_step
    simp only [Untouched, hEnd] at h
    exact h e hErr
  · have h : Sound t ∧ Applied (start x wxid keys w io nowMs).sync.store t := by
      refine hRun.invariant
        (P := fun s => Sound s ∧ Applied (start x wxid keys w io nowMs).sync.store s)
        ⟨sound_start x wxid keys w io nowMs, applied_start x wxid keys w io nowMs hSeq⟩ ?_
      rintro s op u ⟨hSound, hApplied⟩ hKeeps hStep
      exact ⟨sound_step hSound hStep, applied_step hSound hApplied hKeeps hStep⟩
    exact h.2.once

end Sync

/-! ## A page that fails, and is read again -/

theorem Db.sequenced_of_full {db : Db} (h : ∀ t ∈ db.tables, t.columns = Increment.fullColumns) :
    db.Sequenced := by
  have hProbe : ∀ c, MsgCols.probe Increment.fullColumns = some c → c.seq.isSome := by
    rintro c ⟨⟩
    rfl
  have hNone : MsgCols.probe [] = none := rfl
  intro table _ c hCols
  unfold tableColumns at hCols
  split at hCols
  · cases hTable : db.table? table with
    | none =>
      rw [hTable, Option.map_none, Option.getD_none, hNone] at hCols
      cases hCols
    | some t =>
      rw [hTable, Option.map_some, Option.getD_some, h t (table?_mem hTable)] at hCols
      exact hProbe c hCols
  · rw [hNone] at hCols
    cases hCols

theorem Db.sequenced_ofU {rows : List MsgRow} (hIds : (rows.map MsgRow.localId).Nodup)
    (hPos : ∀ r ∈ rows, 0 < r.localId) : (Db.ofU rows hIds hPos).Sequenced :=
  sequenced_of_full fun t ht => by
    obtain rfl := List.mem_singleton.mp ht
    rfl

namespace Sync

/-- The message cannot be read at first. -/
def failedPoll : List Op :=
  [.poll fun _ => true, .tick {}, .tick {}, .tick { readFails := true }]

/-- The message is committed, a poll fails, and the next one stores it. -/
def retried : State :=
  (Runs.exec (step digestOfU) (fun _ => Op.isOwn) messageCommitted (failedPoll ++ pollOf 10)).getD
    quietStart

theorem keepsRows_of_isOwn (s : State) (op : Op) (h : op.isOwn = true) : KeepsRows s op := by
  cases op <;> trivial

theorem retried_run : Runs.Run (step digestOfU) KeepsRows quietStart retried := by
  have hExec : Runs.exec (step digestOfU) (fun _ => Op.isOwn) messageCommitted
      (failedPoll ++ pollOf 10) = some retried := rfl
  refine (Runs.Run.single messageCommit ⟨Db.sequenced_ofU _ _, ?_⟩ rfl).trans
    (Runs.run_of_exec _ keepsRows_of_isOwn hExec)
  intro f hf _ table r hr
  -- the table was empty
  obtain rfl := List.mem_singleton.mp hf
  unfold Source.tableSources at hr
  split at hr
  · have hEmpty : ∀ name, (Db.ofU [] (by decide) (by decide)).msgRows name = [] := by
      intro name
      unfold Db.msgRows
      cases hTable : (Db.ofU [] (by decide) (by decide)).table? name with
      | none => rfl
      | some t =>
        obtain rfl := List.mem_singleton.mp (table?_mem hTable)
        rfl
    obtain ⟨m, hm, -⟩ := List.mem_map.mp hr
    rw [hEmpty] at hm
    cases hm
  · cases hr

theorem failed_poll_and_once_retried :
    retried.sync.store.records.length = 1 ∧ retried.sync.published.length = 1 ∧
      Once quietStart.sync.store retried :=
  ⟨by decide, by decide, (failed_poll_and_once digestOfU).2 "" (fun _ => some "") quietWorld {} 0 retried
    (fun f hf => by
      obtain rfl := List.mem_singleton.mp hf
      exact Db.sequenced_of_full fun t ht => by
        obtain rfl := List.mem_singleton.mp ht
        rfl) retried_run⟩

end Sync

end Weflow
