import Weflow.Store.Increment
import Weflow.Sync.Account

/-!
# What a poll stages and applies

The rows and watermarks phase 1 collects, page by page, and the store after phase 2. The
watermarks the poll will write are a function of their own (`Poll.staged`), so that the steps
of phase 1 can be followed before anything is stored.
-/

namespace Weflow

/-! ## Pages of one table -/

namespace MsgCols

variable {c : MsgCols} {rows : List MsgRow} {wm : Watermark}

theorem mark_le_orderKey {r : MsgRow} (hTime : c.time.isSome) (hId : 0 < r.localId) :
    c.mark r ≤ c.orderKey r := by
  rw [Watermark.le_iff]
  by_cases hSeq : c.seq.isSome
  · simp [mark, orderKey, hTime, hSeq]
  · simp [mark, orderKey, hTime, hSeq, hId]

theorem orderKey_nodup (h : (rows.map MsgRow.localId).Nodup) : (rows.map c.orderKey).Nodup := by
  refine List.Nodup.of_map Watermark.localId ?_
  rw [List.map_map]
  exact h

/-- After a page that has room for all rows above the cursor none is above the new one. -/
theorem mark_le_cursorAfter (hTime : c.time.isSome) (hIds : (rows.map MsgRow.localId).Nodup)
    (hPos : ∀ r ∈ rows, 0 < r.localId)
    (hLen : (rows.filter fun r => wm < c.orderKey r).length ≤ readPage)
    {r : MsgRow} (hr : r ∈ rows) :
    c.mark r ≤ Keyset.cursorAfter c.mark wm (newRows c wm rows) := by
  have hKey := Keyset.le_of_page_covers (w := wm) (orderKey_nodup (c := c) hIds) hLen hr
  change c.orderKey r ≤ Keyset.cursorAfter c.orderKey wm (newRows c wm rows) at hKey
  rcases List.eq_nil_or_concat (newRows c wm rows) with hNil | ⟨p, z, hz⟩
  · rw [hNil, Keyset.cursorAfter_nil] at hKey ⊢
    exact (mark_le_orderKey hTime (hPos r hr)).trans hKey
  · rw [hz, List.concat_eq_append, Keyset.cursorAfter_concat] at hKey ⊢
    exact Increment.mark_le_of_orderKey_le hTime hKey

end MsgCols

namespace Db

/-- Every row of a table is at or below a watermark. -/
def Below (db : Db) (table : String) (wm : Watermark) : Prop :=
  ∀ c, MsgCols.probe (tableColumns db table) = some c → ∀ r ∈ db.msgRows table, c.mark r ≤ wm

theorem msgRows_ids_nodup (db : Db) (table : String) :
    ((db.msgRows table).map MsgRow.localId).Nodup := by
  unfold msgRows
  cases h : db.table? table with
  | none => simp
  | some t => exact db.ids_nodup t (table?_mem h)

theorem msgRows_ids_pos (db : Db) {table : String} {r : MsgRow} (hr : r ∈ db.msgRows table) :
    0 < r.localId := by
  unfold msgRows at hr
  cases h : db.table? table with
  | none => simp [h] at hr
  | some t =>
    rw [h] at hr
    exact db.ids_pos t (table?_mem h) r hr

end Db

/-- No message table the file lists has a row above the watermarks. -/
def Source.CleanAt (f : Source) (marks : WmKey → Watermark) : Prop :=
  ∀ t ∈ messageTables f.db, f.db.Below t.1 (marks (f.wmKey t.1))

namespace Sync

/-! ## Staged watermarks -/

/-- The writes of a list of watermarks. -/
def setWatermarks (s : Store) (ws : List (WmKey × Watermark)) : Store :=
  ws.foldl (fun s kw => s.setWatermark kw.1 kw.2) s

/-- The watermarks the store will have when this poll applies. -/
def Poll.staged (p : Poll) (s : Store) (k : WmKey) : Watermark :=
  (setWatermarks s p.newWatermarks).watermark k

theorem watermark_setWatermarks_page (s : Store) (k : WmKey) (rows : List MessageRecord) :
    (setWatermarks s (rows.map fun r => (k, r.mark))).watermark k =
      Keyset.cursorAfter MessageRecord.mark (s.watermark k) rows := by
  induction rows generalizing s with
  | nil => rfl
  | cons r rows ih =>
    rw [List.map_cons, setWatermarks, List.foldl_cons]
    change (setWatermarks (s.setWatermark k r.mark) _).watermark k = _
    rw [ih, Store.watermark_setWatermark, Keyset.cursorAfter, Keyset.cursorAfter,
      List.getLast?_cons]
    cases rows.getLast? <;> rfl

theorem watermark_setWatermarks_ne {s : Store} {k : WmKey} {ws : List (WmKey × Watermark)}
    (h : ∀ kw ∈ ws, kw.1 ≠ k) : (setWatermarks s ws).watermark k = s.watermark k := by
  induction ws generalizing s with
  | nil => rfl
  | cons a ws ih =>
    rw [setWatermarks, List.foldl_cons]
    change (setWatermarks (s.setWatermark a.1 a.2) ws).watermark k = _
    rw [ih fun kw hkw => h kw (List.mem_cons_of_mem _ hkw),
      Store.watermark_setWatermark_ne _ _ (h a List.mem_cons_self).symm]

@[simp] theorem convs_setWatermarks (s : Store) (ws : List (WmKey × Watermark)) :
    (setWatermarks s ws).convs = s.convs := by
  induction ws generalizing s with
  | nil => rfl
  | cons a ws ih => exact ih (s.setWatermark a.1 a.2)

@[simp] theorem sessions_setWatermarks (s : Store) (ws : List (WmKey × Watermark)) :
    (setWatermarks s ws).sessions = s.sessions := by
  induction ws generalizing s with
  | nil => rfl
  | cons a ws ih => exact ih (s.setWatermark a.1 a.2)

/-! ## Staging a page -/

/-- All rows of a page, with the session of their table. -/
def Poll.stageAll (p : Poll) (session : String) (k : WmKey) (rows : List MessageRecord) : Poll :=
  rows.foldl (Poll.stage session k) p

section

variable (p : Poll) (session : String) (k : WmKey) (rows : List MessageRecord)

theorem newWatermarks_stageAll : (p.stageAll session k rows).newWatermarks =
    p.newWatermarks ++ rows.map fun r => (k, r.mark) := by
  induction rows generalizing p with
  | nil => simp [Poll.stageAll]
  | cons r rows ih =>
    change ((p.stage session k r).stageAll session k rows).newWatermarks = _
    rw [ih]
    have hOne : (p.stage session k r).newWatermarks = p.newWatermarks ++ [(k, r.mark)] := by
      unfold Poll.stage
      split <;> rfl
    simp [hOne]

theorem newRows_stageAll : (p.stageAll session k rows).newRows =
    p.newRows ++ (rows.filter fun r => !isRevokeRow r).map fun r => (session, r) := by
  induction rows generalizing p with
  | nil => simp [Poll.stageAll]
  | cons r rows ih =>
    change ((p.stage session k r).stageAll session k rows).newRows = _
    rw [ih]
    cases h : isRevokeRow r <;> simp [Poll.stage, h]

theorem revokeRows_stageAll : (p.stageAll session k rows).revokeRows =
    p.revokeRows ++ (rows.filter isRevokeRow).map fun r => (session, r) := by
  induction rows generalizing p with
  | nil => simp [Poll.stageAll]
  | cons r rows ih =>
    change ((p.stage session k r).stageAll session k rows).revokeRows = _
    rw [ih]
    cases h : isRevokeRow r <;> simp [Poll.stage, h]

theorem stageAll_frame : (p.stageAll session k rows).work = p.work ∧
    (p.stageAll session k rows).readDone = p.readDone ∧
    (p.stageAll session k rows).opened = p.opened := by
  induction rows generalizing p with
  | nil => exact ⟨rfl, rfl, rfl⟩
  | cons r rows ih =>
    have hOne : (p.stage session k r).work = p.work ∧
        (p.stage session k r).readDone = p.readDone ∧
        (p.stage session k r).opened = p.opened := by
      unfold Poll.stage
      split <;> exact ⟨rfl, rfl, rfl⟩
    obtain ⟨hWork, hDone, hOpened⟩ := ih (p.stage session k r)
    exact ⟨hWork.trans hOne.1, hDone.trans hOne.2.1, hOpened.trans hOne.2.2⟩

variable (s : Store)

theorem setWatermarks_append (ws ws' : List (WmKey × Watermark)) :
    setWatermarks s (ws ++ ws') = setWatermarks (setWatermarks s ws) ws' :=
  List.foldl_append

/-- A page moves the watermark of its own table to its last row. -/
theorem staged_stageAll : (p.stageAll session k rows).staged s k =
    Keyset.cursorAfter MessageRecord.mark (p.staged s k) rows := by
  rw [Poll.staged, newWatermarks_stageAll, setWatermarks_append, watermark_setWatermarks_page]
  rfl

theorem staged_stageAll_ne {k' : WmKey} (h : k' ≠ k) :
    (p.stageAll session k rows).staged s k' = p.staged s k' := by
  rw [Poll.staged, newWatermarks_stageAll, setWatermarks_append, watermark_setWatermarks_ne]
  · rfl
  · intro kw hkw
    obtain ⟨r, -, rfl⟩ := List.mem_map.mp hkw
    exact h.symm

end

/-! ## Applying -/

@[simp] theorem sourceRow_resolveRecord (s : Store) (r : MessageRecord) :
    (resolveRecord s r).sourceRow = r.sourceRow := rfl

theorem foldl_applyNew_frame (rows : List (String × MessageRecord)) (se : Store × List Event) :
    (rows.foldl applyNew se).1.watermarks = se.1.watermarks ∧
      (rows.foldl applyNew se).1.sessions = se.1.sessions := by
  induction rows generalizing se with
  | nil => exact ⟨rfl, rfl⟩
  | cons r rows ih => exact ih (applyNew se r)

theorem records_foldl_applyNew (rows : List (String × MessageRecord)) (se : Store × List Event) :
    ((rows.foldl applyNew se).1.records.map MessageRecord.sourceRow).Perm
      (se.1.records.map MessageRecord.sourceRow ++ rows.map fun sr => sr.2.sourceRow) := by
  induction rows generalizing se with
  | nil => simp
  | cons sr rows ih =>
    refine (ih (applyNew se sr)).trans ?_
    have hOne : ((applyNew se sr).1.records.map MessageRecord.sourceRow).Perm
        (se.1.records.map MessageRecord.sourceRow ++ [sr.2.sourceRow]) := by
      have := (se.1.records_extendConv sr.1 [resolveRecord se.1 sr.2]).map MessageRecord.sourceRow
      simpa [applyNew] using this
    rw [List.map_cons, ← List.singleton_append, ← List.append_assoc]
    exact hOne.append_right _

/-- Phase 2 stores exactly the new rows, and the staged watermarks. -/
theorem records_applyTo (p : Poll) (s : Store) :
    ((p.applyTo s).1.records.map MessageRecord.sourceRow).Perm
      (s.records.map MessageRecord.sourceRow ++ p.newRows.map fun sr => sr.2.sourceRow) := by
  have h := records_foldl_applyNew p.newRows (setWatermarks s p.newWatermarks, [])
  rw [show (setWatermarks s p.newWatermarks).records = s.records by
    rw [Store.records, convs_setWatermarks, Store.records]] at h
  exact h

theorem watermark_applyTo (p : Poll) (s : Store) : (p.applyTo s).1.watermark = p.staged s := by
  funext k
  have h := (foldl_applyNew_frame p.newRows (setWatermarks s p.newWatermarks, [])).1
  change (List.foldl applyNew (setWatermarks s p.newWatermarks, []) p.newRows).1.watermark k = _
  rw [Store.watermark, h]
  rfl

theorem convs_reloadSection (x : Codec) (w : Work) (db : Db) (s : Store) :
    (reloadSection x w db s).convs = s.convs ∧
      (reloadSection x w db s).watermarks = s.watermarks := by
  cases w with
  | messages f => exact ⟨rfl, rfl⟩
  | sessions f => exact ⟨rfl, rfl⟩
  | contacts f =>
    obtain ⟨hConvs, hMarks, -⟩ := loadChatroomMeta_frame db (loadContacts db s)
    exact ⟨hConvs, hMarks⟩
  | groupMeta f => exact ⟨(loadGroupCards_frame db s).1, (loadGroupCards_frame db s).2.1⟩
  | sns f => exact ⟨(loadSns_frame db s x).1, (loadSns_frame db s x).2.1⟩

/-! ## What a step writes into the store -/

/-- The content that a reload of the section would read now. -/
def State.sectionDb (s : State) (io : Io) (w : Work) : Option Db :=
  match s.sync.keys w.file.rel, s.world.source? w.file.rel with
  | some key, some src =>
    if (s.sync.pool.getOrOpen src key io.access).2 = none then some src.db else none
  | _, _ => none

/-- The section that this step reloads, with the content it reads. -/
def State.reloads (s : State) (io : Io) : Option (Work × Db) :=
  match s.pc with
  | .reload _ _ (.messages _ :: _) => none
  | .reload _ _ (w :: _) =>
    if s.sync.stopped then none else (s.sectionDb io w).map fun db => (w, db)
  | _ => none

/-- A reload step writes into the store what it reloads. -/
theorem store_stepReload {x : Codec} {s : State} {io : Io} {p : Poll} {counts : Nat × Nat}
    {todo : List Work} (hPc : s.pc = .reload p counts todo) :
    (s.stepReload x io p counts todo).sync.store =
      ((s.reloads io).map fun wdb => reloadSection x wdb.1 wdb.2 s.sync.store).getD
        s.sync.store := by
  rcases todo with _ | ⟨w, todo⟩
  · simp [State.reloads, hPc, State.stepReload]
  · cases w with
    | messages f =>
      simp only [State.reloads, hPc, State.stepReload]
      split <;> rfl
    | sessions f | sns f | contacts f | groupMeta f =>
      simp only [State.reloads, hPc, State.stepReload, State.sectionDb, Work.file]
      cases s.sync.stopped with
      | true => rfl
      | false =>
        cases s.sync.keys f.rel with
        | none => rfl
        | some key =>
          cases s.world.source? f.rel with
          | none => rfl
          | some src =>
            cases hErr : (s.sync.pool.getOrOpen src key io.access).2 <;> simp [hErr]

/-! ## What a step of phase 1 does with a file -/

/-- The next file of phase 1 is passed over, or it does not open, or its tables come next. -/
theorem stepFiles_cases (s : State) (io : Io) (p : Poll) (todo : List Work) :
    (todo = [] ∧ s.stepFiles io p todo = { s with pc := .apply p }) ∨
    (∃ w rest, todo = w :: rest ∧ s.stepFiles io p todo = { s with pc := .files p rest } ∧
      ∀ m, w = .messages m → s.sync.keys m.rel = none ∨ s.world.source? m.rel = none) ∨
    ∃ m rest key src, todo = .messages m :: rest ∧ s.sync.keys m.rel = some key ∧
      s.world.source? m.rel = some src ∧
      ((∃ e pool, (s.sync.pool.getOrOpen src key io.access).2 = some e ∧
          (pool = (s.sync.pool.getOrOpen src key io.access).1 ∨
            pool = (s.sync.pool.getOrOpen src key io.access).1.markKeyless m.rel) ∧
          s.stepFiles io p todo =
            { s with sync := { s.sync with pool }, pc := .files p rest }) ∨
        (s.sync.pool.getOrOpen src key io.access).2 = none ∧
          s.stepFiles io p todo =
            { s with
              sync := { s.sync with pool := (s.sync.pool.getOrOpen src key io.access).1 }
              pc := .tables
                { p with
                  opened := if s.sync.pool.isOpen m.rel then p.opened else m.rel :: p.opened }
                rest ⟨m.rel, name2idTable src.db, messageTables src.db, true⟩ }) := by
  rcases todo with _ | ⟨w, rest⟩
  · exact .inl ⟨rfl, rfl⟩
  refine .inr ?_
  cases w with
  | sessions m | sns m | contacts m | groupMeta m =>
    exact .inl ⟨_, rest, rfl, rfl, by rintro m' ⟨⟩⟩
  | messages m =>
    cases hKey : s.sync.keys m.rel with
    | none =>
      refine .inl ⟨_, rest, rfl, by simp only [State.stepFiles, hKey], ?_⟩
      rintro m' ⟨⟩
      exact .inl hKey
    | some key =>
      cases hSrc : s.world.source? m.rel with
      | none =>
        refine .inl ⟨_, rest, rfl, by simp only [State.stepFiles, hKey, hSrc], ?_⟩
        rintro m' ⟨⟩
        exact .inr hSrc
      | some src =>
        refine .inr ⟨m, rest, key, src, rfl, hKey, hSrc, ?_⟩
        simp only [State.stepFiles, hKey, hSrc]
        rcases s.sync.pool.getOrOpen src key io.access with ⟨pool, _ | e⟩
        · exact .inr ⟨rfl, rfl⟩
        · cases e with
          | wrongKey => exact .inl ⟨_, _, rfl, .inr rfl, rfl⟩
          | missing | io => exact .inl ⟨_, _, rfl, .inl rfl, rfl⟩

/-- After a page that can be read the table is through, or the limit is reached, or the next page
comes. -/
theorem stepPage_cases {x : Codec} {s : State} {io : Io} {r : Reading} {t : String × String}
    {wm : Watermark} {rows : List MessageRecord} (p : Poll) (todo : List Work) (pages : Nat)
    (hPage : s.readPageOf x io r t wm = .ok rows) :
    rows.length < readPage ∧ s.stepPage x io p todo r t wm pages =
        { s with
          pc := .tables (p.stageAll (tableSession x t.2 s.sync.store) ⟨r.rel, t.1⟩ rows) todo r } ∨
      readPage ≤ rows.length ∧ readMaxPages ≤ pages + 1 ∧ s.stepPage x io p todo r t wm pages =
        { s with
          pc := .tables (p.stageAll (tableSession x t.2 s.sync.store) ⟨r.rel, t.1⟩ rows) todo
            { r with drained := false } } ∨
      readPage ≤ rows.length ∧ s.stepPage x io p todo r t wm pages =
        { s with
          pc := .pages (p.stageAll (tableSession x t.2 s.sync.store) ⟨r.rel, t.1⟩ rows) todo r t
            (Keyset.cursorAfter MessageRecord.mark wm rows) (pages + 1) } := by
  simp only [State.stepPage, hPage]
  by_cases hShort : rows.length < readPage
  · exact .inl ⟨hShort, if_pos hShort⟩
  · rw [if_neg hShort]
    by_cases hCap : readMaxPages ≤ pages + 1
    · exact .inr (.inl ⟨not_lt.mp hShort, hCap, if_pos hCap⟩)
    · exact .inr (.inr ⟨not_lt.mp hShort, if_neg hCap⟩)

/-! ## One page of the poll -/

section

variable {x : Codec} {s : State} {io : Io} {r : Reading} {t : String × String} {wm : Watermark}
  {rows : List MessageRecord}

/-- The records a page is made of. -/
theorem readPageOf_ok (h : State.readPageOf x s io r t wm = .ok rows) :
    ∃ f c, s.world.source? r.rel = some f ∧ f.cols t.1 = some c ∧ c.time.isSome ∧
      rows = (newRows c wm (f.db.msgRows t.1)).map fun row =>
        rowToRecord x ⟨r.rel, t.1⟩ "" ∅ (c.extract row (loadUidMap f.db r.name2id)) := by
  unfold State.readPageOf at h
  split at h
  · cases h
  · rename_i f hf
    split at h
    · cases h
    · unfold readNew at h
      split at h
      · cases h
      · rename_i c hc
        split at h
        · cases h
        · rename_i hTime
          refine ⟨f, c, hf, hc, ?_, ?_⟩
          · simpa [Option.isSome_iff_ne_none] using hTime
          · exact (Except.ok.inj h).symm

theorem cursorAfter_map {α β κ : Type} (g : α → β) (key : β → κ) (w : κ) (l : List α) :
    Keyset.cursorAfter key w (l.map g) = Keyset.cursorAfter (fun a => key (g a)) w l := by
  simp [Keyset.cursorAfter, List.getLast?_map, Option.map_map, Function.comp_def]

/-- A page that is not full leaves no row above its cursor. -/
theorem below_of_page (h : State.readPageOf x s io r t wm = .ok rows)
    (hLen : rows.length < readPage) {f : Source} (hf : f ∈ s.world.files) (hRel : f.rel = r.rel) :
    f.db.Below t.1 (Keyset.cursorAfter MessageRecord.mark wm rows) := by
  obtain ⟨g, c, hg, hCols, hTime, rfl⟩ := readPageOf_ok h
  obtain rfl : f = g := by
    rw [← hRel, World.source?_of_mem hf] at hg
    exact Option.some.inj hg
  intro c' hc' row hRow
  obtain rfl : c' = c := Option.some.inj (hc'.symm.trans hCols)
  rw [cursorAfter_map]
  rw [List.length_map] at hLen
  exact MsgCols.mark_le_cursorAfter hTime (f.db.msgRows_ids_nodup t.1)
    (fun r hr => f.db.msgRows_ids_pos hr) (Keyset.length_after_le hLen) hRow

end

end Sync

end Weflow
