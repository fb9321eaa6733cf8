import Mathlib.Data.Prod.Lex
import Weflow.Sync.Rebuild

/-!
# Every committed row is stored in the end

Once the writers have stopped and every access succeeds, the engine alone (`quiet`) drains every
file. The measure is the number of rows above the watermarks, then the place in the poll; a poll
that is started while a row waits stages a row, since a file with a waiting row is classified,
opened and read to a page that is not empty (`Ahead`).

Together with `Ledger` this says that every committed row is stored, and stored once, if no step
of the run was one of those `CommitSeen` leaves out. A commit that lands between the last page of
its table and the bookkeeping of its file is lost: `commit_before_bookkeeping_is_lost`.
-/

namespace Weflow

/-- The rows of a table above a watermark. -/
def Source.above (f : Source) (t : String) (wm : Watermark) : Nat :=
  ((f.tableSources t).filter fun r => wm < r.mark).length

/-- No row above the watermarks is a system message or a withdrawal. -/
def Source.Plain (x : Codec) (f : Source) (marks : WmKey → Watermark) : Prop :=
  ∀ t ∈ messageTables f.db, ∀ c, f.cols t.1 = some c → ∀ r ∈ f.db.msgRows t.1,
    marks (f.wmKey t.1) < c.mark r →
      ∀ uids, Sync.isRevokeRow (rowToRecord x (f.wmKey t.1) "" ∅ (c.extract r uids)) = false

theorem Source.above_anti {f : Source} {t : String} {a b : Watermark} (h : a ≤ b) :
    f.above t b ≤ f.above t a := by
  refine List.Sublist.length_le (List.monotone_filter_right _ fun r hr => ?_)
  simp only [decide_eq_true_eq] at hr ⊢
  exact h.trans_lt hr

namespace Sync

/-- The most rows of one table a poll reads. -/
def drainCap : Nat := readMaxPages * readPage

/-- The engine alone, and nothing fails: a poll whenever none is running. -/
def quiet (x : Codec) (s : State) : State :=
  match s.pc with
  | .idle => s.poll fun _ => true
  | _ => (s.tick x {}).getD s

/-- Every message file opens with its registered key, no waiting row is a system message, and
the tables of the files that are still closed fit into one poll. -/
structure Fine (x : Codec) (w : World) (a : AccountSync) : Prop where
  keys : ∀ f ∈ w.messageFiles, a.keys f.rel = some f.key
  opens : ∀ f ∈ w.messageFiles, (a.pool.getOrOpen f f.key {}).2 = none
  plain : ∀ f ∈ w.messageFiles, f.Plain x a.store.watermark
  small : ∀ f ∈ w.messageFiles, a.pool.isOpen f.rel = false → ∀ t ∈ messageTables f.db,
    f.above t.1 (a.store.watermark (f.wmKey t.1)) ≤ drainCap

/-- As long as nothing is staged, a file with a waiting row was not passed over. -/
def Eager (w : World) (a : AccountSync) (p : Poll) (ahead : String → Prop) : Prop :=
  p.newRows = [] → ∀ f ∈ w.messageFiles, f.CleanAt a.store.watermark ∨ ahead f.rel

/-- The files still to be opened are pending. -/
def Waiting (w : World) (a : AccountSync) (todo : List Work) : Prop :=
  ∀ f ∈ w.messageFiles, f.rel ∈ rels todo → Pending a.pool f

/-- What phase 1 has before it. -/
def Ahead (w : World) (a : AccountSync) : Pc → Prop
  | .files p todo => Waiting w a todo ∧ Eager w a p fun rel => rel ∈ rels todo ∨ rel ∈ p.readDone
  | .tables p todo r => Waiting w a todo ∧
    (Eager w a p fun rel => rel ∈ rels todo ∨ rel ∈ p.readDone ∨ rel = r.rel) ∧
    (p.newRows = [] → r.drained = true) ∧
    ∀ f ∈ w.messageFiles, f.rel = r.rel → Pending a.pool f ∨
      ∀ t ∈ r.tables, f.above t.1 (a.store.watermark (f.wmKey t.1)) ≤ drainCap
  | .pages p todo r t wm n => Waiting w a todo ∧
    (Eager w a p fun rel => rel ∈ rels todo ∨ rel ∈ p.readDone ∨ rel = r.rel) ∧
    (p.newRows = [] → r.drained = true) ∧
    ∀ f ∈ w.messageFiles, f.rel = r.rel → Pending a.pool f ∨
      f.above t.1 wm + n * readPage ≤ drainCap ∧
        ∀ t ∈ r.tables, f.above t.1 (a.store.watermark (f.wmKey t.1)) ≤ drainCap
  | .apply p => Eager w a p fun rel => rel ∈ p.readDone
  | _ => True

/-- The states of the engine alone. -/
structure Calm (x : Codec) (s : State) : Prop where
  inv : Inv s
  ledger : Ledger s
  fine : Fine x s.world s.sync
  ahead : Ahead s.world s.sync s.pc

/-! ## Pages of the engine alone -/

section

variable {x : Codec} {s : State} {p : Poll} {todo : List Work} {r : Reading}
  {t : String × String} {wm : Watermark} {n : Nat}

/-- A page is read, from a listed full table. -/
theorem readPageOf_quiet (x : Codec) (wm : Watermark)
    (hFull : ∀ f ∈ s.world.messageFiles, f.db.AllFull)
    (hListing : Listing s.world r.rel (t :: r.tables)) :
    ∃ f ∈ s.world.messageFiles, f.rel = r.rel ∧ t ∈ messageTables f.db ∧
      ∃ c, f.cols t.1 = some c ∧ c.Full ∧ s.readPageOf x {} r t wm =
        .ok ((newRows c wm (f.db.msgRows t.1)).map fun row =>
          rowToRecord x (f.wmKey t.1) "" ∅ (c.extract row (loadUidMap f.db r.name2id))) := by
  obtain ⟨f, hf, hRel, hTables⟩ := hListing
  have ht := hTables t List.mem_cons_self
  obtain ⟨c, hCols, hc⟩ := hFull f hf t ht
  refine ⟨f, hf, hRel, ht, c, hCols, hc, ?_⟩
  have hSrc : s.world.source? r.rel = some f := by
    rw [← hRel]
    exact World.source?_of_mem (mem_files_of_messageFiles hf).1
  have hTime : c.time.isNone = false := by
    have := hc.1
    simpa [Option.isSome_iff_ne_none] using this
  simp [State.readPageOf, hSrc, readNew, hCols, hTime, Source.wmKey, hRel]

theorem above_eq {f : Source} {c : MsgCols} (hCols : f.cols t.1 = some c) (hc : c.Full) :
    f.above t.1 wm = ((f.db.msgRows t.1).filter fun row => wm < c.orderKey row).length := by
  have hKey : c.orderKey = c.mark := funext fun row => MsgCols.orderKey_eq_mark hc row
  rw [Source.above, Source.tableSources, hCols, hKey]
  simp only [List.filter_map, List.length_map]
  rfl

/-- A full page takes its rows off those above the cursor. -/
theorem above_cursor {f : Source} {c : MsgCols} (hCols : f.cols t.1 = some c) (hc : c.Full)
    (hLen : readPage ≤ (newRows c wm (f.db.msgRows t.1)).length) :
    f.above t.1 (Keyset.cursorAfter c.mark wm (newRows c wm (f.db.msgRows t.1))) + readPage =
      f.above t.1 wm := by
  have hKey : c.orderKey = c.mark := funext fun row => MsgCols.orderKey_eq_mark hc row
  rw [above_eq hCols hc, above_eq hCols hc]
  have hCut := Keyset.length_above_cursor (w := wm) (n := readPage)
    (MsgCols.orderKey_nodup (c := c) (f.db.msgRows_ids_nodup t.1)) hLen
  rw [← hCut, newRows, hKey]

theorem tickOk_quiet (hPc : s.pc = .pages p todo r t wm n) (h : Calm x s) :
    TickOk x s {} := by
  have hAt := h.ledger.staged
  have hAhead := h.ahead
  simp only [StagedAt, hPc] at hAt
  simp only [Ahead, hPc] at hAhead
  obtain ⟨f, hf, hRel, ht, c, hCols, hc, hPage⟩ :=
    readPageOf_quiet x wm h.ledger.full hAt.2
  simp only [TickOk, hPc, hPage]
  intro hLen hCap g hg hgRel
  obtain rfl : g = f := eq_of_rel_eq (mem_files_of_messageFiles hg).1
    (mem_files_of_messageFiles hf).1 (hgRel.trans hRel.symm)
  refine (hAhead.2.2.2 g hg hgRel).imp_right fun hSmall => ?_
  -- the last page the limit allows has room for all that is left
  rw [List.length_map] at hLen
  have hCut := above_cursor hCols hc hLen
  have hRoom : ((g.db.msgRows t.1).filter fun row => wm < c.orderKey row).length ≤ readPage := by
    rw [← above_eq hCols hc]
    have hBound := hSmall.1
    simp only [drainCap, readMaxPages, readPage] at hBound hCap hCut ⊢
    omega
  intro c' hc' row hRow
  obtain rfl : c' = c := Option.some.inj (hc'.symm.trans hCols)
  rw [cursorAfter_map]
  exact MsgCols.mark_le_cursorAfter hc.1 (g.db.msgRows_ids_nodup t.1)
    (fun r hr => g.db.msgRows_ids_pos hr) hRoom hRow

theorem pagePlain_quiet (hPc : s.pc = .pages p todo r t wm n) (h : Calm x s) :
    pagePlain x s {} = true := by
  have hAt := h.ledger.staged
  have hFlags := h.inv.flags
  simp only [StagedAt, hPc] at hAt
  simp only [Flags, hPc] at hFlags
  obtain ⟨f, hf, hRel, ht, c, hCols, hc, hPage⟩ :=
    readPageOf_quiet x wm h.ledger.full hAt.2
  simp only [pagePlain, hPc, hPage, List.all_map, List.all_eq_true, Function.comp_apply,
    Bool.not_eq_true']
  intro row hRow
  obtain ⟨hMem, hAbove⟩ := Keyset.mem_of_mem_page hRow
  refine h.fine.plain f hf t ht c hCols row hMem ?_ _
  rw [MsgCols.orderKey_eq_mark hc] at hAbove
  refine lt_of_le_of_lt ?_ hAbove
  rw [← hFlags.2.2.2, Source.wmKey, hRel]
  exact hAt.1.le _

end

/-! ## What stays true -/

section

variable {x : Codec} {w : World} {a a' : AccountSync} {f : Source}

/-- The message files keep opening, no file is closed, and the watermarks do not fall. -/
structure Onward (w : World) (a a' : AccountSync) : Prop where
  keys : a'.keys = a.keys
  opens : ∀ f ∈ w.messageFiles, (a.pool.getOrOpen f f.key {}).2 = none →
    (a'.pool.getOrOpen f f.key {}).2 = none
  isOpen : ∀ rel, a.pool.isOpen rel = true → a'.pool.isOpen rel = true
  marks : ∀ k, a.store.watermark k ≤ a'.store.watermark k

theorem Onward.refl : Onward w a a := ⟨rfl, fun _ _ => id, fun _ => id, fun _ => le_rfl⟩

theorem Fine.onward (h : Fine x w a) (hOn : Onward w a a') : Fine x w a' where
  keys := hOn.keys ▸ h.keys
  opens f hf := hOn.opens f hf (h.opens f hf)
  plain f hf t ht c hCols r hr hAbove :=
    h.plain f hf t ht c hCols r hr ((hOn.marks _).trans_lt hAbove)
  small f hf hClosed t ht := by
    have hBefore : a.pool.isOpen f.rel = false := by
      by_contra hOpen
      rw [hOn.isOpen f.rel (by simpa using hOpen)] at hClosed
      cases hClosed
    exact (Source.above_anti (hOn.marks _)).trans (h.small f hf hBefore t ht)

/-- An access to a file of the world, with its own key if it is a message file. -/
theorem Onward.access {g : Source} {key : DbKey} (hg : g ∈ w.files)
    (hKey : ∀ f ∈ w.messageFiles, f.rel = g.rel → key = g.key)
    (store : Store) (hMarks : store.watermarks = a.store.watermarks) :
    Onward w a { a with pool := (a.pool.getOrOpen g key {}).1, store } where
  keys := rfl
  opens f hf hOpens := by
    by_cases hRel : f.rel = g.rel
    · obtain rfl := eq_of_rel_eq (mem_files_of_messageFiles hf).1 hg hRel
      rw [hKey f hf rfl]
      exact LivePool.getOrOpen_of_isOpen (hOpens ▸ a.pool.getOrOpen_spec f f.key {}).isOpen
    · obtain ⟨hMark, hEntry⟩ := a.pool.entry_getOrOpen_ne g key {} hRel
      exact (LivePool.getOrOpen_congr hMark hEntry).trans hOpens
  isOpen rel := (a.pool.getOrOpen_spec g key {}).isOpen_mono
  marks k := by
    change a.store.watermark k ≤ store.watermark k
    rw [Store.watermark, Store.watermark, hMarks]

theorem isOpen_advance {p : LivePool} {g : Source} {ok : Bool} {rel : String}
    (h : p.isOpen rel = true) : (p.advanceDataVersion g ok).isOpen rel = true := by
  rcases p.conn?_advance g ok rel with hSame | ⟨-, -, hNew⟩
  · exact LivePool.isOpen_of_conn hSame h
  · rw [LivePool.isOpen, hNew]
    rfl

theorem Onward.advance {g : Source} {stamps : Map DbStamps} :
    Onward w a { a with stamps, pool := a.pool.advanceDataVersion g true } where
  keys := rfl
  opens f hf hOpens := by
    by_cases hRel : f.rel = g.rel
    · by_cases hOpen : a.pool.isOpen f.rel = true
      · exact LivePool.getOrOpen_of_isOpen (isOpen_advance hOpen)
      · -- a closed connection is not advanced
        have hSame : a.pool.advanceDataVersion g true = a.pool := by
          unfold LivePool.advanceDataVersion
          split
          · rfl
          · rename_i e hEntry
            have hConn : e.conn = none := by
              rw [hRel] at hOpen
              simpa [LivePool.isOpen, LivePool.conn?, hEntry] using hOpen
            rw [if_neg (by simp [hConn])]
        change ((a.pool.advanceDataVersion g true).getOrOpen f f.key {}).2 = none
        rw [hSame]
        exact hOpens
    · obtain ⟨hMark, hEntry⟩ := a.pool.entry_advance_ne g true hRel
      exact (LivePool.getOrOpen_congr hMark hEntry).trans hOpens
  isOpen rel := isOpen_advance
  marks _ := le_rfl

end

/-! ## One step of the engine alone -/

section

variable {x : Codec} {s : State} {p : Poll} {todo : List Work} {r : Reading}

theorem quiet_eq_tick (h : s.pc ≠ .idle) {t : State} (hTick : s.tick x {} = some t) :
    quiet x s = t := by
  unfold quiet
  split
  · rename_i hPc
    exact absurd hPc h
  · rw [hTick]
    rfl

/-- The next message file is opened with its own key. -/
theorem stepFiles_messages {f : DbFile} (hFine : Fine x s.world s.sync)
    (hWorks : FromFiles s.world (.messages f :: todo)) :
    ∃ src ∈ s.world.messageFiles, src.toDbFile = f ∧
      (s.sync.pool.getOrOpen src src.key {}).2 = none ∧
      s.stepFiles {} p (.messages f :: todo) =
        { s with
          sync := { s.sync with pool := (s.sync.pool.getOrOpen src src.key {}).1 }
          pc := .tables
            { p with opened := if s.sync.pool.isOpen f.rel then p.opened else f.rel :: p.opened }
            todo ⟨f.rel, name2idTable src.db, messageTables src.db, true⟩ } := by
  obtain ⟨src, hSrc, hEq⟩ := messageFile_of_work hWorks List.mem_cons_self
  have hRel : src.rel = f.rel := by rw [← hEq]
  have hKey := hFine.keys src hSrc
  have hSource := World.source?_of_mem (mem_files_of_messageFiles hSrc).1
  rw [hRel] at hKey hSource
  have hOk := hFine.opens src hSrc
  refine ⟨src, hSrc, hEq, hOk, ?_⟩
  rcases hRes : s.sync.pool.getOrOpen src src.key {} with ⟨pool, err⟩
  rw [hRes] at hOk
  obtain rfl : err = none := hOk
  simp [State.stepFiles, hKey, hSource, hRes]

theorem stepFiles_section {k : Work} (hKind : ∀ f, k ≠ .messages f) :
    s.stepFiles {} p (k :: todo) = { s with pc := .files p todo } := by
  cases k with
  | messages f => exact absurd rfl (hKind f)
  | _ => rfl

theorem onward_stepFiles (hFine : Fine x s.world s.sync) (hWorks : FromFiles s.world todo) :
    Onward s.world s.sync (s.stepFiles {} p todo).sync := by
  rcases todo with _ | ⟨k, todo⟩
  · exact .refl
  · by_cases hKind : ∃ f, k = .messages f
    · obtain ⟨f, rfl⟩ := hKind
      obtain ⟨src, hSrc, -, -, hStep⟩ := stepFiles_messages (p := p) hFine hWorks
      rw [hStep]
      exact .access (mem_files_of_messageFiles hSrc).1 (fun _ _ _ => rfl) _ rfl
    · rw [stepFiles_section fun f hEq => hKind ⟨f, hEq⟩]
      exact .refl

theorem ahead_stepFiles (hFine : Fine x s.world s.sync)
    (hReads : Reads s.world s.sync p todo none) (h : Ahead s.world s.sync (.files p todo)) :
    Ahead s.world (s.stepFiles {} p todo).sync (s.stepFiles {} p todo).pc := by
  obtain ⟨hWaiting, hEager⟩ := h
  rcases todo with _ | ⟨k, todo⟩
  · intro hNone f hf
    exact (hEager hNone f hf).imp_right fun hAhead => hAhead.resolve_left (by simp [rels])
  · by_cases hKind : ∃ f, k = .messages f
    · obtain ⟨f, rfl⟩ := hKind
      obtain ⟨src, hSrc, hEq, hOk, hStep⟩ := stepFiles_messages (p := p) hFine hReads.todoWorks
      have hRel : src.rel = f.rel := by rw [← hEq]
      have hAcc := s.sync.pool.getOrOpen_spec src src.key {}
      have hNotIn := (List.nodup_cons.mp hReads.todoNodup).1
      rw [hStep]
      refine ⟨fun g hg hTodo => ?_, fun hNone g hg => ?_, fun _ => rfl, fun g hg hgRel => ?_⟩
      · have hNe : g.rel ≠ src.rel := by
          intro hSame
          refine hNotIn ?_
          change f.rel ∈ rels todo
          rw [← hRel, ← hSame]
          exact hTodo
        have hPending := hWaiting g hg (List.mem_cons_of_mem _ hTodo)
        rw [Pending] at hPending ⊢
        rw [hAcc.conn?_ne hNe]
        exact hPending
      · refine (hEager hNone g hg).imp_right fun hAhead => ?_
        rcases hAhead with hTodo | hDone
        · rcases List.mem_cons.mp hTodo with hHead | hTail
          · exact .inr (.inr hHead)
          · exact .inl hTail
        · exact .inr (.inl hDone)
      · obtain rfl : g = src := eq_of_rel_eq (mem_files_of_messageFiles hg).1
          (mem_files_of_messageFiles hSrc).1 (hgRel.trans hRel.symm)
        by_cases hOpen : s.sync.pool.isOpen g.rel = true
        · -- it was open and pending, and still is
          left
          have hPending := hWaiting g hg (by rw [hgRel]; exact List.mem_cons_self)
          rw [Pending] at hPending ⊢
          rcases hAcc with ⟨hSame, -⟩ | ⟨hClosed, -, -⟩
          · rw [hSame]
            exact hPending
          · rw [LivePool.isOpen, hClosed] at hOpen
            cases hOpen
        · exact .inr (hFine.small g hg (by simpa using hOpen))
    · have hSection : ∀ f, k ≠ .messages f := fun f hEq => hKind ⟨f, hEq⟩
      rw [stepFiles_section hSection]
      refine ⟨fun g hg hTodo => hWaiting g hg (List.mem_cons_of_mem _ hTodo), fun hNone g hg => ?_⟩
      refine (hEager hNone g hg).imp_right fun hAhead => hAhead.imp_left fun hTodo => ?_
      exact (List.mem_cons.mp hTodo).resolve_left
        (rel_ne_of_section hReads.todoWorks List.mem_cons_self hSection hg)

theorem ahead_stepTables (h : Ahead s.world s.sync (.tables p todo r)) :
    Ahead s.world (s.stepTables p todo r).sync (s.stepTables p todo r).pc := by
  obtain ⟨hWaiting, hEager, hDrained, hRoom⟩ := h
  unfold State.stepTables
  split
  · refine ⟨hWaiting, fun hNone f hf => ?_⟩
    refine (hEager hNone f hf).imp_right fun hAhead => ?_
    simp only [hDrained hNone, if_true, List.mem_append, List.mem_singleton]
    exact hAhead
  · rename_i t ts hTables
    refine ⟨hWaiting, hEager, hDrained, fun f hf hRel => (hRoom f hf hRel).imp_right fun hAll => ?_⟩
    rw [hTables] at hAll
    have hFirst := hAll t List.mem_cons_self
    rw [Source.wmKey, hRel] at hFirst
    exact ⟨by simpa using hFirst, fun t' ht' => hAll t' (List.mem_cons_of_mem _ ht')⟩

theorem ahead_stepPage {t : String × String} {wm : Watermark} {n : Nat}
    (hPc : s.pc = .pages p todo r t wm n) (h : Calm x s) :
    Ahead s.world (s.stepPage x {} p todo r t wm n).sync
      (s.stepPage x {} p todo r t wm n).pc := by
  have hPlain := pagePlain_quiet hPc h
  have hAt := h.ledger.staged
  have hAhead := h.ahead
  simp only [StagedAt, hPc] at hAt
  simp only [Ahead, hPc] at hAhead
  obtain ⟨hWaiting, hEager, hDrained, hRoom⟩ := hAhead
  obtain ⟨f, hf, hRel, ht, c, hCols, hc, hPage⟩ :=
    readPageOf_quiet x wm h.ledger.full hAt.2
  simp only [pagePlain, hPc, hPage, List.all_eq_true, Bool.not_eq_true'] at hPlain
  unfold State.stepPage
  rw [hPage]
  generalize hRows : (newRows c wm (f.db.msgRows t.1)).map (fun row =>
    rowToRecord x (f.wmKey t.1) "" ∅ (c.extract row (loadUidMap f.db r.name2id))) = rows at hPlain
  have hLength : (newRows c wm (f.db.msgRows t.1)).length = rows.length := by
    rw [← hRows, List.length_map]
  -- nothing is staged after the page only if nothing was before and the page is empty
  have hNothing : (p.stageAll (tableSession x t.2 s.sync.store) ⟨r.rel, t.1⟩ rows).newRows = [] →
      p.newRows = [] ∧ rows = [] := by
    rw [newRows_stageAll, List.filter_eq_self.mpr fun row hRow => by simp [hPlain row hRow]]
    simp
  have hEager' : Eager s.world s.sync
      (p.stageAll (tableSession x t.2 s.sync.store) ⟨r.rel, t.1⟩ rows) fun rel =>
        rel ∈ rels todo ∨ rel ∈ (p.stageAll (tableSession x t.2 s.sync.store) ⟨r.rel, t.1⟩
          rows).readDone ∨ rel = r.rel := by
    rw [(stageAll_frame p (tableSession x t.2 s.sync.store) ⟨r.rel, t.1⟩ rows).2.1]
    exact fun hNone => hEager (hNothing hNone).1
  dsimp only
  split
  · exact ⟨hWaiting, hEager', fun hNone => hDrained (hNothing hNone).1,
      fun g hg hgRel => (hRoom g hg hgRel).imp_right And.right⟩
  · rename_i hFull
    split
    · refine ⟨hWaiting, hEager', fun hNone => ?_,
        fun g hg hgRel => (hRoom g hg hgRel).imp_right And.right⟩
      rw [(hNothing hNone).2] at hFull
      exact absurd (show ([] : List MessageRecord).length < readPage by decide) hFull
    · refine ⟨hWaiting, hEager', fun hNone => hDrained (hNothing hNone).1, fun g hg hgRel => ?_⟩
      refine (hRoom g hg hgRel).imp_right fun hSmall => ⟨?_, hSmall.2⟩
      obtain rfl : g = f := eq_of_rel_eq (mem_files_of_messageFiles hg).1
        (mem_files_of_messageFiles hf).1 (hgRel.trans hRel.symm)
      have hCut := above_cursor hCols hc (hLength ▸ not_lt.mp hFull)
      have hCursor : Keyset.cursorAfter MessageRecord.mark wm rows =
          Keyset.cursorAfter c.mark wm (newRows c wm (g.db.msgRows t.1)) := by
        rw [← hRows, cursorAfter_map]
        rfl
      rw [hCursor, Nat.add_mul, Nat.one_mul]
      have hBound := hSmall.1
      omega

/-! ## Applying and bookkeeping -/

theorem onward_stepApply (hLedger : Ledger s) (hBase : Base s.world s.sync)
    (hPc : s.pc = .apply p) : Onward s.world s.sync (s.stepApply p).sync := by
  have hAt := hLedger.staged
  simp only [StagedAt, hPc] at hAt
  unfold State.stepApply
  rw [if_neg (by simp [hBase.running])]
  refine ⟨rfl, fun _ _ => id, fun _ => id, fun k => ?_⟩
  change s.sync.store.watermark k ≤ (p.applyTo s.sync.store).1.watermark k
  rw [watermark_applyTo]
  exact hAt.le k

theorem onward_stepReload {counts : Nat × Nat} (hTodo : FromFiles s.world todo) :
    Onward s.world s.sync (s.stepReload x {} p counts todo).sync := by
  unfold State.stepReload
  split
  · exact .refl
  · split <;> exact .refl
  · rename_i k todo hKind
    split
    · exact .refl
    · split
      · rename_i key src _ hSrc
        obtain ⟨hFiles, hRel⟩ := World.source?_some hSrc
        refine .access hFiles (fun f hf hEq => ?_) _ ?_
        · exact absurd (hEq.trans hRel) (rel_ne_of_section hTodo List.mem_cons_self hKind hf)
        · split
          · exact (convs_reloadSection x k src.db s.sync.store).2
          · rfl
      · exact .refl

theorem onward_stepBook {counts : Nat × Nat} :
    Onward s.world s.sync (s.stepBook {} p counts todo).sync := by
  unfold State.stepBook
  split
  · exact ⟨rfl, fun _ _ => id, fun _ => id, fun _ => le_rfl⟩
  · split
    · split
      · exact .advance
      · exact .refl
    · exact .refl

theorem ahead_late {counts : Nat × Nat} : Ahead s.world (s.stepReload x {} p counts todo).sync
      (s.stepReload x {} p counts todo).pc ∧
    Ahead s.world (s.stepBook {} p counts todo).sync (s.stepBook {} p counts todo).pc := by
  constructor
  · unfold State.stepReload
    repeat' split
    all_goals trivial
  · unfold State.stepBook
    repeat' split
    all_goals trivial

/-- A classified message file is pending, if its pragma answers. -/
theorem pending_of_classified {w : World} {a : AccountSync} {f : Source} (hf : f ∈ w.messageFiles)
    (h : f.rel ∈ rels (a.classifyChanged w fun _ => true)) : Pending a.pool f := by
  obtain ⟨k, hk, hRel⟩ := List.mem_map.mp h
  obtain ⟨g, hg, hWork⟩ := List.mem_filterMap.mp hk
  obtain ⟨hFiles, hChanged⟩ := List.mem_filter.mp hg
  rw [Work.file_ofFile hWork] at hRel
  obtain rfl := eq_of_rel_eq hFiles (mem_files_of_messageFiles hf).1 hRel
  unfold AccountSync.changed at hChanged
  intro hConn
  rw [LivePool.isOpen, hConn] at hChanged
  simp [LivePool.foreignCommitPending, hConn] at hChanged

/-! ## The states of the engine alone -/

/-- A step of the engine alone. -/
structure Advances (x : Codec) (s t : State) : Prop where
  calm : Calm x t
  world : t.world = s.world
  onward : Onward s.world s.sync t.sync

theorem advances_of_step {op : Op} {t : State} (h : Calm x s) (hStep : step x s op = some t)
    (hFlagsOk : FlagsOk x s op) (hLedgerOk : LedgerOk x s op) (hWorld : t.world = s.world)
    (hOn : Onward s.world s.sync t.sync) (hAhead : Ahead s.world t.sync t.pc) :
    Advances x s t where
  calm := ⟨inv_step h.inv hFlagsOk hStep, ledger_step h.inv h.ledger hLedgerOk hStep,
    hWorld ▸ h.fine.onward hOn, hWorld ▸ hAhead⟩
  world := hWorld
  onward := hOn

theorem advances_of_tick {t : State} (h : Calm x s) (hTick : s.tick x {} = some t)
    (hOk : TickOk x s {}) (hPlain : pagePlain x s {} = true)
    (hOn : Onward s.world s.sync t.sync) (hAhead : Ahead s.world t.sync t.pc) :
    Advances x s t :=
  have hStep : step x s (.tick {}) = some t := hTick
  advances_of_step h hStep hOk hPlain (State.world_tick hTick) hOn hAhead

theorem advances_quiet (h : Calm x s) : Advances x s (quiet x s) := by
  have hFlags := h.inv.flags
  have hAhead := h.ahead
  unfold Flags at hFlags
  cases hPc : s.pc with
  | idle =>
    have hQuiet : quiet x s = s.poll fun _ => true := by simp [quiet, hPc]
    have hStep : step x s (.poll fun _ => true) = some (quiet x s) := by simp [step, hPc, hQuiet]
    rw [hQuiet] at hStep ⊢
    refine advances_of_step h hStep trivial trivial (State.world_poll s _) ?_ ?_
    · unfold State.poll
      rw [if_neg (by simp [h.inv.base.running])]
      dsimp only
      split <;> exact .refl
    · unfold State.poll
      rw [if_neg (by simp [h.inv.base.running])]
      dsimp only
      split
      · rw [hPc]
        trivial
      · refine ⟨fun f hf hTodo => pending_of_classified hf hTodo, fun _ f hf => ?_⟩
        simp only [hPc] at hFlags
        rcases hFlags f hf with hPending | hClean
        · exact .inr (.inl (List.mem_map_of_mem (f := fun k : Work => k.file.rel)
            (mem_classifyChanged h.inv.base hf hPending)))
        · exact .inl hClean
  | files p todo =>
    simp only [hPc] at hFlags hAhead
    have hTick : s.tick x {} = some (s.stepFiles {} p todo) := by simp [State.tick, hPc]
    rw [quiet_eq_tick (by simp [hPc]) hTick]
    exact advances_of_tick h hTick (by simp [TickOk, hPc]) (by simp [pagePlain, hPc])
      (onward_stepFiles h.fine hFlags.todoWorks) (ahead_stepFiles h.fine hFlags hAhead)
  | tables p todo r =>
    simp only [hPc] at hFlags hAhead
    have hTick : s.tick x {} = some (s.stepTables p todo r) := by simp [State.tick, hPc]
    rw [quiet_eq_tick (by simp [hPc]) hTick]
    refine advances_of_tick h hTick (by simp [TickOk, hPc]) (by simp [pagePlain, hPc]) ?_
      (ahead_stepTables hAhead)
    unfold State.stepTables
    split <;> exact .refl
  | pages p todo r t wm n =>
    have hTick : s.tick x {} = some (s.stepPage x {} p todo r t wm n) := by
      simp [State.tick, hPc]
    rw [quiet_eq_tick (by simp [hPc]) hTick]
    refine advances_of_tick h hTick (tickOk_quiet hPc h) (pagePlain_quiet hPc h) ?_
      (ahead_stepPage hPc h)
    unfold State.stepPage
    split
    · exact .refl
    · dsimp only
      repeat' split
      all_goals exact .refl
  | apply p =>
    have hTick : s.tick x {} = some (s.stepApply p) := by simp [State.tick, hPc]
    rw [quiet_eq_tick (by simp [hPc]) hTick]
    refine advances_of_tick h hTick (by simp [TickOk, hPc]) (by simp [pagePlain, hPc])
      (onward_stepApply h.ledger h.inv.base hPc) ?_
    unfold State.stepApply
    split <;> trivial
  | reload p counts todo =>
    simp only [hPc] at hFlags
    have hTick : s.tick x {} = some (s.stepReload x {} p counts todo) := by
      simp [State.tick, hPc]
    rw [quiet_eq_tick (by simp [hPc]) hTick]
    exact advances_of_tick h hTick (by simp [TickOk, hPc]) (by simp [pagePlain, hPc])
      (onward_stepReload hFlags.2) ahead_late.1
  | book p counts todo =>
    have hTick : s.tick x {} = some (s.stepBook {} p counts todo) := by simp [State.tick, hPc]
    rw [quiet_eq_tick (by simp [hPc]) hTick]
    exact advances_of_tick h hTick (by simp [TickOk, hPc]) (by simp [pagePlain, hPc])
      onward_stepBook (ahead_late (x := x)).2

theorem drained_quiet (h : Calm x s) (hDrained : Drained s) : Drained (quiet x s) := by
  obtain ⟨-, hWorld, hOn⟩ := advances_quiet h
  intro f hf t ht c hCols r hr
  rw [hWorld] at hf
  exact (hDrained f hf t ht c hCols r hr).trans (hOn.marks _)

/-! ## The measure -/

/-- The number of rows above the watermarks. -/
def waitingRows (s : State) : Nat :=
  (s.world.sources.filter fun r => s.sync.store.watermark r.origin < r.mark).length

/-- The place in a poll; it falls with every step but the one from phase 2 to phase 3. -/
def place : Pc → Nat ×ₗ Nat ×ₗ Nat ×ₗ Nat
  | .reload _ _ todo => toLex (6, toLex (todo.length, toLex (0, 0)))
  | .book _ _ todo => toLex (5, toLex (todo.length, toLex (0, 0)))
  | .idle => toLex (4, toLex (0, toLex (0, 0)))
  | .files _ todo => toLex (3, toLex (2 * todo.length, toLex (0, 0)))
  | .tables _ todo r => toLex (3, toLex (2 * todo.length + 1, toLex (2 * r.tables.length, 0)))
  | .pages _ todo r _ _ n =>
    toLex (3, toLex (2 * todo.length + 1, toLex (2 * r.tables.length + 1, readMaxPages - n)))
  | .apply _ => toLex (2, toLex (0, toLex (0, 0)))

def effort (s : State) : Nat ×ₗ Nat ×ₗ Nat ×ₗ Nat ×ₗ Nat := toLex (waitingRows s, place s.pc)

theorem effort_lt {t : State} (hRows : waitingRows t ≤ waitingRows s)
    (hPlace : place t.pc < place s.pc) : effort t < effort s := by
  rw [effort, effort, Prod.Lex.toLex_lt_toLex]
  rcases hRows.lt_or_eq with hLt | hEq
  · exact .inl hLt
  · exact .inr ⟨hEq, hPlace⟩

theorem waitingRows_anti {t : State} (hWorld : t.world = s.world)
    (hMarks : ∀ k, s.sync.store.watermark k ≤ t.sync.store.watermark k) :
    waitingRows t ≤ waitingRows s := by
  rw [waitingRows, waitingRows, hWorld]
  refine List.Sublist.length_le (List.monotone_filter_right _ fun r hr => ?_)
  simp only [decide_eq_true_eq] at hr ⊢
  exact (hMarks _).trans_lt hr

theorem place_files {io : Io} (hPc : s.pc = .files p todo) :
    place (s.stepFiles io p todo).pc < place s.pc := by
  rw [hPc]
  unfold State.stepFiles
  repeat' split
  all_goals simp [place, Prod.Lex.toLex_lt_toLex]
  all_goals omega

theorem place_tables (hPc : s.pc = .tables p todo r) :
    place (s.stepTables p todo r).pc < place s.pc := by
  rw [hPc]
  unfold State.stepTables
  split
  · simp [place, Prod.Lex.toLex_lt_toLex]
  · rename_i t ts hTables
    simp [place, Prod.Lex.toLex_lt_toLex, hTables]
    omega

theorem place_pages {io : Io} {t : String × String} {wm : Watermark} {n : Nat}
    (hPc : s.pc = .pages p todo r t wm n) (hOk : ∃ rows, s.readPageOf x io r t wm = .ok rows) :
    place (s.stepPage x io p todo r t wm n).pc < place s.pc := by
  obtain ⟨rows, hPage⟩ := hOk
  rw [hPc]
  unfold State.stepPage
  rw [hPage]
  dsimp only
  repeat' split
  all_goals simp [place, Prod.Lex.toLex_lt_toLex]
  all_goals omega

theorem place_reload {io : Io} {counts : Nat × Nat} (hRunning : s.sync.stopped = false)
    (hPc : s.pc = .reload p counts todo) :
    place (s.stepReload x io p counts todo).pc < place s.pc := by
  rw [hPc]
  unfold State.stepReload
  simp only [hRunning, Bool.false_eq_true, if_false]
  repeat' split
  all_goals simp [place, Prod.Lex.toLex_lt_toLex]

theorem place_book {io : Io} {counts : Nat × Nat} (hPc : s.pc = .book p counts todo) :
    place (s.stepBook io p counts todo).pc < place s.pc := by
  rw [hPc]
  unfold State.stepBook
  repeat' split
  all_goals simp [place, Prod.Lex.toLex_lt_toLex]

/-- While a row waits, the poll that reaches phase 2 has staged one. -/
theorem staged_of_waiting (h : Calm x s) (hNot : ¬Drained s) (hPc : s.pc = .apply p) :
    p.newRows ≠ [] := by
  intro hNone
  have hAt := h.ledger.staged
  have hAhead := h.ahead
  have hFlags := h.inv.flags
  simp only [StagedAt, hPc] at hAt
  simp only [Ahead, hPc] at hAhead
  simp only [Flags, hPc] at hFlags
  refine hNot fun f hf => ?_
  rcases hAhead hNone f hf with hClean | hDone
  · exact hClean
  · -- the file was read, so its rows are at or below the staged watermarks; none was staged
    refine cleanAt_iff.mpr fun r hr => ?_
    by_contra hAbove
    have hStaged := cleanAt_iff.mp (hFlags.done f hf hDone).1 r hr
    have hMem : r ∈ s.world.between s.sync.store.watermark (p.staged s.sync.store) :=
      Cursors.mem_between.mpr ⟨mem_world_sources.mpr ⟨f, hf, hr⟩, not_le.mp hAbove, hStaged⟩
    have hRows := hAt.rows.mem_iff.mpr hMem
    rw [hNone] at hRows
    cases hRows

theorem waitingRows_apply (h : Calm x s) (hNot : ¬Drained s) (hPc : s.pc = .apply p) :
    waitingRows (s.stepApply p) < waitingRows s := by
  have hAt := h.ledger.staged
  simp only [StagedAt, hPc] at hAt
  have hMarks : (s.stepApply p).sync.store.watermark = p.staged s.sync.store := by
    unfold State.stepApply
    rw [if_neg (by simp [h.inv.base.running])]
    exact watermark_applyTo p s.sync.store
  -- the staged rows leave the waiting ones
  have hSplit : (s.world.between s.sync.store.watermark (p.staged s.sync.store)).length +
      waitingRows (s.stepApply p) = waitingRows s := by
    rw [waitingRows, waitingRows, hMarks, State.world_stepApply, ← List.length_append]
    refine (Cursors.filter_append_filter (fun r => ⟨fun hr => ?_, fun hr => ?_⟩)
      (fun r hr hNext => absurd hNext (not_lt.mpr hr.2)) s.world.sources).length_eq
    · rcases le_or_gt r.mark (p.staged s.sync.store r.origin) with hLe | hLt
      · exact .inl ⟨hr, hLe⟩
      · exact .inr hLt
    · rcases hr with ⟨hLt, -⟩ | hLt
      · exact hLt
      · exact (hAt.le _).trans_lt hLt
  have hRows := hAt.rows.length_eq
  rw [List.length_map] at hRows
  have hSome := List.length_pos_of_ne_nil (staged_of_waiting h hNot hPc)
  omega

theorem effort_quiet (h : Calm x s) (hNot : ¬Drained s) : effort (quiet x s) < effort s := by
  obtain ⟨-, hWorld, hOn⟩ := advances_quiet h
  have hRows := waitingRows_anti hWorld hOn.marks
  have hFlags := h.inv.flags
  unfold Flags at hFlags
  cases hPc : s.pc with
  | idle =>
    refine effort_lt hRows ?_
    have hQuiet : quiet x s = s.poll fun _ => true := by simp [quiet, hPc]
    simp only [hPc] at hFlags
    have hWork : s.sync.classifyChanged s.world (fun _ => true) ≠ [] := by
      intro hNone
      refine hNot fun f hf => (hFlags f hf).resolve_left fun hPending => ?_
      have hMem : _ ∈ s.sync.classifyChanged s.world (fun _ => true) :=
        mem_classifyChanged h.inv.base hf hPending
      rw [hNone] at hMem
      cases hMem
    rw [hQuiet, hPc]
    unfold State.poll
    rw [if_neg (by simp [h.inv.base.running])]
    dsimp only
    rw [if_neg hWork]
    simp [place, Prod.Lex.toLex_lt_toLex]
  | files p todo =>
    have hTick : s.tick x {} = some (s.stepFiles {} p todo) := by simp [State.tick, hPc]
    rw [quiet_eq_tick (by simp [hPc]) hTick] at hRows ⊢
    exact effort_lt hRows (place_files hPc)
  | tables p todo r =>
    have hTick : s.tick x {} = some (s.stepTables p todo r) := by simp [State.tick, hPc]
    rw [quiet_eq_tick (by simp [hPc]) hTick] at hRows ⊢
    exact effort_lt hRows (place_tables hPc)
  | pages p todo r t wm n =>
    have hTick : s.tick x {} = some (s.stepPage x {} p todo r t wm n) := by
      simp [State.tick, hPc]
    rw [quiet_eq_tick (by simp [hPc]) hTick] at hRows ⊢
    have hAt := h.ledger.staged
    simp only [StagedAt, hPc] at hAt
    obtain ⟨f, -, -, -, c, -, -, hPage⟩ :=
      readPageOf_quiet x wm h.ledger.full hAt.2
    exact effort_lt hRows (place_pages hPc ⟨_, hPage⟩)
  | apply p =>
    have hTick : s.tick x {} = some (s.stepApply p) := by simp [State.tick, hPc]
    rw [quiet_eq_tick (by simp [hPc]) hTick, effort, effort, Prod.Lex.toLex_lt_toLex]
    exact .inl (waitingRows_apply h hNot hPc)
  | reload p counts todo =>
    have hTick : s.tick x {} = some (s.stepReload x {} p counts todo) := by
      simp [State.tick, hPc]
    rw [quiet_eq_tick (by simp [hPc]) hTick] at hRows ⊢
    exact effort_lt hRows (place_reload h.inv.base.running hPc)
  | book p counts todo =>
    have hTick : s.tick x {} = some (s.stepBook {} p counts todo) := by simp [State.tick, hPc]
    rw [quiet_eq_tick (by simp [hPc]) hTick] at hRows ⊢
    exact effort_lt hRows (place_book hPc)

/-- The engine alone drains every file, and they stay drained. -/
theorem eventually_drained (h : Calm x s) :
    ∃ n, ∀ m, n ≤ m → Calm x ((quiet x)^[m] s) ∧ Drained ((quiet x)^[m] s) := by
  obtain ⟨n, hCalm, hDrained⟩ := Runs.exists_iterate (f := quiet x) (P := Calm x) effort
    (fun s hs hNot => ⟨(advances_quiet hs).calm, effort_quiet hs hNot⟩) s h
  refine ⟨n, fun m hm => ?_⟩
  exact Runs.iterate_le (P := fun s => Calm x s ∧ Drained s)
    (fun s hs => ⟨(advances_quiet hs.1).calm, drained_quiet hs.1 hs.2⟩) hm ⟨hCalm, hDrained⟩

end

/-! ## The run -/

/-- Steps that let every commit be seen: a commit appends above the watermarks of its tables,
those of the running poll included, and leaves no row where the running poll does not look
again before the bookkeeping; a page reads no system message, and one that fails or ends its
table at the page limit is not of a file this poll opened. -/
structure CommitSeen (x : Codec) (s : State) (op : Op) : Prop where
  flags : FlagsOk x s op
  ledger : LedgerOk x s op
  listed : PickOk x s op

/-- **No lost update.** After any run of such steps, once the writers have stopped and every
file opens, the engine alone reaches a state after which the store holds every row of every
message table exactly once. -/
theorem every_commit_stored_once (x : Codec) (wxid : String) (keys : KeyMap) (w : World)
    (io : BuildIo) (nowMs : Int) (hLoads : ∀ k, io.loadFails k = false)
    (hListed : AllListed w) (hFull : ∀ f ∈ w.messageFiles, f.db.AllFull)
    (hZero : ∀ f ∈ w.messageFiles,
      (start x wxid keys w io nowMs).sync.pool.isOpen f.rel = false →
        ∀ r ∈ f.sources, .zero < r.mark)
    {t : State} (hRun : Runs.Run (step x) (CommitSeen x) (start x wxid keys w io nowMs) t)
    (hIdle : t.pc = .idle) (hFine : Fine x t.world t.sync) :
    ∃ n, ∀ m, n ≤ m →
      (((quiet x)^[m] t).sync.store.records.map MessageRecord.sourceRow).Perm
        t.world.messageRows := by
  obtain ⟨hInv, hLedger, hAll⟩ : Inv t ∧ Ledger t ∧ AllListed t.world := by
    refine hRun.invariant (P := fun s => Inv s ∧ Ledger s ∧ AllListed s.world)
      ⟨inv_start hLoads, ledger_start hLoads hFull hZero, hListed⟩ ?_
    rintro s op u ⟨hInv, hLedger, hAll⟩ hOk hStep
    exact ⟨inv_step hInv hOk.flags hStep, ledger_step hInv hLedger hOk.ledger hStep,
      allListed_step hAll hOk.listed hStep⟩
  have hCalm : Calm x t := ⟨hInv, hLedger, hFine, by rw [hIdle]; trivial⟩
  obtain ⟨n, hn⟩ := eventually_drained hCalm
  refine ⟨n, fun m hm => ?_⟩
  obtain ⟨hCalmAt, hDrained⟩ := hn m hm
  have hWorld : ((quiet x)^[m] t).world = t.world := by
    refine (Function.Iterate.rec (fun s => Calm x s ∧ s.world = t.world) ⟨hCalm, rfl⟩
      (fun s hs => ?_) m).2
    obtain ⟨hNext, hSame, -⟩ := advances_quiet hs.1
    exact ⟨hNext, hSame.trans hs.2⟩
  have hHeld := hCalmAt.ledger.held
  rw [Held, hDrained.below, hWorld] at hHeld
  exact hHeld.trans (World.perm_messageRows hAll)

/-! ## One file and two commits -/

/-- The second row is committed after the full sync. -/
def waitingStart : State :=
  { singleStart Db.oneRow {} with
    world := World.commit (World.single Db.oneRow) "m" ⟨none, none⟩ (Db.twoRows 1) }

theorem isRevokeRow_rowOf (n : Int) (k : WmKey) (uids : AList fun _ : Int => String) :
    isRevokeRow (rowToRecord (.blank "") k "" ∅ (fullCols.extract (rowOf n 1) uids)) = false := by
  simp [isRevokeRow, splitLocalType, rowToRecord, MsgCols.extract, fullCols, rowOf, Codec.blank,
    ParsedMsg.text]

/-- An open file of the one table, with rows of ordinary messages. -/
theorem fine_hasRows {w : World} {a : AccountSync} (ids : List Int)
    (hFiles : ∀ f ∈ w.messageFiles, f.rel = "m" ∧ f.key = "" ∧
      f.db.HasRows (ids.map fun n => rowOf n 1))
    (hKey : a.keys "m" = some "") (hOpen : a.pool.isOpen "m" = true) :
    Fine (.blank "") w a where
  keys f hf := by rw [(hFiles f hf).1, (hFiles f hf).2.1, hKey]
  opens f hf := LivePool.getOrOpen_of_isOpen (by rw [(hFiles f hf).1]; exact hOpen)
  plain f hf t ht c hCols r hr _ uids := by
    have hRows := (hFiles f hf).2.2
    rw [hRows.messageTables, List.mem_singleton] at ht
    subst ht
    have hProbe : MsgCols.probe Increment.fullColumns = some fullCols := by decide
    rw [Source.cols, hRows.tableColumns, hProbe, Option.some.injEq] at hCols
    subst hCols
    rw [hRows.msgRows] at hr
    obtain ⟨n, -, rfl⟩ := List.mem_map.mp hr
    exact isRevokeRow_rowOf n _ uids
  small f hf hClosed := by
    rw [(hFiles f hf).1, hOpen] at hClosed
    cases hClosed

theorem every_commit_stored_once_second_row :
    ∃ n, ∀ m, n ≤ m →
      (((quiet (.blank ""))^[m] waitingStart).sync.store.records.map
        MessageRecord.sourceRow).Perm waitingStart.world.messageRows := by
  refine every_commit_stored_once (.blank "") "" (fun _ => some "") (World.single Db.oneRow) {} 0
    (fun _ => rfl) (allListed_single Db.hasRows_oneRow.listed)
    (fun f hf => by obtain rfl := List.mem_singleton.mp hf; exact allFull_hasRows Db.hasRows_oneRow)
    (fun f hf hClosed => by obtain rfl := List.mem_singleton.mp hf; cases hClosed)
    (.single (.commit "m" ⟨none, none⟩ (Db.twoRows 1)) ⟨?_, ?_, ?_⟩ rfl) rfl
    (fine_hasRows [1, 2] (fun f hf => ?_) rfl rfl)
  · exact fun _ _ _ _ _ hExposed => hExposed.elim
  · exact appends_twoRows 1
  · exact (Db.hasRows_twoRows 1).listed
  · obtain rfl := List.mem_singleton.mp hf
    exact ⟨rfl, rfl, Db.hasRows_twoRows 1⟩

/-- A third row is appended. -/
def threeRows : Db :=
  .oneTable [rowOf 1 1, rowOf 2 1, rowOf 3 1] (by simp [rowOf]) (by simp [rowOf])

theorem hasRows_threeRows : threeRows.HasRows [rowOf 1 1, rowOf 2 1, rowOf 3 1] := rfl

/-- Commits that append above the stored watermarks, at any time, and a poll that reads on and
meets no system message. -/
def WriterRun (x : Codec) (s : State) : Op → Prop
  | .commit rel _ db => Appends s.world s.sync.store.watermark rel db ∧ db.Listed
  | .poll _ => True
  | .tick io => readsOn x s io = true ∧ pagePlain x s io = true
  | _ => False

def writerOp (s : State) : Op → Bool
  | .poll _ => true
  | .tick io => readsOn (.blank "") s io && pagePlain (.blank "") s io
  | _ => false

theorem writerRun_of_writerOp (s : State) (op : Op) (h : writerOp s op = true) :
    WriterRun (.blank "") s op := by
  cases op with
  | poll pragmaOk => trivial
  | tick io => simpa [writerOp, WriterRun] using h
  | _ => cases h

/-- The poll has read the table of the file to its end. -/
def pageRead : State :=
  (Runs.exec (step (.blank "")) writerOp waitingStart
    (.poll (fun _ => true) :: List.replicate 3 (.tick {}))).getD waitingStart

/-- Then the third row is committed, the poll ends, and another one finds nothing. -/
def thirdLost : State :=
  let s := { pageRead with
    world := World.commit pageRead.world "m" ⟨none, none⟩ threeRows }
  (Runs.exec (step (.blank "")) writerOp s
    (List.replicate 7 (.tick {}) ++ [.poll fun _ => true])).getD s

theorem run_thirdLost : Runs.Run (step (.blank "")) (WriterRun (.blank ""))
    (singleStart Db.oneRow {}) thirdLost := by
  have hSecond : Runs.Run (step (.blank "")) (WriterRun (.blank "")) (singleStart Db.oneRow {})
      waitingStart :=
    .single (.commit "m" ⟨none, none⟩ (Db.twoRows 1))
      ⟨appends_twoRows 1, (Db.hasRows_twoRows 1).listed⟩ rfl
  have hRead : Runs.Run (step (.blank "")) (WriterRun (.blank "")) waitingStart pageRead :=
    Runs.run_of_exec (.poll (fun _ => true) :: List.replicate 3 (.tick {}))
      writerRun_of_writerOp rfl
  have hThird : WriterRun (.blank "") pageRead (.commit "m" ⟨none, none⟩ threeRows) := by
    refine ⟨appends_hasRows [rowOf 1 1, rowOf 2 1] [rowOf 3 1] (fun f hf => ?_)
      hasRows_threeRows fun r hr => ?_, hasRows_threeRows.listed⟩
    · obtain rfl := List.mem_singleton.mp hf
      exact ⟨rfl, Db.hasRows_twoRows 1⟩
    · obtain rfl := List.mem_singleton.mp hr
      exact (by decide +kernel :
        pageRead.sync.store.watermark ⟨"m", "Msg_0123456789abcdef"⟩ < ⟨100, 3, 3⟩)
  refine (hSecond.trans hRead).trans ((Runs.Run.single _ hThird rfl).trans ?_)
  exact Runs.run_of_exec (List.replicate 7 (.tick {}) ++ [.poll fun _ => true])
    writerRun_of_writerOp rfl

/-- The third row lands after the last page of its table and before the bookkeeping of its
file, which takes the new version as seen. -/
theorem commit_before_bookkeeping_is_lost : ¬ ∀ t, Runs.Run (step (.blank ""))
    (WriterRun (.blank "")) (singleStart Db.oneRow {}) t → t.pc = .idle →
      Fine (.blank "") t.world t.sync → ∃ n, ∀ m, n ≤ m →
        (((quiet (.blank ""))^[m] t).sync.store.records.map MessageRecord.sourceRow).Perm
          t.world.messageRows := by
  intro h
  have hFine : Fine (.blank "") thirdLost.world thirdLost.sync :=
    fine_hasRows [1, 2, 3] (fun f hf => by
      obtain rfl := List.mem_singleton.mp hf
      exact ⟨rfl, rfl, hasRows_threeRows⟩) rfl rfl
  obtain ⟨n, hn⟩ := h thirdLost run_thirdLost rfl hFine
  have hFixed : quiet (.blank "") thirdLost = thirdLost := rfl
  have hLength := (hn n le_rfl).length_eq
  rw [Function.iterate_fixed hFixed] at hLength
  exact absurd hLength (by decide +kernel)

end Sync

end Weflow
