import Weflow.Sync.Staging

/-!
# No file is forgotten

A message file is *pending* if the next classification looks at it: it is closed, or the
baseline of its connection is not its version. The invariant of this module says that in every
state every message file is pending or has no row above the watermarks, and what phase 1 has to
know about the file it is reading for this to come out again in phase 2.

Two kinds of steps are restricted. A commit during a poll must not leave a row above the
watermarks in a table that the poll will not read again before the bookkeeping of its file
(`CommitOk`); between polls this says nothing. And a page that ends the poll with an error, or
ends a table at the page limit, must not concern a file that this poll opened (`TickOk`).
-/

namespace Weflow.Sync

/-- Closed, or opened at another version: the next classification looks at the file. -/
def Pending (pool : LivePool) (f : Source) : Prop := pool.conn? f.rel ≠ some (some f.version)

/-- The file is looked at again, or has nothing to read. -/
def Settled (pool : LivePool) (marks : WmKey → Watermark) (f : Source) : Prop :=
  Pending pool f ∨ f.CleanAt marks

/-- Every item of work is a file of the world. -/
def FromFiles (w : World) (works : List Work) : Prop :=
  ∀ k ∈ works, ∃ f ∈ w.files, Work.ofFile f.toDbFile = some k

/-- The files of a list of work. -/
def rels (works : List Work) : List String := works.map fun k => k.file.rel

namespace Pc

/-- The rows of the table will not be read again before the bookkeeping of the file. -/
def Exposed : Pc → String → String → Prop
  | .idle, _, _ => False
  | .files p _, rel, _ => rel ∈ p.readDone
  | .tables p _ r, rel, table =>
    rel ∈ p.readDone ∨ rel = r.rel ∧ r.drained = true ∧ table ∉ r.tables.map Prod.fst
  | .pages p _ r t _ _, rel, table =>
    rel ∈ p.readDone ∨
      rel = r.rel ∧ r.drained = true ∧ table ∉ t.1 :: r.tables.map Prod.fst
  | .apply p, rel, _ => rel ∈ p.readDone
  | .reload p _ _, rel, _ => rel ∈ p.readDone
  | .book p _ todo, rel, _ => rel ∈ p.readDone ∧ rel ∈ rels todo

end Pc

/-- The stored watermarks, with those the running poll has staged. -/
def State.marks (s : State) : WmKey → Watermark :=
  match s.pc with
  | .files p _ | .tables p _ _ | .pages p _ _ _ _ _ | .apply p => p.staged s.sync.store
  | _ => s.sync.store.watermark

/-- The commit leaves no row above the watermarks where it would not be read. -/
def CommitOk (s : State) (rel : String) (db : Db) : Prop :=
  ∀ f ∈ s.world.messageFiles, f.rel = rel → ∀ t ∈ messageTables db, s.pc.Exposed rel t.1 →
    db.Below t.1 (s.marks ⟨rel, t.1⟩)

/-- A page that cannot be read, or the last page the limit allows, if it is full. -/
def TickOk (x : Codec) (s : State) (io : Io) : Prop :=
  match s.pc with
  | .pages p _ r t wm pages =>
    match s.readPageOf x io r t wm with
    | .error _ => ∀ f ∈ s.world.messageFiles, f.rel ∈ p.opened →
      Settled s.sync.pool s.sync.store.watermark f
    | .ok rows => readPage ≤ rows.length → readMaxPages ≤ pages + 1 →
      ∀ f ∈ s.world.messageFiles, f.rel = r.rel → Pending s.sync.pool f ∨
        f.db.Below t.1 (Keyset.cursorAfter MessageRecord.mark wm rows)
  | _ => True

/-- The steps that are not restricted further. -/
def FlagsOk (x : Codec) (s : State) : Op → Prop
  | .commit rel _ db => CommitOk s rel db
  | .stop => False
  | .tick io => TickOk x s io
  | _ => True

/-! ## The invariant -/

/-- Connections are not ahead of their files, and only open files have stamps. -/
structure Base (w : World) (a : AccountSync) : Prop where
  running : a.stopped = false
  conns : ∀ f ∈ w.files, ∀ v, a.pool.conn? f.rel = some (some v) → v ≤ f.version
  stamped : ∀ f ∈ w.messageFiles, a.stamps.lookup f.rel ≠ none → a.pool.isOpen f.rel = true

/-- Phase 1, with the files still to read and the file being read. -/
structure Reads (w : World) (a : AccountSync) (p : Poll) (todo : List Work)
    (busy : Option String) : Prop where
  works : FromFiles w p.work
  worksNodup : (rels p.work).Nodup
  todoWorks : FromFiles w todo
  todoNodup : (rels todo).Nodup
  unopened : ∀ f ∈ w.messageFiles, f.rel ∉ p.opened → Settled a.pool a.store.watermark f
  rest : ∀ f ∈ w.messageFiles, busy ≠ some f.rel → Settled a.pool (p.staged a.store) f
  done : ∀ f ∈ w.messageFiles, f.rel ∈ p.readDone →
    f.CleanAt (p.staged a.store) ∧ a.pool.isOpen f.rel = true
  doneRest : ∀ rel ∈ p.readDone, busy ≠ some rel ∧ rel ∉ rels todo
  untouched : ∀ rel ∈ rels todo, ∀ table,
    p.staged a.store ⟨rel, table⟩ = a.store.watermark ⟨rel, table⟩

/-- The file being read; `left` are the tables that are not read to their end. -/
structure Busy (w : World) (a : AccountSync) (p : Poll) (todo : List Work) (r : Reading)
    (left : List String) : Prop where
  isOpen : a.pool.isOpen r.rel = true
  notTodo : r.rel ∉ rels todo
  nodup : (r.tables.map Prod.fst).Nodup
  fresh : ∀ t ∈ r.tables, p.staged a.store ⟨r.rel, t.1⟩ = a.store.watermark ⟨r.rel, t.1⟩
  clean : ∀ f ∈ w.messageFiles, f.rel = r.rel → r.drained = true ∨ ¬Pending a.pool f →
    ∀ t ∈ messageTables f.db, t.1 ∈ left ∨ f.db.Below t.1 (p.staged a.store (f.wmKey t.1))

/-- The phases after the apply phase. -/
structure Booking (w : World) (a : AccountSync) (p : Poll) (todo : List Work) : Prop where
  works : FromFiles w todo
  nodup : (rels todo).Nodup
  settled : ∀ f ∈ w.messageFiles, Settled a.pool a.store.watermark f
  done : ∀ f ∈ w.messageFiles, f.rel ∈ p.readDone → f.rel ∈ rels todo →
    f.CleanAt a.store.watermark ∧ a.pool.isOpen f.rel = true

def Flags (s : State) : Prop :=
  match s.pc with
  | .idle => ∀ f ∈ s.world.messageFiles, Settled s.sync.pool s.sync.store.watermark f
  | .files p todo => Reads s.world s.sync p todo none
  | .tables p todo r => Reads s.world s.sync p todo (some r.rel) ∧
    Busy s.world s.sync p todo r (r.tables.map Prod.fst)
  | .pages p todo r t wm _ => Reads s.world s.sync p todo (some r.rel) ∧
    Busy s.world s.sync p todo r (t.1 :: r.tables.map Prod.fst) ∧
    t.1 ∉ r.tables.map Prod.fst ∧ p.staged s.sync.store ⟨r.rel, t.1⟩ = wm
  | .apply p => Reads s.world s.sync p [] none
  | .reload p _ todo => Booking s.world s.sync p p.work ∧ FromFiles s.world todo
  | .book p _ todo => Booking s.world s.sync p todo

/-- What every restricted run keeps. -/
structure Inv (s : State) : Prop where
  base : Base s.world s.sync
  flags : Flags s

/-! ## Files and work -/

section

variable {w : World} {works : List Work}

theorem Work.file_ofFile {f : DbFile} {k : Work} (h : Work.ofFile f = some k) : k.file = f := by
  unfold Work.ofFile at h
  split at h <;> cases h <;> rfl

/-- Message work is a message file. -/
theorem Work.ofFile_messages {f g : DbFile} (h : Work.ofFile f = some (.messages g)) :
    g = f ∧ f.kind = .message := by
  unfold Work.ofFile at h
  split at h <;> cases h
  rename_i hKind
  exact ⟨rfl, hKind⟩

theorem Work.ofFile_message {f : DbFile} (h : f.kind = .message) :
    Work.ofFile f = some (.messages f) := by
  simp [Work.ofFile, h]

theorem messageFile_of_work {f : DbFile} (h : FromFiles w works) (hf : Work.messages f ∈ works) :
    ∃ g ∈ w.messageFiles, g.toDbFile = f := by
  obtain ⟨g, hg, hWork⟩ := h _ hf
  obtain ⟨rfl, hKind⟩ := Work.ofFile_messages hWork
  exact ⟨g, by simp [World.messageFiles, hg, hKind], rfl⟩

/-- Work of another kind is about no message file. -/
theorem rel_ne_of_section {k : Work} (h : FromFiles w works) (hk : k ∈ works)
    (hKind : ∀ f, k ≠ .messages f) {f : Source} (hf : f ∈ w.messageFiles) :
    f.rel ≠ k.file.rel := by
  intro hRel
  obtain ⟨g, hg, hWork⟩ := h k hk
  obtain ⟨hFiles, hMsg⟩ := mem_files_of_messageFiles hf
  rw [Work.file_ofFile hWork] at hRel
  obtain rfl := eq_of_rel_eq hFiles hg hRel
  rw [Work.ofFile_message hMsg] at hWork
  exact hKind _ (Option.some.inj hWork).symm

theorem FromFiles.tail {k : Work} (h : FromFiles w (k :: works)) : FromFiles w works :=
  fun k' hk' => h k' (List.mem_cons_of_mem _ hk')

theorem messageTables_names_nodup (db : Db) : ((messageTables db).map Prod.fst).Nodup := by
  have hSub : ((messageTables db).map Prod.fst).Sublist (tableNames db messageTablesCap) := by
    unfold messageTables
    generalize tableNames db messageTablesCap = names
    induction names with
    | nil => exact .refl _
    | cons n names ih =>
      rw [List.filterMap_cons]
      cases msgSuffix n with
      | none => exact ih.cons n
      | some suffix => exact ih.cons_cons n
  exact ((sortedNames_nodup db).sublist (List.take_sublist _ _)).sublist hSub

end

/-! ## Connections -/

section

variable {pool pool' : LivePool} {f g : Source} {marks : WmKey → Watermark} {w : World}

theorem Settled.of_conn (hConn : pool'.conn? f.rel = pool.conn? f.rel)
    (h : Settled pool marks f) : Settled pool' marks f := by
  rcases h with h | h
  · exact .inl (by rw [Pending, hConn]; exact h)
  · exact .inr h

theorem conns_accessed {err : Option AcquireError} {ok : Bool}
    (hAcc : LivePool.Accessed pool pool' g err ok) (hg : g ∈ w.files)
    (h : ∀ f ∈ w.files, ∀ v, pool.conn? f.rel = some (some v) → v ≤ f.version) :
    ∀ f ∈ w.files, ∀ v, pool'.conn? f.rel = some (some v) → v ≤ f.version := by
  intro f hf v hv
  rcases hAcc with ⟨hSame, -⟩ | ⟨-, -, hOpened⟩
  · exact h f hf v (hSame f.rel ▸ hv)
  · rw [hOpened f.rel] at hv
    split at hv
    · rename_i hRel
      obtain rfl := eq_of_rel_eq hf hg hRel
      split at hv <;> simp only [Option.some.injEq, reduceCtorEq] at hv
      exact hv.ge
    · exact h f hf v hv

theorem Base.accessed {a : AccountSync} {err : Option AcquireError} {ok : Bool} {store : Store}
    (h : Base w a) (hAcc : LivePool.Accessed a.pool pool' g err ok) (hg : g ∈ w.files) :
    Base w { a with pool := pool', store } where
  running := h.running
  conns := conns_accessed hAcc hg h.conns
  stamped f hf hStamp := hAcc.isOpen_mono (h.stamped f hf hStamp)

theorem Base.markKeyless {a : AccountSync} {err : Option AcquireError} {ok : Bool} {rel : String}
    (h : Base w a) (hAcc : LivePool.Accessed a.pool pool' g err ok) (hg : g ∈ w.files) :
    Base w { a with pool := pool'.markKeyless rel } where
  running := h.running
  conns := conns_accessed hAcc hg h.conns
  stamped f hf hStamp := hAcc.isOpen_mono (h.stamped f hf hStamp)

end

/-! ## Phase 1 -/

section

variable {w : World} {a : AccountSync} {p : Poll} {todo : List Work} {k : Work}
  {busy : Option String}

/-- The next file is left out. -/
theorem Reads.skip (h : Reads w a p (k :: todo) none) : Reads w a p todo none where
  works := h.works
  worksNodup := h.worksNodup
  todoWorks := h.todoWorks.tail
  todoNodup := (List.nodup_cons.mp h.todoNodup).2
  unopened := h.unopened
  rest := h.rest
  done := h.done
  doneRest rel hRel := ⟨(h.doneRest rel hRel).1,
    fun hMem => (h.doneRest rel hRel).2 (List.mem_cons_of_mem _ hMem)⟩
  untouched rel hRel := h.untouched rel (List.mem_cons_of_mem _ hRel)

/-- An access that opens no message file changes nothing. -/
theorem Reads.frame {pool : LivePool} (h : Reads w a p todo busy)
    (hConn : ∀ r, pool.conn? r = a.pool.conn? r) : Reads w { a with pool } p todo busy where
  works := h.works
  worksNodup := h.worksNodup
  todoWorks := h.todoWorks
  todoNodup := h.todoNodup
  unopened f hf hNot := (h.unopened f hf hNot).of_conn (hConn f.rel)
  rest f hf hBusy := (h.rest f hf hBusy).of_conn (hConn f.rel)
  done f hf hDone := ⟨(h.done f hf hDone).1, LivePool.isOpen_of_conn (hConn f.rel) (h.done f hf hDone).2⟩
  doneRest := h.doneRest
  untouched := h.untouched

/-- The next file is open now and becomes the one that is read. -/
theorem Reads.acquire {pool : LivePool} {src : Source} {ok : Bool} {f : DbFile}
    (h : Reads w a p (.messages f :: todo) none) (hSrc : src.rel = f.rel)
    (hAcc : LivePool.Accessed a.pool pool src none ok) :
    Reads w { a with pool }
      { p with opened := if a.pool.isOpen f.rel then p.opened else f.rel :: p.opened } todo
      (some f.rel) where
  works := h.works
  worksNodup := h.worksNodup
  todoWorks := h.todoWorks.tail
  todoNodup := (List.nodup_cons.mp h.todoNodup).2
  unopened g hg hNot := by
    by_cases hRel : g.rel = f.rel
    · -- this file was open before, so the access changed nothing
      have hOpen : a.pool.isOpen f.rel = true := by
        by_contra hClosed
        rw [if_neg hClosed] at hNot
        exact hNot (hRel ▸ List.mem_cons_self)
      rw [if_pos hOpen] at hNot
      refine (h.unopened g hg hNot).of_conn ?_
      rcases hAcc with ⟨hSame, -⟩ | ⟨hNone, -, -⟩
      · exact hSame g.rel
      · rw [LivePool.isOpen, ← hSrc, hNone] at hOpen
        cases hOpen
    · refine (h.unopened g hg fun hMem => hNot ?_).of_conn
        (hAcc.conn?_ne (hSrc ▸ hRel))
      split
      · exact hMem
      · exact List.mem_cons_of_mem _ hMem
  rest g hg hBusy := by
    refine (h.rest g hg (by simp)).of_conn (hAcc.conn?_ne fun hRel => hBusy ?_)
    rw [hRel, hSrc]
  done g hg hDone := ⟨(h.done g hg hDone).1, hAcc.isOpen_mono (h.done g hg hDone).2⟩
  doneRest rel hRel := by
    have hNot := (h.doneRest rel hRel).2
    refine ⟨?_, fun hMem => hNot (List.mem_cons_of_mem _ hMem)⟩
    rintro hEq
    cases hEq
    exact hNot List.mem_cons_self
  untouched rel hRel := h.untouched rel (List.mem_cons_of_mem _ hRel)

theorem inv_stepFiles {s : State} (io : Io) {p : Poll} {todo : List Work}
    (hBase : Base s.world s.sync) (h : Reads s.world s.sync p todo none) : Inv (s.stepFiles io p todo) := by
  rcases todo with _ | ⟨k, todo⟩
  · exact ⟨hBase, h⟩
  · unfold State.stepFiles
    split
    · rename_i heq
      cases heq
    · rename_i f todo' heq
      cases heq
      split
      · rename_i key src hKey hSrc
        obtain ⟨hFiles, hRel⟩ := World.source?_some hSrc
        have hAcc := s.sync.pool.getOrOpen_spec src key io.access
        rcases hRes : s.sync.pool.getOrOpen src key io.access with ⟨pool, err⟩
        rw [hRes] at hAcc
        cases err with
        | none =>
          refine ⟨hBase.accessed hAcc hFiles, h.acquire hRel hAcc, ?_⟩
          have hOpen : pool.isOpen f.rel = true := hRel ▸ hAcc.isOpen
          refine ⟨hOpen, (List.nodup_cons.mp h.todoNodup).1, messageTables_names_nodup _,
            fun t _ => h.untouched f.rel List.mem_cons_self t.1, ?_⟩
          intro g hg hEq _ t ht
          obtain rfl : g = src := eq_of_rel_eq (mem_files_of_messageFiles hg).1 hFiles
            (hEq.trans hRel.symm)
          exact .inl (List.mem_map_of_mem ht)
        | some e =>
          have hSame : ∀ r, pool.conn? r = s.sync.pool.conn? r := by
            rcases hAcc with ⟨hSame, -⟩ | ⟨-, hErr, -⟩
            · exact hSame
            · cases hErr
          cases e with
          | wrongKey => exact ⟨hBase.markKeyless hAcc hFiles, h.skip.frame hSame⟩
          | missing => exact ⟨hBase.accessed hAcc hFiles, h.skip.frame hSame⟩
          | io => exact ⟨hBase.accessed hAcc hFiles, h.skip.frame hSame⟩
      · exact ⟨hBase, h.skip⟩
    · rename_i heq
      cases heq
      exact ⟨hBase, h.skip⟩

/-- The file that was read is finished. -/
theorem Reads.finish {r : Reading} (h : Reads w a p todo (some r.rel))
    (hBusy : Busy w a p todo r []) :
    Reads w a
      { p with readDone := if r.drained then p.readDone ++ [r.rel] else p.readDone } todo none where
  works := h.works
  worksNodup := h.worksNodup
  todoWorks := h.todoWorks
  todoNodup := h.todoNodup
  unopened := h.unopened
  rest f hf _ := by
    by_cases hRel : f.rel = r.rel
    · by_cases hPending : Pending a.pool f
      · exact .inl hPending
      · refine .inr fun t ht => ?_
        exact (hBusy.clean f hf hRel (.inr hPending) t ht).resolve_left (by simp)
    · exact h.rest f hf fun hEq => hRel (Option.some.inj hEq).symm
  done f hf hDone := by
    by_cases hDrained : r.drained = true
    · rw [if_pos hDrained, List.mem_append, List.mem_singleton] at hDone
      rcases hDone with hDone | hRel
      · exact h.done f hf hDone
      · refine ⟨fun t ht => ?_, hRel ▸ hBusy.isOpen⟩
        exact (hBusy.clean f hf hRel (.inl hDrained) t ht).resolve_left (by simp)
    · rw [if_neg hDrained] at hDone
      exact h.done f hf hDone
  doneRest rel hRel := by
    refine ⟨by simp, ?_⟩
    by_cases hDrained : r.drained = true
    · rw [if_pos hDrained, List.mem_append, List.mem_singleton] at hRel
      rcases hRel with hRel | rfl
      · exact (h.doneRest rel hRel).2
      · exact hBusy.notTodo
    · rw [if_neg hDrained] at hRel
      exact (h.doneRest rel hRel).2
  untouched := h.untouched

theorem inv_stepTables {s : State} {p : Poll} {todo : List Work} {r : Reading}
    (hBase : Base s.world s.sync) (h : Reads s.world s.sync p todo (some r.rel))
    (hBusy : Busy s.world s.sync p todo r (r.tables.map Prod.fst)) :
    Inv (s.stepTables p todo r) := by
  unfold State.stepTables
  split
  · rename_i hNil
    rw [hNil] at hBusy
    exact ⟨hBase, h.finish hBusy⟩
  · rename_i t ts hTables
    refine ⟨hBase, h, ⟨hBusy.isOpen, hBusy.notTodo, ?_, fun t' ht' => ?_, ?_⟩, ?_, ?_⟩
    · have hNodup := hBusy.nodup
      rw [hTables] at hNodup
      exact (List.nodup_cons.mp hNodup).2
    · exact hBusy.fresh t' (hTables ▸ List.mem_cons_of_mem _ ht')
    · have hClean := hBusy.clean
      rw [hTables] at hClean
      exact hClean
    · have hNodup := hBusy.nodup
      rw [hTables] at hNodup
      exact (List.nodup_cons.mp hNodup).1
    · exact hBusy.fresh t (hTables ▸ List.mem_cons_self)

/-- A page stages rows of one table of the file that is read. -/
theorem Reads.page {r : Reading} (h : Reads w a p todo (some r.rel)) (hNot : r.rel ∉ rels todo)
    (session table : String) (rows : List MessageRecord) :
    Reads w a (p.stageAll session ⟨r.rel, table⟩ rows) todo (some r.rel) := by
  obtain ⟨hWork, hDone, hOpened⟩ := stageAll_frame p session ⟨r.rel, table⟩ rows
  have hKeep : ∀ k : WmKey, k.rel ≠ r.rel →
      (p.stageAll session ⟨r.rel, table⟩ rows).staged a.store k = p.staged a.store k := by
    intro k hk
    refine staged_stageAll_ne p session _ rows a.store ?_
    rintro rfl
    exact hk rfl
  have hClean : ∀ f : Source, f.rel ≠ r.rel → f.CleanAt (p.staged a.store) →
      f.CleanAt ((p.stageAll session ⟨r.rel, table⟩ rows).staged a.store) := by
    intro f hRel hClean t ht
    rw [hKeep (f.wmKey t.1) hRel]
    exact hClean t ht
  refine ⟨by rw [hWork]; exact h.works, by rw [hWork]; exact h.worksNodup, h.todoWorks,
    h.todoNodup, by rw [hOpened]; exact h.unopened, fun f hf hBusy => ?_, fun f hf hRead => ?_,
    by rw [hDone]; exact h.doneRest, fun rel hRel tbl => ?_⟩
  · refine (h.rest f hf hBusy).imp_right (hClean f fun hRel => hBusy ?_)
    rw [hRel]
  · rw [hDone] at hRead
    have hNe : f.rel ≠ r.rel := fun hRel => (h.doneRest f.rel hRead).1 (by rw [hRel])
    exact ⟨hClean f hNe (h.done f hf hRead).1, (h.done f hf hRead).2⟩
  · rw [hKeep ⟨rel, tbl⟩ fun hEq => hNot (hEq ▸ hRel)]
    exact h.untouched rel hRel tbl

/-- The tables of the file after a page of the table `t`; `hTable` is what the page says about
that table itself. -/
theorem Busy.page {r : Reading} {t : String × String} {left : List String} {drained : Bool}
    (hBusy : Busy w a p todo r (t.1 :: r.tables.map Prod.fst))
    (hNotIn : t.1 ∉ r.tables.map Prod.fst) (session : String) (rows : List MessageRecord)
    (hDrained : drained = true → r.drained = true)
    (hLeft : ∀ n ∈ r.tables.map Prod.fst, n ∈ left)
    (hTable : ∀ f ∈ w.messageFiles, f.rel = r.rel → drained = true ∨ ¬Pending a.pool f →
      t.1 ∈ left ∨ f.db.Below t.1
        (Keyset.cursorAfter MessageRecord.mark (p.staged a.store ⟨r.rel, t.1⟩) rows)) :
    Busy w a (p.stageAll session ⟨r.rel, t.1⟩ rows) todo { r with drained } left where
  isOpen := hBusy.isOpen
  notTodo := hBusy.notTodo
  nodup := hBusy.nodup
  fresh t' ht' := by
    rw [staged_stageAll_ne]
    · exact hBusy.fresh t' ht'
    · intro hEq
      simp only [WmKey.mk.injEq, true_and] at hEq
      exact hNotIn (hEq ▸ List.mem_map_of_mem ht')
  clean f hf hRel hWhen t' ht' := by
    have hKey : f.wmKey t'.1 = ⟨r.rel, t'.1⟩ := by rw [Source.wmKey, hRel]
    rw [hKey]
    by_cases hEq : t'.1 = t.1
    · rw [hEq, staged_stageAll]
      exact hTable f hf hRel hWhen
    · rw [staged_stageAll_ne _ _ _ _ _ (by simpa using hEq)]
      have hOld := hBusy.clean f hf hRel (hWhen.imp_left hDrained) t' ht'
      rw [hKey, List.mem_cons] at hOld
      rcases hOld with (hHead | hIn) | hBelow
      · exact absurd hHead hEq
      · exact .inl (hLeft _ hIn)
      · exact .inr hBelow

theorem inv_stepPage {x : Codec} {s : State} {io : Io} {p : Poll} {todo : List Work}
    {r : Reading} {t : String × String} {wm : Watermark} {pages : Nat}
    (hPc : s.pc = .pages p todo r t wm pages) (h : Inv s) (hOk : TickOk x s io) :
    Inv (s.stepPage x io p todo r t wm pages) := by
  obtain ⟨hBase, hFlags⟩ := h
  simp only [Flags, hPc] at hFlags
  obtain ⟨hReads, hBusy, hNotIn, hWm⟩ := hFlags
  simp only [TickOk, hPc] at hOk
  unfold State.stepPage
  cases hPage : s.readPageOf x io r t wm with
  | error e =>
    rw [hPage] at hOk
    refine ⟨hBase, fun f hf => ?_⟩
    by_cases hOpened : f.rel ∈ p.opened
    · exact hOk f hf hOpened
    · exact hReads.unopened f hf hOpened
  | ok rows =>
    rw [hPage] at hOk
    have hReads' := hReads.page hBusy.notTodo (tableSession x t.2 s.sync.store) t.1 rows
    simp only
    split
    · -- a page that is not full ends its table
      rename_i hLen
      refine ⟨hBase, hReads', hBusy.page hNotIn _ rows id (fun _ => id) fun f hf hRel _ => ?_⟩
      rw [hWm]
      exact .inr (below_of_page hPage hLen (mem_files_of_messageFiles hf).1 hRel)
    · rename_i hFull
      split
      · -- the page limit: the file is drained no longer
        rename_i hCap
        refine ⟨hBase, hReads', hBusy.page hNotIn _ rows (by simp) (fun _ => id)
          fun f hf hRel hWhen => ?_⟩
        rw [hWm]
        rcases hWhen with hWhen | hWhen
        · cases hWhen
        · exact .inr ((hOk (not_lt.mp hFull) hCap f hf hRel).resolve_left hWhen)
      · refine ⟨hBase, hReads', ?_, hNotIn, ?_⟩
        · exact hBusy.page hNotIn _ rows id (fun n hn => List.mem_cons_of_mem _ hn)
            fun _ _ _ _ => .inl List.mem_cons_self
        · rw [← hWm]
          exact staged_stageAll p _ _ rows s.sync.store

end

/-! ## Applying and bookkeeping -/

section

variable {s : State} {p : Poll} {counts : Nat × Nat} {todo : List Work}

theorem inv_stepApply (hBase : Base s.world s.sync) (h : Reads s.world s.sync p [] none) :
    Inv (s.stepApply p) := by
  unfold State.stepApply
  rw [if_neg (by simp [hBase.running])]
  refine ⟨⟨hBase.running, hBase.conns, hBase.stamped⟩, ⟨h.works, h.worksNodup, fun f hf => ?_,
    fun f hf hDone _ => ?_⟩, h.works⟩
  · rw [watermark_applyTo]
    exact h.rest f hf (by simp)
  · rw [watermark_applyTo]
    exact h.done f hf hDone

/-- Reloading a section leaves the message files alone. -/
theorem Booking.frame {w : World} {a : AccountSync} {pool : LivePool} {store : Store}
    (h : Booking w a p todo) (hConn : ∀ f ∈ w.messageFiles, pool.conn? f.rel = a.pool.conn? f.rel)
    (hMarks : store.watermarks = a.store.watermarks) :
    Booking w { a with pool, store } p todo where
  works := h.works
  nodup := h.nodup
  settled f hf := by
    have hStore : store.watermark = a.store.watermark := by
      funext k
      rw [Store.watermark, hMarks, Store.watermark]
    rw [hStore]
    exact (h.settled f hf).of_conn (hConn f hf)
  done f hf hDone hTodo := by
    obtain ⟨hClean, hOpen⟩ := h.done f hf hDone hTodo
    refine ⟨fun t ht => ?_, LivePool.isOpen_of_conn (hConn f hf) hOpen⟩
    rw [Store.watermark, hMarks]
    exact hClean t ht

theorem inv_stepReload (x : Codec) (io : Io) (hBase : Base s.world s.sync)
    (h : Booking s.world s.sync p p.work) (hTodo : FromFiles s.world todo) :
    Inv (s.stepReload x io p counts todo) := by
  unfold State.stepReload
  split
  · exact ⟨hBase, h⟩
  · rw [if_neg (by simp [hBase.running])]
    exact ⟨hBase, h, hTodo.tail⟩
  · rename_i k todo hKind
    rw [if_neg (by simp [hBase.running])]
    split
    · rename_i key src hKey hSrc
      obtain ⟨hFiles, hRel⟩ := World.source?_some hSrc
      have hAcc := s.sync.pool.getOrOpen_spec src key io.access
      rcases hRes : s.sync.pool.getOrOpen src key io.access with ⟨pool, err⟩
      rw [hRes] at hAcc
      refine ⟨hBase.accessed hAcc hFiles, h.frame (fun f hf => ?_) ?_, hTodo.tail⟩
      · refine hAcc.conn?_ne ?_
        rw [hRel]
        exact rel_ne_of_section hTodo List.mem_cons_self hKind hf
      · split
        · exact (convs_reloadSection x k src.db s.sync.store).2
        · rfl
    · exact ⟨hBase, h, hTodo.tail⟩

/-- The bookkeeping of one file that was read. -/
theorem Booking.book {w : World} {a : AccountSync} {k : Work} {src : Source} (ok : Bool)
    (h : Booking w a p (k :: todo)) (hDone : k.file.rel ∈ p.readDone)
    (hRel : src.rel = k.file.rel) :
    Booking w { a with
      stamps := a.stamps.insert k.file.rel src.stamps
      pool := a.pool.advanceDataVersion src ok } p todo where
  works := h.works.tail
  nodup := (List.nodup_cons.mp h.nodup).2
  settled f hf := by
    rcases a.pool.conn?_advance src ok f.rel with hSame | ⟨hEq, -, -⟩
    · exact (h.settled f hf).of_conn hSame
    · refine .inr (h.done f hf ?_ ?_).1
      · rw [hEq, hRel]
        exact hDone
      · rw [hEq, hRel]
        exact List.mem_cons_self
  done f hf hRead hMem := by
    obtain ⟨hClean, hOpen⟩ := h.done f hf hRead (List.mem_cons_of_mem _ hMem)
    refine ⟨hClean, ?_⟩
    rcases a.pool.conn?_advance src ok f.rel with hSame | ⟨-, -, hNew⟩
    · exact LivePool.isOpen_of_conn hSame hOpen
    · rw [LivePool.isOpen, hNew]
      rfl

theorem Booking.tail {w : World} {a : AccountSync} {k : Work} (h : Booking w a p (k :: todo)) :
    Booking w a p todo where
  works := h.works.tail
  nodup := (List.nodup_cons.mp h.nodup).2
  settled := h.settled
  done f hf hRead hMem := h.done f hf hRead (List.mem_cons_of_mem _ hMem)

theorem inv_stepBook (io : Io) (hBase : Base s.world s.sync)
    (h : Booking s.world s.sync p todo) : Inv (s.stepBook io p counts todo) := by
  unfold State.stepBook
  split
  · exact ⟨⟨hBase.running, hBase.conns, hBase.stamped⟩, h.settled⟩
  · rename_i k todo
    split
    · rename_i hDone
      split
      · rename_i src hSrc
        obtain ⟨hFiles, hRel⟩ := World.source?_some hSrc
        have hBook := h.book io.access.pragmaOk hDone hRel
        have hAdvance := s.sync.pool.conn?_advance src io.access.pragmaOk
        refine ⟨⟨hBase.running, fun f hf v hv => ?_, fun f hf hStamp => ?_⟩, hBook⟩
        · rcases hAdvance f.rel with hSame | ⟨hEq, -, hNew⟩
          · exact hBase.conns f hf v (hSame ▸ hv)
          · obtain rfl := eq_of_rel_eq hf hFiles hEq
            rw [hNew, Option.some.injEq, Option.some.injEq] at hv
            exact hv.ge
        · have hOpen : s.sync.pool.isOpen f.rel = true := by
            by_cases hEq : f.rel = k.file.rel
            · refine (h.done f hf (hEq ▸ hDone) ?_).2
              rw [hEq]
              exact List.mem_cons_self
            · refine hBase.stamped f hf ?_
              rwa [AList.lookup_insert_ne hEq] at hStamp
          rcases hAdvance f.rel with hSame | ⟨-, -, hNew⟩
          · exact LivePool.isOpen_of_conn hSame hOpen
          · rw [LivePool.isOpen, hNew]
            rfl
      · exact ⟨hBase, h.tail⟩
    · exact ⟨hBase, h.tail⟩

end

/-! ## Commits -/

section

variable {w : World} {a : AccountSync} {rel : String} {stamps : DbStamps} {db : Db}

/-- A file after a commit is the file before it, or has the new content and a new version. -/
theorem mem_commit {f : Source} (h : f ∈ (World.commit w rel stamps db).files) :
    (f ∈ w.files ∧ f.rel ≠ rel) ∨
      ∃ g ∈ w.files, g.rel = rel ∧ f = { g with stamps, db, version := g.version + 1 } := by
  obtain ⟨g, hg, rfl⟩ := List.mem_map.mp h
  by_cases hRel : g.rel = rel
  · exact .inr ⟨g, hg, hRel, if_pos hRel⟩
  · rw [if_neg hRel]
    exact .inl ⟨hg, hRel⟩

theorem mem_messageFiles_commit {f : Source}
    (h : f ∈ (World.commit w rel stamps db).messageFiles) :
    (f ∈ w.messageFiles ∧ f.rel ≠ rel) ∨
      ∃ g ∈ w.messageFiles, g.rel = rel ∧
        f = { g with stamps, db, version := g.version + 1 } := by
  obtain ⟨hFiles, hKind⟩ := mem_files_of_messageFiles h
  rcases mem_commit hFiles with ⟨hOld, hRel⟩ | ⟨g, hg, hRel, rfl⟩
  · exact .inl ⟨by simp [World.messageFiles, hOld, hKind], hRel⟩
  · exact .inr ⟨g, by simpa [World.messageFiles, hg] using hKind, hRel, rfl⟩

theorem FromFiles.commit {works : List Work} (h : FromFiles w works) :
    FromFiles (World.commit w rel stamps db) works := by
  intro k hk
  obtain ⟨f, hf, hWork⟩ := h k hk
  refine ⟨_, List.mem_map_of_mem hf, ?_⟩
  split
  · exact hWork
  · exact hWork

theorem Base.commit (h : Base w a) : Base (World.commit w rel stamps db) a where
  running := h.running
  conns f hf v hv := by
    rcases mem_commit hf with ⟨hOld, -⟩ | ⟨g, hg, -, rfl⟩
    · exact h.conns f hOld v hv
    · exact (h.conns g hg v hv).trans (Nat.le_succ _)
  stamped f hf hStamp := by
    rcases mem_messageFiles_commit hf with ⟨hOld, -⟩ | ⟨g, hg, -, rfl⟩
    · exact h.stamped f hOld hStamp
    · exact h.stamped g hg hStamp

/-- A file is pending after a commit to it. -/
theorem pending_commit (h : Base w a) {g : Source} (hg : g ∈ w.files) :
    Pending a.pool { g with stamps, db, version := g.version + 1 } := by
  intro hConn
  exact absurd (h.conns g hg _ hConn) (Nat.not_succ_le_self _)

theorem settled_commit {marks : WmKey → Watermark} {Q : String → Prop} (hBase : Base w a)
    (h : ∀ f ∈ w.messageFiles, Q f.rel → Settled a.pool marks f) :
    ∀ f ∈ (World.commit w rel stamps db).messageFiles, Q f.rel → Settled a.pool marks f := by
  intro f hf hQ
  rcases mem_messageFiles_commit hf with ⟨hOld, -⟩ | ⟨g, hg, -, rfl⟩
  · exact h f hOld hQ
  · exact .inl (pending_commit hBase (mem_files_of_messageFiles hg).1)

/-- A commit to a file that was read, if it leaves nothing above the watermarks. -/
theorem done_commit {marks : WmKey → Watermark} {Q : String → Prop}
    (hOk : ∀ f ∈ w.messageFiles, f.rel = rel → ∀ t ∈ messageTables db, Q rel →
      db.Below t.1 (marks ⟨rel, t.1⟩))
    (h : ∀ f ∈ w.messageFiles, Q f.rel → f.CleanAt marks ∧ a.pool.isOpen f.rel = true) :
    ∀ f ∈ (World.commit w rel stamps db).messageFiles, Q f.rel →
      f.CleanAt marks ∧ a.pool.isOpen f.rel = true := by
  intro f hf hQ
  rcases mem_messageFiles_commit hf with ⟨hOld, -⟩ | ⟨g, hg, rfl, rfl⟩
  · exact h f hOld hQ
  · exact ⟨fun t ht => hOk g hg rfl t ht hQ, (h g hg hQ).2⟩

theorem Reads.commit {p : Poll} {todo : List Work} {busy : Option String} (hBase : Base w a)
    (h : Reads w a p todo busy)
    (hOk : ∀ f ∈ w.messageFiles, f.rel = rel → ∀ t ∈ messageTables db, rel ∈ p.readDone →
      db.Below t.1 (p.staged a.store ⟨rel, t.1⟩)) :
    Reads (World.commit w rel stamps db) a p todo busy where
  works := h.works.commit
  worksNodup := h.worksNodup
  todoWorks := h.todoWorks.commit
  todoNodup := h.todoNodup
  unopened := settled_commit hBase (Q := fun rel => rel ∉ p.opened) h.unopened
  rest := settled_commit hBase (Q := fun rel => busy ≠ some rel) h.rest
  done := done_commit (Q := fun rel => rel ∈ p.readDone) hOk h.done
  doneRest := h.doneRest
  untouched := h.untouched

theorem Busy.commit {p : Poll} {todo : List Work} {r : Reading} {left : List String}
    (hBase : Base w a) (h : Busy w a p todo r left)
    (hOk : ∀ f ∈ w.messageFiles, f.rel = rel → ∀ t ∈ messageTables db,
      rel = r.rel ∧ r.drained = true ∧ t.1 ∉ left →
        db.Below t.1 (p.staged a.store ⟨rel, t.1⟩)) :
    Busy (World.commit w rel stamps db) a p todo r left where
  isOpen := h.isOpen
  notTodo := h.notTodo
  nodup := h.nodup
  fresh := h.fresh
  clean f hf hRel hWhen t ht := by
    rcases mem_messageFiles_commit hf with ⟨hOld, -⟩ | ⟨g, hg, rfl, rfl⟩
    · exact h.clean f hOld hRel hWhen t ht
    · by_cases hLeft : t.1 ∈ left
      · exact .inl hLeft
      · rcases hWhen with hDrained | hNot
        · exact .inr (hOk g hg rfl t ht ⟨hRel, hDrained, hLeft⟩)
        · exact absurd (pending_commit hBase (mem_files_of_messageFiles hg).1) hNot

theorem Booking.commit {p : Poll} {todo : List Work} (hBase : Base w a)
    (h : Booking w a p todo)
    (hOk : ∀ f ∈ w.messageFiles, f.rel = rel → ∀ t ∈ messageTables db,
      rel ∈ p.readDone ∧ rel ∈ rels todo → db.Below t.1 (a.store.watermark ⟨rel, t.1⟩)) :
    Booking (World.commit w rel stamps db) a p todo where
  works := h.works.commit
  nodup := h.nodup
  settled f hf := settled_commit hBase (Q := fun _ => True) (fun f hf _ => h.settled f hf) f hf
    trivial
  done f hf hDone hTodo := done_commit (Q := fun rel => rel ∈ p.readDone ∧ rel ∈ rels todo) hOk
    (fun f hf hQ => h.done f hf hQ.1 hQ.2) f hf ⟨hDone, hTodo⟩

theorem inv_commit {s : State} (h : Inv s) (hOk : CommitOk s rel db) :
    Inv { s with world := World.commit s.world rel stamps db } := by
  obtain ⟨hBase, hFlags⟩ := h
  refine ⟨hBase.commit, ?_⟩
  unfold CommitOk at hOk
  rcases s with ⟨w, a, pc, result⟩
  cases pc with
  | idle =>
    exact fun f hf => settled_commit hBase (Q := fun _ => True) (fun f hf _ => hFlags f hf) f hf
      trivial
  | files p todo => exact Reads.commit hBase hFlags hOk
  | tables p todo r =>
    exact ⟨hFlags.1.commit hBase fun f hf hRel t ht hDone => hOk f hf hRel t ht (.inl hDone),
      hFlags.2.commit hBase fun f hf hRel t ht hOver => hOk f hf hRel t ht (.inr hOver)⟩
  | pages p todo r t wm n =>
    exact ⟨hFlags.1.commit hBase fun f hf hRel t ht hDone => hOk f hf hRel t ht (.inl hDone),
      hFlags.2.1.commit hBase fun f hf hRel t ht hOver => hOk f hf hRel t ht (.inr hOver),
      hFlags.2.2⟩
  | apply p => exact Reads.commit hBase hFlags hOk
  | reload p counts todo =>
    exact ⟨hFlags.1.commit hBase fun f hf hRel t ht hOver => hOk f hf hRel t ht hOver.1,
      hFlags.2.commit⟩
  | book p counts todo => exact Booking.commit hBase hFlags hOk

end

/-! ## Polls -/

section

variable {w : World} {a : AccountSync} {pragmaOk : String → Bool}

theorem fromFiles_classifyChanged : FromFiles w (a.classifyChanged w pragmaOk) := by
  intro k hk
  obtain ⟨f, hf, hWork⟩ := List.mem_filterMap.mp hk
  exact ⟨f, List.mem_of_mem_filter hf, hWork⟩

theorem rels_classifyChanged_nodup : (rels (a.classifyChanged w pragmaOk)).Nodup := by
  have hSub : ∀ fs : List Source,
      (rels (fs.filterMap fun f => Work.ofFile f.toDbFile)).Sublist (fs.map fun f => f.rel) := by
    intro fs
    induction fs with
    | nil => exact .refl _
    | cons f fs ih =>
      rw [List.filterMap_cons]
      cases hWork : Work.ofFile f.toDbFile with
      | none => exact ih.cons f.rel
      | some k =>
        have hRel : k.file.rel = f.rel := by rw [Work.file_ofFile hWork]
        simp only [rels, List.map_cons, hRel]
        exact ih.cons_cons f.rel
  exact (w.rels_nodup.sublist (List.filter_sublist.map _)).sublist (hSub _)

/-- A pending file is classified, of whatever kind it is, and whatever its pragma answers. -/
theorem mem_classifyChanged_of_pending {f : Source} {k : Work}
    (hStamped : a.stamps.lookup f.rel ≠ none → a.pool.isOpen f.rel = true) (hf : f ∈ w.files)
    (hk : Work.ofFile f.toDbFile = some k) (h : Pending a.pool f) :
    k ∈ a.classifyChanged w pragmaOk := by
  refine List.mem_filterMap.mpr ⟨f, List.mem_filter.mpr ⟨hf, ?_⟩, hk⟩
  unfold AccountSync.changed
  by_cases hOpen : a.pool.isOpen f.rel = true
  · rw [if_pos hOpen]
    obtain ⟨baseline, hConn⟩ := Option.isSome_iff_exists.mp hOpen
    have hNe : baseline ≠ some f.version := by
      rintro rfl
      exact h hConn
    unfold LivePool.foreignCommitPending
    rw [hConn]
    simp only
    split <;> simp [hNe]
  · have hNone : a.stamps.lookup f.rel = none := by
      by_contra hStamp
      exact hOpen (hStamped hStamp)
    rw [if_neg hOpen, hNone]
    rfl

theorem mem_classifyChanged {f : Source} (hBase : Base w a) (hf : f ∈ w.messageFiles)
    (h : Pending a.pool f) : .messages f.toDbFile ∈ a.classifyChanged w pragmaOk := by
  obtain ⟨hFiles, hKind⟩ := mem_files_of_messageFiles hf
  exact mem_classifyChanged_of_pending (hBase.stamped f hf) hFiles (Work.ofFile_message hKind) h

theorem inv_poll {s : State} (hPc : s.pc = .idle) (h : Inv s) : Inv (s.poll pragmaOk) := by
  obtain ⟨hBase, hFlags⟩ := h
  simp only [Flags, hPc] at hFlags
  unfold State.poll
  rw [if_neg (by simp [hBase.running])]
  simp only
  split
  · refine ⟨hBase, ?_⟩
    simp only [Flags, hPc]
    exact hFlags
  · exact ⟨hBase, fromFiles_classifyChanged, rels_classifyChanged_nodup,
      fromFiles_classifyChanged, rels_classifyChanged_nodup, fun f hf _ => hFlags f hf,
      fun f hf _ => hFlags f hf, fun f _ hDone => by simp at hDone,
      fun rel hRel => by simp at hRel, fun _ _ _ => rfl⟩

theorem inv_tick {x : Codec} {s t : State} {io : Io} (h : Inv s) (hOk : TickOk x s io)
    (hStep : s.tick x io = some t) : Inv t := by
  have hFlags := h.flags
  unfold State.tick at hStep
  unfold Flags at hFlags
  cases hPc : s.pc with
  | idle => simp [hPc] at hStep
  | files p todo =>
    simp only [hPc, Option.some.injEq] at hStep hFlags
    exact hStep ▸ inv_stepFiles io h.base hFlags
  | tables p todo r =>
    simp only [hPc, Option.some.injEq] at hStep hFlags
    exact hStep ▸ inv_stepTables h.base hFlags.1 hFlags.2
  | pages p todo r t wm n =>
    simp only [hPc, Option.some.injEq] at hStep
    exact hStep ▸ inv_stepPage hPc h hOk
  | apply p =>
    simp only [hPc, Option.some.injEq] at hStep hFlags
    exact hStep ▸ inv_stepApply h.base hFlags
  | reload p counts todo =>
    simp only [hPc, Option.some.injEq] at hStep hFlags
    exact hStep ▸ inv_stepReload x io h.base hFlags.1 hFlags.2
  | book p counts todo =>
    simp only [hPc, Option.some.injEq] at hStep hFlags
    exact hStep ▸ inv_stepBook io h.base hFlags

/-- **One step.** -/
theorem inv_step {x : Codec} {s t : State} {op : Op} (h : Inv s) (hOk : FlagsOk x s op)
    (hStep : step x s op = some t) : Inv t := by
  cases op with
  | commit rel stamps db =>
    obtain rfl := Option.some.inj hStep
    exact inv_commit h hOk
  | setKeys keys =>
    simp only [step] at hStep
    split at hStep
    · rename_i hPc
      obtain rfl := Option.some.inj hStep
      have hFlags := h.flags
      refine ⟨⟨h.base.running, h.base.conns, h.base.stamped⟩, ?_⟩
      simp only [Flags, hPc] at hFlags ⊢
      exact hFlags
    · cases hStep
  | stop => exact hOk.elim
  | poll pragmaOk =>
    simp only [step] at hStep
    split at hStep
    · rename_i hPc
      obtain rfl := Option.some.inj hStep
      exact inv_poll hPc h
    · cases hStep
  | tick io => exact inv_tick h hOk hStep

end

/-! ## The full sync -/

section

variable {x : Codec} {wxid : String} {keys : KeyMap} {w : World} {io : BuildIo} {nowMs : Int}

theorem lookup_seed {pool : LivePool} {fs : List Source} {m : Map DbStamps} {r : String}
    (h : (fs.foldl (fun m f => if pool.isOpen f.rel then m.insert f.rel (seedStamps f) else m)
      m).lookup r ≠ none) : m.lookup r ≠ none ∨ pool.isOpen r = true := by
  induction fs generalizing m with
  | nil => exact .inl h
  | cons f fs ih =>
    rw [List.foldl_cons] at h
    rcases ih h with h | h
    · split at h
      · rename_i hOpen
        by_cases hr : r = f.rel
        · exact .inr (hr ▸ hOpen)
        · rw [AList.lookup_insert_ne hr] at h
          exact .inl h
      · exact .inl h
    · exact .inr h

/-- A full sync that could read every table it scanned. -/
theorem inv_start (hLoads : ∀ k, io.loadFails k = false) :
    Inv (start x wxid keys w io nowMs) := by
  obtain ⟨scanned, hBuilt⟩ : BuiltSome w io (buildAllLive x wxid keys w io {} nowMs) :=
    built_buildAllLive nowMs
  unfold start AccountSync.fullSync
  rcases hRes : buildAllLive x wxid keys w io {} nowMs with ⟨pool, store⟩
  rw [hRes] at hBuilt
  simp only [Bool.false_eq_true, if_false]
  refine ⟨⟨rfl, fun f hf v hv => ?_, fun f _ hStamp => ?_⟩, fun f hf => ?_⟩
  · rcases hBuilt.conns f.rel (some v) hv with hNone | ⟨g, hg, hRel, hEq⟩
    · cases hNone
    · obtain rfl := eq_of_rel_eq hg hf hRel
      exact (Option.some.inj hEq).le
  · rcases lookup_seed hStamp with hEmpty | hOpen
    · exact absurd rfl hEmpty
    · exact hOpen
  · by_cases hOpen : pool.isOpen f.rel = true
    · refine .inr fun t ht c hc r hr => ?_
      exact hBuilt.mark_le f (hBuilt.open_scanned f hf hOpen) t ht (hLoads _) c hc r hr
    · refine .inl fun hConn => hOpen ?_
      change (pool.conn? f.rel).isSome = true
      rw [show pool.conn? f.rel = some (some f.version) from hConn]
      rfl

end

end Weflow.Sync
