import Mathlib.Dynamics.PeriodicPts.Defs
import Mathlib.Tactic.IntervalCases
import Weflow.Sync.Progress
import Weflow.Sync.Pushes
import Weflow.Sync.Walk

/-!
# Tables that cannot be read

The build skips a table it cannot read. A poll that comes to one ends with its error, and nothing of
it is applied, so a changed file that holds such a table stops every poll. As long as no poll comes
to one (`Serves`), a row that is committed to any other table is stored by the polls that follow
(`appended_row_stored`); `stalled_forever` is two files, of which one stops the other.
-/

namespace Weflow.Sync

/-! ## The row that is followed -/

/-- A row of a table, with the columns of the table. -/
structure Target where
  rel : String
  table : String
  cols : MsgCols
  row : MsgRow

namespace Target

def key (g : Target) : WmKey := ⟨g.rel, g.table⟩

/-- The place of the row in the order of the read. -/
def place (g : Target) : Watermark := g.cols.orderKey g.row

/-- The table is listed, with these columns, and has the row. -/
structure In (g : Target) (db : Db) : Prop where
  listed : g.table ∈ (messageTables db).map Prod.fst
  cols : MsgCols.probe (tableColumns db g.table) = some g.cols
  row : g.row ∈ db.msgRows g.table

/-- A message file of the world has the row. -/
def Stands (g : Target) (w : World) : Prop := ∃ f ∈ w.messageFiles, f.rel = g.rel ∧ g.In f.db

/-- The rows between a watermark and the row. -/
def behind (g : Target) (db : Db) (wm : Watermark) : Nat :=
  ((db.msgRows g.table).filter fun m => wm < g.cols.orderKey m ∧ g.cols.orderKey m ≤ g.place).length

/-- The row is no system message and no withdrawal. -/
def Plain (x : Codec) (g : Target) : Prop :=
  ∀ uids, isRevokeRow (rowToRecord x g.key "" ∅ (g.cols.extract g.row uids)) = false

def StoredIn (g : Target) (s : Store) : Prop :=
  ∃ m ∈ s.records, m.sourceRow = g.cols.sourceRow g.key g.row

def StagedIn (g : Target) (pc : Pc) : Prop :=
  ∃ sr ∈ pc.newRows, sr.2.sourceRow = g.cols.sourceRow g.key g.row

end Target

/-! ## The polls that follow -/

/-- A step, with the number of polls that were begun. -/
def countingStep (x : Codec) (sk : State × Nat) (op : Op) : Option (State × Nat) :=
  (step x sk.1 op).map fun t => (t, match op with
    | .poll _ => sk.2 + 1
    | _ => sk.2)

/-- The table has a time column, without which `read_new` fails. -/
def Source.Readable (f : Source) (table : String) : Prop :=
  ∃ c, f.cols table = some c ∧ c.time.isSome

/-- The row is not cut off: its file opens, every table that is read can be read, and where its own
table reaches the page limit before it, the table has a sequence column and the file is pending.
Later commits to its file leave the rows up to it as they are. -/
def Serves (x : Codec) (g : Target) (sk : State × Nat) : Op → Prop
  | .commit rel _ db => rel = g.rel → ∀ f ∈ sk.1.world.messageFiles, f.rel = rel → g.In db ∧
      ((db.msgRows g.table).filter fun m => g.cols.orderKey m ≤ g.place).Perm
        ((f.db.msgRows g.table).filter fun m => g.cols.orderKey m ≤ g.place)
  | .tick io =>
    match sk.1.pc with
    | .files _ (.messages f :: _) => f.rel = g.rel → ∃ key src, sk.1.sync.keys f.rel = some key ∧
        sk.1.world.source? f.rel = some src ∧ (sk.1.sync.pool.getOrOpen src key io.access).2 = none
    | .pages _ _ r t wm n => io.readFails = false ∧
        (∀ f ∈ sk.1.world.messageFiles, f.rel = r.rel → Source.Readable f t.1) ∧
        (r.rel = g.rel → t.1 = g.table → ¬ g.StagedIn sk.1.pc → ∀ rows,
          sk.1.readPageOf x io r t wm = .ok rows → readPage ≤ rows.length → readMaxPages ≤ n + 1 →
            (∀ m ∈ rows, m.sourceRow ≠ g.cols.sourceRow g.key g.row) → g.cols.seq.isSome ∧
              ∀ f ∈ sk.1.world.messageFiles, f.rel = r.rel → Pending sk.1.sync.pool f)
    | _ => True
  | _ => True

/-! ## Where the row is -/

/-- The running poll will come to the table of the row. -/
def Pc.Coming (g : Target) : Pc → Prop
  | .files _ todo => g.rel ∈ rels todo
  | .tables _ todo r => g.rel ∈ rels todo ∨ g.rel = r.rel ∧ g.table ∈ r.tables.map Prod.fst
  | .pages _ todo r t _ _ =>
    g.rel ∈ rels todo ∨ g.rel = r.rel ∧ (g.table = t.1 ∨ g.table ∈ r.tables.map Prod.fst)
  | _ => False

/-- The pages of the table that were read. -/
def Target.pages (g : Target) : Pc → Nat
  | .pages _ _ r t _ n => if g.rel = r.rel ∧ g.table = t.1 then n else 0
  | _ => 0

/-- The rows that the polls so far have taken off those before the row, if the running one is still
to read its table. -/
def Target.taken (g : Target) (polls : Nat) (pc : Pc) : Nat :=
  if polls = 0 then 0 else (polls - 1) * drainCap + g.pages pc * readPage

/-- The row is above the watermark of its table, and `used` rows of the first `total` before it are
read. Without a sequence column it does not last longer than a poll. -/
structure Target.Left (g : Target) (total : Nat) (s : State) (polls used : Nat) : Prop where
  above : s.marks g.key < g.place
  sequenced : 0 < polls → g.cols.seq.isSome
  few : g.cols.seq.isSome → ∀ f ∈ s.world.messageFiles, f.rel = g.rel →
    g.behind f.db (s.marks g.key) + used ≤ total

/-- What has become of the row, after so many polls. -/
inductive Fate (g : Target) (total : Nat) (s : State) (polls : Nat) : Prop
  | stopped (h : s.sync.stopped = true)
  | stored (h : g.StoredIn s.sync.store)
  | staged (h : g.StagedIn s.pc)
  | coming (h : s.pc.Coming g) (hLeft : g.Left total s (polls - 1) (g.taken polls s.pc))
  | passed (h : ¬ s.pc.Coming g) (hFree : ¬ s.pc.Exposed g.rel g.table)
      (hPending : ∀ f ∈ s.world.messageFiles, f.rel = g.rel → Pending s.sync.pool f)
      (hLeft : g.Left total s polls (polls * drainCap))

section

variable {x : Codec} {g : Target} {total : Nat} {s t : State} {io : Io} {p : Poll}
  {todo : List Work} {r : Reading} {polls : Nat}

/-! ## One page of the table -/

/-- A page that does not hold the row is full, and its last row comes before the row. -/
theorem page_before_target {f : Source} (hIn : g.In f.db) (hTime : g.cols.time.isSome)
    {wm : Watermark} (hAbove : wm < g.place)
    (hNot : g.row ∉ newRows g.cols wm (f.db.msgRows g.table)) :
    readPage ≤ (newRows g.cols wm (f.db.msgRows g.table)).length ∧
      Keyset.cursorAfter g.cols.mark wm (newRows g.cols wm (f.db.msgRows g.table)) < g.place ∧
        (g.cols.seq.isSome → g.behind f.db (Keyset.cursorAfter g.cols.mark wm
          (newRows g.cols wm (f.db.msgRows g.table))) + readPage ≤ g.behind f.db wm) := by
  have hKey : ((f.db.msgRows g.table).map g.cols.orderKey).Nodup :=
    MsgCols.orderKey_nodup (f.db.msgRows_ids_nodup g.table)
  obtain ⟨hFull, hBefore⟩ := Keyset.lt_of_not_mem_page hKey hIn.row hAbove hNot
  have hCursor : Keyset.cursorAfter g.cols.mark wm
      (newRows g.cols wm (f.db.msgRows g.table)) < g.place := by
    rcases List.eq_nil_or_concat (newRows g.cols wm (f.db.msgRows g.table)) with hNil | ⟨q, z, hz⟩
    · rw [hNil, Keyset.cursorAfter_nil]
      exact hAbove
    · have hMemZ : z ∈ newRows g.cols wm (f.db.msgRows g.table) := by
        rw [hz, List.concat_eq_append]
        exact List.mem_append_right _ List.mem_cons_self
      rw [hz, List.concat_eq_append, Keyset.cursorAfter_concat]
      refine (MsgCols.mark_le_orderKey hTime ?_).trans_lt (hBefore z hMemZ)
      exact f.db.msgRows_ids_pos (Keyset.mem_of_mem_page hMemZ).1
  refine ⟨hFull, hCursor, fun hSeq => ?_⟩
  have hMark : g.cols.mark = g.cols.orderKey :=
    funext fun m => (MsgCols.orderKey_eq_mark ⟨hTime, hSeq⟩ m).symm
  rw [hMark] at hCursor ⊢
  exact (Keyset.length_between_cursor hKey hFull hCursor.le).le

/-- Such a page holds no other row that looks like it. -/
theorem sourceRow_ne_of_not_mem {f : Source} (hIn : g.In f.db) {wm : Watermark}
    (hNot : g.row ∉ newRows g.cols wm (f.db.msgRows g.table)) {z : MsgRow}
    (hz : z ∈ newRows g.cols wm (f.db.msgRows g.table)) :
    g.cols.sourceRow g.key z ≠ g.cols.sourceRow g.key g.row := by
  intro hEq
  have hSame : z = g.row := List.inj_on_of_nodup_map (f.db.msgRows_ids_nodup g.table)
    (Keyset.mem_of_mem_page hz).1 hIn.row (congrArg SourceRow.localId hEq)
  exact hNot (hSame ▸ hz)

/-! ## A step that leaves the row where it is -/

theorem Target.Left.congr {used : Nat} (h : g.Left total s polls used) (hWorld : t.world = s.world)
    (hMarks : t.marks g.key = s.marks g.key) : g.Left total t polls used := by
  refine ⟨?_, h.sequenced, ?_⟩
  · rw [hMarks]
    exact h.above
  · rw [hWorld, hMarks]
    exact h.few

/-- The files of the row are pending. -/
def Target.PendingIn (g : Target) (w : World) (pool : LivePool) : Prop :=
  ∀ f ∈ w.messageFiles, f.rel = g.rel → Pending pool f

/-- The step reads nothing of the rows before the row, and the running poll comes to its table after
the step if it did before. -/
structure Keeps (g : Target) (polls : Nat) (s t : State) : Prop where
  stopped : s.sync.stopped = true → t.sync.stopped = true
  stored : g.StoredIn s.sync.store → g.StoredIn t.sync.store
  staged : g.StagedIn s.pc → g.StagedIn t.pc
  world : t.world = s.world
  marks : t.marks g.key = s.marks g.key
  taken : s.pc.Coming g → g.taken polls t.pc = g.taken polls s.pc
  coming : t.pc.Coming g ↔ s.pc.Coming g
  free : ¬ s.pc.Coming g → ¬ s.pc.Exposed g.rel g.table → ¬ t.pc.Exposed g.rel g.table
  pending : ¬ s.pc.Coming g → ¬ s.pc.Exposed g.rel g.table →
    g.PendingIn s.world s.sync.pool → g.PendingIn s.world t.sync.pool

theorem Fate.keep (h : Fate g total s polls) (hKeeps : Keeps g polls s t) :
    Fate g total t polls := by
  cases h with
  | stopped h => exact .stopped (hKeeps.stopped h)
  | stored h => exact .stored (hKeeps.stored h)
  | staged h => exact .staged (hKeeps.staged h)
  | coming h hLeft =>
    refine .coming (hKeeps.coming.mpr h) ?_
    rw [hKeeps.taken h]
    exact hLeft.congr hKeeps.world hKeeps.marks
  | passed h hFree hPending hLeft =>
    refine .passed (mt hKeeps.coming.mp h) (hKeeps.free h hFree) ?_
      (hLeft.congr hKeeps.world hKeeps.marks)
    rw [hKeeps.world]
    exact hKeeps.pending h hFree hPending

/-- An access to another file leaves the file pending. -/
theorem pending_of_other {w : World} {pool pool' : LivePool} {src : Source}
    {err : Option AcquireError} {ok : Bool} (hAcc : LivePool.Accessed pool pool' src err ok)
    (hNe : src.rel ≠ g.rel) (h : g.PendingIn w pool) : g.PendingIn w pool' := by
  intro f hf hRel
  rw [Pending, hAcc.conn?_ne (by rw [hRel]; exact Ne.symm hNe)]
  exact h f hf hRel

/-! ## The files of phase 1 -/

/-- An item that is not the file of the row leaves it among the rest. -/
theorem rel_mem_rest {w : Work} {rest : List Work} (hStands : g.Stands s.world)
    (hWorks : FromFiles s.world (w :: rest)) (hNot : ∀ m, w = .messages m → m.rel ≠ g.rel)
    (h : g.rel ∈ rels (w :: rest)) : g.rel ∈ rels rest := by
  obtain ⟨f₀, hf₀, hRel₀, -⟩ := hStands
  rcases List.mem_cons.mp h with hEq | hMem
  · obtain ⟨f, hf, hWork⟩ := hWorks w List.mem_cons_self
    obtain ⟨hFiles, hKind⟩ := mem_files_of_messageFiles hf₀
    have hSame : f = f₀ := by
      refine eq_of_rel_eq hf hFiles ?_
      rw [hRel₀, show g.rel = w.file.rel from hEq, Work.file_ofFile hWork]
    rw [hSame, Work.ofFile_message hKind] at hWork
    exact absurd hRel₀ (hNot f₀.toDbFile (Option.some.inj hWork).symm)
  · exact hMem

/-- An item is passed over, and it is not the file of the row. -/
theorem keeps_passOver {w : Work} {rest : List Work} {pool : LivePool} (hStands : g.Stands s.world)
    (hWorks : FromFiles s.world (w :: rest)) (hPc : s.pc = .files p (w :: rest))
    (hNot : ∀ m, w = .messages m → m.rel ≠ g.rel)
    (hPending : g.PendingIn s.world s.sync.pool → g.PendingIn s.world pool) :
    Keeps g polls s { s with sync := { s.sync with pool }, pc := .files p rest } where
  stopped := id
  stored := id
  staged := by
    rw [hPc]
    exact id
  world := rfl
  marks := by simp [State.marks, hPc]
  taken _ := by
    rw [hPc]
    rfl
  coming := by
    rw [hPc]
    exact ⟨List.mem_cons_of_mem _, rel_mem_rest hStands hWorks hNot⟩
  free _ hFree := by
    rw [hPc] at hFree
    exact hFree
  pending _ _ := hPending

/-- A file opens, and its tables come next. -/
theorem keeps_open {m : DbFile} {rest : List Work} {src : Source} {opened : List String}
    {pool : LivePool} {err : Option AcquireError} {ok : Bool} (hStands : g.Stands s.world)
    (hWorks : FromFiles s.world (.messages m :: rest)) (hPc : s.pc = .files p (.messages m :: rest))
    (hSrc : s.world.source? m.rel = some src)
    (hAcc : LivePool.Accessed s.sync.pool pool src err ok) :
    Keeps g polls s { s with
      sync := { s.sync with pool }
      pc := .tables { p with opened } rest
        ⟨m.rel, name2idTable src.db, messageTables src.db, true⟩ } where
  stopped := id
  stored := id
  staged := by
    rw [hPc]
    exact id
  world := rfl
  marks := by
    simp only [State.marks, hPc]
    rfl
  taken _ := by
    rw [hPc]
    rfl
  coming := by
    rw [hPc]
    constructor
    · rintro (hMem | ⟨hEq, -⟩)
      · exact List.mem_cons_of_mem _ hMem
      · exact List.mem_cons.mpr (.inl hEq)
    · intro hMem
      by_cases hEq : m.rel = g.rel
      · obtain ⟨f₀, hf₀, hRel₀, hIn⟩ := hStands
        obtain ⟨hFiles, hRel⟩ := World.source?_some hSrc
        obtain rfl : src = f₀ := eq_of_rel_eq hFiles (mem_files_of_messageFiles hf₀).1
          (hRel.trans (hEq.trans hRel₀.symm))
        exact .inr ⟨hEq.symm, hIn.listed⟩
      · refine .inl (rel_mem_rest hStands hWorks ?_ hMem)
        rintro m' hWork
        obtain rfl := Work.messages.inj hWork
        exact hEq
  free hNot hFree := by
    rw [hPc] at hNot hFree
    rintro (hDone | ⟨hEq, -⟩)
    · exact hFree hDone
    · exact hNot (List.mem_cons.mpr (.inl hEq))
  pending hNot _ hOld := by
    rw [hPc] at hNot
    refine pending_of_other hAcc (fun hEq => hNot (List.mem_cons.mpr (.inl ?_))) hOld
    rw [← hEq]
    exact (World.source?_some hSrc).2

theorem fate_stepFiles (hSound : Sound s) (hStands : g.Stands s.world)
    (hPc : s.pc = .files p todo) (hServes : Serves x g (s, polls) (.tick io))
    (h : Fate g total s polls) : Fate g total (s.stepFiles io p todo) polls := by
  have hWalk := hSound.walk
  simp only [Walk, hPc] at hWalk
  have hWorks := hWalk.2.works
  -- the file of the row opens
  have hOpens : ∀ {m : DbFile} {rest : List Work}, todo = .messages m :: rest → m.rel = g.rel →
      ∃ key src, s.sync.keys m.rel = some key ∧ s.world.source? m.rel = some src ∧
        (s.sync.pool.getOrOpen src key io.access).2 = none := by
    rintro m rest rfl hRel
    simp only [Serves, hPc] at hServes
    exact hServes hRel
  rcases stepFiles_cases s io p todo with ⟨rfl, hStep⟩ | ⟨w, rest, rfl, hStep, hPassed⟩ |
    ⟨m, rest, key, src, rfl, hKey, hSrc, hEnd⟩
  · rw [hStep]
    refine h.keep ⟨id, id, ?_, rfl, ?_, fun _ => ?_, ?_, fun _ => ?_, fun _ _ => id⟩
    · rw [hPc]
      exact id
    · simp [State.marks, hPc]
    · rw [hPc]
      rfl
    · rw [hPc]
      exact ⟨False.elim, List.not_mem_nil⟩
    · rw [hPc]
      exact id
  · rw [hStep]
    refine h.keep (keeps_passOver hStands hWorks hPc ?_ id)
    rintro m rfl hRel
    obtain ⟨key, src, hKey, hSrc, -⟩ := hOpens rfl hRel
    rcases hPassed m rfl with hNone | hNone
    · rw [hNone] at hKey
      cases hKey
    · rw [hNone] at hSrc
      cases hSrc
  · have hAcc := s.sync.pool.getOrOpen_spec src key io.access
    rcases hEnd with ⟨e, pool, hErr, hPool, hStep⟩ | ⟨-, hStep⟩
    · rw [hStep]
      have hSame : LivePool.Accessed s.sync.pool pool src (some e) io.access.pragmaOk := by
        rw [hErr] at hAcc
        rcases hPool with rfl | rfl
        · exact hAcc
        · exact hAcc
      have hNe : m.rel ≠ g.rel := by
        intro hEq
        obtain ⟨key', src', hKey', hSrc', hOpen⟩ := hOpens rfl hEq
        rw [hKey] at hKey'
        rw [hSrc] at hSrc'
        rw [← Option.some.inj hKey', ← Option.some.inj hSrc', hErr] at hOpen
        cases hOpen
      refine h.keep (keeps_passOver hStands hWorks hPc ?_ (pending_of_other hSame ?_))
      · rintro m' hEq
        obtain rfl := Work.messages.inj hEq
        exact hNe
      · rw [(World.source?_some hSrc).2]
        exact hNe
    · rw [hStep]
      exact h.keep (keeps_open hStands hWorks hPc hSrc hAcc)

/-! ## The tables of a file -/

/-- A file is through. One that was cut off is not recorded. -/
theorem keeps_fileEnd (hPc : s.pc = .tables p todo r) (hNil : r.tables = []) :
    Keeps g polls s { s with
      pc := .files { p with readDone := if r.drained then p.readDone ++ [r.rel] else p.readDone }
        todo } where
  stopped := id
  stored := id
  staged := by
    rw [hPc]
    exact id
  world := rfl
  marks := by
    simp only [State.marks, hPc]
    rfl
  taken _ := by
    rw [hPc]
    rfl
  coming := by
    rw [hPc]
    refine ⟨.inl, fun h => h.resolve_right ?_⟩
    rintro ⟨-, hTable⟩
    rw [hNil] at hTable
    cases hTable
  free _ hFree hMem := by
    rw [hPc] at hFree
    change g.rel ∈ (if r.drained then p.readDone ++ [r.rel] else p.readDone) at hMem
    split at hMem
    · rename_i hDrained
      rcases List.mem_append.mp hMem with hOld | hNew
      · exact hFree (.inl hOld)
      · refine hFree (.inr ⟨List.mem_singleton.mp hNew, hDrained, ?_⟩)
        rw [hNil]
        exact List.not_mem_nil
    · exact hFree (.inl hMem)
  pending _ _ := id

theorem keeps_nextTable {tb : String × String} {rest : List (String × String)}
    (hPc : s.pc = .tables p todo r) (hTables : r.tables = tb :: rest) :
    Keeps g polls s { s with
      pc := .pages p todo { r with tables := rest } tb (s.sync.store.watermark ⟨r.rel, tb.1⟩)
        0 } where
  stopped := id
  stored := id
  staged := by
    rw [hPc]
    exact id
  world := rfl
  marks := by simp [State.marks, hPc]
  taken _ := by
    rw [hPc]
    simp [Target.taken, Target.pages]
  coming := by
    rw [hPc]
    simp only [Pc.Coming, hTables, List.map_cons, List.mem_cons]
  free _ hFree := by
    rw [hPc] at hFree
    simp only [Pc.Exposed, hTables, List.map_cons] at hFree ⊢
    exact hFree
  pending _ _ := id

theorem fate_stepTables (hPc : s.pc = .tables p todo r)
    (h : Fate g total s polls) : Fate g total (s.stepTables p todo r) polls := by
  unfold State.stepTables
  split
  · rename_i hNil
    exact h.keep (keeps_fileEnd hPc hNil)
  · rename_i tb rest hTables
    exact h.keep (keeps_nextTable hPc hTables)

/-! ## A page of another table -/

section

variable {tb : String × String} {wm : Watermark} {n : Nat} {session : String}
  {rows : List MessageRecord}

/-- What a poll has staged stays staged. -/
theorem stagedIn_stageAll {k : WmKey}
    (h : ∃ sr ∈ p.newRows, sr.2.sourceRow = g.cols.sourceRow g.key g.row) :
    ∃ sr ∈ (p.stageAll session k rows).newRows,
      sr.2.sourceRow = g.cols.sourceRow g.key g.row := by
  obtain ⟨sr, hsr, hEq⟩ := h
  refine ⟨sr, ?_, hEq⟩
  rw [newRows_stageAll]
  exact List.mem_append_left _ hsr

/-- While another table is read, no page of the row's table is. -/
theorem taken_of_other {p' : Poll} {todo' : List Work} {r' : Reading}
    (h : g.key ≠ ⟨r.rel, tb.1⟩) :
    g.taken polls (.pages p todo r tb wm n) = g.taken polls (.tables p' todo' r') := by
  have hNone : g.pages (.pages p todo r tb wm n) = 0 := by
    rw [Target.pages, if_neg]
    rintro ⟨hEq, hName⟩
    exact h (by rw [Target.key, hEq, hName])
  rw [Target.taken, hNone]
  rfl

theorem coming_of_other (h : g.key ≠ ⟨r.rel, tb.1⟩) :
    (g.rel ∈ rels todo ∨ g.rel = r.rel ∧ g.table ∈ r.tables.map Prod.fst) ↔
      g.rel ∈ rels todo ∨
        g.rel = r.rel ∧ (g.table = tb.1 ∨ g.table ∈ r.tables.map Prod.fst) := by
  refine or_congr_right (and_congr_right fun hEq => (or_iff_right fun hName => h ?_).symm)
  rw [Target.key, hEq, hName]

/-- The last page of another table. -/
theorem keeps_tableEnd (drained : Bool) (hPc : s.pc = .pages p todo r tb wm n)
    (hk : g.key ≠ ⟨r.rel, tb.1⟩) (hDrained : drained = true → r.drained = true) :
    Keeps g polls s { s with
      pc := .tables (p.stageAll session ⟨r.rel, tb.1⟩ rows) todo { r with drained } } where
  stopped := id
  stored := id
  staged := by
    rw [hPc]
    exact stagedIn_stageAll
  world := rfl
  marks := by
    simp only [State.marks, hPc]
    exact staged_stageAll_ne p session ⟨r.rel, tb.1⟩ rows s.sync.store hk
  taken _ := by
    rw [hPc]
    exact (taken_of_other hk).symm
  coming := by
    rw [hPc]
    exact coming_of_other hk
  free hNot hFree := by
    rw [hPc] at hNot hFree
    rintro (hMem | ⟨hEq, hDone, hName⟩)
    · rw [(stageAll_frame p session ⟨r.rel, tb.1⟩ rows).2.1] at hMem
      exact hFree (.inl hMem)
    · refine hFree (.inr ⟨hEq, hDrained hDone, fun hMem => ?_⟩)
      rcases List.mem_cons.mp hMem with hMem | hMem
      · exact hNot (.inr ⟨hEq, .inl hMem⟩)
      · exact hName hMem
  pending _ _ := id

/-- A page of another table, with more to come. -/
theorem keeps_nextPage {wm' : Watermark} (hPc : s.pc = .pages p todo r tb wm n)
    (hk : g.key ≠ ⟨r.rel, tb.1⟩) :
    Keeps g polls s { s with
      pc := .pages (p.stageAll session ⟨r.rel, tb.1⟩ rows) todo r tb wm' (n + 1) } where
  stopped := id
  stored := id
  staged := by
    rw [hPc]
    exact stagedIn_stageAll
  world := rfl
  marks := by
    simp only [State.marks, hPc]
    exact staged_stageAll_ne p session ⟨r.rel, tb.1⟩ rows s.sync.store hk
  taken _ := by
    rw [hPc]
    have hTables : ∀ {p' : Poll} {wm : Watermark} {n : Nat},
        g.taken polls (.pages p' todo r tb wm n) = g.taken polls (.tables p todo r) :=
      taken_of_other hk
    exact hTables.trans hTables.symm
  coming := by
    rw [hPc]
    exact Iff.rfl
  free _ hFree := by
    rw [hPc] at hFree
    rintro (hMem | hOwn)
    · rw [(stageAll_frame p session ⟨r.rel, tb.1⟩ rows).2.1] at hMem
      exact hFree (.inl hMem)
    · exact hFree (.inr hOwn)
  pending _ _ := id

/-! ## A page of the row's own table -/

/-- A page takes its rows off those before the row. -/
theorem taken_next {p' : Poll} {wm' : Watermark} (hk : g.key = ⟨r.rel, tb.1⟩) :
    g.taken polls (.pages p' todo r tb wm' (n + 1)) ≤
      g.taken polls (.pages p todo r tb wm n) + readPage := by
  obtain ⟨hRel, hName⟩ := WmKey.mk.inj hk
  have hHere : g.rel = r.rel ∧ g.table = tb.1 := ⟨hRel, hName⟩
  simp only [Target.taken, Target.pages, if_pos hHere]
  split
  · exact Nat.zero_le _
  · rw [Nat.succ_mul]
    omega

/-- The last page before the limit completes what one poll takes. -/
theorem taken_cap (hk : g.key = ⟨r.rel, tb.1⟩) (hCap : readMaxPages ≤ n + 1) :
    polls * drainCap ≤ g.taken polls (.pages p todo r tb wm n) + readPage := by
  obtain ⟨hRel, hName⟩ := WmKey.mk.inj hk
  have hHere : g.rel = r.rel ∧ g.table = tb.1 := ⟨hRel, hName⟩
  have hRows : drainCap ≤ n * readPage + readPage := by
    rw [← Nat.succ_mul]
    exact Nat.mul_le_mul_right _ hCap
  simp only [Target.taken, Target.pages, if_pos hHere]
  split
  · rename_i hZero
    rw [hZero, Nat.zero_mul]
    exact Nat.zero_le _
  · have hPolls : polls * drainCap = (polls - 1) * drainCap + drainCap := by
      rw [← Nat.succ_mul, Nat.succ_eq_add_one, Nat.sub_add_cancel (by omega)]
    omega

/-- The records of a page of a file. -/
def pageRecords (x : Codec) (f : Source) (c : MsgCols) (r : Reading) (table : String)
    (wm : Watermark) : List MessageRecord :=
  (newRows c wm (f.db.msgRows table)).map fun row =>
    rowToRecord x ⟨r.rel, table⟩ "" ∅ (c.extract row (loadUidMap f.db r.name2id))

/-- A table that has a time column can be read. -/
theorem readPageOf_readable {f : Source} {c : MsgCols} (hSrc : s.world.source? r.rel = some f)
    (hReads : io.readFails = false) (hCols : f.cols tb.1 = some c) (hTime : c.time.isSome) :
    s.readPageOf x io r tb wm = .ok (pageRecords x f c r tb.1 wm) := by
  have hProbe : MsgCols.probe (tableColumns f.db tb.1) = some c := hCols
  have hSome : c.time.isNone = false := by simpa [Option.isSome_iff_ne_none] using hTime
  simp [State.readPageOf, hSrc, hReads, readNew, hProbe, hSome, pageRecords]

/-- The row is staged by the page that holds it. -/
theorem stagedIn_page {f : Source} (hPlain : g.Plain x) (hk : g.key = ⟨r.rel, tb.1⟩)
    (hMem : g.row ∈ newRows g.cols wm (f.db.msgRows g.table)) :
    ∃ sr ∈ (p.stageAll session ⟨r.rel, tb.1⟩ (pageRecords x f g.cols r tb.1 wm)).newRows,
      sr.2.sourceRow = g.cols.sourceRow g.key g.row := by
  have hName : g.table = tb.1 := (WmKey.mk.inj hk).2
  refine ⟨(session, rowToRecord x ⟨r.rel, tb.1⟩ "" ∅ (g.cols.extract g.row
    (loadUidMap f.db r.name2id))), ?_, by rw [← hk]; rfl⟩
  rw [newRows_stageAll]
  refine List.mem_append_right _ (List.mem_map_of_mem (List.mem_filter.mpr ⟨?_, ?_⟩))
  · exact List.mem_map_of_mem (hName ▸ hMem)
  · rw [← hk, hPlain]
    rfl

/-- A page of the row's own table that does not hold the row. -/
structure Before (g : Target) (total : Nat) (s : State) (rows : List MessageRecord)
    (wm' : Watermark) (used : Nat) : Prop where
  full : readPage ≤ rows.length
  absent : ∀ m ∈ rows, m.sourceRow ≠ g.cols.sourceRow g.key g.row
  cursor : wm' < g.place
  few : g.cols.seq.isSome → ∀ f ∈ s.world.messageFiles, f.rel = g.rel →
    g.behind f.db wm' + readPage + used ≤ total

/-- It is full, ends before the row, and leaves fewer rows between. -/
theorem before_page {f : Source} {used : Nat} (hf : f ∈ s.world.messageFiles) (hRel : f.rel = g.rel)
    (hIn : g.In f.db) (hTime : g.cols.time.isSome) (hk : g.key = ⟨r.rel, tb.1⟩)
    (hCursor : s.marks g.key = wm) (hLeft : g.Left total s (polls - 1) used)
    (hMem : g.row ∉ newRows g.cols wm (f.db.msgRows g.table)) :
    Before g total s (pageRecords x f g.cols r tb.1 wm)
      (Keyset.cursorAfter MessageRecord.mark wm (pageRecords x f g.cols r tb.1 wm)) used := by
  have hName : g.table = tb.1 := (WmKey.mk.inj hk).2
  have hMapped : Keyset.cursorAfter MessageRecord.mark wm (pageRecords x f g.cols r tb.1 wm) =
      Keyset.cursorAfter g.cols.mark wm (newRows g.cols wm (f.db.msgRows g.table)) := by
    rw [pageRecords, cursorAfter_map, hName]
    rfl
  obtain ⟨hFull, hBefore, hFewer⟩ := page_before_target hIn hTime (hCursor ▸ hLeft.above) hMem
  refine ⟨?_, fun m hm => ?_, hMapped ▸ hBefore, fun hSeq f' hf' hRel' => ?_⟩
  · rw [pageRecords, List.length_map, ← hName]
    exact hFull
  · obtain ⟨z, hz, rfl⟩ := List.mem_map.mp hm
    have hNe := sourceRow_ne_of_not_mem hIn hMem (hName ▸ hz)
    rw [hk] at hNe ⊢
    exact hNe
  · obtain rfl := eq_of_rel_eq (mem_files_of_messageFiles hf').1
      (mem_files_of_messageFiles hf).1 (hRel'.trans hRel.symm)
    have hOld := hLeft.few hSeq f' hf' hRel'
    have hNew := hFewer hSeq
    rw [hCursor] at hOld
    rw [hMapped]
    omega

/-- After a page of its own table the row is staged, or the next page comes, or the limit is
reached and the row is left to the next poll. -/
theorem fate_ownPage {f : Source} (hSound : Sound s) (hf : f ∈ s.world.messageFiles)
    (hRel : f.rel = g.rel) (hIn : g.In f.db) (hTime : g.cols.time.isSome) (hPlain : g.Plain x)
    (hPc : s.pc = .pages p todo r tb wm n) (hServes : Serves x g (s, polls) (.tick io))
    (hk : g.key = ⟨r.rel, tb.1⟩)
    (hPage : s.readPageOf x io r tb wm = .ok (pageRecords x f g.cols r tb.1 wm))
    (h : Fate g total s polls) : Fate g total (s.stepPage x io p todo r tb wm n) polls := by
  obtain ⟨hRelEq, hName⟩ := WmKey.mk.inj hk
  have hWalk := hSound.walk
  simp only [Walk, hPc] at hWalk
  obtain ⟨-, -, hOpened, hTable⟩ := hWalk
  have hCursor : s.marks g.key = wm := by
    simp only [State.marks, hPc, hk]
    exact hTable.cursor
  have hMark : (p.stageAll (tableSession x tb.2 s.sync.store) ⟨r.rel, tb.1⟩
      (pageRecords x f g.cols r tb.1 wm)).staged s.sync.store g.key =
        Keyset.cursorAfter MessageRecord.mark wm (pageRecords x f g.cols r tb.1 wm) := by
    rw [hk, staged_stageAll, hTable.cursor]
  by_cases hStaged : ∃ sr ∈ (p.stageAll (tableSession x tb.2 s.sync.store) ⟨r.rel, tb.1⟩
      (pageRecords x f g.cols r tb.1 wm)).newRows, sr.2.sourceRow = g.cols.sourceRow g.key g.row
  · rcases stepPage_cases p todo n hPage with ⟨-, hStep⟩ | ⟨-, -, hStep⟩ | ⟨-, hStep⟩
    all_goals
      rw [hStep]
      exact .staged hStaged
  cases h with
  | stopped h =>
    rcases stepPage_cases p todo n hPage with ⟨-, hStep⟩ | ⟨-, -, hStep⟩ | ⟨-, hStep⟩
    all_goals
      rw [hStep]
      exact .stopped h
  | stored h =>
    rcases stepPage_cases p todo n hPage with ⟨-, hStep⟩ | ⟨-, -, hStep⟩ | ⟨-, hStep⟩
    all_goals
      rw [hStep]
      exact .stored h
  | staged h =>
    rw [hPc] at h
    exact absurd (stagedIn_stageAll h) hStaged
  | passed h =>
    rw [hPc] at h
    exact absurd (.inr ⟨hRelEq, .inl hName⟩) h
  | coming _ hLeft =>
    have hBefore := before_page (x := x) hf hRel hIn hTime hk hCursor hLeft
      fun hMem => hStaged (stagedIn_page hPlain hk hMem)
    rcases stepPage_cases p todo n hPage with ⟨hShort, -⟩ | ⟨-, hCap, hStep⟩ | ⟨-, hStep⟩
    · exact absurd hBefore.full (not_le.mpr hShort)
    · simp only [Serves, hPc] at hServes
      obtain ⟨hSeq, hPending⟩ := hServes.2.2 hRelEq.symm hName.symm
        (fun hOld => hStaged (stagedIn_stageAll hOld)) _ hPage hBefore.full hCap hBefore.absent
      rw [hStep]
      refine .passed ?_ ?_ (fun f hf hRel => hPending f hf (hRel.trans hRelEq)) ⟨?_,
        fun _ => hSeq, fun _ f' hf' hRel' => ?_⟩
      · rintro (hTodo | ⟨-, hTables⟩)
        · exact hOpened.notTodo (hRelEq ▸ hTodo)
        · exact hTable.notLeft (hName ▸ hTables)
      · rintro (hDone | ⟨-, hDrained, -⟩)
        · rw [(stageAll_frame _ _ _ _).2.1] at hDone
          exact hOpened.notDone (hRelEq ▸ hDone)
        · cases hDrained
      · change Poll.staged _ _ _ < _
        rw [hMark]
        exact hBefore.cursor
      · have hFew := hBefore.few hSeq f' hf' hRel'
        have hTaken : polls * drainCap ≤ g.taken polls (.pages p todo r tb wm n) + readPage :=
          taken_cap hk hCap
        rw [hPc] at hFew
        change g.behind f'.db (Poll.staged _ _ _) + _ ≤ _
        rw [hMark]
        omega
    · rw [hStep]
      refine .coming (.inr ⟨hRelEq, .inl hName⟩) ⟨?_, hLeft.sequenced, fun hSeq f' hf' hRel' => ?_⟩
      · change Poll.staged _ _ _ < _
        rw [hMark]
        exact hBefore.cursor
      · have hFew := hBefore.few hSeq f' hf' hRel'
        have hTaken : ∀ {p' : Poll} {wm' : Watermark}, g.taken polls
            (.pages p' todo r tb wm' (n + 1)) ≤ g.taken polls (.pages p todo r tb wm n) + readPage :=
          taken_next hk
        rw [hPc] at hFew
        change g.behind f'.db (Poll.staged _ _ _) + g.taken polls (.pages _ _ _ _ _ _) ≤ _
        rw [hMark]
        exact (Nat.add_le_add_left hTaken _).trans (by omega)

theorem fate_stepPage (hSound : Sound s) (hStands : g.Stands s.world) (hTime : g.cols.time.isSome)
    (hPlain : g.Plain x) (hPc : s.pc = .pages p todo r tb wm n)
    (hServes : Serves x g (s, polls) (.tick io)) (h : Fate g total s polls) :
    Fate g total (s.stepPage x io p todo r tb wm n) polls := by
  have hWalk := hSound.walk
  simp only [Walk, hPc] at hWalk
  obtain ⟨f, hf, hRel⟩ := hWalk.2.2.1.file
  have hHere := hServes
  simp only [Serves, hPc] at hHere
  obtain ⟨c, hCols, hcTime⟩ := hHere.2.1 f hf hRel
  have hSrc : s.world.source? r.rel = some f := by
    rw [← hRel]
    exact World.source?_of_mem (mem_files_of_messageFiles hf).1
  have hPage : s.readPageOf x io r tb wm = .ok (pageRecords x f c r tb.1 wm) :=
    readPageOf_readable hSrc hHere.1 hCols hcTime
  by_cases hk : g.key = ⟨r.rel, tb.1⟩
  · obtain ⟨hRelEq, hName⟩ := WmKey.mk.inj hk
    obtain ⟨f₀, hf₀, hRel₀, hIn⟩ := hStands
    obtain rfl : f₀ = f := eq_of_rel_eq (mem_files_of_messageFiles hf₀).1
      (mem_files_of_messageFiles hf).1 (hRel₀.trans (hRelEq.trans hRel.symm))
    obtain rfl : c = g.cols := by
      have hOwn : f₀.cols g.table = some g.cols := hIn.cols
      rw [hName, hCols] at hOwn
      exact Option.some.inj hOwn
    exact fate_ownPage hSound hf hRel₀ hIn hTime hPlain hPc hServes hk hPage h
  · rcases stepPage_cases p todo n hPage with ⟨-, hStep⟩ | ⟨-, -, hStep⟩ | ⟨-, hStep⟩
    · rw [hStep]
      exact h.keep (keeps_tableEnd r.drained hPc hk id)
    · rw [hStep]
      exact h.keep (keeps_tableEnd false hPc hk (by rintro ⟨⟩))
    · rw [hStep]
      exact h.keep (keeps_nextPage hPc hk)

end

/-! ## The other phases -/

theorem fate_stepApply (hRunning : s.sync.stopped = false) (hPc : s.pc = .apply p)
    (h : Fate g total s polls) : Fate g total (s.stepApply p) polls := by
  have hMarks : s.marks = p.staged s.sync.store := by simp [State.marks, hPc]
  have hPerm := records_applyTo p s.sync.store
  have hStored : g.cols.sourceRow g.key g.row ∈
      s.sync.store.records.map MessageRecord.sourceRow ++ p.newRows.map (fun sr => sr.2.sourceRow) →
        g.StoredIn (p.applyTo s.sync.store).1 := by
    intro hMem
    obtain ⟨m, hm, hEq⟩ := List.mem_map.mp (hPerm.mem_iff.mpr hMem)
    exact ⟨m, hm, hEq⟩
  rw [State.stepApply, hRunning, if_neg (by simp)]
  cases h with
  | stopped h =>
    rw [hRunning] at h
    cases h
  | stored h =>
    obtain ⟨m, hm, hEq⟩ := h
    exact .stored (hStored (List.mem_append_left _ (hEq ▸ List.mem_map_of_mem hm)))
  | staged h =>
    obtain ⟨sr, hsr, hEq⟩ := h
    rw [hPc] at hsr
    refine .stored (hStored (List.mem_append_right _ ?_))
    exact List.mem_map.mpr ⟨sr, hsr, hEq⟩
  | coming h hLeft =>
    rw [hPc] at h
    cases h
  | passed h hFree hPending hLeft =>
    rw [hPc] at hFree
    refine .passed (fun hNo => hNo) hFree hPending (hLeft.congr rfl ?_)
    change (p.applyTo s.sync.store).1.watermark g.key = _
    rw [watermark_applyTo, hMarks]

/-- After phase 2 a row is stored, or its file is passed over. -/
theorem keeps_after {t : State} (hPc : s.pc.newRows = []) (hNot : ∀ g, ¬ s.pc.Coming g)
    (hStore : t.sync.store.convs = s.sync.store.convs)
    (hStopped : s.sync.stopped = true → t.sync.stopped = true) (hWorld : t.world = s.world)
    (hMarks : t.marks = s.marks) (hNotNew : ¬ t.pc.Coming g)
    (hFree : ¬ s.pc.Exposed g.rel g.table → ¬ t.pc.Exposed g.rel g.table)
    (hPending : ¬ s.pc.Exposed g.rel g.table →
      g.PendingIn s.world s.sync.pool → g.PendingIn s.world t.sync.pool) : Keeps g polls s t where
  stopped := hStopped
  stored h := by
    rw [Target.StoredIn, Store.records, hStore]
    exact h
  staged h := by
    obtain ⟨sr, hsr, -⟩ := h
    rw [hPc] at hsr
    cases hsr
  world := hWorld
  marks := congrFun hMarks g.key
  taken h := absurd h (hNot g)
  coming := iff_of_false hNotNew (hNot g)
  free _ := hFree
  pending _ := hPending

/-- No section is a message file. -/
theorem rel_ne_target {k : Work} {works : List Work} (hStands : g.Stands s.world)
    (hWorks : FromFiles s.world works) (hk : k ∈ works) (hKind : ∀ f, k ≠ .messages f) :
    k.file.rel ≠ g.rel := by
  obtain ⟨f, hf, hRel, -⟩ := hStands
  rw [← hRel]
  exact (rel_ne_of_section hWorks hk hKind hf).symm

theorem fate_stepReload {counts : Nat × Nat} (hSound : Sound s) (hStands : g.Stands s.world)
    (hPc : s.pc = .reload p counts todo) (h : Fate g total s polls) :
    Fate g total (s.stepReload x io p counts todo) polls := by
  have hWalk := hSound.walk
  simp only [Walk, hPc] at hWalk
  have hRows : s.pc.newRows = [] := by rw [hPc]; rfl
  have hNot : ∀ g, ¬ s.pc.Coming g := by
    intro g
    rw [hPc]
    exact fun hNo => hNo
  have hMarks : s.marks = s.sync.store.watermark := by simp [State.marks, hPc]
  have hFree : ¬ s.pc.Exposed g.rel g.table → g.rel ∉ p.readDone := by
    rw [hPc]
    exact fun hNo => hNo
  unfold State.stepReload
  split
  · exact h.keep (keeps_after hRows hNot rfl id rfl (by rw [hMarks]; rfl) (fun hNo => hNo)
      (fun hNo hMem => hFree hNo hMem.1) (fun _ hOld => hOld))
  · split
    · rename_i hStop
      exact .stopped hStop
    · exact h.keep (keeps_after hRows hNot rfl id rfl (by rw [hMarks]; rfl) (fun hNo => hNo) hFree
        (fun _ hOld => hOld))
  · rename_i w rest hSection
    split
    · rename_i hStop
      exact .stopped hStop
    · split
      · rename_i key src hKey hSrc
        have hNe : src.rel ≠ g.rel := by
          rw [(World.source?_some hSrc).2]
          exact rel_ne_target hStands hWalk.2 List.mem_cons_self hSection
        have hAcc := s.sync.pool.getOrOpen_spec src key io.access
        refine h.keep (keeps_after hRows hNot ?_ id rfl ?_ (fun hNo => hNo) hFree
          (fun _ hOld => pending_of_other hAcc hNe hOld))
        · dsimp only
          split
          · exact (convs_reloadSection x w src.db s.sync.store).1
          · rfl
        · rw [hMarks]
          funext k
          change Store.watermark (if _ then _ else _) k = _
          split
          · rw [Store.watermark, (convs_reloadSection x w src.db s.sync.store).2, Store.watermark]
          · rfl
      · exact h.keep (keeps_after hRows hNot rfl id rfl (by rw [hMarks]; rfl) (fun hNo => hNo) hFree
          (fun _ hOld => hOld))

theorem fate_stepBook {counts : Nat × Nat} (hPc : s.pc = .book p counts todo)
    (h : Fate g total s polls) : Fate g total (s.stepBook io p counts todo) polls := by
  have hRows : s.pc.newRows = [] := by rw [hPc]; rfl
  have hNot : ∀ g, ¬ s.pc.Coming g := by
    intro g
    rw [hPc]
    exact fun hNo => hNo
  have hMarks : s.marks = s.sync.store.watermark := by simp [State.marks, hPc]
  unfold State.stepBook
  split
  · exact h.keep (keeps_after hRows hNot rfl id rfl (by rw [hMarks]; rfl) (fun hNo => hNo)
      (fun _ hNo => hNo) (fun _ hOld => hOld))
  · rename_i k rest
    have hFree : ¬ s.pc.Exposed g.rel g.table → ¬ (g.rel ∈ p.readDone ∧ g.rel ∈ rels rest) := by
      rw [hPc]
      exact fun hNo hMem => hNo ⟨hMem.1, List.mem_cons_of_mem _ hMem.2⟩
    split
    · rename_i hDone
      split
      · rename_i src hSrc
        refine h.keep (keeps_after hRows hNot rfl id rfl (by rw [hMarks]; rfl) (fun hNo => hNo) hFree
          (fun hNo hOld f hf hRel hConn => ?_))
        rcases s.sync.pool.conn?_advance src io.access.pragmaOk f.rel with hSame | ⟨hEq, -, -⟩
        · exact hOld f hf hRel (hSame ▸ hConn)
        · rw [hPc] at hNo
          have hHead : k.file.rel = g.rel := by
            rw [← hRel, hEq, (World.source?_some hSrc).2]
          exact hNo ⟨hHead ▸ hDone, hHead ▸ List.mem_cons_self⟩
      · exact h.keep (keeps_after hRows hNot rfl id rfl (by rw [hMarks]; rfl) (fun hNo => hNo) hFree
          (fun _ hOld => hOld))
    · exact h.keep (keeps_after hRows hNot rfl id rfl (by rw [hMarks]; rfl) (fun hNo => hNo) hFree
        (fun _ hOld => hOld))

theorem fate_tick (hSound : Sound s) (hStands : g.Stands s.world) (hTime : g.cols.time.isSome)
    (hPlain : g.Plain x) (hServes : Serves x g (s, polls) (.tick io))
    (hTick : s.tick x io = some t) (h : Fate g total s polls) : Fate g total t polls := by
  rcases Bool.eq_false_or_eq_true s.sync.stopped with hStop | hRunning
  · exact .stopped ((stopped_tick hTick).trans hStop)
  unfold State.tick at hTick
  split at hTick
  · cases hTick
  all_goals
    rename_i hPc
    obtain rfl := Option.some.inj hTick
  · exact fate_stepFiles hSound hStands hPc hServes h
  · exact fate_stepTables hPc h
  · exact fate_stepPage hSound hStands hTime hPlain hPc hServes h
  · exact fate_stepApply hRunning hPc h
  · exact fate_stepReload hSound hStands hPc h
  · exact fate_stepBook hPc h

/-! ## Polls and commits -/

/-- A poll comes to every pending file. -/
theorem fate_poll (hSound : Sound s) (hStands : g.Stands s.world) (hPc : s.pc = .idle)
    (pragmaOk : String → Bool) (h : Fate g total s polls) :
    Fate g total (s.poll pragmaOk) (polls + 1) := by
  rcases Bool.eq_false_or_eq_true s.sync.stopped with hStop | hRunning
  · rw [State.poll, if_pos hStop]
    exact .stopped hStop
  have hMarks : s.marks = s.sync.store.watermark := by simp [State.marks, hPc]
  cases h with
  | stopped h =>
    rw [hRunning] at h
    cases h
  | stored h =>
    refine .stored ?_
    unfold State.poll
    dsimp only
    repeat' split
    all_goals exact h
  | staged h =>
    obtain ⟨sr, hsr, -⟩ := h
    rw [hPc] at hsr
    cases hsr
  | coming h hLeft =>
    rw [hPc] at h
    cases h
  | passed h hFree hPending hLeft =>
    obtain ⟨f, hf, hRel, -⟩ := hStands
    obtain ⟨hFiles, hKind⟩ := mem_files_of_messageFiles hf
    have hWork : Work.messages f.toDbFile ∈ s.sync.classifyChanged s.world pragmaOk :=
      mem_classifyChanged_of_pending (hSound.stamped f hFiles) hFiles
        (Work.ofFile_message hKind) (hPending f hf hRel)
    have hSome : s.sync.classifyChanged s.world pragmaOk ≠ [] := List.ne_nil_of_mem hWork
    unfold State.poll
    simp only [hRunning, Bool.false_eq_true, if_false, if_neg hSome]
    refine .coming ?_ ?_
    · change g.rel ∈ rels _
      rw [← hRel]
      exact List.mem_map_of_mem hWork
    · have hUsed : g.taken (polls + 1) (.files { work := s.sync.classifyChanged s.world pragmaOk }
          (s.sync.classifyChanged s.world pragmaOk)) = polls * drainCap := by
        simp [Target.taken, Target.pages]
      change g.Left total _ polls _
      rw [hUsed]
      exact hLeft.congr rfl (by rw [hMarks]; rfl)

variable {rel : String} {stamps : DbStamps} {db : Db}

/-- The rows before the row, if those up to it are the same. -/
theorem behind_perm {db' : Db} (h : ((db.msgRows g.table).filter fun m =>
      g.cols.orderKey m ≤ g.place).Perm
        ((db'.msgRows g.table).filter fun m => g.cols.orderKey m ≤ g.place)) (wm : Watermark) :
    g.behind db wm = g.behind db' wm := by
  have hSplit : ∀ db : Db, g.behind db wm = (((db.msgRows g.table).filter fun m =>
      g.cols.orderKey m ≤ g.place).filter fun m => wm < g.cols.orderKey m).length := by
    intro db
    rw [Target.behind, List.filter_filter]
    refine congrArg List.length (List.filter_congr fun m _ => ?_)
    simp
  rw [hSplit, hSplit]
  exact (h.filter _).length_eq

/-- A commit makes its file pending. -/
theorem pending_of_commit (hSound : Sound s) {f : Source}
    (hf : f ∈ (World.commit s.world rel stamps db).messageFiles)
    (h : f.rel = rel ∨ ∀ f' ∈ s.world.messageFiles, f'.rel = f.rel → Pending s.sync.pool f') :
    Pending s.sync.pool f := by
  rcases mem_messageFiles_commit hf with ⟨hOld, hNe⟩ | ⟨f', hf', -, rfl⟩
  · exact (h.resolve_left hNe) f hOld rfl
  · intro hConn
    have := hSound.conns f' (mem_files_of_messageFiles hf').1 _ hConn
    exact absurd this (Nat.not_succ_le_self _)

theorem stands_commit (hStands : g.Stands s.world)
    (hServes : Serves x g (s, polls) (.commit rel stamps db)) :
    g.Stands (World.commit s.world rel stamps db) := by
  obtain ⟨f, hf, hRel, hIn⟩ := hStands
  obtain ⟨hFiles, hKind⟩ := mem_files_of_messageFiles hf
  refine ⟨_, List.mem_filter.mpr ⟨List.mem_map_of_mem hFiles, ?_⟩, ?_, ?_⟩
  · split <;> simpa using hKind
  · split <;> exact hRel
  · split
    · rename_i hEq
      exact (hServes (hEq.symm.trans hRel) f hf hEq).1
    · exact hIn

theorem fate_commit (hSound : Sound s) (hServes : Serves x g (s, polls) (.commit rel stamps db))
    (h : Fate g total s polls) :
    Fate g total { s with world := World.commit s.world rel stamps db } polls := by
  have hLeft' : ∀ {k used : Nat}, g.Left total s k used →
      g.Left total { s with world := World.commit s.world rel stamps db } k used := by
    intro k used hLeft
    refine ⟨hLeft.above, hLeft.sequenced, fun hSeq f hf hRel => ?_⟩
    rcases mem_messageFiles_commit hf with ⟨hOld, -⟩ | ⟨f', hf', hEq, rfl⟩
    · exact hLeft.few hSeq f hOld hRel
    · have hSame := (hServes (hEq.symm.trans hRel) f' hf' hEq).2
      have hOld := hLeft.few hSeq f' hf' hRel
      rwa [← behind_perm hSame] at hOld
  cases h with
  | stopped h => exact .stopped h
  | stored h => exact .stored h
  | staged h => exact .staged h
  | coming h hLeft => exact .coming h (hLeft' hLeft)
  | passed h hFree hPending hLeft =>
    refine .passed h hFree (fun f hf hRel => pending_of_commit hSound hf (.inr ?_)) (hLeft' hLeft)
    intro f' hf' hEq
    exact hPending f' hf' (hEq.trans hRel)

/-- What is known of the row along the polls. -/
structure Followed (g : Target) (total : Nat) (sk : State × Nat) : Prop where
  sound : Sound sk.1
  stands : g.Stands sk.1.world
  fate : Fate g total sk.1 sk.2

theorem followed_step {sk tk : State × Nat} {op : Op} (hTime : g.cols.time.isSome)
    (hPlain : g.Plain x) (h : Followed g total sk) (hServes : Serves x g sk op)
    (hStep : countingStep x sk op = some tk) : Followed g total tk := by
  obtain ⟨s, polls⟩ := sk
  obtain ⟨t, hNext, rfl⟩ := Option.map_eq_some_iff.mp hStep
  obtain ⟨hSound, hStands, hFate⟩ := h
  cases op with
  | commit rel stamps db =>
    have hEq : t = { s with world := World.commit s.world rel stamps db } :=
      (Option.some.inj hNext).symm
    refine ⟨sound_step hSound hNext, ?_, ?_⟩
    · rw [hEq]
      exact stands_commit hStands hServes
    · rw [hEq]
      exact fate_commit hSound hServes hFate
  | setKeys keys =>
    refine ⟨sound_step hSound hNext, ?_, ?_⟩
    all_goals
      simp only [step] at hNext
      split at hNext <;> cases hNext
    · exact hStands
    · cases hFate with
      | stopped h => exact .stopped h
      | stored h => exact .stored h
      | staged h => exact .staged h
      | coming h hLeft => exact .coming h (hLeft.congr rfl rfl)
      | passed h hFree hPending hLeft =>
        exact .passed h hFree hPending (hLeft.congr rfl rfl)
  | stop =>
    refine ⟨sound_step hSound hNext, ?_, ?_⟩
    all_goals obtain rfl := Option.some.inj hNext
    · exact hStands
    · exact .stopped rfl
  | poll pragmaOk =>
    refine ⟨sound_step hSound hNext, ?_, ?_⟩
    all_goals
      simp only [step] at hNext
      split at hNext <;> cases hNext
      rename_i hPc
    · change g.Stands (s.poll pragmaOk).world
      rw [State.world_poll]
      exact hStands
    · exact fate_poll hSound hStands hPc pragmaOk hFate
  | tick io =>
    refine ⟨sound_step hSound hNext, ?_, fate_tick hSound hStands hTime hPlain hServes hNext hFate⟩
    change g.Stands t.world
    rw [State.world_tick hNext]
    exact hStands

/-- A row that a commit adds, to a table the running poll is not through with, is before the
polls. -/
theorem followed_commit (hSound : Sound s) (hFile : ∃ f ∈ s.world.messageFiles, f.rel = g.rel)
    (hIn : g.In db) (hAbove : s.marks g.key < g.place)
    (hFree : ¬ s.pc.Exposed g.rel g.table) : Followed g (g.behind db (s.marks g.key))
      ({ s with world := World.commit s.world g.rel stamps db }, 0) := by
  have hDb : ∀ f ∈ (World.commit s.world g.rel stamps db).messageFiles, f.rel = g.rel →
      f.db = db := by
    intro f hf hRel
    rcases mem_messageFiles_commit hf with ⟨-, hNe⟩ | ⟨f', -, -, rfl⟩
    · exact absurd hRel hNe
    · rfl
  have hLeft : g.Left (g.behind db (s.marks g.key))
      { s with world := World.commit s.world g.rel stamps db } 0 0 := by
    refine ⟨hAbove, fun hNo => absurd hNo (Nat.lt_irrefl 0), fun _ f hf hRel => ?_⟩
    rw [hDb f hf hRel]
    exact le_rfl
  refine ⟨sound_commit hSound g.rel stamps db, ?_, ?_⟩
  · obtain ⟨f, hf, hRel⟩ := exists_messageFile_commit hFile
    exact ⟨f, hf, hRel, by rw [hDb f hf hRel]; exact hIn⟩
  · by_cases hComing : s.pc.Coming g
    · exact .coming hComing hLeft
    · refine .passed hComing hFree (fun f hf hRel => pending_of_commit hSound hf (.inl hRel)) ?_
      rw [Nat.zero_mul]
      exact hLeft

end

/-! ## Runs -/

/-- In every run, a row that is committed to a readable table above its watermark, and not after the
running poll has read that table, is stored by the polls that follow, as many as its place needs. -/
theorem appended_row_stored (x : Codec) (wxid : String) (keys : KeyMap) (w : World) (io : BuildIo)
    (nowMs : Int) {s : State}
    (hRun : Runs.Run (step x) (fun _ _ => True) (start x wxid keys w io nowMs) s) (g : Target)
    (stamps : DbStamps) {db : Db} (hFile : ∃ f ∈ s.world.messageFiles, f.rel = g.rel)
    (hIn : g.In db) (hTime : g.cols.time.isSome) (hPlain : g.Plain x)
    (hAbove : s.marks g.key < g.place) (hFree : ¬ s.pc.Exposed g.rel g.table) {t : State}
    {polls : Nat} (hPolls : Runs.Run (countingStep x) (Serves x g)
      ({ s with world := World.commit s.world g.rel stamps db }, 0) (t, polls))
    (hIdle : t.pc = .idle) (hRunning : t.sync.stopped = false) (hSome : 0 < polls)
    (hEnough : g.behind db (s.marks g.key) ≤ polls * drainCap) : g.StoredIn t.sync.store := by
  have hSound : Sound s := hRun.invariant (sound_start x wxid keys w io nowMs)
    fun _ _ _ h _ hStep => sound_step h hStep
  obtain ⟨-, ⟨f, hf, hRel, hIn'⟩, hFate⟩ := hPolls.invariant
    (followed_commit hSound hFile hIn hAbove hFree) fun _ _ _ => followed_step hTime hPlain
  cases hFate with
  | stopped h =>
    rw [hRunning] at h
    cases h
  | stored h => exact h
  | staged h =>
    obtain ⟨sr, hsr, -⟩ := h
    rw [hIdle] at hsr
    cases hsr
  | coming h hLeft =>
    rw [hIdle] at h
    cases h
  | passed h hFree hPending hLeft =>
    have hFew : g.behind f.db (t.marks g.key) + polls * drainCap ≤ g.behind db (s.marks g.key) :=
      hLeft.few (hLeft.sequenced hSome) f hf hRel
    -- the row itself is left
    have hOne : 0 < g.behind f.db (t.marks g.key) := by
      refine List.length_pos_of_mem (List.mem_filter.mpr ⟨hIn'.row, ?_⟩)
      exact decide_eq_true ⟨hLeft.above, le_rfl⟩
    omega

/-! ## Two files -/

/-- The next file opens, its table can be read, and no page is at the limit. -/
def servesNext (sk : State × Nat) : Op → Bool
  | .commit _ _ _ => false
  | .tick io =>
    match sk.1.pc with
    | .files _ (.messages f :: _) => (sk.1.sync.keys f.rel).any fun key =>
        (sk.1.world.source? f.rel).any fun src =>
          (sk.1.sync.pool.getOrOpen src key io.access).2 = none
    | .pages _ _ r t _ n => io.readFails = false ∧ n + 1 < readMaxPages ∧
        (sk.1.world.messageFiles.all fun f => f.rel ≠ r.rel ||
          (f.cols t.1).any fun c => c.time.isSome)
    | _ => true
  | _ => true

theorem serves_of_servesNext {x : Codec} {g : Target} (sk : State × Nat) (op : Op)
    (h : servesNext sk op = true) : Serves x g sk op := by
  cases op with
  | commit rel stamps db => cases h
  | tick io =>
    unfold servesNext at h
    unfold Serves
    dsimp only at h ⊢
    split at h
    · intro _
      rw [Option.any_eq_true] at h
      obtain ⟨key, hKey, h⟩ := h
      rw [Option.any_eq_true] at h
      obtain ⟨src, hSrc, h⟩ := h
      exact ⟨key, src, hKey, hSrc, of_decide_eq_true h⟩
    · obtain ⟨hReads, hLimit, hAll⟩ := of_decide_eq_true h
      refine ⟨hReads, fun f hf hRel => ?_, fun _ _ _ _ _ _ hCap => absurd hLimit (not_lt.mpr hCap)⟩
      have hAny := List.all_eq_true.mp hAll f hf
      rw [Bool.or_eq_true, decide_eq_true_eq, Option.any_eq_true] at hAny
      exact hAny.resolve_left fun hNe => hNe hRel
    · trivial
  | _ => trivial

/-- The first message of `u`. -/
def firstMessage : Target :=
  { rel := "m"
    table := "Msg_7b774effe4a349c6dd82ad4f4f21d34c"
    cols := ⟨"local_id", "server_id", "local_type", "create_time", "sort_seq", none, none, none, none⟩
    row := rowOf 1 1 }

theorem firstMessage_in : firstMessage.In (Db.ofU [rowOf 1 1] oneRow_ids oneRow_pos) :=
  ⟨by decide, rfl, by decide⟩

theorem firstMessage_plain : firstMessage.Plain digestOfU := fun _ => rfl

/-- The poll that follows has stored it. -/
def firstPolled : State × Nat :=
  (Runs.exec (countingStep digestOfU) servesNext (messageCommitted, 0) (pollOf 10)).getD
    (quietStart, 0)

theorem firstPolled_run : Runs.Run (countingStep digestOfU) (Serves digestOfU firstMessage)
    (messageCommitted, 0) firstPolled :=
  Runs.run_of_exec (pollOf 10) serves_of_servesNext rfl

theorem appended_row_stored_first : firstMessage.StoredIn firstPolled.1.sync.store :=
  appended_row_stored digestOfU "" (fun _ => some "") quietWorld {} 0 .refl firstMessage
    ⟨none, none⟩ ⟨_, List.mem_cons_self, rfl⟩ firstMessage_in rfl firstMessage_plain
    (by decide) (fun hNo => hNo) firstPolled_run rfl rfl (by decide) (by decide)

end Sync

theorem noRows_ids : (([] : List MsgRow).map MsgRow.localId).Nodup := List.nodup_nil

theorem noRows_pos : ∀ r ∈ ([] : List MsgRow), 0 < r.localId := fun _ h => absurd h List.not_mem_nil

/-- The message table of `u`, without a time column. -/
def Db.timeless (rows : List MsgRow) (hIds : (rows.map MsgRow.localId).Nodup)
    (hPos : ∀ r ∈ rows, 0 < r.localId) : Db where
  tables := [⟨"Msg_7b774effe4a349c6dd82ad4f4f21d34c", ["local_id", "sort_seq"], .messages rows⟩]
  names_nodup := List.nodup_singleton _
  ids_nodup := by simpa [Table.msgRows] using hIds
  ids_pos := by simpa [Table.msgRows] using hPos
  rowids_nodup := by simp [Table.uidRows]

/-- Two message files with an empty table each; the first one cannot be read. -/
def timelessWorld : World where
  files := [⟨⟨"b", .message⟩, "", ⟨none, none⟩, 0, Db.timeless [] noRows_ids noRows_pos⟩,
    ⟨⟨"m", .message⟩, "", ⟨none, none⟩, 0, Db.ofU [] noRows_ids noRows_pos⟩]
  rels_nodup := by decide

namespace Sync

def timelessStart : State := start digestOfU "" (fun _ => some "") timelessWorld {} 0

/-- Each table gets a row. -/
def bothCommitted : State :=
  (Runs.exec (step digestOfU) (fun _ _ => true) timelessStart
    [.commit "b" ⟨none, none⟩ (Db.timeless [rowOf 1 1] oneRow_ids oneRow_pos),
      messageCommit]).getD timelessStart

/-- Every poll opens the first file, fails at its table, and begins again. -/
theorem polls_repeat :
    Function.IsPeriodicPt (quiet digestOfU) 4 ((quiet digestOfU)^[4] bothCommitted) := rfl

theorem nothing_stored (n : Nat) :
    ((quiet digestOfU)^[n] bothCommitted).sync.store.records = [] := by
  rcases lt_or_ge n 4 with hLess | hMore
  · interval_cases n <;> rfl
  · obtain ⟨m, rfl⟩ := Nat.exists_eq_add_of_le' hMore
    rw [Function.iterate_add_apply, ← polls_repeat.iterate_mod_apply m]
    have hMod : m % 4 < 4 := Nat.mod_lt m (by decide)
    generalize m % 4 = k at hMod
    interval_cases k <;> rfl

/-- The row of the second file is there and a build would load it, but no poll stores it. -/
theorem stalled_forever :
    (firstMessage.Stands bothCommitted.world ∧ firstMessage.cols.time.isSome ∧
      firstMessage.StoredIn (start digestOfU "" (fun _ => some "") bothCommitted.world {}
        0).sync.store) ∧
      ∀ n, ¬ firstMessage.StoredIn ((quiet digestOfU)^[n] bothCommitted).sync.store := by
  refine ⟨⟨⟨_, List.mem_cons_of_mem _ List.mem_cons_self, rfl, firstMessage_in⟩, rfl,
    _, List.mem_cons_of_mem _ List.mem_cons_self, rfl⟩, ?_⟩
  rintro n ⟨m, hm, -⟩
  rw [nothing_stored n] at hm
  cases hm

end Weflow.Sync
