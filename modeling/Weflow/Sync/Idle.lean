import Weflow.Sync.SessionKeys
import Weflow.Sync.Walk

/-!
# Polls without work

A poll that finds no file changed does nothing at all. It should find none when no file was
committed since the last poll that returned; but only the message files it read to their end are
recorded as seen, so a section file that changed once is reloaded by every poll from then on, and
so is a file that is left out for want of a key. `idle_poll` says when no poll leaves a file behind,
and `session_reloaded_forever` is the shortest run in which one does.
-/

namespace Weflow.Sync

/-! ## Files changed since the last poll -/

/-- The engine, with the files that were committed since the last successful poll began (or that
the full sync left for a poll), and those since the running one began. -/
structure Watched where
  state : State
  dirty : List String
  late : List String

namespace Watched

/-- What is to be remembered after a step. -/
def after (g : Watched) (t : State) : Op → Watched
  | .commit rel _ _ => ⟨t, rel :: g.dirty, rel :: g.late⟩
  | .poll _ =>
    match t.pc with
    | .idle => ⟨t, [], []⟩
    | _ => ⟨t, g.dirty, []⟩
  | .tick _ =>
    match t.pc, t.result with
    | .idle, .ok _ => ⟨t, g.late, g.late⟩
    | _, _ => ⟨t, g.dirty, g.late⟩
  | _ => ⟨t, g.dirty, g.late⟩

/-- A step, with the files that changed. -/
def step (x : Codec) (g : Watched) (op : Op) : Option Watched :=
  (Sync.step x g.state op).map fun t => g.after t op

/-- After a full sync: the files it could not open, or whose version it could not read, are left for
the first poll. -/
def start (x : Codec) (wxid : String) (keys : KeyMap) (w : World) (io : BuildIo) (nowMs : Int) :
    Watched :=
  let s := Sync.start x wxid keys w io nowMs
  ⟨s, (w.files.filter fun f => s.sync.pool.conn? f.rel ≠ some (some f.version)).map fun f => f.rel,
    []⟩

/-- A file the next poll would look at although it did not change since this one began. -/
def Stale (g : Watched) (f : Source) : Prop := Pending g.state.sync.pool f ∧ f.rel ∉ g.late

/-- The step leaves no stale file behind: a message file has a key, opens, is read to its end and its
version is read; a section file is opened by this poll, and its version is read. -/
def LeavesNone (x : Codec) (g : Watched) : Op → Prop
  | .tick io =>
    match g.state.pc with
    | .files _ (.messages f :: _) => ∀ src ∈ g.state.world.files, src.rel = f.rel → g.Stale src →
        ∃ key, g.state.sync.keys f.rel = some key ∧
          (g.state.sync.pool.getOrOpen src key io.access).2 = none
    | .pages _ _ r t wm n => ∀ src ∈ g.state.world.files, src.rel = r.rel → g.Stale src →
        ∀ rows, g.state.readPageOf x io r t wm = .ok rows → readPage ≤ rows.length →
          n + 1 < readMaxPages
    | .reload _ _ (.messages _ :: _) => True
    | .reload _ _ (w :: _) => ∀ src ∈ g.state.world.files, src.rel = w.file.rel → g.Stale src →
        g.state.sync.pool.isOpen w.file.rel = false ∧ io.access.pragmaOk = true ∧
          ∃ key, g.state.sync.keys w.file.rel = some key ∧
            (g.state.sync.pool.getOrOpen src key io.access).2 = none
    | .book p _ (w :: _) => w.file.rel ∈ p.readDone → ∀ src ∈ g.state.world.files,
        src.rel = w.file.rel → g.Stale src → io.access.pragmaOk = true
    | _ => True
  | _ => True

end Watched

/-- A poll now does nothing, if none of the files it looks at has changed. -/
def IdlePoll (g : Watched) : Prop :=
  g.state.pc = .idle →
    (∀ f ∈ g.state.world.files, (Work.ofFile f.toDbFile).isSome → f.rel ∉ g.dirty) →
      ∀ pragmaOk : String → Bool, (∀ f ∈ g.state.world.files, pragmaOk f.rel = true) →
        g.state.poll pragmaOk = { g.state with result := .ok (0, 0) }

/-! ## What a poll still has before it -/

namespace Work

def isMessages : Work → Bool
  | messages _ => true
  | _ => false

end Work

/-- The running poll will still open or record the file. -/
def Pc.Before : Pc → Work → Prop
  | .idle, _ => False
  | .files p todo, k =>
    k ∈ p.work ∧ (k.isMessages = false ∨ k ∈ todo ∨ k.file.rel ∈ p.readDone)
  | .tables p todo r, k | .pages p todo r _ _ _, k =>
    k ∈ p.work ∧ (k.isMessages = false ∨ k ∈ todo ∨ k.file.rel ∈ p.readDone ∨
      k.file.rel = r.rel ∧ r.drained = true)
  | .apply p, k => k ∈ p.work ∧ (k.isMessages = false ∨ k.file.rel ∈ p.readDone)
  | .reload p _ todo, k =>
    k ∈ p.work ∧ (k.isMessages = false ∧ k ∈ todo ∨ k.file.rel ∈ p.readDone)
  | .book p _ todo, k => k ∈ todo ∧ k.file.rel ∈ p.readDone

/-- No file is stale without the running poll having it before it, and between two polls only the
dirty files are pending. -/
structure Recorded (g : Watched) : Prop where
  dirty : ∀ f ∈ g.state.world.files, (Work.ofFile f.toDbFile).isSome →
    Pending g.state.sync.pool f → f.rel ∈ g.dirty
  late : g.state.pc ≠ .idle → ∀ f ∈ g.state.world.files, ∀ k, Work.ofFile f.toDbFile = some k →
    g.Stale f → g.state.pc.Before k
  stamped : ∀ f ∈ g.state.world.files, g.state.sync.stamps.lookup f.rel ≠ none →
    g.state.sync.pool.isOpen f.rel = true
  opened : ∀ rel ∈ g.state.pc.reads, g.state.sync.pool.isOpen rel = true

/-! ## Classification -/

section

variable {a : AccountSync}

/-- A file that is not pending is left alone, if its version can be read. -/
theorem changed_of_not_pending {f : Source} (h : ¬ Pending a.pool f) : a.changed f true = false := by
  have hConn : a.pool.conn? f.rel = some (some f.version) := not_not.mp h
  have hOpen : a.pool.isOpen f.rel = true := by
    rw [LivePool.isOpen, hConn]
    rfl
  rw [AccountSync.changed, if_pos hOpen, LivePool.foreignCommitPending, hConn]
  simp

end

/-! ## One step -/

/-- What a step of the running poll has to keep. -/
structure Continues (g : Watched) (t : State) : Prop where
  world : t.world = g.state.world
  pool : ∀ f ∈ t.world.files, Pending t.sync.pool f → Pending g.state.sync.pool f
  stamped : ∀ f ∈ t.world.files, t.sync.stamps.lookup f.rel ≠ none →
    t.sync.pool.isOpen f.rel = true
  opened : ∀ rel ∈ t.pc.reads, t.sync.pool.isOpen rel = true
  before : t.pc ≠ .idle → ∀ f ∈ t.world.files, ∀ k, Work.ofFile f.toDbFile = some k →
    Pending t.sync.pool f → f.rel ∉ g.late → t.pc.Before k
  ended : t.pc = .idle → ∀ counts, t.result = .ok counts → ∀ f ∈ t.world.files,
    (Work.ofFile f.toDbFile).isSome → Pending t.sync.pool f → f.rel ∈ g.late

theorem Recorded.tick {g : Watched} {t : State} {io : Io} (h : Recorded g) (hNext : Continues g t) :
    Recorded (g.after t (.tick io)) := by
  have hDirty : ∀ f ∈ t.world.files, (Work.ofFile f.toDbFile).isSome → Pending t.sync.pool f →
      f.rel ∈ g.dirty := fun f hf hLooked hPending =>
    h.dirty f (hNext.world ▸ hf) hLooked (hNext.pool f hf hPending)
  have hLate : t.pc ≠ .idle → ∀ f ∈ t.world.files, ∀ k, Work.ofFile f.toDbFile = some k →
      Pending t.sync.pool f ∧ f.rel ∉ g.late → t.pc.Before k := fun hPc f hf k hk hStale =>
    hNext.before hPc f hf k hk hStale.1 hStale.2
  unfold Watched.after
  dsimp only
  split
  · rename_i hPc hOk
    exact ⟨hNext.ended hPc _ hOk, hLate, hNext.stamped, hNext.opened⟩
  · exact ⟨hDirty, hLate, hNext.stamped, hNext.opened⟩

section

variable {x : Codec} {g : Watched} {io : Io} {p : Poll} {todo : List Work}

/-- A step that changes neither connections nor stamps. -/
theorem continues_of_sync {t : State} (h : Recorded g) (hWorld : t.world = g.state.world)
    (hPool : t.sync.pool = g.state.sync.pool) (hStamps : t.sync.stamps = g.state.sync.stamps)
    (hReads : ∀ rel ∈ t.pc.reads, rel ∈ g.state.pc.reads) (hPc : g.state.pc ≠ .idle)
    (hBefore : t.pc ≠ .idle → ∀ f ∈ g.state.world.files, ∀ k, Work.ofFile f.toDbFile = some k →
      g.Stale f → g.state.pc.Before k → t.pc.Before k)
    (hEnded : t.pc = .idle → ∀ counts, t.result = .ok counts → ∀ f ∈ g.state.world.files, ∀ k,
      Work.ofFile f.toDbFile = some k → g.Stale f → g.state.pc.Before k → False) :
    Continues g t where
  world := hWorld
  pool f _ hPending := by rwa [hPool] at hPending
  stamped f hf hStamp := by
    rw [hStamps] at hStamp
    rw [hPool]
    exact h.stamped f (hWorld ▸ hf) hStamp
  opened rel hRel := by
    rw [hPool]
    exact h.opened rel (hReads rel hRel)
  before hNe f hf k hk hPending hLate := by
    rw [hWorld] at hf
    rw [hPool] at hPending
    exact hBefore hNe f hf k hk ⟨hPending, hLate⟩ (h.late hPc f hf k hk ⟨hPending, hLate⟩)
  ended hEnd counts hOk f hf hLooked hPending := by
    by_contra hLate
    rw [hWorld] at hf
    rw [hPool] at hPending
    obtain ⟨k, hk⟩ := Option.isSome_iff_exists.mp hLooked
    exact hEnded hEnd counts hOk f hf k hk ⟨hPending, hLate⟩
      (h.late hPc f hf k hk ⟨hPending, hLate⟩)

/-- A step that accesses a file. -/
theorem continues_of_accessed {t : State} {src : Source} {err : Option AcquireError} {ok : Bool}
    (h : Recorded g) (hWorld : t.world = g.state.world)
    (hAcc : LivePool.Accessed g.state.sync.pool t.sync.pool src err ok)
    (hStamps : t.sync.stamps = g.state.sync.stamps)
    (hReads : ∀ rel ∈ t.pc.reads, rel ∈ g.state.pc.reads ∨ t.sync.pool.isOpen rel = true)
    (hPc : g.state.pc ≠ .idle) (hNe : t.pc ≠ .idle)
    (hBefore : ∀ f ∈ g.state.world.files, ∀ k, Work.ofFile f.toDbFile = some k → g.Stale f →
      Pending t.sync.pool f → g.state.pc.Before k → t.pc.Before k) : Continues g t where
  world := hWorld
  pool f _ hPending := pending_of_accessed hAcc hPending
  stamped f hf hStamp := by
    rw [hStamps] at hStamp
    exact hAcc.isOpen_mono (h.stamped f (hWorld ▸ hf) hStamp)
  opened rel hRel := (hReads rel hRel).elim (fun hOld => hAcc.isOpen_mono (h.opened rel hOld)) id
  before _ f hf k hk hPending hLate := by
    rw [hWorld] at hf
    have hStale : g.Stale f := ⟨pending_of_accessed hAcc hPending, hLate⟩
    exact hBefore f hf k hk hStale hPending (h.late hPc f hf k hk hStale)
  ended hEnd := absurd hEnd hNe

/-- The next file is left out, and it is not `k`, or no message file. -/
theorem before_skip {w k : Work} (hBefore : (Pc.files p (w :: todo)).Before k)
    (hNot : k = w → w.isMessages = false) : (Pc.files p todo).Before k := by
  obtain ⟨hWork, hSection | hTodo | hDone⟩ := hBefore
  · exact ⟨hWork, .inl hSection⟩
  · rcases List.mem_cons.mp hTodo with rfl | hTodo
    · exact ⟨hWork, .inl (hNot rfl)⟩
    · exact ⟨hWork, .inr (.inl hTodo)⟩
  · exact ⟨hWork, .inr (.inr hDone)⟩

theorem continues_stepFiles (h : Recorded g) (hPc : g.state.pc = .files p todo)
    (hGood : g.LeavesNone x (.tick io)) : Continues g (g.state.stepFiles io p todo) := by
  have hNotIdle : g.state.pc ≠ .idle := by rw [hPc]; exact (by rintro ⟨⟩)
  have hReads : g.state.pc.reads = p.readDone := by rw [hPc]; rfl
  have hKeep : ∀ {w : Work} {rest : List Work}, todo = w :: rest →
      (∀ f ∈ g.state.world.files, Work.ofFile f.toDbFile = some w → g.Stale f →
        w.isMessages = false) →
      ∀ f ∈ g.state.world.files, ∀ k, Work.ofFile f.toDbFile = some k → g.Stale f →
        g.state.pc.Before k → (Pc.files p rest).Before k := by
    rintro w rest rfl hNot f hf k hk hStale hBefore
    rw [hPc] at hBefore
    exact before_skip hBefore fun hEq => hNot f hf (hEq ▸ hk) hStale
  -- a message file that is stale has a key, and opens
  have hOpens : ∀ {m : DbFile} {rest : List Work}, todo = .messages m :: rest →
      ∀ src ∈ g.state.world.files, src.rel = m.rel → g.Stale src →
        ∃ key, g.state.sync.keys m.rel = some key ∧
          (g.state.sync.pool.getOrOpen src key io.access).2 = none := by
    rintro m rest rfl
    simpa only [Watched.LeavesNone, hPc] using hGood
  rcases stepFiles_cases g.state io p todo with ⟨rfl, hStep⟩ | ⟨w, rest, hTodo, hStep, hPassed⟩ |
    ⟨m, rest, key, src, hTodo, hKey, hSrc, hEnd⟩
  · rw [hStep]
    refine continues_of_sync h rfl rfl rfl (fun rel hRel => hReads ▸ hRel) hNotIdle ?_
      (by rintro ⟨⟩)
    intro _ f _ k _ _ hBefore
    rw [hPc] at hBefore
    obtain ⟨hWork, hSection | hTodo | hDone⟩ := hBefore
    · exact ⟨hWork, .inl hSection⟩
    · cases hTodo
    · exact ⟨hWork, .inr hDone⟩
  · rw [hStep]
    refine continues_of_sync h rfl rfl rfl (fun rel hRel => hReads ▸ hRel) hNotIdle
      (fun _ => hKeep hTodo fun f hf hk hStale => ?_) (by rintro ⟨⟩)
    cases w with
    | messages m =>
      have hRel : f.rel = m.rel := (congrArg DbFile.rel (Work.file_ofFile hk)).symm
      obtain ⟨key, hKey, -⟩ := hOpens hTodo f hf hRel hStale
      rcases hPassed m rfl with hNone | hNone
      · rw [hNone] at hKey
        cases hKey
      · rw [← hRel, World.source?_of_mem hf] at hNone
        cases hNone
    | sessions m | sns m | contacts m | groupMeta m => rfl
  · obtain ⟨hMem, hRel⟩ := World.source?_some hSrc
    have hAcc := g.state.sync.pool.getOrOpen_spec src key io.access
    rcases hEnd with ⟨e, pool, hErr, hPool, hStep⟩ | ⟨hOk, hStep⟩
    · rw [hStep]
      have hSame : LivePool.Accessed g.state.sync.pool pool src (some e) io.access.pragmaOk := by
        rw [hErr] at hAcc
        rcases hPool with rfl | rfl
        · exact hAcc
        · exact hAcc
      refine continues_of_accessed h rfl hSame rfl (fun rel hr => .inl (hReads ▸ hr)) hNotIdle
        (by rintro ⟨⟩) fun f hf k hk hStale _ => hKeep hTodo ?_ f hf k hk hStale
      intro f hf hk hStale
      have hEq : f = src :=
        eq_of_rel_eq hf hMem ((congrArg DbFile.rel (Work.file_ofFile hk)).symm.trans hRel.symm)
      subst hEq
      obtain ⟨key', hKey', hOpen⟩ := hOpens hTodo f hf hRel hStale
      rw [hKey] at hKey'
      rw [← Option.some.inj hKey', hErr] at hOpen
      cases hOpen
    · rw [hStep]
      rw [hOk] at hAcc
      refine continues_of_accessed h rfl hAcc rfl (fun rel hr => ?_) hNotIdle (by rintro ⟨⟩)
        fun f hf k hk hStale _ hBefore => ?_
      · rcases List.mem_cons.mp hr with rfl | hr
        · exact .inr (hRel ▸ hAcc.isOpen)
        · exact .inl (hReads ▸ hr)
      · rw [hPc, hTodo] at hBefore
        obtain ⟨hWork, hSection | hMemTodo | hDone⟩ := hBefore
        · exact ⟨hWork, .inl hSection⟩
        · rcases List.mem_cons.mp hMemTodo with rfl | hMemTodo
          · exact ⟨hWork, .inr (.inr (.inr ⟨rfl, rfl⟩))⟩
          · exact ⟨hWork, .inr (.inl hMemTodo)⟩
        · exact ⟨hWork, .inr (.inr (.inl hDone))⟩

theorem continues_stepTables {r : Reading} (h : Recorded g) (hPc : g.state.pc = .tables p todo r) :
    Continues g (g.state.stepTables p todo r) := by
  have hNotIdle : g.state.pc ≠ .idle := by rw [hPc]; exact (by rintro ⟨⟩)
  have hReads : g.state.pc.reads = r.rel :: p.readDone := by rw [hPc]; rfl
  unfold State.stepTables
  split
  · refine continues_of_sync h rfl rfl rfl (fun rel hRel => ?_) hNotIdle
      (fun _ f hf k hk hStale hBefore => ?_) (by rintro ⟨⟩)
    · rw [hReads]
      change rel ∈ (if r.drained then p.readDone ++ [r.rel] else p.readDone) at hRel
      split at hRel
      · exact List.perm_append_singleton _ _ |>.mem_iff.mp hRel
      · exact List.mem_cons_of_mem _ hRel
    · rw [hPc] at hBefore
      obtain ⟨hWork, hSection | hTodo | hDone | ⟨hRel, hDrained⟩⟩ := hBefore
      · exact ⟨hWork, .inl hSection⟩
      · exact ⟨hWork, .inr (.inl hTodo)⟩
      · refine ⟨hWork, .inr (.inr ?_)⟩
        change _ ∈ (if r.drained then p.readDone ++ [r.rel] else p.readDone)
        split
        · exact List.mem_append_left _ hDone
        · exact hDone
      · refine ⟨hWork, .inr (.inr ?_)⟩
        change _ ∈ (if r.drained then p.readDone ++ [r.rel] else p.readDone)
        rw [if_pos hDrained, hRel]
        exact List.mem_append_right _ List.mem_cons_self
  · refine continues_of_sync h rfl rfl rfl (fun rel hRel => ?_) hNotIdle
      (fun _ f hf k hk hStale hBefore => ?_) (by rintro ⟨⟩)
    · rwa [hReads]
    · rwa [hPc] at hBefore

theorem continues_stepPage {r : Reading} {t : String × String} {wm : Watermark} {n : Nat}
    (h : Recorded g) (hPc : g.state.pc = .pages p todo r t wm n)
    (hGood : g.LeavesNone x (.tick io)) :
    Continues g (g.state.stepPage x io p todo r t wm n) := by
  have hNotIdle : g.state.pc ≠ .idle := by rw [hPc]; exact (by rintro ⟨⟩)
  have hReads : g.state.pc.reads = r.rel :: p.readDone := by rw [hPc]; rfl
  simp only [Watched.LeavesNone, hPc] at hGood
  unfold State.stepPage
  cases hPage : g.state.readPageOf x io r t wm with
  | error e =>
    refine continues_of_sync h rfl rfl rfl (fun rel hRel => ?_) hNotIdle (fun hNe => absurd rfl hNe)
      (fun _ counts hOk => by cases hOk)
    cases hRel
  | ok rows =>
    obtain ⟨hWorks, hDone, -⟩ := stageAll_frame p (tableSession x t.2 g.state.sync.store)
      ⟨r.rel, t.1⟩ rows
    change (List.foldl _ p rows).work = _ at hWorks
    change (List.foldl _ p rows).readDone = _ at hDone
    dsimp only
    repeat' split
    · refine continues_of_sync h rfl rfl rfl (fun rel hRel => ?_) hNotIdle
        (fun _ f hf k hk hStale hBefore => ?_) (by rintro ⟨⟩)
      · simp only [Pc.reads, hDone] at hRel
        rwa [hReads]
      · rw [hPc] at hBefore
        simp only [Pc.Before, hWorks, hDone]
        exact hBefore
    · rename_i hFull hCap
      refine continues_of_sync h rfl rfl rfl (fun rel hRel => ?_) hNotIdle
        (fun _ f hf k hk hStale hBefore => ?_) (by rintro ⟨⟩)
      · simp only [Pc.reads, hDone] at hRel
        rwa [hReads]
      · rw [hPc] at hBefore
        simp only [Pc.Before, hWorks, hDone]
        obtain ⟨hWork, hSection | hTodo | hRead | ⟨hRel, hDrained⟩⟩ := hBefore
        · exact ⟨hWork, .inl hSection⟩
        · exact ⟨hWork, .inr (.inl hTodo)⟩
        · exact ⟨hWork, .inr (.inr (.inl hRead))⟩
        · -- the limit is reached in no stale file
          have hSame : f.rel = r.rel := by rw [← hRel, Work.file_ofFile hk]
          exact absurd (hGood f hf hSame hStale rows hPage (not_lt.mp hFull)) (not_lt.mpr hCap)
    · refine continues_of_sync h rfl rfl rfl (fun rel hRel => ?_) hNotIdle
        (fun _ f hf k hk hStale hBefore => ?_) (by rintro ⟨⟩)
      · simp only [Pc.reads, hDone] at hRel
        rwa [hReads]
      · rw [hPc] at hBefore
        simp only [Pc.Before, hWorks, hDone]
        exact hBefore

/-- Phase 2 of a running engine goes on with every item. -/
theorem continues_stepApply (h : Recorded g) (hRunning : g.state.sync.stopped = false)
    (hPc : g.state.pc = .apply p) : Continues g (g.state.stepApply p) := by
  have hNotIdle : g.state.pc ≠ .idle := by rw [hPc]; exact (by rintro ⟨⟩)
  have hReads : g.state.pc.reads = p.readDone := by rw [hPc]; rfl
  rw [State.stepApply, hRunning, if_neg (by simp)]
  refine continues_of_sync h rfl rfl rfl (fun rel hRel => hReads ▸ hRel) hNotIdle
    (fun _ f hf k hk hStale hBefore => ?_) (by rintro ⟨⟩)
  rw [hPc] at hBefore
  obtain ⟨hWork, hSection | hDone⟩ := hBefore
  · exact ⟨hWork, .inl ⟨hSection, hWork⟩⟩
  · exact ⟨hWork, .inr hDone⟩

theorem continues_stepReload {counts : Nat × Nat} (h : Recorded g)
    (hRunning : g.state.sync.stopped = false) (hPc : g.state.pc = .reload p counts todo)
    (hGood : g.LeavesNone x (.tick io)) : Continues g (g.state.stepReload x io p counts todo) := by
  have hNotIdle : g.state.pc ≠ .idle := by rw [hPc]; exact (by rintro ⟨⟩)
  have hReads : g.state.pc.reads = p.readDone := by rw [hPc]; rfl
  -- the rest of the list, for every file but a section at its head
  have hKeep : ∀ {w : Work} {rest : List Work}, todo = w :: rest → ∀ k,
      (k = w → w.isMessages = true) → g.state.pc.Before k → (Pc.reload p counts rest).Before k := by
    rintro w rest rfl k hNot hBefore
    rw [hPc] at hBefore
    obtain ⟨hWork, ⟨hSection, hTodo⟩ | hDone⟩ := hBefore
    · rcases List.mem_cons.mp hTodo with rfl | hTodo
      · rw [hNot rfl] at hSection
        cases hSection
      · exact ⟨hWork, .inl ⟨hSection, hTodo⟩⟩
    · exact ⟨hWork, .inr hDone⟩
  cases todo with
  | nil =>
    refine continues_of_sync h rfl rfl rfl (fun rel hRel => hReads ▸ hRel) hNotIdle
      (fun _ f hf k hk hStale hBefore => ?_) (by rintro ⟨⟩)
    rw [hPc] at hBefore
    obtain ⟨hWork, ⟨-, hTodo⟩ | hDone⟩ := hBefore
    · cases hTodo
    · exact ⟨hWork, hDone⟩
  | cons w rest =>
    cases w with
    | messages m =>
      simp only [State.stepReload, hRunning, Bool.false_eq_true, if_false]
      exact continues_of_sync h rfl rfl rfl (fun rel hRel => hReads ▸ hRel) hNotIdle
        (fun _ f _ k _ _ hBefore => hKeep rfl k (fun _ => rfl) hBefore) (by rintro ⟨⟩)
    | sessions m | sns m | contacts m | groupMeta m =>
      simp only [Watched.LeavesNone, hPc, Work.file] at hGood
      simp only [State.stepReload, hRunning, Bool.false_eq_true, if_false, Work.file]
      have hFile : ∀ f k, Work.ofFile f = some k → k.file.rel = f.rel := fun f k hk =>
        congrArg DbFile.rel (Work.file_ofFile hk)
      split
      · rename_i key src hKey hSrc
        obtain ⟨hMem, hRel⟩ := World.source?_some hSrc
        have hAcc := g.state.sync.pool.getOrOpen_spec src key io.access
        refine continues_of_accessed h rfl hAcc rfl (fun rel hr => .inl (hReads ▸ hr)) hNotIdle
          (by rintro ⟨⟩) fun f hf k hk hStale hPending hBefore => ?_
        refine hKeep rfl k (fun hEq => ?_) hBefore
        -- the file is opened now, so it is pending no longer
        subst hEq
        have hSame : f = src := eq_of_rel_eq hf hMem ((hFile _ _ hk).symm.trans hRel.symm)
        subst hSame
        obtain ⟨hClosed, hPragma, key', hKey', hOpen⟩ := hGood f hf hRel hStale
        rw [hKey] at hKey'
        rw [← Option.some.inj hKey'] at hOpen
        rw [hOpen, hPragma] at hAcc
        exact absurd hPending (not_pending_of_opened hAcc (hRel ▸ hClosed))
      · rename_i hNone
        refine continues_of_sync h rfl rfl rfl (fun rel hRel => hReads ▸ hRel) hNotIdle
          (fun _ f hf k hk hStale hBefore => ?_) (by rintro ⟨⟩)
        refine hKeep rfl k (fun hEq => ?_) hBefore
        subst hEq
        have hRel : f.rel = m.rel := (hFile _ _ hk).symm
        obtain ⟨-, -, key, hKey, -⟩ := hGood f hf hRel hStale
        exact (hNone key f hKey (hRel ▸ World.source?_of_mem hf)).elim

theorem continues_stepBook {counts : Nat × Nat} (h : Recorded g)
    (hPc : g.state.pc = .book p counts todo) (hGood : g.LeavesNone x (.tick io)) :
    Continues g (g.state.stepBook io p counts todo) := by
  have hNotIdle : g.state.pc ≠ .idle := by rw [hPc]; exact (by rintro ⟨⟩)
  have hReads : g.state.pc.reads = p.readDone := by rw [hPc]; rfl
  cases todo with
  | nil =>
    refine continues_of_sync h rfl rfl rfl (fun rel hRel => by cases hRel) hNotIdle
      (fun hNe => absurd rfl hNe) fun _ counts' _ f hf k hk hStale hBefore => ?_
    rw [hPc] at hBefore
    exact List.not_mem_nil hBefore.1
  | cons w rest =>
    simp only [Watched.LeavesNone, hPc] at hGood
    -- the rest of the list, for every file but the one at its head
    have hKeep : ∀ k, (k = w → w.file.rel ∉ p.readDone) → g.state.pc.Before k →
        (Pc.book p counts rest).Before k := by
      rintro k hNot hBefore
      rw [hPc] at hBefore
      obtain ⟨hTodo, hDone⟩ := hBefore
      rcases List.mem_cons.mp hTodo with rfl | hTodo
      · exact absurd hDone (hNot rfl)
      · exact ⟨hTodo, hDone⟩
    unfold State.stepBook
    dsimp only
    split
    · rename_i hDone
      split
      · rename_i src hSrc
        obtain ⟨hMem, hRel⟩ := World.source?_some hSrc
        have hOpen : g.state.sync.pool.isOpen src.rel = true := by
          rw [hRel]
          exact h.opened _ (hReads ▸ hDone)
        have hMono : ∀ f ∈ g.state.world.files,
            Pending (g.state.sync.pool.advanceDataVersion src io.access.pragmaOk) f →
              Pending g.state.sync.pool f :=
          fun f hf => pending_of_advance fun hEq => eq_of_rel_eq hf hMem hEq
        exact {
          world := rfl
          pool := hMono
          stamped := fun f hf hStamp => by
            by_cases hEq : f.rel = w.file.rel
            · rw [hEq, ← hRel]
              exact isOpen_of_advance hOpen
            · rw [AList.lookup_insert_ne hEq] at hStamp
              exact isOpen_of_advance (h.stamped f hf hStamp)
          opened := fun rel hr => isOpen_of_advance (h.opened rel (hReads ▸ hr))
          before := fun _ f hf k hk hPending hLate => by
            have hStale : g.Stale f := ⟨hMono f hf hPending, hLate⟩
            refine hKeep k (fun hEq => ?_) (h.late hNotIdle f hf k hk hStale)
            -- the file is recorded now, so it is pending no longer
            subst hEq
            have hSame : f = src := eq_of_rel_eq hf hMem
              ((congrArg DbFile.rel (Work.file_ofFile hk)).symm.trans hRel.symm)
            subst hSame
            change Pending (g.state.sync.pool.advanceDataVersion f io.access.pragmaOk) f at hPending
            rw [hGood hDone f hf hRel hStale] at hPending
            exact absurd hPending (not_pending_of_advance hOpen)
          ended := by rintro ⟨⟩ }
      · rename_i hNone
        refine continues_of_sync h rfl rfl rfl (fun rel hRel => hReads ▸ hRel) hNotIdle
          (fun _ f hf k hk hStale hBefore => hKeep k (fun hEq => ?_) hBefore) (by rintro ⟨⟩)
        subst hEq
        rw [Work.file_ofFile hk, World.source?_of_mem hf] at hNone
        cases hNone
    · rename_i hDone
      exact continues_of_sync h rfl rfl rfl (fun rel hRel => hReads ▸ hRel) hNotIdle
        (fun _ f _ k _ _ hBefore => hKeep k (fun _ => hDone) hBefore) (by rintro ⟨⟩)

theorem recorded_poll (h : Recorded g) (hRunning : g.state.sync.stopped = false)
    (hPc : g.state.pc = .idle) (pragmaOk : String → Bool) :
    Recorded (g.after (g.state.poll pragmaOk) (.poll pragmaOk)) := by
  have hWork : ∀ f ∈ g.state.world.files, ∀ k, Work.ofFile f.toDbFile = some k →
      Pending g.state.sync.pool f → k ∈ g.state.sync.classifyChanged g.state.world pragmaOk :=
    fun f hf k hk => mem_classifyChanged_of_pending (h.stamped f hf) hf hk
  unfold State.poll
  simp only [hRunning, Bool.false_eq_true, if_false]
  split
  · rename_i hNone
    simp only [Watched.after, hPc]
    refine ⟨fun f hf hLooked hPending => ?_, fun hNe => absurd rfl hNe, h.stamped,
      fun rel hRel => by cases hRel⟩
    obtain ⟨k, hk⟩ := Option.isSome_iff_exists.mp hLooked
    have hMem := hWork f hf k hk hPending
    rw [hNone] at hMem
    cases hMem
  · refine ⟨h.dirty, fun _ f hf k hk hStale => ?_, h.stamped, fun rel hRel => by cases hRel⟩
    have hMem := hWork f hf k hk hStale.1
    exact ⟨hMem, .inr (.inl hMem)⟩

theorem recorded_commit (h : Recorded g) (rel : String) (stamps : DbStamps) (db : Db) :
    Recorded (g.after { g.state with world := World.commit g.state.world rel stamps db }
      (.commit rel stamps db)) := by
  refine ⟨fun f hf hLooked hPending => ?_, fun hPc f hf k hk hStale => ?_, fun f hf hStamp => ?_,
    h.opened⟩
  · rcases mem_commit hf with ⟨hOld, -⟩ | ⟨f', -, hRel, rfl⟩
    · exact List.mem_cons_of_mem _ (h.dirty f hOld hLooked hPending)
    · exact hRel ▸ List.mem_cons_self
  · obtain ⟨hPending, hLate⟩ := hStale
    rcases mem_commit hf with ⟨hOld, -⟩ | ⟨f', -, hRel, rfl⟩
    · exact h.late hPc f hOld k hk ⟨hPending, fun hMem => hLate (List.mem_cons_of_mem _ hMem)⟩
    · exact absurd (hRel ▸ List.mem_cons_self) hLate
  · rcases mem_commit hf with ⟨hOld, -⟩ | ⟨f', hOld, -, rfl⟩
    · exact h.stamped f hOld hStamp
    · exact h.stamped f' hOld hStamp

/-- The engine was deregistered, or the poll has every stale file before it. -/
def Kept (g : Watched) : Prop := g.state.sync.stopped = true ∨ Recorded g

theorem recorded_tick {t : State} (h : Recorded g) (hRunning : g.state.sync.stopped = false)
    (hGood : g.LeavesNone x (.tick io)) (hTick : g.state.tick x io = some t) :
    Recorded (g.after t (.tick io)) := by
  refine h.tick ?_
  unfold State.tick at hTick
  split at hTick
  · cases hTick
  all_goals
    rename_i hPc
    obtain rfl := Option.some.inj hTick
  · exact continues_stepFiles h hPc hGood
  · exact continues_stepTables h hPc
  · exact continues_stepPage h hPc hGood
  · exact continues_stepApply h hRunning hPc
  · exact continues_stepReload h hRunning hPc hGood
  · exact continues_stepBook h hPc hGood

theorem kept_step {g' : Watched} {op : Op} (h : Kept g) (hGood : g.LeavesNone x op)
    (hStep : g.step x op = some g') : Kept g' := by
  obtain ⟨t, hNext, rfl⟩ := Option.map_eq_some_iff.mp hStep
  have hState : (g.after t op).state = t := by
    unfold Watched.after
    repeat' split
    all_goals rfl
  cases op with
  | stop =>
    obtain rfl := Option.some.inj hNext
    exact .inl rfl
  | commit rel stamps db =>
    obtain rfl := Option.some.inj hNext
    exact h.imp_right fun hRecorded => recorded_commit hRecorded rel stamps db
  | setKeys keys =>
    simp only [Sync.step] at hNext
    split at hNext <;> cases hNext
    exact h.imp_right fun hRecorded =>
      ⟨hRecorded.dirty, hRecorded.late, hRecorded.stamped, hRecorded.opened⟩
  | poll pragmaOk =>
    simp only [Sync.step] at hNext
    split at hNext <;> cases hNext
    rename_i hPc
    rcases Bool.eq_false_or_eq_true g.state.sync.stopped with hStop | hRunning
    · refine .inl ?_
      rw [hState, State.poll, if_pos hStop]
      exact hStop
    · rcases h with hStop | hRecorded
      · rw [hRunning] at hStop
        cases hStop
      · exact .inr (recorded_poll hRecorded hRunning hPc pragmaOk)
  | tick io =>
    have hStopped := stopped_tick hNext
    rcases Bool.eq_false_or_eq_true g.state.sync.stopped with hStop | hRunning
    · refine .inl ?_
      rw [hState, hStopped, hStop]
    · rcases h with hStop | hRecorded
      · rw [hRunning] at hStop
        cases hStop
      · exact .inr (recorded_tick hRecorded hRunning hGood hNext)

/-- A poll that has no stale file before it, of an engine with no dirty file, does nothing. -/
theorem idlePoll_of_kept (h : Kept g) : IdlePoll g := by
  intro hPc hClean pragmaOk hPragma
  unfold State.poll
  rcases h with hStop | hRecorded
  · rw [if_pos hStop]
  · have hNone : g.state.sync.classifyChanged g.state.world pragmaOk = [] := by
      refine List.filterMap_eq_nil_iff.mpr fun f hf => ?_
      obtain ⟨hMem, hChanged⟩ := List.mem_filter.mp hf
      rw [hPragma f hMem] at hChanged
      by_contra hWork
      have hLooked : (Work.ofFile f.toDbFile).isSome := Option.isSome_iff_ne_none.mpr hWork
      by_cases hPending : Pending g.state.sync.pool f
      · exact hClean f hMem hLooked (hRecorded.dirty f hMem hLooked hPending)
      · rw [changed_of_not_pending hPending] at hChanged
        cases hChanged
    simp only [hNone, if_true]
    split <;> rfl

end

/-! ## Runs -/

theorem recorded_start (x : Codec) (wxid : String) (keys : KeyMap) (w : World) (io : BuildIo)
    (nowMs : Int) : Recorded (Watched.start x wxid keys w io nowMs) where
  dirty f hf _ hPending := by
    refine List.mem_map.mpr ⟨f, List.mem_filter.mpr ⟨hf, ?_⟩, rfl⟩
    exact decide_eq_true hPending
  late hPc := absurd rfl hPc
  stamped f _ hStamp := by
    rcases lookup_seed hStamp with hEmpty | hOpen
    · exact absurd rfl hEmpty
    · exact hOpen
  opened rel hRel := by cases hRel

/-- In every run whose polls leave no stale file behind, a poll does nothing if no file it looks at
has changed since the last successful one. -/
theorem idle_poll (x : Codec) (wxid : String) (keys : KeyMap) (w : World) (io : BuildIo)
    (nowMs : Int) {g : Watched}
    (hRun : Runs.Run (Watched.step x) (Watched.LeavesNone x)
      (Watched.start x wxid keys w io nowMs) g) : IdlePoll g :=
  idlePoll_of_kept (hRun.invariant (.inr (recorded_start x wxid keys w io nowMs))
    fun _ _ _ => kept_step)

/-! ## A quiet world -/

/-- The next file opens, no page is at the limit, no section is reloaded, and the versions are
read. -/
def Watched.recordsAll (g : Watched) : Op → Bool
  | .tick io =>
    match g.state.pc with
    | .files _ (.messages f :: _) => g.state.world.files.all fun src =>
        ((g.state.sync.keys f.rel).any fun key =>
          (g.state.sync.pool.getOrOpen src key io.access).2 = none)
    | .pages _ _ _ _ _ n => n + 1 < readMaxPages
    | .reload _ _ (.messages _ :: _) => true
    | .reload _ _ (_ :: _) => false
    | .book _ _ (_ :: _) => io.access.pragmaOk
    | _ => true
  | _ => true

theorem leavesNone_of_recordsAll {x : Codec} (g : Watched) (op : Op)
    (h : g.recordsAll op = true) : g.LeavesNone x op := by
  cases op with
  | tick io =>
    unfold Watched.recordsAll at h
    unfold Watched.LeavesNone
    dsimp only at h ⊢
    split at h
    · intro src hSrc _ _
      have hAny := List.all_eq_true.mp h src hSrc
      rw [Option.any_eq_true] at hAny
      obtain ⟨key, hKey, hOk⟩ := hAny
      exact ⟨key, hKey, of_decide_eq_true hOk⟩
    · intro _ _ _ _ _ _ _
      exact of_decide_eq_true h
    · trivial
    · cases h
    · intro _ _ _ _ _
      exact h
    · trivial
  | _ => trivial

def watchedStart : Watched := .start digestOfU "" (fun _ => some "") quietWorld {} 0

/-- A message is committed, and polled. -/
def afterMessage : Watched :=
  (Runs.exec (Watched.step digestOfU) Watched.recordsAll watchedStart
    (messageCommit :: pollOf 10)).getD watchedStart

theorem idle_poll_after_message : afterMessage.state.sync.published.length = 1 ∧
    IdlePoll afterMessage :=
  ⟨by decide, idle_poll digestOfU "" (fun _ => some "") quietWorld {} 0
    (Runs.run_of_exec (messageCommit :: pollOf 10) leavesNone_of_recordsAll rfl)⟩

/-- A session is committed, and polled. -/
def afterSession : Watched :=
  (Runs.exec (Watched.step digestOfU) (fun _ _ => true) watchedStart
    (sessionCommit :: pollOf 7)).getD watchedStart

/-- The session file is reloaded by every poll from then on. -/
theorem session_reloaded_forever : ¬ ∀ g,
    Runs.Run (Watched.step digestOfU) (fun _ _ => True) watchedStart g → IdlePoll g := by
  intro h
  have hExec : Runs.exec (Watched.step digestOfU) (fun _ _ => true) watchedStart
      (sessionCommit :: pollOf 7) = some afterSession := rfl
  have hRun : Runs.Run (Watched.step digestOfU) (fun _ _ => True) watchedStart afterSession :=
    Runs.run_of_exec _ (fun _ _ _ => trivial) hExec
  have hIdle := h afterSession hRun rfl (fun f _ _ => List.not_mem_nil) (fun _ => true)
    fun _ _ => rfl
  have hPc : (afterSession.state.poll fun _ => true).pc = .idle := by
    rw [hIdle]
    rfl
  cases hPc

end Weflow.Sync
