import Weflow.Sync.Flags

/-!
# Where a poll stands

What holds of the connections, and of the place of the running poll, in every run whatsoever: no
connection is ahead of its file, a file with a stamp is open, and the files and tables still to be
read are other ones than those that were (`sound_step`).
-/

namespace Weflow.Sync

/-! ## Connections -/

section

variable {pool pool' : LivePool} {f g : Source} {err : Option AcquireError} {ok : Bool}

/-- An access makes no file pending. -/
theorem pending_of_accessed (hAcc : LivePool.Accessed pool pool' g err ok)
    (h : Pending pool' f) : Pending pool f := by
  intro hConn
  rcases hAcc with ⟨hSame, -⟩ | ⟨hNone, -, hOpened⟩
  · exact h ((hSame f.rel).trans hConn)
  · have hNe : f.rel ≠ g.rel := fun hRel => by
      rw [hRel, hNone] at hConn
      cases hConn
    exact h (by rw [hOpened f.rel, if_neg hNe, hConn])

/-- A file that an access opens is not pending, if its version is read. -/
theorem not_pending_of_opened (hAcc : LivePool.Accessed pool pool' g none true)
    (hClosed : pool.isOpen g.rel = false) : ¬ Pending pool' g := by
  rcases hAcc with ⟨-, hOpen⟩ | ⟨-, -, hOpened⟩
  · rw [hOpen rfl] at hClosed
    cases hClosed
  · exact fun h => h (by rw [hOpened g.rel, if_pos rfl, if_pos rfl])

theorem pending_of_advance (hRel : f.rel = g.rel → f = g)
    (h : Pending (pool.advanceDataVersion g ok) f) : Pending pool f := by
  intro hConn
  rcases pool.conn?_advance g ok f.rel with hSame | ⟨hEq, -, hNew⟩
  · exact h (hSame.trans hConn)
  · obtain rfl := hRel hEq
    exact h hNew

theorem not_pending_of_advance (hOpen : pool.isOpen g.rel = true) :
    ¬ Pending (pool.advanceDataVersion g true) g := by
  intro h
  rw [LivePool.isOpen, LivePool.conn?] at hOpen
  cases hEntry : pool.pool.lookup g.rel with
  | none =>
    rw [hEntry] at hOpen
    cases hOpen
  | some e =>
    rw [hEntry, Option.bind_some] at hOpen
    refine h ?_
    rw [LivePool.advanceDataVersion, hEntry]
    simp only
    rw [if_pos ⟨hOpen, trivial⟩, LivePool.conn?_setEntry, if_pos rfl]

theorem isOpen_of_advance {rel : String} (h : pool.isOpen rel = true) :
    (pool.advanceDataVersion g ok).isOpen rel = true := by
  rcases pool.conn?_advance g ok rel with hSame | ⟨-, -, hNew⟩
  · exact LivePool.isOpen_of_conn hSame h
  · rw [LivePool.isOpen, hNew]
    rfl

end

/-! ## The place of the poll -/

/-- The files that the running poll has read, or is reading. -/
def Pc.reads : Pc → List String
  | .idle => []
  | .files p _ | .apply p | .reload p _ _ | .book p _ _ => p.readDone
  | .tables p _ r | .pages p _ r _ _ _ => r.rel :: p.readDone

/-- Nothing of the files still to be opened is staged. -/
structure Fresh (w : World) (s : Store) (p : Poll) (todo : List Work) : Prop where
  works : FromFiles w todo
  nodup : (rels todo).Nodup
  unread : ∀ rel ∈ rels todo, ∀ table, p.staged s ⟨rel, table⟩ = s.watermark ⟨rel, table⟩
  done : ∀ rel ∈ p.readDone, rel ∉ rels todo

/-- Nothing of the tables of the open file that are still to be read is staged. -/
structure Opened (w : World) (s : Store) (p : Poll) (todo : List Work) (r : Reading) : Prop where
  file : ∃ f ∈ w.messageFiles, f.rel = r.rel
  notTodo : r.rel ∉ rels todo
  notDone : r.rel ∉ p.readDone
  nodup : (r.tables.map Prod.fst).Nodup
  named : ∀ t ∈ r.tables, (msgSuffix t.1).isSome
  unread : ∀ t ∈ r.tables, p.staged s ⟨r.rel, t.1⟩ = s.watermark ⟨r.rel, t.1⟩

/-- The table being read is none of those still to be read, and staged up to the cursor. -/
structure InTable (s : Store) (p : Poll) (r : Reading) (t : String × String) (wm : Watermark) :
    Prop where
  named : (msgSuffix t.1).isSome
  notLeft : t.1 ∉ r.tables.map Prod.fst
  cursor : p.staged s ⟨r.rel, t.1⟩ = wm

/-- What phase 1 has read, and what is left of the other phases. -/
def Walk (w : World) (s : Store) : Pc → Prop
  | .idle => True
  | .files p todo => FromFiles w p.work ∧ Fresh w s p todo
  | .tables p todo r => FromFiles w p.work ∧ Fresh w s p todo ∧ Opened w s p todo r
  | .pages p todo r t wm _ =>
    FromFiles w p.work ∧ Fresh w s p todo ∧ Opened w s p todo r ∧ InTable s p r t wm
  | .apply p => FromFiles w p.work
  | .reload p _ todo => FromFiles w p.work ∧ FromFiles w todo
  | .book _ _ todo => FromFiles w todo

/-- What holds of every state of every run. -/
structure Sound (s : State) : Prop where
  conns : ∀ f ∈ s.world.files, ∀ v, s.sync.pool.conn? f.rel = some (some v) → v ≤ f.version
  stamped : ∀ f ∈ s.world.files, s.sync.stamps.lookup f.rel ≠ none →
    s.sync.pool.isOpen f.rel = true
  opened : ∀ rel ∈ s.pc.reads, s.sync.pool.isOpen rel = true
  walk : Walk s.world s.sync.store s.pc

section

variable {x : Codec} {s : State} {io : Io} {p : Poll} {todo : List Work} {r : Reading}

/-- A step that changes no connection and no stamp. -/
theorem Sound.of_sync {t : State} (h : Sound s) (hWorld : t.world = s.world)
    (hPool : t.sync.pool = s.sync.pool) (hStamps : t.sync.stamps = s.sync.stamps)
    (hReads : ∀ rel ∈ t.pc.reads, rel ∈ s.pc.reads) (hWalk : Walk t.world t.sync.store t.pc) :
    Sound t where
  conns := by
    rw [hWorld, hPool]
    exact h.conns
  stamped := by
    rw [hWorld, hPool, hStamps]
    exact h.stamped
  opened rel hRel := by
    rw [hPool]
    exact h.opened rel (hReads rel hRel)
  walk := hWalk

/-- A step that accesses a file. -/
theorem Sound.of_accessed {t : State} {src : Source} {err : Option AcquireError} {ok : Bool}
    (h : Sound s) (hWorld : t.world = s.world) (hSrc : src ∈ s.world.files)
    (hAcc : LivePool.Accessed s.sync.pool t.sync.pool src err ok)
    (hStamps : t.sync.stamps = s.sync.stamps)
    (hReads : ∀ rel ∈ t.pc.reads, rel ∈ s.pc.reads ∨ t.sync.pool.isOpen rel = true)
    (hWalk : Walk t.world t.sync.store t.pc) : Sound t where
  conns := by
    rw [hWorld]
    exact conns_accessed hAcc hSrc h.conns
  stamped f hf hStamp := by
    rw [hStamps] at hStamp
    exact hAcc.isOpen_mono (h.stamped f (hWorld ▸ hf) hStamp)
  opened rel hRel := (hReads rel hRel).elim (fun hOld => hAcc.isOpen_mono (h.opened rel hOld)) id
  walk := hWalk

theorem Fresh.tail {w : World} {st : Store} {k : Work} (h : Fresh w st p (k :: todo)) :
    Fresh w st p todo where
  works := h.works.tail
  nodup := (List.nodup_cons.mp h.nodup).2
  unread rel hRel := h.unread rel (List.mem_cons_of_mem _ hRel)
  done rel hRel hMem := h.done rel hRel (List.mem_cons_of_mem _ hMem)

theorem messageTables_named {db : Db} {t : String × String} (h : t ∈ messageTables db) :
    (msgSuffix t.1).isSome := by
  obtain ⟨n, -, hSuffix⟩ := List.mem_filterMap.mp h
  cases hn : msgSuffix n with
  | none =>
    rw [hn] at hSuffix
    cases hSuffix
  | some suffix =>
    rw [hn] at hSuffix
    obtain rfl := Option.some.inj hSuffix
    rw [hn]
    rfl

theorem sound_stepFiles (h : Sound s) (hPc : s.pc = .files p todo) :
    Sound (s.stepFiles io p todo) := by
  have hWalk := h.walk
  simp only [Walk, hPc] at hWalk
  obtain ⟨hWorks, hFresh⟩ := hWalk
  have hReads : s.pc.reads = p.readDone := by rw [hPc]; rfl
  rcases stepFiles_cases s io p todo with ⟨rfl, hStep⟩ | ⟨w, rest, rfl, hStep, -⟩ |
    ⟨m, rest, key, src, rfl, -, hSrc, hEnd⟩
  · rw [hStep]
    exact h.of_sync rfl rfl rfl (fun rel hRel => hReads ▸ hRel) hWorks
  · rw [hStep]
    exact h.of_sync rfl rfl rfl (fun rel hRel => hReads ▸ hRel) ⟨hWorks, hFresh.tail⟩
  · obtain ⟨hMem, hRel⟩ := World.source?_some hSrc
    have hAcc := s.sync.pool.getOrOpen_spec src key io.access
    rcases hEnd with ⟨e, pool, hErr, hPool, hStep⟩ | ⟨hOk, hStep⟩
    · rw [hStep]
      have hSame : LivePool.Accessed s.sync.pool pool src (some e) io.access.pragmaOk := by
        rw [hErr] at hAcc
        rcases hPool with rfl | rfl
        · exact hAcc
        · exact hAcc
      exact h.of_accessed rfl hMem hSame rfl (fun rel hr => .inl (hReads ▸ hr))
        ⟨hWorks, hFresh.tail⟩
    · rw [hStep]
      rw [hOk] at hAcc
      obtain ⟨g, hg, hEq⟩ := messageFile_of_work hFresh.works List.mem_cons_self
      obtain rfl : g = src := by
        refine eq_of_rel_eq (mem_files_of_messageFiles hg).1 hMem ?_
        rw [hRel, ← hEq]
      refine h.of_accessed rfl hMem hAcc rfl (fun rel hr => ?_) ⟨hWorks,
        ⟨hFresh.tail.works, hFresh.tail.nodup, hFresh.tail.unread, hFresh.tail.done⟩, ⟨g, hg, hRel⟩,
        (List.nodup_cons.mp hFresh.nodup).1, fun hDone => hFresh.done _ hDone List.mem_cons_self,
        messageTables_names_nodup g.db, fun t ht => messageTables_named ht, fun t _ => ?_⟩
      · rcases List.mem_cons.mp hr with rfl | hr
        · exact .inr (hRel ▸ hAcc.isOpen)
        · exact .inl (hReads ▸ hr)
      · exact hFresh.unread m.rel List.mem_cons_self t.1

theorem sound_stepTables (h : Sound s) (hPc : s.pc = .tables p todo r) :
    Sound (s.stepTables p todo r) := by
  have hWalk := h.walk
  simp only [Walk, hPc] at hWalk
  obtain ⟨hWorks, hFresh, hOpened⟩ := hWalk
  have hReads : s.pc.reads = r.rel :: p.readDone := by rw [hPc]; rfl
  -- the file that was read joins the others, if it was drained
  have hDone : ∀ rel ∈ (if r.drained then p.readDone ++ [r.rel] else p.readDone),
      rel = r.rel ∨ rel ∈ p.readDone := by
    intro rel hRel
    split at hRel
    · exact (List.mem_append.mp hRel).symm.imp_left List.mem_singleton.mp
    · exact .inr hRel
  unfold State.stepTables
  split
  · refine h.of_sync rfl rfl rfl (fun rel hRel => ?_) ⟨hWorks, hFresh.works, hFresh.nodup,
      hFresh.unread, fun rel hRel => ?_⟩
    · rw [hReads]
      exact List.mem_cons.mpr (hDone rel hRel)
    · rcases hDone rel hRel with rfl | hOld
      · exact hOpened.notTodo
      · exact hFresh.done rel hOld
  · rename_i t rest hTables
    have hNodup := hOpened.nodup
    rw [hTables, List.map_cons, List.nodup_cons] at hNodup
    have hRest : ∀ t' ∈ rest, t' ∈ r.tables := fun t' ht => hTables ▸ List.mem_cons_of_mem _ ht
    have hHead : t ∈ r.tables := hTables ▸ List.mem_cons_self
    refine h.of_sync rfl rfl rfl (fun rel hRel => hReads ▸ hRel) ⟨hWorks, hFresh,
      ⟨hOpened.file, hOpened.notTodo, hOpened.notDone, hNodup.2,
        fun t' ht => hOpened.named t' (hRest t' ht), fun t' ht => hOpened.unread t' (hRest t' ht)⟩,
      hOpened.named t hHead, hNodup.1, hOpened.unread t hHead⟩

theorem sound_stepPage {t : String × String} {wm : Watermark} {n : Nat} (h : Sound s)
    (hPc : s.pc = .pages p todo r t wm n) : Sound (s.stepPage x io p todo r t wm n) := by
  have hWalk := h.walk
  simp only [Walk, hPc] at hWalk
  obtain ⟨hWorks, hFresh, hOpened, hTable⟩ := hWalk
  have hReads : s.pc.reads = r.rel :: p.readDone := by rw [hPc]; rfl
  unfold State.stepPage
  cases hPage : s.readPageOf x io r t wm with
  | error e => exact h.of_sync rfl rfl rfl (fun rel hRel => by cases hRel) trivial
  | ok rows =>
    let p' := p.stageAll (tableSession x t.2 s.sync.store) ⟨r.rel, t.1⟩ rows
    obtain ⟨hWork, hDone, -⟩ := stageAll_frame p (tableSession x t.2 s.sync.store) ⟨r.rel, t.1⟩ rows
    have hOther : ∀ k : WmKey, k ≠ ⟨r.rel, t.1⟩ →
        p'.staged s.sync.store k = p.staged s.sync.store k :=
      fun k hk => staged_stageAll_ne p _ ⟨r.rel, t.1⟩ rows s.sync.store hk
    have hWorks' : FromFiles s.world p'.work := hWork ▸ hWorks
    have hFresh' : Fresh s.world s.sync.store p' todo := by
      refine ⟨hFresh.works, hFresh.nodup, fun rel hRel table => ?_, hDone ▸ hFresh.done⟩
      rw [hOther]
      · exact hFresh.unread rel hRel table
      · intro hEq
        obtain ⟨rfl, -⟩ := WmKey.mk.inj hEq
        exact hOpened.notTodo hRel
    have hOpened' : Opened s.world s.sync.store p' todo r := by
      refine ⟨hOpened.file, hOpened.notTodo, hDone ▸ hOpened.notDone, hOpened.nodup, hOpened.named,
        fun t' ht => ?_⟩
      rw [hOther]
      · exact hOpened.unread t' ht
      · intro hEq
        obtain ⟨-, hName⟩ := WmKey.mk.inj hEq
        exact hTable.notLeft (hName ▸ List.mem_map_of_mem ht)
    have hReads' : ∀ rel ∈ r.rel :: p'.readDone, rel ∈ s.pc.reads := by
      rw [hReads, hDone]
      exact fun _ hRel => hRel
    dsimp only
    repeat' split
    · exact h.of_sync rfl rfl rfl hReads' ⟨hWorks', hFresh', hOpened'⟩
    · exact h.of_sync rfl rfl rfl hReads' ⟨hWorks', hFresh', hOpened'.file, hOpened'.notTodo,
        hOpened'.notDone, hOpened'.nodup, hOpened'.named, hOpened'.unread⟩
    · refine h.of_sync rfl rfl rfl hReads' ⟨hWorks', hFresh', hOpened', hTable.named,
        hTable.notLeft, ?_⟩
      change p'.staged s.sync.store ⟨r.rel, t.1⟩ = _
      rw [staged_stageAll, hTable.cursor]

theorem sound_stepApply (h : Sound s) (hPc : s.pc = .apply p) : Sound (s.stepApply p) := by
  have hWalk := h.walk
  simp only [Walk, hPc] at hWalk
  have hReads : s.pc.reads = p.readDone := by rw [hPc]; rfl
  unfold State.stepApply
  split
  · exact h.of_sync rfl rfl rfl (fun rel hRel => by cases hRel) trivial
  · exact h.of_sync rfl rfl rfl (fun rel hRel => hReads ▸ hRel) ⟨hWalk, hWalk⟩

theorem sound_stepReload {counts : Nat × Nat} (h : Sound s) (hPc : s.pc = .reload p counts todo) :
    Sound (s.stepReload x io p counts todo) := by
  have hWalk := h.walk
  simp only [Walk, hPc] at hWalk
  obtain ⟨hWorks, hTodo⟩ := hWalk
  have hReads : s.pc.reads = p.readDone := by rw [hPc]; rfl
  unfold State.stepReload
  split
  · exact h.of_sync rfl rfl rfl (fun rel hRel => hReads ▸ hRel) hWorks
  · split
    · exact h.of_sync rfl rfl rfl (fun rel hRel => by cases hRel) trivial
    · exact h.of_sync rfl rfl rfl (fun rel hRel => hReads ▸ hRel) ⟨hWorks, hTodo.tail⟩
  · split
    · exact h.of_sync rfl rfl rfl (fun rel hRel => by cases hRel) trivial
    · split
      · rename_i key src hKey hSrc
        exact h.of_accessed rfl (World.source?_some hSrc).1
          (s.sync.pool.getOrOpen_spec src key io.access) rfl (fun rel hr => .inl (hReads ▸ hr))
          ⟨hWorks, hTodo.tail⟩
      · exact h.of_sync rfl rfl rfl (fun rel hRel => hReads ▸ hRel) ⟨hWorks, hTodo.tail⟩

theorem sound_stepBook {counts : Nat × Nat} (h : Sound s) (hPc : s.pc = .book p counts todo) :
    Sound (s.stepBook io p counts todo) := by
  have hTodo := h.walk
  simp only [Walk, hPc] at hTodo
  have hReads : s.pc.reads = p.readDone := by rw [hPc]; rfl
  unfold State.stepBook
  split
  · exact h.of_sync rfl rfl rfl (fun rel hRel => by cases hRel) trivial
  · rename_i k rest
    split
    · rename_i hDone
      split
      · rename_i src hSrc
        obtain ⟨hMem, hRel⟩ := World.source?_some hSrc
        have hOpen : s.sync.pool.isOpen k.file.rel = true := h.opened _ (hReads ▸ hDone)
        refine ⟨fun f hf v hv => ?_, fun f hf hStamp => ?_, fun rel hr => ?_, hTodo.tail⟩
        · rcases s.sync.pool.conn?_advance src io.access.pragmaOk f.rel with hSame | ⟨hEq, -, hNew⟩
          · exact h.conns f hf v (hSame ▸ hv)
          · obtain rfl := eq_of_rel_eq hf hMem hEq
            rw [hNew, Option.some.injEq, Option.some.injEq] at hv
            exact hv.ge
        · by_cases hEq : f.rel = k.file.rel
          · rw [hEq]
            exact isOpen_of_advance hOpen
          · rw [AList.lookup_insert_ne hEq] at hStamp
            exact isOpen_of_advance (h.stamped f hf hStamp)
        · exact isOpen_of_advance (h.opened rel (hReads ▸ hr))
      · exact h.of_sync rfl rfl rfl (fun rel hRel => hReads ▸ hRel) hTodo.tail
    · exact h.of_sync rfl rfl rfl (fun rel hRel => hReads ▸ hRel) hTodo.tail

theorem sound_tick {t : State} (h : Sound s) (hTick : s.tick x io = some t) : Sound t := by
  unfold State.tick at hTick
  split at hTick
  · cases hTick
  all_goals
    rename_i hPc
    obtain rfl := Option.some.inj hTick
  · exact sound_stepFiles h hPc
  · exact sound_stepTables h hPc
  · exact sound_stepPage h hPc
  · exact sound_stepApply h hPc
  · exact sound_stepReload h hPc
  · exact sound_stepBook h hPc

/-- No step of a poll deregisters the account. -/
theorem stopped_tick {s t : State} (h : s.tick x io = some t) :
    t.sync.stopped = s.sync.stopped := by
  unfold State.tick at h
  split at h <;> cases h
  · unfold State.stepFiles
    repeat' split
    all_goals rfl
  · unfold State.stepTables
    split <;> rfl
  · unfold State.stepPage
    split
    · rfl
    · dsimp only
      repeat' split
      all_goals rfl
  · unfold State.stepApply
    split <;> rfl
  · unfold State.stepReload
    repeat' split
    all_goals rfl
  · unfold State.stepBook
    repeat' split
    all_goals rfl

/-! ## Commits and polls -/

section

variable {w : World} {st : Store} {rel : String} {stamps : DbStamps} {db : Db}

theorem Fresh.commit (h : Fresh w st p todo) : Fresh (World.commit w rel stamps db) st p todo :=
  ⟨h.works.commit, h.nodup, h.unread, h.done⟩

/-- A message file is still one after a commit. -/
theorem exists_messageFile_commit {rel' : String} (h : ∃ f ∈ w.messageFiles, f.rel = rel') :
    ∃ f ∈ (World.commit w rel stamps db).messageFiles, f.rel = rel' := by
  obtain ⟨f, hf, hRel⟩ := h
  obtain ⟨hFiles, hKind⟩ := mem_files_of_messageFiles hf
  refine ⟨_, List.mem_filter.mpr ⟨List.mem_map_of_mem hFiles, ?_⟩, ?_⟩
  · split <;> simpa using hKind
  · split <;> exact hRel

theorem Opened.commit (h : Opened w st p todo r) :
    Opened (World.commit w rel stamps db) st p todo r :=
  ⟨exists_messageFile_commit h.file, h.notTodo, h.notDone, h.nodup, h.named, h.unread⟩

theorem Walk.commit {pc : Pc} (h : Walk w st pc) : Walk (World.commit w rel stamps db) st pc := by
  cases pc with
  | idle => trivial
  | files p todo => exact ⟨h.1.commit, h.2.commit⟩
  | tables p todo r => exact ⟨h.1.commit, h.2.1.commit, h.2.2.commit⟩
  | pages p todo r t wm n => exact ⟨h.1.commit, h.2.1.commit, h.2.2.1.commit, h.2.2.2⟩
  | apply p => exact FromFiles.commit h
  | reload p counts todo => exact ⟨h.1.commit, h.2.commit⟩
  | book p counts todo => exact FromFiles.commit h

end

theorem sound_commit (h : Sound s) (rel : String) (stamps : DbStamps) (db : Db) :
    Sound { s with world := World.commit s.world rel stamps db } := by
  refine ⟨fun f hf v hv => ?_, fun f hf hStamp => ?_, h.opened, h.walk.commit⟩
  · rcases mem_commit hf with ⟨hOld, -⟩ | ⟨g, hg, -, rfl⟩
    · exact h.conns f hOld v hv
    · exact (h.conns g hg v hv).trans (Nat.le_succ _)
  · rcases mem_commit hf with ⟨hOld, -⟩ | ⟨g, hg, -, rfl⟩
    · exact h.stamped f hOld hStamp
    · exact h.stamped g hg hStamp

theorem sound_poll (h : Sound s) (pragmaOk : String → Bool) : Sound (s.poll pragmaOk) := by
  unfold State.poll
  dsimp only
  repeat' split
  · exact ⟨h.conns, h.stamped, h.opened, h.walk⟩
  · exact ⟨h.conns, h.stamped, h.opened, h.walk⟩
  · refine h.of_sync rfl rfl rfl (fun rel hRel => by cases hRel) ⟨fromFiles_classifyChanged,
      fromFiles_classifyChanged, rels_classifyChanged_nodup, fun _ _ _ => rfl,
      fun rel hRel => by cases hRel⟩

/-- **One step**, of any kind. -/
theorem sound_step {t : State} {op : Op} (h : Sound s) (hStep : step x s op = some t) :
    Sound t := by
  cases op with
  | commit rel stamps db =>
    obtain rfl := Option.some.inj hStep
    exact sound_commit h rel stamps db
  | setKeys keys =>
    simp only [step] at hStep
    split at hStep <;> cases hStep
    exact ⟨h.conns, h.stamped, h.opened, h.walk⟩
  | stop =>
    obtain rfl := Option.some.inj hStep
    exact ⟨h.conns, h.stamped, h.opened, h.walk⟩
  | poll pragmaOk =>
    simp only [step] at hStep
    split at hStep <;> cases hStep
    exact sound_poll h pragmaOk
  | tick io => exact sound_tick h hStep

end

theorem sound_start (x : Codec) (wxid : String) (keys : KeyMap) (w : World) (io : BuildIo)
    (nowMs : Int) : Sound (start x wxid keys w io nowMs) := by
  obtain ⟨scanned, hBuilt⟩ : BuiltSome w io (buildAllLive x wxid keys w io {} nowMs) :=
    built_buildAllLive nowMs
  unfold start AccountSync.fullSync
  rcases hRes : buildAllLive x wxid keys w io {} nowMs with ⟨pool, store⟩
  rw [hRes] at hBuilt
  simp only [Bool.false_eq_true, if_false]
  refine ⟨fun f hf v hv => ?_, fun f _ hStamp => ?_, fun rel hRel => (by cases hRel), trivial⟩
  · rcases hBuilt.conns f.rel (some v) hv with hNone | ⟨g, hg, hRel, hEq⟩
    · cases hNone
    · obtain rfl := eq_of_rel_eq hg hf hRel
      exact (Option.some.inj hEq).le
  · rcases lookup_seed hStamp with hEmpty | hOpen
    · exact absurd rfl hEmpty
    · exact hOpen

end Weflow.Sync
