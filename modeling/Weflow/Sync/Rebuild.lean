import Weflow.Sync.Ledger

/-!
# The increment refines the rebuild

When every file is drained, the store that a full sync and the polls after it have filled holds
the same source rows as a build of the files as they are now, if no poll has read a system
message or a withdrawal. The build keeps such rows and the apply phase drops them, so one of them
is enough for the two to differ: `polled_system_row_is_not_stored`.
-/

namespace Weflow.Sync

/-- The page can be read, and does not end its table at the page limit. -/
def readsOn (x : Codec) (s : State) (io : Io) : Bool :=
  match s.pc with
  | .pages _ _ r t wm n =>
    match s.readPageOf x io r t wm with
    | .ok rows => rows.length < readPage || n + 1 < readMaxPages
    | .error _ => false
  | _ => true

/-- A history of appends between polls that can read and drain everything. -/
def DrainRun (x : Codec) (s : State) (op : Op) : Prop :=
  Between s op ∧
    match op with
    | .commit rel _ db => Appends s.world s.marks rel db
    | .tick io => readsOn x s io = true
    | _ => True

/-- No poll reads a system message or a withdrawal. -/
def NoSystemRow (x : Codec) (s : State) : Op → Prop
  | .tick io => pagePlain x s io = true
  | _ => True

theorem tickOk_of_readsOn {x : Codec} {s : State} {io : Io} (h : readsOn x s io = true) :
    TickOk x s io := by
  unfold readsOn at h
  unfold TickOk
  split
  · rename_i p todo r t wm n hPc
    rw [hPc] at h
    cases hPage : s.readPageOf x io r t wm with
    | error e => simp [hPage] at h
    | ok rows =>
      intro hFull hCap
      simp only [hPage, Bool.or_eq_true, decide_eq_true_eq] at h
      omega
  · trivial

/-- **The increment refines the rebuild.** After a full sync and any polls and commits between
them, once every file is drained, the store holds the source rows that a build of the final
files yields. -/
theorem increment_refines_build (x : Codec) (wxid : String) (keys : KeyMap) (w : World)
    (io : BuildIo) (nowMs : Int) (hLoads : ∀ k, io.loadFails k = false)
    (hFull : ∀ f ∈ w.messageFiles, f.db.AllFull)
    (hZero : ∀ f ∈ w.messageFiles,
      (start x wxid keys w io nowMs).sync.pool.isOpen f.rel = false →
        ∀ r ∈ f.sources, .zero < r.mark)
    {t : State} (hRun : Runs.Run (step x) (fun s op => DrainRun x s op ∧ NoSystemRow x s op)
      (start x wxid keys w io nowMs) t) (hDrained : Drained t)
    {keys' : KeyMap} (hKeys : ∀ f ∈ t.world.files, keys' f.rel = some f.key) (laterMs : Int) :
    (t.sync.store.records.map MessageRecord.sourceRow).Perm
      ((buildAllLive x wxid keys' t.world {} {} laterMs).2.records.map
        MessageRecord.sourceRow) := by
  obtain ⟨-, hLedger⟩ : Inv t ∧ Ledger t := by
    refine hRun.invariant (P := fun s => Inv s ∧ Ledger s)
      ⟨inv_start hLoads, ledger_start hLoads hFull hZero⟩ ?_
    rintro s op u ⟨hInv, hLedger⟩ ⟨⟨hBetween, hOp⟩, hPlain⟩ hStep
    have hFlagsOk : FlagsOk x s op := by
      cases op with
      | commit rel stamps db =>
        intro f _ _ t _ hExposed
        rw [show s.pc = .idle from hBetween] at hExposed
        exact hExposed.elim
      | tick io => exact tickOk_of_readsOn hOp
      | stop => exact hBetween
      | _ => trivial
    have hLedgerOk : LedgerOk x s op := by
      cases op with
      | commit rel stamps db => exact hOp
      | tick io => exact hPlain
      | _ => trivial
    exact ⟨inv_step hInv hFlagsOk hStep, ledger_step hInv hLedger hLedgerOk hStep⟩
  have hHeld := hLedger.held
  rw [Held, hDrained.below] at hHeld
  exact hHeld.trans (records_quietBuild hKeys laterMs).symm

/-! ## One commit and one poll -/

/-- A poll of a world of one file, up to its end. -/
def onePoll : List Op := .poll (fun _ => true) :: List.replicate 10 (.tick {})

/-- The columns of the full layout. -/
def fullCols : MsgCols :=
  ⟨"local_id", "server_id", "local_type", "create_time", "sort_seq", none, none, none, none⟩

theorem sources_hasRows {f : Source} {rows : List MsgRow} (h : f.db.HasRows rows) :
    f.sources = rows.map (fullCols.sourceRow ⟨f.rel, "Msg_0123456789abcdef"⟩) := by
  have hProbe : MsgCols.probe Increment.fullColumns = some fullCols := by decide
  simp [Source.sources, Source.tableSources, Source.cols, h.messageTables, h.tableColumns,
    h.msgRows, hProbe, Source.wmKey]

theorem allFull_hasRows {db : Db} {rows : List MsgRow} (h : db.HasRows rows) : db.AllFull := by
  intro t ht
  rw [h.messageTables, List.mem_singleton] at ht
  subst ht
  rw [h.tableColumns]
  exact ⟨fullCols, by decide, by decide⟩

/-- Rows appended to the one table. -/
theorem appends_hasRows {w : World} {marks : WmKey → Watermark} {db : Db}
    (rows added : List MsgRow)
    (hFiles : ∀ f ∈ w.messageFiles, f.rel = "m" ∧ f.db.HasRows rows)
    (hNew : db.HasRows (rows ++ added))
    (hAbove : ∀ r ∈ added, marks ⟨"m", "Msg_0123456789abcdef"⟩ < fullCols.mark r) :
    Appends w marks "m" db where
  full := allFull_hasRows hNew
  tables f hf _ t ht := by
    rw [(hFiles f hf).2.messageTables] at ht
    rw [hNew.messageTables]
    exact ht
  rows f hf hRel := by
    refine ⟨added.map (fullCols.sourceRow ⟨"m", "Msg_0123456789abcdef"⟩), ?_, fun r hr => ?_⟩
    · have hSources : ({ f with db } : Source).sources = _ := sources_hasRows hNew
      rw [hSources, sources_hasRows (hFiles f hf).2, hRel, List.map_append]
    · obtain ⟨row, hRow, rfl⟩ := List.mem_map.mp hr
      exact hAbove row hRow

/-- The second row is appended above the watermark of the full sync. -/
theorem appends_twoRows (localType : Int) : Appends (World.single Db.oneRow)
    (singleStart Db.oneRow {}).marks "m" (Db.twoRows localType) := by
  refine appends_hasRows [rowOf 1 1] [rowOf 2 localType] (fun f hf => ?_)
    (Db.hasRows_twoRows localType) fun r hr => ?_
  · obtain rfl := List.mem_singleton.mp hf
    exact ⟨rfl, Db.hasRows_oneRow⟩
  · obtain rfl := List.mem_singleton.mp hr
    exact (by decide : (singleStart Db.oneRow {}).marks ⟨"m", "Msg_0123456789abcdef"⟩ <
      ⟨100, 2, 2⟩)

/-- The full sync, the commit of a second row, and one poll. -/
def afterPoll (localType : Int) : State :=
  let s := singleStart Db.oneRow {}
  let s := { s with world := World.commit s.world "m" ⟨none, none⟩ (Db.twoRows localType) }
  (Runs.exec (step (.blank "")) (fun _ => Op.isOwn) s onePoll).getD s

/-- A step of the engine that reads on. -/
def readsOnOp (s : State) : Op → Bool
  | .poll _ => true
  | .tick io => readsOn (.blank "") s io
  | _ => false

theorem drainRun_of_readsOnOp (s : State) (op : Op) (h : readsOnOp s op = true) :
    DrainRun (.blank "") s op := by
  cases op with
  | poll pragmaOk => exact ⟨trivial, trivial⟩
  | tick io => exact ⟨trivial, h⟩
  | _ => cases h

/-- A step of the engine that reads on, and no system message. -/
def plainOp (s : State) (op : Op) : Bool :=
  readsOnOp s op && match op with
    | .tick io => pagePlain (.blank "") s io
    | _ => true

theorem noSystemRow_of_plainOp (s : State) (op : Op) (h : plainOp s op = true) :
    DrainRun (.blank "") s op ∧ NoSystemRow (.blank "") s op := by
  simp only [plainOp, Bool.and_eq_true] at h
  refine ⟨drainRun_of_readsOnOp s op h.1, ?_⟩
  cases op with
  | tick io => exact h.2
  | _ => trivial

theorem drained_of_watermark {s : State} {localType : Int}
    (hFile : s.world.messageFiles = [{ Source.single (Db.twoRows localType) with version := 1 }])
    (hMark : s.sync.store.watermark ⟨"m", "Msg_0123456789abcdef"⟩ = ⟨100, 2, 2⟩) : Drained s := by
  intro f hf
  rw [hFile, List.mem_singleton] at hf
  subst hf
  refine cleanAt_iff.mpr fun r hr => ?_
  have hSources : Source.sources { Source.single (Db.twoRows localType) with version := 1 } = _ :=
    sources_hasRows (Db.hasRows_twoRows localType)
  rw [hSources] at hr
  obtain ⟨row, hRow, rfl⟩ := List.mem_map.mp hr
  change fullCols.mark row ≤ s.sync.store.watermark ⟨"m", "Msg_0123456789abcdef"⟩
  rw [hMark]
  rcases List.mem_pair.mp hRow with rfl | rfl
  · exact (by decide : fullCols.mark (rowOf 1 1) ≤ ⟨100, 2, 2⟩)
  · exact le_rfl

theorem increment_refines_build_commit :
    ((afterPoll 1).sync.store.records.map MessageRecord.sourceRow).Perm
      ((buildAllLive (.blank "") "" (fun _ => some "") (afterPoll 1).world {} {} 0).2.records.map
        MessageRecord.sourceRow) :=
  increment_refines_build (.blank "") "" (fun _ => some "") (World.single Db.oneRow) {} 0
    (fun _ => rfl)
    (fun f hf => by obtain rfl := List.mem_singleton.mp hf; exact allFull_hasRows Db.hasRows_oneRow)
    (fun f hf hClosed => by obtain rfl := List.mem_singleton.mp hf; cases hClosed)
    ((Runs.Run.single (.commit "m" ⟨none, none⟩ (Db.twoRows 1))
      ⟨⟨rfl, appends_twoRows 1⟩, trivial⟩ rfl).trans
        (Runs.run_of_exec onePoll noSystemRow_of_plainOp rfl))
    (drained_of_watermark rfl rfl)
    (fun f hf => by obtain rfl := List.mem_singleton.mp hf; rfl) 0

/-- The second row is a system message. -/
theorem polled_system_row_is_not_stored : ¬ ∀ t, Runs.Run (step (.blank ""))
    (DrainRun (.blank "")) (singleStart Db.oneRow {}) t → Drained t →
    (t.sync.store.records.map MessageRecord.sourceRow).Perm
      ((buildAllLive (.blank "") "" (fun _ => some "") t.world {} {} 0).2.records.map
        MessageRecord.sourceRow) := by
  intro h
  have hRun : Runs.Run (step (.blank "")) (DrainRun (.blank "")) (singleStart Db.oneRow {})
      (afterPoll 10000) :=
    (Runs.Run.single (.commit "m" ⟨none, none⟩ (Db.twoRows 10000))
      ⟨rfl, appends_twoRows 10000⟩ rfl).trans (Runs.run_of_exec onePoll drainRun_of_readsOnOp rfl)
  have hLength := (h (afterPoll 10000) hRun (drained_of_watermark rfl rfl)).length_eq
  exact absurd hLength (by decide +kernel)

end Weflow.Sync
