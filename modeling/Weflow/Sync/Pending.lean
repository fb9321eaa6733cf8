import Weflow.Sync.Flags

/-!
# No swallowed remainder

What `Flags` means between two polls: as long as commits happen between polls only, every
message file that holds a row above the watermark of its table is classified as changed, if no
step of the run was one of those `PickOk` leaves out. One of them is enough to lose the row:
`failed_page_swallows_unread`.
-/

namespace Weflow

/-- The file holds a row above the stored watermark of its table. -/
def Source.Unread (f : Source) (s : Store) : Prop :=
  ∃ t ∈ f.db.tables, (msgSuffix t.name).isSome ∧
    ∃ c, f.cols t.name = some c ∧ ∃ r ∈ t.msgRows, s.watermark (f.wmKey t.name) < c.mark r

theorem Source.CleanAt.not_unread {f : Source} {s : Store} (h : f.CleanAt s.watermark)
    (hListed : f.db.Listed) : ¬f.Unread s := by
  rintro ⟨t, ht, hSuffix, c, hCols, r, hr, hAbove⟩
  obtain ⟨suffix, hSuffix⟩ := Option.isSome_iff_exists.mp hSuffix
  have hMem := hListed.mem_messageTables ht hSuffix (List.ne_nil_of_mem hr)
  exact absurd (h _ hMem c hCols r (by rw [msgRows_of_mem ht]; exact hr)) (not_le.mpr hAbove)

namespace Sync

/-- Foreign commits happen only between the polls, and the account stays registered. -/
def Between (s : State) : Op → Prop
  | .commit .. => s.pc = .idle
  | .stop => False
  | _ => True

/-- A step of the engine itself. -/
def Op.isOwn : Op → Bool
  | .poll _ | .tick _ => true
  | _ => false

theorem between_of_isOwn {s : State} (op : Op) (h : op.isOwn = true) : Between s op := by
  cases op <;> trivial

/-- Every message file with an unread row is classified as changed. -/
def PickedUp (s : State) : Prop :=
  ∀ f ∈ s.world.messageFiles, f.Unread s.sync.store → ∀ pragmaOk,
    .messages f.toDbFile ∈ s.sync.classifyChanged s.world pragmaOk

/-- The steps that keep every remainder: committed tables are listed, and `TickOk`. -/
def PickOk (x : Codec) (s : State) : Op → Prop
  | .commit _ _ db => db.Listed
  | .tick io => TickOk x s io
  | _ => True

def AllListed (w : World) : Prop := ∀ f ∈ w.files, f.db.Listed

theorem allListed_step {x : Codec} {s t : State} {op : Op} (h : AllListed s.world)
    (hOk : PickOk x s op) (hStep : step x s op = some t) : AllListed t.world := by
  rw [world_step hStep]
  cases op with
  | commit rel stamps db =>
    intro f hf
    rcases mem_commit hf with ⟨hOld, -⟩ | ⟨g, -, -, rfl⟩
    · exact h f hOld
    · exact hOk
  | _ => exact h

/-- Between two polls nothing is exposed, so a commit is never in the way. -/
theorem flagsOk_of_pickOk {x : Codec} {s : State} {op : Op} (hBetween : Between s op)
    (hOk : PickOk x s op) : FlagsOk x s op := by
  cases op with
  | commit rel stamps db =>
    intro f _ _ t _ hExposed
    have hIdle : s.pc = .idle := hBetween
    rw [hIdle] at hExposed
    exact hExposed.elim
  | setKeys keys => trivial
  | stop => exact hBetween
  | poll pragmaOk => trivial
  | tick io => exact hOk

/-- **No swallowed remainder.** In every state between two polls that a run of `PickOk` steps
reaches from a full sync, every message file that holds a row above the stored watermark of its
table is classified as changed. -/
theorem unread_picked_up (x : Codec) (wxid : String) (keys : KeyMap) (w : World) (io : BuildIo)
    (nowMs : Int) (hLoads : ∀ k, io.loadFails k = false) (hListed : AllListed w) {t : State}
    (hRun : Runs.Run (step x) (fun s op => Between s op ∧ PickOk x s op)
      (start x wxid keys w io nowMs) t) (hIdle : t.pc = .idle) : PickedUp t := by
  obtain ⟨hInv, hAll⟩ : Inv t ∧ AllListed t.world := by
    refine hRun.invariant (P := fun s => Inv s ∧ AllListed s.world) ⟨inv_start hLoads, hListed⟩ ?_
    rintro s op u ⟨hInv, hAll⟩ ⟨hBetween, hOk⟩ hStep
    exact ⟨inv_step hInv (flagsOk_of_pickOk hBetween hOk) hStep, allListed_step hAll hOk hStep⟩
  intro f hf hUnread pragmaOk
  have hFlags := hInv.flags
  simp only [Flags, hIdle] at hFlags
  rcases hFlags f hf with hPending | hClean
  · exact mem_classifyChanged hInv.base hf hPending
  · exact absurd hUnread (hClean.not_unread (hAll f (mem_files_of_messageFiles hf).1))

end Sync

/-! ## A world of one message file -/

/-- A database with one message table of the full layout. -/
def Db.oneTable (rows : List MsgRow) (hIds : (rows.map MsgRow.localId).Nodup)
    (hPos : ∀ r ∈ rows, 0 < r.localId) : Db where
  tables := [⟨"Msg_0123456789abcdef", Increment.fullColumns, .messages rows⟩]
  names_nodup := List.nodup_singleton _
  ids_nodup := by simpa [Table.msgRows] using hIds
  ids_pos := by simpa [Table.msgRows] using hPos
  rowids_nodup := by simp [Table.uidRows]

/-- The database has that one table. -/
def Db.HasRows (db : Db) (rows : List MsgRow) : Prop :=
  db.tables = [⟨"Msg_0123456789abcdef", Increment.fullColumns, .messages rows⟩]

namespace Db.HasRows

variable {db : Db} {rows : List MsgRow}

theorem listed (h : db.HasRows rows) : db.Listed :=
  listed_of_length (by rw [h]; exact (by decide : 1 ≤ messageTablesCap))

theorem messageTables (h : db.HasRows rows) :
    messageTables db = [("Msg_0123456789abcdef", "0123456789abcdef")] := by
  have hSuffix : msgSuffix "Msg_0123456789abcdef" = some "0123456789abcdef" := by decide
  have hTables : db.tables = _ := h
  simp [Weflow.messageTables, tableNames, sortedNames, hTables, messageTablesCap, hSuffix]

theorem tableColumns (h : db.HasRows rows) :
    tableColumns db "Msg_0123456789abcdef" = Increment.fullColumns := by
  have hPlain : isPlainIdent "Msg_0123456789abcdef" = true := by decide
  have hTables : db.tables = _ := h
  simp [Weflow.tableColumns, hPlain, Db.table?, hTables, eqIgnoreAsciiCase]

theorem msgRows (h : db.HasRows rows) : db.msgRows "Msg_0123456789abcdef" = rows := by
  have hTables : db.tables = _ := h
  simp [Db.msgRows, Db.table?, hTables, eqIgnoreAsciiCase, Table.msgRows]

end Db.HasRows

/-- A row with that id and type. -/
def rowOf (localId localType : Int) : MsgRow :=
  { localId, localType, createTime := 100, sortSeq := localId }

theorem oneRow_ids : ([rowOf 1 1].map MsgRow.localId).Nodup := List.nodup_singleton _

theorem oneRow_pos : ∀ r ∈ [rowOf 1 1], 0 < r.localId := by decide

def Db.oneRow : Db := .oneTable [rowOf 1 1] oneRow_ids oneRow_pos

/-- A second row is appended. -/
def Db.twoRows (localType : Int) : Db :=
  .oneTable [rowOf 1 1, rowOf 2 localType] (by simp [rowOf]) (by simp [rowOf])

theorem Db.hasRows_oneRow : Db.oneRow.HasRows [rowOf 1 1] := rfl

theorem Db.hasRows_twoRows (localType : Int) :
    (Db.twoRows localType).HasRows [rowOf 1 1, rowOf 2 localType] := rfl

/-- A message file, which opens with the empty key. -/
def Source.single (db : Db) : Source := ⟨⟨"m", .message⟩, "", ⟨none, none⟩, 0, db⟩

/-- A world of one message file. -/
def World.single (db : Db) : World where
  files := [.single db]
  rels_nodup := List.nodup_singleton _

namespace Sync

theorem allListed_single {db : Db} (h : db.Listed) : AllListed (World.single db) := by
  intro f hf
  obtain rfl := List.mem_singleton.mp hf
  exact h

/-- The full sync of a world of one file, with the right key. -/
def singleStart (db : Db) (io : BuildIo) : State :=
  start (.blank "") "" (fun _ => some "") (World.single db) io 0

/-- A poll of the file, whose first page cannot be read. -/
def failedPageOps : List Op :=
  [.poll fun _ => true, .tick {}, .tick {}, .tick { readFails := true }]

/-- The pages cannot be read, and the poll has opened no file. -/
def failsUnopened (s : State) : Op → Bool
  | .poll _ => true
  | .tick io =>
    match s.pc with
    | .pages p .. => io.readFails && p.opened.isEmpty
    | _ => true
  | _ => false

theorem pickOk_of_failsUnopened {x : Codec} (s : State) (op : Op) (h : failsUnopened s op = true) :
    Between s op ∧ PickOk x s op := by
  cases op with
  | poll pragmaOk => exact ⟨trivial, trivial⟩
  | tick io =>
    refine ⟨trivial, ?_⟩
    rw [PickOk, TickOk]
    cases hPc : s.pc with
    | pages p todo r t wm pages =>
      rw [failsUnopened, hPc] at h
      obtain ⟨hFails, hNone⟩ := Bool.and_eq_true_iff.mp h
      have hError : s.readPageOf x io r t wm = .error .sql := by
        rw [State.readPageOf]
        split
        · rfl
        · rw [if_pos hFails]
      dsimp only
      rw [hError, List.isEmpty_iff.mp hNone]
      exact fun f _ hf => absurd hf List.not_mem_nil
    | _ => trivial
  | commit rel stamps db => cases h
  | setKeys keys => cases h
  | stop => cases h

/-- After the full sync a row is committed. -/
def commitSecond : State :=
  { singleStart Db.oneRow {} with
    world := World.commit (World.single Db.oneRow) "m" ⟨none, none⟩ (Db.twoRows 1) }

/-- The poll that fails to read it leaves it, and the next one looks at its file. -/
theorem unread_picked_up_failedPage : ∃ t,
    Runs.exec (step (.blank "")) failsUnopened commitSecond failedPageOps = some t ∧
    (∃ f ∈ t.world.messageFiles, f.Unread t.sync.store) ∧ PickedUp t := by
  let failed := (Runs.exec (step (.blank "")) failsUnopened commitSecond failedPageOps).getD
    commitSecond
  have hExec : Runs.exec (step (.blank "")) failsUnopened commitSecond failedPageOps =
    some failed := rfl
  have hCommit : Runs.Run (step (.blank "")) (fun s op => Between s op ∧ PickOk (.blank "") s op)
      (singleStart Db.oneRow {}) commitSecond :=
    .single (.commit "m" ⟨none, none⟩ (Db.twoRows 1)) ⟨rfl, (Db.hasRows_twoRows 1).listed⟩ rfl
  refine ⟨failed, hExec, ⟨_, List.mem_cons_self, _, List.mem_singleton_self _, by decide, _, rfl, _,
    List.mem_cons_of_mem _ (List.mem_singleton_self _), by decide⟩, ?_⟩
  exact unread_picked_up (.blank "") "" (fun _ => some "") (World.single Db.oneRow) {} 0
    (fun _ => rfl) (allListed_single Db.hasRows_oneRow.listed)
    (hCommit.trans (Runs.run_of_exec failedPageOps pickOk_of_failsUnopened hExec)) rfl

/-- A full sync that could not open the file. -/
def closedStart : State :=
  singleStart Db.oneRow { access := fun _ _ => { fails := some .io } }

/-- The poll that opens the file takes its version as seen, and reads nothing. -/
theorem failed_page_swallows_unread : ¬ ∀ t, Runs.Run (step (.blank "")) Between closedStart t →
    t.pc = .idle → PickedUp t := by
  intro h
  let failed := (Runs.exec (step (.blank "")) (fun _ => Op.isOwn) closedStart
    failedPageOps).getD closedStart
  have hRun : Runs.Run (step (.blank "")) Between closedStart failed :=
    Runs.run_of_exec failedPageOps (fun _ => between_of_isOwn) rfl
  have hUnread : (Source.single Db.oneRow).Unread failed.sync.store :=
    ⟨_, List.mem_singleton_self _, by decide, _, rfl, _, List.mem_singleton_self _, by decide⟩
  have hPicked := h failed hRun rfl _ List.mem_cons_self hUnread fun _ => true
  rw [show failed.sync.classifyChanged failed.world (fun _ => true) = [] from rfl] at hPicked
  cases hPicked

end Sync

end Weflow
