import Weflow.Sync.SessionKeys

/-!
# What a poll publishes

A poll that returns has read rows of some tables, page by page. `poll_pushes` says that its events,
the rows it stores, its watermarks and its result are exactly those rows': a new message for every
stored row of somebody else, then a withdrawal for every row that is one.

The source builds an event from the end of a conversation to which the row was just pushed, and
reads the conversation again for each field (`rereadEvent`); that it finds the row there is
`rereadEvent_pushed`.
-/

namespace Weflow.Sync

/-! ## Reading a record back -/

/-- The event as `poll_once` builds it, every field read from the last record of the
conversation. -/
def rereadEvent (s : Store) (session sourceName : String) : NewMessageEvent :=
  let last := (s.convs.lookup session).bind List.getLast?
  { sessionId := session
    sessionType := sessionType s session
    rawid := (last.map fun r => toString r.serverId).getD ""
    sourceName
    groupName := groupName s session
    content := (last.map fun r => r.parsed.display).getD ""
    timestamp := (last.map MessageRecord.createTime).getD 0
    media := (last.bind fun r => r.parsed.media).map PushMedia.ofHint }

/-- What is read back is the record that was just pushed. -/
theorem rereadEvent_pushed (s : Store) (session : String) (r : MessageRecord) :
    rereadEvent (s.extendConv session [r]) session r.senderName =
      newMessageEvent (s.extendConv session [r]) session r := by
  have hLast : ((s.extendConv session [r]).convs.lookup session).bind List.getLast? = some r := by
    rw [Store.extendConv, AList.lookup_insert, Option.bind_some, List.getLast?_concat]
  rw [rereadEvent, hLast]
  rfl

/-! ## The rows a poll reads -/

/-- A row that `read_new` returned, with the conversation and the table it was read for. -/
structure Row where
  session : String
  table : WmKey
  row : MessageRecord

/-- The rows that a step reads. -/
def rowsRead (x : Codec) (s : State) : Op → List Row
  | .tick io =>
      match s.pc with
      | .pages _ _ r t wm _ =>
          match s.readPageOf x io r t wm with
          | .ok rows => rows.map fun row => ⟨tableSession x t.2 s.sync.store, ⟨r.rel, t.1⟩, row⟩
          | .error _ => []
      | _ => []
  | _ => []

/-- A step, with the rows that were read so far. -/
def readingStep (x : Codec) (sr : State × List Row) (op : Op) : Option (State × List Row) :=
  (step x sr.1 op).map fun t => (t, sr.2 ++ rowsRead x sr.1 op)

/-- The steps of one poll: no other is begun. -/
def SamePoll (_ : State × List Row) : Op → Prop
  | .poll _ => False
  | _ => True

/-- The rows that are stored, in the order they were read. -/
def storedRows (rows : List Row) : List Row := rows.filter fun r => !isRevokeRow r.row

/-- The row is the account's own. -/
def own (s : Store) (r : Row) : Bool := r.row.senderUsername ≠ "" ∧ r.row.senderUsername = s.myWxid

/-- The event announces the row: its conversation, server id, text, time and media. -/
def NewOf (e : Event) (r : Row) : Prop :=
  ∃ ev, e = .new ev ∧ ev.sessionId = r.session ∧ ev.rawid = toString r.row.serverId ∧
    ev.content = r.row.parsed.display ∧ ev.timestamp = r.row.createTime ∧
    ev.media = r.row.parsed.media.map PushMedia.ofHint

/-- The event is the one that is built for the stored record. -/
def EventOf (e : Event) (sr : String × MessageRecord) : Prop :=
  ∃ s, e = .new (newMessageEvent s sr.1 sr.2)

/-- The event announces the withdrawal. -/
def RevokeOf (e : Event) (r : Row) : Prop :=
  ∃ ev, e = .revoke ev ∧ ev.sessionId = r.session ∧ ev.timestamp = r.row.createTime

/-- What was published and stored for the rows, from the store `old` and the events `before` on. -/
structure Pushed (old : Store) (before : List Event) (rows : List Row) (counts : Nat × Nat)
    (new : Store) (after : List Event) : Prop where
  events : ∃ news revokes, after = before ++ news ++ revokes ∧
    List.Forall₂ NewOf news ((storedRows rows).filter fun r => !own old r) ∧
    List.Forall₂ RevokeOf revokes
      (rows.filter fun r => r.row.parsed.revoke.isSome ∧ r.row.createTime ≠ 0) ∧
    counts = (news.length, revokes.length)
  convs : ∀ u, new.conv u = old.conv u ++
    ((storedRows rows).filter fun r => r.session = u).map fun r => resolveRecord old r.row
  watermarks : ∀ k, new.watermark k =
    (((rows.filter fun r => r.table = k).getLast?).map fun r => r.row.mark).getD (old.watermark k)

/-! ## Applying the staged rows -/

section

variable {s : Store} {rows : List (String × MessageRecord)} {se : Store × List Event}

theorem contacts_setWatermarks (s : Store) (ws : List (WmKey × Watermark)) :
    (setWatermarks s ws).contacts = s.contacts ∧ (setWatermarks s ws).myWxid = s.myWxid := by
  induction ws generalizing s with
  | nil => exact ⟨rfl, rfl⟩
  | cons a ws ih => exact ih (s.setWatermark a.1 a.2)

/-- Only contacts and the own id go into a stored record. -/
theorem resolveRecord_congr {s' : Store} (hContacts : s'.contacts = s.contacts)
    (hMe : s'.myWxid = s.myWxid) : resolveRecord s' = resolveRecord s := by
  funext r
  rw [resolveRecord, resolveRecord, hContacts, hMe]

theorem conv_foldl_applyNew (rows : List (String × MessageRecord)) (se : Store × List Event)
    (u : String) : (rows.foldl applyNew se).1.conv u =
      se.1.conv u ++ (rows.filter fun sr => sr.1 = u).map fun sr => resolveRecord se.1 sr.2 := by
  induction rows generalizing se with
  | nil => simp
  | cons sr rows ih =>
    have hResolve : resolveRecord (applyNew se sr).1 = resolveRecord se.1 :=
      resolveRecord_congr rfl rfl
    rw [List.foldl_cons, ih, hResolve]
    change (se.1.extendConv sr.1 [resolveRecord se.1 sr.2]).conv u ++ _ = _
    by_cases hKey : sr.1 = u
    · subst hKey
      rw [Store.conv_extendConv, List.filter_cons_of_pos (by simp), List.map_cons,
        List.append_assoc]
      rfl
    · rw [Store.conv_extendConv_ne _ _ (Ne.symm hKey), List.filter_cons_of_neg (by simpa using hKey)]

/-- The rows as they are stored. -/
def resolvedRows (s : Store) (rows : List (String × MessageRecord)) : List (String × MessageRecord) :=
  rows.map fun sr => (sr.1, resolveRecord s sr.2)

/-- The rows of others are announced one by one. -/
theorem events_foldl_applyNew (rows : List (String × MessageRecord)) (se : Store × List Event) :
    ∃ news, (rows.foldl applyNew se).2 = se.2 ++ news ∧
      List.Forall₂ EventOf news ((resolvedRows se.1 rows).filter fun sr => !sr.2.isSend) := by
  induction rows generalizing se with
  | nil => exact ⟨[], by simp, .nil⟩
  | cons sr rows ih =>
    obtain ⟨news, hEvents, hNews⟩ := ih (applyNew se sr)
    have hResolve : resolvedRows (applyNew se sr).1 rows = resolvedRows se.1 rows := by
      have hSame : resolveRecord (applyNew se sr).1 = resolveRecord se.1 :=
        resolveRecord_congr rfl rfl
      rw [resolvedRows, resolvedRows, hSame]
    rw [hResolve] at hNews
    rw [List.foldl_cons, hEvents]
    cases hSend : (resolveRecord se.1 sr.2).isSend with
    | true =>
      refine ⟨news, ?_, ?_⟩
      · rw [applyNew, if_pos hSend]
      · rwa [resolvedRows, List.map_cons, List.filter_cons_of_neg (by simp [hSend])]
    | false =>
      refine ⟨.new (newMessageEvent (se.1.extendConv sr.1 [resolveRecord se.1 sr.2]) sr.1
        (resolveRecord se.1 sr.2)) :: news, ?_, ?_⟩
      · rw [applyNew, hSend]
        simp
      · rw [resolvedRows, List.map_cons, List.filter_cons_of_pos (by simp [hSend])]
        exact .cons ⟨_, rfl⟩ hNews

theorem revokeEvents_of (s : Store) (rows : List Row) :
    List.Forall₂ RevokeOf (revokeEvents s (rows.map fun r => (r.session, r.row)))
      (rows.filter fun r => r.row.parsed.revoke.isSome ∧ r.row.createTime ≠ 0) := by
  rw [revokeEvents, List.filter_map, List.map_map, List.forall₂_map_left_iff]
  exact List.forall₂_same.mpr fun r _ => ⟨_, rfl, rfl, rfl⟩

/-- The watermark of a table is that of the last row written for it. -/
theorem watermark_setWatermarks_rows (s : Store) (rows : List Row) (k : WmKey) :
    (setWatermarks s (rows.map fun r => (r.table, r.row.mark))).watermark k =
      (((rows.filter fun r => r.table = k).getLast?).map fun r => r.row.mark).getD
        (s.watermark k) := by
  induction rows generalizing s with
  | nil => rfl
  | cons r rows ih =>
    rw [List.map_cons, setWatermarks, List.foldl_cons]
    change (setWatermarks (s.setWatermark r.table r.row.mark) _).watermark k = _
    rw [ih]
    by_cases hKey : r.table = k
    · subst hKey
      rw [Store.watermark_setWatermark, List.filter_cons_of_pos (by simp), List.getLast?_cons]
      cases (rows.filter fun r' => r'.table = r.table).getLast? <;> rfl
    · rw [Store.watermark_setWatermark_ne _ _ (Ne.symm hKey),
        List.filter_cons_of_neg (by simpa using hKey)]

end

/-! ## The rows of a poll in its queues -/

/-- The queues of a poll hold the rows it read. -/
structure Queued (p : Poll) (rows : List Row) : Prop where
  newRows : p.newRows = (storedRows rows).map fun r => (r.session, r.row)
  revokeRows : p.revokeRows =
    (rows.filter fun r => isRevokeRow r.row).map fun r => (r.session, r.row)
  newWatermarks : p.newWatermarks = rows.map fun r => (r.table, r.row.mark)

namespace Queued

variable {p : Poll} {rows : List Row}

/-- A page adds its rows to the queues. -/
theorem stageAll (h : Queued p rows) (session : String) (k : WmKey) (page : List MessageRecord) :
    Queued (p.stageAll session k page) (rows ++ page.map fun row => ⟨session, k, row⟩) where
  newRows := by
    rw [newRows_stageAll, h.newRows, storedRows, storedRows, List.filter_append, List.map_append,
      List.filter_map, List.map_map]
    rfl
  revokeRows := by
    rw [revokeRows_stageAll, h.revokeRows, List.filter_append, List.map_append, List.filter_map,
      List.map_map]
    rfl
  newWatermarks := by
    rw [newWatermarks_stageAll, h.newWatermarks, List.map_append, List.map_map]
    rfl

theorem congr {p' : Poll} (h : Queued p rows) (hNew : p'.newRows = p.newRows)
    (hRevoke : p'.revokeRows = p.revokeRows) (hMarks : p'.newWatermarks = p.newWatermarks) :
    Queued p' rows :=
  ⟨hNew.trans h.newRows, hRevoke.trans h.revokeRows, hMarks.trans h.newWatermarks⟩

end Queued

/-- A withdrawal is never stored. -/
theorem filter_revoke (rows : List Row) :
    ((rows.filter fun r => isRevokeRow r.row).filter fun r =>
        r.row.parsed.revoke.isSome ∧ r.row.createTime ≠ 0) =
      rows.filter fun r => r.row.parsed.revoke.isSome ∧ r.row.createTime ≠ 0 := by
  rw [List.filter_filter]
  refine List.filter_congr fun r _ => ?_
  cases hRevoke : r.row.parsed.revoke <;> simp [isRevokeRow, hRevoke]

theorem appliedCounts_news {news : List Event} {rows : List Row}
    (h : List.Forall₂ NewOf news rows) : appliedCounts news = (news.length, 0) := by
  induction h with
  | nil => rfl
  | cons hOne _ ih =>
    obtain ⟨ev, rfl, -⟩ := hOne
    simpa [appliedCounts] using ih

theorem appliedCounts_revokes {revokes : List Event} {rows : List Row}
    (h : List.Forall₂ RevokeOf revokes rows) : appliedCounts revokes = (0, revokes.length) := by
  induction h with
  | nil => rfl
  | cons hOne _ ih =>
    obtain ⟨ev, rfl, -⟩ := hOne
    simpa [appliedCounts] using ih

theorem appliedCounts_append (a b : List Event) : appliedCounts (a ++ b) =
    ((appliedCounts a).1 + (appliedCounts b).1, (appliedCounts a).2 + (appliedCounts b).2) := by
  simp [appliedCounts, List.countP_append]

/-- The events of phase 2: those of the stored rows, then the withdrawals. -/
theorem events_applyTo (p : Poll) (s : Store) :
    ∃ news, (p.applyTo s).2 = news ++ revokeEvents (p.applyTo s).1 p.revokeRows ∧
      List.Forall₂ EventOf news ((resolvedRows s p.newRows).filter fun sr => !sr.2.isSend) := by
  obtain ⟨news, hEvents, hNews⟩ :=
    events_foldl_applyNew p.newRows (setWatermarks s p.newWatermarks, [])
  obtain ⟨hContacts, hMe⟩ := contacts_setWatermarks s p.newWatermarks
  have hResolve : resolvedRows (setWatermarks s p.newWatermarks) p.newRows =
      resolvedRows s p.newRows := by
    rw [resolvedRows, resolvedRows, resolveRecord_congr hContacts hMe]
  rw [hResolve] at hNews
  rw [List.nil_append] at hEvents
  exact ⟨news, congrArg (· ++ _) hEvents, hNews⟩

/-- What phase 2 adds to a conversation. -/
theorem conv_applyTo (p : Poll) (s : Store) (u : String) : (p.applyTo s).1.conv u =
    s.conv u ++ ((resolvedRows s p.newRows).filter fun sr => sr.1 = u).map Prod.snd := by
  obtain ⟨hContacts, hMe⟩ := contacts_setWatermarks s p.newWatermarks
  have hConv := conv_foldl_applyNew p.newRows (setWatermarks s p.newWatermarks, []) u
  have hOld : (setWatermarks s p.newWatermarks).conv u = s.conv u := by
    rw [Store.conv, convs_setWatermarks, Store.conv]
  rw [resolveRecord_congr hContacts hMe, hOld] at hConv
  refine hConv.trans ?_
  rw [resolvedRows, List.filter_map, List.map_map]
  rfl

/-- The events of some rows that are queued. -/
theorem newOf_of_eventOf {s : Store} {rows : List Row} {news : List Event}
    (h : List.Forall₂ EventOf news
      ((resolvedRows s (rows.map fun r => (r.session, r.row))).filter fun sr => !sr.2.isSend)) :
    List.Forall₂ NewOf news (rows.filter fun r => !own s r) := by
  rw [resolvedRows, List.map_map, List.filter_map, List.forall₂_map_right_iff] at h
  refine h.imp fun e r hOf => ?_
  obtain ⟨st, rfl⟩ := hOf
  exact ⟨_, rfl, rfl, rfl, rfl, rfl, rfl⟩

/-- Phase 2 publishes and stores what is queued. -/
theorem pushed_applyTo {p : Poll} {rows : List Row} (h : Queued p rows) (s : Store)
    (before : List Event) : Pushed s before rows (appliedCounts (p.applyTo s).2) (p.applyTo s).1
      (before ++ (p.applyTo s).2) := by
  obtain ⟨news, hEvents, hStored⟩ := events_applyTo p s
  rw [h.newRows] at hStored
  have hNews := newOf_of_eventOf hStored
  have hRevokes := revokeEvents_of (p.applyTo s).1 (rows.filter fun r => isRevokeRow r.row)
  rw [← h.revokeRows, filter_revoke] at hRevokes
  refine ⟨⟨news, _, ?_, hNews, hRevokes, ?_⟩, fun u => ?_, fun k => ?_⟩
  · rw [hEvents, List.append_assoc]
  · rw [hEvents, appliedCounts_append, appliedCounts_news hNews, appliedCounts_revokes hRevokes,
      Nat.add_zero, Nat.zero_add]
  · rw [conv_applyTo, h.newRows, resolvedRows, List.map_map, List.filter_map, List.map_map]
    rfl
  · rw [watermark_applyTo, Poll.staged, h.newWatermarks, watermark_setWatermarks_rows]

/-! ## One poll -/

/-- What holds of the rows read since the poll began at `s`. -/
def Accounted (s : State) (tr : State × List Row) : Prop :=
  match tr.1.pc with
  | .files p _ | .tables p _ _ | .pages p _ _ _ _ _ | .apply p =>
      Queued p tr.2 ∧ tr.1.sync.store = s.sync.store ∧ tr.1.sync.published = s.sync.published
  | .reload _ counts _ | .book _ counts _ =>
      Pushed s.sync.store s.sync.published tr.2 counts tr.1.sync.store tr.1.sync.published
  | .idle => tr.1.sync.stopped = false → ∀ counts, tr.1.result = .ok counts →
      Pushed s.sync.store s.sync.published tr.2 counts tr.1.sync.store tr.1.sync.published

variable {x : Codec} {s t : State} {io : Io} {rows : List Row} {p : Poll} {todo : List Work}

theorem pushed_nil (s : Store) (before : List Event) : Pushed s before [] (0, 0) s before where
  events := ⟨[], [], by simp, .nil, .nil, rfl⟩
  convs u := by simp [storedRows]
  watermarks k := rfl

theorem Pushed.congr {old new new' : Store} {before after : List Event} {counts : Nat × Nat}
    (h : Pushed old before rows counts new after) (hConvs : new'.convs = new.convs)
    (hMarks : new'.watermarks = new.watermarks) : Pushed old before rows counts new' after where
  events := h.events
  convs u := by rw [Store.conv, hConvs, ← Store.conv, h.convs]
  watermarks k := by rw [Store.watermark, hMarks, ← Store.watermark, h.watermarks]

theorem accounted_poll (hIdle : s.pc = .idle) (pragmaOk : String → Bool) :
    Accounted s (s.poll pragmaOk, []) := by
  unfold State.poll
  dsimp only
  repeat' split
  · rename_i hStop
    simp [Accounted, hIdle, hStop]
  · simp only [Accounted, hIdle, Except.ok.injEq]
    rintro - counts rfl
    exact pushed_nil _ _
  · exact ⟨⟨rfl, rfl, rfl⟩, rfl, rfl⟩

theorem accounted_stepFiles (h : Accounted s (t, rows)) (hPc : t.pc = .files p todo) :
    Accounted s (t.stepFiles io p todo, rows) := by
  simp only [Accounted, hPc] at h
  obtain ⟨hQueued, hStore, hEvents⟩ := h
  unfold State.stepFiles
  repeat' split
  all_goals first
    | exact ⟨hQueued, hStore, hEvents⟩
    | exact ⟨hQueued.congr rfl rfl rfl, hStore, hEvents⟩

theorem accounted_stepTables {r : Reading} (h : Accounted s (t, rows)) (hPc : t.pc = .tables p todo r) :
    Accounted s (t.stepTables p todo r, rows) := by
  simp only [Accounted, hPc] at h
  obtain ⟨hQueued, hStore, hEvents⟩ := h
  unfold State.stepTables
  split
  · exact ⟨hQueued.congr rfl rfl rfl, hStore, hEvents⟩
  · exact ⟨hQueued, hStore, hEvents⟩

theorem accounted_stepPage {r : Reading} {tb : String × String} {wm : Watermark} {n : Nat}
    (h : Accounted s (t, rows)) (hPc : t.pc = .pages p todo r tb wm n) :
    Accounted s (t.stepPage x io p todo r tb wm n, rows ++ rowsRead x t (.tick io)) := by
  simp only [Accounted, hPc] at h
  obtain ⟨hQueued, hStore, hEvents⟩ := h
  simp only [rowsRead, hPc]
  unfold State.stepPage
  cases hPage : t.readPageOf x io r tb wm with
  | error e =>
    intro _ counts hCounts
    cases hCounts
  | ok page =>
    have hNext := hQueued.stageAll (tableSession x tb.2 t.sync.store) ⟨r.rel, tb.1⟩ page
    dsimp only
    repeat' split
    all_goals exact ⟨hNext, hStore, hEvents⟩

theorem accounted_stepApply (h : Accounted s (t, rows)) (hPc : t.pc = .apply p) :
    Accounted s (t.stepApply p, rows) := by
  simp only [Accounted, hPc] at h
  obtain ⟨hQueued, hStore, hEvents⟩ := h
  unfold State.stepApply
  split
  · rename_i hStop
    simp [Accounted, hStop]
  · have hPushed := pushed_applyTo hQueued s.sync.store s.sync.published
    simpa only [Accounted, hStore, hEvents] using hPushed

theorem accounted_stepReload {counts : Nat × Nat} (h : Accounted s (t, rows))
    (hPc : t.pc = .reload p counts todo) : Accounted s (t.stepReload x io p counts todo, rows) := by
  simp only [Accounted, hPc] at h
  have hSection : ∀ w db, Pushed s.sync.store s.sync.published rows counts
      (reloadSection x w db t.sync.store) t.sync.published := fun w db =>
    h.congr (convs_reloadSection x w db t.sync.store).1 (convs_reloadSection x w db t.sync.store).2
  unfold State.stepReload
  repeat' split
  · exact h
  · rename_i hStop
    simp [Accounted, hStop]
  · exact h
  · rename_i hStop
    simp [Accounted, hStop]
  · exact hSection _ _
  · exact h
  · exact h

theorem accounted_stepBook {counts : Nat × Nat} (h : Accounted s (t, rows))
    (hPc : t.pc = .book p counts todo) : Accounted s (t.stepBook io p counts todo, rows) := by
  simp only [Accounted, hPc] at h
  unfold State.stepBook
  repeat' split
  · intro _ counts' hCounts
    obtain rfl := Except.ok.inj hCounts
    exact h.congr rfl rfl
  all_goals exact h

/-- Every step of the poll keeps the account of the rows. -/
theorem accounted_step {op : Op} {tr ur : State × List Row} (h : Accounted s tr) (hOp : SamePoll tr op)
    (hStep : readingStep x tr op = some ur) : Accounted s ur := by
  obtain ⟨t, rows⟩ := tr
  obtain ⟨u, hNext, rfl⟩ := Option.map_eq_some_iff.mp hStep
  cases op with
  | poll pragmaOk => exact hOp.elim
  | commit rel stamps db =>
    obtain rfl := Option.some.inj hNext
    simp only [rowsRead, List.append_nil]
    exact h
  | setKeys keys =>
    simp only [step] at hNext
    split at hNext <;> cases hNext
    simp only [rowsRead, List.append_nil]
    exact h
  | stop =>
    obtain rfl := Option.some.inj hNext
    simp only [rowsRead, List.append_nil]
    unfold Accounted at h ⊢
    cases hPc : t.pc <;> simp only [hPc] at h ⊢
    case idle =>
      intro hRunning
      cases hRunning
    all_goals exact h
  | tick io =>
    have hTick : t.tick x io = some u := hNext
    have hNone : (∀ p todo r tb wm n, t.pc ≠ .pages p todo r tb wm n) →
        rows ++ rowsRead x t (.tick io) = rows := fun hNot => by
      rw [rowsRead]
      split
      · exact absurd ‹_› (hNot _ _ _ _ _ _)
      · exact List.append_nil rows
    unfold State.tick at hTick
    split at hTick
    · cases hTick
    all_goals
      rename_i hPc
      obtain rfl := Option.some.inj hTick
    · rw [hNone (by simp [hPc])]
      exact accounted_stepFiles h hPc
    · rw [hNone (by simp [hPc])]
      exact accounted_stepTables h hPc
    · exact accounted_stepPage h hPc
    · rw [hNone (by simp [hPc])]
      exact accounted_stepApply h hPc
    · rw [hNone (by simp [hPc])]
      exact accounted_stepReload h hPc
    · rw [hNone (by simp [hPc])]
      exact accounted_stepBook h hPc

/-- A poll that returns, whatever is committed meanwhile, publishes and stores the rows it
read. -/
theorem poll_pushes (hIdle : s.pc = .idle) (pragmaOk : String → Bool) {counts : Nat × Nat}
    (hRun : Runs.Run (readingStep x) SamePoll (s.poll pragmaOk, []) (t, rows))
    (hEnd : t.pc = .idle) (hOk : t.result = .ok counts) (hRunning : t.sync.stopped = false) :
    Pushed s.sync.store s.sync.published rows counts t.sync.store t.sync.published := by
  have h := hRun.invariant (accounted_poll hIdle pragmaOk) fun tr op ur => accounted_step
  simp only [Accounted, hEnd] at h
  exact h hRunning counts hOk

/-! ## A withdrawn message -/

/-- The first message was committed, and a poll begins. -/
def messageCommitted : State := (step digestOfU quietStart messageCommit).getD quietStart

def isTick : Op → Bool
  | .tick _ => true
  | _ => false

theorem samePoll_of_isTick (sr : State × List Row) (op : Op) (h : isTick op = true) :
    SamePoll sr op := by
  cases op <;> trivial

/-- Rows of the type of a withdrawal take back the message with the server id 51. -/
def withdrawals : Codec where
  md5Hex := digestOfU.md5Hex
  parseMessage row :=
    if row.localType = 10002 then
      { ParsedMsg.text "" with revoke := some ⟨some "51", none, none⟩ }
    else .text "hi"
  parseSnsFeed := digestOfU.parseSnsFeed

/-- A message, one of our own, and the withdrawal of the first. -/
def Db.withdrawn : Db where
  tables := [⟨"Msg_7b774effe4a349c6dd82ad4f4f21d34c", "sender_username" :: Increment.fullColumns,
    .messages [{ rowOf 1 1 with serverId := 51 }, { rowOf 2 1 with senderUsername := some "me" },
      rowOf 3 10002]⟩]
  names_nodup := List.nodup_singleton _
  ids_nodup := by decide
  ids_pos := by decide
  rowids_nodup := by simp [Table.uidRows]

/-- They were committed. -/
def withdrawnCommitted : State :=
  (step withdrawals (start withdrawals "me" (fun _ => some "") quietWorld {} 0)
    (.commit "m" ⟨none, none⟩ Db.withdrawn)).getD quietStart

/-- The poll has read them and returned. -/
def withdrawnPolled : State × List Row :=
  (Runs.exec (readingStep withdrawals) (fun _ => isTick)
    (withdrawnCommitted.poll fun _ => true, []) (List.replicate 10 (.tick {}))).getD
      (withdrawnCommitted, [])

theorem withdrawnPolled_run : Runs.Run (readingStep withdrawals) SamePoll
    (withdrawnCommitted.poll fun _ => true, []) withdrawnPolled :=
  Runs.run_of_exec (List.replicate 10 (.tick {})) samePoll_of_isTick rfl

theorem poll_pushes_withdrawn : withdrawnPolled.2.length = 3 ∧
    withdrawnPolled.1.sync.published.length = 2 ∧
    Pushed withdrawnCommitted.sync.store withdrawnCommitted.sync.published withdrawnPolled.2 (1, 1)
      withdrawnPolled.1.sync.store withdrawnPolled.1.sync.published :=
  ⟨by decide, by decide, poll_pushes rfl (fun _ => true) withdrawnPolled_run rfl rfl rfl⟩

end Weflow.Sync
