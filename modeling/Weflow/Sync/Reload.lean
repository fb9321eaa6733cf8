import Weflow.Store.Rebuilt
import Weflow.Sync.SessionKeys

/-!
# Section reloads along a run

The sections of the store against a build of the contents that were read last, after a full sync
and any steps. `fresh_step_iff` says for every step exactly when the two stay equal: a reload must
not have to delete anything or to count messages, and a poll must not store rows of a listed
session. `reload_resets_message_count` is a run where one reload of an unchanged session file is
enough for the two to differ.
-/

namespace Weflow

/-- A reload of that kind of work has read a new content. -/
def Contents.read (c : Contents) (w : Sync.Work) (db : Db) : Contents :=
  match w with
  | .sessions _ => { c with session := db }
  | .contacts _ => { c with contact := db }
  | .groupMeta _ => { c with contactFts := db }
  | _ => c

namespace Sync

/-- The contents that were read last, after a step. -/
def lastRead (s : State) (c : Contents) : Op → Contents
  | .tick io => ((s.reloads io).map fun wdb => c.read wdb.1 wdb.2).getD c
  | _ => c

/-- A step, with the contents that were read last. -/
def trackedStep (x : Codec) (sc : State × Contents) (op : Op) : Option (State × Contents) :=
  (step x sc.1 op).map fun t => (t, lastRead sc.1 sc.2 op)

/-- The reload of a section agrees with a build of it. -/
def SectionKept (w : Work) (db : Db) (s : Store) : Prop :=
  match w with
  | .sessions _ => SessionsKept db s
  | .contacts _ => ContactsKept db s
  | .groupMeta _ => CardsKept db s
  | _ => True

/-- The poll stores no row of a session that is listed, and a reload agrees with a build. -/
def ReloadOk (s : State) : Op → Prop
  | .tick io =>
    (∀ p, s.pc = .apply p → s.sync.stopped = false → ∀ sr ∈ p.newRows,
      sr.1 ∉ s.sync.store.sessions) ∧
    ∀ w db, s.reloads io = some (w, db) → SectionKept w db s.sync.store
  | _ => True

section

variable {x : Codec} {s t : State} {io : Io} {c : Contents}

/-! ## What a step does to the sections -/

theorem fresh_reloadSection_iff {store : Store} (h : Fresh c store) (w : Work) (db : Db) :
    Fresh (c.read w db) (reloadSection x w db store) ↔ SectionKept w db store := by
  cases w with
  | sessions f => exact fresh_loadSessions_iff h
  | contacts f => exact fresh_loadContacts_iff h
  | groupMeta f => exact fresh_loadGroupCards_iff h
  | messages f => exact ⟨fun _ => trivial, fun _ => h⟩
  | sns f =>
    refine ⟨fun _ => trivial, fun _ => ?_⟩
    refine (h.iff_counts (.loadSns x db store)).mpr fun u _ => ?_
    change (((loadSns x db store).convs.lookup u).getD []).length = _
    rw [(loadSns_frame db store x).1]
    rfl

/-- Applying rows touches the conversations only, and makes each longer by its own rows. -/
theorem unchanged_applyTo (p : Poll) (store : Store) : Unchanged store (p.applyTo store).1 := by
  have hMarks : Unchanged store (setWatermarks store p.newWatermarks) :=
    List.foldlRecOn _ _ (.refl store) fun s h kw _ => h.trans ⟨rfl, rfl, rfl, rfl, rfl⟩
  have hRows : Unchanged (setWatermarks store p.newWatermarks)
      (p.newRows.foldl applyNew (setWatermarks store p.newWatermarks, [])).1 :=
    List.foldlRecOn (motive := fun se : Store × List Event =>
        Unchanged (setWatermarks store p.newWatermarks) se.1)
      _ _ (.refl _) fun se h sr _ => h.trans ⟨rfl, rfl, rfl, rfl, rfl⟩
  exact hMarks.trans hRows

theorem convCount_foldl_applyNew (rows : List (String × MessageRecord))
    (se : Store × List Event) (u : String) : (rows.foldl applyNew se).1.convCount u =
      se.1.convCount u + rows.countP fun sr => sr.1 = u := by
  induction rows generalizing se with
  | nil => rfl
  | cons sr rows ih =>
    rw [List.foldl_cons, ih, List.countP_cons]
    have hOne : (applyNew se sr).1.convCount u =
        se.1.convCount u + if sr.1 = u then 1 else 0 := by
      change (((se.1.extendConv sr.1 [resolveRecord se.1 sr.2]).conv u).length) = _
      by_cases hKey : sr.1 = u
      · subst hKey
        rw [Store.conv_extendConv, List.length_append, if_pos rfl]
        rfl
      · rw [Store.conv_extendConv_ne _ _ fun h => hKey h.symm, if_neg hKey]
        rfl
    rw [hOne]
    simp only [decide_eq_true_eq]
    omega

theorem convCount_applyTo (p : Poll) (store : Store) (u : String) :
    (p.applyTo store).1.convCount u =
      store.convCount u + p.newRows.countP fun sr => sr.1 = u := by
  have h := convCount_foldl_applyNew p.newRows (setWatermarks store p.newWatermarks, []) u
  have hSame : (setWatermarks store p.newWatermarks).convCount u = store.convCount u := by
    simp only [Store.convCount, Store.conv, convs_setWatermarks]
  exact h.trans (by rw [hSame])

theorem fresh_applyTo_iff {store : Store} (h : Fresh c store) (p : Poll) :
    Fresh c (p.applyTo store).1 ↔ ∀ sr ∈ p.newRows, sr.1 ∉ store.sessions := by
  rw [h.iff_counts (unchanged_applyTo p store)]
  simp only [convCount_applyTo, Nat.add_eq_left, List.countP_eq_zero, decide_eq_true_eq]
  constructor
  · exact fun hNone sr hsr hMem => hNone sr.1 hMem sr hsr rfl
  · rintro hNone u hu sr hsr rfl
    exact hNone sr hsr hu

/-- A step applies rows, reloads a section, or leaves the sections and conversations alone. -/
theorem store_tick (h : s.tick x io = some t) :
    (∃ p, s.pc = .apply p ∧ s.sync.stopped = false ∧ s.reloads io = none ∧
      t.sync.store = (p.applyTo s.sync.store).1) ∨
    (∃ w db, s.reloads io = some (w, db) ∧ (∀ p, s.pc ≠ .apply p) ∧
      t.sync.store = reloadSection x w db s.sync.store) ∨
    ((∀ p, s.pc = .apply p → s.sync.stopped = true) ∧ s.reloads io = none ∧
      (t.sync.store = s.sync.store ∨ t.sync.store = s.sync.store.markIndexBuilt io.nowMs)) := by
  unfold State.tick at h
  cases hPc : s.pc with
  | idle => simp [hPc] at h
  | files p todo =>
    rw [hPc] at h
    obtain rfl := Option.some.inj h
    refine .inr (.inr ⟨fun p hp => (by cases hp), by simp [State.reloads, hPc], .inl ?_⟩)
    unfold State.stepFiles
    repeat' split
    all_goals rfl
  | tables p todo r =>
    rw [hPc] at h
    obtain rfl := Option.some.inj h
    refine .inr (.inr ⟨fun p hp => (by cases hp), by simp [State.reloads, hPc], .inl ?_⟩)
    unfold State.stepTables
    split <;> rfl
  | pages p todo r tab wm n =>
    rw [hPc] at h
    obtain rfl := Option.some.inj h
    refine .inr (.inr ⟨fun p hp => (by cases hp), by simp [State.reloads, hPc], .inl ?_⟩)
    unfold State.stepPage
    split
    · rfl
    · dsimp only
      repeat' split
      all_goals rfl
  | apply p =>
    rw [hPc] at h
    obtain rfl := Option.some.inj h
    have hNone : s.reloads io = none := by simp [State.reloads, hPc]
    cases hStopped : s.sync.stopped with
    | true =>
      refine .inr (.inr ⟨fun _ _ => rfl, hNone, .inl ?_⟩)
      simp [State.stepApply, hStopped]
    | false =>
      refine .inl ⟨p, rfl, rfl, hNone, ?_⟩
      simp [State.stepApply, hStopped]
  | reload p counts todo =>
    rw [hPc] at h
    obtain rfl := Option.some.inj h
    have hStore := @store_stepReload x s io p counts todo hPc
    cases hReloads : s.reloads io with
    | none =>
      rw [hReloads] at hStore
      exact .inr (.inr ⟨fun p hp => (by cases hp), rfl, .inl hStore⟩)
    | some wdb =>
      rw [hReloads] at hStore
      exact .inr (.inl ⟨wdb.1, wdb.2, rfl, fun p hp => (by cases hp), hStore⟩)
  | book p counts todo =>
    rw [hPc] at h
    obtain rfl := Option.some.inj h
    refine .inr (.inr ⟨fun p hp => (by cases hp), by simp [State.reloads, hPc], ?_⟩)
    unfold State.stepBook
    repeat' split
    · exact .inr rfl
    all_goals exact .inl rfl

/-- **One step.** The sections stay those of a build of what was read last if and only if the step
has nothing to delete and nothing to count. -/
theorem fresh_step_iff (h : Fresh c s.sync.store) {op : Op} (hStep : step x s op = some t) :
    Fresh (lastRead s c op) t.sync.store ↔ ReloadOk s op := by
  cases op with
  | commit rel stamps db =>
    obtain rfl := Option.some.inj hStep
    exact ⟨fun _ => trivial, fun _ => h⟩
  | stop =>
    obtain rfl := Option.some.inj hStep
    exact ⟨fun _ => trivial, fun _ => h⟩
  | setKeys keys =>
    simp only [step] at hStep
    split at hStep <;> cases hStep
    exact ⟨fun _ => trivial, fun _ => h⟩
  | poll pragmaOk =>
    simp only [step] at hStep
    split at hStep
    · cases hStep
      refine ⟨fun _ => trivial, fun _ => ?_⟩
      unfold State.poll
      dsimp only
      repeat' split
      all_goals exact h
    · cases hStep
  | tick io =>
    rcases store_tick hStep with ⟨p, hPc, hRunning, hNone, hStore⟩ | ⟨w, db, hReloads, hPc, hStore⟩ |
      ⟨hStopped, hNone, hStore⟩
    · rw [lastRead, hNone, hStore]
      refine (fresh_applyTo_iff h p).trans ?_
      constructor
      · intro hRows
        refine ⟨fun p' hp' _ => ?_, fun w db hw => ?_⟩
        · obtain rfl := Pc.apply.inj (hPc.symm.trans hp')
          exact hRows
        · rw [hNone] at hw
          cases hw
      · exact fun hOk => hOk.1 p hPc hRunning
    · rw [lastRead, hReloads, hStore]
      refine (fresh_reloadSection_iff h w db).trans ?_
      constructor
      · intro hKept
        refine ⟨fun p hp _ => absurd hp (hPc p), fun w' db' hw' => ?_⟩
        obtain ⟨rfl, rfl⟩ := Prod.mk.inj (Option.some.inj (hReloads.symm.trans hw'))
        exact hKept
      · exact fun hOk => hOk.2 w db hReloads
    · rw [lastRead, hNone]
      have hFresh : Fresh c t.sync.store := by
        rcases hStore with hEq | hEq
        · exact hEq ▸ h
        · rw [hEq]
          exact ⟨h.sessions, h.contacts, h.owners, h.rosters, h.cards⟩
      refine ⟨fun _ => ⟨fun p hp hRunning => ?_, fun w db hw => ?_⟩, fun _ => hFresh⟩
      · rw [hStopped p hp] at hRunning
        cases hRunning
      · rw [hNone] at hw
        cases hw

end

/-- The sections are those of what was read last. -/
def UpToDate (sc : State × Contents) : Prop := Fresh sc.2 sc.1.sync.store

/-- **Reload equals rebuild.** After a full sync that could read everything and any steps that have
nothing to delete and nothing to count, the sections are those of a build of the contents that
were read last. -/
theorem reload_eq_rebuild (x : Codec) (wxid : String) (keys : KeyMap) (w : World) (nowMs : Int)
    (hKeys : ∀ f ∈ w.files, keys f.rel = some f.key) {sc : State × Contents}
    (hRun : Runs.Run (trackedStep x) (fun sc op => ReloadOk sc.1 op)
      (start x wxid keys w {} nowMs, w.contents) sc) : UpToDate sc := by
  have hStart : UpToDate (start x wxid keys w {} nowMs, w.contents) := by
    have hBuild : Fresh w.contents (buildAllLive x wxid keys w {} {} nowMs).2 :=
      fresh_quietBuild hKeys nowMs
    exact ⟨hBuild.sessions, hBuild.contacts, hBuild.owners, hBuild.rosters, hBuild.cards⟩
  refine hRun.invariant hStart fun sc op u h hOk hStep => ?_
  obtain ⟨t, hTick, rfl⟩ := Option.map_eq_some_iff.mp hStep
  exact (fresh_step_iff h hTick).mpr hOk

/-! ## Two reloads of a session file -/

/-- A reload of a session file that lists every session that is held, and none that has messages;
no other reload, and no row of a listed session. -/
def reloadsQuietly (sc : State × Contents) : Op → Bool
  | .tick io =>
    (match sc.1.pc with
      | .apply p => p.newRows.all fun sr => (sc.1.sync.store.sessions.lookup sr.1).isNone
      | _ => true) &&
    match sc.1.reloads io with
    | some (.sessions _, db) =>
      (sc.1.sync.store.sessions.keys.all fun u =>
        (listedSessions db).any fun y => y.username = u) &&
      (listedSessions db).all fun y => sc.1.sync.store.convCount y.username = 0
    | some _ => false
    | none => true
  | _ => true

theorem reloadOk_of_reloadsQuietly (sc : State × Contents) (op : Op)
    (h : reloadsQuietly sc op = true) : ReloadOk sc.1 op := by
  cases op with
  | tick io =>
    simp only [reloadsQuietly, Bool.and_eq_true] at h
    obtain ⟨hApply, hReload⟩ := h
    constructor
    · intro p hp _ sr hsr
      rw [hp, List.all_eq_true] at hApply
      have hNone := hApply sr hsr
      rw [Option.isNone_iff_eq_none, AList.lookup_eq_none] at hNone
      exact hNone
    · intro w db hw
      rw [hw] at hReload
      cases w with
      | sessions f =>
        simp only [Bool.and_eq_true, List.all_eq_true, List.any_eq_true, decide_eq_true_eq]
          at hReload
        exact hReload
      | _ => cases hReload
  | _ => trivial

/-- The session is listed, and a poll reloads the session file. -/
def sessionReload : List Op := sessionCommit :: pollOf 7

def quietTracked : State × Contents := (quietStart, quietWorld.contents)

def afterReload : State × Contents :=
  (Runs.exec (trackedStep digestOfU) reloadsQuietly quietTracked sessionReload).getD quietTracked

theorem reload_eq_rebuild_session : UpToDate afterReload :=
  reload_eq_rebuild digestOfU "" (fun _ => some "") quietWorld 0
    (fun f hf => by rcases List.mem_pair.mp hf with rfl | rfl <;> rfl)
    (Runs.run_of_exec sessionReload reloadOk_of_reloadsQuietly rfl)

/-- A session file that lists `u`, and a message file with one message of it. -/
def chatWorld : World where
  files := [⟨⟨"m", .message⟩, "", ⟨none, none⟩, 0, Db.ofU [rowOf 1 1] oneRow_ids oneRow_pos⟩,
    ⟨⟨"s", .session⟩, "", ⟨none, none⟩, 0, Db.listing ["u"]⟩]
  rels_nodup := by decide

def chatTracked : State × Contents :=
  (start digestOfU "" (fun _ => some "") chatWorld {} 0, chatWorld.contents)

def afterChatReload : State × Contents :=
  (Runs.exec (trackedStep digestOfU) (fun _ _ => true) chatTracked sessionReload).getD chatTracked

/-- The session file is written again as it is; the reload sets the count of one message to
zero. -/
theorem reload_resets_message_count :
    ¬ ∀ sc, Runs.Run (trackedStep digestOfU) (fun _ _ => True) chatTracked sc → UpToDate sc := by
  intro h
  have hExec : Runs.exec (trackedStep digestOfU) (fun _ _ => true) chatTracked sessionReload =
    some afterChatReload := rfl
  have hRun : Runs.Run (trackedStep digestOfU) (fun _ _ => True) chatTracked afterChatReload :=
    Runs.run_of_exec sessionReload (fun _ _ _ => trivial) hExec
  have hCount := congrArg (Option.map Session.messageCount) ((h afterChatReload hRun).sessions "u")
  have hZero : (afterChatReload.1.sync.store.sessions.lookup "u").map Session.messageCount =
      some 0 := by decide +kernel
  have hOne : ((rebuilt afterChatReload.2 afterChatReload.1.sync.store.convs).sessions.lookup
      "u").map Session.messageCount = some 1 := by decide +kernel
  rw [hZero, hOne] at hCount
  cases hCount

end Sync

end Weflow
