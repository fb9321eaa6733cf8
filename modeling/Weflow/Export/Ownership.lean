import Weflow.Export.Accounting

/-!
# Whose file a directory keeps

Over many calls of `run` on one directory, the index goes on attributing every delivered file to
its talker as long as every call keeps what the index attributes (`Keeps`): it exports or reuses
every recorded session under its name, or refuses another one over its file, or it writes no index
and delivers nothing new. Then no session is refused over a file delivered for it
(`ownership_kept`). A call for some of the sessions drops the others, and `subset_forgets` is what
becomes of them.
-/

namespace Weflow.Export

open Effects
open Json (Value)

variable {K : Type} [DecidableEq K] (H : Host K)

/-! ## Calls that keep the entries -/

section Keeps

variable (targets : List SessionTarget) (opts : Options) (env : CallEnv) (d : Files.Disk K)

/-- Target `i` has its turn under this name. -/
def Turn (i : Nat) (target : SessionTarget) (stem : String) : Prop :=
  targets[i]? = some target ∧ (stemsOf H targets opts (previousIndex H opts d))[i]? = some stem

/-- It is exported, unless its verdict is an error. -/
def OpenTurn (i : Nat) (target : SessionTarget) (stem : String) : Prop :=
  Turn H targets opts d i target stem ∧ Open H opts (previousIndex H opts d) d target stem

/-- The file of a resumed session can be kept. -/
def ReuseTurn (i : Nat) (target : SessionTarget) (stem : String) : Prop :=
  Turn H targets opts d i target stem ∧ opts.resume = true ∧
    (d (H.key (opts.path H stem))).isSome = true ∧
    reusable H opts (previousIndex H opts d) target stem (opts.path H stem) d = true

/-- The name goes on being attributed to the talker: its session is exported under it or reused, or
another session is refused over it, and its own is not exported. -/
def Kept (talker f : String) : Prop :=
  (∃ i target stem, target.talker = talker ∧ fileName stem opts.format = f ∧
    (ReuseTurn H targets opts d i target stem ∨
      OpenTurn H targets opts d i target stem ∧
        verdictOf H opts env d i target stem = .ok ())) ∨
  opts.resume = false ∧
    (∃ i target stem, Turn H targets opts d i target stem ∧ target.talker ≠ talker ∧
      (d (H.key (opts.path H stem))).isSome = true ∧
      (previousIndex H opts d).owner (fileName stem opts.format) = some talker) ∧
    ¬ ∃ j target stem, target.talker = talker ∧ OpenTurn H targets opts d j target stem ∧
      verdictOf H opts env d j target stem = .ok ()

/-- Neither of the two files of the index can be written over. -/
def IndexBlocked : Prop :=
  (env.indexFault.fails || Files.isDirectory (d (H.key (opts.join H indexPartName))) ||
    env.indexRenameFails || Files.isDirectory (d (H.key (opts.join H indexName)))) = true

/-- Nothing keeps the call from writing its index: no session holds the secret, and no index made
of the recorded entries and those of the sessions it writes does. -/
structure Indexes : Prop where
  directory : env.createDirFails = false
  quiet : ∀ i target stem, OpenTurn H targets opts d i target stem →
    verdictOf H opts env d i target stem ≠ .error .secretLeak
  free : ¬ IndexBlocked H opts env d
  clean : ∀ rows : List Value, (∀ row ∈ rows,
      (∃ talker, (talker, row) ∈ previousIndex H opts d) ∨
      ∃ i target stem, OpenTurn H targets opts d i target stem ∧
        verdictOf H opts env d i target stem = .ok () ∧
        row = indexRow target (fileName stem opts.format) (countOf H opts env i) opts.withMedia) →
    leaks H.json (H.json.render (indexDocument rows env.now)) opts.secret = false

/-- A call that loses no attribution. -/
inductive Keeps : Prop
  | nothing (hFails : env.createDirFails = true)
  | indexed (hIndexes : Indexes H targets opts env d)
      (hKept : ∀ talker row f, (talker, row) ∈ previousIndex H opts d → fileOf row = some f →
        Kept H targets opts env d talker f)
  | unindexed (hFails : IndexBlocked H opts env d ∨ ∃ i target stem,
        OpenTurn H targets opts d i target stem ∧
          verdictOf H opts env d i target stem = .error .secretLeak)
      (hIdle : ∀ i target stem, OpenTurn H targets opts d i target stem →
        verdictOf H opts env d i target stem = .ok () →
        (previousIndex H opts d).file target.talker = some (fileName stem opts.format))

end Keeps

/-- What a call delivers: the talker and the file of every session that is written. -/
def deliveries (targets : List SessionTarget) (opts : Options) (env : CallEnv)
    (d : Files.Disk K) : List (String × String) :=
  (((run H targets opts env).result d).2.filter (·.fate.isWritten)).map
    fun rep => (rep.target.talker, fileName rep.stem opts.format)

/-- Calls on one directory that meet a condition, with all they have delivered. -/
inductive Calls (dir : Paths.Path)
    (C : List SessionTarget → Options → CallEnv → Files.Disk K → Prop) :
    List (String × String) → Files.Disk K → Prop
  | start (d : Files.Disk K) (hNone : d (nameKey H dir indexName) = none) : Calls dir C [] d
  | call (log : List (String × String)) (d : Files.Disk K) (targets : List SessionTarget)
      (opts : Options) (env : CallEnv) (hCalls : Calls dir C log d) (hDir : opts.outDir = dir)
      (hTalkers : (targets.map (·.talker)).Nodup) (hMeets : C targets opts env d) :
      Calls dir C (log ++ deliveries H targets opts env d) ((run H targets opts env).after d)

/-! ## The index after a call -/

section After

variable {H} {targets : List SessionTarget} {opts : Options} {env : CallEnv} {d : Files.Disk K}

/-- The sessions leave the files of the index alone. -/
theorem sessionsDisk_index (targets : List SessionTarget) (env : CallEnv)
    (hSound : (previousIndex H opts d).Sound) :
    sessionsDisk H targets opts env d (H.key (opts.join H indexName)) =
        d (H.key (opts.join H indexName)) ∧
      sessionsDisk H targets opts env d (H.key (opts.join H indexPartName)) =
        d (H.key (opts.join H indexPartName)) := by
  have hNamed := lastRound_named targets env hSound
  have hPlace := (rounds_holds H targets opts env (previousIndex H opts d) d).kept
  constructor
  · cases hPlace (H.key (opts.join H indexName)) with
    | same hSame => exact hSame
    | part rep hRep hKey hGone =>
      exact absurd hKey.symm (key_part_ne_index H (hNamed.stem rep hRep).1)
    | delivered rep n bytes hRep hFate hKey hFile hDelivered =>
      exact absurd hKey.symm
        (key_file_ne_index H (hNamed.stem rep hRep).1 (hNamed.stem rep hRep).2 _)
  · cases hPlace (H.key (opts.join H indexPartName)) with
    | same hSame => exact hSame
    | part rep hRep hKey hGone =>
      exact absurd hKey.symm
        (key_part_ne_indexPart H (hNamed.stem rep hRep).1 (hNamed.stem rep hRep).2)
    | delivered rep n bytes hRep hFate hKey hFile hDelivered =>
      exact absurd hKey.symm (key_file_ne_indexPart H (hNamed.stem rep hRep).1 _)

theorem writeIndex_result (rows : List Value) :
    (writeIndex H opts rows env).result d =
      if leaks H.json (H.json.render (indexDocument rows env.now)) opts.secret = true then
        .error .secretLeak
      else if (env.indexFault.fails || Files.isDirectory (d (H.key (opts.join H indexPartName))) ||
          env.indexRenameFails || Files.isDirectory (d (H.key (opts.join H indexName)))) = true then
        .error .other
      else .ok (opts.join H indexName) := by
  have hNe : H.key (opts.join H indexName) ≠ H.key (opts.join H indexPartName) :=
    (key_indexPart_ne_index H opts).symm
  have hWrite : (Files.write H.key (none : Option String) env.indexFault (opts.join H indexPartName)
      (Utf8.encode (H.json.render (indexDocument rows env.now)).toList)).result d =
      !(env.indexFault.fails || Files.isDirectory (d (H.key (opts.join H indexPartName)))) :=
    Files.write_result env.indexFault
  rw [writeIndex]
  dsimp only
  by_cases hLeak : leaks H.json (H.json.render (indexDocument rows env.now)) opts.secret = true
  · rw [if_pos hLeak, if_pos hLeak]
    rfl
  rw [if_neg hLeak, if_neg hLeak, Act.result_bind]
  cases hFault : env.indexFault.fails ||
      Files.isDirectory (d (H.key (opts.join H indexPartName))) with
  | true =>
    rw [hFault, Bool.not_true] at hWrite
    rw [hWrite, if_neg (by simp)]
    rfl
  | false =>
    rw [hFault, Bool.not_false] at hWrite
    rw [hWrite, if_pos rfl, Act.result_bind, Files.write_after hWrite, Files.rename_result,
      Function.update_self, Function.update_of_ne hNe, Files.isFile, Bool.not_true, Bool.or_false,
      Bool.false_or]
    cases env.indexRenameFails || Files.isDirectory (d (H.key (opts.join H indexName))) <;> rfl

/-- A run whose sessions are over returns what the writing of its index does. -/
theorem run_returns (hDir : env.createDirFails = false)
    (hEnd : ((rounds H targets opts env (previousIndex H opts d)).result d).1 = false) :
    ((run H targets opts env).result d).1.map (·.index) =
      (writeIndex H opts (lastRound H targets opts env d).indexRows env).result
        (sessionsDisk H targets opts env d) := by
  rw [run, hDir, if_neg (by simp), Act.result_look_bind]
  dsimp only
  rw [lastRound, sessionsDisk]
  rw [rounds] at hEnd ⊢
  rw [Act.result_bind, hEnd, if_neg (by simp), Act.result_bind]
  cases (writeIndex H opts _ env).result _ with
  | error e => rfl
  | ok path => rfl

/-- A run that returns has begun, and its sessions have ended. -/
theorem run_ended {out : Outcome} (hOk : ((run H targets opts env).result d).1 = .ok out) :
    env.createDirFails = false ∧
      ((rounds H targets opts env (previousIndex H opts d)).result d).1 = false := by
  have hEnd := run_end H targets opts env d
  generalize (run H targets opts env).ops d = ops at hEnd
  generalize hResult : (run H targets opts env).result d = result at hEnd hOk
  cases hEnd with
  | noDirectory => cases hOk
  | leaked => cases hOk
  | unindexed => cases hOk
  | indexed path ops hLast hIndexEnd =>
    refine ⟨?_, hLast⟩
    by_contra hFails
    rw [Bool.not_eq_false] at hFails
    rw [run, if_pos hFails, Act.result_pure] at hResult
    cases hResult

/-- When the sessions have ended, none of them held the secret. -/
theorem rounds_clean
    (hEnd : ((rounds H targets opts env (previousIndex H opts d)).result d).1 = false) :
    ∀ rep ∈ (lastRound H targets opts env d).reports, rep.fate ≠ .failed .secretLeak := by
  rcases exportTargets_stop H opts (if opts.resume then previousIndex H opts d else [])
    (previousIndex H opts d) env.session 0 (.start (seedTaken H.lower
      (if opts.resume then previousIndex H opts d else []))) d (by simp [Round.start]) targets
    with ⟨hTrue, -⟩ | ⟨-, hClean, -⟩
  · rw [rounds] at hEnd
    rw [hEnd] at hTrue
    cases hTrue
  · exact hClean

/-- A call that meets `Indexes` returns. -/
theorem Indexes.returns (h : Indexes H targets opts env d)
    (hRecorded : Recorded H opts.outDir False d) (hTalkers : (targets.map (·.talker)).Nodup) :
    ∃ out, ((run H targets opts env).result d).1 = .ok out := by
  obtain ⟨-, hSound⟩ := hRecorded.entries
  have hGoing := lastRound_going env hSound hTalkers
  have hEnd : ((rounds H targets opts env (previousIndex H opts d)).result d).1 = false := by
    rcases exportTargets_stop H opts (if opts.resume then previousIndex H opts d else [])
      (previousIndex H opts d) env.session 0 (.start (seedTaken H.lower
        (if opts.resume then previousIndex H opts d else []))) d (by simp [Round.start]) targets
      with ⟨-, rep, hRep, hLeak⟩ | ⟨hFalse, -⟩
    · obtain ⟨i, hGet⟩ := List.mem_iff_getElem?.mp hRep
      obtain ⟨hOpen, hVerdict⟩ := (hGoing.fates i rep hGet).failed_iff.mp hLeak
      exact absurd hVerdict (h.quiet i rep.target rep.stem ⟨lastRound_report hGet, hOpen⟩)
    · exact hFalse
  have hReturns := run_returns h.directory hEnd
  obtain ⟨hIndex, hPart⟩ := sessionsDisk_index targets env hSound
  have hFree := h.free
  rw [IndexBlocked] at hFree
  rw [writeIndex_result, hIndex, hPart, if_neg hFree, h.clean _ ?_, if_neg (by simp)] at hReturns
  · cases hResult : ((run H targets opts env).result d).1 with
    | ok out => exact ⟨out, rfl⟩
    | error e =>
      rw [hResult] at hReturns
      cases hReturns
  · intro row hRow
    have hKeyed : ((previousIndex H opts d).map (·.1)).Pairwise (· < ·) := parseIndex_keyed _ _
    obtain ⟨hFrom, -⟩ := (lastRound_stands targets hRecorded False.elim).2.2 row hRow
    cases hFrom with
    | delivered rep n hRep hFate hIs =>
      obtain ⟨i, hGet⟩ := List.mem_iff_getElem?.mp hRep
      have hOf := hGoing.fates i rep hGet
      obtain ⟨hOpen, hVerdict⟩ := hOf.written_iff.mp (by rw [hFate]; rfl)
      rw [hOf.count hFate] at hIs
      exact .inr ⟨i, rep.target, rep.stem, ⟨lastRound_report hGet, hOpen⟩, hVerdict, hIs⟩
    | reused rep hRep hFate hResume hIs hFile =>
      rw [hResume, if_pos rfl] at hIs
      exact .inl ⟨_, (Index.row_iff hKeyed).mp hIs⟩
    | carried rep talker hRep hFate hFirst hOwner hIs =>
      exact .inl ⟨talker, (Index.row_iff hKeyed).mp hIs⟩

/-- A talker with one row has it in the index that is read next. -/
theorem file_after {out : Outcome} (hRecorded : Recorded H opts.outDir False d)
    (hOk : ((run H targets opts env).result d).1 = .ok out)
    (hApart : ((lastRound H targets opts env d).indexRows.map talkerOf).Nodup) {row : Value}
    {talker f : String} (hRow : row ∈ (lastRound H targets opts env d).indexRows)
    (hTalker : talkerOf row = some talker) (hFile : fileOf row = some f) :
    (previousIndex H opts ((run H targets opts env).after d)).file talker = some f := by
  have hIndex : previousIndex H opts ((run H targets opts env).after d) = _ :=
    previousIndex_after hRecorded False.elim hOk rfl
  have hMem : (talker, row) ∈ (lastRound H targets opts env d).indexRows.filterMap fun row =>
      (talkerOf row).map (·, row) :=
    List.mem_filterMap.mpr ⟨row, hRow, by rw [hTalker]; rfl⟩
  rw [hIndex, Index.file, Index.row, Json.find_ordered]
  cases hFind : ((lastRound H targets opts env d).indexRows.filterMap fun row =>
      (talkerOf row).map (·, row)).reverse.find? (·.1 == talker) with
  | none =>
    have hNone := List.find?_eq_none.mp hFind _ (List.mem_reverse.mpr hMem)
    simp at hNone
  | some e =>
    have hKey : e.1 = talker := by simpa using List.find?_some hFind
    obtain ⟨row', hRow', hPair⟩ :=
      List.mem_filterMap.mp (List.mem_reverse.mp (List.mem_of_find?_eq_some hFind))
    obtain ⟨talker', hTalker', rfl⟩ := Option.map_eq_some_iff.mp hPair
    have hSame : row' = row := List.inj_on_of_nodup_map hApart hRow' hRow (by
      rw [hTalker, hTalker', ← hKey])
    rw [hSame]
    exact hFile

/-- A call that returns no outcome leaves the index as it was. -/
theorem index_kept (hSound : (previousIndex H opts d).Sound)
    (hError : ∀ out, ((run H targets opts env).result d).1 ≠ .ok out) :
    previousIndex H opts ((run H targets opts env).after d) = previousIndex H opts d := by
  have hSessions : sessionsDisk H targets opts env d (H.key (opts.join H indexName)) =
      d (H.key (opts.join H indexName)) := (sessionsDisk_index targets env hSound).1
  have hSame : (run H targets opts env).after d (H.key (opts.join H indexName)) =
      d (H.key (opts.join H indexName)) := by
    have hAfter : (run H targets opts env).after d =
        replay (Files.effects _ H.key) d ((run H targets opts env).ops d) := rfl
    have hEnd := run_end H targets opts env d
    rw [hAfter]
    generalize (run H targets opts env).ops d = ops at hEnd ⊢
    generalize (run H targets opts env).result d = result at hEnd hError
    cases hEnd with
    | noDirectory => rfl
    | leaked => exact hSessions
    | unindexed e ops hLast hIndexEnd =>
      cases hIndexEnd with
      | failed _ _ hPart =>
        rw [replay_append]
        refine (Files.replay_frame fun o ho p hp => ?_).trans hSessions
        rw [(hPart o ho).2, List.mem_singleton] at hp
        rw [hp]
        exact key_indexPart_ne_index H opts
    | indexed path ops hLast hIndexEnd => exact absurd rfl (hError _)
  rw [previousIndex, hSame, previousIndex]

theorem mem_deliveries {talker f : String} : (talker, f) ∈ deliveries H targets opts env d ↔
    ∃ rep ∈ ((run H targets opts env).result d).2, rep.fate.isWritten = true ∧
      rep.target.talker = talker ∧ fileName rep.stem opts.format = f := by
  simp only [deliveries, List.mem_map, List.mem_filter, Prod.mk.injEq, and_assoc]

/-- A turn has its report when all targets are reported. -/
theorem Turn.report {i : Nat} {target : SessionTarget} {stem : String}
    (h : Turn H targets opts d i target stem)
    (hAll : (lastRound H targets opts env d).reports.map (·.target) = targets) :
    ∃ rep, (lastRound H targets opts env d).reports[i]? = some rep ∧ rep.target = target ∧
      rep.stem = stem := by
  obtain ⟨hTarget, hStem⟩ := h
  rw [← hAll, List.getElem?_map, Option.map_eq_some_iff] at hTarget
  obtain ⟨rep, hRep, hTarget⟩ := hTarget
  exact ⟨rep, hRep, hTarget, Option.some.inj ((lastRound_report hRep).2.symm.trans hStem)⟩

omit [DecidableEq K] in
/-- A talker has one turn. -/
theorem Turn.unique (hTalkers : (targets.map (·.talker)).Nodup) {i j : Nat}
    {target target' : SessionTarget} {stem stem' : String} (h : Turn H targets opts d i target stem)
    (h' : Turn H targets opts d j target' stem') (hEq : target.talker = target'.talker) :
    i = j ∧ stem = stem' := by
  have hSame : (targets.map (·.talker))[i]? = (targets.map (·.talker))[j]? := by
    rw [List.getElem?_map, List.getElem?_map, h.1, h'.1, Option.map_some, Option.map_some, hEq]
  have hLess : i < (targets.map (·.talker)).length := by
    rw [List.length_map]
    exact (List.getElem?_eq_some_iff.mp h.1).1
  have hIndex := (List.getElem?_inj hLess hTalkers).mp hSame
  subst hIndex
  exact ⟨rfl, Option.some.inj (h.2.symm.trans h'.2)⟩

/-- Turns with one name, letter case aside, are one. -/
theorem Turn.name_unique (hSound : (previousIndex H opts d).Sound)
    (hTalkers : (targets.map (·.talker)).Nodup)
    (hAll : (lastRound H targets opts env d).reports.map (·.target) = targets) {i j : Nat}
    {target target' : SessionTarget} {stem stem' : String} (h : Turn H targets opts d i target stem)
    (h' : Turn H targets opts d j target' stem') (hEq : foldCase stem = foldCase stem') : i = j := by
  obtain ⟨rep, hRep, rfl, rfl⟩ := h.report hAll
  obtain ⟨rep', hRep', rfl, rfl⟩ := h'.report hAll
  have hSame := lastRound_inj hSound hTalkers (List.mem_of_getElem? hRep)
    (List.mem_of_getElem? hRep') hEq
  exact (h.unique hTalkers h' (congrArg (·.target.talker) hSame)).1

/-- Nobody is overtaken in a call that keeps every entry. -/
theorem not_overtaken (hSound : (previousIndex H opts d).Sound)
    (hTalkers : (targets.map (·.talker)).Nodup)
    (hAll : (lastRound H targets opts env d).reports.map (·.target) = targets)
    (hKept : ∀ talker row f, (talker, row) ∈ previousIndex H opts d → fileOf row = some f →
      Kept H targets opts env d talker f) : ¬ Overtaken H targets opts env d := by
  rintro ⟨hFirst, i, j, name, target, stem, hLess, hName, hHere, hOwner, hTarget, hStem, hOpen,
    hVerdict⟩
  have hTurn : Turn H targets opts d j target stem := ⟨hTarget, hStem⟩
  obtain ⟨row, f, hMem, hFile, hFold⟩ := Index.owner_mem hOwner
  have hIsTurn : ∀ j' target' stem', Turn H targets opts d j' target' stem' →
      target'.talker = target.talker → fileName stem' opts.format = f → False := by
    intro j' target' stem' hTurn' hTalker hIs
    obtain ⟨-, rfl⟩ := hTurn'.unique hTalkers hTurn hTalker
    rw [← hIs] at hFold
    have hOther : i < targets.length := hLess.trans (List.getElem?_eq_some_iff.mp hTarget).1
    have hTurnI : Turn H targets opts d i targets[i] name :=
      ⟨List.getElem?_eq_getElem hOther, hName⟩
    have hEqual := hTurn.name_unique hSound hTalkers hAll hTurnI (foldCase_fileName_inj hFold).1
    omega
  rcases hKept target.talker row f hMem hFile with
    ⟨j', target', stem', hTalker, hIs, hDone⟩ | ⟨-, -, hNot⟩
  · rcases hDone with hReuse | ⟨hOpenTurn, -⟩
    · exact hIsTurn j' target' stem' hReuse.1 hTalker hIs
    · exact hIsTurn j' target' stem' hOpenTurn.1 hTalker hIs
  · exact hNot ⟨j, target, stem, rfl, ⟨hTurn, hOpen⟩, hVerdict⟩

/-- The row of a name that is kept. -/
theorem Kept.row (hRecorded : Recorded H opts.outDir False d)
    (hTalkers : (targets.map (·.talker)).Nodup)
    (hAll : (lastRound H targets opts env d).reports.map (·.target) = targets)
    {talker f : String} {row : Value} (hMem : (talker, row) ∈ previousIndex H opts d)
    (hFile : fileOf row = some f) (h : Kept H targets opts env d talker f) :
    ∃ row' ∈ (lastRound H targets opts env d).indexRows, talkerOf row' = some talker ∧
      fileOf row' = some f := by
  obtain ⟨-, hSound⟩ := hRecorded.entries
  have hGoing := lastRound_going env hSound hTalkers
  obtain ⟨-, hBooks⟩ := lastRound_books env hSound hTalkers
  rcases h with ⟨i, target, stem, rfl, rfl, hDone⟩ | ⟨hFirst, ⟨i, target, stem, hTurn, hNe, hHere,
    hOwner⟩, hNot⟩
  · -- its own session is reused or exported
    have hTurn : Turn H targets opts d i target stem := by
      rcases hDone with hReuse | hOpen
      · exact hReuse.1
      · exact hOpen.1.1
    obtain ⟨rep, hRep, rfl, rfl⟩ := hTurn.report hAll
    have hFate := hGoing.fates i rep hRep
    refine hBooks.filed rep (List.mem_of_getElem? hRep) ?_
    rcases hDone with ⟨-, hResume, hHere, hReusable⟩ | ⟨hOpen, hVerdict⟩
    · have hReused := hFate.reused_iff.mpr ⟨hResume, hHere, hReusable⟩
      rw [hReused]
      rfl
    · have hWritten := hFate.written_iff.mpr ⟨hOpen.2, hVerdict⟩
      cases hIs : rep.fate with
      | written n => rfl
      | refused => rw [hIs] at hWritten; cases hWritten
      | reused => rfl
      | failed e => rw [hIs] at hWritten; cases hWritten
  · -- another session is refused over its file
    obtain ⟨rep, hRep, rfl, rfl⟩ := hTurn.report hAll
    have hRefused : rep.fate = .refused := (hGoing.fates i rep hRep).refused_iff.mpr
      ⟨hFirst, hHere, by rw [hOwner]; exact fun hEq => hNe (Option.some.inj hEq).symm⟩
    obtain ⟨row', hRow', hTalker'⟩ :=
      hBooks.kept rep (List.mem_of_getElem? hRep) hRefused talker hOwner
    have hKeyed : ((previousIndex H opts d).map (·.1)).Pairwise (· < ·) := parseIndex_keyed _ _
    obtain ⟨hFrom, -⟩ := (lastRound_stands targets hRecorded False.elim).2.2 row' hRow'
    refine ⟨row', hRow', hTalker', ?_⟩
    cases hFrom with
    | delivered rep' n hRep' hFate' hIs =>
      obtain ⟨k, hGet⟩ := List.mem_iff_getElem?.mp hRep'
      rw [hIs, talkerOf_indexRow, Option.some.injEq] at hTalker'
      have hWritten : rep'.fate.isWritten = true := by
        rw [hFate']
        rfl
      obtain ⟨hOpen, hVerdict⟩ := (hGoing.fates k rep' hGet).written_iff.mp hWritten
      exact absurd ⟨k, rep'.target, rep'.stem, hTalker', ⟨lastRound_report hGet, hOpen⟩, hVerdict⟩
        hNot
    | reused rep' hRep' hFate' hResume =>
      rw [hFirst] at hResume
      cases hResume
    | carried rep' talker' hRep' hFate' _ hOwner' hIs =>
      have hOther := (Index.row_iff hKeyed).mp hIs
      have hSame : talkerOf row' = some talker' := parseIndex_talker hOther
      obtain rfl := Option.some.inj (hTalker'.symm.trans hSame)
      have hRow := (Index.row_iff hKeyed).mpr hMem
      obtain rfl := Option.some.inj (hIs.symm.trans hRow)
      exact hFile

/-- A call that meets `Keeps` attributes what was attributed before, and what it delivers. -/
theorem Keeps.attributes (h : Keeps H targets opts env d)
    (hRecorded : Recorded H opts.outDir False d) (hTalkers : (targets.map (·.talker)).Nodup)
    {talker f : String} (hOld : (previousIndex H opts d).file talker = some f ∨
      (talker, f) ∈ deliveries H targets opts env d) :
    (previousIndex H opts ((run H targets opts env).after d)).file talker = some f := by
  obtain ⟨-, hSound⟩ := hRecorded.entries
  have hGoing := lastRound_going env hSound hTalkers
  cases h with
  | nothing hFails =>
    have hRun : run H targets opts env = pure (.error .other, []) := by rw [run, if_pos hFails]
    rw [hRun, Act.after_pure]
    refine hOld.resolve_right fun hNew => ?_
    obtain ⟨rep, hRep, -⟩ := mem_deliveries.mp hNew
    rw [hRun, Act.result_pure] at hRep
    cases hRep
  | indexed hIndexes hKept =>
    obtain ⟨out, hOk⟩ := hIndexes.returns hRecorded hTalkers
    obtain ⟨hAll, hLog, -⟩ := run_ok hOk
    have hApart := (lastRound_apart hSound hTalkers hAll).mpr
      (not_overtaken hSound hTalkers hAll hKept)
    rcases hOld with hOld | hNew
    · obtain ⟨row, hMem, hFile⟩ := Index.file_mem hOld
      obtain ⟨row', hRow', hTalker', hFile'⟩ :=
        (hKept talker row f hMem hFile).row hRecorded hTalkers hAll hMem hFile
      exact file_after hRecorded hOk hApart hRow' hTalker' hFile'
    · obtain ⟨rep, hRep, hWritten, rfl, rfl⟩ := mem_deliveries.mp hNew
      rw [hLog] at hRep
      have hKeptFate : rep.fate.isSkipped = false := by
        cases hIs : rep.fate with
        | written n => rfl
        | refused => rw [hIs] at hWritten; cases hWritten
        | reused => rfl
        | failed e => rw [hIs] at hWritten; cases hWritten
      obtain ⟨row, hRow, hTalker, hFile⟩ :=
        (lastRound_books env hSound hTalkers).2.filed rep hRep hKeptFate
      exact file_after hRecorded hOk hApart hRow hTalker hFile
  | unindexed hFails hIdle =>
    rw [index_kept hSound fun out hOk => ?_]
    · refine hOld.elim id fun hNew => ?_
      obtain ⟨rep, hRep, hWritten, rfl, rfl⟩ := mem_deliveries.mp hNew
      obtain ⟨i, hGet⟩ := List.mem_iff_getElem?.mp (run_reports hRep)
      obtain ⟨hOpen, hVerdict⟩ := (hGoing.fates i rep hGet).written_iff.mp hWritten
      exact hIdle i rep.target rep.stem ⟨lastRound_report hGet, hOpen⟩ hVerdict
    · obtain ⟨hAll, -⟩ := run_ok hOk
      obtain ⟨hDir, hEnd⟩ := run_ended hOk
      rcases hFails with hBlocked | ⟨i, target, stem, hOpen, hVerdict⟩
      · have hReturns := run_returns hDir hEnd
        obtain ⟨hIndex, hPart⟩ := sessionsDisk_index targets env hSound
        rw [IndexBlocked] at hBlocked
        rw [writeIndex_result, hIndex, hPart, if_pos hBlocked, hOk] at hReturns
        split_ifs at hReturns <;> cases hReturns
      · obtain ⟨rep, hRep, rfl, rfl⟩ := hOpen.1.report hAll
        have hLeak := (hGoing.fates i rep hRep).failed_iff.mpr ⟨hOpen.2, hVerdict⟩
        exact rounds_clean hEnd rep (List.mem_of_getElem? hRep) hLeak

end After

/-! ## Over many calls -/

section Calls

variable {H} {dir : Paths.Path} {log : List (String × String)} {d : Files.Disk K}
  {C : List SessionTarget → Options → CallEnv → Files.Disk K → Prop}

theorem Calls.reached (h : Calls H dir C log d) : Reached H dir False d := by
  induction h with
  | start d hNone => exact .start d hNone
  | call log d targets opts env hCalls hDir hTalkers hMeets ih =>
    exact .stopped d _ targets opts env ih hDir False.elim (stops_end _ _)

theorem ownership_kept (h : Calls H dir (Keeps H) log d) (opts : Options)
    (hDir : opts.outDir = dir) :
    (∀ e ∈ log, (previousIndex H opts d).file e.1 = some e.2) ∧
    ∀ (targets : List SessionTarget) (env : CallEnv), (targets.map (·.talker)).Nodup →
      ∀ rep ∈ ((run H targets opts env).result d).2, rep.fate = .refused →
      ∀ e ∈ log, e.1 = rep.target.talker → nameKey H dir e.2 ≠ H.key (opts.path H rep.stem) := by
  have hRead : ∀ (opts' : Options) (s : Files.Disk K), opts'.outDir = dir →
      previousIndex H opts' s = previousIndex H opts s := by
    intro opts' s hDir'
    rw [previousIndex, previousIndex, nameKey_join H opts portable_indexName,
      nameKey_join H opts' portable_indexName, hDir, hDir']
  have hAttributed : ∀ e ∈ log, (previousIndex H opts d).file e.1 = some e.2 := by
    induction h with
    | start d hNone => simp
    | call log d targets opts' env hCalls hDir' hTalkers hMeets ih =>
      subst hDir'
      intro e he
      rw [← hRead opts' _ rfl]
      refine hMeets.attributes hCalls.reached.recorded hTalkers ?_
      rw [hRead opts' _ rfl]
      exact (List.mem_append.mp he).imp_left (ih e)
  refine ⟨hAttributed, fun targets env hTalkers rep hRep hFate e he hTalker hKey => ?_⟩
  subst hDir
  obtain ⟨-, hSound⟩ := h.reached.recorded.entries
  obtain ⟨i, hGet⟩ := List.mem_iff_getElem?.mp (run_reports hRep)
  obtain ⟨-, -, hOwner⟩ := ((lastRound_going env hSound hTalkers).fates i rep hGet).refused_iff.mp
    hFate
  obtain ⟨hStem, -⟩ := (lastRound_named targets env hSound).stem rep (run_reports hRep)
  obtain ⟨row, hMem, hFile⟩ := Index.file_mem (hAttributed e he)
  obtain ⟨stem, format, hName, hIsStem, -⟩ := hSound.named _ hMem e.2 hFile
  -- the file there has the name of one delivered for the talker
  have hFold : foldCase e.2 = foldCase (fileName rep.stem opts.format) := by
    rw [Options.path, nameKey_join H opts (portable_fileName hStem opts.format), hName] at hKey
    rw [hName]
    exact H.key_portable _ _ _ (portable_fileName hIsStem format)
      (portable_fileName hStem opts.format) hKey
  cases hNone : (previousIndex H opts d).owner (fileName rep.stem opts.format) with
  | none => exact Index.owner_none hNone hMem hFile hFold
  | some owner =>
    obtain ⟨row', f, hMem', hFile', hFold'⟩ := Index.owner_mem hNone
    have hSame : e.1 = owner := by
      refine hSound.owned _ hMem _ hMem' _ _ hFile hFile' ?_
      obtain ⟨stem', format', hName', -, -⟩ := hSound.named _ hMem' f hFile'
      rw [hName'] at hFold' ⊢
      rw [hName] at hFold ⊢
      rw [stemOfFile_fileName, stemOfFile_fileName, (foldCase_fileName_inj hFold).1,
        (foldCase_fileName_inj hFold').1]
    rw [hNone, ← hSame, hTalker] at hOwner
    exact hOwner rfl

/-- A session of a calm call fails only over a directory in the place of its files. -/
theorem verdictOf_calm (d : Files.Disk (List (List Char))) (i : Nat) (target : SessionTarget)
    (stem : String) : verdictOf unixHost (plainOptions .jsonl false) (.calm fun _ => oneRow "hi") d i
      target stem =
      if Files.isDirectory (d (unixHost.key ((plainOptions .jsonl false).part unixHost stem))) ||
        Files.isDirectory (d (unixHost.key ((plainOptions .jsonl false).path unixHost stem)))
      then .error .other else .ok () := by
  rw [verdictOf]
  cases Files.isDirectory (d (unixHost.key ((plainOptions .jsonl false).part unixHost stem))) <;>
    cases Files.isDirectory (d (unixHost.key ((plainOptions .jsonl false).path unixHost stem))) <;>
    rfl

theorem indexes_calm {d : Files.Disk (List (List Char))} (targets : List SessionTarget)
    (hFree : ¬ IndexBlocked unixHost (plainOptions .jsonl false) (.calm fun _ => oneRow "hi") d) :
    Indexes unixHost targets (plainOptions .jsonl false) (.calm fun _ => oneRow "hi") d := by
  refine ⟨rfl, fun i target stem _ => ?_, hFree, fun rows _ => rfl⟩
  rw [verdictOf_calm]
  split
  · simp
  · simp

/-- A first call keeps the entries of an empty directory. -/
theorem keeps_first : Keeps unixHost [⟨"a", "Team"⟩] (plainOptions .jsonl false)
    (.calm fun _ => oneRow "hi") emptyDisk := by
  have hNone : previousIndex unixHost (plainOptions .jsonl false) emptyDisk = [] := rfl
  refine .indexed (indexes_calm _ (by rw [IndexBlocked]; decide)) fun talker row f hMem => ?_
  rw [hNone] at hMem
  cases hMem

/-- The only entry of the directory of one session. -/
theorem teamIndex_entries : (∀ e ∈ teamIndex, e.1 = "a" ∧ fileOf e.2 = some "Team.jsonl") ∧
    teamIndex.owner "Team.jsonl" = some "a" := by
  decide +kernel

/-- A second call for the same session keeps its entry. -/
theorem keeps_again : Keeps unixHost [⟨"a", "Team"⟩] (plainOptions .jsonl false)
    (.calm fun _ => oneRow "hi") teamDisk := by
  have hFiles : (Files.isDirectory (teamDisk (unixHost.key
        ((plainOptions .jsonl false).join unixHost indexPartName))) ||
      Files.isDirectory (teamDisk (unixHost.key
        ((plainOptions .jsonl false).join unixHost indexName))) ||
      (Files.isDirectory (teamDisk (unixHost.key
          ((plainOptions .jsonl false).part unixHost "Team"))) ||
        Files.isDirectory (teamDisk (unixHost.key
          ((plainOptions .jsonl false).path unixHost "Team"))))) = false := by decide +kernel
  obtain ⟨hIndexFiles, hTeamFiles⟩ := Bool.or_eq_false_iff.mp hFiles
  obtain ⟨hEntries, hOwner⟩ := teamIndex_entries
  have hTurn : Turn unixHost [⟨"a", "Team"⟩] (plainOptions .jsonl false) teamDisk 0
      ⟨"a", "Team"⟩ "Team" := ⟨rfl, rfl⟩
  refine .indexed (indexes_calm _ ?_) fun talker row f hMem hFile => ?_
  · rw [IndexBlocked]
    simpa [CallEnv.calm, Files.WriteFault.fails] using hIndexFiles
  · rw [previousIndex_teamDisk] at hMem
    obtain ⟨rfl, hName⟩ := hEntries _ hMem
    obtain rfl : "Team.jsonl" = f := Option.some.inj (hName.symm.trans hFile)
    refine .inl ⟨0, ⟨"a", "Team"⟩, "Team", rfl, by decide, .inr ⟨⟨hTurn, fun _ => .inr ?_, ?_⟩, ?_⟩⟩
    · rw [previousIndex_teamDisk]
      exact hOwner
    · intro hResume
      cases hResume
    · rw [verdictOf_calm, hTeamFiles]
      rfl

theorem ownership_kept_again : (previousIndex unixHost (plainOptions .jsonl false)
    ((run unixHost [⟨"a", "Team"⟩] (plainOptions .jsonl false)
      (.calm fun _ => oneRow "hi")).after teamDisk)).file "a" = some "Team.jsonl" := by
  have hStart : Calls unixHost (plainOptions .jsonl false).outDir (Keeps unixHost) [] emptyDisk :=
    .start emptyDisk rfl
  have hFirst := hStart.call _ emptyDisk [⟨"a", "Team"⟩] (plainOptions .jsonl false)
    (.calm fun _ => oneRow "hi") rfl (by decide) keeps_first
  have hAgain := hFirst.call _ teamDisk [⟨"a", "Team"⟩] (plainOptions .jsonl false)
    (.calm fun _ => oneRow "hi") rfl (by decide) keeps_again
  exact (ownership_kept hAgain (plainOptions .jsonl false) rfl).1 ("a", "Team.jsonl")
    (List.mem_append_left _ (by decide +kernel))

/-- The directory after a first run for `a` and one for another session. -/
def otherDisk : Files.Disk (List (List Char)) :=
  (run unixHost [⟨"b", "Other"⟩] (plainOptions .jsonl false)
    (.calm fun _ => oneRow "hi")).after teamDisk

/-- The second run finds the index of the first. -/
theorem previousIndex_otherDisk : previousIndex unixHost (plainOptions .jsonl false) otherDisk =
    Json.ordered (((rounds unixHost [⟨"b", "Other"⟩] (plainOptions .jsonl false)
      (.calm fun _ => oneRow "hi") teamIndex).result teamDisk).2.indexRows.filterMap fun row =>
        (talkerOf row).map (·, row)) := by
  obtain ⟨out, hOk⟩ : ∃ out, ((run unixHost [⟨"b", "Other"⟩] (plainOptions .jsonl false)
      (.calm fun _ => oneRow "hi")).result teamDisk).1 = .ok out := by
    refine exists_ok ?_
    rw [← laterCall, laterCall_eq]
    decide +kernel
  have hIndex : previousIndex unixHost (plainOptions .jsonl false) otherDisk = _ :=
    previousIndex_after (teamDisk_reached (P := False)).recorded False.elim hOk rfl
  rw [hIndex, lastRound, previousIndex_teamDisk]

theorem subset_forgets : ∃ log d,
    Calls unixHost (plainOptions .jsonl false).outDir (fun _ _ _ _ => True) log d ∧
    ("a", "Team.jsonl") ∈ log ∧
    (previousIndex unixHost (plainOptions .jsonl false) d).file "a" = none ∧
    ∃ rep ∈ ((run unixHost [⟨"a", "Team"⟩] (plainOptions .jsonl false)
      (.calm fun _ => oneRow "hi")).result d).2,
      rep.target.talker = "a" ∧ rep.fate = .refused ∧ fileName rep.stem .jsonl = "Team.jsonl" := by
  have hStart : Calls unixHost (plainOptions .jsonl false).outDir (fun _ _ _ _ => True) []
      emptyDisk := .start emptyDisk rfl
  have hTeam := hStart.call _ _ [⟨"a", "Team"⟩] (plainOptions .jsonl false)
    (.calm fun _ => oneRow "hi") rfl (by decide) trivial
  have hOther := hTeam.call _ teamDisk [⟨"b", "Other"⟩] (plainOptions .jsonl false)
    (.calm fun _ => oneRow "hi") rfl (by decide) trivial
  refine ⟨_, otherDisk, hOther, List.mem_append_left _ (by decide +kernel), ?_, ?_⟩
  · rw [previousIndex_otherDisk]
    decide +kernel
  · rw [run, if_neg (by decide), Act.result_look_bind]
    dsimp only
    rw [previousIndex_otherDisk]
    decide +kernel

end Calls

end Weflow.Export
