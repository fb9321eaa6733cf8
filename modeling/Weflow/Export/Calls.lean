import Weflow.Export.Rounds

/-!
# The calls of a run

`run_end` says how a run can end: before it starts, at a secret, without its index, or with it.
`run_allowed` says which calls it makes and in which states (`Issue`), `run_stops` what stands
under each name wherever it is stopped, and `rounds_place` what stands there when all the sessions
are over.
-/

namespace Weflow.Export

open Effects
open Json (Value)

variable {K : Type} (H : Host K)

/-! ## Calls of the sessions -/

/-- The file of a session. -/
def Options.path (opts : Options) (stem : String) : Paths.Path :=
  opts.join H (fileName stem opts.format)

/-- Its `.part` file. -/
def Options.part (opts : Options) (stem : String) : Paths.Path :=
  opts.join H (partName stem opts.format)

def CallEnv.Honest (env : CallEnv) : Prop := ∀ i, (env.session i).fetch.Honest

theorem honest_oneRow (content : String) : (CallEnv.calm fun _ => oneRow content).Honest :=
  fun _ => ⟨trivial, fun e => ⟨e, rfl⟩⟩

/-- What stands in a file that was delivered, if the fetch reports its failed pages: the header
and exactly the rows handed over. -/
def Delivered (J : Json.Text) (opts : Options) (env : CallEnv) (rep : Report) (n : UInt64)
    (bytes : List UInt8) : Prop :=
  env.Honest → ∃ now, Complete J opts.format rep.target now (writtenRows rep.pages) bytes ∧
    n = UInt64.ofNat (writtenRows rep.pages).length

section Sessions

variable (opts : Options) (env : CallEnv)

/-- The calls of the sessions: they work on `.part` files, and rename those of the sessions that
are written. -/
inductive Issue (log : List Report) (d : Files.Disk K) :
    Option String × Files.Op Paths.Path → Prop
  | part (rep : Report) (o : Option String × Files.Op Paths.Path) (hRep : rep ∈ log)
      (hTag : o.1 = some rep.target.talker) (hTouched : o.2.touched = [opts.part H rep.stem]) :
      Issue log d o
  | deliver (rep : Report) (n : UInt64) (bytes : List UInt8) (hRep : rep ∈ log)
      (hFate : rep.fate = .written n) (hFile : d (H.key (opts.part H rep.stem)) = some (.file bytes))
      (hDelivered : Delivered H.json opts env rep n bytes) :
      Issue log d (some rep.target.talker,
        .rename (opts.part H rep.stem) (opts.path H rep.stem))

/-- What stands under a key when sessions are over: what stood there, nothing if it is that of a
`.part` file, or the file of a session that was written. -/
inductive Place (d₀ d : Files.Disk K) (log : List Report) (k : K) : Prop
  | same (hSame : d k = d₀ k)
  | part (rep : Report) (hRep : rep ∈ log) (hKey : k = H.key (opts.part H rep.stem))
      (hGone : d k = none)
  | delivered (rep : Report) (n : UInt64) (bytes : List UInt8) (hRep : rep ∈ log)
      (hFate : rep.fate = .written n) (hKey : k = H.key (opts.path H rep.stem))
      (hFile : d k = some (.file bytes)) (hDelivered : Delivered H.json opts env rep n bytes)

variable {H opts env}

theorem Issue.grow {log log' : List Report} {d : Files.Disk K}
    {o : Option String × Files.Op Paths.Path} (hSub : log ⊆ log')
    (h : Issue H opts env log d o) : Issue H opts env log' d o := by
  cases h with
  | part rep _ hRep hTag hTouched => exact .part rep _ (hSub hRep) hTag hTouched
  | deliver rep n bytes hRep hFate hFile hDelivered =>
    exact .deliver rep n bytes (hSub hRep) hFate hFile hDelivered

theorem Place.trans {d₀ d d' : Files.Disk K} {log log' : List Report} {k : K} (hSub : log ⊆ log')
    (h : Place H opts env d₀ d log k) (h' : Place H opts env d d' log' k) :
    Place H opts env d₀ d' log' k := by
  cases h' with
  | same hSame =>
    cases h with
    | same hSame' => exact .same (hSame.trans hSame')
    | part rep hRep hKey hGone => exact .part rep (hSub hRep) hKey (hSame.trans hGone)
    | delivered rep n bytes hRep hFate hKey hFile hDelivered =>
      exact .delivered rep n bytes (hSub hRep) hFate hKey (hSame.trans hFile) hDelivered
  | part rep hRep hKey hGone => exact .part rep hRep hKey hGone
  | delivered rep n bytes hRep hFate hKey hFile hDelivered =>
    exact .delivered rep n bytes hRep hFate hKey hFile hDelivered

end Sessions

variable [DecidableEq K] {H}

/-- What one target issues, and what then stands where. -/
theorem TargetEnd.issues {opts : Options} {previous recorded : Index} {env : CallEnv} {i : Nat}
    {target : SessionTarget} {r : Round} {d : Files.Disk K}
    {ops : List (Option String × Files.Op Paths.Path)} {p : Bool × Round}
    (h : TargetEnd H opts previous recorded (env.session i) target r d ops p) :
    Allowed (Files.effects _ H.key) (Issue H opts env p.2.reports) d ops ∧
      ∀ k, Place H opts env d (replay (Files.effects _ H.key) d ops) p.2.reports k := by
  have hLast : ∀ (rep : Report), rep ∈ r.reports ++ [rep] := fun rep =>
    List.mem_append_right _ List.mem_cons_self
  cases h with
  | refused => exact ⟨trivial, fun k => .same rfl⟩
  | reused => exact ⟨trivial, fun k => .same rfl⟩
  | failed e ops pages hAdmitted hResult hEnd =>
    obtain ⟨e, hPart, hGone⟩ := hEnd
    let rep : Report := ⟨target, stemIn H previous target r, .failed e, pages⟩
    refine ⟨allowed_of_forall fun o ho s => ?_, fun k => ?_⟩
    · exact .part rep o (hLast rep) (hPart o ho).1 (hPart o ho).2
    · by_cases hKey : k = H.key (opts.part H rep.stem)
      · rcases hGone with hGone | hGone
        · refine .part rep (hLast rep) hKey ?_
          rw [hKey]
          exact hGone
        · exact .same (by rw [hGone])
      · refine .same (Files.replay_frame fun o ho p hp => ?_)
        rw [(hPart o ho).2, List.mem_singleton] at hp
        rw [hp]
        exact fun hEq => hKey hEq.symm
  | written n ops pages hAdmitted hResult hEnd =>
    obtain _ | ⟨n, before, bytes, hPart, rfl, hFile, hComplete⟩ := hEnd
    let rep : Report := ⟨target, stemIn H previous target r, .written n, pages⟩
    have hDelivered : Delivered H.json opts env rep n bytes := fun hHonest =>
      ⟨_, hComplete (hHonest i)⟩
    refine ⟨allowed_append.mpr ⟨allowed_of_forall fun o ho s => ?_, ?_, trivial⟩, fun k => ?_⟩
    · exact .part rep o (hLast rep) (hPart o ho).1 (hPart o ho).2
    · exact .deliver rep n bytes (hLast rep) rfl hFile hDelivered
    · rw [replay_append, replay_cons, replay_nil]
      by_cases hPath : k = H.key (opts.path H rep.stem)
      · refine .delivered rep n bytes (hLast rep) rfl hPath ?_ hDelivered
        rw [hPath]
        exact (Function.update_self _ _ _).trans hFile
      · by_cases hKey : k = H.key (opts.part H rep.stem)
        · refine .part rep (hLast rep) hKey ?_
          refine (Function.update_of_ne hPath _ _).trans ?_
          rw [hKey]
          exact Function.update_self _ _ _
        · refine .same ((Function.update_of_ne hPath _ _).trans ?_)
          refine (Function.update_of_ne hKey _ _).trans ?_
          refine Files.replay_frame fun o ho p hp => ?_
          rw [(hPart o ho).2, List.mem_singleton] at hp
          rw [hp]
          exact fun hEq => hKey hEq.symm

/-- The file of a session that is written stands under its name when the session is over. -/
theorem TargetEnd.delivered {opts : Options} {previous recorded : Index} {env : CallEnv} {i : Nat}
    {target : SessionTarget} {r : Round} {d : Files.Disk K}
    {ops : List (Option String × Files.Op Paths.Path)} {p : Bool × Round} {rep : Report}
    {n : UInt64} (h : TargetEnd H opts previous recorded (env.session i) target r d ops p)
    (hReports : p.2.reports = r.reports ++ [rep]) (hFate : rep.fate = .written n) :
    ∃ bytes, replay (Files.effects _ H.key) d ops (H.key (opts.path H rep.stem)) =
      some (.file bytes) ∧ Delivered H.json opts env rep n bytes := by
  cases h with
  | refused =>
    rw [← List.append_cancel_left hReports |> List.singleton_inj.mp] at hFate
    cases hFate
  | reused =>
    rw [← List.append_cancel_left hReports |> List.singleton_inj.mp] at hFate
    cases hFate
  | failed =>
    rw [← List.append_cancel_left hReports |> List.singleton_inj.mp] at hFate
    cases hFate
  | written m ops pages hAdmitted hResult hEnd =>
    have hRep := List.singleton_inj.mp (List.append_cancel_left hReports)
    subst hRep
    cases hFate
    obtain _ | ⟨n, before, bytes, hPart, rfl, hFile, hComplete⟩ := hEnd
    refine ⟨bytes, ?_, fun hHonest => ⟨_, hComplete (hHonest i)⟩⟩
    rw [replay_append]
    exact (Function.update_self _ _ _).trans hFile

/-! ## The index -/

section Index

variable (H) (opts : Options) (rows : List Value) (env : CallEnv)

/-- The text of a new index. -/
def indexBytes : List UInt8 := Utf8.encode (H.json.render (indexDocument rows env.now)).toList

/-- A call on the `.part` file of the index. -/
def OnIndexPart (o : Option String × Files.Op Paths.Path) : Prop :=
  o.1 = none ∧ o.2.touched = [opts.join H indexPartName]

/-- How the writing of the index ends. -/
inductive IndexEnd (d : Files.Disk K) :
    List (Option String × Files.Op Paths.Path) → Except Failure Paths.Path → Prop
  | failed (e : Failure) (ops : List (Option String × Files.Op Paths.Path))
      (hPart : ∀ o ∈ ops, OnIndexPart H opts o) : IndexEnd d ops (.error e)
  | written (before : List (Option String × Files.Op Paths.Path))
      (hPart : ∀ o ∈ before, OnIndexPart H opts o)
      (hClean : leaks H.json (H.json.render (indexDocument rows env.now)) opts.secret = false)
      (hFile : replay (Files.effects _ H.key) d before (H.key (opts.join H indexPartName)) =
        some (.file (indexBytes H rows env))) :
      IndexEnd d (before ++ [(none, .rename (opts.join H indexPartName) (opts.join H indexName))])
        (.ok (opts.join H indexName))

theorem writeIndex_end (d : Files.Disk K) : IndexEnd H opts rows env d
    ((writeIndex H opts rows env).ops d) ((writeIndex H opts rows env).result d) := by
  have hWrite : Act.Holds (OnIndexPart H opts) (fun s => s = d)
      (Files.write H.key none env.indexFault (opts.join H indexPartName) (indexBytes H rows env))
      fun done s => done = true → s (H.key (opts.join H indexPartName)) =
        some (.file (indexBytes H rows env)) :=
    Files.holds_write env.indexFault ⟨rfl, rfl⟩ (fun _ => ⟨rfl, rfl⟩) (fun _ _ h => by cases h)
      (fun _ _ _ h => by cases h) fun _ _ _ => Function.update_self _ _ _
  obtain ⟨hOps, hDone⟩ := hWrite d rfl
  rw [writeIndex]
  dsimp only
  split_ifs with hLeak
  · exact .failed _ [] (by simp)
  · have hBody : Utf8.encode (H.json.render (indexDocument rows env.now)).toList =
        indexBytes H rows env := rfl
    rw [hBody, Act.ops_bind, Act.result_bind]
    cases hResult : (Files.write H.key none env.indexFault (opts.join H indexPartName)
        (indexBytes H rows env)).result d with
    | false =>
      rw [if_neg (by simp), Act.ops_pure, Act.result_pure, List.append_nil]
      exact .failed _ _ hOps
    | true =>
      rw [if_pos rfl, Act.ops_bind, Act.result_bind]
      rcases Files.rename_cases (t := (none : Option String)) (p := opts.join H indexPartName)
        (q := opts.join H indexName) (d := (Files.write H.key (none : Option String) env.indexFault
          (opts.join H indexPartName) (indexBytes H rows env)).after d) env.indexRenameFails H.key with
        ⟨hRename, hRenameOps⟩ | ⟨hRename, hRenameOps⟩
      · rw [hRename, if_pos rfl, hRenameOps, Act.ops_pure, Act.result_pure, List.append_nil]
        exact .written _ hOps (by simpa using hLeak) (hDone hResult)
      · rw [hRename, if_neg (by simp), hRenameOps, Act.ops_pure, Act.result_pure, List.append_nil,
          List.append_nil]
        exact .failed _ _ hOps

end Index

/-! ## The run -/

section Run

variable (H) (targets : List SessionTarget) (opts : Options) (env : CallEnv)

/-- The sessions of a run whose directory holds the index. -/
def rounds (index : Index) : Io H (Bool × Round) :=
  exportTargets H opts (if opts.resume then index else []) index env.session 0 targets
    (Round.start (seedTaken H.lower (if opts.resume then index else [])))

/-- The round at the end of the sessions. -/
def lastRound (d : Files.Disk K) : Round :=
  ((rounds H targets opts env (previousIndex H opts d)).result d).2

/-- The disk at the end of the sessions. -/
def sessionsDisk (d : Files.Disk K) : Files.Disk K :=
  (rounds H targets opts env (previousIndex H opts d)).after d

/-- How a run can end. -/
inductive RunEnd (d : Files.Disk K) : List (Option String × Files.Op Paths.Path) →
    Except Failure Outcome × List Report → Prop
  | noDirectory (hFails : env.createDirFails = true) : RunEnd d [] (.error .other, [])
  | leaked (hLeak : ((rounds H targets opts env (previousIndex H opts d)).result d).1 = true) :
      RunEnd d ((rounds H targets opts env (previousIndex H opts d)).ops d)
        (.error .secretLeak, (lastRound H targets opts env d).reports)
  | unindexed (e : Failure) (ops : List (Option String × Files.Op Paths.Path))
      (hEnd : ((rounds H targets opts env (previousIndex H opts d)).result d).1 = false)
      (hIndex : IndexEnd H opts (lastRound H targets opts env d).indexRows env
        (sessionsDisk H targets opts env d) ops (.error e)) :
      RunEnd d ((rounds H targets opts env (previousIndex H opts d)).ops d ++ ops)
        (.error e, (lastRound H targets opts env d).reports)
  | indexed (path : Paths.Path) (ops : List (Option String × Files.Op Paths.Path))
      (hEnd : ((rounds H targets opts env (previousIndex H opts d)).result d).1 = false)
      (hIndex : IndexEnd H opts (lastRound H targets opts env d).indexRows env
        (sessionsDisk H targets opts env d) ops (.ok path)) :
      RunEnd d ((rounds H targets opts env (previousIndex H opts d)).ops d ++ ops)
        (.ok ⟨(lastRound H targets opts env d).written, (lastRound H targets opts env d).reused,
          (lastRound H targets opts env d).skipped, (lastRound H targets opts env d).total, path⟩,
          (lastRound H targets opts env d).reports)

theorem run_end (d : Files.Disk K) : RunEnd H targets opts env d
    ((run H targets opts env).ops d) ((run H targets opts env).result d) := by
  have hIndexEnd := writeIndex_end H opts (lastRound H targets opts env d).indexRows env
    (sessionsDisk H targets opts env d)
  rw [run]
  by_cases hFails : env.createDirFails = true
  · rw [if_pos hFails]
    exact .noDirectory hFails
  rw [if_neg hFails, Act.ops_look_bind, Act.result_look_bind]
  dsimp only
  rw [Act.ops_bind, Act.result_bind]
  by_cases hLeak : ((rounds H targets opts env (previousIndex H opts d)).result d).1 = true
  · have hEnd := RunEnd.leaked hLeak
    rw [lastRound] at hEnd
    rw [rounds] at hLeak hEnd
    rw [if_pos hLeak, Act.ops_pure, Act.result_pure, List.append_nil]
    exact hEnd
  · have hIndexed := fun path ops => RunEnd.indexed path ops (by simpa using hLeak)
    have hUnindexed := fun e ops => RunEnd.unindexed e ops (by simpa using hLeak)
    rw [sessionsDisk, lastRound] at hIndexEnd hIndexed hUnindexed
    rw [rounds] at hLeak hIndexEnd hIndexed hUnindexed
    rw [if_neg hLeak, Act.ops_bind, Act.result_bind]
    generalize hResult : (writeIndex H opts (((exportTargets H opts
      (if opts.resume then previousIndex H opts d else []) (previousIndex H opts d) env.session 0
      targets (Round.start (seedTaken H.lower
        (if opts.resume then previousIndex H opts d else [])))).result d).2).indexRows env).result
      ((exportTargets H opts (if opts.resume then previousIndex H opts d else [])
        (previousIndex H opts d) env.session 0 targets (Round.start (seedTaken H.lower
          (if opts.resume then previousIndex H opts d else [])))).after d) = result
      at hIndexEnd ⊢
    cases result with
    | error e =>
      simp only [Act.ops_pure, Act.result_pure, List.append_nil]
      exact hUnindexed e _ hIndexEnd
    | ok path =>
      simp only [Act.ops_pure, Act.result_pure, List.append_nil]
      exact hIndexed path _ hIndexEnd

/-- The calls of a run. -/
inductive RunIssue (log : List Report) (rows : List Value) (d : Files.Disk K)
    (o : Option String × Files.Op Paths.Path) : Prop
  | session (hIssue : Issue H opts env log d o)
  | indexPart (hPart : OnIndexPart H opts o)
  | index (hOp : o = (none, .rename (opts.join H indexPartName) (opts.join H indexName)))
      (hFile : d (H.key (opts.join H indexPartName)) = some (.file (indexBytes H rows env)))

/-- What stands under a key when a run is stopped. -/
inductive Stopped (d₀ : Files.Disk K) (log : List Report) (rows : List Value) (d : Files.Disk K)
    (k : K) : Prop
  | same (hSame : d k = d₀ k)
  | part (rep : Report) (hRep : rep ∈ log) (hKey : k = H.key (opts.part H rep.stem))
  | delivered (rep : Report) (n : UInt64) (bytes : List UInt8) (hRep : rep ∈ log)
      (hFate : rep.fate = .written n) (hKey : k = H.key (opts.path H rep.stem))
      (hFile : d k = some (.file bytes)) (hDelivered : Delivered H.json opts env rep n bytes)
  | indexPart (hKey : k = H.key (opts.join H indexPartName))
  | index (hKey : k = H.key (opts.join H indexName))
      (hFile : d k = some (.file (indexBytes H rows env)))

/-- The rule for the sessions of a run, whatever else is to be kept. -/
theorem rounds_holds (index : Index) (d : Files.Disk K) :
    LoopHolds H (fun r d' => ∀ k, Place H opts env d d' r.reports k) (Issue H opts env)
      (Round.start (seedTaken H.lower (if opts.resume then index else []))) d
      (rounds H targets opts env index) := by
  refine exportTargets_rule H (fun log log' s o hSub h => h.grow hSub) ?_ 0 _ d rfl
    fun k => .same rfl
  intro target r s ops p hTarget hPlace hEnd
  obtain ⟨hAllowed, hAfter⟩ := hEnd.issues
  obtain ⟨fate, pages, hReports, -⟩ := hEnd.reports
  refine ⟨hAllowed, fun k => (hPlace k).trans ?_ (hAfter k)⟩
  rw [hReports]
  exact List.subset_append_left _ _

variable {H targets opts env}

/-- The rule for what holds from one target to the next, when nothing is asked of the calls. -/
theorem rounds_invariant {I : Round → Files.Disk K → Prop} (d : Files.Disk K)
    (hInit : I (Round.start (seedTaken H.lower
      (if opts.resume then previousIndex H opts d else []))) d)
    (hStep : ∀ target r s ops p, targets[r.reports.length]? = some target → I r s →
      TargetEnd H opts (if opts.resume then previousIndex H opts d else [])
        (previousIndex H opts d) (env.session r.reports.length) target r s ops p →
      I p.2 (replay (Files.effects _ H.key) s ops)) :
    I (lastRound H targets opts env d) (sessionsDisk H targets opts env d) :=
  (exportTargets_rule H (G := fun _ _ _ => True) (fun _ _ _ _ _ h => h)
    (fun target r s ops p hTarget hI hEnd =>
      ⟨allowed_of_forall fun _ _ _ => trivial, hStep target r s ops p hTarget hI hEnd⟩)
    0 _ d rfl hInit).kept

/-- The calls of the sessions are calls of the run. -/
theorem mem_run {d : Files.Disk K} (hDir : env.createDirFails = false) :
    (rounds H targets opts env (previousIndex H opts d)).ops d ⊆
      (run H targets opts env).ops d := by
  rw [run, hDir, if_neg (by simp), Act.ops_look_bind, Act.ops_bind]
  exact List.subset_append_left _ _

theorem run_allowed (d : Files.Disk K) : Allowed (Files.effects _ H.key)
    (RunIssue H opts env ((run H targets opts env).result d).2
      (lastRound H targets opts env d).indexRows) d ((run H targets opts env).ops d) := by
  have hRounds := (rounds_holds H targets opts env
    (previousIndex H opts d) d).allowed
  have hSessions : Allowed (Files.effects _ H.key)
      (RunIssue H opts env (lastRound H targets opts env d).reports
        (lastRound H targets opts env d).indexRows) d
      ((rounds H targets opts env (previousIndex H opts d)).ops d) :=
    hRounds.mono fun _ _ hIssue => .session hIssue
  have hIndex : ∀ {ops : List (Option String × Files.Op Paths.Path)}
      {result : Except Failure Paths.Path},
      IndexEnd H opts (lastRound H targets opts env d).indexRows env
        (sessionsDisk H targets opts env d) ops result →
      Allowed (Files.effects _ H.key) (RunIssue H opts env (lastRound H targets opts env d).reports
        (lastRound H targets opts env d).indexRows) (sessionsDisk H targets opts env d) ops := by
    intro ops result h
    cases h with
    | failed e _ hPart => exact allowed_of_forall fun o ho s => .indexPart (hPart o ho)
    | written before hPart hClean hFile =>
      refine allowed_append.mpr ⟨allowed_of_forall fun o ho s => .indexPart (hPart o ho), ?_,
        trivial⟩
      exact .index rfl hFile
  have hEnd := run_end H targets opts env d
  generalize (run H targets opts env).ops d = ops at hEnd
  generalize (run H targets opts env).result d = result at hEnd
  cases hEnd with
  | noDirectory => exact trivial
  | leaked => exact hSessions
  | unindexed e ops hLast hIndexEnd => exact allowed_append.mpr ⟨hSessions, hIndex hIndexEnd⟩
  | indexed path ops hLast hIndexEnd => exact allowed_append.mpr ⟨hSessions, hIndex hIndexEnd⟩

/-- A call keeps what can be said of every key, also when it is cut short. -/
theorem RunIssue.stopped {log : List Report} {rows : List Value} {d₀ d d' : Files.Disk K}
    {o : Option String × Files.Op Paths.Path} (h : RunIssue H opts env log rows d o)
    (hAfter : d' = (Files.effects _ H.key).apply d o ∨ (Files.effects _ H.key).during d o d')
    {k : K} (hBefore : Stopped H opts env d₀ log rows d k) :
    Stopped H opts env d₀ log rows d' k := by
  have hFrame : (∀ p ∈ o.2.touched, H.key p ≠ k) → Stopped H opts env d₀ log rows d' k := by
    intro hTouched
    have hSame : d' k = d k := by
      rcases hAfter with rfl | hDuring
      · exact Files.apply_frame hTouched
      · exact Files.during_frame hDuring hTouched
    cases hBefore with
    | same h => exact .same (hSame.trans h)
    | part rep hRep hKey => exact .part rep hRep hKey
    | delivered rep n bytes hRep hFate hKey hFile hDelivered =>
      exact .delivered rep n bytes hRep hFate hKey (hSame.trans hFile) hDelivered
    | indexPart hKey => exact .indexPart hKey
    | index hKey hFile => exact .index hKey (hSame.trans hFile)
  cases h with
  | session hIssue =>
    cases hIssue with
    | part rep _ hRep hTag hTouched =>
      by_cases hKey : k = H.key (opts.part H rep.stem)
      · exact .part rep hRep hKey
      · refine hFrame fun p hp => ?_
        rw [hTouched, List.mem_singleton] at hp
        rw [hp]
        exact fun hEq => hKey hEq.symm
    | deliver rep n bytes hRep hFate hFile hDelivered =>
      have hApply := hAfter.resolve_right id
      by_cases hPath : k = H.key (opts.path H rep.stem)
      · refine .delivered rep n bytes hRep hFate hPath ?_ hDelivered
        rw [hApply, hPath]
        exact (Function.update_self _ _ _).trans hFile
      · by_cases hKey : k = H.key (opts.part H rep.stem)
        · exact .part rep hRep hKey
        · refine hFrame fun p hp => ?_
          rcases List.mem_pair.mp hp with rfl | rfl
          · exact fun hEq => hKey hEq.symm
          · exact fun hEq => hPath hEq.symm
  | indexPart hPart =>
    by_cases hKey : k = H.key (opts.join H indexPartName)
    · exact .indexPart hKey
    · refine hFrame fun p hp => ?_
      rw [hPart.2, List.mem_singleton] at hp
      rw [hp]
      exact fun hEq => hKey hEq.symm
  | index hOp hFile =>
    subst hOp
    have hApply := hAfter.resolve_right id
    by_cases hIndex : k = H.key (opts.join H indexName)
    · refine .index hIndex ?_
      rw [hApply, hIndex]
      exact (Function.update_self _ _ _).trans hFile
    · by_cases hKey : k = H.key (opts.join H indexPartName)
      · exact .indexPart hKey
      · refine hFrame fun p hp => ?_
        rcases List.mem_pair.mp hp with rfl | rfl
        · exact fun hEq => hKey hEq.symm
        · exact fun hEq => hIndex hEq.symm

/-- Wherever a run is stopped. -/
theorem run_stops {d d' : Files.Disk K}
    (hStop : Stops (Files.effects _ H.key) d ((run H targets opts env).ops d) d') (k : K) :
    Stopped H opts env d ((run H targets opts env).result d).2
      (lastRound H targets opts env d).indexRows d' k :=
  hStop.invariant (P := fun s => Stopped H opts env d ((run H targets opts env).result d).2
      (lastRound H targets opts env d).indexRows s k) (run_allowed d) (.same rfl)
    (fun _ _ hBefore hIssue => hIssue.stopped (.inl rfl) hBefore)
    fun _ _ _ hBefore hIssue hDuring => hIssue.stopped (.inr hDuring) hBefore

end Run

end Weflow.Export
