import Weflow.Export.Clobber

/-!
# Where a run writes

A run touches direct children of its directory, unless it is a resume that takes a stem out of the
index which is not the name of one component there (`run_contained`). The stem of a recorded file
is used as it stands; `recorded_parent` is an index that leads a run out of its directory.
-/

namespace Weflow.Export

open Effects
open Json (Value)

variable {K : Type} [DecidableEq K] (H : Host K)

/-- A stem whose files are direct children of the directory. -/
structure Contained (dir : Paths.Path) (format : Format) (stem : String) : Prop where
  path : Paths.DirectChild dir (Paths.join H.platform dir (fileName stem format).toList)
  part : Paths.DirectChild dir (Paths.join H.platform dir (partName stem format).toList)

/-- The stems an index imposes on the targets name components of the directory. -/
def Index.Contained (index : Index) (dir : Paths.Path) (format : Format)
    (targets : List SessionTarget) : Prop :=
  ∀ target ∈ targets, ∀ f, index.file target.talker = some f → foldCase (stemOfFile f) ≠ "index" →
    Export.Contained H dir format (stemOfFile f)

variable {H} {targets : List SessionTarget} {opts : Options} {env : CallEnv} {d : Files.Disk K}

omit [DecidableEq K] in
theorem Stem.contained {stem : String} (h : Stem stem) (dir : Paths.Path) (format : Format) :
    Contained H dir format stem :=
  ⟨Paths.directChild_join (portable_fileName h format).plain,
    Paths.directChild_join (portable_partName h format).plain⟩

/-! ## Containment -/

omit [DecidableEq K] in
/-- The stem of a target is the slugger's or that of the recorded file. -/
theorem stemFor_contained {index : Index} {target : SessionTarget} (taken : List String)
    (hTarget : target ∈ targets)
    (hIndex : index.Contained H opts.outDir opts.format targets) :
    Contained H opts.outDir opts.format (stemFor H.lower index target taken).1 := by
  have hFresh : Contained H opts.outDir opts.format (fileNameFor H.lower target taken).1 := by
    obtain ⟨name, hName, hStem, -⟩ := fileNameFor_spec H.lowers target taken
    rw [hName]
    exact hStem.contained _ _
  rw [stemFor]
  cases hFile : index.file target.talker with
  | none => exact hFresh
  | some f =>
    dsimp only
    split_ifs with hName
    · exact hFresh
    · exact hIndex target hTarget f hFile hName

theorem lastRound_contained
    (hIndex : (if opts.resume then previousIndex H opts d else []).Contained H opts.outDir
      opts.format targets) :
    ∀ rep ∈ (lastRound H targets opts env d).reports,
      Contained H opts.outDir opts.format rep.stem := by
  refine rounds_invariant
    (I := fun r _ => ∀ rep ∈ r.reports, Contained H opts.outDir opts.format rep.stem) d
    (by simp [Round.start]) ?_
  intro target r s ops p hTarget hKept hEnd rep hRep
  obtain ⟨fate, pages, hReports, -⟩ := hEnd.reports
  rw [hReports] at hRep
  rcases List.mem_append.mp hRep with hRep | hRep
  · exact hKept rep hRep
  · rw [List.mem_singleton.mp hRep]
    exact stemFor_contained r.taken (List.mem_of_getElem? hTarget) hIndex

theorem run_touches
    (hIndex : (if opts.resume then previousIndex H opts d else []).Contained H opts.outDir
      opts.format targets) :
    ∀ o ∈ (run H targets opts env).ops d, ∀ p ∈ o.2.touched, Paths.DirectChild opts.outDir p := by
  intro o ho p hp
  have hStem : ∀ rep ∈ ((run H targets opts env).result d).2,
      Contained H opts.outDir opts.format rep.stem := fun rep hRep =>
    lastRound_contained hIndex rep (run_reports hRep)
  have hPart : Paths.DirectChild opts.outDir (opts.join H indexPartName) :=
    Paths.directChild_join portable_indexPartName.plain
  obtain ⟨s, hIssue⟩ := (run_allowed d).mem ho
  cases hIssue with
  | session hSession =>
    cases hSession with
    | part rep _ hRep hTag hTouched =>
      rw [hTouched, List.mem_singleton] at hp
      rw [hp]
      exact (hStem rep hRep).part
    | deliver rep n bytes hRep hFate hFile hDelivered =>
      rcases List.mem_pair.mp hp with rfl | rfl
      · exact (hStem rep hRep).part
      · exact (hStem rep hRep).path
  | indexPart hOn =>
    rw [hOn.2, List.mem_singleton] at hp
    rw [hp]
    exact hPart
  | index hOp hFile =>
    subst hOp
    rcases List.mem_pair.mp hp with rfl | rfl
    · exact hPart
    · exact Paths.directChild_join portable_indexName.plain

/-! ## Leaving the directory -/

section Leaving

variable (target : SessionTarget) (stem : String)

/-- A session whose fetch has nothing to hand over puts its file under its name, where files may
be replaced. -/
theorem exportSession_renames (hSecret : opts.secret = "")
    (hFiles : ∀ k, Files.isFile (d k) = true) :
    (some target.talker, Files.Op.rename (opts.part H stem) (opts.path H stem)) ∈
      (exportSession H target opts (.calm (.done (.ok ()))) stem).ops d := by
  have hNoDir : ∀ k, Files.isDirectory (d k) = false := fun k =>
    Files.isDirectory_of_isFile (hFiles k)
  rw [Options.part, Options.path]
  cases hFormat : opts.format with
  | jsonl =>
    simp only [exportSession, SessionWriter.begin, SessionEnv.calm, SessionWriter.new,
      SessionWriter.openSink, hFormat, SessionWriter.put, hSecret, SessionWriter.drive,
      SessionWriter.finish, SessionWriter.finishInner, Act.ops_bind, Act.result_bind,
      Files.create_result, hNoDir, leaks_empty, Act.ops_pure, Act.result_pure, Act.after_bind,
      Act.after_pure, Bool.false_eq_true, if_false, Bool.or_false, Bool.not_false, if_true,
      List.nil_append, List.mem_append, List.not_mem_nil,
      or_false]
    refine .inr (.inl (Files.mem_rename ?_))
    exact Files.isFile_append (Files.isFile_create hFiles)
  | json =>
    simp only [exportSession, SessionWriter.begin, SessionEnv.calm, SessionWriter.new,
      SessionWriter.openSink, hFormat, SessionWriter.put, hSecret, SessionWriter.drive,
      SessionWriter.finish, SessionWriter.finishInner, Act.ops_bind, Act.result_bind,
      Files.write_result, Files.WriteFault.fails, hNoDir, leaks_empty, Act.ops_pure,
      Act.result_pure, Act.after_bind, Act.after_pure, Bool.false_eq_true, if_false,
      Bool.or_false, Bool.not_false, if_true, List.nil_append, List.mem_append, List.not_mem_nil,
      or_false]
    refine .inr (.inl (Files.mem_rename ?_))
    exact Files.isFile_write hFiles

/-- A session whose directory cannot be made. -/
def SessionEnv.closed : SessionEnv := { SessionEnv.calm (.done (.ok ())) with createDirFails := true }

/-- On a resume a `.part` file has its session exported again. -/
theorem exportTarget_again (previous recorded : Index) (env : SessionEnv) (r : Round)
    (hResume : opts.resume = true)
    (hPart : (d (H.key (opts.part H (stemIn H previous target r)))).isSome = true) :
    (exportTarget H opts previous recorded env target r).ops d =
      (exportSession H target opts env (stemIn H previous target r)).ops d ∧
    (((exportTarget H opts previous recorded env target r).result d).1 = true ↔
      ((exportSession H target opts env (stemIn H previous target r)).result d).1 =
        .error .secretLeak) := by
  have hReusable : reusable H opts previous target (stemIn H previous target r)
      (pathIn H opts previous target r) d = false := by
    rw [reusable]
    rw [Options.part] at hPart
    rw [hPart]
    simp
  rw [stemIn] at hReusable ⊢
  rw [pathIn, stemIn] at hReusable
  rw [exportTarget, Files.present, Act.ops_look_bind, Act.result_look_bind, hResume]
  dsimp only
  rw [Bool.not_true, Bool.false_and, Bool.false_and, Bool.false_and, if_neg (by simp),
    Act.ops_look_bind, Act.result_look_bind, hReusable, Bool.and_false, if_neg (by simp),
    Act.ops_bind, Act.result_bind]
  cases ((exportSession H target opts env
      (stemFor H.lower previous target r.taken).1).result d).1 with
  | error e => simp
  | ok n => simp

/-- The loop comes to a target when the sessions before it are closed. -/
theorem mem_exportTargets (previous recorded : Index) (env : Nat → SessionEnv)
    (hResume : opts.resume = true) (hFiles : ∀ k, Files.isFile (d k) = true)
    {rest : List SessionTarget} {i j : Nat} (r : Round) {target : SessionTarget} (hTarget : rest[i]? = some target)
    (hClosed : ∀ m, m < j + i → env m = .closed) :
    ∃ r', (exportSession H target opts (env (j + i)) (stemIn H previous target r')).ops d ⊆
      (exportTargets H opts previous recorded env j rest r).ops d := by
  induction rest generalizing i j r with
  | nil => simp at hTarget
  | cons first rest ih =>
    obtain ⟨hOps, hStop⟩ := exportTarget_again first previous recorded (env j) r hResume
      (Files.isSome_of_isFile (hFiles (H.key (opts.part H (stemIn H previous first r)))))
    rw [exportTargets, Act.ops_bind]
    cases i with
    | zero =>
      rw [List.getElem?_cons_zero, Option.some.injEq] at hTarget
      subst hTarget
      refine ⟨r, ?_⟩
      rw [hOps]
      exact List.subset_append_left _ _
    | succ i =>
      rw [List.getElem?_cons_succ] at hTarget
      have hEnv : env j = .closed := hClosed j (by omega)
      have hNone : (exportSession H first opts .closed (stemIn H previous first r)).ops d = [] := rfl
      have hError : (exportSession H first opts .closed (stemIn H previous first r)).result d =
          (.error .other, []) := rfl
      rw [hEnv] at hOps hStop
      rw [hNone] at hOps
      rw [hError] at hStop
      obtain ⟨r', hSub⟩ := ih (j := j + 1)
        ((exportTarget H opts previous recorded (env j) first r).result d).2 hTarget
        (fun m hm => hClosed m (by omega))
      refine ⟨r', ?_⟩
      have hAfter : (exportTarget H opts previous recorded (env j) first r).after d = d := by
        rw [Act.after, hEnv, hOps, replay_nil]
      rw [hEnv, if_neg (by rw [hStop]; simp), hOps, List.nil_append, ← hEnv, hAfter]
      have hIndex : j + 1 + i = j + (i + 1) := by omega
      rwa [hIndex] at hSub

end Leaving

/-! ## Any index -/

/-- The call in which session `i` alone is not closed. -/
def CallEnv.only (i : Nat) : CallEnv where
  createDirFails := false
  session j := if j = i then .calm (.done (.ok ())) else .closed
  now := 100
  indexFault := .none
  indexRenameFails := false

/-- Only a file has entries. -/
theorem isFile_of_file {J : Json.Text} {entry : Option Files.Entry} {talker f : String}
    (h : (parseIndex J entry).file talker = some f) : Files.isFile entry = true := by
  obtain ⟨row, hMem, -⟩ := Index.file_mem h
  rcases entry with _ | (bytes | _)
  · cases hMem
  · rfl
  · cases hMem

theorem run_contained (targets : List SessionTarget) (dir : Paths.Path) (format : Format)
    (resume : Bool) (entry : Option Files.Entry) :
    (∀ opts env d, opts.outDir = dir → opts.format = format → opts.resume = resume →
      d (nameKey H dir indexName) = entry → ∀ o ∈ (run H targets opts env).ops d,
      ∀ p ∈ o.2.touched, Paths.DirectChild dir p) ↔
    resume = false ∨ (parseIndex H.json entry).Contained H dir format targets := by
  constructor
  · intro hTouched
    rw [or_iff_not_imp_left, Bool.not_eq_false]
    rintro rfl target hTarget f hFile hName
    obtain ⟨i, hGet⟩ := List.mem_iff_getElem?.mp hTarget
    let opts : Options := ⟨dir, format, true, "", false⟩
    let d : Files.Disk K := Function.update (fun _ => some (.file [])) (nameKey H dir indexName) entry
    have hEntry : d (nameKey H dir indexName) = entry := Function.update_self _ _ _
    have hFiles : ∀ k, Files.isFile (d k) = true :=
      Files.isFile_update (fun _ => rfl) (isFile_of_file hFile) _
    have hPrevious : previousIndex H opts d = parseIndex H.json entry := by
      rw [previousIndex, nameKey_join H opts portable_indexName, hEntry]
    have hResume : opts.resume = true := rfl
    obtain ⟨r, hSub⟩ := mem_exportTargets (previousIndex H opts d) (previousIndex H opts d)
      (CallEnv.only i).session hResume hFiles
      (.start (seedTaken H.lower (previousIndex H opts d))) (j := 0) hGet
      (fun m hm => if_neg (by omega))
    have hStem : stemIn H (previousIndex H opts d) target r = stemOfFile f := by
      rw [stemIn, stemFor, hPrevious, hFile]
      dsimp only
      rw [if_neg hName]
    rw [hStem, Nat.zero_add] at hSub
    have hCalm : (CallEnv.only i).session i = .calm (.done (.ok ())) := if_pos rfl
    have hSession : (some target.talker, Files.Op.rename (opts.part H (stemOfFile f))
        (opts.path H (stemOfFile f))) ∈ (exportSession H target opts ((CallEnv.only i).session i)
          (stemOfFile f)).ops d := by
      rw [hCalm]
      exact exportSession_renames target (stemOfFile f) rfl hFiles
    have hNoDir : (CallEnv.only i).createDirFails = false := rfl
    have hRename : (some target.talker, Files.Op.rename (opts.part H (stemOfFile f))
        (opts.path H (stemOfFile f))) ∈ (run H targets opts (.only i)).ops d :=
      mem_run hNoDir (hSub hSession)
    have hChild := hTouched opts (.only i) d rfl rfl rfl hEntry _ hRename
    exact ⟨hChild _ (List.mem_cons_of_mem _ List.mem_cons_self), hChild _ List.mem_cons_self⟩
  · rintro hContained opts env d rfl rfl rfl rfl
    refine run_touches ?_
    rcases hContained with hFirst | hIndex
    · rw [hFirst, if_neg (by simp)]
      rintro target hTarget f hFile
      cases hFile
    · split_ifs
      · rw [previousIndex, nameKey_join H opts portable_indexName]
        exact hIndex
      · rintro target hTarget f hFile
        cases hFile

/-- An index whose entry for `a` names a file beside the directory. -/
def parentIndex : Files.Entry :=
  .file (Utf8.encode
    "\x7b\"sessions\":[\x7b\"talker\":\"a\",\"file\":\"../b.jsonl\"\x7d]\x7d".toList)

theorem recorded_parent : ∃ d : Files.Disk (List (List Char)),
    d (nameKey unixHost ⟨none, true, [['o']]⟩ indexName) = some parentIndex ∧
    ∃ o ∈ (run unixHost [⟨"a", "Team"⟩] (plainOptions .jsonl true)
      (.calm fun _ => oneRow "hi")).ops d,
    ∃ p ∈ o.2.touched, ¬ Paths.DirectChild ⟨none, true, [['o']]⟩ p := by
  refine ⟨Function.update emptyDisk (nameKey unixHost ⟨none, true, [['o']]⟩ indexName)
    (some parentIndex), Function.update_self _ _ _, ?_⟩
  decide +kernel

end Weflow.Export
