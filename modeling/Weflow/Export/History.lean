import Weflow.Export.Named

/-!
# The output directory over many runs

`RowFrom` says where the entries of a new index come from. `Reached` are the directories that
runs leave behind, one after another, each stopped anywhere, with foreign files put beside the
index in between; `Recorded` is what holds of all of them: the entries of the index have files
that stand there, and entries with one file have one talker.
-/

namespace Weflow.Export

open Effects
open Json (Value)

/-! ## Entries -/

/-- The talker of an entry. -/
def talkerOf (row : Value) : Option String := (row.get "talker").bind (·.asStr)

theorem isRowOf_iff {talker : String} {row : Value} :
    isRowOf talker row = true ↔ talkerOf row = some talker := by
  rw [isRowOf, beq_iff_eq]
  rfl

@[simp] theorem talkerOf_indexRow (target : SessionTarget) (file : String) (n : UInt64)
    (withMedia : Bool) : talkerOf (indexRow target file n withMedia) = some target.talker := by
  simp [talkerOf, indexRow, Json.get_object, Value.asStr]

@[simp] theorem fileOf_indexRow (target : SessionTarget) (file : String) (n : UInt64)
    (withMedia : Bool) : fileOf (indexRow target file n withMedia) = some file := by
  simp [fileOf, indexRow, Json.get_object, Value.asStr]

/-- The entries of an index file whose text has these rows. -/
theorem parseIndex_indexBytes {K : Type} (H : Host K) {rows : List Value} (env : CallEnv)
    (h : ∀ row ∈ rows, row.Wf) : parseIndex H.json (some (.file (indexBytes H rows env))) =
      Json.ordered (rows.filterMap fun row => (talkerOf row).map (·, row)) := by
  have hSessions : (indexDocument rows env.now).get "sessions" = some (.arr rows) := by
    simp [indexDocument, Json.get_object]
  rw [parseIndex, indexBytes, Utf8.decode_encode, Option.bind_some, String.ofList_toList,
    H.json.parse_render (wf_indexDocument h env.now)]
  simp only [Option.bind_some, hSessions, Value.asArray, Option.getD_some, talkerOf]

theorem parseIndex_keyed (J : Json.Text) (entry : Option Files.Entry) :
    ((parseIndex J entry).map (·.1)).Pairwise (· < ·) := by
  rcases entry with _ | (bytes | _)
  · exact List.Pairwise.nil
  · exact Json.ordered_sorted _
  · exact List.Pairwise.nil

theorem parseIndex_talker {J : Json.Text} {entry : Option Files.Entry} {e : String × Value}
    (h : e ∈ parseIndex J entry) : talkerOf e.2 = some e.1 := by
  rcases entry with _ | (bytes | _)
  · cases h
  · obtain ⟨row, -, hRow⟩ := List.mem_filterMap.mp (Json.mem_of_mem_ordered h)
    obtain ⟨talker, hTalker, rfl⟩ := Option.map_eq_some_iff.mp hRow
    exact hTalker
  · cases h

namespace Index

variable {index : Index} {talker name : String} {row : Value}

/-- Every talker has one entry in an index that was read. -/
theorem row_iff (hKeyed : (index.map (·.1)).Pairwise (· < ·)) :
    index.row talker = some row ↔ (talker, row) ∈ index := by
  constructor
  · intro h
    rw [Index.row, Option.map_eq_some_iff] at h
    obtain ⟨e, hFind, rfl⟩ := h
    have hTalker : e.1 = talker := by simpa using List.find?_some hFind
    rw [← hTalker]
    exact List.mem_of_find?_eq_some hFind
  · intro h
    have hNodup : (index.map (·.1)).Nodup := hKeyed.imp fun hLt => ne_of_lt hLt
    cases hFind : index.find? (·.1 == talker) with
    | none =>
      have hNone := List.find?_eq_none.mp hFind _ h
      simp at hNone
    | some e =>
      have hTalker : e.1 = talker := by simpa using List.find?_some hFind
      have hSame : e = (talker, row) :=
        List.inj_on_of_nodup_map hNodup (List.mem_of_find?_eq_some hFind) h hTalker
      rw [Index.row, hFind, hSame]
      rfl

theorem owner_mem (h : index.owner name = some talker) :
    ∃ row file, (talker, row) ∈ index ∧ fileOf row = some file ∧
      foldCase file = foldCase name := by
  rw [owner, Option.map_eq_some_iff] at h
  obtain ⟨e, hFind, rfl⟩ := h
  have hFile := List.find?_some hFind
  rw [Option.any_eq_true] at hFile
  obtain ⟨file, hFile, hFold⟩ := hFile
  exact ⟨e.2, file, List.mem_of_find?_eq_some hFind, hFile, by simpa using hFold⟩

theorem owner_none {file : String} (h : index.owner name = none) (hMem : (talker, row) ∈ index)
    (hFile : fileOf row = some file) : foldCase file ≠ foldCase name := by
  rw [owner, Option.map_eq_none_iff, List.find?_eq_none] at h
  have hNot := h _ hMem
  simpa [hFile] using hNot

/-- A file an index records. -/
theorem file_mem {f : String} (h : index.file talker = some f) :
    ∃ row, (talker, row) ∈ index ∧ fileOf row = some f := by
  rw [Index.file, Option.bind_eq_some_iff] at h
  obtain ⟨row, hRow, hFile⟩ := h
  rw [Index.row, Option.map_eq_some_iff] at hRow
  obtain ⟨e, hFind, rfl⟩ := hRow
  have hTalker : e.1 = talker := by simpa using List.find?_some hFind
  rw [← hTalker]
  exact ⟨e.2, List.mem_of_find?_eq_some hFind, hFile⟩

end Index

/-! ## The rows of a run -/

section Rows

/-- Where an entry comes from: a session that was written, one that is reused, or the owner of
the file another session was refused over. -/
inductive RowFrom (opts : Options) (previous recorded : Index) (log : List Report)
    (row : Value) : Prop
  | delivered (rep : Report) (n : UInt64) (hRep : rep ∈ log) (hFate : rep.fate = .written n)
      (hRow : row = indexRow rep.target (fileName rep.stem opts.format) n opts.withMedia)
  | reused (rep : Report) (hRep : rep ∈ log) (hFate : rep.fate = .reused)
      (hResume : opts.resume = true) (hRow : previous.row rep.target.talker = some row)
      (hFile : fileOf row = some (fileName rep.stem opts.format))
  | carried (rep : Report) (talker : String) (hRep : rep ∈ log) (hFate : rep.fate = .refused)
      (hFirst : opts.resume = false)
      (hOwner : recorded.owner (fileName rep.stem opts.format) = some talker)
      (hRow : recorded.row talker = some row)

variable {opts : Options} {previous recorded : Index} {log log' : List Report} {row : Value}

theorem RowFrom.grow (hSub : log ⊆ log') (h : RowFrom opts previous recorded log row) :
    RowFrom opts previous recorded log' row := by
  cases h with
  | delivered rep n hRep hFate hRow => exact .delivered rep n (hSub hRep) hFate hRow
  | reused rep hRep hFate hResume hRow hFile =>
    exact .reused rep (hSub hRep) hFate hResume hRow hFile
  | carried rep talker hRep hFate hFirst hOwner hRow =>
    exact .carried rep talker (hSub hRep) hFate hFirst hOwner hRow

/-- The entry a refusal keeps. -/
theorem mem_carried {owner : Option String} {rows : List Value} :
    row ∈ carried recorded owner rows ↔ ∃ talker, owner = some talker ∧
      rows.any (isRowOf talker) = false ∧ recorded.row talker = some row := by
  cases owner with
  | none => simp [carried]
  | some talker =>
    rw [carried]
    cases hAny : rows.any (isRowOf talker) with
    | false => simp only [Bool.false_eq_true, if_false, Option.mem_toList, Option.some.injEq,
        exists_eq_left', hAny, true_and]
    | true => simp only [if_true, List.not_mem_nil, Option.some.injEq, exists_eq_left', hAny,
        Bool.true_eq_false, false_and]

variable {K : Type} [DecidableEq K] {H : Host K}

/-- The rows one target adds. -/
theorem TargetEnd.rows {env : SessionEnv} {target : SessionTarget} {r : Round}
    {d : Files.Disk K} {ops : List (Option String × Files.Op Paths.Path)} {p : Bool × Round}
    (hName : nameHere (pathIn H opts previous target r) =
      fileName (stemIn H previous target r) opts.format)
    (h : TargetEnd H opts previous recorded env target r d ops p) (hRow : row ∈ p.2.indexRows) :
    row ∈ r.indexRows ∨ RowFrom opts previous recorded p.2.reports row := by
  have hLast : ∀ rep : Report, rep ∈ r.reports ++ [rep] := fun rep =>
    List.mem_append_right _ List.mem_cons_self
  cases h with
  | refused hFirst hHere hOwner hRound =>
    rcases List.mem_append.mp hRow with hRow | hRow
    · exact .inl hRow
    · obtain ⟨talker, hTalker, -, hRecorded⟩ := mem_carried.mp hRow
      rw [hName] at hTalker
      exact .inr (.carried _ talker (hLast _) rfl hFirst hTalker hRecorded)
  | reused hResume hHere hReusable =>
    rcases List.mem_append.mp hRow with hRow | hRow
    · exact .inl hRow
    · simp only [reusable, Bool.and_eq_true, beq_iff_eq, hName] at hReusable
      have hPrevious := Option.mem_toList.mp hRow
      have hFile := hReusable.1.1.1
      rw [Index.file, hPrevious] at hFile
      exact .inr (.reused _ (hLast _) rfl hResume hPrevious hFile)
  | failed e ops pages hAdmitted hResult hEnd => exact .inl hRow
  | written n ops pages hAdmitted hResult hEnd =>
    rcases List.mem_append.mp hRow with hRow | hRow
    · exact .inl hRow
    · rw [hName] at hRow
      exact .inr (.delivered _ n (hLast _) rfl (List.mem_singleton.mp hRow))

end Rows

/-! ## Files that stand -/

section Standing

variable {K : Type} (H : Host K) (dir : Paths.Path) (P : Prop)

/-- The key of a file of the directory. -/
def nameKey (name : String) : K := H.key (Paths.child dir name.toList)

theorem nameKey_join (opts : Options) {name : String} (h : Portable name) :
    H.key (opts.join H name) = nameKey H opts.outDir name := by
  rw [join_portable H h, nameKey]

/-- The file of a session stands; if `P`, it is a complete one. -/
def Standing (d : Files.Disk K) (stem : String) (format : Format) : Prop :=
  ∃ bytes, d (nameKey H dir (fileName stem format)) = some (.file bytes) ∧
    (P → ∃ target now rows, Complete H.json format target now rows bytes)

structure RowStands (d : Files.Disk K) (row : Value) : Prop where
  wf : row.Wf
  talker : ∃ talker, talkerOf row = some talker
  file : ∃ stem format, fileOf row = some (fileName stem format) ∧ Stem stem ∧
    foldCase stem ≠ "index" ∧ Standing H dir P d stem format

/-- Rows with one file, letter case aside, have one talker. -/
def RowsOwned (rows : List Value) : Prop :=
  ∀ row ∈ rows, ∀ row' ∈ rows, ∀ f f', fileOf row = some f → fileOf row' = some f' →
    foldCase (stemOfFile f) = foldCase (stemOfFile f') → talkerOf row = talkerOf row'

/-- What holds of a directory that runs have left: there is no index, or its rows stand. -/
def Recorded (d : Files.Disk K) : Prop :=
  d (nameKey H dir indexName) = none ∨ ∃ rows env,
    d (nameKey H dir indexName) = some (.file (indexBytes H rows env)) ∧
    (∀ row ∈ rows, RowStands H dir P d row) ∧ RowsOwned rows

variable {H dir P}

theorem RowStands.mono {d d' : Files.Disk K} {row : Value} (h : RowStands H dir P d row)
    (hFile : ∀ stem format, Stem stem → foldCase stem ≠ "index" → Standing H dir P d stem format →
      Standing H dir P d' stem format) : RowStands H dir P d' row := by
  obtain ⟨stem, format, hRow, hStem, hIndex, hStanding⟩ := h.file
  exact ⟨h.wf, h.talker, stem, format, hRow, hStem, hIndex,
    hFile stem format hStem hIndex hStanding⟩

variable [DecidableEq K] {opts : Options} {d : Files.Disk K}

omit [DecidableEq K] in
/-- The index a run reads in such a directory. -/
theorem Recorded.entries (h : Recorded H opts.outDir P d) :
    (∀ e ∈ previousIndex H opts d, RowStands H opts.outDir P d e.2) ∧
      (previousIndex H opts d).Sound := by
  have hKey : H.key (opts.join H indexName) = nameKey H opts.outDir indexName :=
    nameKey_join H opts portable_indexName
  rcases h with hNone | ⟨rows, env, hFile, hStands, hOwned⟩
  · rw [previousIndex, hKey, hNone]
    exact ⟨by simp [parseIndex], sound_nil⟩
  · have hMem : ∀ e ∈ previousIndex H opts d, e.2 ∈ rows := by
      intro e he
      rw [previousIndex, hKey, hFile, parseIndex_indexBytes H env fun row hRow =>
        (hStands row hRow).wf] at he
      obtain ⟨row, hRow, hEq⟩ := List.mem_filterMap.mp (Json.mem_of_mem_ordered he)
      obtain ⟨talker, -, rfl⟩ := Option.map_eq_some_iff.mp hEq
      exact hRow
    refine ⟨fun e he => hStands e.2 (hMem e he), fun e he f hf => ?_, ?_⟩
    · obtain ⟨stem, format, hRow, hStem, hIndex, -⟩ := (hStands e.2 (hMem e he)).file
      rw [hRow, Option.some.injEq] at hf
      exact ⟨stem, format, hf.symm, hStem, hIndex⟩
    · intro e he e' he' f f' hf hf' hEq
      have hTalker := hOwned e.2 (hMem e he) e'.2 (hMem e' he') f f' hf hf' hEq
      rw [parseIndex_talker he, parseIndex_talker he', Option.some.injEq] at hTalker
      exact hTalker

variable {env : CallEnv} {log : List Report}

omit [DecidableEq K] in
theorem Place.stopped {d₀ d : Files.Disk K} {k : K} (rows : List Value)
    (h : Place H opts env d₀ d log k) : Stopped H opts env d₀ log rows d k := by
  cases h with
  | same hSame => exact .same hSame
  | part rep hRep hKey _ => exact .part rep hRep hKey
  | delivered rep n bytes hRep hFate hKey hFile hDelivered =>
    exact .delivered rep n bytes hRep hFate hKey hFile hDelivered

omit [DecidableEq K] in
/-- What can stand under the name of a session file when a run is stopped: what stood there, or
the file of a session of this run. -/
theorem Stopped.file {d₀ d : Files.Disk K} {rows : List Value} {stem : String} {format : Format}
    (hLog : ∀ rep ∈ log, Stem rep.stem) (hStem : Stem stem) (hIndex : foldCase stem ≠ "index")
    (h : Stopped H opts env d₀ log rows d (nameKey H opts.outDir (fileName stem format))) :
    d (nameKey H opts.outDir (fileName stem format)) =
        d₀ (nameKey H opts.outDir (fileName stem format)) ∨
      ∃ rep ∈ log, ∃ n bytes, rep.fate = .written n ∧ format = opts.format ∧
        foldCase stem = foldCase rep.stem ∧
        d (nameKey H opts.outDir (fileName stem format)) = some (.file bytes) ∧
        Delivered H.json opts env rep n bytes := by
  have hKey := nameKey_join H opts (portable_fileName hStem format)
  cases h with
  | same hSame => exact .inl hSame
  | part rep hRep hPart =>
    exact absurd (hKey.trans hPart) (key_file_ne_part H hStem (hLog rep hRep) format)
  | delivered rep n bytes hRep hFate hPath hFile hDelivered =>
    obtain ⟨hFold, hFormat⟩ := foldCase_fileName_inj (key_join H (portable_fileName hStem format)
      (portable_fileName (hLog rep hRep) opts.format) (hKey.trans hPath))
    exact .inr ⟨rep, hRep, n, bytes, hFate, hFormat, hFold, hFile, hDelivered⟩
  | indexPart hPart => exact absurd (hKey.trans hPart) (key_file_ne_indexPart H hStem format)
  | index hName _ => exact absurd (hKey.trans hName) (key_file_ne_index H hStem hIndex format)

omit [DecidableEq K] in
/-- Files stand on, whatever a run has done. -/
theorem Standing.stopped {d' : Files.Disk K} {rows : List Value} (hHonest : P → env.Honest)
    (hLog : ∀ rep ∈ log, Stem rep.stem)
    (hStopped : ∀ k, Stopped H opts env d log rows d' k) (stem : String) (format : Format)
    (hStem : Stem stem) (hIndex : foldCase stem ≠ "index")
    (h : Standing H opts.outDir P d stem format) : Standing H opts.outDir P d' stem format := by
  obtain ⟨bytes, hFile, hComplete⟩ := h
  rcases (hStopped (nameKey H opts.outDir (fileName stem format))).file hLog hStem hIndex with
    hSame | ⟨rep, -, n, bytes', -, hFormat, -, hFile', hDelivered⟩
  · exact ⟨bytes, hSame.trans hFile, hComplete⟩
  · refine ⟨bytes', hFile', fun hP => ?_⟩
    obtain ⟨now, hComplete', -⟩ := hDelivered (hHonest hP)
    rw [hFormat]
    exact ⟨_, now, _, hComplete'⟩

omit [DecidableEq K] in
/-- An entry whose sources stand, stands. -/
theorem RowFrom.stands {previous recorded : Index} {row : Value}
    (hPrevious : ∀ e ∈ previous, e ∈ recorded)
    (hEntries : ∀ e ∈ recorded, RowStands H opts.outDir P d e.2)
    (hStem : ∀ rep ∈ log, Stem rep.stem ∧ foldCase rep.stem ≠ "index")
    (hFiles : ∀ rep ∈ log, ∀ n, rep.fate = .written n →
      Standing H opts.outDir P d rep.stem opts.format)
    (h : RowFrom opts previous recorded log row) : RowStands H opts.outDir P d row := by
  have hRowMem : ∀ {index : Index} {talker : String}, index.row talker = some row →
      ∃ e ∈ index, e.2 = row := by
    intro index talker hRow
    rw [Index.row, Option.map_eq_some_iff] at hRow
    obtain ⟨e, hFind, rfl⟩ := hRow
    exact ⟨e, List.mem_of_find?_eq_some hFind, rfl⟩
  cases h with
  | delivered rep n hRep hFate hRow =>
    obtain ⟨hStem, hIndex⟩ := hStem rep hRep
    subst hRow
    refine ⟨wf_indexRow _ _ _ _, ⟨_, talkerOf_indexRow _ _ _ _⟩, rep.stem, opts.format,
      fileOf_indexRow _ _ _ _, hStem, hIndex, hFiles rep hRep n hFate⟩
  | reused rep hRep hFate hResume hRow hFile =>
    obtain ⟨e, he, rfl⟩ := hRowMem hRow
    exact hEntries e (hPrevious e he)
  | carried rep talker hRep hFate hFirst hOwner hRow =>
    obtain ⟨e, he, rfl⟩ := hRowMem hRow
    exact hEntries e he

variable (targets : List SessionTarget)

theorem mem_previous {index : Index} {e : String × Value}
    (he : e ∈ if opts.resume then index else []) : e ∈ index := by
  split at he
  · exact he
  · cases he

/-- At the end of the sessions, every entry of the old index and every row of the new one stands. -/
theorem lastRound_stands (hRecorded : Recorded H opts.outDir P d) (hHonest : P → env.Honest) :
    (∀ e ∈ previousIndex H opts d,
      RowStands H opts.outDir P (sessionsDisk H targets opts env d) e.2) ∧
    (∀ rep ∈ (lastRound H targets opts env d).reports, ∀ n, rep.fate = .written n →
      Standing H opts.outDir P (sessionsDisk H targets opts env d) rep.stem opts.format) ∧
    ∀ row ∈ (lastRound H targets opts env d).indexRows,
      RowFrom opts (if opts.resume then previousIndex H opts d else []) (previousIndex H opts d)
        (lastRound H targets opts env d).reports row ∧
      RowStands H opts.outDir P (sessionsDisk H targets opts env d) row := by
  obtain ⟨hEntries, hSound⟩ := hRecorded.entries
  refine (rounds_invariant (I := fun r s =>
    Named (if opts.resume then previousIndex H opts d else []) r ∧
    (∀ e ∈ previousIndex H opts d, RowStands H opts.outDir P s e.2) ∧
    (∀ rep ∈ r.reports, ∀ n, rep.fate = .written n →
      Standing H opts.outDir P s rep.stem opts.format) ∧
    ∀ row ∈ r.indexRows, RowFrom opts (if opts.resume then previousIndex H opts d else [])
      (previousIndex H opts d) r.reports row ∧ RowStands H opts.outDir P s row) d
    ⟨named_start H.lowers (sound_previous hSound), hEntries, by simp [Round.start],
      by simp [Round.start]⟩ ?_).2
  intro target r s ops p hTarget hI hEnd
  obtain ⟨hNamed, hEntries, hFiles, hRows⟩ := hI
  have hNamed' := hNamed.step (sound_previous hSound) hEnd
  have hStems := fun rep hRep => (hNamed'.stem rep hRep).1
  have hKeep : ∀ stem format, Stem stem → foldCase stem ≠ "index" →
      Standing H opts.outDir P s stem format →
      Standing H opts.outDir P (replay (Files.effects _ H.key) s ops) stem format :=
    fun stem format => Standing.stopped hHonest hStems
      (fun k => (hEnd.issues.2 k).stopped []) stem format
  obtain ⟨fate, pages, hReports, -⟩ := hEnd.reports
  have hEntries' : ∀ e ∈ previousIndex H opts d,
      RowStands H opts.outDir P (replay (Files.effects _ H.key) s ops) e.2 := fun e he =>
    (hEntries e he).mono hKeep
  have hFiles' : ∀ rep ∈ p.2.reports, ∀ n, rep.fate = .written n →
      Standing H opts.outDir P (replay (Files.effects _ H.key) s ops) rep.stem opts.format := by
    intro rep hRep n hFate
    obtain ⟨hStem, hIndex⟩ := hNamed'.stem rep hRep
    rw [hReports] at hRep
    rcases List.mem_append.mp hRep with hOld | hNew
    · exact hKeep _ _ hStem hIndex (hFiles rep hOld n hFate)
    · rw [← List.mem_singleton.mp hNew] at hReports
      obtain ⟨bytes, hFile, hDelivered⟩ := hEnd.delivered hReports hFate
      rw [Options.path, nameKey_join H opts (portable_fileName hStem _)] at hFile
      refine ⟨bytes, hFile, fun hP => ?_⟩
      obtain ⟨now, hComplete, -⟩ := hDelivered (hHonest hP)
      exact ⟨_, now, _, hComplete⟩
  refine ⟨hNamed', hEntries', hFiles', fun row hRow => ?_⟩
  have hStem : Stem (stemIn H (if opts.resume then previousIndex H opts d else []) target r) := by
    refine hStems ⟨target, _, fate, pages⟩ ?_
    rw [hReports]
    exact List.mem_append_right _ List.mem_cons_self
  have hFrom : RowFrom opts (if opts.resume then previousIndex H opts d else [])
      (previousIndex H opts d) p.2.reports row := by
    rcases hEnd.rows (nameHere_join H (portable_fileName hStem opts.format)) hRow with hOld | hNew
    · refine (hRows row hOld).1.grow ?_
      rw [hReports]
      exact List.subset_append_left _ _
    · exact hNew
  exact ⟨hFrom, hFrom.stands (fun e he => mem_previous he) hEntries' hNamed'.stem hFiles'⟩

/-- The report behind an entry: it names the entry's file and, unless it is that of a refusal,
its talker. -/
theorem RowFrom.source {recorded : Index} {row : Value} {J : Json.Text}
    {entry : Option Files.Entry} (hRecorded : recorded = parseIndex J entry)
    (hSound : recorded.Sound)
    (h : RowFrom opts (if opts.resume then recorded else []) recorded log row) :
    ∃ rep ∈ log, (∃ f, fileOf row = some f ∧
        foldCase f = foldCase (fileName rep.stem opts.format) ∧
        foldCase (stemOfFile f) = foldCase rep.stem) ∧
      (rep.fate = .refused → opts.resume = false) ∧
      talkerOf row = if rep.fate = .refused then
        recorded.owner (fileName rep.stem opts.format) else some rep.target.talker := by
  have hKeyed : (recorded.map (·.1)).Pairwise (· < ·) := by
    rw [hRecorded]
    exact parseIndex_keyed _ _
  have hTalker : ∀ e ∈ recorded, talkerOf e.2 = some e.1 := by
    rw [hRecorded]
    exact fun e he => parseIndex_talker he
  cases h with
  | delivered rep n hRep hFate hRow =>
    subst hRow
    refine ⟨rep, hRep, ⟨_, fileOf_indexRow _ _ _ _, rfl, ?_⟩, ?_, ?_⟩
    · rw [stemOfFile_fileName]
    · intro hRefused
      rw [hRefused] at hFate
      cases hFate
    · rw [hFate, if_neg (by simp), talkerOf_indexRow]
  | reused rep hRep hFate hResume hRow hFile =>
    rw [hResume, if_pos rfl] at hRow
    refine ⟨rep, hRep, ⟨_, hFile, rfl, ?_⟩, ?_, ?_⟩
    · rw [stemOfFile_fileName]
    · intro hRefused
      rw [hRefused] at hFate
      cases hFate
    · rw [hFate, if_neg (by simp)]
      exact hTalker _ ((Index.row_iff hKeyed).mp hRow)
  | carried rep talker hRep hFate hFirst hOwner hRow =>
    obtain ⟨row', f, hMem, hFile, hFold⟩ := Index.owner_mem hOwner
    have hSame : row' = row := Option.some.inj (((Index.row_iff hKeyed).mpr hMem).symm.trans hRow)
    subst hSame
    obtain ⟨stem, format, rfl, -, -⟩ := hSound.named _ hMem f hFile
    refine ⟨rep, hRep, ⟨_, hFile, hFold, ?_⟩, fun _ => hFirst, ?_⟩
    · rw [stemOfFile_fileName]
      exact (foldCase_fileName_inj hFold).1
    · rw [hFate, if_pos rfl, hOwner]
      exact hTalker _ hMem

theorem lastRound_owned (hRecorded : Recorded H opts.outDir P d) (hHonest : P → env.Honest) :
    RowsOwned (lastRound H targets opts env d).indexRows := by
  obtain ⟨hEntries, hSound⟩ := hRecorded.entries
  have hNamed := lastRound_named targets env hSound
  obtain ⟨-, -, hRows⟩ := lastRound_stands targets hRecorded hHonest
  intro row hRow row' hRow' f f' hFile hFile' hEq
  obtain ⟨rep, hRep, ⟨g, hg, -, hStem⟩, hRefused, hTalker⟩ :=
    (hRows row hRow).1.source rfl hSound
  obtain ⟨rep', hRep', ⟨g', hg', -, hStem'⟩, hRefused', hTalker'⟩ :=
    (hRows row' hRow').1.source rfl hSound
  rw [hg, Option.some.injEq] at hFile
  rw [hg', Option.some.injEq] at hFile'
  have hStems : foldCase rep.stem = foldCase rep'.stem := by
    rw [← hStem, ← hStem', hFile, hFile']
    exact hEq
  by_cases hResume : opts.resume = true
  · -- a resume refuses nobody, and gives one name to one talker
    have hNot : ∀ {r : Report}, (r.fate = .refused → opts.resume = false) → r.fate ≠ .refused := by
      intro r h hFate
      rw [hResume] at h
      cases h hFate
    rw [hTalker, hTalker', if_neg (hNot hRefused), if_neg (hNot hRefused'), Option.some.injEq]
    exact hNamed.talker_eq hRep hRep' hStems
  · -- a first run gives every name once
    have hFresh := hNamed.fresh (if_neg hResume)
    have hSame : rep = rep' := List.inj_on_of_nodup_map hFresh hRep hRep' hStems
    rw [hTalker, hTalker', hSame]

/-! ## Reached directories -/

/-- The directories that runs leave. If `P`, all their fetches are honest. -/
inductive Reached (H : Host K) (dir : Paths.Path) (P : Prop) : Files.Disk K → Prop
  | start (d : Files.Disk K) (hNone : d (nameKey H dir indexName) = none) : Reached H dir P d
  | stopped (d d' : Files.Disk K) (targets : List SessionTarget) (opts : Options) (env : CallEnv)
      (hReached : Reached H dir P d) (hDir : opts.outDir = dir) (hHonest : P → env.Honest)
      (hStop : Stops (Files.effects _ H.key) d ((run H targets opts env).ops d) d') :
      Reached H dir P d'
  | foreign (d d' : Files.Disk K) (hReached : Reached H dir P d)
      (hKept : ∀ k e, d k = some e → d' k = some e)
      (hIndex : d' (nameKey H dir indexName) = d (nameKey H dir indexName)) : Reached H dir P d'

/-- The files of other names are as the sessions left them, wherever the writing of the index is
stopped; the index is the old one or the new one. -/
theorem IndexEnd.stops {rows : List Value} {ops : List (Option String × Files.Op Paths.Path)}
    {result : Except Failure Paths.Path} {d' : Files.Disk K}
    (h : IndexEnd H opts rows env d ops result) (hStop : Stops (Files.effects _ H.key) d ops d') :
    (∀ k, k ≠ H.key (opts.join H indexPartName) → k ≠ H.key (opts.join H indexName) →
      d' k = d k) ∧
    (d' (H.key (opts.join H indexName)) = d (H.key (opts.join H indexName)) ∨
      d' (H.key (opts.join H indexName)) = some (.file (indexBytes H rows env))) := by
  have hNe := key_indexPart_ne_index H opts
  have hParts : ∀ {before : List (Option String × Files.Op Paths.Path)} {s : Files.Disk K},
      (∀ o ∈ before, OnIndexPart H opts o) → Stops (Files.effects _ H.key) d before s →
      ∀ k, k ≠ H.key (opts.join H indexPartName) → s k = d k := by
    intro before s hPart hStop k hk
    refine Files.stops_frame hStop fun o ho p hp => ?_
    rw [(hPart o ho).2, List.mem_singleton] at hp
    rw [hp]
    exact hk.symm
  cases h with
  | failed e _ hPart =>
    exact ⟨fun k hk _ => hParts hPart hStop k hk, .inl (hParts hPart hStop _ hNe.symm)⟩
  | written before hPart hClean hFile =>
    rcases stops_append hStop with hBefore | hAfter | hDuring | hLast
    · exact ⟨fun k hk _ => hParts hPart hBefore k hk, .inl (hParts hPart hBefore _ hNe.symm)⟩
    · subst hAfter
      exact ⟨fun k hk _ => hParts hPart (stops_end _ _) k hk,
        .inl (hParts hPart (stops_end _ _) _ hNe.symm)⟩
    · exact hDuring.elim
    · have hRename : d' = Files.apply H.key (replay (Files.effects _ H.key) d before)
          (.rename (opts.join H indexPartName) (opts.join H indexName)) := hLast
      subst hRename
      refine ⟨fun k hk hk' => ?_, .inr ?_⟩
      · refine (Function.update_of_ne hk' _ _).trans ?_
        refine (Function.update_of_ne hk _ _).trans ?_
        exact hParts hPart (stops_end _ _) k hk
      · exact (Function.update_self _ _ _).trans hFile

variable {targets}

/-- When a run is stopped, the index is the one before, or the sessions are over and it is the new
one. -/
theorem run_index (hSound : (previousIndex H opts d).Sound) {d' : Files.Disk K}
    (hStop : Stops (Files.effects _ H.key) d ((run H targets opts env).ops d) d') :
    d' (H.key (opts.join H indexName)) = d (H.key (opts.join H indexName)) ∨
    d' (H.key (opts.join H indexName)) =
      some (.file (indexBytes H (lastRound H targets opts env d).indexRows env)) ∧
    ∀ k, k ≠ H.key (opts.join H indexPartName) → k ≠ H.key (opts.join H indexName) →
      d' k = sessionsDisk H targets opts env d k := by
  have hNamed := lastRound_named targets env hSound
  have hRounds := (rounds_holds H targets opts env
    (previousIndex H opts d) d).allowed
  have hIndexKept : ∀ {s}, Stops (Files.effects _ H.key) d
      ((rounds H targets opts env (previousIndex H opts d)).ops d) s →
      s (H.key (opts.join H indexName)) = d (H.key (opts.join H indexName)) := by
    intro s hRoundStop
    have hTouched : ∀ {s : Files.Disk K} {o}, Issue H opts env
        (lastRound H targets opts env d).reports s o →
        ∀ p ∈ o.2.touched, H.key p ≠ H.key (opts.join H indexName) := by
      intro s o hIssue p hp
      cases hIssue with
      | part rep _ hRep hTag hPart =>
        rw [hPart, List.mem_singleton] at hp
        rw [hp]
        exact key_part_ne_index H (hNamed.stem rep hRep).1
      | deliver rep n bytes hRep hFate hFile hDelivered =>
        rcases List.mem_pair.mp hp with rfl | rfl
        · exact key_part_ne_index H (hNamed.stem rep hRep).1
        · exact key_file_ne_index H (hNamed.stem rep hRep).1 (hNamed.stem rep hRep).2 _
    exact hRoundStop.invariant (P := fun s => s (H.key (opts.join H indexName)) =
        d (H.key (opts.join H indexName))) hRounds rfl
      (fun s o hs hIssue => (Files.apply_frame (hTouched hIssue)).trans hs)
      fun s o s' hs hIssue hDuring => (Files.during_frame hDuring (hTouched hIssue)).trans hs
  have hIndexStop : ∀ {ops : List (Option String × Files.Op Paths.Path)}
      {result : Except Failure Paths.Path},
      IndexEnd H opts (lastRound H targets opts env d).indexRows env
        (sessionsDisk H targets opts env d) ops result →
      Stops (Files.effects _ H.key) (sessionsDisk H targets opts env d) ops d' →
      d' (H.key (opts.join H indexName)) = d (H.key (opts.join H indexName)) ∨
      d' (H.key (opts.join H indexName)) =
        some (.file (indexBytes H (lastRound H targets opts env d).indexRows env)) ∧
      ∀ k, k ≠ H.key (opts.join H indexPartName) → k ≠ H.key (opts.join H indexName) →
        d' k = sessionsDisk H targets opts env d k := by
    intro ops result hEnd hIndexStop
    obtain ⟨hOther, hOld | hNew⟩ := hEnd.stops hIndexStop
    · exact .inl (hOld.trans (hIndexKept (stops_end _ _)))
    · exact .inr ⟨hNew, hOther⟩
  have hEnd := run_end H targets opts env d
  generalize (run H targets opts env).ops d = ops at hEnd hStop
  generalize (run H targets opts env).result d = result at hEnd
  cases hEnd with
  | noDirectory => exact .inl (by rw [hStop])
  | leaked => exact .inl (hIndexKept hStop)
  | unindexed e ops hLast hIndexEnd =>
    rcases stops_append hStop with hBefore | hAfter
    · exact .inl (hIndexKept hBefore)
    · exact hIndexStop hIndexEnd hAfter
  | indexed path ops hLast hIndexEnd =>
    rcases stops_append hStop with hBefore | hAfter
    · exact .inl (hIndexKept hBefore)
    · exact hIndexStop hIndexEnd hAfter

/-- The reports of a run are those of its last round, or it has not begun. -/
theorem run_reports_cases : ((run H targets opts env).result d).2 = [] ∨
    ((run H targets opts env).result d).2 = (lastRound H targets opts env d).reports := by
  have hEnd := run_end H targets opts env d
  generalize (run H targets opts env).ops d = ops at hEnd
  generalize (run H targets opts env).result d = result at hEnd ⊢
  cases hEnd with
  | noDirectory => exact .inl rfl
  | leaked => exact .inr rfl
  | unindexed => exact .inr rfl
  | indexed => exact .inr rfl

theorem run_reports : ((run H targets opts env).result d).2 ⊆
    (lastRound H targets opts env d).reports := by
  have hCases : ((run H targets opts env).result d).2 = [] ∨
      ((run H targets opts env).result d).2 = (lastRound H targets opts env d).reports :=
    run_reports_cases
  rcases hCases with hNone | hAll
  · rw [hNone]
    exact List.nil_subset _
  · rw [hAll]
    exact fun _ h => h

/-- A run leaves its directory as it found it, in this respect, wherever it is stopped. -/
theorem Recorded.stops (h : Recorded H opts.outDir P d) (hHonest : P → env.Honest)
    {d' : Files.Disk K}
    (hStop : Stops (Files.effects _ H.key) d ((run H targets opts env).ops d) d') :
    Recorded H opts.outDir P d' := by
  obtain ⟨-, hSound⟩ := h.entries
  have hNamed := lastRound_named targets env hSound
  have hKey : H.key (opts.join H indexName) = nameKey H opts.outDir indexName :=
    nameKey_join H opts portable_indexName
  have hLog : ∀ rep ∈ ((run H targets opts env).result d).2, Stem rep.stem := fun rep hRep =>
    (hNamed.stem rep (run_reports hRep)).1
  rcases run_index hSound hStop with hOld | ⟨hNew, hOther⟩
  · rw [hKey] at hOld
    rcases h with hNone | ⟨rows, env', hFile, hStands, hOwned⟩
    · exact .inl (hOld.trans hNone)
    · refine .inr ⟨rows, env', hOld.trans hFile, fun row hRow => ?_, hOwned⟩
      exact (hStands row hRow).mono (Standing.stopped hHonest hLog (run_stops hStop))
  · rw [hKey] at hNew
    refine .inr ⟨_, env, hNew, fun row hRow => ?_, lastRound_owned targets h hHonest⟩
    have hRowStands := ((lastRound_stands targets h hHonest).2.2 row hRow).2
    refine hRowStands.mono fun stem format hStem hIndex hStanding => ?_
    obtain ⟨bytes, hFile, hComplete⟩ := hStanding
    refine ⟨bytes, ?_, hComplete⟩
    rw [hOther _ ?_ ?_]
    · exact hFile
    · rw [← nameKey_join H opts (portable_fileName hStem format)]
      exact key_file_ne_indexPart H hStem format
    · rw [← nameKey_join H opts (portable_fileName hStem format)]
      exact key_file_ne_index H hStem hIndex format

theorem Reached.recorded {dir : Paths.Path} (h : Reached H dir P d) : Recorded H dir P d := by
  induction h with
  | start d hNone => exact .inl hNone
  | stopped d d' targets opts env hReached hDir hHonest hStop ih =>
    subst hDir
    exact ih.stops hHonest hStop
  | foreign d d' hReached hKept hIndex ih =>
    rcases ih with hNone | ⟨rows, env, hFile, hStands, hOwned⟩
    · exact .inl (hIndex.trans hNone)
    · refine .inr ⟨rows, env, hIndex.trans hFile, fun row hRow => ?_, hOwned⟩
      refine (hStands row hRow).mono fun stem format _ _ hStanding => ?_
      obtain ⟨bytes, hBytes, hComplete⟩ := hStanding
      exact ⟨bytes, hKept _ _ hBytes, hComplete⟩

theorem exists_ok {E A : Type} {e : Except E A} (h : e.toBool = true) : ∃ a, e = .ok a := by
  cases e with
  | error => cases h
  | ok a => exact ⟨a, rfl⟩

/-- What a run returns, and what it leaves. -/
theorem run_ok {out : Outcome} (hOk : ((run H targets opts env).result d).1 = .ok out) :
    (lastRound H targets opts env d).reports.map (·.target) = targets ∧
    ((run H targets opts env).result d).2 = (lastRound H targets opts env d).reports ∧
    out.written = (lastRound H targets opts env d).written ∧
    out.reused = (lastRound H targets opts env d).reused ∧
    out.skipped = (lastRound H targets opts env d).skipped ∧
    out.messages = (lastRound H targets opts env d).total ∧
    (run H targets opts env).after d (nameKey H opts.outDir indexName) =
      some (.file (indexBytes H (lastRound H targets opts env d).indexRows env)) := by
  have hAfter : (run H targets opts env).after d =
      replay (Files.effects _ H.key) d ((run H targets opts env).ops d) := rfl
  have hEnd := run_end H targets opts env d
  rw [hAfter]
  generalize (run H targets opts env).ops d = ops at hEnd ⊢
  generalize (run H targets opts env).result d = result at hEnd hOk ⊢
  cases hEnd with
  | noDirectory => cases hOk
  | leaked => cases hOk
  | unindexed => cases hOk
  | indexed path ops hLast hIndexEnd =>
    obtain rfl := Except.ok.inj hOk
    refine ⟨?_, rfl, rfl, rfl, rfl, rfl, ?_⟩
    · rcases exportTargets_stop H opts (if opts.resume then previousIndex H opts d else [])
        (previousIndex H opts d) env.session 0 (.start (seedTaken H.lower
          (if opts.resume then previousIndex H opts d else []))) d (by simp [Round.start]) targets
        with ⟨hTrue, -⟩ | ⟨-, -, hTargets⟩
      · rw [rounds] at hLast
        rw [hLast] at hTrue
        cases hTrue
      · exact hTargets
    · cases hIndexEnd with
      | written before hPart hClean hFile =>
        rw [← nameKey_join H opts portable_indexName, replay_append, replay_append]
        exact (Function.update_self _ _ _).trans hFile

/-- The index that the next run reads. -/
theorem previousIndex_after {opts' : Options} {out : Outcome} (h : Recorded H opts.outDir P d)
    (hHonest : P → env.Honest) (hOk : ((run H targets opts env).result d).1 = .ok out)
    (hDir : opts'.outDir = opts.outDir) :
    previousIndex H opts' ((run H targets opts env).after d) = Json.ordered
      ((lastRound H targets opts env d).indexRows.filterMap fun row =>
        (talkerOf row).map (·, row)) := by
  obtain ⟨-, -, -, -, -, -, hIndex⟩ := run_ok hOk
  have hWf : ∀ row ∈ (lastRound H targets opts env d).indexRows, row.Wf := fun row hRow =>
    ((lastRound_stands _ h hHonest).2.2 row hRow).2.wf
  rw [previousIndex, nameKey_join H opts' portable_indexName, hDir, hIndex,
    parseIndex_indexBytes H _ hWf]

end Standing

/-! ## The directory of one session -/

/-- A first run for `a`, and what it returns. -/
theorem firstTeam_ok : ∃ out, ((run unixHost [⟨"a", "Team"⟩] (plainOptions .jsonl false)
    (.calm fun _ => oneRow "hi")).result emptyDisk).1 = .ok out := by
  refine exists_ok ?_
  decide +kernel

/-- The directory after it. -/
def teamDisk : Files.Disk (List (List Char)) :=
  (run unixHost [⟨"a", "Team"⟩] (plainOptions .jsonl false)
    (.calm fun _ => oneRow "hi")).after emptyDisk

theorem teamDisk_reached {P : Prop} :
    Reached unixHost (plainOptions .jsonl false).outDir P teamDisk :=
  .stopped emptyDisk _ _ (plainOptions .jsonl false) _ (.start emptyDisk rfl) rfl
    (fun _ => honest_oneRow "hi") (stops_end _ _)

/-- The entries of its index. -/
def teamIndex : Index := Json.ordered
  ((lastRound unixHost [⟨"a", "Team"⟩] (plainOptions .jsonl false)
    (.calm fun _ => oneRow "hi") emptyDisk).indexRows.filterMap fun row =>
      (talkerOf row).map (·, row))

theorem previousIndex_teamDisk :
    previousIndex unixHost (plainOptions .jsonl false) teamDisk = teamIndex := by
  obtain ⟨out, hOk⟩ := firstTeam_ok
  exact previousIndex_after (Reached.start emptyDisk rfl).recorded False.elim hOk rfl

/-- A call on that directory. -/
def laterCall (targets : List SessionTarget) : Except Failure Outcome × List Report :=
  (run unixHost targets (plainOptions .jsonl false) (.calm fun _ => oneRow "hi")).result teamDisk

/-- It goes by the entries above. -/
theorem laterCall_eq (targets : List SessionTarget) : laterCall targets =
    (do
      let p ← rounds unixHost targets (plainOptions .jsonl false) (.calm fun _ => oneRow "hi")
        teamIndex
      let r := p.2
      if p.1 then return (.error .secretLeak, r.reports)
      match ← writeIndex unixHost (plainOptions .jsonl false) r.indexRows
        (.calm fun _ => oneRow "hi") with
      | .error e => return (.error e, r.reports)
      | .ok index => return (.ok ⟨r.written, r.reused, r.skipped, r.total, index⟩, r.reports) :
        Io unixHost (Except Failure Outcome × List Report)).result teamDisk := by
  rw [laterCall, run, if_neg (by decide), Act.result_look_bind]
  dsimp only
  rw [previousIndex_teamDisk]
  rfl

end Weflow.Export
