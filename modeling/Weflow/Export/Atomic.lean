import Weflow.Export.History

/-!
# A run stopped anywhere

`run_atomic`: wherever a run is stopped, the file of every session is the one before or a complete
new one, and so is the index; a session that fails leaves its file alone and no `.part` file of
its own. What carries it is `run_stops`: a final name changes by the rename of a finished `.part`
file only.
-/

namespace Weflow.Export

open Effects
open Json (Value)

variable {K : Type} [DecidableEq K] (H : Host K)

section Run

variable (targets : List SessionTarget) (opts : Options) (env : CallEnv) (d d' : Files.Disk K)

/-- The file of a stem is what it was, or complete: the header and exactly the rows a session of
the run was handed. -/
def OldOrComplete (stem : String) (format : Format) : Prop :=
  d' (nameKey H opts.outDir (fileName stem format)) =
      d (nameKey H opts.outDir (fileName stem format)) ∨
    ∃ rep ∈ ((run H targets opts env).result d).2, ∃ bytes now,
      foldCase stem = foldCase rep.stem ∧ format = opts.format ∧
      d' (nameKey H opts.outDir (fileName stem format)) = some (.file bytes) ∧
      Complete H.json format rep.target now (writtenRows rep.pages) bytes

/-- The index is what it was, or the whole document of the run's rows. -/
def OldOrWhole : Prop :=
  d' (nameKey H opts.outDir indexName) = d (nameKey H opts.outDir indexName) ∨
    ∃ bytes, d' (nameKey H opts.outDir indexName) = some (.file bytes) ∧
      readDocument H.json bytes =
        some (indexDocument (lastRound H targets opts env d).indexRows env.now)

end Run

variable {H} {targets : List SessionTarget} {opts : Options} {env : CallEnv} {d d' : Files.Disk K}

/-- The rows of a complete file are those of the pages. -/
theorem writtenRows_perm (pages : List (List Row)) : (writtenRows pages).Perm pages.flatten := by
  rw [writtenRows, List.flatten_eq_flatMap]
  exact List.Perm.flatMap_left _ fun page _ => sortPage_perm page

/-- Only sessions have written under other names than those of the index. -/
theorem run_after {rep : Report} (hRep : rep ∈ ((run H targets opts env).result d).2) {k : K}
    (hPart : k ≠ H.key (opts.join H indexPartName)) (hIndex : k ≠ H.key (opts.join H indexName)) :
    (run H targets opts env).after d k = sessionsDisk H targets opts env d k := by
  have hAfter : (run H targets opts env).after d =
      replay (Files.effects _ H.key) d ((run H targets opts env).ops d) := rfl
  have hEnd := run_end H targets opts env d
  rw [hAfter]
  generalize (run H targets opts env).ops d = ops at hEnd ⊢
  generalize (run H targets opts env).result d = result at hEnd hRep
  cases hEnd with
  | noDirectory => cases hRep
  | leaked => rfl
  | unindexed e ops hLast hIndexEnd =>
    rw [replay_append]
    exact (hIndexEnd.stops (stops_end _ _)).1 k hPart hIndex
  | indexed path ops hLast hIndexEnd =>
    rw [replay_append]
    exact (hIndexEnd.stops (stops_end _ _)).1 k hPart hIndex

/-- A session that is over has left nothing of its own under its `.part` name. -/
theorem run_parts (hSound : (previousIndex H opts d).Sound) {rep : Report}
    (hRep : rep ∈ ((run H targets opts env).result d).2) :
    (run H targets opts env).after d (H.key (opts.part H rep.stem)) = none ∨
      (run H targets opts env).after d (H.key (opts.part H rep.stem)) =
        d (H.key (opts.part H rep.stem)) := by
  have hNamed := lastRound_named targets env hSound
  obtain ⟨hStem, hIndex⟩ := hNamed.stem rep (run_reports hRep)
  rw [run_after hRep (key_part_ne_indexPart H hStem hIndex) (key_part_ne_index H hStem)]
  have hPlace := (rounds_holds H targets opts env
    (previousIndex H opts d) d).kept (H.key (opts.part H rep.stem))
  cases hPlace with
  | same hSame => exact .inr hSame
  | part _ _ _ hGone => exact .inl hGone
  | delivered rep' n bytes hRep' hFate hKey hFile hDelivered =>
    exact absurd hKey.symm (key_file_ne_part H (hNamed.stem rep' hRep').1 hStem opts.format)

theorem run_atomic (hReached : Reached H opts.outDir False d)
    (hTalkers : (targets.map (·.talker)).Nodup) (hHonest : env.Honest)
    (hStop : Stops (Files.effects _ H.key) d ((run H targets opts env).ops d) d') :
    (∀ stem format, Stem stem → foldCase stem ≠ "index" →
      OldOrComplete H targets opts env d d' stem format) ∧
    OldOrWhole H targets opts env d d' ∧
    ∀ rep ∈ ((run H targets opts env).result d).2, ∀ e, rep.fate = .failed e →
      d' (H.key (opts.path H rep.stem)) = d (H.key (opts.path H rep.stem)) ∧
      ((run H targets opts env).after d (H.key (opts.part H rep.stem)) = none ∨
        (run H targets opts env).after d (H.key (opts.part H rep.stem)) =
          d (H.key (opts.part H rep.stem))) := by
  have hRecorded := hReached.recorded
  obtain ⟨-, hSound⟩ := hRecorded.entries
  have hNamed := lastRound_named targets env hSound
  have hLog : ∀ rep ∈ ((run H targets opts env).result d).2, Stem rep.stem := fun rep hRep =>
    (hNamed.stem rep (run_reports hRep)).1
  refine ⟨fun stem format hStem hIndex => ?_, ?_, fun rep hRep e hFate => ⟨?_, ?_⟩⟩
  · rcases (run_stops hStop (nameKey H opts.outDir (fileName stem format))).file hLog hStem
        hIndex with
      hSame | ⟨rep, hRep, n, bytes, -, hFormat, hFold, hFile, hDelivered⟩
    · exact .inl hSame
    · obtain ⟨now, hComplete, -⟩ := hDelivered hHonest
      rw [← hFormat] at hComplete
      exact .inr ⟨rep, hRep, bytes, now, hFold, hFormat, hFile, hComplete⟩
  · have hKey := nameKey_join H opts portable_indexName
    rcases run_index hSound hStop with hOld | ⟨hNew, -⟩
    · rw [hKey] at hOld
      exact .inl hOld
    · rw [hKey] at hNew
      refine .inr ⟨_, hNew, ?_⟩
      have hRows := (lastRound_stands targets hRecorded fun _ => hHonest).2.2
      rw [readDocument, indexBytes, Utf8.decode_encode, Option.bind_some, String.ofList_toList]
      exact H.json.parse_render (wf_indexDocument (fun row hRow => (hRows row hRow).2.wf) env.now)
  · obtain ⟨hStem, hIndex⟩ := hNamed.stem rep (run_reports hRep)
    have hKey : H.key (opts.path H rep.stem) =
        nameKey H opts.outDir (fileName rep.stem opts.format) :=
      nameKey_join H opts (portable_fileName hStem opts.format)
    rw [hKey]
    rcases (run_stops hStop (nameKey H opts.outDir (fileName rep.stem opts.format))).file hLog
        hStem hIndex with
      hSame | ⟨rep', hRep', n, bytes, hFate', -, hFold, -⟩
    · exact hSame
    · -- the file of another session would have another name
      have hEq := lastRound_inj hSound hTalkers (run_reports hRep) (run_reports hRep') hFold
      rw [hEq, hFate'] at hFate
      cases hFate
  · exact run_parts hSound hRep

/-- A first run for two sessions. -/
def twoSessions : Io unixHost (Except Failure Outcome × List Report) :=
  run unixHost [⟨"a", "Team"⟩, ⟨"b", "Other"⟩] (plainOptions .jsonl false)
    (.calm fun _ => oneRow "hi")

/-- The directory when it is stopped behind the rename of the first. -/
def betweenDisk : Files.Disk (List (List Char)) :=
  replay (Files.effects _ unixHost.key) emptyDisk ((twoSessions.ops emptyDisk).take 5)

/-- The file of the first session is complete, that of the second and the index are not there. -/
theorem run_atomic_between :
    Stops (Files.effects _ unixHost.key) emptyDisk (twoSessions.ops emptyDisk) betweenDisk ∧
    betweenDisk [['o'], "Other.jsonl.part".toList] ≠ none ∧
    betweenDisk [['o'], "Other.jsonl".toList] = none ∧
    betweenDisk [['o'], "index.json".toList] = none ∧
    ∃ rep ∈ (twoSessions.result emptyDisk).2, ∃ bytes now, foldCase "Team" = foldCase rep.stem ∧
      betweenDisk (nameKey unixHost (plainOptions .jsonl false).outDir "Team.jsonl") =
        some (.file bytes) ∧
      Complete unixHost.json .jsonl rep.target now (writtenRows rep.pages) bytes := by
  have hTeam : Stem "Team" := ⟨List.all_eq_true.mp (by decide), by decide, by decide⟩
  have hStop : Stops (Files.effects _ unixHost.key) emptyDisk (twoSessions.ops emptyDisk)
      betweenDisk := stops_take _ _ 5
  have hDisk : (betweenDisk [['o'], "Other.jsonl.part".toList]).isSome = true ∧
      betweenDisk [['o'], "Other.jsonl".toList] = none ∧
      betweenDisk [['o'], "index.json".toList] = none ∧
      (betweenDisk (nameKey unixHost (plainOptions .jsonl false).outDir "Team.jsonl")).isSome =
        true := by decide +kernel
  obtain ⟨hPart, hOther, hIndex, hHere⟩ := hDisk
  refine ⟨hStop, Option.isSome_iff_ne_none.mp hPart, hOther, hIndex, ?_⟩
  rcases (run_atomic (.start emptyDisk rfl) (by decide) (honest_oneRow "hi") hStop).1 "Team"
      .jsonl hTeam (by decide) with hOld | ⟨rep, hRep, bytes, now, hFold, -, hFile, hComplete⟩
  · have hFileName : fileName "Team" .jsonl = "Team.jsonl" := by decide
    rw [hFileName] at hOld
    rw [hOld] at hHere
    cases hHere
  · exact ⟨rep, hRep, bytes, now, hFold, hFile, hComplete⟩

end Weflow.Export
