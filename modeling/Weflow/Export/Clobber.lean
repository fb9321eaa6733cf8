import Weflow.Export.Verdicts

/-!
# Whose files a run touches

`run_keeps_others`: a run touches the file recorded for a talker only for that talker, and a run
that is no resume replaces a file only if the index records it for the session exported, letter
case aside. That letter case is ignored there is the code's own rule; `other_case_replaced` is what
it means where a volume keeps both spellings.
-/

namespace Weflow.Export

open Effects
open Json (Value)

variable {K : Type} [DecidableEq K] {H : Host K} {targets : List SessionTarget} {opts : Options}
  {env : CallEnv} {d : Files.Disk K}

/-- The report of a session that was written, with its place in the run. -/
theorem fate_written (hSound : (previousIndex H opts d).Sound)
    (hTalkers : (targets.map (·.talker)).Nodup) {rep : Report} {n : UInt64}
    (hRep : rep ∈ ((run H targets opts env).result d).2) (hFate : rep.fate = .written n) :
    Open H opts (previousIndex H opts d) d rep.target rep.stem := by
  obtain ⟨i, hi⟩ := List.mem_iff_getElem?.mp (run_reports hRep)
  cases (lastRound_going env hSound hTalkers).fates i rep hi with
  | refused hFate' => rw [hFate] at hFate'; cases hFate'
  | reused hFate' => rw [hFate] at hFate'; cases hFate'
  | failed e hFate' => rw [hFate] at hFate'; cases hFate'
  | written _ _ hOpen _ => exact hOpen

/-- A session that is written under a recorded name is that of the talker it is recorded for. -/
theorem written_talker (hRecorded : Recorded H opts.outDir False d)
    (hTalkers : (targets.map (·.talker)).Nodup) {rep : Report} {n : UInt64}
    (hRep : rep ∈ ((run H targets opts env).result d).2) (hFate : rep.fate = .written n)
    {talker : String} {row : Value} {stem : String}
    (hMem : (talker, row) ∈ previousIndex H opts d)
    (hFile : fileOf row = some (fileName stem opts.format))
    (hFold : foldCase stem = foldCase rep.stem)
    (hKey : H.key (opts.path H rep.stem) = nameKey H opts.outDir (fileName stem opts.format)) :
    talker = rep.target.talker := by
  obtain ⟨hEntries, hSound⟩ := hRecorded.entries
  have hNamed := lastRound_named targets env hSound
  have hStemOf : foldCase (stemOfFile (fileName stem opts.format)) = foldCase rep.stem := by
    rw [stemOfFile_fileName, hFold]
  by_cases hResume : opts.resume = true
  · rw [if_pos hResume] at hNamed
    exact hNamed.recorded rep (run_reports hRep) _ hMem _ hFile hStemOf
  · have hOpen := (fate_written hSound hTalkers hRep hFate).first (by simpa using hResume)
    rcases hOpen with hNone | hOwner
    · -- what is recorded stands there
      obtain ⟨stem', format, hFile', -, -, bytes, hBytes, -⟩ := (hEntries _ hMem).file
      rw [hFile, Option.some.injEq] at hFile'
      rw [← hFile', ← hKey, hNone] at hBytes
      cases hBytes
    · obtain ⟨row', f, hMem', hFile', hFold'⟩ := Index.owner_mem hOwner
      obtain ⟨stem', format, rfl, -, -⟩ := hSound.named _ hMem' f hFile'
      refine hSound.owned _ hMem _ hMem' _ _ hFile hFile' ?_
      rw [hStemOf, stemOfFile_fileName]
      exact (foldCase_fileName_inj hFold').1.symm

/-- Every step of a call is one of the issues of its sessions and of the index. -/
theorem run_issue {o : Option String × Files.Op Paths.Path}
    (ho : o ∈ (run H targets opts env).ops d) : ∃ s, RunIssue H opts env
      ((run H targets opts env).result d).2 (lastRound H targets opts env d).indexRows s o := by
  have hAllowed : Allowed (Files.effects _ H.key)
      (RunIssue H opts env ((run H targets opts env).result d).2
        (lastRound H targets opts env d).indexRows) d ((run H targets opts env).ops d) :=
    run_allowed d
  exact hAllowed.mem ho

/-- A recorded file is touched for its talker only. -/
theorem touched_recorded (hRecorded : Recorded H opts.outDir False d)
    (hTalkers : (targets.map (·.talker)).Nodup) {o : Option String × Files.Op Paths.Path}
    (ho : o ∈ (run H targets opts env).ops d) {p : Paths.Path} (hp : p ∈ o.2.touched)
    {talker f : String} (hFile : (previousIndex H opts d).file talker = some f)
    (hKey : H.key p = nameKey H opts.outDir f) : o.1 = some talker := by
  obtain ⟨-, hSound⟩ := hRecorded.entries
  have hNamed := lastRound_named targets env hSound
  obtain ⟨row, hMem, hRow⟩ := Index.file_mem hFile
  obtain ⟨stem, format, rfl, hIsStem, hIndex⟩ := hSound.named _ hMem f hRow
  rw [← nameKey_join H opts (portable_fileName hIsStem format)] at hKey
  obtain ⟨s, hIssue⟩ := run_issue ho
  cases hIssue with
  | session hSession =>
    cases hSession with
    | part rep _ hRep hTag hPart =>
      have hStem := (hNamed.stem rep (run_reports hRep)).1
      rw [hPart, List.mem_singleton] at hp
      rw [hp] at hKey
      exact absurd hKey.symm (key_file_ne_part H hIsStem hStem format)
    | deliver rep n bytes hRep hFate hSource hDelivered =>
      have hStem := (hNamed.stem rep (run_reports hRep)).1
      rcases List.mem_pair.mp hp with rfl | rfl
      · exact absurd hKey.symm (key_file_ne_part H hIsStem hStem format)
      · obtain ⟨hFold, hFormat⟩ := foldCase_fileName_inj (key_join H
          (portable_fileName hIsStem format) (portable_fileName hStem opts.format) hKey.symm)
        subst hFormat
        rw [nameKey_join H opts (portable_fileName hIsStem opts.format)] at hKey
        rw [written_talker hRecorded hTalkers hRep hFate hMem hRow hFold hKey]
  | indexPart hPart =>
    rw [hPart.2, List.mem_singleton] at hp
    rw [hp] at hKey
    exact absurd hKey.symm (key_file_ne_indexPart H hIsStem format)
  | index hOp hSource =>
    subst hOp
    rcases List.mem_pair.mp hp with rfl | rfl
    · exact absurd hKey.symm (key_file_ne_indexPart H hIsStem format)
    · exact absurd hKey.symm (key_file_ne_index H hIsStem hIndex format)

/-- A first run puts a session over a file only where that file is recorded for its talker. -/
theorem renamed_recorded (hRecorded : Recorded H opts.outDir False d)
    (hTalkers : (targets.map (·.talker)).Nodup) (hFirst : opts.resume = false) {talker : String}
    {p q : Paths.Path} (ho : (some talker, Files.Op.rename p q) ∈ (run H targets opts env).ops d)
    (hHere : d (H.key q) ≠ none) : ∃ f, (previousIndex H opts d).file talker = some f ∧
      foldCase f = foldCase (nameHere q) := by
  obtain ⟨-, hSound⟩ := hRecorded.entries
  have hNamed := lastRound_named targets env hSound
  obtain ⟨s, hIssue⟩ := run_issue ho
  cases hIssue with
  | session hSession =>
    generalize hO : ((some talker, Files.Op.rename p q) :
      Option String × Files.Op Paths.Path) = o at hSession
    cases hSession with
    | part rep _ hRep hTag hPart =>
      rw [← hO] at hPart
      simp [Files.Op.touched] at hPart
    | deliver rep n bytes hRep hFate hSource hDelivered =>
      simp only [Prod.mk.injEq, Option.some.injEq, Files.Op.rename.injEq] at hO
      obtain ⟨rfl, rfl, rfl⟩ := hO
      rcases (fate_written hSound hTalkers hRep hFate).first hFirst with hNone | hOwner
      · exact absurd hNone hHere
      · obtain ⟨row, f, hMem, hFile, hFold⟩ := Index.owner_mem hOwner
        refine ⟨f, ?_, ?_⟩
        · have hRow : (previousIndex H opts d).row rep.target.talker = some row :=
            (Index.row_iff (parseIndex_keyed _ _)).mpr hMem
          rw [Index.file, hRow]
          exact hFile
        · have hStem := (hNamed.stem rep (run_reports hRep)).1
          rw [Options.path, nameHere_join H (portable_fileName hStem opts.format)]
          exact hFold
  | indexPart hPart => cases hPart.1
  | index hOp hSource => cases hOp

theorem run_keeps_others (hReached : Reached H opts.outDir False d)
    (hTalkers : (targets.map (·.talker)).Nodup) :
    (∀ o ∈ (run H targets opts env).ops d, ∀ p ∈ o.2.touched, ∀ talker f,
      (previousIndex H opts d).file talker = some f → H.key p = nameKey H opts.outDir f →
      o.1 = some talker) ∧
    (opts.resume = false → ∀ talker p q, (some talker, Files.Op.rename p q) ∈
      (run H targets opts env).ops d → d (H.key q) ≠ none →
      ∃ f, (previousIndex H opts d).file talker = some f ∧
        foldCase f = foldCase (nameHere q)) ∧
    (∀ rep ∈ ((run H targets opts env).result d).2, foldCase rep.stem ≠ "index") ∧
    ((run H targets opts env).result d).2.Pairwise (fun rep rep' =>
      foldCase (fileName rep.stem opts.format) ≠ foldCase (fileName rep'.stem opts.format)) ∧
    ∀ target taken, ∃ name, freeName H.lower (baseStem target) taken (taken.length + 1)
      (baseStem target) 2 = some name := by
  have hRecorded := hReached.recorded
  obtain ⟨-, hSound⟩ := hRecorded.entries
  have hNamed := lastRound_named targets env hSound
  refine ⟨fun o ho p hp talker f => touched_recorded hRecorded hTalkers ho hp,
    fun hFirst talker p q => renamed_recorded hRecorded hTalkers hFirst,
    fun rep hRep => (hNamed.stem rep (run_reports hRep)).2, ?_, fun target taken => ?_⟩
  · have hPairwise : (lastRound H targets opts env d).reports.Pairwise (fun rep rep' =>
        foldCase (fileName rep.stem opts.format) ≠ foldCase (fileName rep'.stem opts.format)) :=
      (lastRound_distinct hSound hTalkers).imp fun hNe hEq => hNe (foldCase_fileName_inj hEq).1
    have hCases : ((run H targets opts env).result d).2 = [] ∨
        ((run H targets opts env).result d).2 = (lastRound H targets opts env d).reports :=
      run_reports_cases
    rcases hCases with hNone | hAll
    · rw [hNone]
      exact List.Pairwise.nil
    · rw [hAll]
      exact hPairwise
  · obtain ⟨i, -, -, -, hName⟩ := freeName_terminates H.lowers (baseStem_stem target) taken
    exact ⟨_, hName⟩

/-- The session of the file there and another of its name. -/
theorem run_keeps_others_later :
    (∀ o ∈ (run unixHost [⟨"a", "Team"⟩, ⟨"b", "team"⟩] (plainOptions .jsonl false)
        (.calm fun _ => oneRow "hi")).ops teamDisk, ∀ p ∈ o.2.touched,
      unixHost.key p = nameKey unixHost (plainOptions .jsonl false).outDir "Team.jsonl" →
      o.1 = some "a") ∧
    (∃ p q, (some "a", Files.Op.rename p q) ∈ (run unixHost [⟨"a", "Team"⟩, ⟨"b", "team"⟩]
        (plainOptions .jsonl false) (.calm fun _ => oneRow "hi")).ops teamDisk ∧
      teamDisk (unixHost.key q) ≠ none ∧
      ∃ f, (previousIndex unixHost (plainOptions .jsonl false) teamDisk).file "a" = some f ∧
        foldCase f = foldCase (nameHere q)) ∧
    ((run unixHost [⟨"a", "Team"⟩, ⟨"b", "team"⟩] (plainOptions .jsonl false)
      (.calm fun _ => oneRow "hi")).result teamDisk).2.length = 2 ∧
    ((run unixHost [⟨"a", "Team"⟩, ⟨"b", "team"⟩] (plainOptions .jsonl false)
      (.calm fun _ => oneRow "hi")).result teamDisk).2.Pairwise fun rep rep' =>
        foldCase (fileName rep.stem .jsonl) ≠ foldCase (fileName rep'.stem .jsonl) := by
  have hFile : (previousIndex unixHost (plainOptions .jsonl false) teamDisk).file "a" =
      some "Team.jsonl" := by
    rw [previousIndex_teamDisk]
    decide +kernel
  have hLength : (laterCall [⟨"a", "Team"⟩, ⟨"b", "team"⟩]).2.length = 2 := by
    rw [laterCall_eq]
    decide +kernel
  have hMem : (some "a", Files.Op.rename ⟨none, true, [['o'], "Team.jsonl.part".toList]⟩
      ⟨none, true, [['o'], "Team.jsonl".toList]⟩) ∈ (run unixHost [⟨"a", "Team"⟩, ⟨"b", "team"⟩]
        (plainOptions .jsonl false) (.calm fun _ => oneRow "hi")).ops teamDisk := by
    refine mem_run rfl ?_
    rw [previousIndex_teamDisk]
    decide +kernel
  have hHere : teamDisk [['o'], "Team.jsonl".toList] ≠ none := by decide +kernel
  refine ⟨fun o ho p hp hKey => ?_, ⟨_, _, hMem, hHere, ?_⟩, hLength, ?_⟩
  · exact (run_keeps_others teamDisk_reached (by decide)).1 o ho p hp "a" "Team.jsonl" hFile hKey
  · exact (run_keeps_others teamDisk_reached (by decide)).2.1 rfl "a" _ _ hMem hHere
  · exact (run_keeps_others teamDisk_reached (by decide)).2.2.2.1

/-- The directory of one session, with a file whose name differs from that of the archive in letter
case only. -/
def foreignCase : Files.Disk (List (List Char)) :=
  Function.update teamDisk [['o'], "team.jsonl".toList] (some (.file [1]))

theorem foreignCase_reached :
    Reached unixHost (plainOptions .jsonl false).outDir False foreignCase := by
  have hNone : teamDisk [['o'], "team.jsonl".toList] = none := by decide +kernel
  refine .foreign _ _ teamDisk_reached (fun k e hk => ?_) ?_
  · refine (Function.update_of_ne ?_ _ _).trans hk
    rintro rfl
    rw [hNone] at hk
    cases hk
  · exact Function.update_of_ne (by decide +kernel) _ _

theorem previousIndex_foreignCase :
    previousIndex unixHost (plainOptions .jsonl false) foreignCase = teamIndex := by
  rw [← previousIndex_teamDisk, previousIndex, previousIndex, foreignCase,
    Function.update_of_ne (by decide +kernel)]

theorem other_case_replaced : ∃ d, Reached unixHost (plainOptions .jsonl false).outDir False d ∧
    ∃ p q, (some "a", Files.Op.rename p q) ∈ (run unixHost [⟨"a", "team"⟩]
      (plainOptions .jsonl false) (.calm fun _ => oneRow "hi")).ops d ∧
    d (unixHost.key q) ≠ none ∧
    ∀ e ∈ previousIndex unixHost (plainOptions .jsonl false) d,
      fileOf e.2 ≠ some (nameHere q) := by
  refine ⟨foreignCase, foreignCase_reached, ⟨none, true, [['o'], "team.jsonl.part".toList]⟩,
    ⟨none, true, [['o'], "team.jsonl".toList]⟩, mem_run rfl ?_, ?_, ?_⟩
  · rw [previousIndex_foreignCase]
    decide +kernel
  · decide +kernel
  · rw [previousIndex_foreignCase]
    decide +kernel

end Weflow.Export
