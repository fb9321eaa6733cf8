import Weflow.Export.Calls

/-!
# The names of a run

The files of a run are direct children of the output directory under portable names, so that two
of them are one file only if their names differ in letter case at most. `Named` is what holds of
the names a run has given so far, whatever list of targets it is given: a name comes twice only
for one talker, and none is a name recorded for another talker.
-/

namespace Weflow.Export

open Effects
open Json (Value)

/-! ## Portable names -/

theorem Portable.plain {name : String} (h : Portable name) : Paths.Plain name.toList := by
  refine ⟨fun c hc => ?_, h.ne_nil, ?_, ?_⟩
  · rcases h.chars c hc with hSlug | rfl
    · exact ⟨slugChar_ne hSlug (by decide), slugChar_ne hSlug (by decide),
        slugChar_ne hSlug (by decide)⟩
    · decide
  · intro hDot
    exact h.last (by rw [hDot]; rfl)
  · intro hParent
    exact h.last (by rw [hParent]; rfl)

/-- A stem with an extension. -/
theorem portable_extension {stem ext : String} (h : Stem stem)
    (hExt : ∀ c ∈ ext.toList, slugChar c = true ∨ c = '.') (hNil : ext.toList ≠ [])
    (hLast : ext.toList.getLast? ≠ some '.') : Portable (stem ++ "." ++ ext) := by
  have hList : (stem ++ "." ++ ext).toList = stem.toList ++ '.' :: ext.toList := by simp
  refine ⟨fun c hc => ?_, ?_, ?_, ?_⟩
  · rw [hList, List.mem_append, List.mem_cons] at hc
    rcases hc with hc | rfl | hc
    · exact .inl (h.chars c hc)
    · exact .inr rfl
    · exact hExt c hc
  · rw [hList]
    simp
  · obtain ⟨c, cs, hCons⟩ := List.exists_cons_of_ne_nil hNil
    rw [hList, hCons, List.getLast?_append_cons, List.getLast?_cons_cons, ← hCons]
    exact hLast
  · rw [hList, isReservedDevice_extension h.chars]
    exact h.not_device

theorem portable_chars {s : List Char} (h : (s.all fun c => slugChar c || c == '.') = true) :
    ∀ c ∈ s, slugChar c = true ∨ c = '.' := by
  simpa using h

theorem portable_fileName {stem : String} (h : Stem stem) (format : Format) :
    Portable (fileName stem format) := by
  cases format with
  | jsonl => exact portable_extension h (portable_chars (by decide)) (by decide) (by decide)
  | json => exact portable_extension h (portable_chars (by decide)) (by decide) (by decide)

theorem portable_partName {stem : String} (h : Stem stem) (format : Format) :
    Portable (partName stem format) := by
  rw [partName, fileName, String.append_assoc]
  cases format with
  | jsonl => exact portable_extension h (portable_chars (by decide)) (by decide) (by decide)
  | json => exact portable_extension h (portable_chars (by decide)) (by decide) (by decide)

theorem stem_index : Stem "index" := ⟨List.all_eq_true.mp (by decide), by decide, by decide⟩

theorem indexName_eq : indexName = fileName "index" .json := by decide

theorem indexPartName_eq : indexPartName = partName "index" .json := by decide

theorem portable_indexName : Portable indexName := by
  rw [indexName_eq]
  exact portable_fileName stem_index .json

theorem portable_indexPartName : Portable indexPartName := by
  rw [indexPartName_eq]
  exact portable_partName stem_index .json

/-! ## Letter case -/

theorem foldCase_fileName (stem : String) (format : Format) :
    foldCase (fileName stem format) = foldCase stem ++ "." ++ format.ext := by
  rw [fileName, foldCase_append, foldCase_append]
  cases format <;> rfl

theorem foldCase_partName (stem : String) (format : Format) :
    foldCase (partName stem format) = foldCase (fileName stem format) ++ ".part" := by
  rw [partName, foldCase_append]
  rfl

theorem stemOfFile_fileName (stem : String) (format : Format) :
    stemOfFile (fileName stem format) = stem :=
  stemOfFile_extension (by cases format <;> decide)

theorem foldCase_fileName_inj {a b : String} {f g : Format}
    (h : foldCase (fileName a f) = foldCase (fileName b g)) : foldCase a = foldCase b ∧ f = g := by
  rw [foldCase_fileName, foldCase_fileName] at h
  have hStem : foldCase a = foldCase b := by
    have hStems := congrArg stemOfFile h
    rwa [stemOfFile_extension (by cases f <;> decide),
      stemOfFile_extension (by cases g <;> decide)] at hStems
  refine ⟨hStem, ?_⟩
  rw [hStem, String.append_right_inj] at h
  have hExt : ∀ f g : Format, f.ext = g.ext → f = g := by
    intro f g hEq
    cases f <;> cases g <;> revert hEq <;> decide
  exact hExt f g h

theorem foldCase_partName_inj {a b : String} {f g : Format}
    (h : foldCase (partName a f) = foldCase (partName b g)) : foldCase a = foldCase b ∧ f = g := by
  rw [foldCase_partName, foldCase_partName, String.append_left_inj] at h
  exact foldCase_fileName_inj h

/-- No session file has the name of a `.part` file. -/
theorem foldCase_fileName_ne_partName (a b : String) (f g : Format) :
    foldCase (fileName a f) ≠ foldCase (partName b g) := by
  intro h
  rw [foldCase_partName, foldCase_fileName] at h
  have hLast := congrArg (fun s : String => s.toList.getLast?) h
  cases f <;> simp [Format.ext] at hLast

/-! ## The files of the output directory -/

section Paths

variable {K : Type} (H : Host K) {opts : Options} {name : String}

theorem join_portable (h : Portable name) :
    opts.join H name = Paths.child opts.outDir name.toList :=
  Paths.join_plain h.plain

theorem nameHere_join (h : Portable name) : nameHere (opts.join H name) = name := by
  rw [nameHere, join_portable H h, Paths.fileName_child h.plain]
  simp

/-- Two names of one directory that mean one file differ in letter case at most. -/
theorem key_join {a b : String} (ha : Portable a) (hb : Portable b)
    (h : H.key (opts.join H a) = H.key (opts.join H b)) : foldCase a = foldCase b := by
  rw [join_portable H ha, join_portable H hb] at h
  exact H.key_portable _ a b ha hb h

variable {a b : String}

theorem key_path (ha : Stem a) (hb : Stem b)
    (h : H.key (opts.path H a) = H.key (opts.path H b)) : foldCase a = foldCase b :=
  (foldCase_fileName_inj (key_join H (portable_fileName ha _) (portable_fileName hb _) h)).1

theorem key_part (ha : Stem a) (hb : Stem b)
    (h : H.key (opts.part H a) = H.key (opts.part H b)) : foldCase a = foldCase b :=
  (foldCase_partName_inj (key_join H (portable_partName ha _) (portable_partName hb _) h)).1

theorem key_file_ne_part (ha : Stem a) (hb : Stem b) (format : Format) :
    H.key (opts.join H (fileName a format)) ≠ H.key (opts.part H b) := fun h =>
  foldCase_fileName_ne_partName a b _ _
    (key_join H (portable_fileName ha _) (portable_partName hb _) h)

theorem key_file_ne_indexPart (ha : Stem a) (format : Format) :
    H.key (opts.join H (fileName a format)) ≠ H.key (opts.join H indexPartName) := by
  intro h
  have hFold := key_join H (portable_fileName ha format) portable_indexPartName h
  rw [indexPartName_eq] at hFold
  exact foldCase_fileName_ne_partName a "index" format .json hFold

theorem key_file_ne_index (ha : Stem a) (hIndex : foldCase a ≠ "index") (format : Format) :
    H.key (opts.join H (fileName a format)) ≠ H.key (opts.join H indexName) := by
  intro h
  have hFold := key_join H (portable_fileName ha format) portable_indexName h
  rw [indexName_eq] at hFold
  exact hIndex (foldCase_fileName_inj hFold).1

theorem key_part_ne_index (ha : Stem a) :
    H.key (opts.part H a) ≠ H.key (opts.join H indexName) := by
  intro h
  have hFold := key_join H (portable_partName ha opts.format) portable_indexName h
  rw [indexName_eq] at hFold
  exact foldCase_fileName_ne_partName "index" a .json opts.format hFold.symm

theorem key_part_ne_indexPart (ha : Stem a) (hIndex : foldCase a ≠ "index") :
    H.key (opts.part H a) ≠ H.key (opts.join H indexPartName) := by
  intro h
  have hFold := key_join H (portable_partName ha opts.format) portable_indexPartName h
  rw [indexPartName_eq] at hFold
  exact hIndex (foldCase_partName_inj hFold).1

variable (opts) in
theorem key_indexPart_ne_index :
    H.key (opts.join H indexPartName) ≠ H.key (opts.join H indexName) := by
  rw [indexPartName_eq]
  have hKeys : H.key (Options.part H { opts with format := .json } "index") ≠
      H.key (opts.join H indexName) := key_part_ne_index H stem_index
  exact hKeys

end Paths

/-! ## Names given -/

/-- An index as the runs write them: every file is that of a stem, not the index itself, and two
entries record one file, letter case aside, only for one talker. -/
structure Index.Sound (index : Index) : Prop where
  named : ∀ e ∈ index, ∀ f, fileOf e.2 = some f →
    ∃ stem format, f = fileName stem format ∧ Stem stem ∧ foldCase stem ≠ "index"
  owned : ∀ e ∈ index, ∀ e' ∈ index, ∀ f f', fileOf e.2 = some f → fileOf e'.2 = some f' →
    foldCase (stemOfFile f) = foldCase (stemOfFile f') → e.1 = e'.1

theorem sound_nil : Index.Sound [] := ⟨by simp, by simp⟩

/-- The names a run has given. -/
structure Named (previous : Index) (r : Round) : Prop where
  seeded : ∀ e ∈ previous, ∀ f, fileOf e.2 = some f → foldCase (stemOfFile f) ∈ r.taken
  taken : ∀ rep ∈ r.reports, foldCase rep.stem ∈ r.taken
  stem : ∀ rep ∈ r.reports, Stem rep.stem ∧ foldCase rep.stem ≠ "index"
  recorded : ∀ rep ∈ r.reports, ∀ e ∈ previous, ∀ f, fileOf e.2 = some f →
    foldCase (stemOfFile f) = foldCase rep.stem → e.1 = rep.target.talker
  shared : r.reports.Pairwise fun rep rep' => foldCase rep.stem = foldCase rep'.stem →
    rep.target.talker = rep'.target.talker
  fresh : previous = [] → (r.reports.map (foldCase ·.stem)).Nodup

/-- One name, letter case aside, is given to one talker only. -/
theorem Named.talker_eq {previous : Index} {r : Round} (h : Named previous r) {rep rep' : Report}
    (hRep : rep ∈ r.reports) (hRep' : rep' ∈ r.reports)
    (hEq : foldCase rep.stem = foldCase rep'.stem) : rep.target.talker = rep'.target.talker :=
  h.shared.forall_of_forall_of_flip (fun _ _ _ => rfl)
    (h.shared.imp fun hShared hFold => (hShared hFold.symm).symm) hRep hRep' hEq

section Names

variable {lower : String → String} (hLower : LowersAscii lower)
include hLower

/-- A session gets the stem recorded for it, or a new one. -/
theorem stemFor_spec {previous : Index} (hSound : previous.Sound) (target : SessionTarget)
    (taken : List String) :
    ∃ stem taken', stemFor lower previous target taken = (stem, foldCase stem :: taken') ∧
      taken ⊆ taken' ∧ Stem stem ∧ foldCase stem ≠ "index" ∧
      (foldCase stem ∉ taken ∨ ∃ e ∈ previous, ∃ f, e.1 = target.talker ∧
        fileOf e.2 = some f ∧ stem = stemOfFile f) := by
  obtain ⟨name, hFile, hStem, hIndex, hFree⟩ := fileNameFor_spec hLower target taken
  have hNew : ∃ stem taken', fileNameFor lower target taken = (stem, foldCase stem :: taken') ∧
      taken ⊆ taken' ∧ Stem stem ∧ foldCase stem ≠ "index" ∧
      (foldCase stem ∉ taken ∨ ∃ e ∈ previous, ∃ f, e.1 = target.talker ∧
        fileOf e.2 = some f ∧ stem = stemOfFile f) :=
    ⟨name, _, hFile, List.subset_cons_self _ _, hStem, hIndex, .inl hFree⟩
  rw [stemFor]
  cases hRecorded : previous.file target.talker with
  | none => exact hNew
  | some f =>
    dsimp only
    split_ifs with hName
    · exact hNew
    · rw [Index.file, Option.bind_eq_some_iff] at hRecorded
      obtain ⟨row, hRow, hRowFile⟩ := hRecorded
      rw [Index.row, Option.map_eq_some_iff] at hRow
      obtain ⟨e, hFind, rfl⟩ := hRow
      have hMem := List.mem_of_find?_eq_some hFind
      have hTalker : e.1 = target.talker := by
        have := List.find?_some hFind
        simpa using this
      obtain ⟨stem, format, rfl, hStem', -⟩ := hSound.named e hMem f hRowFile
      rw [stemOfFile_fileName] at hName ⊢
      refine ⟨stem, taken, by rw [lower_stem hLower hStem'], fun _ h => h, hStem', hName, .inr ?_⟩
      exact ⟨e, hMem, _, hTalker, hRowFile, (stemOfFile_fileName stem format).symm⟩

theorem named_start {previous : Index} (hSound : previous.Sound) :
    Named previous (Round.start (seedTaken lower previous)) := by
  refine ⟨fun e he f hf => ?_, by simp [Round.start], by simp [Round.start],
    by simp [Round.start], List.Pairwise.nil, fun _ => List.nodup_nil⟩
  obtain ⟨stem, format, rfl, hStem, -⟩ := hSound.named e he f hf
  refine List.mem_filterMap.mpr ⟨e, he, ?_⟩
  rw [hf, Option.map_some, stemOfFile_fileName, lower_stem hLower hStem]

end Names

section Rounds

variable {K : Type} [DecidableEq K] {H : Host K} {opts : Options} {previous recorded : Index}

/-- One more target. -/
theorem Named.step (hSound : previous.Sound) {r : Round} (h : Named previous r) {env : SessionEnv}
    {target : SessionTarget} {d : Files.Disk K}
    {ops : List (Option String × Files.Op Paths.Path)} {p : Bool × Round}
    (hEnd : TargetEnd H opts previous recorded env target r d ops p) : Named previous p.2 := by
  obtain ⟨fate, pages, hReports, -⟩ := hEnd.reports
  obtain ⟨stem, taken', hStem, hSub, hIsStem, hIndex, hOrigin⟩ :=
    stemFor_spec H.lowers hSound target r.taken
  have hTaken : p.2.taken = foldCase stem :: taken' := by rw [hEnd.taken, hStem]
  rw [stemIn, hStem] at hReports
  have hGrow : ∀ name ∈ r.taken, name ∈ p.2.taken := by
    intro name hName
    rw [hTaken]
    exact List.mem_cons_of_mem _ (hSub hName)
  -- a new stem is none that was recorded or given, a recorded one is its own
  have hNew : (foldCase stem ∉ r.taken) ∨ ∃ e ∈ previous, ∃ f, e.1 = target.talker ∧
      fileOf e.2 = some f ∧ stem = stemOfFile f := hOrigin
  have hRecorded : ∀ e ∈ previous, ∀ f, fileOf e.2 = some f →
      foldCase (stemOfFile f) = foldCase stem → e.1 = target.talker := by
    intro e he f hf hEq
    rcases hNew with hFree | ⟨e', he', f', hTalker, hf', rfl⟩
    · exact absurd (hEq ▸ h.seeded e he f hf) hFree
    · exact (hSound.owned e he e' he' f f' hf hf' hEq).trans hTalker
  have hShared : ∀ rep ∈ r.reports, foldCase rep.stem = foldCase stem →
      rep.target.talker = target.talker := by
    intro rep hRep hEq
    rcases hNew with hFree | ⟨e', he', f', hTalker, hf', rfl⟩
    · exact absurd (hEq ▸ h.taken rep hRep) hFree
    · exact (h.recorded rep hRep e' he' f' hf' hEq.symm).symm.trans hTalker
  have hCases : ∀ rep ∈ p.2.reports, rep ∈ r.reports ∨ rep = ⟨target, stem, fate, pages⟩ := by
    intro rep hRep
    rw [hReports] at hRep
    exact (List.mem_append.mp hRep).imp_right List.mem_singleton.mp
  refine ⟨fun e he f hf => hGrow _ (h.seeded e he f hf), ?_, ?_, ?_, ?_, ?_⟩
  · intro rep hRep
    rcases hCases rep hRep with hOld | rfl
    · exact hGrow _ (h.taken rep hOld)
    · rw [hTaken]
      exact List.mem_cons_self
  · intro rep hRep
    rcases hCases rep hRep with hOld | rfl
    · exact h.stem rep hOld
    · exact ⟨hIsStem, hIndex⟩
  · intro rep hRep
    rcases hCases rep hRep with hOld | rfl
    · exact h.recorded rep hOld
    · exact hRecorded
  · rw [hReports]
    refine List.pairwise_append.mpr ⟨h.shared, List.pairwise_singleton _ _, ?_⟩
    intro rep hRep rep' hRep'
    rw [List.mem_singleton.mp hRep']
    exact hShared rep hRep
  · intro hNone
    have hFree : foldCase stem ∉ r.taken := by
      rcases hNew with hFree | ⟨e, he, -⟩
      · exact hFree
      · rw [hNone] at he
        cases he
    rw [hReports, List.map_append, List.nodup_append]
    refine ⟨h.fresh hNone, List.nodup_singleton _, ?_⟩
    intro name hName name' hName' hEq
    obtain ⟨rep, hRep, rfl⟩ := List.mem_map.mp hName
    rw [List.map_singleton, List.mem_singleton] at hName'
    exact hFree (hName' ▸ hEq ▸ h.taken rep hRep)

variable (targets : List SessionTarget) (env : CallEnv) {d : Files.Disk K}

/-- The previous index of a run that has the index `index` before it. -/
theorem sound_previous {index : Index} (hSound : index.Sound) :
    (if opts.resume then index else []).Sound := by
  split
  · exact hSound
  · exact sound_nil

theorem lastRound_named (hSound : (previousIndex H opts d).Sound) :
    Named (if opts.resume then previousIndex H opts d else [])
      (lastRound H targets opts env d) :=
  rounds_invariant (I := fun r _ => Named _ r) d
    (named_start H.lowers (sound_previous hSound))
    fun _ _ _ _ _ _ hNamed hEnd => hNamed.step (sound_previous hSound) hEnd

/-- The reports are those of the first targets, in order. -/
theorem lastRound_targets :
    (lastRound H targets opts env d).reports.map (·.target) <+: targets := by
  have hTake : (lastRound H targets opts env d).reports.map (·.target) =
      targets.take (lastRound H targets opts env d).reports.length := by
    refine rounds_invariant (I := fun r _ => r.reports.map (·.target) =
      targets.take r.reports.length) d (by simp [Round.start]) ?_
    intro target r s ops p hTarget hTargets hEnd
    obtain ⟨fate, pages, hReports, -⟩ := hEnd.reports
    rw [hReports, List.map_append, hTargets, List.length_append, List.length_singleton,
      List.take_add_one, hTarget]
    rfl
  rw [hTake]
  exact List.take_prefix _ _

variable {targets env}

theorem lastRound_talkers (hTalkers : (targets.map (·.talker)).Nodup) :
    ((lastRound H targets opts env d).reports.map (·.target.talker)).Nodup := by
  have hPrefix : (lastRound H targets opts env d).reports.map (·.target) <+: targets :=
    lastRound_targets targets env
  replace hPrefix := hPrefix.map (·.talker)
  rw [List.map_map] at hPrefix
  exact hPrefix.sublist.nodup hTalkers

/-- Talkers that come once get names of their own. -/
theorem lastRound_inj (hSound : (previousIndex H opts d).Sound)
    (hTalkers : (targets.map (·.talker)).Nodup) {rep rep' : Report}
    (hRep : rep ∈ (lastRound H targets opts env d).reports)
    (hRep' : rep' ∈ (lastRound H targets opts env d).reports)
    (hEq : foldCase rep.stem = foldCase rep'.stem) : rep = rep' :=
  List.inj_on_of_nodup_map (lastRound_talkers hTalkers) hRep hRep'
    ((lastRound_named targets env hSound).talker_eq hRep hRep' hEq)

theorem lastRound_distinct (hSound : (previousIndex H opts d).Sound)
    (hTalkers : (targets.map (·.talker)).Nodup) :
    (lastRound H targets opts env d).reports.Pairwise
      fun rep rep' => foldCase rep.stem ≠ foldCase rep'.stem := by
  have hNodup : ((lastRound H targets opts env d).reports.map (·.target.talker)).Nodup :=
    lastRound_talkers hTalkers
  have hApart := List.pairwise_map.mp hNodup
  refine hApart.imp_of_mem fun hRep hRep' hNe hFold => hNe ?_
  exact (lastRound_named targets env hSound).talker_eq hRep hRep' hFold

end Rounds

end Weflow.Export
