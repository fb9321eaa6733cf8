import Mathlib.Data.UInt
import Weflow.Export.Atomic
import Weflow.Export.Verdicts

/-!
# The accounts of a run

Every target of a run that returns is written, reused or skipped, and the lists of the outcome, its
total and the rows of the new index say so (`run_accounts`). One thing can go wrong: a first run
keeps the entry of an owner whose file it refuses to replace, and then exports the owner under
another name, so that the owner has two rows. `Overtaken` says when, from the targets and the
directory before the run.
-/

namespace Weflow.Export

open Effects
open Json (Value)

/-! ## The names of a run -/

/-- The stems of the targets, one after another. -/
def stemsFrom (lower : String → String) (previous : Index) :
    List SessionTarget → List String → List String
  | [], _ => []
  | target :: rest, taken =>
    (stemFor lower previous target taken).1 ::
      stemsFrom lower previous rest (stemFor lower previous target taken).2

section Names

variable {K : Type} (H : Host K) (targets : List SessionTarget) (opts : Options)

/-- The stems a run gives, by the index it finds. -/
def stemsOf (index : Index) : List String :=
  stemsFrom H.lower (if opts.resume then index else []) targets
    (seedTaken H.lower (if opts.resume then index else []))

variable [DecidableEq K] {H targets opts} {env : CallEnv}

/-- The stems of the reports. -/
theorem lastRound_stems (d : Files.Disk K) :
    (lastRound H targets opts env d).reports.map (·.stem) =
      (stemsOf H targets opts (previousIndex H opts d)).take
        (lastRound H targets opts env d).reports.length := by
  refine (rounds_invariant (I := fun r _ => r.reports.map (·.stem) =
    (stemsOf H targets opts (previousIndex H opts d)).take r.reports.length ∧
    (stemsOf H targets opts (previousIndex H opts d)).drop r.reports.length =
      stemsFrom H.lower (if opts.resume then previousIndex H opts d else [])
        (targets.drop r.reports.length) r.taken) d ⟨rfl, rfl⟩ ?_).1
  rintro target r s ops p hTarget ⟨hStems, hRest⟩ hEnd
  obtain ⟨fate, pages, hReports, -⟩ := hEnd.reports
  have hTargets : targets.drop r.reports.length =
      target :: targets.drop (r.reports.length + 1) := by
    rw [List.drop_eq_getElem?_toList_append, hTarget]
    rfl
  rw [hTargets, stemsFrom] at hRest
  have hName : (stemsOf H targets opts (previousIndex H opts d))[r.reports.length]? =
      some (stemIn H (if opts.resume then previousIndex H opts d else []) target r) := by
    rw [← List.head?_drop, hRest, List.head?_cons, stemIn]
  rw [hReports, hEnd.taken]
  constructor
  · rw [List.map_append, hStems, List.length_append, List.length_singleton, List.take_add_one,
      hName]
    rfl
  · rw [List.length_append, List.length_singleton, ← List.tail_drop, hRest, List.tail_cons]

/-- The stem and the target of a report. -/
theorem lastRound_report {d : Files.Disk K} {i : Nat} {rep : Report}
    (hRep : (lastRound H targets opts env d).reports[i]? = some rep) :
    targets[i]? = some rep.target ∧
      (stemsOf H targets opts (previousIndex H opts d))[i]? = some rep.stem := by
  have hLess := (List.getElem?_eq_some_iff.mp hRep).1
  have hStems : (lastRound H targets opts env d).reports.map (·.stem) = _ := lastRound_stems d
  have hTargets : (lastRound H targets opts env d).reports.map (·.target) <+: targets :=
    lastRound_targets targets env
  constructor
  · obtain ⟨rest, hRest⟩ := hTargets
    rw [← hRest, List.getElem?_append_left (by rwa [List.length_map]), List.getElem?_map, hRep]
    rfl
  · have hSame := congrArg (·[i]?) hStems
    simp only [List.getElem?_map, hRep, Option.map_some, List.getElem?_take, hLess, if_true]
      at hSame
    exact hSame.symm

end Names

/-! ## The lists of the outcome -/

def Fate.isWritten : Fate → Bool
  | .written _ => true
  | _ => false

def Fate.isReused : Fate → Bool
  | .reused => true
  | _ => false

/-- Refused or failed. -/
def Fate.isSkipped : Fate → Bool
  | .refused => true
  | .failed _ => true
  | _ => false

/-- The rows a session has written. -/
def Fate.messages : Fate → UInt64
  | .written n => n
  | _ => 0

section Tally

variable {K : Type} [DecidableEq K] (H : Host K) (opts : Options) (env : CallEnv)

/-- The lists of the outcome are those of the reports. -/
structure Tally (r : Round) : Prop where
  written : r.written = (r.reports.filter (·.fate.isWritten)).map (opts.path H ·.stem)
  reused : r.reused = (r.reports.filter (·.fate.isReused)).map (·.target.talker)
  skipped : r.skipped = (r.reports.filter (·.fate.isSkipped)).map (·.target.talker)
  total : r.total = (r.reports.map (·.fate.messages)).sum
  counted : env.Honest → ∀ rep ∈ r.reports, ∀ n, rep.fate = .written n →
    n = UInt64.ofNat (writtenRows rep.pages).length

variable {H opts env}

theorem Tally.step {previous recorded : Index} {i : Nat} {target : SessionTarget} {r : Round}
    {s : Files.Disk K} {ops : List (Option String × Files.Op Paths.Path)} {p : Bool × Round}
    (h : Tally H opts env r) (hApart : ∀ rep ∈ r.reports, rep.target.talker ≠ target.talker)
    (hEnd : TargetEnd H opts previous recorded (env.session i) target r s ops p) :
    Tally H opts env p.2 := by
  have hCounted : env.Honest → ∀ rep ∈ p.2.reports, ∀ n, rep.fate = .written n →
      n = UInt64.ofNat (writtenRows rep.pages).length := by
    intro hHonest rep hRep n hFate
    obtain ⟨fate, pages, hReports, -⟩ := hEnd.reports
    rw [hReports] at hRep
    rcases List.mem_append.mp hRep with hRep | hRep
    · exact h.counted hHonest rep hRep n hFate
    · rw [List.mem_singleton] at hRep
      subst hRep
      obtain ⟨bytes, -, hDelivered⟩ := hEnd.delivered hReports hFate
      exact (hDelivered hHonest).choose_spec.2
  have hNew : target.talker ∉ r.skipped := by
    rw [h.skipped]
    intro hMem
    obtain ⟨rep, hRep, hTalker⟩ := List.mem_map.mp hMem
    exact hApart rep (List.mem_filter.mp hRep).1 hTalker
  cases hEnd with
  | refused =>
    refine ⟨?_, ?_, ?_, ?_, hCounted⟩
    · simp [Round.refuse, Round.named, h.written, Fate.isWritten]
    · simp [Round.refuse, Round.named, h.reused, Fate.isReused]
    · rw [Round.refuse, Round.named, if_neg hNew]
      simp [h.skipped, Fate.isSkipped]
    · simp [Round.refuse, Round.named, h.total, Fate.messages]
  | reused =>
    refine ⟨?_, ?_, ?_, ?_, hCounted⟩
    · simp [Round.reuse, Round.named, h.written, Fate.isWritten]
    · simp [Round.reuse, Round.named, h.reused, Fate.isReused]
    · simp [Round.reuse, Round.named, h.skipped, Fate.isSkipped]
    · simp [Round.reuse, Round.named, h.total, Fate.messages]
  | failed =>
    refine ⟨?_, ?_, ?_, ?_, hCounted⟩
    · simp [Round.fail, Round.named, h.written, Fate.isWritten]
    · simp [Round.fail, Round.named, h.reused, Fate.isReused]
    · simp [Round.fail, Round.named, h.skipped, Fate.isSkipped]
    · simp [Round.fail, Round.named, h.total, Fate.messages]
  | written =>
    refine ⟨?_, ?_, ?_, ?_, hCounted⟩
    · simp [Round.deliver, Round.named, h.written, Fate.isWritten, pathIn, Options.path]
    · simp [Round.deliver, Round.named, h.reused, Fate.isReused]
    · simp [Round.deliver, Round.named, h.skipped, Fate.isSkipped]
    · simp [Round.deliver, Round.named, h.total, Fate.messages]

end Tally

/-! ## The rows of the index -/

section Books

variable {K : Type} [DecidableEq K] {H : Host K} (opts : Options) (recorded : Index)

/-- The second session is written although the first was refused over its file. -/
def Displaces (rep rep' : Report) : Prop :=
  rep.fate = .refused ∧
    recorded.owner (fileName rep.stem opts.format) = some rep'.target.talker ∧
    rep'.fate.isWritten = true

/-- What the rows are by the reports. -/
structure Books (r : Round) : Prop where
  talkers : ∀ row ∈ r.indexRows, (∃ rep ∈ r.reports, rep.fate.isSkipped = false ∧
      talkerOf row = some rep.target.talker) ∨
    ∃ rep ∈ r.reports, rep.fate = .refused ∧ opts.resume = false ∧ ∃ talker,
      recorded.owner (fileName rep.stem opts.format) = some talker ∧ talkerOf row = some talker
  filed : ∀ rep ∈ r.reports, rep.fate.isSkipped = false → ∃ row ∈ r.indexRows,
    talkerOf row = some rep.target.talker ∧ fileOf row = some (fileName rep.stem opts.format)
  kept : ∀ rep ∈ r.reports, rep.fate = .refused → ∀ talker,
    recorded.owner (fileName rep.stem opts.format) = some talker →
    ∃ row ∈ r.indexRows, talkerOf row = some talker
  apart : (r.indexRows.map talkerOf).Nodup ↔
    r.reports.Pairwise fun rep rep' => ¬ Displaces opts recorded rep rep'

variable {opts recorded}

/-- The entry of a talker in an index that was read. -/
theorem Index.talkerOf_row (hTalker : ∀ e ∈ recorded, talkerOf e.2 = some e.1)
    (hKeyed : (recorded.map (·.1)).Pairwise (· < ·)) {talker : String} {row : Value}
    (h : recorded.row talker = some row) : talkerOf row = some talker :=
  hTalker _ ((Index.row_iff hKeyed).mp h)

/-- Nothing of a talker is in the books before its turn, unless somebody was refused over it. -/
theorem Books.new {r : Round} (h : Books opts recorded r) {talker : String}
    (hApart : ∀ rep ∈ r.reports, rep.target.talker ≠ talker) :
    some talker ∉ r.indexRows.map talkerOf ↔ ∀ rep ∈ r.reports, rep.fate = .refused →
      recorded.owner (fileName rep.stem opts.format) ≠ some talker := by
  constructor
  · intro hNot rep hRep hFate hOwner
    obtain ⟨row, hRow, hTalker⟩ := h.kept rep hRep hFate talker hOwner
    exact hNot (List.mem_map.mpr ⟨row, hRow, hTalker⟩)
  · intro hNone hMem
    obtain ⟨row, hRow, hTalker⟩ := List.mem_map.mp hMem
    rcases h.talkers row hRow with ⟨rep, hRep, -, hOf⟩ | ⟨rep, hRep, hFate, -, o, hOwner, hOf⟩
    · rw [hTalker, Option.some.injEq] at hOf
      exact hApart rep hRep hOf.symm
    · rw [hTalker, Option.some.injEq] at hOf
      exact hNone rep hRep hFate (hOf ▸ hOwner)

/-- The books with one more report and its rows. -/
theorem Books.add {r r' : Round} {rep : Report} {rows : List Value} (h : Books opts recorded r)
    (hReports : r'.reports = r.reports ++ [rep]) (hRows : r'.indexRows = r.indexRows ++ rows)
    (hTalkers : ∀ row ∈ rows, rep.fate.isSkipped = false ∧ talkerOf row = some rep.target.talker ∨
      rep.fate = .refused ∧ opts.resume = false ∧ ∃ talker,
        recorded.owner (fileName rep.stem opts.format) = some talker ∧
        talkerOf row = some talker)
    (hFiled : rep.fate.isSkipped = false → ∃ row ∈ rows,
      talkerOf row = some rep.target.talker ∧
      fileOf row = some (fileName rep.stem opts.format))
    (hKept : rep.fate = .refused → ∀ talker,
      recorded.owner (fileName rep.stem opts.format) = some talker →
      ∃ row ∈ r.indexRows ++ rows, talkerOf row = some talker)
    (hNodup : ((r.indexRows ++ rows).map talkerOf).Nodup ↔ (r.indexRows.map talkerOf).Nodup ∧
      ∀ rep' ∈ r.reports, ¬ Displaces opts recorded rep' rep) : Books opts recorded r' := by
  have hLast : rep ∈ r.reports ++ [rep] := List.mem_append_right _ List.mem_cons_self
  refine ⟨?_, ?_, ?_, ?_⟩
  · intro row hRow
    rw [hRows] at hRow
    rw [hReports]
    rcases List.mem_append.mp hRow with hRow | hRow
    · refine (h.talkers row hRow).imp ?_ ?_
      · exact fun ⟨rep', hRep', hFate⟩ => ⟨rep', List.mem_append_left _ hRep', hFate⟩
      · exact fun ⟨rep', hRep', hFate⟩ => ⟨rep', List.mem_append_left _ hRep', hFate⟩
    · exact (hTalkers row hRow).imp (fun hFate => ⟨rep, hLast, hFate⟩)
        fun hFate => ⟨rep, hLast, hFate⟩
  · intro rep' hRep' hFate
    rw [hReports] at hRep'
    rw [hRows]
    rcases List.mem_append.mp hRep' with hRep' | hRep'
    · obtain ⟨row, hRow, hOf⟩ := h.filed rep' hRep' hFate
      exact ⟨row, List.mem_append_left _ hRow, hOf⟩
    · rw [List.mem_singleton.mp hRep'] at hFate ⊢
      obtain ⟨row, hRow, hOf⟩ := hFiled hFate
      exact ⟨row, List.mem_append_right _ hRow, hOf⟩
  · intro rep' hRep' hFate talker hOwner
    rw [hReports] at hRep'
    rw [hRows]
    rcases List.mem_append.mp hRep' with hRep' | hRep'
    · obtain ⟨row, hRow, hOf⟩ := h.kept rep' hRep' hFate talker hOwner
      exact ⟨row, List.mem_append_left _ hRow, hOf⟩
    · rw [List.mem_singleton.mp hRep'] at hFate hOwner
      exact hKept hFate talker hOwner
  · rw [hRows, hNodup, hReports, h.apart, List.pairwise_append]
    simp

/-- A row of its own for the next session. -/
theorem Books.add_own {r r' : Round} {rep : Report} {row : Value} (h : Books opts recorded r)
    (hApart : ∀ rep' ∈ r.reports, rep'.target.talker ≠ rep.target.talker)
    (hReports : r'.reports = r.reports ++ [rep]) (hRows : r'.indexRows = r.indexRows ++ [row])
    (hFate : rep.fate.isSkipped = false) (hTalker : talkerOf row = some rep.target.talker)
    (hFile : fileOf row = some (fileName rep.stem opts.format))
    (hWritten : rep.fate.isWritten = true ∨ ∀ rep' ∈ r.reports, rep'.fate ≠ .refused) :
    Books opts recorded r' := by
  refine h.add hReports hRows ?_ (fun _ => ⟨row, List.mem_cons_self, hTalker, hFile⟩) ?_ ?_
  · intro row' hRow'
    rw [List.mem_singleton.mp hRow']
    exact .inl ⟨hFate, hTalker⟩
  · intro hRefused
    rw [hRefused] at hFate
    cases hFate
  · have hNew : some rep.target.talker ∉ r.indexRows.map talkerOf ↔
        ∀ rep' ∈ r.reports, ¬ Displaces opts recorded rep' rep := by
      rw [h.new hApart]
      refine forall₂_congr fun rep' hRep' => ?_
      rw [Displaces, not_and, not_and]
      refine imp_congr_right fun hRefused => ?_
      rcases hWritten with hWritten | hNone
      · rw [hWritten]
        simp
      · exact absurd hRefused (hNone rep' hRep')
    rw [List.map_append, List.map_singleton, hTalker, ← hNew, List.nodup_append]
    simp

/-- What a refusal keeps has a talker of its own. -/
theorem nodup_carried {rows : List Value} {owner : Option String}
    (hTalker : ∀ talker row, recorded.row talker = some row → talkerOf row = some talker) :
    ((rows ++ carried recorded owner rows).map talkerOf).Nodup ↔ (rows.map talkerOf).Nodup := by
  rw [List.map_append, List.nodup_append]
  constructor
  · exact And.left
  · intro hRows
    cases owner with
    | none => exact ⟨hRows, by simp [carried], by simp [carried]⟩
    | some talker =>
      rw [carried]
      split_ifs with hAny
      · exact ⟨hRows, by simp, by simp⟩
      · cases hRow : recorded.row talker with
        | none => exact ⟨hRows, by simp, by simp⟩
        | some row =>
          refine ⟨hRows, by simp, ?_⟩
          intro o hOld o' hNew hEq
          rw [Option.toList_some, List.map_singleton, List.mem_singleton,
            hTalker talker row hRow] at hNew
          obtain ⟨old, hMem, hOf⟩ := List.mem_map.mp hOld
          exact hAny (List.any_eq_true.mpr ⟨old, hMem, isRowOf_iff.mpr (by rw [hOf, hEq, hNew])⟩)

theorem Books.step {env : SessionEnv} {target : SessionTarget} {r : Round} {s : Files.Disk K}
    {ops : List (Option String × Files.Op Paths.Path)} {p : Bool × Round}
    (hTalker : ∀ e ∈ recorded, talkerOf e.2 = some e.1)
    (hKeyed : (recorded.map (·.1)).Pairwise (· < ·))
    (h : Books opts recorded r) (hApart : ∀ rep ∈ r.reports, rep.target.talker ≠ target.talker)
    (hFirst : ∀ rep ∈ r.reports, rep.fate = .refused → opts.resume = false)
    (hName : nameHere (pathIn H opts (if opts.resume then recorded else []) target r) =
      fileName (stemIn H (if opts.resume then recorded else []) target r) opts.format)
    (hEnd : TargetEnd H opts (if opts.resume then recorded else []) recorded env target r s ops
      p) : Books opts recorded p.2 := by
  cases hEnd with
  | refused hNot hHere hOwner hRound =>
    rw [hName]
    refine h.add rfl rfl (fun row hRow => .inr ?_) (fun hFate => by cases hFate) ?_ ?_
    · obtain ⟨talker, hOwner, -, hRow⟩ := mem_carried.mp hRow
      exact ⟨rfl, hNot, talker, hOwner, Index.talkerOf_row hTalker hKeyed hRow⟩
    · intro _ talker hOwner
      obtain ⟨row, -, hMem, -⟩ := Index.owner_mem hOwner
      cases hAny : r.indexRows.any (isRowOf talker) with
      | true =>
        obtain ⟨row', hRow', hIs⟩ := List.any_eq_true.mp hAny
        exact ⟨row', List.mem_append_left _ hRow', isRowOf_iff.mp hIs⟩
      | false =>
        have hCarried : row ∈ carried recorded (some talker) r.indexRows :=
          mem_carried.mpr ⟨talker, rfl, hAny, (Index.row_iff hKeyed).mpr hMem⟩
        rw [← hOwner] at hCarried
        exact ⟨row, List.mem_append_right _ hCarried, hTalker _ hMem⟩
    · rw [nodup_carried fun talker row hRow => Index.talkerOf_row hTalker hKeyed hRow]
      simp [Displaces, Fate.isWritten]
  | reused hResume hHere hReusable =>
    rw [reusable, hName] at hReusable
    simp only [hResume, if_true, Bool.and_eq_true, beq_iff_eq] at hReusable hName ⊢
    have hFile := hReusable.1.1.1
    rw [Index.file, Option.bind_eq_some_iff] at hFile
    obtain ⟨row, hRow, hFile⟩ := hFile
    rw [hRow]
    refine h.add_own hApart rfl rfl rfl (Index.talkerOf_row hTalker hKeyed hRow) hFile
      (.inr fun rep hRep hFate => ?_)
    have hNot := hFirst rep hRep hFate
    rw [hResume] at hNot
    cases hNot
  | failed e ops pages hAdmitted hResult hSession =>
    refine h.add rfl (List.append_nil _).symm (by simp) (fun hFate => by cases hFate)
      (fun hFate => by cases hFate) ?_
    simp [Displaces, Fate.isWritten]
  | written n ops pages hAdmitted hResult hSession =>
    refine h.add_own hApart rfl rfl rfl (talkerOf_indexRow _ _ _ _) ?_ (.inl rfl)
    rw [hName]
    exact fileOf_indexRow _ _ _ _

end Books

/-! ## The accounts -/

section Accounts

variable {K : Type} [DecidableEq K] (H : Host K) (targets : List SessionTarget) (opts : Options)
  (env : CallEnv) (d : Files.Disk K)

/-- Exactly one of three. -/
def OneOf (a b c : Prop) : Prop := a ∧ ¬b ∧ ¬c ∨ ¬a ∧ b ∧ ¬c ∨ ¬a ∧ ¬b ∧ c

/-- The accounts of a run that returns `out`. -/
structure Accounted (out : Outcome) : Prop where
  all : ((run H targets opts env).result d).2.map (·.target) = targets
  once : ∀ rep ∈ ((run H targets opts env).result d).2, OneOf
    (opts.path H rep.stem ∈ out.written) (rep.target.talker ∈ out.reused)
    (rep.target.talker ∈ out.skipped)
  index : (run H targets opts env).after d (nameKey H opts.outDir indexName) =
    some (.file (indexBytes H (lastRound H targets opts env d).indexRows env))
  delivered : ∀ rep ∈ ((run H targets opts env).result d).2,
    opts.path H rep.stem ∈ out.written ∨ rep.target.talker ∈ out.reused →
    Standing H opts.outDir True ((run H targets opts env).after d) rep.stem opts.format ∧
    ∃ row, (lastRound H targets opts env d).indexRows.filter (isRowOf rep.target.talker) = [row] ∧
      fileOf row = some (fileName rep.stem opts.format)
  reused : ∀ rep ∈ ((run H targets opts env).result d).2, rep.target.talker ∈ out.reused →
    (previousIndex H opts d).file rep.target.talker = some (fileName rep.stem opts.format) ∧
    d (H.key (opts.part H rep.stem)) = none ∧
    (opts.withMedia = true → (((previousIndex H opts d).row rep.target.talker).bind
      (·.get "withMedia")).bind (·.asBool) = some true)
  talkers : ((lastRound H targets opts env d).indexRows.map talkerOf).Nodup
  messages : out.messages = UInt64.ofNat
    ((((run H targets opts env).result d).2.filter (·.fate.isWritten)).map
      fun rep => (writtenRows rep.pages).length).sum

/-- A target is exported although an earlier one finds its recorded file under the name it gets
itself. -/
def Overtaken : Prop :=
  opts.resume = false ∧ ∃ (i j : Nat) (name : String) (target : SessionTarget) (stem : String),
    i < j ∧
    (stemsOf H targets opts (previousIndex H opts d))[i]? = some name ∧
    (d (H.key (opts.path H name))).isSome = true ∧
    (previousIndex H opts d).owner (fileName name opts.format) = some target.talker ∧
    targets[j]? = some target ∧
    (stemsOf H targets opts (previousIndex H opts d))[j]? = some stem ∧
    Open H opts (previousIndex H opts d) d target stem ∧
    verdictOf H opts env d j target stem = .ok ()

variable {H targets opts env d}

/-- The invariant of the sessions. -/
theorem lastRound_books (env : CallEnv) (hSound : (previousIndex H opts d).Sound)
    (hTalkers : (targets.map (·.talker)).Nodup) :
    Tally H opts env (lastRound H targets opts env d) ∧
      Books opts (previousIndex H opts d) (lastRound H targets opts env d) := by
  have hTalker : ∀ e ∈ previousIndex H opts d, talkerOf e.2 = some e.1 := fun e he =>
    parseIndex_talker he
  refine (rounds_invariant (I := fun r s => Going H targets opts env d r s ∧
    Tally H opts env r ∧ Books opts (previousIndex H opts d) r) d ?_ ?_).2
  · refine ⟨⟨named_start H.lowers (sound_previous hSound), rfl, fun k => .same rfl,
      by simp [Round.start], by simp [Round.start]⟩, ⟨rfl, rfl, rfl, rfl, ?_⟩, ?_⟩
    · simp [Round.start]
    · refine ⟨?_, ?_, ?_, ?_⟩ <;> simp [Round.start]
  · rintro target r s ops p hTarget ⟨hGoing, hTally, hBooks⟩ hEnd
    have hApart := talker_notMem hTalkers hGoing.targets hTarget
    have hNext := hGoing.step hSound hTalkers hTarget hEnd
    refine ⟨hNext, hTally.step hApart hEnd, ?_⟩
    refine hBooks.step hTalker (parseIndex_keyed _ _) hApart ?_ ?_ hEnd
    · intro rep hRep hFate
      obtain ⟨i, hGet⟩ := List.mem_iff_getElem?.mp hRep
      cases hGoing.fates i rep hGet with
      | refused _ hFirst => exact hFirst
      | reused hNot => rw [hFate] at hNot; cases hNot
      | failed e hNot => rw [hFate] at hNot; cases hNot
      | written n hNot => rw [hFate] at hNot; cases hNot
    · obtain ⟨fate, pages, hReports, -⟩ := hEnd.reports
      have hLast : (⟨target, stemIn H (if opts.resume then previousIndex H opts d else []) target r,
          fate, pages⟩ : Report) ∈ p.2.reports := by
        rw [hReports]
        exact List.mem_append_right _ List.mem_cons_self
      exact nameHere_join H (portable_fileName (hNext.named.stem _ hLast).1 opts.format)

omit [DecidableEq K] in
/-- A refused session is not open. -/
theorem Open.not_refused {index : Index} {target : SessionTarget} {stem : String}
    (h : Open H opts index d target stem) (hFirst : opts.resume = false)
    (hHere : (d (H.key (opts.path H stem))).isSome = true) :
    index.owner (fileName stem opts.format) = some target.talker := by
  rcases h.first hFirst with hNone | hOwner
  · rw [hNone] at hHere
    cases hHere
  · exact hOwner

section Fated

variable {index : Index} {i : Nat} {rep : Report} (h : Fated H opts env index d i rep)
include h

omit [DecidableEq K] in
theorem Fated.open_iff : Open H opts index d rep.target rep.stem ↔
    rep.fate ≠ .refused ∧ rep.fate ≠ .reused := by
  cases h with
  | refused hFate hFirst hHere hOwner =>
    rw [hFate]
    exact ⟨fun hOpen => absurd (hOpen.not_refused hFirst hHere) hOwner, fun hNot =>
      absurd rfl hNot.1⟩
  | reused hFate hResume hHere hReusable =>
    rw [hFate]
    refine ⟨fun hOpen => ?_, fun hNot => absurd rfl hNot.2⟩
    rw [hOpen.again hResume hHere] at hReusable
    cases hReusable
  | failed e hFate hOpen =>
    rw [hFate]
    exact ⟨fun _ => ⟨by simp, by simp⟩, fun _ => hOpen⟩
  | written n hFate hOpen =>
    rw [hFate]
    exact ⟨fun _ => ⟨by simp, by simp⟩, fun _ => hOpen⟩

omit [DecidableEq K] in
theorem Fated.refused_iff : rep.fate = .refused ↔ opts.resume = false ∧
    (d (H.key (opts.path H rep.stem))).isSome = true ∧
    index.owner (fileName rep.stem opts.format) ≠ some rep.target.talker := by
  have hOpen := h.open_iff
  constructor
  · intro hFate
    cases h with
    | refused _ hFirst hHere hOwner => exact ⟨hFirst, hHere, hOwner⟩
    | reused hNot => rw [hFate] at hNot; cases hNot
    | failed e hNot => rw [hFate] at hNot; cases hNot
    | written n hNot => rw [hFate] at hNot; cases hNot
  · rintro ⟨hFirst, hHere, hOwner⟩
    cases h with
    | refused hFate => exact hFate
    | reused _ hResume =>
      rw [hFirst] at hResume
      cases hResume
    | failed e _ hIs => exact absurd (hIs.not_refused hFirst hHere) hOwner
    | written n _ hIs => exact absurd (hIs.not_refused hFirst hHere) hOwner

omit [DecidableEq K] in
theorem Fated.written_iff : rep.fate.isWritten = true ↔ Open H opts index d rep.target rep.stem ∧
    verdictOf H opts env d i rep.target rep.stem = .ok () := by
  rw [h.open_iff]
  cases h with
  | refused hFate => rw [hFate]; simp [Fate.isWritten]
  | reused hFate => rw [hFate]; simp [Fate.isWritten]
  | failed e hFate _ hVerdict => rw [hFate, hVerdict]; simp [Fate.isWritten]
  | written n hFate _ hVerdict => rw [hFate, hVerdict]; simp [Fate.isWritten]

omit [DecidableEq K] in
theorem Fated.count {n : UInt64} (hFate : rep.fate = .written n) : n = countOf H opts env i := by
  cases h with
  | refused hNot => rw [hFate] at hNot; cases hNot
  | reused hNot => rw [hFate] at hNot; cases hNot
  | failed e hNot => rw [hFate] at hNot; cases hNot
  | written m hIs _ _ hCount =>
    rw [hFate] at hIs
    cases hIs
    exact hCount

omit [DecidableEq K] in
theorem Fated.reused_iff : rep.fate = .reused ↔ opts.resume = true ∧
    (d (H.key (opts.path H rep.stem))).isSome = true ∧
    reusable H opts index rep.target rep.stem (opts.path H rep.stem) d = true := by
  have hNot : Open H opts index d rep.target rep.stem → ¬ (opts.resume = true ∧
      (d (H.key (opts.path H rep.stem))).isSome = true ∧
      reusable H opts index rep.target rep.stem (opts.path H rep.stem) d = true) := by
    rintro hOpen ⟨hResume, hHere, hReusable⟩
    rw [hOpen.again hResume hHere] at hReusable
    cases hReusable
  cases h with
  | refused hFate hFirst => rw [hFate, hFirst]; simp
  | reused hFate hResume hHere hReusable =>
    exact ⟨fun _ => ⟨hResume, hHere, hReusable⟩, fun _ => hFate⟩
  | failed e hFate hOpen =>
    rw [hFate]
    exact ⟨fun hEq => (by cases hEq), fun hIs => absurd hIs (hNot hOpen)⟩
  | written n hFate hOpen =>
    rw [hFate]
    exact ⟨fun hEq => (by cases hEq), fun hIs => absurd hIs (hNot hOpen)⟩

omit [DecidableEq K] in
theorem Fated.failed_iff {e : Failure} : rep.fate = .failed e ↔
    Open H opts index d rep.target rep.stem ∧
    verdictOf H opts env d i rep.target rep.stem = .error e := by
  rw [h.open_iff]
  cases h with
  | refused hFate => rw [hFate]; simp
  | reused hFate => rw [hFate]; simp
  | failed e' hFate _ hVerdict => rw [hFate, hVerdict]; simp
  | written n hFate _ hVerdict => rw [hFate, hVerdict]; simp

end Fated

omit [DecidableEq K] in
/-- What is asked of a session that is reused. -/
theorem Fated.reuse {index : Index} {i : Nat} {rep : Report} (h : Fated H opts env index d i rep)
    (hStem : Stem rep.stem) (hFate : rep.fate.isReused = true) :
    index.file rep.target.talker = some (fileName rep.stem opts.format) ∧
    d (H.key (opts.part H rep.stem)) = none ∧
    (opts.withMedia = true → ((index.row rep.target.talker).bind (·.get "withMedia")).bind
      (·.asBool) = some true) := by
  cases h with
  | refused hNot => rw [hNot] at hFate; cases hFate
  | failed e hNot => rw [hNot] at hFate; cases hFate
  | written n hNot => rw [hNot] at hFate; cases hFate
  | reused _ hResume hHere hReusable =>
    rw [reusable, Options.path, nameHere_join H (portable_fileName hStem opts.format)] at hReusable
    simp only [Bool.and_eq_true, beq_iff_eq, Bool.not_eq_true'] at hReusable
    obtain ⟨⟨⟨hFile, hPart⟩, hMedia⟩, -⟩ := hReusable
    have hNoPart : d (H.key (opts.part H rep.stem)) = none := by
      rw [Options.part]
      simpa using hPart
    refine ⟨hFile, hNoPart, fun hWith => ?_⟩
    rw [hWith, Bool.not_true, Bool.false_or] at hMedia
    cases hRow : ((index.row rep.target.talker).bind (·.get "withMedia")).bind (·.asBool) with
    | none =>
      rw [hRow] at hMedia
      cases hMedia
    | some kept =>
      rw [hRow, Option.getD_some] at hMedia
      rw [hMedia]

/-- A refused owner that is written is one that was overtaken. -/
theorem overtaken_iff (hSound : (previousIndex H opts d).Sound)
    (hTalkers : (targets.map (·.talker)).Nodup)
    (hAll : (lastRound H targets opts env d).reports.map (·.target) = targets) :
    Overtaken H targets opts env d ↔ ∃ (i j : Nat) (rep rep' : Report), i < j ∧
      (lastRound H targets opts env d).reports[i]? = some rep ∧
      (lastRound H targets opts env d).reports[j]? = some rep' ∧
      Displaces opts (previousIndex H opts d) rep rep' := by
  have hGoing := lastRound_going env hSound hTalkers
  constructor
  · rintro ⟨hFirst, i, j, name, target, stem, hLess, hNameI, hHere, hOwner, hTargetJ, hNameJ,
      hOpen, hVerdict⟩
    obtain ⟨rep', hRep', rfl⟩ : ∃ rep', (lastRound H targets opts env d).reports[j]? = some rep' ∧
        rep'.target = target := by
      rw [← hAll, List.getElem?_map, Option.map_eq_some_iff] at hTargetJ
      exact hTargetJ
    have hLengthJ := (List.getElem?_eq_some_iff.mp hRep').1
    obtain ⟨rep, hRep⟩ : ∃ rep, (lastRound H targets opts env d).reports[i]? = some rep :=
      ⟨_, List.getElem?_eq_getElem (hLess.trans hLengthJ)⟩
    obtain ⟨hTarget, hName⟩ := lastRound_report hRep
    obtain ⟨hTarget', hName'⟩ := lastRound_report hRep'
    obtain rfl := Option.some.inj (hNameI.symm.trans hName)
    obtain rfl := Option.some.inj (hNameJ.symm.trans hName')
    refine ⟨i, j, rep, rep', hLess, hRep, hRep', ?_, hOwner,
      (hGoing.fates j rep' hRep').written_iff.mpr ⟨hOpen, hVerdict⟩⟩
    refine (hGoing.fates i rep hRep).refused_iff.mpr ⟨hFirst, hHere, ?_⟩
    rw [hOwner]
    intro hSame
    have hTalker : (targets.map (·.talker))[j]? = (targets.map (·.talker))[i]? := by
      rw [List.getElem?_map, List.getElem?_map, hTarget, hTarget']
      exact hSame
    have hLengthT : j < (targets.map (·.talker)).length := by
      rw [List.length_map]
      exact (List.getElem?_eq_some_iff.mp hTarget').1
    have hEqual := (List.getElem?_inj hLengthT hTalkers).mp hTalker
    omega
  · rintro ⟨i, j, rep, rep', hLess, hRep, hRep', hRefused, hOwner, hWritten⟩
    obtain ⟨hFirst, hHere, -⟩ := (hGoing.fates i rep hRep).refused_iff.mp hRefused
    obtain ⟨hOpen, hVerdict⟩ := (hGoing.fates j rep' hRep').written_iff.mp hWritten
    obtain ⟨hTarget', hName'⟩ := lastRound_report hRep'
    exact ⟨hFirst, i, j, rep.stem, rep'.target, rep'.stem, hLess, (lastRound_report hRep).2, hHere,
      hOwner, hTarget', hName', hOpen, hVerdict⟩

/-- Every talker has one row, unless an owner was overtaken. -/
theorem lastRound_apart (hSound : (previousIndex H opts d).Sound)
    (hTalkers : (targets.map (·.talker)).Nodup)
    (hAll : (lastRound H targets opts env d).reports.map (·.target) = targets) :
    ((lastRound H targets opts env d).indexRows.map talkerOf).Nodup ↔
      ¬ Overtaken H targets opts env d := by
  obtain ⟨-, hBooks⟩ := lastRound_books env hSound hTalkers
  rw [hBooks.apart, overtaken_iff hSound hTalkers hAll, List.pairwise_iff_getElem]
  constructor
  · rintro hNone ⟨i, j, rep, rep', hLess, hRep, hRep', hDisplaces⟩
    obtain ⟨hi, rfl⟩ := List.getElem?_eq_some_iff.mp hRep
    obtain ⟨hj, rfl⟩ := List.getElem?_eq_some_iff.mp hRep'
    exact hNone i j hi hj hLess hDisplaces
  · intro hNone i j hi hj hLess hDisplaces
    exact hNone ⟨i, j, _, _, hLess, List.getElem?_eq_getElem hi, List.getElem?_eq_getElem hj,
      hDisplaces⟩

/-- An element of a list is among those selected if it is selected itself, when its image is its
own. -/
theorem mem_map_filter {A B : Type} {l : List A} {f : A → B} {p : A → Bool} {a : A}
    (hInj : ∀ b ∈ l, f b = f a → b = a) (ha : a ∈ l) : f a ∈ (l.filter p).map f ↔ p a = true := by
  constructor
  · intro h
    obtain ⟨b, hb, hEq⟩ := List.mem_map.mp h
    rw [List.mem_filter] at hb
    rw [← hInj b hb.1 hEq]
    exact hb.2
  · exact fun h => List.mem_map_of_mem (List.mem_filter.mpr ⟨ha, h⟩)

/-- The one row of a talker. -/
theorem filter_isRowOf {rows : List Value} {row : Value} {talker : String}
    (hNodup : (rows.map talkerOf).Nodup) (hRow : row ∈ rows) (hTalker : talkerOf row = some talker) :
    rows.filter (isRowOf talker) = [row] := by
  obtain ⟨front, back, rfl⟩ := List.append_of_mem hRow
  have hNone : ∀ row' ∈ front ++ back, isRowOf talker row' = false := by
    intro row' hRow'
    rw [← Bool.not_eq_true, isRowOf_iff]
    intro hOf
    have hPerm : (front ++ row :: back).Perm (row :: (front ++ back)) := List.perm_middle
    have hCons := (hPerm.map talkerOf).nodup_iff.mp hNodup
    rw [List.map_cons, List.nodup_cons] at hCons
    exact hCons.1 (List.mem_map.mpr ⟨row', hRow', hOf.trans hTalker.symm⟩)
  have hNil : ∀ l : List Value, (∀ row' ∈ l, isRowOf talker row' = false) →
      l.filter (isRowOf talker) = [] := by
    intro l hl
    rw [List.filter_eq_nil_iff]
    exact fun row' hRow' => by rw [hl row' hRow']; simp
  rw [List.filter_append, List.filter_cons_of_pos (isRowOf_iff.mpr hTalker),
    hNil front fun row' h => hNone row' (List.mem_append_left _ h),
    hNil back fun row' h => hNone row' (List.mem_append_right _ h), List.nil_append]

/-- The total of the reports is the number of rows that were written. -/
theorem sum_messages {log : List Report} (h : ∀ rep ∈ log, ∀ n, rep.fate = .written n →
    n = UInt64.ofNat (writtenRows rep.pages).length) :
    (log.map (·.fate.messages)).sum = UInt64.ofNat
      ((log.filter (·.fate.isWritten)).map fun rep => (writtenRows rep.pages).length).sum := by
  induction log with
  | nil => rfl
  | cons rep rest ih =>
    rw [List.map_cons, List.sum_cons, ih fun rep' h' => h rep' (List.mem_cons_of_mem _ h')]
    cases hFate : rep.fate with
    | written n =>
      rw [List.filter_cons_of_pos (by rw [hFate]; rfl), List.map_cons, List.sum_cons,
        UInt64.ofNat_add, ← h rep List.mem_cons_self n hFate]
      rfl
    | refused =>
      rw [List.filter_cons_of_neg (by rw [hFate]; simp [Fate.isWritten])]
      simp [Fate.messages]
    | reused =>
      rw [List.filter_cons_of_neg (by rw [hFate]; simp [Fate.isWritten])]
      simp [Fate.messages]
    | failed e =>
      rw [List.filter_cons_of_neg (by rw [hFate]; simp [Fate.isWritten])]
      simp [Fate.messages]

/-- The three lists of the outcome are the fates of the reports. -/
theorem outcome_fates (hSound : (previousIndex H opts d).Sound)
    (hTalkers : (targets.map (·.talker)).Nodup) {out : Outcome}
    (hOk : ((run H targets opts env).result d).1 = .ok out) {rep : Report}
    (hRep : rep ∈ (lastRound H targets opts env d).reports) :
    (opts.path H rep.stem ∈ out.written ↔ rep.fate.isWritten = true) ∧
    (rep.target.talker ∈ out.reused ↔ rep.fate.isReused = true) ∧
    (rep.target.talker ∈ out.skipped ↔ rep.fate.isSkipped = true) := by
  obtain ⟨-, -, hWritten, hReused, hSkipped, -, -⟩ := run_ok hOk
  obtain ⟨hTally, -⟩ := lastRound_books env hSound hTalkers
  have hNamed := lastRound_named targets env hSound
  have hInj : ∀ rep' ∈ (lastRound H targets opts env d).reports,
      rep'.target.talker = rep.target.talker → rep' = rep := fun rep' hRep' hEq =>
    List.inj_on_of_nodup_map (lastRound_talkers hTalkers) hRep' hRep hEq
  have hInjPath : ∀ rep' ∈ (lastRound H targets opts env d).reports,
      opts.path H rep'.stem = opts.path H rep.stem → rep' = rep := fun rep' hRep' hEq =>
    lastRound_inj hSound hTalkers hRep' hRep (key_path H (hNamed.stem rep' hRep').1
      (hNamed.stem rep hRep).1 (congrArg H.key hEq))
  rw [hWritten, hTally.written, hReused, hTally.reused, hSkipped, hTally.skipped]
  exact ⟨mem_map_filter hInjPath hRep, mem_map_filter hInj hRep, mem_map_filter hInj hRep⟩

/-- A session that is reused is recorded with its name, and its last call was not cut short. -/
theorem reused_stood (hSound : (previousIndex H opts d).Sound)
    (hTalkers : (targets.map (·.talker)).Nodup) {rep : Report}
    (hRep : rep ∈ (lastRound H targets opts env d).reports) (hFate : rep.fate.isReused = true) :
    (previousIndex H opts d).file rep.target.talker = some (fileName rep.stem opts.format) ∧
    d (H.key (opts.part H rep.stem)) = none ∧
    (opts.withMedia = true → (((previousIndex H opts d).row rep.target.talker).bind
      (·.get "withMedia")).bind (·.asBool) = some true) := by
  obtain ⟨i, hGet⟩ := List.mem_iff_getElem?.mp hRep
  have hStem := ((lastRound_named targets env hSound).stem rep hRep).1
  exact ((lastRound_going env hSound hTalkers).fates i rep hGet).reuse hStem hFate

/-- The file of a session that is written or reused stands when the call is through with the
sessions. -/
theorem standing_sessions (hRecorded : Recorded H opts.outDir True d)
    (hTalkers : (targets.map (·.talker)).Nodup) (hHonest : env.Honest) {rep : Report}
    (hRep : rep ∈ (lastRound H targets opts env d).reports)
    (hDone : rep.fate.isWritten = true ∨ rep.fate.isReused = true) :
    Standing H opts.outDir True (sessionsDisk H targets opts env d) rep.stem opts.format := by
  obtain ⟨hStands, hNew, -⟩ := lastRound_stands targets hRecorded fun (_ : True) => hHonest
  rcases hDone with hFate | hFate
  · cases hIs : rep.fate with
    | written n => exact hNew rep hRep n hIs
    | refused => rw [hIs] at hFate; cases hFate
    | reused => rw [hIs] at hFate; cases hFate
    | failed e => rw [hIs] at hFate; cases hFate
  · obtain ⟨old, hMem, hOld⟩ :=
      Index.file_mem (reused_stood hRecorded.entries.2 hTalkers hRep hFate).1
    obtain ⟨stem, format, hOldFile, -, -, hStands⟩ := (hStands _ hMem).file
    rw [hOld, Option.some.injEq] at hOldFile
    obtain ⟨-, rfl⟩ := foldCase_fileName_inj (congrArg foldCase hOldFile)
    rw [Standing, hOldFile]
    exact hStands

theorem run_accounts (hReached : Reached H opts.outDir True d)
    (hTalkers : (targets.map (·.talker)).Nodup) (hHonest : env.Honest) {out : Outcome}
    (hOk : ((run H targets opts env).result d).1 = .ok out) :
    Accounted H targets opts env d out ↔ ¬ Overtaken H targets opts env d := by
  have hRecorded := hReached.recorded
  obtain ⟨hEntries, hSound⟩ := hRecorded.entries
  obtain ⟨hAll, hLog, -, -, -, hTotal, hIndex⟩ := run_ok hOk
  obtain ⟨hTally, hBooks⟩ := lastRound_books env hSound hTalkers
  have hNamed := lastRound_named targets env hSound
  have hNodup : ((lastRound H targets opts env d).indexRows.map talkerOf).Nodup ↔
      ¬ Overtaken H targets opts env d := lastRound_apart hSound hTalkers hAll
  rw [← hNodup]
  refine ⟨Accounted.talkers, fun hApart => ⟨?_, ?_, hIndex, ?_, ?_, hApart, ?_⟩⟩
  · rw [hLog]
    exact hAll
  · rw [hLog]
    intro rep hRep
    obtain ⟨hIsWritten, hIsReused, hIsSkipped⟩ := outcome_fates hSound hTalkers hOk hRep
    rw [hIsWritten, hIsReused, hIsSkipped]
    cases rep.fate <;> simp [OneOf, Fate.isWritten, Fate.isReused, Fate.isSkipped]
  · rw [hLog]
    intro rep hRep hDone
    obtain ⟨hIsWritten, hIsReused, -⟩ := outcome_fates hSound hTalkers hOk hRep
    rw [hIsWritten, hIsReused] at hDone
    obtain ⟨hStem, hName⟩ := hNamed.stem rep hRep
    have hKept : rep.fate.isSkipped = false := by
      cases hFate : rep.fate <;> simp [hFate, Fate.isWritten, Fate.isReused, Fate.isSkipped] at hDone ⊢
    obtain ⟨row, hRow, hTalker, hFile⟩ := hBooks.filed rep hRep hKept
    refine ⟨?_, row, filter_isRowOf hApart hRow hTalker, hFile⟩
    obtain ⟨bytes, hBytes, hComplete⟩ := standing_sessions hRecorded hTalkers hHonest hRep hDone
    refine ⟨bytes, ?_, hComplete⟩
    rw [← hBytes, ← nameKey_join H opts (portable_fileName hStem opts.format)]
    exact run_after (hLog ▸ hRep) (key_file_ne_indexPart H hStem opts.format)
      (key_file_ne_index H hStem hName opts.format)
  · rw [hLog]
    exact fun rep hRep hMem => reused_stood hSound hTalkers hRep
      ((outcome_fates hSound hTalkers hOk hRep).2.1.mp hMem)
  · rw [hTotal, hTally.total, hLog]
    exact sum_messages (hTally.counted hHonest)

/-- One session is refused over the file there, the other is written. -/
theorem run_accounts_later : ∃ out, ((run unixHost [⟨"b", "Team"⟩, ⟨"c", "Other"⟩]
      (plainOptions .jsonl false) (.calm fun _ => oneRow "hi")).result teamDisk).1 = .ok out ∧
    ((run unixHost [⟨"b", "Team"⟩, ⟨"c", "Other"⟩] (plainOptions .jsonl false)
      (.calm fun _ => oneRow "hi")).result teamDisk).2.map (·.fate) = [.refused, .written 1] ∧
    (Accounted unixHost [⟨"b", "Team"⟩, ⟨"c", "Other"⟩] (plainOptions .jsonl false)
        (.calm fun _ => oneRow "hi") teamDisk out ↔
      ¬ Overtaken unixHost [⟨"b", "Team"⟩, ⟨"c", "Other"⟩] (plainOptions .jsonl false)
        (.calm fun _ => oneRow "hi") teamDisk) := by
  have hResult : (laterCall [⟨"b", "Team"⟩, ⟨"c", "Other"⟩]).1.toBool = true ∧
      (laterCall [⟨"b", "Team"⟩, ⟨"c", "Other"⟩]).2.map (·.fate) = [.refused, .written 1] := by
    rw [laterCall_eq]
    decide +kernel
  obtain ⟨out, hOk⟩ := exists_ok hResult.1
  exact ⟨out, hOk, hResult.2, run_accounts teamDisk_reached (by decide) (honest_oneRow "hi") hOk⟩

theorem overtaken_owner : ∃ d out, Reached unixHost (plainOptions .jsonl false).outDir True d ∧
    ((run unixHost [⟨"b", "Team"⟩, ⟨"a", "Other"⟩] (plainOptions .jsonl false)
      (.calm fun _ => oneRow "hi")).result d).1 = .ok out ∧
    ¬ Accounted unixHost [⟨"b", "Team"⟩, ⟨"a", "Other"⟩] (plainOptions .jsonl false)
      (.calm fun _ => oneRow "hi") d out := by
  obtain ⟨out, hOk⟩ : ∃ out, ((run unixHost [⟨"b", "Team"⟩, ⟨"a", "Other"⟩]
      (plainOptions .jsonl false) (.calm fun _ => oneRow "hi")).result teamDisk).1 = .ok out := by
    refine exists_ok ?_
    rw [← laterCall, laterCall_eq]
    decide +kernel
  refine ⟨teamDisk, out, teamDisk_reached, hOk, fun h => ?_⟩
  have hTwice : ¬ ((lastRound unixHost [⟨"b", "Team"⟩, ⟨"a", "Other"⟩]
      (plainOptions .jsonl false) (.calm fun _ => oneRow "hi") teamDisk).indexRows.map
        talkerOf).Nodup := by
    rw [lastRound, previousIndex_teamDisk]
    decide +kernel
  exact hTwice h.talkers

end Accounts

end Weflow.Export
