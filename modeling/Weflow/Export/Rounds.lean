import Weflow.Export.Sessions

/-!
# What a run does target by target

`exportTarget_end` says once what a run can do with one target: refuse it, reuse it, or export
it, with the conditions the code checks before. `exportTargets_rule` is the rule for the loop.
`Named` is the invariant of the names: a stem is given twice only to one talker and only on a
resume, and never the name of the index.
-/

namespace Weflow.Export

open Effects
open Json (Value)

variable {K : Type} [DecidableEq K] (H : Host K)

/-! ## One target -/

section Target

variable (opts : Options) (previous recorded : Index) (env : SessionEnv) (target : SessionTarget)
  (r : Round) (d : Files.Disk K)

/-- The stem the target gets. -/
def stemIn : String := (stemFor H.lower previous target r.taken).1

/-- The round with the name of the target taken. -/
def Round.named : Round := { r with taken := (stemFor H.lower previous target r.taken).2 }

def pathIn : Paths.Path := opts.join H (fileName (stemIn H previous target r) opts.format)

/-- The target may be exported: on a first run nothing stands under its name, or something of its
own; on a resume what stands there cannot be reused. -/
def Admitted : Prop :=
  (opts.resume = false → d (H.key (pathIn H opts previous target r)) = none ∨
    recorded.owner (nameHere (pathIn H opts previous target r)) = some target.talker ∨
    (target.talker, pathIn H opts previous target r) ∈ r.roundFiles) ∧
  (opts.resume = true → (d (H.key (pathIn H opts previous target r))).isSome = true →
    reusable H opts previous target (stemIn H previous target r) (pathIn H opts previous target r) d
      = false)

/-- What a run can do with one target. -/
inductive TargetEnd : List (Option String × Files.Op Paths.Path) → Bool × Round → Prop
  | refused (hFirst : opts.resume = false)
      (hHere : (d (H.key (pathIn H opts previous target r))).isSome = true)
      (hOwner : recorded.owner (nameHere (pathIn H opts previous target r)) ≠ some target.talker)
      (hRound : (target.talker, pathIn H opts previous target r) ∉ r.roundFiles) :
      TargetEnd [] (false, (r.named H previous target).refuse target (stemIn H previous target r)
        (carried recorded (recorded.owner (nameHere (pathIn H opts previous target r)))
          r.indexRows))
  | reused (hResume : opts.resume = true)
      (hHere : (d (H.key (pathIn H opts previous target r))).isSome = true)
      (hReusable : reusable H opts previous target (stemIn H previous target r)
        (pathIn H opts previous target r) d = true) :
      TargetEnd [] (false, (r.named H previous target).reuse target (stemIn H previous target r)
        (pathIn H opts previous target r) (previous.row target.talker))
  | failed (e : Failure) (ops : List (Option String × Files.Op Paths.Path))
      (pages : List (List Row)) (hAdmitted : Admitted H opts previous recorded target r d)
      (hResult : (exportSession H target opts env (stemIn H previous target r)).result d =
        (.error e, pages))
      (hEnd : SessionEnd H target opts env (stemIn H previous target r) d ops pages (.error e)) :
      TargetEnd ops (e == .secretLeak, (r.named H previous target).fail target
        (stemIn H previous target r) e pages)
  | written (n : UInt64) (ops : List (Option String × Files.Op Paths.Path))
      (pages : List (List Row)) (hAdmitted : Admitted H opts previous recorded target r d)
      (hResult : (exportSession H target opts env (stemIn H previous target r)).result d =
        (.ok n, pages))
      (hEnd : SessionEnd H target opts env (stemIn H previous target r) d ops pages (.ok n)) :
      TargetEnd ops (false, (r.named H previous target).deliver target (stemIn H previous target r)
        (pathIn H opts previous target r) opts.withMedia n pages)

theorem exportTarget_end : TargetEnd H opts previous recorded env target r d
    ((exportTarget H opts previous recorded env target r).ops d)
    ((exportTarget H opts previous recorded env target r).result d) := by
  rw [exportTarget, Files.present, Act.ops_look_bind, Act.result_look_bind]
  dsimp only
  split_ifs with hRefused
  · rw [Act.ops_pure, Act.result_pure]
    simp only [Bool.and_eq_true, Bool.not_eq_true', beq_eq_false_iff_ne, ne_eq,
      List.contains_eq_mem, decide_eq_false_iff_not] at hRefused
    obtain ⟨⟨⟨hFirst, hHere⟩, hOwner⟩, hRound⟩ := hRefused
    exact .refused hFirst hHere hOwner hRound
  rw [Act.ops_look_bind, Act.result_look_bind]
  split_ifs with hReused
  · rw [Act.ops_pure, Act.result_pure]
    simp only [Bool.and_eq_true] at hReused
    exact .reused hReused.1.1 hReused.1.2 hReused.2
  have hAdmitted : Admitted H opts previous recorded target r d := by
    constructor
    · intro hFirst
      rw [hFirst] at hRefused
      simp only [Bool.not_false, Bool.true_and, Bool.and_eq_true, Bool.not_eq_true',
        beq_eq_false_iff_ne, ne_eq, List.contains_eq_mem, decide_eq_false_iff_not, not_and,
        not_not] at hRefused
      cases hHere : d (H.key (pathIn H opts previous target r)) with
      | none => exact .inl rfl
      | some e =>
        by_cases hOwner : recorded.owner (nameHere (pathIn H opts previous target r)) =
            some target.talker
        · exact .inr (.inl hOwner)
        · exact .inr (.inr (hRefused ⟨Option.isSome_of_mem hHere, hOwner⟩))
    · intro hResume hHere
      rw [← Bool.not_eq_true]
      intro hReusable
      exact hReused (by rw [hResume, Bool.true_and, Bool.and_eq_true]; exact ⟨hHere, hReusable⟩)
  have hEnd := exportSession_end H target opts env (stemIn H previous target r) d
  rw [Act.ops_bind, Act.result_bind]
  rw [stemIn] at hEnd
  cases hResult : ((exportSession H target opts env
      (stemFor H.lower previous target r.taken).1).result d).1 with
  | error e =>
    rw [hResult] at hEnd
    simp only [Act.ops_pure, Act.result_pure, List.append_nil]
    exact .failed e _ _ hAdmitted (Prod.ext hResult rfl) hEnd
  | ok n =>
    rw [hResult] at hEnd
    simp only [Act.ops_pure, Act.result_pure, List.append_nil]
    exact .written n _ _ hAdmitted (Prod.ext hResult rfl) hEnd

variable {H opts previous recorded env target r d}
  {ops : List (Option String × Files.Op Paths.Path)} {p : Bool × Round}

/-- Every target leaves one report. -/
theorem TargetEnd.reports (h : TargetEnd H opts previous recorded env target r d ops p) :
    ∃ fate pages, p.2.reports = r.reports ++ [⟨target, stemIn H previous target r, fate, pages⟩] ∧
      (p.1 = true ↔ fate = .failed .secretLeak) := by
  cases h with
  | refused => exact ⟨_, _, rfl, by simp⟩
  | reused => exact ⟨_, _, rfl, by simp⟩
  | failed e => exact ⟨.failed e, _, rfl, by simp⟩
  | written => exact ⟨_, _, rfl, by simp⟩

theorem TargetEnd.taken (h : TargetEnd H opts previous recorded env target r d ops p) :
    p.2.taken = (stemFor H.lower previous target r.taken).2 := by
  cases h with
  | refused => rfl
  | reused => rfl
  | failed => rfl
  | written => rfl

end Target

/-! ## All targets -/

section Targets

variable {opts : Options} {previous recorded : Index} {env : Nat → SessionEnv}
  {targets : List SessionTarget}

/-- A part of the loop has kept `I`, and `G` allows its calls by the reports it ends with. -/
structure LoopHolds (I : Round → Files.Disk K → Prop)
    (G : List Report → Files.Disk K → Option String × Files.Op Paths.Path → Prop) (r : Round)
    (d : Files.Disk K) (m : Io H (Bool × Round)) : Prop where
  grown : r.reports ⊆ (m.result d).2.reports
  allowed : Allowed (Files.effects _ H.key) (G (m.result d).2.reports) d (m.ops d)
  kept : I (m.result d).2 (m.after d)

/-- What holds from one target to the next holds of the loop, and so does what is allowed of its
calls. -/
theorem exportTargets_rule {I : Round → Files.Disk K → Prop}
    {G : List Report → Files.Disk K → Option String × Files.Op Paths.Path → Prop}
    (hGrow : ∀ log log' d o, log ⊆ log' → G log d o → G log' d o)
    (hStep : ∀ target r d ops p, targets[r.reports.length]? = some target → I r d →
      TargetEnd H opts previous recorded (env r.reports.length) target r d ops p →
      Allowed (Files.effects _ H.key) (G p.2.reports) d ops ∧
        I p.2 (replay (Files.effects _ H.key) d ops)) (i : Nat) (r : Round)
    (d : Files.Disk K) (hLength : r.reports.length = i) (hInit : I r d) :
    LoopHolds H I G r d (exportTargets H opts previous recorded env i (targets.drop i) r) := by
  induction hRest : targets.drop i generalizing i r d with
  | nil => exact ⟨fun _ h => h, trivial, hInit⟩
  | cons target rest ih =>
    have hTarget : targets[i]? = some target := by
      rw [← List.head?_drop, hRest, List.head?_cons]
    have hRest' : targets.drop (i + 1) = rest := by
      rw [← List.tail_drop, hRest, List.tail_cons]
    subst hLength
    have hEnd := exportTarget_end H opts previous recorded (env r.reports.length) target r d
    obtain ⟨hAllowed, hKept⟩ := hStep target r d _ _ hTarget hInit hEnd
    obtain ⟨fate, pages, hReports, -⟩ := hEnd.reports
    have hSub : r.reports ⊆ ((exportTarget H opts previous recorded (env r.reports.length)
        target r).result d).2.reports := by
      rw [hReports]
      exact List.subset_append_left _ _
    rw [exportTargets]
    cases hStop : ((exportTarget H opts previous recorded (env r.reports.length) target r).result
        d).1 with
    | true =>
      refine ⟨?_, ?_, ?_⟩
      · rw [Act.result_bind, hStop, if_pos rfl, Act.result_pure]
        exact hSub
      · rw [Act.result_bind, Act.ops_bind, hStop, if_pos rfl, Act.result_pure, Act.ops_pure,
          List.append_nil]
        exact hAllowed
      · rw [Act.result_bind, Act.after_bind, hStop, if_pos rfl, Act.result_pure, Act.after_pure]
        exact hKept
    | false =>
      have hNext := ih (r.reports.length + 1) _ _ (by rw [hReports]; simp) hKept hRest'
      refine ⟨?_, ?_, ?_⟩
      · rw [Act.result_bind, hStop, if_neg (by simp)]
        exact fun rep h => hNext.grown (hSub h)
      · rw [Act.result_bind, Act.ops_bind, hStop, if_neg (by simp)]
        refine allowed_append.mpr ⟨hAllowed.mono fun s o => ?_, hNext.allowed⟩
        exact hGrow _ _ s o hNext.grown
      · rw [Act.result_bind, Act.after_bind, hStop, if_neg (by simp)]
        exact hNext.kept

variable (opts previous recorded env) in
/-- The loop stops early after a secret only, and has reported every target otherwise. -/
theorem exportTargets_stop (i : Nat) (r : Round) (d : Files.Disk K)
    (hClean : ∀ rep ∈ r.reports, rep.fate ≠ .failed .secretLeak) (rest : List SessionTarget) :
    let p := (exportTargets H opts previous recorded env i rest r).result d
    (p.1 = true ∧ ∃ rep ∈ p.2.reports, rep.fate = .failed .secretLeak) ∨
    (p.1 = false ∧ (∀ rep ∈ p.2.reports, rep.fate ≠ .failed .secretLeak) ∧
      p.2.reports.map (·.target) = r.reports.map (·.target) ++ rest) := by
  intro p
  induction rest generalizing i r d with
  | nil => exact .inr ⟨rfl, hClean, (List.append_nil _).symm⟩
  | cons target rest ih =>
    obtain ⟨fate, pages, hReports, hStop⟩ :=
      (exportTarget_end H opts previous recorded (env i) target r d).reports
    have hResult : p = if ((exportTarget H opts previous recorded (env i) target r).result d).1
          = true then (exportTarget H opts previous recorded (env i) target r).result d
        else (exportTargets H opts previous recorded env (i + 1) rest
          ((exportTarget H opts previous recorded (env i) target r).result d).2).result
            ((exportTarget H opts previous recorded (env i) target r).after d) := by
      simp only [p]
      rw [exportTargets, Act.result_bind]
      split_ifs <;> rfl
    rw [hResult]
    split_ifs with hEnd
    · refine .inl ⟨hEnd, ⟨target, stemIn H previous target r, fate, pages⟩, ?_, hStop.mp hEnd⟩
      rw [hReports]
      exact List.mem_append_right _ List.mem_cons_self
    · have hClean' : ∀ rep ∈ ((exportTarget H opts previous recorded (env i) target r).result
          d).2.reports, rep.fate ≠ .failed .secretLeak := by
        intro rep hRep
        rw [hReports] at hRep
        rcases List.mem_append.mp hRep with hRep | hRep
        · exact hClean rep hRep
        · rw [List.mem_singleton.mp hRep]
          exact fun hFate => hEnd (hStop.mpr hFate)
      have hNext := ih (i + 1) _ ((exportTarget H opts previous recorded (env i) target r).after d)
        hClean'
      rw [hReports, List.map_append, List.append_assoc] at hNext
      exact hNext

end Targets

end Weflow.Export
