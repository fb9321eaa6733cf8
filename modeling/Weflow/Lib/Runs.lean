import Mathlib.Data.List.Basic
import Mathlib.Logic.Function.Iterate
import Mathlib.Order.WellFounded

/-!
# Runs of a labelled step function

A system is a step function `step : S → E → Option S`: `step s e = some t` when the
event `e` is enabled in `s` and leads to `t`. A run may carry a side condition `good`
on every event, read in the state *before* the event. The invariant rule needs one
step lemma only. A deterministic continuation is the iteration of a function, with a rule to
reach a goal by a measure (`exists_iterate`).
-/

namespace Runs

variable {S E : Type*} {step : S → E → Option S} {good good' : S → E → Prop}

/-- `t` is reached from `s` by enabled events, each meeting `good` in the state before it. -/
inductive Run (step : S → E → Option S) (good : S → E → Prop) (s : S) : S → Prop
  | refl : Run step good s s
  | tail {t u : S} (e : E) (prior : Run step good s t) (hGood : good t e)
      (hStep : step t e = some u) : Run step good s u

namespace Run

/-- A property that holds at the start and survives every good step holds along the run. -/
theorem invariant {P : S → Prop} {s t : S} (h : Run step good s t) (h0 : P s)
    (hP : ∀ t e u, P t → good t e → step t e = some u → P u) : P t := by
  induction h with
  | refl => exact h0
  | tail e _ hGood hStep ih => exact hP _ e _ ih hGood hStep

theorem single {s t : S} (e : E) (hGood : good s e) (hStep : step s e = some t) :
    Run step good s t :=
  .tail e .refl hGood hStep

theorem trans {s t u : S} (h : Run step good s t) (g : Run step good t u) :
    Run step good s u := by
  induction g with
  | refl => exact h
  | tail e _ hGood hStep ih => exact .tail e ih hGood hStep

theorem mono {s t : S} (h : Run step good s t) (hg : ∀ t e, good t e → good' t e) :
    Run step good' s t := by
  induction h with
  | refl => exact .refl
  | tail e _ hGood hStep ih => exact .tail e ih (hg _ e hGood) hStep

/-- The side condition may use an invariant of the run it guards. -/
theorem strengthen {P : S → Prop} {s t : S} (h : Run step good s t) (h0 : P s)
    (hP : ∀ t e u, P t → good t e → step t e = some u → P u) :
    Run step (fun t e => good t e ∧ P t) s t := by
  induction h with
  | refl => exact .refl
  | tail e prior hGood hStep ih => exact .tail e ih ⟨hGood, prior.invariant h0 hP⟩ hStep

end Run

/-- The state after a list of events, `none` as soon as one of them is not enabled or fails
the check. -/
def exec (step : S → E → Option S) (check : S → E → Bool) (s : S) : List E → Option S
  | [] => some s
  | e :: es => if check s e then (step s e).bind fun t => exec step check t es else none

/-- An executed list of events is a run, if the check is enough for `good`. -/
theorem run_of_exec {check : S → E → Bool} {s t : S} (es : List E)
    (hGood : ∀ s e, check s e = true → good s e) (h : exec step check s es = some t) :
    Run step good s t := by
  induction es generalizing s with
  | nil => cases h; exact .refl
  | cons e es ih =>
    unfold exec at h
    split at h
    · rename_i hCheck
      cases hs : step s e with
      | none => simp [hs] at h
      | some m =>
        rw [hs, Option.bind_some] at h
        exact (Run.single e (hGood s e hCheck) hs).trans (ih h)
    · cases h

theorem exec_append {check : S → E → Bool} (s : S) (es es' : List E) :
    exec step check s (es ++ es') = (exec step check s es).bind fun t => exec step check t es' := by
  induction es generalizing s with
  | nil => rfl
  | cons e es ih =>
    rw [List.cons_append, exec, exec]
    split
    · cases step s e with
      | none => rfl
      | some m => exact ih m
    · rfl

/-- Every state on the way of an executed list of events satisfies `P`, if the first one does and
the events keep it. -/
theorem exec_invariant {check : S → E → Bool} {s t : S} {es : List E} {P : List E → S → Prop}
    (h : exec step check s es = some t) (h0 : P [] s)
    (hP : ∀ done e rest m u, es = done ++ e :: rest → exec step check s done = some m → P done m →
      step m e = some u → P (done ++ [e]) u) : P es t := by
  suffices hAll : ∀ rest done m, es = done ++ rest → exec step check s done = some m → P done m →
      exec step check m rest = some t → P es t from hAll es [] s rfl rfl h0 h
  intro rest
  induction rest with
  | nil =>
    rintro done m rfl - hm hEnd
    obtain rfl := Option.some.inj hEnd
    rwa [List.append_nil]
  | cons e rest ih =>
    intro done m hEq hDone hm hRest
    rw [exec] at hRest
    split at hRest
    · rename_i hCheck
      obtain ⟨u, hu, hRest⟩ := Option.bind_eq_some_iff.mp hRest
      refine ih (done ++ [e]) u (by rw [hEq, List.append_assoc]; rfl) ?_ ?_ hRest
      · rw [exec_append, hDone, Option.bind_some, exec, if_pos hCheck, hu]
        rfl
      · exact hP done e rest m u hEq hDone hm hu
    · cases hRest

/-! ## Progress of a function -/

/-- If every step from a state with `P` that is not yet a goal keeps `P` and makes the measure
smaller, iterating reaches a goal. -/
theorem exists_iterate {W : Type*} [LT W] [WellFoundedLT W] {f : S → S} {P goal : S → Prop}
    (measure : S → W) (hStep : ∀ s, P s → ¬goal s → P (f s) ∧ measure (f s) < measure s)
    (s : S) (hs : P s) : ∃ n, P (f^[n] s) ∧ goal (f^[n] s) := by
  induction hm : measure s using WellFoundedLT.induction generalizing s with
  | ind m ih =>
    by_cases hGoal : goal s
    · exact ⟨0, hs, hGoal⟩
    · obtain ⟨hNext, hLess⟩ := hStep s hs hGoal
      obtain ⟨n, hn⟩ := ih _ (hm ▸ hLess) (f s) hNext rfl
      exact ⟨n + 1, hn⟩

/-- What a step keeps, further steps keep. -/
theorem iterate_le {f : S → S} {P : S → Prop} (hStep : ∀ s, P s → P (f s)) {s : S} {n m : Nat}
    (h : n ≤ m) (hn : P (f^[n] s)) : P (f^[m] s) := by
  obtain ⟨k, rfl⟩ := Nat.exists_eq_add_of_le' h
  rw [Function.iterate_add_apply]
  exact Function.Iterate.rec P hn hStep k

end Runs
