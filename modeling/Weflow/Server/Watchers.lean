import Mathlib.Logic.Function.Basic
import Weflow.Server.Retired

/-!
# The watcher of a retired account

When the build is done, `start_account` spawns the watch task, asks for the flag `stopped` a second
time, and stores the task in the slot of the account. A retirement sets the flag, takes what is in
the slot and aborts it. The second question is there for a retirement that found the slot still
empty, but one that comes between the question and the store finds it empty as well.

`Tend` is where a thread stands with the watcher of one account, and `Custody` says that every
watcher that runs is in the slot or in the hands of a thread. `orphan_watcher` is the retirement
that came in between.
-/

namespace Weflow.Accounts

open Threads

/-! ## In whose hands a watcher is -/

/-- Where a thread stands with the watcher of an account. -/
inductive Tend
  | away
  /-- it builds the account and has spawned nothing -/
  | building
  /-- it has spawned the task -/
  | spawned (task : Nat)
  /-- it found the flag not set -/
  | storing (task : Nat)
  /-- it will abort the task -/
  | aborting (task : Nat)
  /-- it has set the flag -/
  | stopping
deriving DecidableEq

namespace Tend

@[simp] def builds : Tend → Prop
  | building => True
  | spawned _ => True
  | storing _ => True
  | _ => False

@[simp] def holds (task : Nat) : Tend → Prop
  | spawned k => k = task
  | storing k => k = task
  | aborting k => k = task
  | _ => False

/-- A thread may return. -/
@[simp] def ends : Tend → Prop
  | away => True
  | building => True
  | _ => False

end Tend

/-- The watchers of one account: who builds it and who stopped it, the flag, the slot, the watchers
that run, and where each thread stands. -/
structure Custody (built stopped : Nat → Prop) (flag : Prop) (slot : Option Nat)
    (live : Nat → Prop) (tend : Nat → Tend) : Prop where
  one : ∀ i j, built i → built j → i = j
  builds : ∀ j, (tend j).builds → built j
  aborting : ∀ j k, tend j = .aborting k → built j ∨ stopped j
  stopping : ∀ j, tend j = .stopping → stopped j
  flagged : ∀ j, stopped j → flag
  empty : slot ≠ none → (∃ j, built j) ∧ ∀ j, ¬ (tend j).builds
  /-- whoever took the slot left it empty, and nobody is about to store anything -/
  sealed : ∀ j, stopped j → tend j ≠ .stopping → slot = none ∧ ∀ i k, tend i ≠ .storing k
  held : ∀ k, live k → slot = some k ∨ ∃ j, (tend j).holds k

namespace Custody

variable {built built' stopped stopped' : Nat → Prop} {flag flag' : Prop} {slot : Option Nat}
  {live live' : Nat → Prop} {tend : Nat → Tend} {i k : Nat}

/-- Once a retirement and the build have ended, no watcher runs. -/
theorem not_live (h : Custody built stopped flag slot live tend) (hStopped : stopped i)
    (hEnds : ∀ j, built j ∨ stopped j → (tend j).ends) : ¬ live k := by
  intro hLive
  have hTaken : tend i ≠ .stopping := by
    intro hStopping
    have := hEnds i (.inr hStopped)
    rw [hStopping] at this
    exact this
  rcases h.held k hLive with hSlot | ⟨j, hHolds⟩
  · rw [(h.sealed i hStopped hTaken).1] at hSlot
    cases hSlot
  · cases hTend : tend j with
    | spawned task =>
      have := hEnds j (.inl (h.builds j (by rw [hTend]; trivial)))
      rw [hTend] at this
      exact this
    | storing task =>
      have := hEnds j (.inl (h.builds j (by rw [hTend]; trivial)))
      rw [hTend] at this
      exact this
    | aborting task =>
      have := hEnds j (h.aborting j task hTend)
      rw [hTend] at this
      exact this
    | _ =>
      rw [hTend] at hHolds
      exact hHolds

/-- A watcher stays in somebody's hands when a thread moves on, if what was in the slot and what the
thread held is in the slot or in its hands. -/
theorem held_update {slot' : Option Nat} {q : Tend}
    (hHeld : ∀ k, live k → slot = some k ∨ ∃ j, (tend j).holds k)
    (hMove : ∀ k, live' k → (live k ∨ q.holds k) ∧
      (slot = some k ∨ (tend i).holds k → slot' = some k ∨ q.holds k)) :
    ∀ k, live' k → slot' = some k ∨ ∃ j, (Function.update tend i q j).holds k := by
  intro k hk
  obtain ⟨hLive, hKeep⟩ := hMove k hk
  have hOwn : q.holds k → ∃ j, (Function.update tend i q j).holds k := by
    intro hq
    exact ⟨i, by rwa [Function.update_self]⟩
  rcases hLive with hLive | hq
  · rcases hHeld k hLive with hSlot | ⟨j, hj⟩
    · exact (hKeep (.inl hSlot)).imp_right hOwn
    · by_cases hEq : j = i
      · subst hEq
        exact (hKeep (.inr hj)).imp_right hOwn
      · exact .inr ⟨j, by rwa [Function.update_of_ne hEq]⟩
  · exact .inr (hOwn hq)

/-- Watchers end, and the flag is set. -/
theorem mono (h : Custody built stopped flag slot live tend) (hFlag : flag → flag')
    (hLive : ∀ k, live' k → live k) : Custody built stopped flag' slot live' tend :=
  { h with
    flagged := fun j hj => hFlag (h.flagged j hj)
    held := fun k hk => h.held k (hLive k hk) }

/-- The build task of the account is started, by a new thread. -/
theorem start (h : Custody built stopped flag slot live tend) (hNone : ∀ j, ¬ built j)
    (hAway : tend i = .away) (hBuilt : ∀ j, built' j ↔ built j ∨ j = i) :
    Custody built' stopped flag slot live (Function.update tend i .building) := by
  have hSlot : slot = none := by
    by_contra hSome
    obtain ⟨⟨j, hj⟩, -⟩ := h.empty hSome
    exact hNone j hj
  obtain ⟨hOne, hBuilds, hAborting, hStopping, hFlagged, hEmpty, hSealed, hHeld⟩ := h
  constructor
  case held => exact held_update hHeld (by grind [Tend.holds])
  all_goals grind [Function.update_apply, Tend.builds]

theorem spawn (h : Custody built stopped flag slot live tend) (hTend : tend i = .building)
    (hLive : ∀ j, live' j → live j ∨ j = k) :
    Custody built stopped flag slot live' (Function.update tend i (.spawned k)) := by
  obtain ⟨hOne, hBuilds, hAborting, hStopping, hFlagged, hEmpty, hSealed, hHeld⟩ := h
  constructor
  case held => exact held_update hHeld (by grind [Tend.holds])
  all_goals grind [Function.update_apply, Tend.builds]

/-- The flag is set: nobody has to store the task. -/
theorem giveUp (h : Custody built stopped flag slot live tend) (hTend : tend i = .spawned k) :
    Custody built stopped flag slot live (Function.update tend i (.aborting k)) := by
  obtain ⟨hOne, hBuilds, hAborting, hStopping, hFlagged, hEmpty, hSealed, hHeld⟩ := h
  constructor
  case held => exact held_update hHeld (by grind [Tend.holds])
  all_goals grind [Function.update_apply, Tend.builds]

/-- The flag is not set, so no retirement has taken the slot. -/
theorem goOn (h : Custody built stopped flag slot live tend) (hTend : tend i = .spawned k)
    (hFlag : ¬ flag) :
    Custody built stopped flag slot live (Function.update tend i (.storing k)) := by
  obtain ⟨hOne, hBuilds, hAborting, hStopping, hFlagged, hEmpty, hSealed, hHeld⟩ := h
  constructor
  case held => exact held_update hHeld (by grind [Tend.holds])
  all_goals grind [Function.update_apply, Tend.builds]

theorem store (h : Custody built stopped flag slot live tend) (hTend : tend i = .storing k) :
    Custody built stopped flag (some k) live (Function.update tend i .away) := by
  have hSlot : slot = none := by
    by_contra hSome
    exact (h.empty hSome).2 i (by rw [hTend]; trivial)
  obtain ⟨hOne, hBuilds, hAborting, hStopping, hFlagged, hEmpty, hSealed, hHeld⟩ := h
  constructor
  case held => exact held_update hHeld (by grind [Tend.holds])
  all_goals grind [Function.update_apply, Tend.builds]

theorem abort (h : Custody built stopped flag slot live tend) (hTend : tend i = .aborting k)
    (hLive : ∀ j, live' j → live j ∧ j ≠ k) :
    Custody built stopped flag slot live' (Function.update tend i .away) := by
  obtain ⟨hOne, hBuilds, hAborting, hStopping, hFlagged, hEmpty, hSealed, hHeld⟩ := h
  constructor
  case held => exact held_update hHeld (by grind [Tend.holds])
  all_goals grind [Function.update_apply, Tend.builds]

theorem stop (h : Custody built stopped flag slot live tend) (hTend : tend i = .away)
    (hFlag : flag') (hStopped : ∀ j, stopped' j ↔ stopped j ∨ j = i) :
    Custody built stopped' flag' slot live (Function.update tend i .stopping) := by
  obtain ⟨hOne, hBuilds, hAborting, hStopping, hFlagged, hEmpty, hSealed, hHeld⟩ := h
  constructor
  case held => exact held_update hHeld (by grind [Tend.holds])
  all_goals grind [Function.update_apply, Tend.builds]

/-- The slot is taken, at a moment at which nobody is about to fill it. -/
theorem take (h : Custody built stopped flag slot live tend) (hTend : tend i = .stopping)
    (hNone : ∀ j k, tend j ≠ .storing k) :
    Custody built stopped flag none live
      (Function.update tend i (slot.elim .away fun k => .aborting k)) := by
  obtain ⟨hOne, hBuilds, hAborting, hStopping, hFlagged, hEmpty, hSealed, hHeld⟩ := h
  cases slot with
  | none =>
    constructor
    case held => exact held_update hHeld (by grind [Tend.holds])
    all_goals grind [Function.update_apply, Tend.builds, Option.elim]
  | some k =>
    constructor
    case held => exact held_update hHeld (by grind [Tend.holds])
    all_goals grind [Function.update_apply, Tend.builds, Option.elim]

end Custody

/-! ## The protocol of the slot -/

/-- What a thread may do with the watcher of account `h`. -/
@[simp] def Tend.allow (h : Nat) : Tend → Instr → Prop
  | .spawned _, ins => ins = .handle h .isStopped
  | .storing task, ins => ins = .handle h (.setWatcher task)
  | .aborting task, ins => ins = .abort task
  | .stopping, ins => ins = .handle h .takeWatcher
  | .building, .handle k .stop => k ≠ h
  | .away, .spawnWatcher k => k ≠ h
  | _, .handle k (.setWatcher _) => k ≠ h
  | _, .handle k .takeWatcher => k ≠ h
  | _, _ => True

@[simp] def Tend.next (h : Nat) : Tend → (ins : Instr) → ins.Ans → Option Tend
  | .away, .handle k .stop, _ => some (if k = h then .stopping else .away)
  | .building, .spawnWatcher k, task => some (if k = h then .spawned task else .building)
  | .spawned task, .handle _ .isStopped, stopped =>
    some (if stopped then .aborting task else .storing task)
  | .stopping, .handle _ .takeWatcher, task => some (task.elim .away fun task => .aborting task)
  | .storing _, _, _ => some .away
  | .aborting _, _, _ => some .away
  | q, _, _ => some q

theorem Tend.next_away {h : Nat} {ins : Instr} {a : ins.Ans} (hStop : ins ≠ .handle h .stop) :
    Tend.next h .away ins a = some .away := by
  cases ins with
  | handle k op =>
    cases op with
    | stop => rw [Tend.next, if_neg (by rintro rfl; exact hStop rfl)]
    | _ => rfl
  | _ => rfl

theorem Tend.next_building {h : Nat} {ins : Instr} {a : ins.Ans}
    (hSpawn : ins ≠ .spawnWatcher h) : Tend.next h .building ins a = some .building := by
  cases ins with
  | spawnWatcher k => rw [Tend.next, if_neg (by rintro rfl; exact hSpawn rfl)]
  | _ => rfl

/-- Every answer is expected. -/
theorem Tend.exists_next (h : Nat) (q : Tend) (ins : Instr) (a : ins.Ans) :
    ∃ q', Tend.next h q ins a = some q' := by
  unfold Tend.next
  split <;> exact ⟨_, rfl⟩

@[reducible] def tending (h : Nat) : Typestate Instr Instr.Ans := ⟨Tend, Tend.allow h, Tend.next h⟩

/-- The instruction concerns no watcher. -/
@[simp] def Instr.plain : Instr → Prop
  | .handle _ .stop => False
  | .handle _ (.setWatcher _) => False
  | .handle _ .takeWatcher => False
  | .spawnWatcher _ => False
  | .abort _ => False
  | _ => True

section

variable {h : Nat}

theorem fullSync_plain (k : Nat) : (fullSync k).Only Instr.plain := by
  simp [fullSync, Option.forall]

theorem publishWatermarkBaseline_plain (k : Nat) :
    (publishWatermarkBaseline k).Only Instr.plain := by
  simp [publishWatermarkBaseline, Prog.call]

theorem publishAll_plain (k : Nat) (events : List Event) :
    (publishAll k events).Only Instr.plain := by
  induction events with
  | nil => trivial
  | cons ev evs ih => exact ⟨trivial, fun _ => ih⟩

theorem reloadSections_plain (x : Codec) (k : Nat) (todo : List Sync.Work) :
    (reloadSections x k todo).Only Instr.plain := by
  induction todo with
  | nil => trivial
  | cons w todo ih => cases w <;> simp [reloadSections, Option.forall, ih]

theorem pollOnce_plain (x : Codec) (k : Nat) : (pollOnce x k).Only Instr.plain := by
  simp only [pollOnce, Prog.call_bind, Prog.only_step, Instr.plain, true_and, Bool.forall_bool,
    if_true, Bool.false_eq_true, if_false, forall_const]
  refine ⟨?_, by simp⟩
  rintro (_ | p)
  · simp
  · simp only [Prog.only_step, Instr.plain, true_and, Bool.forall_bool, if_true, Bool.false_eq_true,
      if_false, forall_const]
    refine ⟨fun events => ?_, by simp⟩
    refine Prog.only_bind (publishAll_plain k events) fun _ => ⟨trivial, fun _ => ?_⟩
    refine Prog.only_bind (reloadSections_plain x k p.work) fun finished => ?_
    cases finished <;> simp

theorem currentWatermarks_plain : currentWatermarks.Only Instr.plain := by
  have hCollect : ∀ hs, (collectWatermarks hs).Only Instr.plain := by
    intro hs
    induction hs with
    | nil => trivial
    | cons k hs ih =>
      rw [collectWatermarks, Prog.call_bind]
      exact ⟨trivial, fun wms => Prog.only_bind ih fun _ => trivial⟩
  simp only [currentWatermarks, Prog.call_bind, Prog.only_step, Instr.plain, true_and, forall_const]
  exact fun hs => Prog.only_bind (hCollect hs) fun _ => trivial

theorem dropAccount_plain (k : Nat) (previous : AccountStatus) (purgeMedia : Bool) :
    (dropAccount k previous purgeMedia).Only Instr.plain := by
  simp only [dropAccount, Prog.call_bind, Prog.only_step, Instr.plain, true_and, forall_const]
  rintro ⟨talkers, indexCleared⟩
  refine Prog.only_bind currentWatermarks_plain ?_
  rintro ⟨wms, hs⟩
  cases purgeMedia <;> simp

/-- Whoever has nothing to do with a watcher stays where it stands. -/
theorem tends_of_plain {R : Type} {p : Prog Instr Instr.Ans R} {q : Tend} (hEnds : q.ends)
    (hOnly : p.Only Instr.plain) : Obeys (tending h) q p fun q' _ => q' = q := by
  refine .of_only hOnly fun ins hPlain => ?_
  cases q with
  | away =>
    cases ins with
    | handle k op => cases op <;> simp at hPlain ⊢
    | _ => simp at hPlain ⊢
  | building =>
    cases ins with
    | handle k op => cases op <;> simp at hPlain ⊢
    | _ => simp at hPlain ⊢
  | _ => cases hEnds

theorem buildTask_tends (k : Nat) :
    Obeys (tending h) (if k = h then .building else .away) (buildTask k) fun q _ => q.ends := by
  by_cases hEq : k = h
  · subst hEq
    rw [if_pos rfl]
    refine obeys_bind.mpr ((tends_of_plain (q := .building) trivial (fullSync_plain k)).mono ?_)
    rintro _ (_ | _) rfl
    · simp [Obeys]
    · simp only [Prog.call_bind, obeys_step, Tend.allow, Tend.next, Option.some.injEq, forall_eq',
        forall_const, true_and, Bool.forall_bool, if_true, Bool.false_eq_true, if_false]
      refine ⟨?_, by simp⟩
      refine obeys_bind.mpr ((tends_of_plain (q := .building) trivial
        (publishWatermarkBaseline_plain k)).mono ?_)
      rintro _ - rfl
      simp [Obeys]
  · rw [if_neg hEq]
    refine obeys_bind.mpr ((tends_of_plain (q := .away) trivial (fullSync_plain k)).mono ?_)
    rintro _ (_ | _) rfl
    · simp [Obeys]
    · simp only [Prog.call_bind, obeys_step, Tend.allow, Tend.next, Option.some.injEq, forall_eq',
        forall_const, true_and, Bool.forall_bool, if_true, Bool.false_eq_true, if_false]
      refine ⟨?_, by simp⟩
      refine obeys_bind.mpr ((tends_of_plain (q := .away) trivial
        (publishWatermarkBaseline_plain k)).mono ?_)
      rintro _ - rfl
      simp [Obeys, hEq]

theorem registerAccount_tends (wxid : String) :
    Obeys (tending h) .away (registerAccount wxid) fun q _ => q.ends := by
  have hReplace : Obeys (tending h) .away (replaceAccount wxid) fun q _ => q.ends := by
    rw [replaceAccount, Prog.call_bind, obeys_step]
    refine ⟨trivial, ?_⟩
    rintro ⟨new, _ | old⟩ q hq
    · obtain rfl := Option.some.inj hq
      simp [Obeys]
    · obtain rfl := Option.some.inj hq
      by_cases hEq : old = h <;> simp [Obeys, Option.forall, hEq]
  simp only [registerAccount, Prog.call_bind, obeys_step, Tend.allow, Tend.next,
    Option.some.injEq, forall_eq', forall_const, true_and]
  rintro (_ | ⟨name, k⟩)
  · exact hReplace
  · simp only [obeys_step, Tend.allow, Tend.next, Option.some.injEq, forall_eq', true_and]
    intro st
    split
    · simp [Obeys]
    · split
      · simp [Obeys]
      · exact hReplace

theorem deregisterAccount_tends (wxid : String) (purgeMedia : Bool) :
    Obeys (tending h) .away (deregisterAccount wxid purgeMedia) fun q _ => q.ends := by
  have hDrop : ∀ k previous, Obeys (tending h) .away (dropAccount k previous purgeMedia)
      fun q _ => q.ends := by
    intro k previous
    refine (tends_of_plain (q := .away) trivial (dropAccount_plain k previous purgeMedia)).mono ?_
    rintro _ - rfl
    trivial
  simp only [deregisterAccount, Prog.call_bind, obeys_step, Tend.allow, Tend.next,
    Option.some.injEq, forall_eq', forall_const, true_and]
  rintro (_ | ⟨name, k⟩)
  · simp [Obeys]
  · by_cases hName : name = wxid
    · simp only [hName, ne_eq, not_true_eq_false, if_false, Tend.allow, Tend.next, obeys_step,
        Option.some.injEq, forall_eq', forall_const, true_and]
      intro previous
      by_cases hEq : k = h
      · subst hEq
        simp only [if_true, true_and]
        rintro (_ | task) q hq
        · obtain rfl := Option.some.inj hq
          exact hDrop k previous
        · obtain rfl := Option.some.inj hq
          refine ⟨rfl, fun _ q hq => ?_⟩
          obtain rfl := Option.some.inj hq
          exact hDrop k previous
      · rw [if_neg hEq]
        refine ⟨hEq, ?_⟩
        rintro (_ | task) q hq
        · obtain rfl := Option.some.inj hq
          exact hDrop k previous
        · obtain rfl := Option.some.inj hq
          refine ⟨trivial, fun _ q hq => ?_⟩
          obtain rfl := Option.some.inj hq
          exact hDrop k previous
    · simp [hName, Obeys]

/-- Where a thread that runs the task begins. -/
def Task.tend (h : Nat) : Task → Tend
  | .buildTask k => if k = h then .building else .away
  | _ => .away

theorem tend_code (x : Codec) (c : Task) :
    Obeys (tending h) (c.tend h) (c.code x) fun q _ => q.ends := by
  cases c with
  | registerAccount wxid => exact registerAccount_tends wxid
  | buildTask k => exact buildTask_tends k
  | pollOnce k =>
    refine (tends_of_plain (q := .away) trivial (pollOnce_plain x k)).mono ?_
    rintro _ - rfl
    trivial
  | deregisterAccount wxid purgeMedia => exact deregisterAccount_tends wxid purgeMedia
  | sseFrom since frames =>
    refine (sseFrom_keeps (Q := fun q => q = Tend.away) ?_ ?_ since frames rfl).mono ?_
    · rintro q ins rfl hStreams
      cases ins <;> simp [Instr.streams] at hStreams ⊢
    · rintro q rfl
      exact tends_of_plain trivial currentWatermarks_plain
    · rintro _ - rfl
      trivial

end

/-! ## What an instruction does to a watcher -/

/-- The task in the slot of the account. -/
def AppState.slot (s : AppState) (h : Nat) : Option Nat := (s.handles[h]?).bind fun a => a.watcher

/-- The task watches the account and was not aborted. -/
def AppState.Live (s : AppState) (h task : Nat) : Prop := s.watchers[task]? = some (h, false)

section

variable {i h : Nat} {io : Io} {ins : Instr} {s s' : AppState} {a : ins.Ans}

theorem slot_exec (hExec : exec i io ins s = some (s', a))
    (hTake : ins ≠ .handle h .takeWatcher) (hSet : ∀ task, ins ≠ .handle h (.setWatcher task)) :
    s'.slot h = s.slot h := by
  unfold AppState.slot
  cases hx : s.handles[h]? with
  | some y =>
    obtain ⟨y', hy', hOp⟩ := account_exec hExec hx
    rw [hy', Option.bind_some, Option.bind_some]
    rcases hOp with rfl | ⟨op, b, rfl, hOp⟩
    · rfl
    · cases op <;> simp only [HandleOp.exec, Option.ite_none_right_eq_some, Option.some.injEq,
        Prod.mk.injEq] at hOp <;> grind
  | none =>
    cases hx' : s'.handles[h]? with
    | none => rfl
    | some y' =>
      rcases exists_account hExec hx' with ⟨y, hy⟩ | ⟨wxid, -, rfl⟩
      · rw [hx] at hy
        cases hy
      · rfl

theorem live_exec {task : Nat} (hExec : exec i io ins s = some (s', a))
    (hSpawn : ins ≠ .spawnWatcher h) (hLive : s'.Live h task) : s.Live h task := by
  unfold AppState.Live at hLive ⊢
  cases ins with
  | handle k op =>
    obtain ⟨y, y', hy, hOp, rfl⟩ := exec_handle hExec
    exact hLive
  | spawnWatcher k =>
    simp only [exec, Option.some.injEq, Prod.mk.injEq] at hExec
    obtain ⟨rfl, -⟩ := hExec
    rcases lt_or_ge task s.watchers.length with hLt | hGe
    · rwa [List.getElem?_append_left hLt] at hLive
    · rw [List.getElem?_append_right hGe] at hLive
      have hEq := List.mem_singleton.mp (List.mem_of_getElem? hLive)
      exact absurd (congrArg Instr.spawnWatcher (Prod.mk.inj hEq).1.symm) hSpawn
  | abort k =>
    simp only [exec, Option.some.injEq, Prod.mk.injEq] at hExec
    obtain ⟨rfl, -⟩ := hExec
    grind
  | _ =>
    have hSame : s'.watchers = s.watchers := by grind [exec, AppState.publish]
    rwa [hSame] at hLive

/-- An account whose flag reads as not set is not stopped. -/
theorem not_stopped_of_isStopped {a : (Instr.handle h .isStopped).Ans}
    (hExec : exec i io (.handle h .isStopped) s = some (s', a)) (hAnswer : a = false) :
    ¬ s'.Stopped h := by
  rintro ⟨x, hx, hTrue⟩
  obtain ⟨y, y', hy, hOp, rfl⟩ := exec_handle hExec
  simp only [HandleOp.exec, Option.some.injEq, Prod.mk.injEq] at hOp
  obtain ⟨rfl, hRead⟩ := hOp
  rw [List.getElem?_set_self (List.getElem?_eq_some_iff.mp hy).1, Option.some.injEq] at hx
  rw [hx, hTrue, hAnswer] at hRead
  cases hRead

theorem slot_setWatcher {task : Nat} {a : (Instr.handle h (.setWatcher task)).Ans}
    (hExec : exec i io (.handle h (.setWatcher task)) s = some (s', a)) :
    s'.slot h = some task := by
  obtain ⟨y, y', hy, hOp, rfl⟩ := exec_handle hExec
  simp only [HandleOp.exec, Option.some.injEq, Prod.mk.injEq] at hOp
  obtain ⟨rfl, -⟩ := hOp
  rw [AppState.slot, List.getElem?_set_self (List.getElem?_eq_some_iff.mp hy).1]
  rfl

theorem slot_takeWatcher {a : (Instr.handle h .takeWatcher).Ans}
    (hExec : exec i io (.handle h .takeWatcher) s = some (s', a)) :
    s.slot h = a ∧ s'.slot h = none := by
  obtain ⟨y, y', hy, hOp, rfl⟩ := exec_handle hExec
  simp only [HandleOp.exec, Option.some.injEq, Prod.mk.injEq] at hOp
  obtain ⟨rfl, rfl⟩ := hOp
  rw [AppState.slot, AppState.slot, hy,
    List.getElem?_set_self (List.getElem?_eq_some_iff.mp hy).1]
  exact ⟨rfl, rfl⟩

/-- The new task is the last one. -/
theorem live_spawn {a : (Instr.spawnWatcher h).Ans}
    (hExec : exec i io (.spawnWatcher h) s = some (s', a)) {task : Nat} (hLive : s'.Live h task) :
    s.Live h task ∨ task = a := by
  simp only [exec, Option.some.injEq, Prod.mk.injEq] at hExec
  obtain ⟨rfl, rfl⟩ := hExec
  unfold AppState.Live at hLive ⊢
  grind

/-- An aborted task runs no longer. -/
theorem live_abort {task : Nat} {a : (Instr.abort task).Ans}
    (hExec : exec i io (.abort task) s = some (s', a)) {k : Nat} (hLive : s'.Live h k) :
    s.Live h k ∧ k ≠ task := by
  refine ⟨live_exec hExec (by simp) hLive, ?_⟩
  rintro rfl
  simp only [exec, Option.some.injEq, Prod.mk.injEq] at hExec
  obtain ⟨rfl, -⟩ := hExec
  unfold AppState.Live at hLive
  grind

section

variable {built stopped stopped' : Nat → Prop} {tend : Nat → Tend} {q' : Tend}

/-- Whoever asks nothing of the watcher leaves it where it is. -/
theorem custody_frame (hExec : exec i io ins s = some (s', a))
    (hTake : ins ≠ .handle h .takeWatcher) (hSet : ∀ task, ins ≠ .handle h (.setWatcher task))
    (hSpawn : ins ≠ .spawnWatcher h)
    (hCustody : Custody built stopped (s.Stopped h) (s.slot h) (s.Live h) tend) :
    Custody built stopped (s'.Stopped h) (s'.slot h) (s'.Live h) tend := by
  rw [slot_exec hExec hTake hSet]
  exact hCustody.mono (AppState.Stopped.exec hExec) fun k => live_exec hExec hSpawn

/-- A thread that has nothing to do with the watcher. It may set the flag. -/
theorem custody_away
    (hCustody : Custody built stopped (s.Stopped h) (s.slot h) (s.Live h) tend)
    (hTend : tend i = .away) (hAllow : Tend.allow h .away ins)
    (hNext : Tend.next h .away ins a = some q') (hExec : exec i io ins s = some (s', a))
    (hStopped : ∀ j, stopped' j ↔ stopped j ∨ ins = .handle h .stop ∧ j = i) :
    Custody built stopped' (s'.Stopped h) (s'.slot h) (s'.Live h) (Function.update tend i q') := by
  by_cases hStop : ins = .handle h .stop
  · subst hStop
    obtain rfl : Tend.stopping = q' := by simpa using hNext
    have hFrame := custody_frame hExec (by simp) (by simp) (by simp) hCustody
    refine hFrame.stop hTend (stopped_stop hExec) ?_
    intro j
    rw [hStopped j]
    simp
  · have hSame : stopped' = stopped := by
      funext j
      rw [eq_iff_iff, hStopped j]
      simp [hStop]
    obtain rfl : q' = .away := Option.some.inj (hNext.symm.trans (Tend.next_away hStop))
    rw [hSame, ← hTend, Function.update_eq_self]
    refine custody_frame hExec ?_ ?_ ?_ hCustody
    · rintro rfl
      exact hAllow rfl
    · rintro task rfl
      exact hAllow rfl
    · rintro rfl
      exact hAllow rfl

/-- A thread that builds the account. It may spawn the watcher. -/
theorem custody_building
    (hCustody : Custody built stopped (s.Stopped h) (s.slot h) (s.Live h) tend)
    (hTend : tend i = .building) (hAllow : Tend.allow h .building ins)
    (hNext : Tend.next h .building ins a = some q') (hExec : exec i io ins s = some (s', a)) :
    Custody built stopped (s'.Stopped h) (s'.slot h) (s'.Live h) (Function.update tend i q') := by
  by_cases hSpawn : ins = .spawnWatcher h
  · subst hSpawn
    obtain rfl : Tend.spawned a = q' := by simpa using hNext
    rw [slot_exec hExec (by simp) (by simp)]
    exact (hCustody.mono (AppState.Stopped.exec hExec) fun _ hk => hk).spawn hTend fun j hLive =>
      live_spawn hExec hLive
  · obtain rfl : q' = .building := Option.some.inj (hNext.symm.trans (Tend.next_building hSpawn))
    rw [← hTend, Function.update_eq_self]
    refine custody_frame hExec ?_ ?_ hSpawn hCustody
    · rintro rfl
      exact hAllow rfl
    · rintro task rfl
      exact hAllow rfl

/-- A step of a thread that keeps the protocol of account `h`. -/
theorem custody_exec
    (hCustody : Custody built stopped (s.Stopped h) (s.slot h) (s.Live h) tend)
    (hAllow : (tend i).allow h ins) (hNext : (tend i).next h ins a = some q')
    (hExec : exec i io ins s = some (s', a))
    (hStopped : ∀ j, stopped' j ↔ stopped j ∨ ins = .handle h .stop ∧ j = i)
    (hSettled : ins = .handle h .takeWatcher → ∀ j k, tend j ≠ .storing k) :
    Custody built stopped' (s'.Stopped h) (s'.slot h) (s'.Live h) (Function.update tend i q') := by
  have hFlag : s.Stopped h → s'.Stopped h := AppState.Stopped.exec hExec
  have hSame : ins ≠ .handle h .stop → stopped' = stopped := by
    intro hStop
    funext j
    rw [eq_iff_iff, hStopped j]
    simp [hStop]
  cases hTend : tend i with
  | away =>
    rw [hTend] at hAllow hNext
    exact custody_away hCustody hTend hAllow hNext hExec hStopped
  | building =>
    rw [hTend] at hAllow hNext
    rw [hSame (by rintro rfl; exact hAllow rfl)]
    exact custody_building hCustody hTend hAllow hNext hExec
  | spawned task =>
    rw [hTend] at hAllow hNext
    obtain rfl : ins = .handle h .isStopped := hAllow
    rw [hSame (by simp)]
    obtain rfl : (if a = true then Tend.aborting task else .storing task) = q' := by
      simpa using hNext
    have hCustody' := custody_frame hExec (by simp) (by simp) (by simp) hCustody
    cases hAnswer : a with
    | true => exact hCustody'.giveUp hTend
    | false => exact hCustody'.goOn hTend (not_stopped_of_isStopped hExec hAnswer)
  | storing task =>
    rw [hTend] at hAllow hNext
    obtain rfl : ins = .handle h (.setWatcher task) := hAllow
    obtain rfl : Tend.away = q' := by simpa using hNext
    rw [hSame (by simp), slot_setWatcher hExec]
    exact (hCustody.mono hFlag fun k => live_exec hExec (by simp)).store hTend
  | aborting task =>
    rw [hTend] at hAllow hNext
    obtain rfl : ins = .abort task := hAllow
    obtain rfl : Tend.away = q' := by simpa using hNext
    rw [hSame (by simp), slot_exec hExec (by simp) (by simp)]
    exact (hCustody.mono hFlag fun _ hk => hk).abort hTend fun j hLive => live_abort hExec hLive
  | stopping =>
    rw [hTend] at hAllow hNext
    obtain rfl : ins = .handle h .takeWatcher := hAllow
    obtain ⟨rfl, hEmpty⟩ := slot_takeWatcher hExec
    obtain rfl : (s.slot h).elim .away (fun task => .aborting task) = q' := by
      simpa using hNext
    rw [hSame (by simp), hEmpty]
    exact (hCustody.mono hFlag fun k => live_exec hExec (by simp)).take hTend (hSettled rfl)

end

/-! ## Runs -/

/-- The server, with the build tasks that were started and who set which flag. -/
structure Launched where
  server : Server
  builds : List (Nat × Nat) := []
  stops : List (Nat × Nat) := []

/-- The account whose flag the next instruction sets. -/
def stopsNext : Code Outcome → Option Nat
  | .step (.handle h .stop) _ => some h
  | _ => none

/-- `start_account` starts one build task for the account it bound. -/
def launch (x : Codec) (l : Launched) : Op → Option Launched
  | .start (.buildTask h) =>
    if l.builds.any fun b => b.2 = h then none
    else (step x l.server (.start (.buildTask h))).map fun s =>
      { l with server := s, builds := l.builds ++ [(l.server.threads.length, h)] }
  | .start c => (step x l.server (.start c)).map fun s => { l with server := s }
  | .tick i io => (step x l.server (.tick i io)).map fun s =>
    let stop := (l.server.threads[i]?.bind stopsNext).map fun h => (i, h)
    { l with server := s, stops := l.stops ++ stop.toList }

/-- No slot is taken while a build task is about to fill it. -/
def TakesSettled (l : Launched) : Op → Prop
  | .tick i _ => ∀ h k, l.server.threads[i]? = some (.step (.handle h .takeWatcher) k) →
      ∀ (j task : Nat) k', l.server.threads[j]? ≠ some (.step (.handle h (.setWatcher task)) k')
  | _ => True

/-- Each thread keeps the protocol of the account, and each of its watchers has a keeper. -/
def Guarded (h : Nat) (l : Launched) : Prop :=
  ∃ tend : Nat → Tend,
    (∀ j p, l.server.threads[j]? = some p → Obeys (tending h) (tend j) p fun q _ => q.ends) ∧
    (∀ j, l.server.threads.length ≤ j → tend j = .away) ∧
    Custody (fun j => (j, h) ∈ l.builds) (fun j => (j, h) ∈ l.stops)
      (l.server.shared.Stopped h) (l.server.shared.slot h) (l.server.shared.Live h) tend

theorem guarded_fresh (h : Nat) : Guarded h { server := fresh } := by
  refine ⟨fun _ => .away, fun j p hp => absurd hp (fresh_threads j p), fun _ _ => rfl, ?_⟩
  constructor
  case empty => exact fun hSlot => absurd rfl hSlot
  case held =>
    intro k hk
    cases hk
  all_goals simp

theorem guarded_start {x : Codec} {l : Launched} {c : Task} {builds : List (Nat × Nat)}
    (hGuarded : Guarded h l)
    (hBuilds : ∀ j, (j, h) ∈ builds ↔
      (j, h) ∈ l.builds ∨ c = .buildTask h ∧ j = l.server.threads.length)
    (hOne : c = .buildTask h → ∀ j, (j, h) ∉ l.builds) :
    Guarded h { l with
      server := { l.server with threads := l.server.threads ++ [c.code x] }, builds } := by
  obtain ⟨tend, hObeys, hFresh, hCustody⟩ := hGuarded
  refine ⟨Function.update tend l.server.threads.length (c.tend h), ?_, ?_, ?_⟩
  · intro j p hp
    rcases lt_trichotomy j l.server.threads.length with hLt | rfl | hGt
    · rw [Function.update_of_ne (Nat.ne_of_lt hLt)]
      exact hObeys j p (by rwa [List.getElem?_append_left hLt] at hp)
    · rw [Function.update_self]
      have hEq : c.code x = p := by simpa using hp
      rw [← hEq]
      exact tend_code x c
    · have hLt := (List.getElem?_eq_some_iff.mp hp).1
      rw [List.length_append, List.length_singleton] at hLt
      omega
  · intro j hj
    rw [List.length_append, List.length_singleton] at hj
    rw [Function.update_of_ne (by omega)]
    exact hFresh j (by omega)
  · by_cases hBuild : c = .buildTask h
    · have hTend : c.tend h = .building := by simp [hBuild, Task.tend]
      rw [hTend]
      refine hCustody.start (hOne hBuild) (hFresh _ le_rfl) fun j => ?_
      rw [hBuilds j]
      simp [hBuild]
    · have hTend : c.tend h = .away := by
        cases c with
        | buildTask k => exact if_neg fun hEq => hBuild (congrArg Task.buildTask hEq)
        | _ => rfl
      have hSame : (fun j => (j, h) ∈ builds) = fun j => (j, h) ∈ l.builds := by
        funext j
        rw [eq_iff_iff, hBuilds j]
        simp [hBuild]
      rw [hTend, ← hFresh _ le_rfl, Function.update_eq_self]
      dsimp only
      rw [hSame]
      exact hCustody

theorem guarded_tick {x : Codec} {l : Launched} {i : Nat} {io : Io} {t : Server}
    (hGuarded : Guarded h l) (hSettled : TakesSettled l (.tick i io))
    (hStep : step x l.server (.tick i io) = some t) :
    Guarded h { l with
      server := t
      stops := l.stops ++
        ((l.server.threads[i]?.bind stopsNext).map fun h => (i, h)).toList } := by
  obtain ⟨tend, hObeys, hFresh, hCustody⟩ := hGuarded
  obtain ⟨ins, k, s', a, hGet, hExec, rfl⟩ := tick_cases hStep
  obtain ⟨hAllow, hObey⟩ := hObeys i _ hGet
  obtain ⟨q', hNext⟩ := Tend.exists_next h (tend i) ins a
  refine ⟨Function.update tend i q', ?_, ?_, ?_⟩
  · intro j p hp
    by_cases hEq : j = i
    · subst hEq
      rw [List.getElem?_set_self (List.getElem?_eq_some_iff.mp hGet).1] at hp
      obtain rfl := Option.some.inj hp
      rw [Function.update_self]
      exact hObey a q' hNext
    · rw [List.getElem?_set_ne (Ne.symm hEq)] at hp
      rw [Function.update_of_ne hEq]
      exact hObeys j p hp
  · intro j hj
    rw [List.length_set] at hj
    have hNe : j ≠ i := by
      rintro rfl
      exact absurd (List.getElem?_eq_some_iff.mp hGet).1 (Nat.not_lt.mpr hj)
    rw [Function.update_of_ne hNe]
    exact hFresh j hj
  · refine custody_exec hCustody hAllow hNext hExec (fun j => ?_) ?_
    · rw [List.mem_append, hGet, Option.bind_some]
      refine or_congr_right ?_
      rw [Option.mem_toList, Option.map_eq_some_iff]
      constructor
      · rintro ⟨k', hStop, hEq⟩
        obtain ⟨rfl, rfl⟩ := Prod.mk.inj hEq
        unfold stopsNext at hStop
        split at hStop
        · rename_i hProg
          obtain rfl := Option.some.inj hStop
          exact ⟨(Prog.step_inj hProg).1, rfl⟩
        · cases hStop
      · rintro ⟨rfl, rfl⟩
        exact ⟨h, rfl, rfl⟩
    · -- a thread that is about to fill the slot has nothing else to do
      rintro rfl j task hStoring
      have hNone := hSettled h k hGet j task
      cases hj : l.server.threads[j]? with
      | none =>
        rw [hFresh j (List.getElem?_eq_none_iff.mp hj)] at hStoring
        cases hStoring
      | some p =>
        have hTend := hObeys j p hj
        rw [hStoring] at hTend
        cases p with
        | ret r => exact hTend
        | step ins k' =>
          obtain rfl : ins = .handle h (.setWatcher task) := hTend.1
          exact hNone k' hj

theorem guarded_launch {x : Codec} {l l' : Launched} {op : Op} (hGuarded : Guarded h l)
    (hSettled : TakesSettled l op) (hStep : launch x l op = some l') : Guarded h l' := by
  cases op with
  | start c =>
    cases c with
    | buildTask k =>
      simp only [launch, Option.ite_none_left_eq_some, Option.map_eq_some_iff] at hStep
      obtain ⟨hNone, t, hStart, rfl⟩ := hStep
      obtain rfl := Option.some.inj hStart
      rw [Bool.not_eq_true, List.any_eq_false] at hNone
      refine guarded_start (c := .buildTask k) hGuarded (fun j => ?_) fun hEq j hj => ?_
      · rw [List.mem_append, List.mem_singleton, Prod.mk.injEq]
        constructor
        · rintro (hOld | ⟨rfl, rfl⟩)
          · exact .inl hOld
          · exact .inr ⟨rfl, rfl⟩
        · rintro (hOld | ⟨hEq, rfl⟩)
          · exact .inl hOld
          · exact .inr ⟨rfl, (Task.buildTask.inj hEq).symm⟩
      · have hOther := hNone _ hj
        rw [decide_eq_true_eq] at hOther
        exact hOther (Task.buildTask.inj hEq).symm
    | _ =>
      simp only [launch, Option.map_eq_some_iff] at hStep
      obtain ⟨t, hStart, rfl⟩ := hStep
      obtain rfl := Option.some.inj hStart
      exact guarded_start hGuarded (fun j => by simp) (by simp)
  | tick i io =>
    obtain ⟨t, hTick, rfl⟩ := Option.map_eq_some_iff.mp hStep
    exact guarded_tick hGuarded hSettled hTick

end

/-- In every run in which no slot is taken while a build task is about to fill it, the watchers of
an account are aborted once those who stopped it and its build task have returned. -/
theorem retired_watcher_aborted (x : Codec) {l : Launched}
    (hRun : Runs.Run (launch x) TakesSettled { server := fresh } l) {i h : Nat}
    (hStopped : (i, h) ∈ l.stops)
    (hEnded : ∀ j, (j, h) ∈ l.builds ∨ (j, h) ∈ l.stops →
      ∃ r, l.server.threads[j]? = some (.ret r)) :
    ∀ w ∈ l.server.shared.watchers, w.1 = h → w.2 = true := by
  obtain ⟨tend, hObeys, -, hCustody⟩ : Guarded h l :=
    hRun.invariant (guarded_fresh h) fun _ _ _ => guarded_launch
  have hEnds : ∀ j, (j, h) ∈ l.builds ∨ (j, h) ∈ l.stops → (tend j).ends := by
    intro j hj
    obtain ⟨r, hr⟩ := hEnded j hj
    exact hObeys j _ hr
  rintro ⟨k, aborted⟩ hw rfl
  obtain ⟨task, hTask⟩ := List.mem_iff_getElem?.mp hw
  by_contra hLive
  rw [Bool.not_eq_true] at hLive
  dsimp only at hLive
  subst hLive
  exact hCustody.not_live hStopped hEnds hTask

/-! ## A life, and an orphan -/

def takesSlot : Code Outcome → Bool
  | .step (.handle _ .takeWatcher) _ => true
  | _ => false

def fillsSlot : Code Outcome → Bool
  | .step (.handle _ (.setWatcher _)) _ => true
  | _ => false

/-- No slot is taken while any slot is about to be filled. -/
def settled (l : Launched) : Op → Bool
  | .tick i _ => !(l.server.threads[i]?.any takesSlot && l.server.threads.any fillsSlot)
  | _ => true

theorem takesSettled_of_settled (l : Launched) (op : Op) (h : settled l op = true) :
    TakesSettled l op := by
  cases op with
  | start c => trivial
  | tick i io =>
    intro h' k hTake j task k' hFill
    have hAny : l.server.threads.any fillsSlot = true :=
      List.any_eq_true.mpr ⟨_, List.mem_of_getElem? hFill, rfl⟩
    rw [settled, hTake, hAny] at h
    cases h

/-- The account is registered, built and deregistered. -/
def lifeLaunched : Launched :=
  (Runs.exec (launch (.blank "")) settled { server := fresh } lifeOps).getD { server := fresh }

theorem lifeLaunched_run :
    Runs.Run (launch (.blank "")) TakesSettled { server := fresh } lifeLaunched :=
  Runs.run_of_exec lifeOps takesSettled_of_settled rfl

theorem retired_watcher_aborted_life :
    lifeLaunched.server.shared.watchers.length = 1 ∧
      ∀ w ∈ lifeLaunched.server.shared.watchers, w.1 = 0 → w.2 = true := by
  refine ⟨rfl, retired_watcher_aborted (.blank "") lifeLaunched_run (i := 2) (h := 0)
    List.mem_cons_self ?_⟩
  rintro j (hj | hj)
  · obtain rfl : j = 1 := by simpa [show lifeLaunched.builds = [(1, 0)] from rfl] using hj
    exact ⟨_, rfl⟩
  · obtain rfl : j = 2 := by simpa [show lifeLaunched.stops = [(2, 0)] from rfl] using hj
    exact ⟨_, rfl⟩

/-- The build task finds the flag not set, the account is deregistered, and the watcher goes into
the slot. -/
def lateStoreOps : List Op :=
  .start (.registerAccount "a") :: List.replicate 4 (.tick 0 {}) ++
    .start (.buildTask 0) :: List.replicate 17 (.tick 1 { built := some lifeOps.oneMark }) ++
    .start (.deregisterAccount "a" false) :: List.replicate 16 (.tick 2 {}) ++ [.tick 1 {}]

def lateStored : Launched :=
  (Runs.exec (launch (.blank "")) (fun _ _ => true) { server := fresh } lateStoreOps).getD
    { server := fresh }

/-- Both have returned, and nobody has aborted the watcher. -/
theorem orphan_watcher : ¬ ∀ l,
    Runs.Run (launch (.blank "")) (fun _ _ => True) { server := fresh } l →
      ∀ i h, (i, h) ∈ l.stops →
        (∀ j, (j, h) ∈ l.builds ∨ (j, h) ∈ l.stops →
          ∃ r, l.server.threads[j]? = some (.ret r)) →
        ∀ w ∈ l.server.shared.watchers, w.1 = h → w.2 = true := by
  intro hAll
  have hExec : Runs.exec (launch (.blank "")) (fun _ _ => true) { server := fresh } lateStoreOps =
      some lateStored := rfl
  have hRun : Runs.Run (launch (.blank "")) (fun _ _ => True) { server := fresh } lateStored :=
    Runs.run_of_exec lateStoreOps (fun _ _ _ => trivial) hExec
  have hEnded : ∀ j, (j, 0) ∈ lateStored.builds ∨ (j, 0) ∈ lateStored.stops →
      ∃ r, lateStored.server.threads[j]? = some (.ret r) := by
    rintro j (hj | hj)
    · obtain rfl : j = 1 := by simpa [show lateStored.builds = [(1, 0)] from rfl] using hj
      exact ⟨_, rfl⟩
    · obtain rfl : j = 2 := by simpa [show lateStored.stops = [(2, 0)] from rfl] using hj
      exact ⟨_, rfl⟩
  have hAborted := hAll lateStored hRun 2 0 List.mem_cons_self hEnded (0, false)
    List.mem_cons_self rfl
  cases hAborted

end Weflow.Accounts
