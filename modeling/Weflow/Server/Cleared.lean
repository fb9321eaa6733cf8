import Weflow.Server.Retired

/-!
# The store of a retired account

`deregister_account` sets the flag `stopped` and empties the store. Every program tests the flag
before it writes the store, but not every test is made under the lock of the write: `full_sync`
tests it before it takes the lock for the new index, and so do the reloads of `poll_once` and
its last step.

* `Spares h` says of a program that it will not write the store of account `h` any more once
  the flag is set. Every program does so at its start.
* `cleared_store_empty` holds if every running program does so at the moment a store is emptied.
* `late_build_resurrects` is the build that tested the flag just before.
-/

namespace Weflow.Accounts

open Threads

/-- The instruction leaves the store of account `h` alone. -/
@[simp] def Instr.leaves (h : Nat) : Instr → Prop
  | .handle h' op => h' = h → op.writes = false
  | _ => True

/-- An answer that can be given once account `h` is stopped. -/
@[simp] def Instr.expected (h : Nat) : (ins : Instr) → ins.Ans → Bool
  | .handle h' .isStopped, b => h' != h || b
  | _, _ => true

/-- The protocol of a program that does not write the store of account `h` once its flag is
set. -/
@[reducible] def sparing (h : Nat) : Typestate Instr Instr.Ans where
  State := Unit
  allow _ ins := ins.leaves h
  next _ ins a := if ins.expected h a then some () else none

/-- If the account is stopped, the program does not write its store any more. -/
def Spares {R : Type} (h : Nat) (p : Prog Instr Instr.Ans R) : Prop :=
  Obeys (sparing h) () p fun _ _ => True

section

variable {R T : Type} {h : Nat}

theorem spares_ret {r : R} : Spares h (.ret r) := trivial

theorem spares_step {ins : Instr} {k : ins.Ans → Prog Instr Instr.Ans R} :
    Spares h (.step ins k) ↔ ins.leaves h ∧ ∀ a, ins.expected h a = true → Spares h (k a) := by
  rw [Spares, obeys_step]
  refine and_congr Iff.rfl (forall_congr' fun a => ?_)
  constructor
  · exact fun hNext hExpected => hNext () (if_pos hExpected)
  · intro hSpares q' hNext
    change (if ins.expected h a = true then some () else none) = some q' at hNext
    split at hNext
    · exact hSpares (by assumption)
    · cases hNext

theorem spares_bind {p : Prog Instr Instr.Ans R} {f : R → Prog Instr Instr.Ans T}
    (hp : Spares h p) (hf : ∀ r, Spares h (f r)) : Spares h (p >>= f) :=
  obeys_bind.mpr (hp.mono fun _ r _ => hf r)

theorem fullSync_spares (k : Nat) : Spares h (fullSync k) := by
  by_cases hEq : k = h <;>
    simp [fullSync, spares_step, spares_ret, Instr.leaves, Instr.expected, hEq, HandleOp.writes,
      Option.forall]

theorem publishWatermarkBaseline_spares (k : Nat) : Spares h (publishWatermarkBaseline k) := by
  simp [publishWatermarkBaseline, spares_step, spares_ret, Instr.leaves, HandleOp.writes,
    Prog.call]

theorem buildTask_spares (k : Nat) : Spares h (buildTask k) := by
  refine spares_bind (fullSync_spares k) fun ok => ?_
  have hPublish : ∀ f : Unit → Code Outcome, (∀ r, Spares h (f r)) →
      Spares h (publishWatermarkBaseline k >>= f) :=
    fun f hf => spares_bind (publishWatermarkBaseline_spares k) hf
  cases ok with
  | true =>
    simp only [Prog.call_bind, spares_step, Instr.leaves, HandleOp.writes, implies_true, true_and,
      if_true, Bool.forall_bool, Bool.false_eq_true, if_false]
    refine ⟨fun _ _ _ => hPublish _ fun _ => ?_, fun _ => spares_ret⟩
    simp [spares_step, spares_ret, Instr.leaves, HandleOp.writes]
  | false => simp [spares_step, spares_ret, Instr.leaves, HandleOp.writes]

theorem publishAll_spares (k : Nat) (events : List Event) : Spares h (publishAll k events) := by
  induction events with
  | nil => exact spares_ret
  | cons ev evs ih => exact spares_step.mpr ⟨trivial, fun _ _ => ih⟩

theorem reloadSections_spares (x : Codec) (k : Nat) (todo : List Sync.Work) :
    Spares h (reloadSections x k todo) := by
  induction todo with
  | nil => exact spares_ret
  | cons w todo ih =>
    by_cases hEq : k = h <;> cases w <;>
      simp [reloadSections, spares_step, spares_ret, Instr.leaves, Instr.expected, hEq,
        HandleOp.writes, Option.forall] <;> simpa [hEq] using ih

theorem pollOnce_spares (x : Codec) (k : Nat) : Spares h (pollOnce x k) := by
  by_cases hEq : k = h
  · subst hEq
    simp [pollOnce, spares_step, spares_ret, Instr.leaves, Instr.expected, HandleOp.writes]
  · simp only [pollOnce, Prog.call_bind, spares_step, Instr.leaves, hEq, IsEmpty.forall_iff,
      true_and, Bool.forall_bool, if_true, Bool.false_eq_true, if_false]
    refine fun _ _ => ⟨fun _ => ?_, fun _ => by simp [spares_ret]⟩
    rintro (_ | p) -
    · simp [spares_step, spares_ret, Instr.leaves, hEq]
    · simp only [spares_step, Instr.leaves, hEq, IsEmpty.forall_iff, true_and, Bool.forall_bool,
        if_true, Bool.false_eq_true, if_false]
      refine fun _ _ => ⟨fun _ events _ => ?_, fun _ => by simp [spares_ret]⟩
      refine spares_bind (publishAll_spares k events) fun _ => ?_
      simp only [spares_step, Instr.leaves, hEq, IsEmpty.forall_iff, true_and]
      refine fun _ _ => spares_bind (reloadSections_spares x k p.work) fun finished => ?_
      cases finished <;> simp [spares_step, spares_ret, Instr.leaves, hEq]

theorem registerAccount_spares (wxid : String) : Spares h (registerAccount wxid) := by
  have hReplace : Spares h (replaceAccount wxid) := by
    rw [replaceAccount, Prog.call_bind, spares_step]
    refine ⟨trivial, ?_⟩
    rintro ⟨new, _ | old⟩ -
    · simp [spares_step, spares_ret, Instr.leaves]
    · simp [spares_step, spares_ret, Instr.leaves, HandleOp.writes, Option.forall]
  simp only [registerAccount, Prog.call_bind, spares_step, Instr.leaves, true_and]
  rintro - - (_ | ⟨name, k⟩) -
  · exact hReplace
  · simp only [spares_step, Instr.leaves, HandleOp.writes, implies_true, true_and]
    intro st _
    split
    · simp [spares_step, spares_ret, Instr.leaves]
    · split
      · simp [spares_step, spares_ret, Instr.leaves]
      · exact hReplace

theorem currentWatermarks_spares : Spares h currentWatermarks := by
  have hCollect : ∀ hs, Spares h (collectWatermarks hs) := by
    intro hs
    induction hs with
    | nil => exact spares_ret
    | cons k hs ih =>
      rw [collectWatermarks, Prog.call_bind, spares_step]
      exact ⟨trivial, fun wms _ => spares_bind ih fun _ => spares_ret⟩
  simp only [currentWatermarks, Prog.call_bind, spares_step, Instr.leaves, true_and]
  exact fun _ _ hs _ _ _ => spares_bind (hCollect hs) fun _ => spares_ret

/-- Whoever empties a store does not write it any more. -/
theorem dropAccount_spares (k : Nat) (previous : AccountStatus) (purgeMedia : Bool) :
    Spares h (dropAccount k previous purgeMedia) := by
  simp only [dropAccount, Prog.call_bind, spares_step, Instr.leaves, HandleOp.writes, implies_true,
    true_and]
  rintro - - ⟨talkers, indexCleared⟩ - - - - - - -
  refine spares_bind currentWatermarks_spares ?_
  rintro ⟨wms, hs⟩
  cases purgeMedia <;> simp [spares_step, spares_ret, Instr.leaves]

theorem deregisterAccount_spares (wxid : String) (purgeMedia : Bool) :
    Spares h (deregisterAccount wxid purgeMedia) := by
  simp only [deregisterAccount, Prog.call_bind, spares_step, Instr.leaves, true_and]
  rintro - - (_ | ⟨name, k⟩) -
  · simp [spares_step, spares_ret, Instr.leaves]
  · by_cases hName : name = wxid
    · simp only [hName, ne_eq, not_true_eq_false, if_false, spares_step, Instr.leaves,
        HandleOp.writes, implies_true, true_and]
      rintro - - - - previous - - - (_ | task) -
      · exact dropAccount_spares k previous purgeMedia
      · exact spares_step.mpr ⟨trivial, fun _ _ => dropAccount_spares k previous purgeMedia⟩
    · simp [hName, spares_step, spares_ret, Instr.leaves, HandleOp.writes]

theorem spares_code (x : Codec) (c : Task) : Spares h (c.code x) := by
  cases c with
  | registerAccount wxid => exact registerAccount_spares wxid
  | buildTask k => exact buildTask_spares k
  | pollOnce k => exact pollOnce_spares x k
  | deregisterAccount wxid purgeMedia => exact deregisterAccount_spares wxid purgeMedia
  | sseFrom since frames =>
    refine (sseFrom_keeps (Q := fun _ => True) (fun q ins _ hStreams => ?_)
      (fun q _ => currentWatermarks_spares) since frames trivial)
    cases ins <;> simp [Instr.streams, Instr.leaves] at hStreams ⊢

end

/-- The flag of a stopped account is answered as set. -/
theorem expected_exec {h i : Nat} {io : Io} {ins : Instr} {s s' : AppState} {a : ins.Ans}
    (hStopped : s.Stopped h) (hExec : exec i io ins s = some (s', a)) : ins.expected h a = true := by
  cases ins with
  | handle h' op =>
    cases op with
    | isStopped =>
      obtain ⟨y, y', hy, hOp, rfl⟩ := exec_handle hExec
      obtain ⟨x, hx, hTrue⟩ := hStopped
      simp only [HandleOp.exec, Option.some.injEq, Prod.mk.injEq] at hOp
      obtain ⟨-, rfl⟩ := hOp
      by_cases hEq : h' = h
      · subst hEq
        obtain rfl : x = y := Option.some.inj (hx.symm.trans hy)
        simp [Instr.expected, hTrue]
      · simp [Instr.expected, hEq]
    | _ => rfl
  | _ => rfl

/-- A store is emptied at a moment at which no program may still write it without asking for the
flag again. -/
def ClearsAlone (s : Server) : Op → Prop
  | .tick i _ => ∀ h purge k, s.threads[i]? = some (.step (.handle h (.clear purge)) k) →
      ∀ (j : Nat) p, s.threads[j]? = some p → Spares h p
  | _ => True

/-- In every run in which no task is between its last test of the flag and the write it guards
when a store is emptied, that store stays empty. -/
theorem cleared_store_empty (x : Codec) {t : Server} (hRun : Runs.Run (step x) ClearsAlone fresh t) :
    ∀ (h : Nat) (a : AccountHandle), t.shared.handles[h]? = some a → a.cleared = true →
      a.store = {} := by
  -- what is known of retired accounts is known in every state of the run
  have hKnown : Runs.Run (step x)
      (fun s e => ClearsAlone s e ∧ Runs.Run (step x) ClearsAlone fresh s) fresh t :=
    hRun.strengthen .refl fun s e u hs hGood hStep => .tail e hs hGood hStep
  refine (pool_invariant
    (J := fun _ s => ∀ (h : Nat) (a : AccountHandle), s.handles[h]? = some a →
      a.cleared = true → a.store = {})
    (A := fun _ s p => ∀ h, s.Cleared h → Spares h p) ?_ ?_ ?_ hKnown
    (fun h a ha => absurd ha (by simp [fresh])) (fun i p hp => absurd hp (fresh_threads i p))).1
  · exact fun n s c hInv => ⟨hInv, fun h _ => spares_code x c⟩
  · rintro s i io ins k s' a ⟨hAlone, hBefore⟩ hInv hAll hGet hExec
    have hStopped := (retired_run hBefore).cleared_stopped
    refine ⟨fun h y hy hCleared => ?_, fun h hCleared => ?_⟩
    · rcases exists_account hExec hy with ⟨z, hz⟩ | ⟨wxid, -, rfl⟩
      · obtain ⟨y', hy', hEq⟩ := account_exec hExec hz
        obtain rfl : y' = y := Option.some.inj (hy'.symm.trans hy)
        rcases hEq with rfl | ⟨op, b, rfl, hOp⟩
        · exact hInv h y' hz hCleared
        · rcases HandleOp.store_exec hOp with hSame | hWrites | ⟨-, hEmpty⟩
          · rcases HandleOp.cleared_exec hOp with hOld | ⟨purge, rfl⟩
            · rw [hSame]
              exact hInv h z hz (hOld ▸ hCleared)
            · simp only [HandleOp.exec, Option.some.injEq, Prod.mk.injEq] at hOp
              rw [← hOp.1]
          · -- a write is no longer among the instructions of the thread
            rcases AppState.Cleared.of_exec ⟨y', hy, hCleared⟩ hExec with hOld | ⟨purge, hClear⟩
            · have hLeaves := (spares_step.mp (hAll i _ hGet h hOld)).1 rfl
              rw [hWrites] at hLeaves
              cases hLeaves
            · obtain ⟨-, rfl⟩ := Instr.handle.inj hClear
              cases hWrites
          · exact hEmpty
      · cases hCleared
    · rcases hCleared.of_exec hExec with hOld | ⟨purge, rfl⟩
      · exact (spares_step.mp (hAll i _ hGet h hOld)).2 a (expected_exec (hStopped h hOld) hExec)
      · exact (spares_step.mp (hAlone h purge k hGet i _ hGet)).2 a rfl
  · rintro s i io ins k s' a j p ⟨hAlone, hBefore⟩ hInv hAll hGet hExec hNe hp h hCleared
    rcases hCleared.of_exec hExec with hOld | ⟨purge, rfl⟩
    · exact hAll j p hp h hOld
    · exact hAlone h purge k hGet j p hp

/-- The next instruction does not empty a store. -/
def clearsNothing (s : Server) : Op → Bool
  | .tick i _ =>
    match s.threads[i]? with
    | some (.step (.handle _ (.clear _)) _) => false
    | _ => true
  | _ => true

theorem clearsAlone_of_clearsNothing (s : Server) (op : Op) (h : clearsNothing s op = true) :
    ClearsAlone s op := by
  cases op with
  | start c => trivial
  | tick i io =>
    intro k purge cont hGet
    rw [clearsNothing, hGet] at h
    cases h

/-- The account is registered and built, and the store is about to be emptied. -/
def beforeClear : Server := (Runs.exec (step (.blank "")) anyOp fresh (lifeOps.take 34)).getD fresh

def afterClear : Server := (step (.blank "") beforeClear (.tick 2 {})).getD fresh

theorem spares_beforeClear (j : Nat) (p : Code Outcome) (hp : beforeClear.threads[j]? = some p) :
    Spares 0 p := by
  match j with
  | 0 =>
    obtain rfl : .ret (.bound 0) = p := Option.some.inj hp
    exact spares_ret
  | 1 =>
    obtain rfl : .ret .built = p := Option.some.inj hp
    exact spares_ret
  | 2 =>
    have hDrop : Spares 0 (dropAccount 0 .ready false) := dropAccount_spares 0 .ready false
    rw [dropAccount, Prog.call_bind, spares_step] at hDrop
    obtain rfl := Option.some.inj hp
    exact hDrop.2 () rfl
  | j + 3 => cases hp

theorem cleared_store_empty_afterClear :
    ∃ a : AccountHandle, afterClear.shared.handles[0]? = some a ∧ a.cleared = true ∧ a.store = {} := by
  have hBefore : Runs.Run (step (.blank "")) ClearsAlone fresh beforeClear :=
    Runs.run_of_exec (lifeOps.take 34) clearsAlone_of_clearsNothing rfl
  have hRun : Runs.Run (step (.blank "")) ClearsAlone fresh afterClear := by
    refine .tail (.tick 2 {}) hBefore ?_ rfl
    intro h purge k hGet
    obtain rfl : 0 = h := (Instr.handle.inj (Prog.step_inj (Option.some.inj hGet)).1).1
    exact spares_beforeClear
  exact ⟨_, rfl, rfl, cleared_store_empty (.blank "") hRun 0 _ rfl rfl⟩

/-- The build task finds the flag not set, the account is deregistered, and the build goes in. -/
def lateBuildOps : List Op :=
  .start (.registerAccount "a") :: List.replicate 4 (.tick 0 {}) ++
    .start (.buildTask 0) :: List.replicate 3 (.tick 1 { built := some lifeOps.oneMark }) ++
    .start (.deregisterAccount "a" false) :: List.replicate 10 (.tick 2 {}) ++
    List.replicate 2 (.tick 1 {})

theorem late_build_resurrects : ¬ ∀ t, Runs.Run (step (.blank "")) (fun _ _ => True) fresh t →
    ∀ (h : Nat) (a : AccountHandle), t.shared.handles[h]? = some a → a.cleared = true →
      a.store = {} := by
  intro h
  have hRun : Runs.Run (step (.blank "")) (fun _ _ => True) fresh
      ((Runs.exec (step (.blank "")) anyOp fresh lateBuildOps).getD fresh) :=
    Runs.run_of_exec lateBuildOps (fun s op (_ : anyOp s op = true) => trivial) rfl
  have hStore := congrArg (fun s : Store => s.watermarks.entries.length) (h _ hRun 0 _ rfl rfl)
  cases hStore

end Weflow.Accounts
