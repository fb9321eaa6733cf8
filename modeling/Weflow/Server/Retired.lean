import Weflow.Server.Registry

/-!
# Retired accounts

After `deregister_account` has published its reset, nothing is published for the account that
was taken out.

`Keeper` is what a thread knows of the accounts: the write lock it holds, with what the flag
`stopped` said inside it; the account it took out of the registry; and the accounts it read for
the reset. A task publishes under the lock in which it tested the flag, and a deregistration
sets the flag before it takes that lock, so no order of the steps lets an event through.
-/

namespace Weflow.Accounts

open Threads

/-! ## The protocol of the store lock -/

/-- What a thread knows of the accounts. -/
structure Keeper where
  /-- the write lock it holds, and whether it found the account alive inside it -/
  lock : Option (Nat × Bool) := none
  seen : Option (String × Nat) := none
  /-- the account it took out of the registry -/
  gone : Option Nat := none
  stopped : List Nat := []
  /-- it has emptied the store of that account -/
  dropped : Bool := false
  /-- the ready accounts it read since then -/
  read : Option (List Nat) := none

/-- The store lock is released by its holder, a store is emptied under its lock after the
account was stopped, a task publishes under the lock in which it found the account alive, and a
reset is published at the end of a deregistration. -/
@[simp] def Keeper.allow (q : Keeper) : Instr → Prop
  | .handle _ .lockStore => q.lock = none
  | .handle h .unlockStore => ∃ live, q.lock = some (h, live)
  | .handle h (.clear _) => (∃ live, q.lock = some (h, live)) ∧ h ∈ q.stopped
  | .remove wxid => ∃ h, q.seen = some (wxid, h)
  | .publish (.task h) _ => q.lock = some (h, true)
  | .publish (.reset h hs) ev =>
    q.gone = some h ∧ q.dropped = true ∧ q.read = some hs ∧ ev.sync?.isSome = true
  | _ => True

@[simp] def Keeper.next (q : Keeper) : (ins : Instr) → ins.Ans → Option Keeper
  | .handle h .lockStore, _ => some { q with lock := some (h, false) }
  | .handle _ .unlockStore, _ => some { q with lock := none }
  | .handle h .isStopped, b =>
    some { q with lock := q.lock.map fun l => if l.1 = h then (h, !b) else l }
  | .handle h .stop, _ => some { q with stopped := h :: q.stopped }
  | .handle h (.clear _), _ =>
    some { q with lock := some (h, false), dropped := q.dropped || q.gone == some h }
  | .bound, b => some { q with seen := b }
  | .remove _, _ =>
    some { q with gone := q.seen.map fun b => b.2, dropped := false, read := none }
  | .readyHandles, hs => some { q with read := some hs }
  | _, _ => some q

@[reducible] def keeperStates : Typestate Instr Instr.Ans := ⟨Keeper, Keeper.allow, Keeper.next⟩

/-! ### The programs obey it -/

section

variable {q : Keeper}

theorem fullSync_keeper (h : Nat) (hFree : q.lock = none) :
    Obeys keeperStates q (fullSync h) fun q' _ => q' = q := by
  obtain ⟨lock, seen, gone, stopped, dropped, read⟩ := q
  obtain rfl : lock = none := hFree
  simp [fullSync, Obeys, Keeper.allow, Keeper.next, Option.forall]

theorem publishWatermarkBaseline_keeper (h : Nat) (hFree : q.lock = none) :
    Obeys keeperStates q (publishWatermarkBaseline h) fun q' _ => q' = q := by
  obtain ⟨lock, seen, gone, stopped, dropped, read⟩ := q
  obtain rfl : lock = none := hFree
  simp [publishWatermarkBaseline, Obeys, Keeper.allow, Keeper.next]

theorem buildTask_keeper (h : Nat) (hFree : q.lock = none) :
    Obeys keeperStates q (buildTask h) fun q' _ => q' = q := by
  obtain ⟨lock, seen, gone, stopped, dropped, read⟩ := q
  obtain rfl : lock = none := hFree
  apply obeys_bind.mpr
  apply (fullSync_keeper h rfl).mono
  rintro _ (_ | _) rfl
  · simp [Obeys, Keeper.allow, Keeper.next]
  · simp only [Prog.call_bind, obeys_step, Keeper.allow, Keeper.next, Option.some.injEq, forall_eq',
      forall_const, true_and, Bool.forall_bool, if_true, Bool.false_eq_true, if_false, Option.map_none]
    refine ⟨?_, by simp⟩
    apply obeys_bind.mpr
    apply (publishWatermarkBaseline_keeper h rfl).mono
    rintro _ - rfl
    simp [Obeys, Keeper.allow, Keeper.next]

theorem registerAccount_keeper (wxid : String) :
    Obeys keeperStates q (registerAccount wxid) fun _ _ => True := by
  have hReplace : ∀ q : Keeper, Obeys keeperStates q (replaceAccount wxid) fun _ _ => True := by
    intro q
    rw [replaceAccount, Prog.call_bind, obeys_step]
    refine ⟨trivial, ?_⟩
    rintro ⟨new, _ | old⟩ q' hq
    · simp [Obeys, Keeper.allow]
    · simp [Obeys, Keeper.allow, Keeper.next, Option.forall]
  simp only [registerAccount, Prog.call_bind, obeys_step, Keeper.allow, Keeper.next,
    Option.some.injEq, forall_eq', forall_const, true_and]
  rintro (_ | ⟨name, h⟩)
  · exact hReplace _
  · simp only [obeys_step, Keeper.allow, Keeper.next, Option.some.injEq, forall_eq', true_and]
    intro st
    split
    · simp [Obeys, Keeper.allow]
    · split
      · simp [Obeys, Keeper.allow]
      · exact hReplace _

theorem publishAll_keeper (h : Nat) (events : List Event) (hLive : q.lock = some (h, true)) :
    Obeys keeperStates q (publishAll h events) fun q' _ => q' = q := by
  induction events with
  | nil => rfl
  | cons ev evs ih =>
    simp only [publishAll, Prog.call_bind, obeys_step, Keeper.allow, Keeper.next,
      Option.some.injEq, forall_eq', forall_const]
    exact ⟨hLive, ih⟩

theorem reloadSections_keeper (x : Codec) (h : Nat) (todo : List Sync.Work) (hFree : q.lock = none) :
    Obeys keeperStates q (reloadSections x h todo) fun q' _ => q' = q := by
  obtain ⟨lock, seen, gone, stopped, dropped, read⟩ := q
  obtain rfl : lock = none := hFree
  induction todo with
  | nil => rfl
  | cons w todo ih =>
    cases w <;> simp [reloadSections, Obeys, Keeper.allow, Keeper.next, Option.forall, ih]

theorem pollOnce_keeper (x : Codec) (h : Nat) (hFree : q.lock = none) :
    Obeys keeperStates q (pollOnce x h) fun q' _ => q' = q := by
  obtain ⟨lock, seen, gone, stopped, dropped, read⟩ := q
  obtain rfl : lock = none := hFree
  simp only [pollOnce, Prog.call_bind, obeys_step, Keeper.allow, Keeper.next,
    Option.some.injEq, forall_eq', forall_const, true_and, Bool.forall_bool, if_true,
    Bool.false_eq_true, if_false, Option.map_none]
  refine ⟨?_, by simp⟩
  rintro (_ | p)
  · simp [Obeys, Keeper.allow, Keeper.next]
  · simp only [obeys_step, Keeper.allow, Keeper.next, Option.some.injEq, forall_eq', Option.map_some,
      forall_const, true_and, Bool.forall_bool, if_true, Bool.false_eq_true, if_false]
    refine ⟨fun events => ?_, by simp⟩
    apply obeys_bind.mpr
    apply (publishAll_keeper h events rfl).mono
    rintro _ - rfl
    simp only [obeys_step, Keeper.allow, Keeper.next, Option.some.injEq, forall_eq',
      forall_const, Bool.not_false]
    refine ⟨⟨_, rfl⟩, ?_⟩
    apply obeys_bind.mpr
    apply (reloadSections_keeper x h p.work rfl).mono
    rintro _ (_ | _) rfl
    · simp [Obeys, Keeper.allow, Keeper.next]
    · simp [Obeys, Keeper.allow, Keeper.next]

theorem collectWatermarks_keeper (hs : List Nat) :
    Obeys keeperStates q (collectWatermarks hs) fun q' _ => q' = q := by
  induction hs with
  | nil => rfl
  | cons h hs ih =>
    simp only [collectWatermarks, Prog.call_bind, obeys_step, Keeper.allow, Keeper.next,
      Option.some.injEq, forall_eq', true_and]
    intro wms
    apply obeys_bind.mpr
    apply ih.mono
    rintro _ rest rfl
    rfl

/-- The accounts it answers are those of the registry at that time. -/
theorem currentWatermarks_keeper :
    Obeys keeperStates q currentWatermarks fun q' r => q' = { q with read := some r.2 } := by
  simp only [currentWatermarks, Prog.call_bind, obeys_step, Keeper.allow, Keeper.next,
    Option.some.injEq, forall_eq', forall_const, true_and]
  intro hs
  apply obeys_bind.mpr
  apply (collectWatermarks_keeper hs).mono
  rintro _ wms rfl
  rfl

theorem sseFrom_keeper (since frames : Nat) (q : Keeper) :
    Obeys keeperStates q (sseFrom since frames) fun _ _ => True := by
  refine sseFrom_keeps (fun q ins _ hStreams => ?_) (fun q _ => ?_) since frames trivial
  · cases ins <;> simp [Instr.streams, Keeper.allow] at hStreams ⊢
  · exact currentWatermarks_keeper.mono fun _ _ _ => trivial

theorem dropAccount_keeper {h : Nat} {previous : AccountStatus} {purgeMedia : Bool}
    (hFree : q.lock = none) (hGone : q.gone = some h) (hStopped : h ∈ q.stopped) :
    Obeys keeperStates q (dropAccount h previous purgeMedia) fun _ _ => True := by
  obtain ⟨lock, seen, gone, stopped, dropped, read⟩ := q
  obtain rfl : lock = none := hFree
  obtain rfl : gone = some h := hGone
  have hMem : h ∈ stopped := hStopped
  simp only [dropAccount, Prog.call_bind, obeys_step, Keeper.allow, Keeper.next,
    Option.some.injEq, forall_eq', forall_const, Prod.mk.injEq, true_and, exists_eq', hMem,
    BEq.rfl, Bool.or_true]
  rintro ⟨talkers, indexCleared⟩
  apply obeys_bind.mpr
  apply currentWatermarks_keeper.mono
  rintro _ ⟨wms, hs⟩ rfl
  cases purgeMedia with
  | true => simp [Obeys, Keeper.allow, Keeper.next, Event.sync?]
  | false => simp [Obeys, Keeper.allow, Keeper.next, Event.sync?]

theorem deregisterAccount_keeper (wxid : String) (purgeMedia : Bool) (hFree : q.lock = none) :
    Obeys keeperStates q (deregisterAccount wxid purgeMedia) fun _ _ => True := by
  obtain ⟨lock, seen, gone, stopped, dropped, read⟩ := q
  obtain rfl : lock = none := hFree
  simp only [deregisterAccount, Prog.call_bind, obeys_step, Keeper.allow, Keeper.next,
    Option.some.injEq, forall_eq', forall_const, true_and]
  rintro (_ | ⟨name, h⟩)
  · simp [Obeys, Keeper.allow]
  · by_cases hName : name = wxid
    · subst hName
      simp only [ne_eq, not_true_eq_false, if_false, obeys_step, Keeper.allow, Keeper.next,
        Option.map_some, Option.some.injEq, forall_eq', forall_const, true_and, Prod.mk.injEq,
        exists_eq']
      rintro previous (_ | task)
      · exact dropAccount_keeper rfl rfl List.mem_cons_self
      · simp only [obeys_step, Keeper.allow, Keeper.next, Option.some.injEq, forall_eq',
          forall_const, true_and]
        exact dropAccount_keeper rfl rfl List.mem_cons_self
    · simp [hName, Obeys, Keeper.allow]

end

theorem keeper_code (x : Codec) (c : Task) : Obeys keeperStates {} (c.code x) fun _ _ => True := by
  cases c with
  | registerAccount wxid => exact registerAccount_keeper wxid
  | buildTask h => exact (buildTask_keeper h rfl).mono fun _ _ _ => trivial
  | pollOnce h => exact (pollOnce_keeper x h rfl).mono fun _ _ _ => trivial
  | deregisterAccount wxid purgeMedia => exact deregisterAccount_keeper wxid purgeMedia rfl
  | sseFrom since frames => exact sseFrom_keeper since frames {}

/-! ## The log and the history -/

/-- The history holds the last events of the log, and the ids of the log increase. -/
structure LogOk (s : AppState) : Prop where
  history : s.bus.history.items.map HistoryItem.stamped <:+ s.published.map Prod.fst
  ids : (s.published.map fun p => p.1.id).Pairwise (· < ·)
  id_le : ∀ p ∈ s.published, p.1.id ≤ s.bus.history.lastId

section

variable {i : Nat} {io : Io} {ins : Instr} {s s' : AppState} {a : ins.Ans}

theorem LogOk.exec (h : LogOk s) (hExec : exec i io ins s = some (s', a)) : LogOk s' := by
  cases ins with
  | publish producer event =>
    simp only [Accounts.exec, Option.some.injEq, Prod.mk.injEq] at hExec
    obtain ⟨rfl, -⟩ := hExec
    refine ⟨?_, ?_, ?_⟩
    · obtain ⟨l, hl⟩ := h.history
      rw [AppState.publish_history, AppState.publish_published, HistoryBuf.stamped_append,
        List.map_append, List.map_singleton, ← hl, List.append_assoc]
      exact (List.drop_suffix _ _).trans (List.suffix_append _ _)
    · rw [AppState.publish_published, List.map_append, List.map_singleton]
      refine List.pairwise_append.mpr ⟨h.ids, List.pairwise_singleton _ _, ?_⟩
      intro id hid id' hid'
      obtain ⟨p, hp, rfl⟩ := List.mem_map.mp hid
      rw [List.mem_singleton.mp hid']
      exact Nat.lt_succ_of_le (h.id_le p hp)
    · rw [AppState.publish_published, AppState.publish_history, HistoryBuf.lastId_append]
      intro p hp
      rcases List.mem_append.mp hp with hp | hp
      · exact (h.id_le p hp).trans (Nat.le_succ _)
      · rw [List.mem_singleton.mp hp]
  | clearHistory =>
    simp only [Accounts.exec, Option.some.injEq, Prod.mk.injEq] at hExec
    obtain ⟨rfl, -⟩ := hExec
    exact ⟨List.nil_suffix, h.ids, h.id_le⟩
  | handle h' op =>
    obtain ⟨y, y', hy, hOp, rfl⟩ := exec_handle hExec
    exact ⟨h.history, h.ids, h.id_le⟩
  | _ =>
    have hBus : s'.bus.history = s.bus.history ∧ s'.published = s.published := by
      grind [Accounts.exec, EventBus.subscribeWithReplay]
    exact ⟨by rw [hBus.1, hBus.2]; exact h.history, by rw [hBus.2]; exact h.ids,
      by rw [hBus.1, hBus.2]; exact h.id_le⟩

/-! ## Accounts that were taken out -/

/-- A deregistration has emptied the account. -/
def AppState.Cleared (s : AppState) (h : Nat) : Prop :=
  ∃ a, s.handles[h]? = some a ∧ a.cleared = true

theorem AppState.Cleared.exec {h : Nat} (hCleared : s.Cleared h)
    (hExec : exec i io ins s = some (s', a)) : s'.Cleared h := by
  obtain ⟨x, hx, hTrue⟩ := hCleared
  obtain ⟨x', hx', rfl | ⟨op, b, -, hOp⟩⟩ := account_exec hExec hx
  · exact ⟨x', hx', hTrue⟩
  · refine ⟨x', hx', ?_⟩
    rcases HandleOp.cleared_exec hOp with hSame | ⟨purge, rfl⟩
    · rw [hSame, hTrue]
    · simp only [HandleOp.exec, Option.some.injEq, Prod.mk.injEq] at hOp
      rw [← hOp.1]

/-- An account that is emptied now was emptied before, or is emptied by this instruction. -/
theorem AppState.Cleared.of_exec {h : Nat} (hCleared : s'.Cleared h)
    (hExec : Accounts.exec i io ins s = some (s', a)) :
    s.Cleared h ∨ ∃ purge, ins = .handle h (.clear purge) := by
  obtain ⟨x', hx', hTrue⟩ := hCleared
  rcases exists_account hExec hx' with ⟨x, hx⟩ | ⟨wxid, -, rfl⟩
  · obtain ⟨y, hy, hEq⟩ := account_exec hExec hx
    obtain rfl : y = x' := Option.some.inj (hy.symm.trans hx')
    rcases hEq with rfl | ⟨op, b, rfl, hOp⟩
    · exact .inl ⟨y, hx, hTrue⟩
    · rcases HandleOp.cleared_exec hOp with hSame | ⟨purge, rfl⟩
      · exact .inl ⟨x, hx, hSame ▸ hTrue⟩
      · exact .inr ⟨purge, rfl⟩
  · cases hTrue

/-- Whenever `h` was taken out of the registry, `h'` had been taken out before. -/
def TakenBefore (removed : List (Nat × Nat)) (h' h : Nat) : Prop :=
  ∀ l₁ i l₂, removed = l₁ ++ (i, h) :: l₂ → ∃ j, (j, h') ∈ l₁

theorem TakenBefore.append {removed : List (Nat × Nat)} {j h' h : Nat}
    (hBefore : TakenBefore removed h' h) (hMem : (j, h') ∈ removed) (l : List (Nat × Nat)) :
    TakenBefore (removed ++ l) h' h := by
  intro l₁ i l₂ hEq
  rcases List.append_eq_append_iff.mp hEq with ⟨c, rfl, -⟩ | ⟨c, hRemoved, hc⟩
  · exact ⟨j, List.mem_append_left _ hMem⟩
  · cases c with
    | nil =>
      rw [List.append_nil] at hRemoved
      exact ⟨j, hRemoved ▸ hMem⟩
    | cons p c =>
      obtain ⟨rfl, -⟩ := List.cons_eq_cons.mp hc
      exact hBefore l₁ i c hRemoved

/-- Nothing was taken out before itself. -/
theorem TakenBefore.ne {removed : List (Nat × Nat)} {j h' h : Nat}
    (hBefore : TakenBefore removed h' h) (hMem : (j, h) ∈ removed) : h' ≠ h := by
  rintro rfl
  -- an occurrence has another one before it, so there is none
  have hNone : ∀ n l₁ i l₂, l₁.length ≤ n → removed ≠ l₁ ++ (i, h') :: l₂ := by
    intro n
    induction n with
    | zero =>
      rintro l₁ i l₂ hLength hEq
      obtain ⟨k, hk⟩ := hBefore l₁ i l₂ hEq
      exact absurd (List.length_pos_of_mem hk) (by omega)
    | succ n ih =>
      rintro l₁ i l₂ hLength hEq
      obtain ⟨k, hk⟩ := hBefore l₁ i l₂ hEq
      obtain ⟨m₁, m₂, rfl⟩ := List.append_of_mem hk
      rw [List.length_append, List.length_cons] at hLength
      exact ih m₁ k (m₂ ++ (i, h') :: l₂) (by omega) (by rw [hEq, List.append_assoc]; rfl)
  obtain ⟨l₁, l₂, hEq⟩ := List.append_of_mem hMem
  exact hNone l₁.length l₁ j l₂ le_rfl hEq

theorem TakenBefore.of_not_mem {removed : List (Nat × Nat)} {h' h : Nat}
    (hNot : ∀ p ∈ removed, p.2 ≠ h) : TakenBefore removed h' h := by
  rintro l₁ i l₂ rfl
  exact absurd rfl (hNot (i, h) (List.mem_append_right _ List.mem_cons_self))

/-! ## The invariant -/

/-- What holds of the accounts that were retired, with `n` threads. -/
structure RetiredInv (n : Nat) (s : AppState) : Prop extends RegistryInv n s, LogOk s where
  cleared_stopped : ∀ h, s.Cleared h → s.Stopped h
  removed_gone : ∀ p ∈ s.removed, p.2 < s.handles.length ∧ ∀ e ∈ s.accounts.entries, e.2 ≠ p.2
  reset_cleared : ∀ e h hs, (e, Producer.reset h hs) ∈ s.published →
    s.Cleared h ∧ e.isSync = true ∧
      ∃ i, (i, h) ∈ s.removed ∧ ∀ k ∈ hs, TakenBefore s.removed h k
  silent : s.published.Pairwise fun p q => ∀ h hs, p.2 = .reset h hs → q.2 ≠ .task h

/-- What thread `i` can rely on. -/
structure KeeperRel (i : Nat) (s : AppState) (q : Holder × Keeper) : Prop where
  holder : HolderRel i s q.1
  seen_eq : ∀ b, q.1.seen = some b → q.2.seen = b
  locked : ∀ h live, q.2.lock = some (h, live) →
    ∃ a, s.handles[h]? = some a ∧ a.writer = some i ∧ (live = true → a.cleared = false)
  stops : ∀ h ∈ q.2.stopped, s.Stopped h
  gone : ∀ h, q.2.gone = some h → (i, h) ∈ s.removed ∧ (q.2.dropped = true → s.Cleared h) ∧
    ∀ hs, q.2.read = some hs → ∀ k ∈ hs, TakenBefore s.removed h k

@[reducible] def retiredStates : Typestate Instr Instr.Ans := registryStates.prod keeperStates

/-- The list of the removed grows at its end. -/
theorem removed_exec (hExec : exec i io ins s = some (s', a)) : ∃ l, s'.removed = s.removed ++ l := by
  cases ins with
  | handle h op =>
    obtain ⟨y, y', hy, hOp, rfl⟩ := exec_handle hExec
    exact ⟨[], (List.append_nil _).symm⟩
  | remove wxid =>
    simp only [exec, Option.some.injEq, Prod.mk.injEq] at hExec
    obtain ⟨rfl, -⟩ := hExec
    exact ⟨_, rfl⟩
  | _ => exact ⟨[], by rw [List.append_nil]; grind [exec, AppState.publish]⟩

/-- What a thread knows of the accounts it stopped and took out holds on. -/
theorem stops_exec {q : Keeper} (hExec : exec i io ins s = some (s', a))
    (hStops : ∀ h ∈ q.stopped, s.Stopped h) : ∀ h ∈ q.stopped, s'.Stopped h :=
  fun h hh => (hStops h hh).exec hExec

theorem gone_exec {j : Nat} {q : Keeper} (hExec : exec i io ins s = some (s', a))
    (hGone : ∀ h, q.gone = some h → (j, h) ∈ s.removed ∧ (q.dropped = true → s.Cleared h) ∧
      ∀ hs, q.read = some hs → ∀ k ∈ hs, TakenBefore s.removed h k) :
    ∀ h, q.gone = some h → (j, h) ∈ s'.removed ∧ (q.dropped = true → s'.Cleared h) ∧
      ∀ hs, q.read = some hs → ∀ k ∈ hs, TakenBefore s'.removed h k := by
  intro h hh
  obtain ⟨hMem, hCleared, hBefore⟩ := hGone h hh
  obtain ⟨l, hl⟩ := removed_exec hExec
  rw [hl]
  exact ⟨List.mem_append_left _ hMem, fun hDropped => (hCleared hDropped).exec hExec,
    fun hs hRead k hk => (hBefore hs hRead k hk).append hMem l⟩

/-- The holder of a store lock keeps what it knows, if the instruction neither takes the lock
from it nor empties the store. -/
theorem locked_exec (j : Nat) (lock : Option (Nat × Bool)) (hExec : exec i io ins s = some (s', a))
    (hUnlock : ∀ h live, lock = some (h, live) → ins ≠ .handle h .unlockStore)
    (hClear : ∀ h live purge, lock = some (h, live) → ins ≠ .handle h (.clear purge))
    (hLocked : ∀ h live, lock = some (h, live) →
      ∃ a, s.handles[h]? = some a ∧ a.writer = some j ∧ (live = true → a.cleared = false)) :
    ∀ h live, lock = some (h, live) →
      ∃ a, s'.handles[h]? = some a ∧ a.writer = some j ∧ (live = true → a.cleared = false) := by
  intro h live hLock
  obtain ⟨x, hx, hWriter, hLive⟩ := hLocked h live hLock
  obtain ⟨x', hx', rfl | ⟨op, b, rfl, hOp⟩⟩ := account_exec hExec hx
  · exact ⟨x', hx', hWriter, hLive⟩
  · refine ⟨x', hx', ?_, ?_⟩
    · rcases HandleOp.writer_exec hOp with hSame | ⟨-, hNone, -⟩ | rfl
      · rw [hSame, hWriter]
      · rw [hNone] at hWriter
        cases hWriter
      · exact absurd rfl (hUnlock h live hLock)
    · rcases HandleOp.cleared_exec hOp with hSame | ⟨purge, rfl⟩
      · rw [hSame]
        exact hLive
      · exact absurd rfl (hClear h live purge hLock)

section

variable {n : Nat} {q : Holder × Keeper}

/-- What a thread knows survives the steps of the others: a store is emptied and its lock is
released by the holder of the lock. -/
theorem retired_other {j : Nat} {q' : Holder × Keeper} (hRel : KeeperRel i s q)
    (hAllow : retiredStates.allow q ins) (hExec : exec i io ins s = some (s', a)) (hNe : j ≠ i)
    (hOther : KeeperRel j s q') : KeeperRel j s' q' where
  holder := registry_other hRel.holder hAllow.1 hExec hNe hOther.holder
  seen_eq := hOther.seen_eq
  locked := by
    -- an account has one writer
    have hOne : ∀ h live live', q.2.lock = some (h, live) → q'.2.lock ≠ some (h, live') := by
      intro h live live' hLock hLock'
      obtain ⟨x, hx, hWriter, -⟩ := hRel.locked h live hLock
      obtain ⟨y, hy, hWriter', -⟩ := hOther.locked h live' hLock'
      obtain rfl : x = y := Option.some.inj (hx.symm.trans hy)
      exact hNe (Option.some.inj (hWriter'.symm.trans hWriter))
    refine locked_exec j q'.2.lock hExec ?_ ?_ hOther.locked
    · rintro h live' hLock' rfl
      obtain ⟨live, hLock⟩ := hAllow.2
      exact hOne h live live' hLock hLock'
    · rintro h live' purge hLock' rfl
      obtain ⟨⟨live, hLock⟩, -⟩ := hAllow.2
      exact hOne h live live' hLock hLock'
  stops := stops_exec hExec hOther.stops
  gone := gone_exec hExec hOther.gone

theorem cleared_stopped_exec (hInv : RetiredInv n s) (hRel : KeeperRel i s q)
    (hAllow : retiredStates.allow q ins) (hExec : exec i io ins s = some (s', a)) {h : Nat}
    (hCleared : s'.Cleared h) : s'.Stopped h := by
  rcases hCleared.of_exec hExec with hBefore | ⟨purge, rfl⟩
  · exact (hInv.cleared_stopped h hBefore).exec hExec
  · exact (hRel.stops h hAllow.2.2).exec hExec

theorem length_exec (hExec : exec i io ins s = some (s', a)) :
    s.handles.length ≤ s'.handles.length := by
  by_contra hLt
  have hPos : s'.handles.length < s.handles.length := Nat.lt_of_not_le hLt
  obtain ⟨x', hx', -⟩ := account_exec hExec (List.getElem?_eq_getElem hPos)
  exact absurd (List.getElem?_eq_some_iff.mp hx').1 (lt_irrefl _)

theorem removed_gone_exec (hInv : RetiredInv n s) (hRel : KeeperRel i s q)
    (hAllow : retiredStates.allow q ins) (hExec : exec i io ins s = some (s', a)) :
    ∀ p ∈ s'.removed, p.2 < s'.handles.length ∧ ∀ e ∈ s'.accounts.entries, e.2 ≠ p.2 := by
  have hLength := length_exec hExec
  cases ins with
  | insert wxid =>
    obtain ⟨-, b, hSeen, hName⟩ := hAllow.1
    have hEntries := insert_entries (hRel.holder.sees b hSeen).2 hName s.handles.length
    simp only [exec, Option.some.injEq, Prod.mk.injEq] at hExec
    obtain ⟨rfl, -⟩ := hExec
    intro p hp
    have hLt := (hInv.removed_gone p hp).1
    refine ⟨hLt.trans_le hLength, ?_⟩
    rw [hEntries]
    intro e he
    rw [List.mem_singleton.mp he]
    exact Nat.ne_of_gt hLt
  | remove wxid =>
    obtain ⟨-, h, hSeen⟩ := hAllow.1
    have hSees := (hRel.holder.sees _ hSeen).2
    have hEntries := erase_entries hSees
    have hLookup := lookup_of_sees hSees
    simp only [exec, Option.some.injEq, Prod.mk.injEq] at hExec
    obtain ⟨rfl, -⟩ := hExec
    intro p hp
    rw [hEntries]
    refine ⟨?_, fun e he => absurd he List.not_mem_nil⟩
    rw [hLookup] at hp
    rcases List.mem_append.mp hp with hp | hp
    · exact (hInv.removed_gone p hp).1
    · obtain ⟨x, hx, -⟩ := hInv.keyed (Map.entry wxid h)
        (by rw [show s.accounts.entries = _ from hSees]; exact List.mem_singleton.mpr rfl)
      rw [List.mem_singleton.mp hp]
      exact (List.getElem?_eq_some_iff.mp hx).1
  | handle h op =>
    obtain ⟨y, y', hy, hOp, rfl⟩ := exec_handle hExec
    exact fun p hp => ⟨(hInv.removed_gone p hp).1.trans_le hLength, (hInv.removed_gone p hp).2⟩
  | _ =>
    have hSame : s'.removed = s.removed ∧ s'.accounts = s.accounts := by
      grind [exec, AppState.publish]
    rw [hSame.1, hSame.2]
    exact fun p hp => ⟨(hInv.removed_gone p hp).1.trans_le hLength, (hInv.removed_gone p hp).2⟩

/-- What was known of the resets so far is still known. -/
theorem RetiredInv.reset_exec (hInv : RetiredInv n s) (hExec : exec i io ins s = some (s', a)) :
    ∀ e h hs, (e, Producer.reset h hs) ∈ s.published →
      s'.Cleared h ∧ e.isSync = true ∧
        ∃ i, (i, h) ∈ s'.removed ∧ ∀ k ∈ hs, TakenBefore s'.removed h k := by
  intro e h hs hReset
  obtain ⟨hCleared, hSync, j, hMem, hBefore⟩ := hInv.reset_cleared e h hs hReset
  obtain ⟨l, hl⟩ := removed_exec hExec
  rw [hl]
  exact ⟨hCleared.exec hExec, hSync, j, List.mem_append_left _ hMem,
    fun k hk => (hBefore k hk).append hMem l⟩

/-- An event is published for an account that is alive, or after its store was emptied. -/
theorem published_exec (hInv : RetiredInv n s) (hRel : KeeperRel i s q)
    (hAllow : retiredStates.allow q ins) (hExec : exec i io ins s = some (s', a)) :
    (∀ e h hs, (e, Producer.reset h hs) ∈ s'.published →
      s'.Cleared h ∧ e.isSync = true ∧
        ∃ i, (i, h) ∈ s'.removed ∧ ∀ k ∈ hs, TakenBefore s'.removed h k) ∧
    s'.published.Pairwise fun p q => ∀ h hs, p.2 = .reset h hs → q.2 ≠ .task h := by
  have hReset := hInv.reset_exec hExec
  have hKeep : ∀ h, s.Cleared h → s'.Cleared h := fun h hCleared => hCleared.exec hExec
  cases ins with
  | publish producer event =>
    simp only [exec, Option.some.injEq, Prod.mk.injEq] at hExec
    obtain ⟨rfl, -⟩ := hExec
    rw [AppState.publish_published]
    constructor
    · intro e h hs hMem
      rcases List.mem_append.mp hMem with hMem | hMem
      · exact hReset e h hs hMem
      · obtain ⟨rfl, rfl⟩ := Prod.mk.inj (List.mem_singleton.mp hMem)
        obtain ⟨hGone, hDropped, hRead, hSync⟩ := hAllow.2
        obtain ⟨hRemoved, hCleared, hBefore⟩ := hRel.gone h hGone
        rw [AppState.publish_removed]
        exact ⟨hKeep h (hCleared hDropped), hSync, i, hRemoved, hBefore hs hRead⟩
    · refine List.pairwise_append.mpr ⟨hInv.silent, List.pairwise_singleton _ _, ?_⟩
      rintro ⟨e, p⟩ hp p' hp' h hs rfl
      rw [List.mem_singleton.mp hp']
      rintro rfl
      -- the account was found alive inside the lock that is still held
      obtain ⟨x, hx, -, hLive⟩ := hRel.locked h true hAllow.2
      obtain ⟨y, hy, hTrue⟩ := (hInv.reset_cleared e h hs hp).1
      obtain rfl : x = y := Option.some.inj (hx.symm.trans hy)
      rw [hLive rfl] at hTrue
      cases hTrue
  | handle h op =>
    obtain ⟨y, y', hy, hOp, rfl⟩ := exec_handle hExec
    exact ⟨fun e h hs hMem => hReset e h hs hMem, hInv.silent⟩
  | _ =>
    have hSame : s'.published = s.published := by grind [exec]
    rw [hSame]
    exact ⟨fun e h hs hMem => hReset e h hs hMem, hInv.silent⟩

/-- The write lock is free when it is taken. -/
theorem writer_lock {h : Nat} {a : (Instr.handle h .lockStore).Ans}
    (hExec : exec i io (.handle h .lockStore) s = some (s', a)) :
    ∃ x, s'.handles[h]? = some x ∧ x.writer = some i := by
  obtain ⟨x, x', hx, hOp, rfl⟩ := exec_handle hExec
  refine ⟨x', List.getElem?_set_self (List.getElem?_eq_some_iff.mp hx).1, ?_⟩
  simp only [HandleOp.exec, Option.ite_none_right_eq_some, Option.some.injEq,
    Prod.mk.injEq] at hOp
  rw [← hOp.2.1]

/-- A store is emptied, and its lock stays where it is. -/
theorem exec_clear {h : Nat} {purge : Bool} {a : (Instr.handle h (.clear purge)).Ans}
    (hExec : exec i io (.handle h (.clear purge)) s = some (s', a)) :
    ∃ x x', s.handles[h]? = some x ∧ s'.handles[h]? = some x' ∧ x'.writer = x.writer ∧
      x'.cleared = true := by
  obtain ⟨x, x', hx, hOp, rfl⟩ := exec_handle hExec
  refine ⟨x, x', hx, List.getElem?_set_self (List.getElem?_eq_some_iff.mp hx).1, ?_⟩
  simp only [HandleOp.exec, Option.some.injEq, Prod.mk.injEq] at hOp
  rw [← hOp.1]
  exact ⟨rfl, rfl⟩

/-- An account that is found alive inside the lock is not emptied. -/
theorem locked_isStopped {h : Nat} {a : (Instr.handle h .isStopped).Ans} (hInv : RetiredInv n s)
    (hExec : exec i io (.handle h .isStopped) s = some (s', a)) {lock : Option (Nat × Bool)}
    (hLocked : ∀ k live, lock = some (k, live) →
      ∃ x, s'.handles[k]? = some x ∧ x.writer = some i ∧ (live = true → x.cleared = false)) :
    ∀ k live, (lock.map fun l => if l.1 = h then (h, !a) else l) = some (k, live) →
      ∃ x, s'.handles[k]? = some x ∧ x.writer = some i ∧ (live = true → x.cleared = false) := by
  rintro k live hLock
  obtain ⟨⟨k', live'⟩, hHeld, hEq⟩ := Option.map_eq_some_iff.mp hLock
  obtain ⟨x, hx, hWriter, hLive⟩ := hLocked k' live' hHeld
  by_cases hOf : k' = h
  · subst hOf
    rw [if_pos rfl] at hEq
    obtain ⟨rfl, rfl⟩ := Prod.mk.inj hEq
    refine ⟨x, hx, hWriter, fun hAlive => ?_⟩
    -- an emptied account is stopped
    by_contra hNot
    obtain ⟨y, y', hy, hOp, rfl⟩ := exec_handle hExec
    simp only [HandleOp.exec, Option.some.injEq, Prod.mk.injEq] at hOp
    obtain ⟨rfl, rfl⟩ := hOp
    rw [List.getElem?_set_self (List.getElem?_eq_some_iff.mp hy).1] at hx
    obtain rfl := Option.some.inj hx
    obtain ⟨z, hz, hStopped⟩ := hInv.cleared_stopped k' ⟨y, hy, by simpa using hNot⟩
    obtain rfl : y = z := Option.some.inj (hy.symm.trans hz)
    rw [hStopped] at hAlive
    cases hAlive
  · rw [if_neg hOf] at hEq
    obtain ⟨rfl, rfl⟩ := Prod.mk.inj hEq
    exact ⟨x, hx, hWriter, hLive⟩

/-- The account that was seen is the one that is taken out. -/
theorem removed_remove {wxid : String} {h : Nat} {a : (Instr.remove wxid).Ans}
    (hSees : s.Sees (some (wxid, h))) (hExec : exec i io (.remove wxid) s = some (s', a)) :
    (i, h) ∈ s'.removed := by
  simp only [exec, Option.some.injEq, Prod.mk.injEq] at hExec
  obtain ⟨rfl, -⟩ := hExec
  rw [lookup_of_sees hSees]
  exact List.mem_append_right _ (List.mem_singleton.mpr rfl)

/-- What is ready is in the registry, so it was not taken out yet. -/
theorem takenBefore_ready {a : Instr.readyHandles.Ans} (hInv : RetiredInv n s)
    (hExec : exec i io .readyHandles s = some (s', a)) (h : Nat) :
    ∀ k ∈ a, TakenBefore s'.removed h k := by
  simp only [exec, Option.some.injEq, Prod.mk.injEq] at hExec
  obtain ⟨rfl, rfl⟩ := hExec
  intro k hk
  refine TakenBefore.of_not_mem fun p hp => ?_
  obtain ⟨e, he, rfl⟩ := List.mem_map.mp (List.mem_filter.mp hk).1
  exact fun hEq => (hInv.removed_gone p hp).2 e he hEq.symm

/-- What a thread knows after its own instruction. -/
theorem keeper_own (hInv : RetiredInv n s) (hRel : KeeperRel i s q)
    (hAllow : retiredStates.allow q ins) (hExec : exec i io ins s = some (s', a)) {q' : Holder}
    (hHolder : registryStates.next q.1 ins a = some q') (hRel' : HolderRel i s' q') :
    ∃ k, keeperStates.next q.2 ins a = some k ∧ KeeperRel i s' (q', k) := by
  have hStops := stops_exec hExec hRel.stops
  have hGone := gone_exec hExec hRel.gone
  have hLocked := locked_exec i q.2.lock hExec
  cases ins with
  | handle h op =>
    cases op with
    | lockStore =>
      obtain rfl := Option.some.inj hHolder
      refine ⟨_, rfl, ⟨hRel', hRel.seen_eq, ?_, hStops, hGone⟩⟩
      rintro k live hLock
      obtain ⟨rfl, rfl⟩ := Prod.mk.inj (Option.some.inj hLock)
      obtain ⟨x, hx, hWriter⟩ := writer_lock hExec
      exact ⟨x, hx, hWriter, by simp⟩
    | unlockStore =>
      obtain rfl := Option.some.inj hHolder
      exact ⟨_, rfl, ⟨hRel', hRel.seen_eq, by simp, hStops, hGone⟩⟩
    | clear purge =>
      obtain rfl := Option.some.inj hHolder
      obtain ⟨⟨live, hHeld⟩, -⟩ := hAllow.2
      obtain ⟨x, hx, hWriter, -⟩ := hRel.locked h live hHeld
      obtain ⟨y, y', hy, hy', hSame, hCleared⟩ := exec_clear hExec
      obtain rfl : x = y := Option.some.inj (hx.symm.trans hy)
      refine ⟨_, rfl, ⟨hRel', hRel.seen_eq, ?_, hStops, ?_⟩⟩
      · rintro k live hLock
        obtain ⟨rfl, rfl⟩ := Prod.mk.inj (Option.some.inj hLock)
        exact ⟨y', hy', hSame.trans hWriter, by simp⟩
      · intro k hk
        obtain ⟨hMem, hBefore, hRead⟩ := hGone k hk
        refine ⟨hMem, fun hDropped => ?_, hRead⟩
        rcases Bool.or_eq_true_iff.mp hDropped with hDropped | hEq
        · exact hBefore hDropped
        · -- the store that is emptied now is that of the account taken out
          obtain rfl : k = h := Option.some.inj (hk.symm.trans (beq_iff_eq.mp hEq))
          exact ⟨y', hy', hCleared⟩
    | isStopped =>
      obtain rfl := Option.some.inj hHolder
      have hSame := hLocked (by simp) (by simp) hRel.locked
      exact ⟨_, rfl, ⟨hRel', hRel.seen_eq, locked_isStopped hInv hExec hSame, hStops, hGone⟩⟩
    | stop =>
      obtain rfl := Option.some.inj hHolder
      have hSame := hLocked (by simp) (by simp) hRel.locked
      refine ⟨_, rfl, ⟨hRel', hRel.seen_eq, hSame, fun k hk => ?_, hGone⟩⟩
      rcases List.mem_cons.mp hk with rfl | hk
      · exact stopped_stop hExec
      · exact hStops k hk
    | _ =>
      obtain rfl := Option.some.inj hHolder
      exact ⟨_, rfl, ⟨hRel', hRel.seen_eq, hLocked (by simp) (by simp) hRel.locked, hStops, hGone⟩⟩
  | bound =>
    obtain rfl := Option.some.inj hHolder
    refine ⟨_, rfl, ⟨hRel', ?_, hLocked (by simp) (by simp) hRel.locked, hStops, hGone⟩⟩
    rintro b hb
    exact Option.some.inj hb
  | remove wxid =>
    obtain ⟨-, h, hSeen⟩ := hAllow.1
    have hSeen' := hRel.seen_eq _ hSeen
    obtain rfl := Option.some.inj hHolder
    refine ⟨_, rfl, ⟨hRel', by simp, hLocked (by simp) (by simp) hRel.locked, hStops, ?_⟩⟩
    intro k hk
    simp only [hSeen', Option.map_some, Option.some.injEq] at hk
    subst hk
    exact ⟨removed_remove (hRel.holder.sees _ hSeen).2 hExec, by simp, by simp⟩
  | readyHandles =>
    obtain rfl := Option.some.inj hHolder
    refine ⟨_, rfl, ⟨hRel', hRel.seen_eq, hLocked (by simp) (by simp) hRel.locked, hStops, ?_⟩⟩
    intro k hk
    obtain ⟨hMem, hCleared, -⟩ := hGone k hk
    refine ⟨hMem, hCleared, fun hs hRead => ?_⟩
    obtain rfl := Option.some.inj hRead
    exact takenBefore_ready hInv hExec k
  | lockAccounts =>
    obtain rfl := Option.some.inj hHolder
    exact ⟨_, rfl, ⟨hRel', by simp, hLocked (by simp) (by simp) hRel.locked, hStops, hGone⟩⟩
  | unlockAccounts =>
    obtain rfl := Option.some.inj hHolder
    exact ⟨_, rfl, ⟨hRel', by simp, hLocked (by simp) (by simp) hRel.locked, hStops, hGone⟩⟩
  | insert wxid =>
    obtain rfl := Option.some.inj hHolder
    exact ⟨_, rfl, ⟨hRel', by simp, hLocked (by simp) (by simp) hRel.locked, hStops, hGone⟩⟩
  | _ =>
    obtain rfl := Option.some.inj hHolder
    exact ⟨_, rfl, ⟨hRel', hRel.seen_eq, hLocked (by simp) (by simp) hRel.locked, hStops, hGone⟩⟩

theorem retired_own (hLt : i < n) (hInv : RetiredInv n s) (hRel : KeeperRel i s q)
    (hAllow : retiredStates.allow q ins) (hExec : exec i io ins s = some (s', a)) :
    RetiredInv n s' ∧ ∃ q', retiredStates.next q ins a = some q' ∧ KeeperRel i s' q' := by
  obtain ⟨hRegistry, q', hNext, hHolder⟩ :=
    registry_own hLt hInv.toRegistryInv hRel.holder hAllow.1 hExec
  obtain ⟨k, hNext', hRel'⟩ := keeper_own hInv hRel hAllow hExec hNext hHolder
  obtain ⟨hReset, hSilent⟩ := published_exec hInv hRel hAllow hExec
  exact ⟨⟨hRegistry, hInv.toLogOk.exec hExec,
    fun h hCleared => cleared_stopped_exec hInv hRel hAllow hExec hCleared,
    removed_gone_exec hInv hRel hAllow hExec, hReset, hSilent⟩,
    (q', k), Typestate.prod_next.mpr ⟨hNext, hNext'⟩, hRel'⟩

end

end

/-- The store lock, the flag and the registry as a discipline. -/
def retiredDiscipline : Discipline exec where
  states := retiredStates
  Inv := RetiredInv
  Rel := KeeperRel
  own _ _ _ _ _ _ _ _ hLt hInv hRel hAllow hExec := retired_own hLt hInv hRel hAllow hExec
  other _ _ _ _ _ _ _ _ _ _ _ hRel hAllow hExec hNe hOther :=
    retired_other hRel hAllow hExec hNe hOther

/-- Retired accounts in every run. -/
theorem retired_run {x : Codec} {good : Server → Op → Prop} {t : Server}
    (hRun : Runs.Run (step x) good fresh t) : RetiredInv t.threads.length t.shared := by
  refine (retiredDiscipline.run (Q := fun _ _ => True) (fun n s c hInv => ?_) hRun ?_
    (fun i p hp => absurd hp (fresh_threads i p))).1
  · exact ⟨⟨hInv.succ, hInv.toLogOk, hInv.cleared_stopped, hInv.removed_gone, hInv.reset_cleared,
      hInv.silent⟩, ({}, {}), ⟨hInv.holderRel_new, by simp, by simp, by simp, by simp⟩,
      ((registry_code x c).prod (keeper_code x c)).mono fun _ _ _ => trivial⟩
  · exact ⟨registryInv_fresh, ⟨List.nil_suffix, .nil, fun p hp => absurd hp List.not_mem_nil⟩,
      fun h hCleared => absurd hCleared (by simp [AppState.Cleared, fresh]),
      fun p hp => absurd hp List.not_mem_nil, fun e h hs hp => absurd hp List.not_mem_nil, .nil⟩

/-! ## Nothing is published for a retired account -/

/-- The newest sync event of the history. -/
def AppState.newestSync (s : AppState) : Option Stamped :=
  ((s.bus.history.items.map HistoryItem.stamped).filter Stamped.isSync).getLast?

/-- What can still carry the watermarks of account `h`: the reset of another account that was
taken out before it, with the accounts read before `h` was taken out. -/
def Overlaps (s : AppState) (h : Nat) (p : Producer) : Prop :=
  ∃ h' hs, p = .reset h' hs ∧ h' ≠ h ∧ TakenBefore s.removed h' h

section

variable {n : Nat} {s : AppState} {e : Stamped} {h : Nat} {hs : List Nat}

theorem RetiredInv.overlaps (hInv : RetiredInv n s) {i : Nat} (hMem : (i, h) ∈ s.removed)
    {e' : Stamped} {p : Producer} (hp : (e', p) ∈ s.published) (hTask : p ≠ .task h)
    (hSource : h ∈ p.sources) : Overlaps s h p := by
  cases p with
  | task k =>
    obtain rfl := List.mem_singleton.mp hSource
    exact absurd rfl hTask
  | reset h' hs' =>
    obtain ⟨-, -, j, -, hBefore⟩ := hInv.reset_cleared e' h' hs' hp
    exact ⟨h', hs', rfl, (hBefore h hSource).ne hMem, hBefore h hSource⟩

theorem RetiredInv.not_mem_reset (hInv : RetiredInv n s)
    (hReset : (e, Producer.reset h hs) ∈ s.published) : h ∉ hs := by
  intro hSource
  obtain ⟨-, -, i, hMem, hBefore⟩ := hInv.reset_cleared e h hs hReset
  exact (hBefore h hSource).ne hMem rfl

/-- The newest sync event of the history is the newest one of all, so it is not older than a
reset. -/
theorem RetiredInv.newestSync (hInv : RetiredInv n s)
    (hReset : (e, Producer.reset h hs) ∈ s.published) {a : Stamped} (ha : s.newestSync = some a) :
    ∃ p, (a, p) ∈ s.published ∧ p ≠ .task h ∧ (h ∈ p.sources → Overlaps s h p) := by
  obtain ⟨-, hSync, i, hMem, -⟩ := hInv.reset_cleared e h hs hReset
  obtain ⟨l, hl⟩ := hInv.history
  have hLast : (s.published.filter (Stamped.isSync ∘ Prod.fst)).getLast?.map Prod.fst = some a := by
    rw [← List.getLast?_map, ← List.filter_map, ← hl, List.filter_append, List.getLast?_append,
      show (List.filter _ _).getLast? = some a from ha, Option.some_or]
  obtain ⟨⟨a, p⟩, hp, rfl⟩ := Option.map_eq_some_iff.mp hLast
  obtain ⟨older, hOlder⟩ := List.getLast?_eq_some_iff.mp hp
  have hPublished : (a, p) ∈ s.published := by
    apply List.mem_of_mem_filter (p := Stamped.isSync ∘ Prod.fst)
    rw [hOlder]
    exact List.mem_append_right _ (List.mem_singleton.mpr rfl)
  have hAt : (e, Producer.reset h hs) ∈ older ++ [(a, p)] := by
    rw [← hOlder]
    exact List.mem_filter.mpr ⟨hReset, hSync⟩
  have hTask : p ≠ .task h := by
    rcases List.mem_append.mp hAt with hIn | hIn
    · -- the reset is older
      have hPairwise := hInv.silent.filter (Stamped.isSync ∘ Prod.fst)
      rw [hOlder] at hPairwise
      exact (List.pairwise_append.mp hPairwise).2.2 _ hIn _ (List.mem_singleton.mpr rfl) h hs rfl
    · rw [← (Prod.mk.inj (List.mem_singleton.mp hIn)).2]
      exact (nomatch ·)
  exact ⟨p, hPublished, hTask, hInv.overlaps hMem hPublished hTask⟩

end

/-- In every run, once the reset of an account is published, no task publishes anything for it,
and the reset does not carry its watermarks. A later sync event, and so the newest one of the
history, can carry them only as the reset of another account, taken out before it by a
deregistration that ends later; if no other account was deregistered, never. -/
theorem no_ghost_event (x : Codec) {t : Server} (hRun : Runs.Run (step x) (fun _ _ => True) fresh t) :
    (t.shared.published.Pairwise fun p q => ∀ h hs, p.2 = .reset h hs →
      q.2 ≠ .task h ∧ (h ∈ q.2.sources → Overlaps t.shared h q.2)) ∧
    (∀ e h hs, (e, .reset h hs) ∈ t.shared.published → h ∉ hs ∧
      ∀ a, t.shared.newestSync = some a → ∃ p, (a, p) ∈ t.shared.published ∧ p ≠ .task h ∧
        (h ∈ p.sources → Overlaps t.shared h p)) ∧
    ∀ e h hs, (e, .reset h hs) ∈ t.shared.published → (∀ r ∈ t.shared.removed, r.2 = h) →
      ∀ a, t.shared.newestSync = some a → ∃ p, (a, p) ∈ t.shared.published ∧ h ∉ p.sources := by
  have hInv := retired_run hRun
  refine ⟨?_, ?_, ?_⟩
  · refine hInv.silent.imp_of_mem fun {p q} hp hq hSilent h hs hReset => ?_
    obtain ⟨e, p⟩ := p
    obtain rfl : p = .reset h hs := hReset
    obtain ⟨-, -, i, hMem, -⟩ := hInv.reset_cleared e h hs hp
    have hTask := hSilent h hs rfl
    exact ⟨hTask, hInv.overlaps hMem hq hTask⟩
  · exact fun e h hs hReset => ⟨hInv.not_mem_reset hReset, fun a ha => hInv.newestSync hReset ha⟩
  · intro e h hs hReset hOnly a ha
    obtain ⟨p, hp, -, hSource⟩ := hInv.newestSync hReset ha
    refine ⟨p, hp, fun hMem => ?_⟩
    obtain ⟨h', hs', rfl, hNe, -⟩ := hSource hMem
    obtain ⟨-, -, i, hRemoved, -⟩ := hInv.reset_cleared a h' hs' hp
    exact hNe (hOnly _ hRemoved)

/-- An account is registered, built with one watermark, and deregistered. -/
def lifeOps : List Op :=
  .start (.registerAccount "a") :: List.replicate 4 (.tick 0 {}) ++
    .start (.buildTask 0) :: List.replicate 18 (.tick 1 { built := some oneMark }) ++
    .start (.deregisterAccount "a" false) :: List.replicate 17 (.tick 2 {})
where
  oneMark : Store := { watermarks := (∅ : AList _).insert ⟨"m", "t"⟩ ⟨1, 1, 1⟩ }

def afterLife : Server := (Runs.exec (step (.blank "")) anyOp fresh lifeOps).getD fresh

theorem no_ghost_event_afterLife :
    afterLife.shared.published.map Prod.snd = [.task 0, .reset 0 []] ∧
      ∃ p, (⟨2, .sync []⟩, p) ∈ afterLife.shared.published ∧ 0 ∉ p.sources := by
  have hRun : Runs.Run (step (.blank "")) (fun _ _ => True) fresh afterLife :=
    Runs.run_of_exec lifeOps (fun s op (_ : anyOp s op = true) => trivial) rfl
  obtain ⟨-, -, hOne⟩ := no_ghost_event (.blank "") hRun
  have hReset : (⟨2, .sync []⟩, Producer.reset 0 []) ∈ afterLife.shared.published :=
    List.mem_cons_of_mem _ List.mem_cons_self
  exact ⟨rfl, hOne _ 0 [] hReset (by simp [show afterLife.shared.removed = [(2, 0)] from rfl]) _ rfl⟩

end Weflow.Accounts
