import Weflow.Server.Accounts

/-!
# The registry

`register_account` and `deregister_account` on the registry of accounts, in every interleaving
with the tasks of any accounts: at most one account is bound, and a request that is not carried
out leaves no trace.

The lock of the registry is the whole argument. `Holder` is what a thread knows inside it: that
it holds it, what `bound_account` answered there, and which accounts it took out of the registry
and still has to stop. `registryStates` is the protocol the programs obey.
-/

namespace Weflow.Accounts

open Threads

/-- The account is marked as stopped. -/
def AppState.Stopped (s : AppState) (h : Nat) : Prop :=
  ∃ a, s.handles[h]? = some a ∧ a.stopped = true

/-- An account stays in its place with its name, and once stopped it is stopped for good. -/
theorem handles_exec {i : Nat} {io : Io} {ins : Instr} {s s' : AppState} {a : ins.Ans}
    (hExec : exec i io ins s = some (s', a)) {h : Nat} {x : AccountHandle}
    (hx : s.handles[h]? = some x) :
    ∃ x', s'.handles[h]? = some x' ∧ x'.wxid = x.wxid ∧ (x.stopped = true → x'.stopped = true) := by
  obtain ⟨x', hx', rfl | ⟨op, b, -, hOp⟩⟩ := account_exec hExec hx
  · exact ⟨x', hx', rfl, id⟩
  · exact ⟨x', hx', HandleOp.wxid_exec hOp, HandleOp.stopped_exec hOp⟩

theorem AppState.Stopped.exec {i : Nat} {io : Io} {ins : Instr} {s s' : AppState} {a : ins.Ans}
    (hExec : exec i io ins s = some (s', a)) {h : Nat} (hStopped : s.Stopped h) : s'.Stopped h := by
  obtain ⟨x, hx, hTrue⟩ := hStopped
  obtain ⟨x', hx', -, hMono⟩ := handles_exec hExec hx
  exact ⟨x', hx', hMono hTrue⟩

/-! ## The protocol of the registry lock -/

/-- What a thread knows: whether it holds the lock of the registry, what `bound_account` answered
since then, and which accounts it still has to stop. -/
structure Holder where
  holds : Bool := false
  seen : Option (Option (String × Nat)) := none
  owed : List Nat := []

/-- The account `remove` takes out, if it is the one that was seen. -/
def Holder.target (q : Holder) : List Nat :=
  match q.seen with
  | some (some (_, h)) => [h]
  | _ => []

/-- The registry is used under its lock. An entry is inserted if nothing or an entry of the same
name was seen there, and removed if it was seen there. -/
@[simp] def Holder.allow (q : Holder) : Instr → Prop
  | .lockAccounts => q.holds = false
  | .unlockAccounts => q.holds = true
  | .bound => q.holds = true
  | .readyHandles => q.holds = true
  | .insert wxid => q.holds = true ∧ ∃ b, q.seen = some b ∧ ∀ x ∈ b, x.1 = wxid
  | .remove wxid => q.holds = true ∧ ∃ h, q.seen = some (some (wxid, h))
  | .handle _ (.setStatus st) => st ≠ .awaitingKey
  | _ => True

@[simp] def Holder.next (q : Holder) : (ins : Instr) → ins.Ans → Option Holder
  | .lockAccounts, _ => some { q with holds := true, seen := none }
  | .unlockAccounts, _ => some { q with holds := false, seen := none }
  | .bound, b => some { q with seen := some b }
  | .insert _, a => some { q with seen := none, owed := a.2.toList ++ q.owed }
  | .remove _, _ => some { q with seen := none, owed := q.target ++ q.owed }
  | .handle h .stop, _ => some { q with owed := q.owed.filter fun h' => h' ≠ h }
  | _, _ => some q

@[reducible] def registryStates : Typestate Instr Instr.Ans := ⟨Holder, Holder.allow, Holder.next⟩

@[simp] theorem registryStates_allow : registryStates.allow = Holder.allow := rfl

@[simp] theorem registryStates_next : registryStates.next = Holder.next := rfl

/-- The registry holds at most one account, under its own name, and no account waits for a key. -/
structure SingleBinding (s : AppState) : Prop where
  length_le : s.accounts.entries.length ≤ 1
  keyed : ∀ e ∈ s.accounts.entries, ∃ a, s.handles[e.2]? = some a ∧ a.wxid = e.1
  status_ne : ∀ a ∈ s.handles, a.status ≠ .awaitingKey

/-- The invariant, with `n` threads. -/
structure RegistryInv (n : Nat) (s : AppState) : Prop extends SingleBinding s where
  owner_lt : ∀ i, s.accountsOwner = some i → i < n
  retired_lt : ∀ p ∈ s.replaced ++ s.removed, p.1 < n

/-- What `bound_account` answered still holds. -/
def AppState.Sees (s : AppState) : Option (String × Nat) → Prop
  | none => s.accounts.entries = []
  | some (w, h) => s.accounts.entries = [Map.entry w h]

/-- What thread `i` in state `q` can rely on. -/
structure HolderRel (i : Nat) (s : AppState) (q : Holder) : Prop where
  holds : q.holds = true ↔ s.accountsOwner = some i
  sees : ∀ b, q.seen = some b → q.holds = true ∧ s.Sees b
  owes : ∀ h, (i, h) ∈ s.replaced ++ s.removed → s.Stopped h ∨ h ∈ q.owed

section

variable {n : Nat} {s : AppState}

/-- In a registry of one entry it does not matter which entry comes first. -/
theorem sees_bound (h : SingleBinding s) (first : Nat) : s.Sees (s.bound first) := by
  unfold AppState.bound
  rcases hEntries : s.accounts.entries with _ | ⟨e, _ | ⟨e', l⟩⟩
  · rw [List.length_nil, Nat.mod_zero, List.getElem?_nil]
    exact hEntries
  · obtain ⟨a, ha, hName⟩ := h.keyed e (by rw [hEntries]; exact List.mem_singleton.mpr rfl)
    rw [List.length_singleton, Nat.mod_one, List.getElem?_cons_zero, Option.bind_some, ha,
      Option.map_some, hName]
    exact hEntries
  · have hLe := h.length_le
    rw [hEntries] at hLe
    simp at hLe

variable {i : Nat} {io : Io} {ins : Instr} {s' : AppState} {a : ins.Ans} {q : Holder}

/-- No instruction but a store to the status changes a status, and new accounts are indexing. -/
theorem status_ne_exec (hExec : exec i io ins s = some (s', a)) (hAllow : registryStates.allow q ins)
    (h : ∀ a ∈ s.handles, a.status ≠ .awaitingKey) : ∀ a ∈ s'.handles, a.status ≠ .awaitingKey := by
  cases ins with
  | handle h' op =>
    obtain ⟨y, y', hy, hOp, rfl⟩ := exec_handle hExec
    intro x hx
    rcases List.mem_or_eq_of_mem_set hx with hx | rfl
    · exact h x hx
    · rcases HandleOp.status_exec hOp with hSame | rfl
      · rw [hSame]
        exact h y (List.mem_of_getElem? hy)
      · exact hAllow
  | insert wxid =>
    simp only [exec, Option.some.injEq, Prod.mk.injEq] at hExec
    obtain ⟨rfl, -⟩ := hExec
    intro x hx
    rcases List.mem_append.mp hx with hx | hx
    · exact h x hx
    · rw [List.mem_singleton.mp hx]
      simp
  | _ => grind [exec, AppState.publish]

/-- What is left to show of an instruction that leaves the registry and its lock alone. -/
theorem RegistryInv.keep (h : RegistryInv n s) (hExec : exec i io ins s = some (s', a))
    (hAllow : registryStates.allow q ins) (hAccounts : s'.accounts = s.accounts)
    (hOwner : s'.accountsOwner = s.accountsOwner) (hReplaced : s'.replaced = s.replaced)
    (hRemoved : s'.removed = s.removed) : RegistryInv n s' where
  length_le := by rw [hAccounts]; exact h.length_le
  keyed := by
    rw [hAccounts]
    intro e he
    obtain ⟨x, hx, hName⟩ := h.keyed e he
    obtain ⟨x', hx', hName', -⟩ := handles_exec hExec hx
    exact ⟨x', hx', hName'.trans hName⟩
  status_ne := status_ne_exec hExec hAllow h.status_ne
  owner_lt := by rw [hOwner]; exact h.owner_lt
  retired_lt := by rw [hReplaced, hRemoved]; exact h.retired_lt

theorem AppState.Sees.congr {b : Option (String × Nat)} (h : s.Sees b)
    (hAccounts : s'.accounts = s.accounts) : s'.Sees b := by
  cases b with
  | none => exact (congrArg AList.entries hAccounts).trans h
  | some b => exact (congrArg AList.entries hAccounts).trans h

theorem HolderRel.keep {j : Nat} (h : HolderRel j s q) (hExec : exec i io ins s = some (s', a))
    (hAccounts : s'.accounts = s.accounts) (hOwner : s'.accountsOwner = s.accountsOwner)
    (hReplaced : s'.replaced = s.replaced) (hRemoved : s'.removed = s.removed) :
    HolderRel j s' q where
  holds := by rw [hOwner]; exact h.holds
  sees b hb := ⟨(h.sees b hb).1, (h.sees b hb).2.congr hAccounts⟩
  owes k hk := by
    rw [hReplaced, hRemoved] at hk
    exact (h.owes k hk).imp (fun hStopped => hStopped.exec hExec) id

/-- An insertion next to nothing, or over an entry of the same name. -/
theorem insert_entries {wxid : String} {b : Option (String × Nat)} (hSees : s.Sees b)
    (hName : ∀ x ∈ b, x.1 = wxid) (new : Nat) :
    (s.accounts.insert wxid new).entries = [Map.entry wxid new] := by
  rw [AList.entries_insert]
  cases b with
  | none =>
    rw [show s.accounts.entries = [] from hSees]
    rfl
  | some b =>
    obtain ⟨w, h⟩ := b
    obtain rfl : w = wxid := hName _ rfl
    rw [show s.accounts.entries = [Map.entry w h] from hSees]
    simp [Map.entry]

theorem lookup_of_sees {wxid : String} {h : Nat} (hSees : s.Sees (some (wxid, h))) :
    s.accounts.lookup wxid = some h := by
  apply AList.mem_lookup_iff.mpr
  rw [show s.accounts.entries = [Map.entry wxid h] from hSees]
  exact List.mem_singleton.mpr rfl

theorem erase_entries {wxid : String} {h : Nat} (hSees : s.Sees (some (wxid, h))) :
    (s.accounts.erase wxid).entries = [] := by
  change s.accounts.entries.kerase wxid = []
  rw [show s.accounts.entries = [Map.entry wxid h] from hSees]
  simp [Map.entry]

/-- The account that an insertion replaces is owed a stop. -/
theorem insert_own {wxid : String} {a : (Instr.insert wxid).Ans} (hLt : i < n)
    (hInv : RegistryInv n s) (hRel : HolderRel i s q)
    (hAllow : registryStates.allow q (.insert wxid))
    (hExec : exec i io (.insert wxid) s = some (s', a)) :
    RegistryInv n s' ∧ HolderRel i s' { q with seen := none, owed := a.2.toList ++ q.owed } := by
  have hStatus := status_ne_exec hExec hAllow hInv.status_ne
  obtain ⟨hHolds, b, hSeen, hName⟩ := hAllow
  have hEntries := insert_entries (hRel.sees b hSeen).2 hName s.handles.length
  have hStop : ∀ h, s.Stopped h → s'.Stopped h := fun h hStopped => hStopped.exec hExec
  simp only [exec, Option.some.injEq, Prod.mk.injEq] at hExec
  obtain ⟨rfl, rfl⟩ := hExec
  have hRetired : ∀ p ∈ s.replaced ++ ((s.accounts.lookup wxid).map fun h => (i, h)).toList ++
      s.removed, p ∈ s.replaced ++ s.removed ∨ p.1 = i ∧ s.accounts.lookup wxid = some p.2 := by
    intro p hp
    simp only [List.mem_append, Option.mem_toList, Option.map_eq_some_iff] at hp
    rcases hp with (hp | ⟨h, hh, rfl⟩) | hp
    · exact .inl (List.mem_append_left _ hp)
    · exact .inr ⟨rfl, hh⟩
    · exact .inl (List.mem_append_right _ hp)
  refine ⟨⟨⟨?_, ?_, hStatus⟩, hInv.owner_lt, ?_⟩, ⟨hRel.holds, by simp, ?_⟩⟩
  · rw [hEntries]
    exact le_rfl
  · rw [hEntries]
    intro e he
    rw [List.mem_singleton.mp he]
    exact ⟨_, List.getElem?_concat_length, rfl⟩
  · intro p hp
    rcases hRetired p hp with hp | ⟨hi, _⟩
    · exact hInv.retired_lt p hp
    · rw [hi]
      exact hLt
  · intro h hh
    rcases hRetired _ hh with hp | ⟨_, hOld⟩
    · rcases hRel.owes h hp with hStopped | hOwed
      · exact .inl (hStop h hStopped)
      · exact .inr (List.mem_append_right _ hOwed)
    · exact .inr (List.mem_append_left _ (Option.mem_toList.mpr hOld))

/-- The account that is removed is owed a stop. -/
theorem remove_own {wxid : String} {a : (Instr.remove wxid).Ans} (hLt : i < n)
    (hInv : RegistryInv n s) (hRel : HolderRel i s q)
    (hAllow : registryStates.allow q (.remove wxid))
    (hExec : exec i io (.remove wxid) s = some (s', a)) :
    RegistryInv n s' ∧ HolderRel i s' { q with seen := none, owed := q.target ++ q.owed } := by
  have hStatus := status_ne_exec hExec hAllow hInv.status_ne
  obtain ⟨hHolds, h, hSeen⟩ := hAllow
  have hEntries := erase_entries (hRel.sees _ hSeen).2
  have hLookup := lookup_of_sees (hRel.sees _ hSeen).2
  have hStop : ∀ h, s.Stopped h → s'.Stopped h := fun h hStopped => hStopped.exec hExec
  simp only [exec, Option.some.injEq, Prod.mk.injEq] at hExec
  obtain ⟨rfl, -⟩ := hExec
  have hRetired : ∀ p ∈ s.replaced ++ (s.removed ++
      ((s.accounts.lookup wxid).map fun h => (i, h)).toList),
      p ∈ s.replaced ++ s.removed ∨ p = (i, h) := by
    intro p hp
    rw [hLookup] at hp
    simp only [List.mem_append, Option.map_some, Option.toList_some, List.mem_singleton] at hp
    rw [List.mem_append, or_assoc]
    exact hp
  refine ⟨⟨⟨?_, ?_, hStatus⟩, hInv.owner_lt, ?_⟩, ⟨hRel.holds, by simp, ?_⟩⟩
  · rw [hEntries]
    exact Nat.zero_le _
  · rw [hEntries]
    exact fun e he => absurd he List.not_mem_nil
  · intro p hp
    rcases hRetired p hp with hp | rfl
    · exact hInv.retired_lt p hp
    · exact hLt
  · intro k hk
    rcases hRetired _ hk with hp | hEq
    · rcases hRel.owes k hp with hStopped | hOwed
      · exact .inl (hStop k hStopped)
      · exact .inr (List.mem_append_right _ hOwed)
    · obtain rfl := (Prod.mk.inj hEq).2
      refine .inr (List.mem_append_left _ ?_)
      rw [Holder.target, hSeen]
      exact List.mem_singleton.mpr rfl

/-- An account that is stopped is marked. -/
theorem stopped_stop {h : Nat} {a : (Instr.handle h .stop).Ans}
    (hExec : exec i io (.handle h .stop) s = some (s', a)) : s'.Stopped h := by
  obtain ⟨y, y', hy, hOp, rfl⟩ := exec_handle hExec
  refine ⟨y', List.getElem?_set_self (List.getElem?_eq_some_iff.mp hy).1, ?_⟩
  simp only [HandleOp.exec, Option.some.injEq, Prod.mk.injEq] at hOp
  rw [← hOp.1]

/-- An account that is stopped is owed no longer. -/
theorem stop_own {h : Nat} {a : (Instr.handle h .stop).Ans} (hRel : HolderRel i s q)
    (hExec : exec i io (.handle h .stop) s = some (s', a)) :
    HolderRel i s' { q with owed := q.owed.filter fun h' => h' ≠ h } := by
  have hNow := stopped_stop hExec
  have hStop : ∀ k, s.Stopped k → s'.Stopped k := fun k hStopped => hStopped.exec hExec
  obtain ⟨y, y', hy, hOp, rfl⟩ := exec_handle hExec
  refine ⟨hRel.holds, fun b hb => ⟨(hRel.sees b hb).1, (hRel.sees b hb).2.congr rfl⟩,
    fun k hk => ?_⟩
  by_cases hEq : k = h
  · exact .inl (hEq ▸ hNow)
  · rcases hRel.owes k hk with hStopped | hOwed
    · exact .inl (hStop k hStopped)
    · exact .inr (List.mem_filter.mpr ⟨hOwed, by simpa using hEq⟩)

/-- The registry under its lock, and the accounts that leave it. -/
theorem registry_own (hLt : i < n) (hInv : RegistryInv n s) (hRel : HolderRel i s q)
    (hAllow : registryStates.allow q ins) (hExec : exec i io ins s = some (s', a)) :
    RegistryInv n s' ∧ ∃ q', registryStates.next q ins a = some q' ∧ HolderRel i s' q' := by
  cases ins with
  | lockAccounts =>
    simp only [exec, Option.ite_none_right_eq_some, Option.some.injEq, Prod.mk.injEq] at hExec
    obtain ⟨hFree, rfl, -⟩ := hExec
    refine ⟨⟨⟨hInv.length_le, hInv.keyed, hInv.status_ne⟩, ?_, hInv.retired_lt⟩, _, rfl,
      ⟨by simp, by simp, hRel.owes⟩⟩
    rintro j hj
    obtain rfl := Option.some.inj hj
    exact hLt
  | unlockAccounts =>
    simp only [exec, Option.some.injEq, Prod.mk.injEq] at hExec
    obtain ⟨rfl, -⟩ := hExec
    exact ⟨⟨⟨hInv.length_le, hInv.keyed, hInv.status_ne⟩, by simp, hInv.retired_lt⟩, _, rfl,
      ⟨by simp, by simp, hRel.owes⟩⟩
  | bound =>
    simp only [exec, Option.some.injEq, Prod.mk.injEq] at hExec
    obtain ⟨rfl, rfl⟩ := hExec
    refine ⟨hInv, _, rfl, ⟨hRel.holds, ?_, hRel.owes⟩⟩
    rintro b hb
    obtain rfl := Option.some.inj hb
    exact ⟨hAllow, sees_bound hInv.toSingleBinding io.first⟩
  | insert wxid =>
    obtain ⟨hInv', hRel'⟩ := insert_own hLt hInv hRel hAllow hExec
    exact ⟨hInv', _, rfl, hRel'⟩
  | remove wxid =>
    obtain ⟨hInv', hRel'⟩ := remove_own hLt hInv hRel hAllow hExec
    exact ⟨hInv', _, rfl, hRel'⟩
  | handle h op =>
    have hKeep := hInv.keep hExec hAllow
    have hRel' := hRel.keep hExec
    have hExec' := hExec
    obtain ⟨y, y', hy, hOp, rfl⟩ := exec_handle hExec
    refine ⟨hKeep rfl rfl rfl rfl, ?_⟩
    cases op with
    | stop => exact ⟨_, rfl, stop_own hRel hExec'⟩
    | _ => exact ⟨q, rfl, hRel' rfl rfl rfl rfl⟩
  | _ =>
    have hKeep := hInv.keep hExec hAllow
    have hRel' := hRel.keep hExec
    refine ⟨hKeep ?_ ?_ ?_ ?_, q, rfl, hRel' ?_ ?_ ?_ ?_⟩ <;> grind [exec, AppState.publish]

/-- What a thread knows survives the steps of the others: whoever changes the registry holds its
lock. -/
theorem registry_other {j : Nat} {q' : Holder} (hRel : HolderRel i s q)
    (hAllow : registryStates.allow q ins) (hExec : exec i io ins s = some (s', a)) (hNe : j ≠ i)
    (hOther : HolderRel j s q') : HolderRel j s' q' := by
  have hNotHeld : s.accountsOwner = some i → q'.holds = false := by
    intro hOwner
    rw [Bool.eq_false_iff, ne_eq, hOther.holds, hOwner]
    exact fun h => hNe (Option.some.inj h).symm
  have hStop : ∀ k, s.Stopped k → s'.Stopped k := fun k hStopped => hStopped.exec hExec
  have hKeep := hOther.keep hExec
  cases ins with
  | lockAccounts =>
    simp only [exec, Option.ite_none_right_eq_some, Option.some.injEq, Prod.mk.injEq] at hExec
    obtain ⟨hFree, rfl, -⟩ := hExec
    have hOut : q'.holds = false := by
      rw [Bool.eq_false_iff, ne_eq, hOther.holds, hFree]
      simp
    refine ⟨?_, fun b hb => ?_, hOther.owes⟩
    · rw [hOut]
      simpa using fun h : i = j => hNe h.symm
    · exact absurd (hOther.sees b hb).1 (by simp [hOut])
  | unlockAccounts =>
    have hOut := hNotHeld (hRel.holds.mp hAllow)
    simp only [exec, Option.some.injEq, Prod.mk.injEq] at hExec
    obtain ⟨rfl, -⟩ := hExec
    refine ⟨?_, fun b hb => ?_, hOther.owes⟩
    · rw [hOut]
      simp
    · exact absurd (hOther.sees b hb).1 (by simp [hOut])
  | insert wxid =>
    have hOut := hNotHeld (hRel.holds.mp hAllow.1)
    simp only [exec, Option.some.injEq, Prod.mk.injEq] at hExec
    obtain ⟨rfl, -⟩ := hExec
    refine ⟨hOther.holds, fun b hb => ?_, fun k hk => ?_⟩
    · exact absurd (hOther.sees b hb).1 (by simp [hOut])
    · have hOld : (j, k) ∈ s.replaced ++ s.removed := by
        simp only [List.mem_append, Option.mem_toList, Option.map_eq_some_iff, Prod.mk.injEq]
          at hk ⊢
        rcases hk with (hk | ⟨_, _, hEq, _⟩) | hk
        · exact .inl hk
        · exact absurd hEq.symm hNe
        · exact .inr hk
      exact (hOther.owes k hOld).imp (hStop k) id
  | remove wxid =>
    have hOut := hNotHeld (hRel.holds.mp hAllow.1)
    simp only [exec, Option.some.injEq, Prod.mk.injEq] at hExec
    obtain ⟨rfl, -⟩ := hExec
    refine ⟨hOther.holds, fun b hb => ?_, fun k hk => ?_⟩
    · exact absurd (hOther.sees b hb).1 (by simp [hOut])
    · have hOld : (j, k) ∈ s.replaced ++ s.removed := by
        simp only [List.mem_append, Option.mem_toList, Option.map_eq_some_iff, Prod.mk.injEq]
          at hk ⊢
        rcases hk with hk | hk | ⟨_, _, hEq, _⟩
        · exact .inl hk
        · exact .inr hk
        · exact absurd hEq.symm hNe
      exact (hOther.owes k hOld).imp (hStop k) id
  | handle h op =>
    obtain ⟨y, y', hy, hOp, rfl⟩ := exec_handle hExec
    exact hKeep rfl rfl rfl rfl
  | _ => refine hKeep ?_ ?_ ?_ ?_ <;> grind [exec, AppState.publish]

end

/-- The lock of the registry as a discipline. -/
def registryDiscipline : Discipline exec where
  states := registryStates
  Inv := RegistryInv
  Rel := HolderRel
  own _ _ _ _ _ _ _ _ hLt hInv hRel hAllow hExec := registry_own hLt hInv hRel hAllow hExec
  other _ _ _ _ _ _ _ _ _ _ _ hRel hAllow hExec hNe hOther :=
    registry_other hRel hAllow hExec hNe hOther

/-! ## The programs obey it -/

theorem fullSync_obeys (h : Nat) (q : Holder) :
    Obeys registryStates q (fullSync h) fun q' _ => q' = q := by
  simp [fullSync, Obeys, Holder.allow, Holder.next, Option.forall]

theorem publishWatermarkBaseline_obeys (h : Nat) (q : Holder) :
    Obeys registryStates q (publishWatermarkBaseline h) fun q' _ => q' = q := by
  simp [publishWatermarkBaseline, Obeys, Holder.allow, Holder.next]

theorem buildTask_obeys (h : Nat) (q : Holder) :
    Obeys registryStates q (buildTask h) fun q' _ => q' = q := by
  apply obeys_bind.mpr
  apply (fullSync_obeys h q).mono
  rintro _ (_ | _) rfl
  · simp [Obeys, Holder.allow, Holder.next]
  · simp only [Prog.call_bind, obeys_step, Holder.allow, Holder.next, Option.some.injEq, forall_eq',
      forall_const, true_and, Bool.forall_bool, if_true, Bool.false_eq_true, if_false, ne_eq,
      reduceCtorEq, not_false_eq_true]
    refine ⟨?_, by simp⟩
    apply obeys_bind.mpr
    apply (publishWatermarkBaseline_obeys h _).mono
    rintro _ - rfl
    simp [Obeys, Holder.allow, Holder.next]

theorem replaceAccount_obeys {wxid : String} {b : Option (String × Nat)}
    (hName : ∀ x ∈ b, x.1 = wxid) :
    Obeys registryStates { holds := true, seen := some b } (replaceAccount wxid)
      fun q _ => q = {} := by
  rw [replaceAccount, Prog.call_bind, obeys_step]
  refine ⟨⟨rfl, b, rfl, hName⟩, ?_⟩
  rintro ⟨new, _ | old⟩ q hq
  · obtain rfl := Option.some.inj hq
    simp [Obeys, Holder.allow, Holder.next]
  · obtain rfl := Option.some.inj hq
    simp [Obeys, Holder.allow, Holder.next, Option.forall]

theorem registerAccount_obeys (wxid : String) :
    Obeys registryStates {} (registerAccount wxid) fun q _ => q = {} := by
  simp only [registerAccount, Prog.call_bind, obeys_step, Holder.allow, Holder.next,
    Option.some.injEq, forall_eq', forall_const, true_and]
  rintro (_ | ⟨name, h⟩)
  · exact replaceAccount_obeys (by simp)
  · simp only [obeys_step, Holder.allow, Holder.next, Option.some.injEq, forall_eq', true_and]
    intro st
    by_cases hName : name = wxid
    · rw [if_neg (not_not.mpr hName)]
      by_cases hLive : st = .ready ∨ st = .indexing
      · rw [if_pos hLive]
        simp [Obeys, Holder.allow, Holder.next]
      · rw [if_neg hLive]
        refine replaceAccount_obeys fun x hx => ?_
        obtain rfl := Option.some.inj hx
        exact hName
    · rw [if_pos hName]
      simp [Obeys, Holder.allow, Holder.next]

theorem publishAll_obeys (h : Nat) (events : List Event) (q : Holder) :
    Obeys registryStates q (publishAll h events) fun q' _ => q' = q := by
  induction events with
  | nil => rfl
  | cons ev evs ih =>
    simp only [publishAll, Prog.call_bind, obeys_step, Holder.allow, Holder.next,
      Option.some.injEq, forall_eq', forall_const, true_and]
    exact ih

theorem reloadSections_obeys (x : Codec) (h : Nat) (todo : List Sync.Work) (q : Holder) :
    Obeys registryStates q (reloadSections x h todo) fun q' _ => q' = q := by
  induction todo with
  | nil => rfl
  | cons w todo ih =>
    cases w <;> simp [reloadSections, Obeys, Holder.allow, Holder.next, Option.forall, ih]

theorem pollOnce_obeys (x : Codec) (h : Nat) (q : Holder) :
    Obeys registryStates q (pollOnce x h) fun q' _ => q' = q := by
  simp only [pollOnce, Prog.call_bind, obeys_step, Holder.allow, Holder.next,
    Option.some.injEq, forall_eq', forall_const, true_and, Bool.forall_bool, if_true,
    Bool.false_eq_true, if_false]
  refine ⟨?_, by simp⟩
  rintro (_ | p)
  · simp [Obeys, Holder.allow, Holder.next]
  · simp only [obeys_step, Holder.allow, Holder.next, Option.some.injEq, forall_eq',
      forall_const, true_and, Bool.forall_bool, if_true, Bool.false_eq_true, if_false]
    refine ⟨fun events => ?_, by simp⟩
    apply obeys_bind.mpr
    apply (publishAll_obeys h events q).mono
    rintro _ - rfl
    simp only [obeys_step, Holder.allow, Holder.next, Option.some.injEq, forall_eq',
      forall_const, true_and]
    apply obeys_bind.mpr
    apply (reloadSections_obeys x h p.work _).mono
    rintro _ (_ | _) rfl
    · simp [Obeys, Holder.allow, Holder.next]
    · simp [Obeys, Holder.allow, Holder.next]

theorem collectWatermarks_obeys (hs : List Nat) (q : Holder) :
    Obeys registryStates q (collectWatermarks hs) fun q' _ => q' = q := by
  induction hs with
  | nil => rfl
  | cons h hs ih =>
    simp only [collectWatermarks, Prog.call_bind, obeys_step, Holder.allow, Holder.next,
      Option.some.injEq, forall_eq', true_and]
    intro wms
    apply obeys_bind.mpr
    apply ih.mono
    rintro _ rest rfl
    rfl

theorem currentWatermarks_obeys : Obeys registryStates {} currentWatermarks fun q _ => q = {} := by
  simp only [currentWatermarks, Prog.call_bind, obeys_step, Holder.allow, Holder.next,
    Option.some.injEq, forall_eq', forall_const, true_and]
  intro hs
  apply obeys_bind.mpr
  apply (collectWatermarks_obeys hs _).mono
  rintro _ wms rfl
  rfl

theorem sseFrom_obeys (since frames : Nat) :
    Obeys registryStates {} (sseFrom since frames) fun q _ => q = {} := by
  refine sseFrom_keeps (fun q ins hq hStreams => ?_) (fun q hq => ?_) since frames rfl
  · cases ins <;> simp [Instr.streams, Holder.allow, Holder.next, hq] at hStreams ⊢
  · rw [hq]
    exact currentWatermarks_obeys

theorem dropAccount_obeys (h : Nat) (previous : AccountStatus) (purgeMedia : Bool) :
    Obeys registryStates {} (dropAccount h previous purgeMedia) fun q _ => q = {} := by
  simp only [dropAccount, Prog.call_bind, obeys_step, Holder.allow, Holder.next,
    Option.some.injEq, forall_eq', forall_const, true_and]
  rintro ⟨talkers, indexCleared⟩
  apply obeys_bind.mpr
  apply currentWatermarks_obeys.mono
  rintro _ ⟨wms, hs⟩ rfl
  cases purgeMedia with
  | true => simp [Obeys, Holder.allow, Holder.next]
  | false => simp [Obeys, Holder.allow, Holder.next]

theorem deregisterAccount_obeys (wxid : String) (purgeMedia : Bool) :
    Obeys registryStates {} (deregisterAccount wxid purgeMedia) fun q _ => q = {} := by
  simp only [deregisterAccount, Prog.call_bind, obeys_step, Holder.allow, Holder.next,
    Option.some.injEq, forall_eq', forall_const, true_and]
  rintro (_ | ⟨name, h⟩)
  · simp [Obeys, Holder.allow, Holder.next]
  · by_cases hName : name = wxid
    · subst hName
      -- what was taken out is stopped before anything else happens to it
      have hOwed : [h].filter (fun h' => decide (h' ≠ h)) = [] := by simp
      simp only [ne_eq, not_true_eq_false, if_false, obeys_step, Holder.allow, Holder.next,
        Holder.target, Option.some.injEq, forall_eq', forall_const, true_and, Prod.mk.injEq,
        exists_eq', and_self, List.append_nil]
      simp only [ne_eq] at hOwed
      rintro previous (_ | task)
      · rw [hOwed]
        exact dropAccount_obeys h previous purgeMedia
      · simp only [hOwed, obeys_step, Holder.allow, Holder.next, Option.some.injEq, forall_eq',
          forall_const, true_and]
        exact dropAccount_obeys h previous purgeMedia
    · simp [hName, Obeys, Holder.allow, Holder.next]

/-- Every task obeys the protocol, and returns without the lock and without a debt. -/
theorem registry_code (x : Codec) (c : Task) :
    Obeys registryStates {} (c.code x) fun q _ => q = {} := by
  cases c with
  | registerAccount wxid => exact registerAccount_obeys wxid
  | buildTask h => exact buildTask_obeys h {}
  | pollOnce h => exact pollOnce_obeys x h {}
  | deregisterAccount wxid purgeMedia => exact deregisterAccount_obeys wxid purgeMedia
  | sseFrom since frames => exact sseFrom_obeys since frames

/-! ## Requests that are not carried out -/

/-- The instructions that can change more than the lock of the registry. -/
def Instr.touches : Instr → Bool
  | .lockAccounts => false
  | .unlockAccounts => false
  | .bound => false
  | .handle _ .status => false
  | _ => true

theorem exec_of_not_touches {i : Nat} {io : Io} {ins : Instr} {s s' : AppState} {a : ins.Ans}
    (hExec : exec i io ins s = some (s', a)) (hTouches : ins.touches = false) :
    s' = { s with accountsOwner := s'.accountsOwner } := by
  cases ins with
  | handle h op =>
    obtain ⟨y, y', hy, hOp, rfl⟩ := exec_handle hExec
    cases op with
    | status =>
      simp only [HandleOp.exec, Option.some.injEq, Prod.mk.injEq] at hOp
      obtain ⟨rfl, -⟩ := hOp
      obtain ⟨hLt, rfl⟩ := List.getElem?_eq_some_iff.mp hy
      rw [List.set_getElem_self]
    | _ => cases hTouches
  | lockAccounts =>
    simp only [exec, Option.ite_none_right_eq_some, Option.some.injEq, Prod.mk.injEq] at hExec
    rw [← hExec.2.1]
  | unlockAccounts =>
    simp only [exec, Option.some.injEq, Prod.mk.injEq] at hExec
    rw [← hExec.1]
  | bound =>
    simp only [exec, Option.some.injEq, Prod.mk.injEq] at hExec
    rw [hExec.1]
  | _ => cases hTouches

/-- The program is not rejected once it has touched anything. -/
def Frugal : Code Outcome → Prop
  | .ret _ => True
  | .step ins k =>
    (ins.touches = true → ∀ a, (k a).Results fun o => o.rejected = false) ∧ ∀ a, Frugal (k a)

theorem Frugal.of_results {p : Code Outcome} (h : p.Results fun o => o.rejected = false) :
    Frugal p := by
  induction p with
  | ret o => trivial
  | step ins k ih => exact ⟨fun _ => h, fun a => ih a (h a)⟩

theorem send_results {P : Outcome → Prop} {frame : Sse.Frame} {next : Code Outcome}
    (hStreamed : P .streamed) (hNext : next.Results P) : (send frame next).Results P := by
  rintro (_ | _)
  · exact hNext
  · exact fun _ => hStreamed

theorem sseFrom_results {P : Outcome → Prop} (hStreamed : P .streamed) (since frames : Nat) :
    (sseFrom since frames).Results P := by
  have hLive : ∀ frames rx, (streamLive frames rx).Results P := by
    intro frames
    induction frames with
    | zero => exact fun _ _ => hStreamed
    | succ frames ih =>
      rintro rx ⟨item, rx'⟩
      cases item with
      | item a => exact send_results hStreamed (ih rx')
      | lagged n =>
        show Prog.Results P (currentWatermarks >>= _)
        exact Prog.results_bind fun ⟨_, _⟩ => send_results hStreamed (ih rx')
      | empty => exact ih rx'
  rintro ⟨rx, replay⟩
  apply send_results hStreamed
  induction replay with
  | nil => exact Prog.results_bind fun ⟨_, _⟩ => send_results hStreamed (hLive frames rx)
  | cons a rest ih => exact send_results hStreamed ih

theorem buildTask_results {P : Outcome → Prop} (hBuilt : P .built) (h : Nat) :
    (buildTask h).Results P := by
  refine Prog.results_bind fun ok => ?_
  rintro (_ | _)
  · cases ok with
    | true =>
      intro _
      show Prog.Results P (publishWatermarkBaseline h >>= _)
      refine Prog.results_bind fun _ => ?_
      rintro task (_ | _) _ <;> exact hBuilt
    | false => exact fun _ => hBuilt
  · exact hBuilt

theorem pollOnce_results {P : Outcome → Prop} (hPolled : ∀ n, P (.polled n)) (x : Codec) (h : Nat) :
    (pollOnce x h).Results P := by
  rintro - (_ | _)
  · rintro (_ | p)
    · exact fun _ => hPolled _
    · rintro - (_ | _)
      · intro events
        show Prog.Results P (publishAll h events >>= _)
        refine Prog.results_bind fun _ _ => ?_
        show Prog.Results P (reloadSections x h p.work >>= _)
        refine Prog.results_bind fun finished => ?_
        cases finished with
        | true => exact fun _ _ _ _ => hPolled _
        | false => exact fun _ => hPolled _
      · exact fun _ _ => hPolled _
  · exact fun _ => hPolled _

theorem replaceAccount_results {P : Outcome → Prop} (hBound : ∀ h, P (.bound h)) (wxid : String) :
    (replaceAccount wxid).Results P := by
  rintro ⟨new, _ | old⟩
  · exact fun _ => hBound new
  · rintro - (_ | task)
    · exact fun _ => hBound new
    · exact fun _ _ => hBound new

theorem dropAccount_results {P : Outcome → Prop} {previous : AccountStatus}
    (hDone : ∀ c n, P (.deregistered previous c n)) (h : Nat) (purgeMedia : Bool) :
    (dropAccount h previous purgeMedia).Results P := by
  rintro - ⟨talkers, indexCleared⟩ - - -
  show Prog.Results P (currentWatermarks >>= _)
  refine Prog.results_bind fun ⟨wms, hs⟩ _ => ?_
  cases purgeMedia with
  | true => exact fun _ => hDone _ _
  | false => exact hDone _ _

theorem frugal_code (x : Codec) (c : Task) : Frugal (c.code x) := by
  cases c with
  | registerAccount wxid =>
    have hReplace : Frugal (replaceAccount wxid) :=
      .of_results (replaceAccount_results (fun _ => rfl) wxid)
    refine ⟨(nomatch ·), fun _ => ⟨(nomatch ·), ?_⟩⟩
    rintro (_ | ⟨name, h⟩)
    · exact hReplace
    · refine ⟨(nomatch ·), fun st => ?_⟩
      show Frugal (if name ≠ wxid then _ else if _ then _ else _)
      split
      · exact ⟨(nomatch ·), fun _ => trivial⟩
      · split
        · exact ⟨(nomatch ·), fun _ => trivial⟩
        · exact hReplace
  | buildTask h => exact .of_results (buildTask_results (P := fun o => o.rejected = false) rfl h)
  | pollOnce h => exact .of_results (pollOnce_results (fun _ => rfl) x h)
  | deregisterAccount wxid purgeMedia =>
    have hDrop : ∀ h previous, (dropAccount h previous purgeMedia).Results
        fun o => o.rejected = false :=
      fun h previous => dropAccount_results (fun _ _ => rfl) h purgeMedia
    refine ⟨(nomatch ·), fun _ => ⟨(nomatch ·), ?_⟩⟩
    rintro (_ | ⟨name, h⟩)
    · exact ⟨(nomatch ·), fun _ => trivial⟩
    · show Frugal (if name ≠ wxid then _ else _)
      split
      · exact ⟨(nomatch ·), fun st => ⟨(nomatch ·), fun _ => trivial⟩⟩
      · refine .of_results fun _ _ previous _ task => ?_
        cases task with
        | none => exact hDrop h previous
        | some task => exact fun _ => hDrop h previous
  | sseFrom since frames => exact .of_results (sseFrom_results (P := fun o => o.rejected = false) rfl since frames)

/-! ## Runs -/

section

variable {x : Codec} {good : Server → Op → Prop} {s t : Server}

/-- Every thread of a run keeps what its program promises. -/
theorem frugal_run (hRun : Runs.Run (step x) good s t)
    (hAll : ∀ (i : Nat) p, s.threads[i]? = some p → Frugal p) :
    ∀ (i : Nat) p, t.threads[i]? = some p → Frugal p := by
  refine (pool_invariant (J := fun _ _ => True) (A := fun _ _ p => Frugal p)
    (fun _ _ c _ => ⟨trivial, frugal_code x c⟩) ?_ ?_ hRun trivial hAll).2
  · intro s i io ins k s' a _ _ hAll hGet _
    exact ⟨trivial, (hAll i _ hGet).2 a⟩
  · intro s i io ins k s' a j p _ _ hAll _ _ _ hp
    exact hAll j p hp

/-- What is known of the results of a thread stays known. -/
theorem results_run {P : Outcome → Prop} {i : Nat} (hRun : Runs.Run (step x) good s t)
    (hLt : i < s.threads.length) (hResults : ∀ p, s.threads[i]? = some p → p.Results P) :
    ∀ p, t.threads[i]? = some p → p.Results P := by
  have hAll := (pool_invariant (J := fun n _ => i < n)
    (A := fun j _ p => j = i → Prog.Results P p) ?_ ?_ ?_ hRun hLt
    (fun j p hp hEq => hResults p (hEq ▸ hp))).2
  · exact fun p hp => hAll i p hp rfl
  · exact fun n _ _ hLt => ⟨Nat.lt_succ_of_lt hLt, fun hEq => absurd hEq (Nat.ne_of_gt hLt)⟩
  · intro s j io ins k s' a _ hLt hAll hGet _
    exact ⟨hLt, fun hEq => hAll j _ hGet hEq a⟩
  · intro s j io ins k s' a j' p _ _ hAll _ _ _ hp
    exact hAll j' p hp

theorem fresh_threads (i : Nat) (p : Code Outcome) : fresh.threads[i]? ≠ some p := by
  rw [fresh, List.getElem?_nil]
  exact (nomatch ·)

theorem registryInv_fresh : RegistryInv fresh.threads.length fresh.shared :=
  ⟨⟨Nat.zero_le _, fun e he => absurd he List.not_mem_nil,
    fun a ha => absurd ha List.not_mem_nil⟩, by simp [fresh], fun p hp => absurd hp List.not_mem_nil⟩

/-- A new thread holds nothing and owes nothing. -/
theorem RegistryInv.holderRel_new {n : Nat} {s : AppState} (hInv : RegistryInv n s) :
    HolderRel n s {} where
  holds := ⟨(nomatch ·), fun hOwner => absurd (hInv.owner_lt n hOwner) (lt_irrefl n)⟩
  sees := by simp
  owes h hh := absurd (hInv.retired_lt _ hh) (lt_irrefl n)

theorem RegistryInv.succ {n : Nat} {s : AppState} (hInv : RegistryInv n s) :
    RegistryInv (n + 1) s where
  toSingleBinding := hInv.toSingleBinding
  owner_lt i hi := Nat.lt_succ_of_lt (hInv.owner_lt i hi)
  retired_lt p hp := Nat.lt_succ_of_lt (hInv.retired_lt p hp)

/-- The registry in every run. -/
theorem registry_run (hRun : Runs.Run (step x) good fresh t) :
    RegistryInv t.threads.length t.shared ∧ ∀ i p, t.threads[i]? = some p →
      registryDiscipline.Keeps (fun q _ => q = {}) i t.shared p := by
  exact registryDiscipline.run
    (fun n s c hInv => ⟨hInv.succ, {}, hInv.holderRel_new, registry_code x c⟩) hRun
    registryInv_fresh (fun i p hp => absurd hp (fresh_threads i p))

/-- In every run at most one account is bound, under its own name, and an account that left the
registry is stopped when the call that took it out has returned. A call that is rejected changes
nothing but the owner of the lock, with any of its steps. -/
theorem single_binding (x : Codec) {t : Server} (hRun : Runs.Run (step x) (fun _ _ => True) fresh t) :
    SingleBinding t.shared ∧
    (∀ i h o, (i, h) ∈ t.shared.replaced ++ t.shared.removed → t.threads[i]? = some (.ret o) →
      t.shared.Stopped h) ∧
    ∀ m i io m' o, Runs.Run (step x) (fun _ _ => True) fresh m →
      step x m (.tick i io) = some m' → Runs.Run (step x) (fun _ _ => True) m' t →
      t.threads[i]? = some (.ret o) → o.rejected = true →
      m'.shared = { m.shared with accountsOwner := m'.shared.accountsOwner } := by
  obtain ⟨hInv, hThreads⟩ := registry_run hRun
  refine ⟨hInv.toSingleBinding, fun i h o hRetired hRet => ?_, ?_⟩
  · obtain ⟨q, hRel, rfl⟩ := hThreads i _ hRet
    exact (hRel.owes h hRetired).resolve_right List.not_mem_nil
  · intro m i io m' o hBefore hStep hAfter hRet hRejected
    obtain ⟨ins, k, s', a, hGet, hExec, rfl⟩ := tick_cases hStep
    have hLt := (List.getElem?_eq_some_iff.mp hGet).1
    by_cases hTouches : ins.touches = true
    · -- what follows is not rejected, so neither is the result
      have hFrugal := frugal_run hBefore (fun i p hp => absurd hp (fresh_threads i p)) i _ hGet
      have hResult := results_run hAfter (i := i) (P := fun o => o.rejected = false)
        (by rw [List.length_set]; exact hLt)
        (fun p hp => by
          rw [List.getElem?_set_self hLt] at hp
          obtain rfl := Option.some.inj hp
          exact hFrugal.1 hTouches a) _ hRet
      rw [Prog.results_ret, hRejected] at hResult
      cases hResult
    · exact exec_of_not_touches hExec (Bool.eq_false_iff.mpr hTouches)

/-- One account is registered, and another one deregistered. -/
def mismatchOps : List Op :=
  .start (.registerAccount "a") :: List.replicate 4 (.tick 0 {}) ++
    .start (.deregisterAccount "b" false) :: List.replicate 4 (.tick 1 {})

def mismatched : Server := (Runs.exec (step (.blank "")) anyOp fresh mismatchOps).getD fresh

theorem single_binding_mismatched : SingleBinding mismatched.shared ∧
    mismatched.threads[1]? = some (.ret (.wxidMismatch "a" .indexing)) ∧
    ∀ m io m', Runs.Run (step (.blank "")) (fun _ _ => True) fresh m →
      step (.blank "") m (.tick 1 io) = some m' →
      Runs.Run (step (.blank "")) (fun _ _ => True) m' mismatched →
      m'.shared = { m.shared with accountsOwner := m'.shared.accountsOwner } := by
  have hRun : Runs.Run (step (.blank "")) (fun _ _ => True) fresh mismatched :=
    Runs.run_of_exec mismatchOps (fun s op (_ : anyOp s op = true) => trivial) rfl
  obtain ⟨hSingle, -, hFrame⟩ := single_binding (.blank "") hRun
  exact ⟨hSingle, rfl, fun m io m' hBefore hStep hAfter =>
    hFrame m 1 io m' _ hBefore hStep hAfter rfl rfl⟩

end

end Weflow.Accounts
