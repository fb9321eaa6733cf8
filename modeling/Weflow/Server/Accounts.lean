import Weflow.Lib.Threads
import Weflow.Sync.Account
import Weflow.Server.PushEvents

/-!
# Accounts, their tasks and the subscribers

The process-wide state of `server/mod.rs` and the programs that run over it at the same time:
`register_account` with the build task of `start_account`, `poll_once`, `deregister_account`,
and the SSE stream of a subscriber with its frames serialized at the moment they are sent.

One instruction is one lock operation, one load or store of an atomic, or what is done while a
lock is held. Reads of databases and directories are answered by the environment (`Io`); they
touch nothing that is shared. A `HashMap` has no order, so the environment also says which
entry comes first.

The lists `published`, `delivered`, `captures`, `replaced` and `removed` and the flag `cleared`
record what happened, for the statements.
-/

namespace Weflow

/-- The watermarks of a sync event. -/
def Event.sync? : Event → Option Sse.Watermarks
  | .sync wms => some wms
  | _ => none

def Stamped.isSync (e : Stamped) : Bool := e.event.sync?.isSome

/-- The watermarks of a sync frame. -/
def Sse.Frame.sync? : Sse.Frame → Option Sse.Watermarks
  | .ready => none
  | .replay _ ev => ev.sync?
  | .baseline wms => some wms
  | .live _ ev => ev.sync?
  | .rebase wms => some wms

/-- `Store::is_empty`. -/
def Store.isEmpty (s : Store) : Bool := s.convs.entries.isEmpty && s.sessions.entries.isEmpty

/-- `guard.watermarks.clone().into_iter().collect()`. -/
def Store.watermarkList (s : Store) : Sse.Watermarks := s.watermarks.entries.map fun e => (e.1, e.2)

namespace Accounts

open Sse (Frame Watermarks)
open Threads

inductive AccountStatus
  | awaitingKey
  | indexing
  | ready
  | error
deriving DecidableEq, Repr

/-- The runtime state of a registered account. `writer` and `syncOwner` are the threads that hold
the write lock of the store and the mutex of the sync engine. -/
structure AccountHandle where
  wxid : String
  status : AccountStatus := .indexing
  store : Store := {}
  watcher : Option Nat := none
  stopped : Bool := false
  writer : Option Nat := none
  syncOwner : Option Nat := none
  /-- a deregistration has emptied the store -/
  cleared : Bool := false

/-- On whose behalf an event is published: a task of an account, or the reset of a
deregistration, with the accounts whose watermarks it carries. -/
inductive Producer
  | task (h : Nat)
  | reset (h : Nat) (sources : List Nat)
deriving DecidableEq, Repr

namespace Producer

/-- The accounts whose watermarks an event of the producer can carry. -/
def sources : Producer → List Nat
  | task h => [h]
  | reset _ hs => hs

end Producer

/-- One frame as it was sent: to whom, and the generation read when it was serialized. -/
structure Delivered where
  subscriber : Nat
  frame : Frame
  generation : Nat
deriving DecidableEq, Repr

/-- `AppState`. An account is known by the number of its handle. -/
structure AppState where
  accounts : Map Nat := ∅
  accountsOwner : Option Nat := none
  handles : List AccountHandle := []
  bus : EventBus
  generation : Nat := 1
  /-- the watcher tasks: their account, and whether they were aborted -/
  watchers : List (Nat × Bool) := []
  /-- every event published, with its producer -/
  published : List (Stamped × Producer) := []
  /-- every frame sent -/
  delivered : List Delivered := []
  /-- every watermark set read, with the generation at that moment -/
  captures : List (Nat × Watermarks) := []
  /-- every account that was replaced, with the thread that did so -/
  replaced : List (Nat × Nat) := []
  /-- every account that was removed, with the thread that did so -/
  removed : List (Nat × Nat) := []

/-! ## Instructions -/

/-- What the environment decides about one step. -/
structure Io where
  now : Nat := 0
  nowMs : Int := 0
  /-- the entry that comes first in the registry -/
  first : Nat := 0
  /-- the client of a subscriber is gone -/
  gone : Bool := false
  built : Option Store := none
  changes : Option Sync.Poll := none
  db : Option Db := none
  purged : Nat := 0

/-- Instructions on one account. -/
inductive HandleOp
  | status
  | setStatus (status : AccountStatus)
  | stop
  | isStopped
  | takeWatcher
  | setWatcher (task : Nat)
  | lockSync
  | unlockSync
  | lockStore
  | unlockStore
  | modify (f : Store → Store)
  | markIndexBuilt
  | apply (p : Sync.Poll)
  | clear (purge : Bool)

@[reducible] def HandleOp.Ans : HandleOp → Type
  | .status => AccountStatus
  | .isStopped => Bool
  | .takeWatcher => Option Nat
  | .apply _ => List Event
  | .clear _ => List String × Bool
  | _ => Unit

inductive Instr
  | handle (h : Nat) (op : HandleOp)
  /-- the registry -/
  | lockAccounts
  | unlockAccounts
  | bound
  | insert (wxid : String)
  | remove (wxid : String)
  | readyHandles
  /-- what the environment answers -/
  | buildAllLive (h : Nat)
  | readChanges (h : Nat)
  | getOrOpen (h : Nat) (w : Sync.Work)
  | purgeExportedMedia (talkers : List String)
  /-- watcher tasks -/
  | spawnWatcher (h : Nat)
  | abort (task : Nat)
  /-- the bus and the generation -/
  | watermarks (h : Nat)
  | publish (producer : Producer) (event : Event)
  | clearHistory
  | bumpGeneration
  /-- subscribers -/
  | subscribe (since : Nat)
  | unsubscribe
  | recv (rx : Nat)
  | deliver (frame : Frame)

@[reducible] def Instr.Ans : Instr → Type
  | .handle _ op => op.Ans
  | .bound => Option (String × Nat)
  | .insert _ => Nat × Option Nat
  | .readyHandles => List Nat
  | .buildAllLive _ => Option Store
  | .readChanges _ => Option Sync.Poll
  | .getOrOpen _ _ => Option Db
  | .purgeExportedMedia _ => Nat
  | .spawnWatcher _ => Nat
  | .watermarks _ => Watermarks
  | .subscribe _ => Nat × List Stamped
  | .recv _ => Broadcast.RingBuffer.Recv Stamped × Nat
  | .deliver _ => Bool
  | _ => Unit

/-- What thread `i` does to an account. Whoever does not hold a lock that is taken waits. -/
def HandleOp.exec (i : Nat) (io : Io) (a : AccountHandle) :
    (op : HandleOp) → Option (AccountHandle × op.Ans)
  | .status => some (a, a.status)
  | .setStatus st => some ({ a with status := st }, ())
  | .stop => some ({ a with stopped := true }, ())
  | .isStopped => some (a, a.stopped)
  | .takeWatcher => some ({ a with watcher := none }, a.watcher)
  | .setWatcher task => some ({ a with watcher := some task }, ())
  | .lockSync => if a.syncOwner = none then some ({ a with syncOwner := some i }, ()) else none
  | .unlockSync => some ({ a with syncOwner := none }, ())
  | .lockStore => if a.writer = none then some ({ a with writer := some i }, ()) else none
  | .unlockStore => some ({ a with writer := none }, ())
  | .modify f => some ({ a with store := f a.store }, ())
  | .markIndexBuilt => some ({ a with store := a.store.markIndexBuilt io.nowMs }, ())
  | .apply p => some ({ a with store := (p.applyTo a.store).1 }, (p.applyTo a.store).2)
  | .clear purge =>
    some ({ a with store := {}, cleared := true },
      if purge then a.store.convs.keys else [], !a.store.isEmpty)

namespace AppState

/-- `bound_account`: the entry that comes first, with the name its handle has. -/
def bound (s : AppState) (first : Nat) : Option (String × Nat) :=
  (s.accounts.entries[first % s.accounts.entries.length]?).bind fun e =>
    (s.handles[e.2]?).map fun a => (a.wxid, e.2)

/-- `bus.publish`. -/
def publish (s : AppState) (now : Nat) (producer : Producer) (event : Event) : AppState :=
  { s with
    bus := (s.bus.publish now event).1
    published := s.published ++ [(⟨(s.bus.publish now event).2, event⟩, producer)] }

@[simp] theorem publish_removed (s : AppState) (now : Nat) (producer : Producer) (event : Event) :
    (s.publish now producer event).removed = s.removed := by
  rw [publish]

@[simp] theorem publish_history (s : AppState) (now : Nat) (producer : Producer)
    (event : Event) : (s.publish now producer event).bus.history =
      s.bus.history.append now event := by
  rw [publish, EventBus.publish]

@[simp] theorem publish_published (s : AppState) (now : Nat) (producer : Producer)
    (event : Event) : (s.publish now producer event).published =
      s.published ++ [(⟨s.bus.history.lastId + 1, event⟩, producer)] := by
  rw [publish, EventBus.publish, HistoryBuf.lastId_append]

@[simp] theorem publish_delivered (s : AppState) (now : Nat) (producer : Producer)
    (event : Event) : (s.publish now producer event).delivered = s.delivered := by
  rw [publish]

/-- The ready accounts of the registry. -/
def readyHandles (s : AppState) : List Nat :=
  (s.accounts.entries.map fun e => e.2).filter fun h =>
    (s.handles[h]?).any fun a => a.status = .ready

end AppState

/-- What thread `i` does to the state. -/
def exec (i : Nat) (io : Io) : (ins : Instr) → AppState → Option (AppState × ins.Ans)
  | .handle h op, s =>
    match s.handles[h]? with
    | some a => (op.exec i io a).map fun r => ({ s with handles := s.handles.set h r.1 }, r.2)
    | none => none
  | .lockAccounts, s =>
    if s.accountsOwner = none then some ({ s with accountsOwner := some i }, ()) else none
  | .unlockAccounts, s => some ({ s with accountsOwner := none }, ())
  | .bound, s => some (s, s.bound io.first)
  | .insert wxid, s =>
    let old := s.accounts.lookup wxid
    some ({ s with
      accounts := s.accounts.insert wxid s.handles.length
      handles := s.handles ++ [{ wxid }]
      replaced := s.replaced ++ (old.map fun h => (i, h)).toList }, (s.handles.length, old))
  | .remove wxid, s =>
    some ({ s with
      accounts := s.accounts.erase wxid
      removed := s.removed ++ ((s.accounts.lookup wxid).map fun h => (i, h)).toList }, ())
  | .readyHandles, s =>
    let hs := s.readyHandles
    some ({ s with
      captures := if hs = [] then s.captures ++ [(s.generation, [])] else s.captures }, hs)
  | .buildAllLive _, s => some (s, io.built)
  | .readChanges _, s => some (s, io.changes)
  | .getOrOpen _ _, s => some (s, io.db)
  | .purgeExportedMedia _, s => some (s, io.purged)
  | .spawnWatcher h, s => some ({ s with watchers := s.watchers ++ [(h, false)] }, s.watchers.length)
  | .abort task, s =>
    some ({ s with watchers := s.watchers.modify task fun w => (w.1, true) }, ())
  | .watermarks h, s =>
    match s.handles[h]? with
    | some a =>
      if a.writer = none ∨ a.writer = some i then
        some ({ s with captures := s.captures ++ [(s.generation, a.store.watermarkList)] },
          a.store.watermarkList)
      else none
    | none => none
  | .publish producer event, s => some (s.publish io.now producer event, ())
  | .clearHistory, s => some ({ s with bus := s.bus.clearHistory }, ())
  | .bumpGeneration, s => some ({ s with generation := s.generation + 1 }, ())
  | .subscribe since, s =>
    let (bus, rx, replay) := s.bus.subscribeWithReplay io.now since
    some ({ s with bus }, (rx, replay))
  | .unsubscribe, s => some ({ s with bus := { s.bus with tx := s.bus.tx.unsubscribe } }, ())
  | .recv rx, s => some (s, s.bus.tx.recv rx)
  | .deliver frame, s =>
    if io.gone then some (s, true)
    else some ({ s with delivered := s.delivered ++ [⟨i, frame, s.generation⟩] }, false)

/-! ## What an instruction changes -/

namespace HandleOp

variable {i : Nat} {io : Io} {x x' : AccountHandle} {op : HandleOp} {a : op.Ans}

theorem wxid_exec (h : op.exec i io x = some (x', a)) : x'.wxid = x.wxid := by
  cases op <;> simp only [exec, Option.ite_none_right_eq_some, Option.some.injEq,
    Prod.mk.injEq] at h <;> grind

/-- Only a store to the status changes it. -/
theorem status_exec (h : op.exec i io x = some (x', a)) :
    x'.status = x.status ∨ op = .setStatus x'.status := by
  cases op <;> simp only [exec, Option.ite_none_right_eq_some, Option.some.injEq,
    Prod.mk.injEq] at h <;> grind

/-- Only `clear` marks an account as emptied. -/
theorem cleared_exec (h : op.exec i io x = some (x', a)) :
    x'.cleared = x.cleared ∨ ∃ purge, op = .clear purge := by
  cases op <;> simp only [exec, Option.ite_none_right_eq_some, Option.some.injEq,
    Prod.mk.injEq] at h <;> grind

/-- Only the two lock operations change the writer. -/
theorem writer_exec (h : op.exec i io x = some (x', a)) :
    x'.writer = x.writer ∨ (op = .lockStore ∧ x.writer = none ∧ x'.writer = some i) ∨
      op = .unlockStore := by
  cases op <;> simp only [exec, Option.ite_none_right_eq_some, Option.some.injEq,
    Prod.mk.injEq] at h <;> grind

/-- What changes a store: the writes of the sync engine, and the deregistration. -/
def writes : HandleOp → Bool
  | .modify _ => true
  | .markIndexBuilt => true
  | .apply _ => true
  | _ => false

theorem store_exec (h : op.exec i io x = some (x', a)) :
    x'.store = x.store ∨ op.writes = true ∨ ((∃ purge, op = .clear purge) ∧ x'.store = {}) := by
  cases op <;> simp only [exec, Option.ite_none_right_eq_some, Option.some.injEq,
    Prod.mk.injEq] at h <;> grind [writes]

/-- The flag is never taken back. -/
theorem stopped_exec (h : op.exec i io x = some (x', a)) (hStopped : x.stopped = true) :
    x'.stopped = true := by
  cases op <;> simp only [exec, Option.ite_none_right_eq_some, Option.some.injEq,
    Prod.mk.injEq] at h <;> grind

end HandleOp

/-- An instruction on one account changes that account alone. -/
theorem exec_handle {i : Nat} {io : Io} {h : Nat} {op : HandleOp} {s s' : AppState} {a : op.Ans}
    (hExec : exec i io (.handle h op) s = some (s', a)) :
    ∃ x x', s.handles[h]? = some x ∧ op.exec i io x = some (x', a) ∧
      s' = { s with handles := s.handles.set h x' } := by
  simp only [exec] at hExec
  split at hExec
  · rename_i x hx
    obtain ⟨⟨x', a'⟩, hOp, hEq⟩ := Option.map_eq_some_iff.mp hExec
    cases hEq
    exact ⟨x, x', hx, hOp, rfl⟩
  · cases hExec

/-- An account is changed by the instructions on it alone. -/
theorem account_exec {i : Nat} {io : Io} {ins : Instr} {s s' : AppState} {a : ins.Ans}
    (hExec : exec i io ins s = some (s', a)) {h : Nat} {x : AccountHandle}
    (hx : s.handles[h]? = some x) :
    ∃ x', s'.handles[h]? = some x' ∧
      (x' = x ∨ ∃ (op : HandleOp) (b : op.Ans), ins = .handle h op ∧
        op.exec i io x = some (x', b)) := by
  cases ins with
  | handle h' op =>
    obtain ⟨y, y', hy, hOp, rfl⟩ := exec_handle hExec
    have hLt := (List.getElem?_eq_some_iff.mp hy).1
    by_cases hEq : h' = h
    · subst hEq
      obtain rfl : y = x := Option.some.inj (hy.symm.trans hx)
      exact ⟨y', List.getElem?_set_self hLt, .inr ⟨op, a, rfl, hOp⟩⟩
    · exact ⟨x, by rw [List.getElem?_set_ne hEq, hx], .inl rfl⟩
  | insert wxid =>
    have hLt := (List.getElem?_eq_some_iff.mp hx).1
    simp only [exec, Option.some.injEq, Prod.mk.injEq] at hExec
    obtain ⟨rfl, -⟩ := hExec
    exact ⟨x, by rw [List.getElem?_append_left hLt, hx], .inl rfl⟩
  | _ => exact ⟨x, by grind [exec, AppState.publish], .inl rfl⟩

/-- Where an account comes from. -/
theorem exists_account {i : Nat} {io : Io} {ins : Instr} {s s' : AppState} {a : ins.Ans}
    (hExec : exec i io ins s = some (s', a)) {h : Nat} {x' : AccountHandle}
    (hx : s'.handles[h]? = some x') :
    (∃ x, s.handles[h]? = some x) ∨ ∃ wxid, ins = .insert wxid ∧ x' = { wxid } := by
  cases ins with
  | handle h' op =>
    obtain ⟨y, y', hy, hOp, rfl⟩ := exec_handle hExec
    have hLt := (List.getElem?_eq_some_iff.mp hx).1
    rw [List.length_set] at hLt
    exact .inl ⟨_, List.getElem?_eq_getElem hLt⟩
  | insert wxid =>
    simp only [exec, Option.some.injEq, Prod.mk.injEq] at hExec
    obtain ⟨rfl, -⟩ := hExec
    by_cases hLt : h < s.handles.length
    · exact .inl ⟨_, List.getElem?_eq_getElem hLt⟩
    · rw [List.getElem?_append_right (Nat.le_of_not_lt hLt)] at hx
      exact .inr ⟨wxid, rfl, List.mem_singleton.mp (List.mem_of_getElem? hx)⟩
  | _ => exact .inl ⟨x', by grind [exec, AppState.publish]⟩

/-! ## Programs -/

/-- What a program returns. -/
inductive Outcome
  | bound (h : Nat)
  | existing (h : Nat)
  | occupied (wxid : String) (status : AccountStatus)
  | deregistered (previous : AccountStatus) (indexCleared : Bool) (purgedDirs : Nat)
  | notRegistered
  | wxidMismatch (occupiedBy : String) (status : AccountStatus)
  | built
  | polled (applied : Nat × Nat)
  | streamed
deriving DecidableEq, Repr

namespace Outcome

/-- The answers that report a request that was not carried out. -/
def rejected : Outcome → Bool
  | existing _ => true
  | occupied _ _ => true
  | notRegistered => true
  | wxidMismatch _ _ => true
  | _ => false

end Outcome

abbrev Code := Prog Instr Instr.Ans

abbrev handle (h : Nat) (op : HandleOp) : Code op.Ans := Prog.call (Instr.handle h op)

abbrev call (ins : Instr) : Code ins.Ans := Prog.call ins

/-- The end of `register_account`, still under the lock: the new entry goes in, and the account
it replaces is retired. -/
def replaceAccount (wxid : String) : Code Outcome := do
  let (new, old) ← call (.insert wxid)
  match old with
  | some old =>
    handle old .stop
    let task : Option Nat ← handle old .takeWatcher
    match task with
    | some task => call (.abort task)
    | none => pure ()
  | none => pure ()
  call .unlockAccounts
  return .bound new

/-- `register_account`. An account of the same name is replaced if its status is `error`. -/
def registerAccount (wxid : String) : Code Outcome := do
  call .lockAccounts
  let incumbent : Option (String × Nat) ← call .bound
  match incumbent with
  | some (name, h) =>
    let status : AccountStatus ← handle h .status
    if name ≠ wxid then
      call .unlockAccounts
      return .occupied name status
    else if status = .ready ∨ status = .indexing then
      call .unlockAccounts
      return .existing h
    else replaceAccount wxid
  | none => replaceAccount wxid

/-- `full_sync`; whether it succeeded. -/
def fullSync (h : Nat) : Code Bool := do
  handle h .lockSync
  let store : Option Store ← call (.buildAllLive h)
  match store with
  | none =>
    handle h .unlockSync
    return false
  | some store =>
    let stopped : Bool ← handle h .isStopped
    if stopped then
      handle h .unlockSync
      return true
    else
      handle h .lockStore
      handle h (.modify fun _ => store)
      handle h .markIndexBuilt
      handle h .unlockStore
      handle h .unlockSync
      return true

/-- `publish_watermark_baseline`. -/
def publishWatermarkBaseline (h : Nat) : Code Unit := do
  handle h .lockStore
  let cancelled : Bool ← handle h .isStopped
  if cancelled then handle h .unlockStore
  else
    let wms : Watermarks ← call (.watermarks h)
    call (.publish (.task h) (.sync wms))
    handle h .unlockStore

/-- The build task of `start_account`. -/
def buildTask (h : Nat) : Code Outcome := do
  let ok ← fullSync h
  let stopped : Bool ← handle h .isStopped
  if stopped then return .built
  else if ok then
    handle h (.setStatus .ready)
    publishWatermarkBaseline h
    let task : Nat ← call (.spawnWatcher h)
    let stopped : Bool ← handle h .isStopped
    if stopped then call (.abort task) else handle h (.setWatcher task)
    return .built
  else
    handle h (.setStatus .error)
    return .built

/-- The publications of phase 2. -/
def publishAll (h : Nat) : List Event → Code Unit
  | [] => pure ()
  | ev :: evs => do
    call (.publish (.task h) ev)
    publishAll h evs

/-- Phase 3; whether it came to its end. -/
def reloadSections (x : Codec) (h : Nat) : List Sync.Work → Code Bool
  | [] => pure true
  | w :: todo => do
    let stopped : Bool ← handle h .isStopped
    if stopped then return false
    else
      match w with
      | .messages _ => reloadSections x h todo
      | w =>
        let db : Option Db ← call (.getOrOpen h w)
        match db with
        | some db =>
          handle h .lockStore
          handle h (.modify (Sync.reloadSection x w db))
          handle h .unlockStore
          reloadSections x h todo
        | none => reloadSections x h todo

/-- `poll_once`. The classification and phase 1 only read: their result is `readChanges`, none
if nothing changed or a read failed. Phase 4 keeps books on the files alone. -/
def pollOnce (x : Codec) (h : Nat) : Code Outcome := do
  handle h .lockSync
  let stopped : Bool ← handle h .isStopped
  if stopped then
    handle h .unlockSync
    return .polled (0, 0)
  else
    let changes : Option Sync.Poll ← call (.readChanges h)
    match changes with
    | none =>
      handle h .unlockSync
      return .polled (0, 0)
    | some p =>
      handle h .lockStore
      let stopped : Bool ← handle h .isStopped
      if stopped then
        handle h .unlockStore
        handle h .unlockSync
        return .polled (0, 0)
      else
        let events : List Event ← handle h (.apply p)
        publishAll h events
        handle h .unlockStore
        let finished ← reloadSections x h p.work
        if finished then
          handle h .lockStore
          handle h .markIndexBuilt
          handle h .unlockStore
        handle h .unlockSync
        return .polled (Sync.appliedCounts events)

/-- The read half of `current_watermarks`. -/
def collectWatermarks : List Nat → Code Watermarks
  | [] => pure []
  | h :: hs => do
    let wms : Watermarks ← call (.watermarks h)
    let rest ← collectWatermarks hs
    return wms ++ rest

/-- `current_watermarks`, with the accounts that were read. -/
def currentWatermarks : Code (Watermarks × List Nat) := do
  call .lockAccounts
  let hs : List Nat ← call .readyHandles
  call .unlockAccounts
  let wms ← collectWatermarks hs
  return (wms, hs)

/-- Steps 4 and 5 of `deregister_account`, for the account that was taken out and stopped: the
index is dropped, and then the history is cleared and the reset published. -/
def dropAccount (h : Nat) (previous : AccountStatus) (purgeMedia : Bool) : Code Outcome := do
  handle h .lockStore
  let (talkers, indexCleared) ← handle h (.clear purgeMedia)
  handle h .unlockStore
  call .clearHistory
  call .bumpGeneration
  let (wms, hs) ← currentWatermarks
  call (.publish (.reset h hs) (.sync wms))
  let purged : Nat ← if purgeMedia then call (.purgeExportedMedia talkers) else pure 0
  return .deregistered previous indexCleared purged

/-- `deregister_account`. -/
def deregisterAccount (wxid : String) (purgeMedia : Bool) : Code Outcome := do
  call .lockAccounts
  let incumbent : Option (String × Nat) ← call .bound
  match incumbent with
  | none =>
    call .unlockAccounts
    return .notRegistered
  | some (name, h) =>
    if name ≠ wxid then
      let status : AccountStatus ← handle h .status
      call .unlockAccounts
      return .wxidMismatch name status
    else
      call (.remove wxid)
      call .unlockAccounts
      let previous : AccountStatus ← handle h .status
      handle h .stop
      let task : Option Nat ← handle h .takeWatcher
      match task with
      | some task => call (.abort task)
      | none => pure ()
      dropAccount h previous purgeMedia

/-- The connection ends and its receiver is dropped. -/
def hangUp : Code Outcome := do
  call .unsubscribe
  return .streamed

/-- One frame, and what follows if the client is still there. -/
def send (frame : Frame) (next : Code Outcome) : Code Outcome := do
  let gone : Bool ← call (.deliver frame)
  if gone then hangUp else next

def streamReplay (next : Code Outcome) : List Stamped → Code Outcome
  | [] => next
  | a :: rest => send (.replay a.id a.event) (streamReplay next rest)

/-- The live loop of `sse_from`, for at most `frames` turns. -/
def streamLive (frames rx : Nat) : Code Outcome :=
  match frames with
  | 0 => hangUp
  | frames + 1 => do
    let (item, rx) ← call (.recv rx)
    match item with
    | .item a => send (.live a.id a.event) (streamLive frames rx)
    | .lagged _ =>
      let (wms, _) ← currentWatermarks
      send (.rebase wms) (streamLive frames rx)
    | .empty => streamLive frames rx

/-- `sse_from`. The loop has no end of its own; a connection takes any number of turns. -/
def sseFrom (since frames : Nat) : Code Outcome := do
  let (rx, replay) ← call (.subscribe since)
  let live : Code Outcome := do
    let (wms, _) ← currentWatermarks
    send (.baseline wms) (streamLive frames rx)
  send .ready (streamReplay live replay)

/-- The instructions of a stream beside those of `current_watermarks`. -/
def Instr.streams : Instr → Bool
  | .subscribe _ => true
  | .unsubscribe => true
  | .recv _ => true
  | .deliver _ => true
  | _ => false

/-- The rule for a stream: what its instructions and `current_watermarks` keep, it keeps. -/
theorem sseFrom_keeps {P : Typestate Instr Instr.Ans} {Q : P.State → Prop}
    (hStep : ∀ q ins, Q q → ins.streams = true →
      P.allow q ins ∧ ∀ a q', P.next q ins a = some q' → Q q')
    (hRead : ∀ q, Q q → Obeys P q currentWatermarks fun q' _ => Q q') (since frames : Nat)
    {q : P.State} (hq : Q q) : Obeys P q (sseFrom since frames) fun q' _ => Q q' := by
  have hHangUp : ∀ q, Q q → Obeys P q hangUp fun q' _ => Q q' := fun q hq => hStep q _ hq rfl
  have hSend : ∀ frame next, (∀ q, Q q → Obeys P q next fun q' _ => Q q') →
      ∀ q, Q q → Obeys P q (send frame next) fun q' _ => Q q' := by
    intro frame next hNext q hq
    rw [send, Prog.call_bind, obeys_step]
    refine ⟨(hStep q _ hq rfl).1, fun gone q' hq' => ?_⟩
    have hKept := (hStep q _ hq rfl).2 gone q' hq'
    cases gone with
    | true => exact hHangUp q' hKept
    | false => exact hNext q' hKept
  have hLive : ∀ frames rx q, Q q → Obeys P q (streamLive frames rx) fun q' _ => Q q' := by
    intro frames
    induction frames with
    | zero => exact fun _ q hq => hHangUp q hq
    | succ frames ih =>
      intro rx q hq
      rw [streamLive, Prog.call_bind, obeys_step]
      refine ⟨(hStep q _ hq rfl).1, ?_⟩
      rintro ⟨item, rx'⟩ q' hq'
      have hKept := (hStep q _ hq rfl).2 _ q' hq'
      cases item with
      | item a => exact hSend _ _ (ih rx') q' hKept
      | lagged n =>
        apply obeys_bind.mpr
        apply (hRead q' hKept).mono
        exact fun q'' _ hq'' => hSend _ _ (ih rx') q'' hq''
      | empty => exact ih rx' q' hKept
  rw [sseFrom, Prog.call_bind, obeys_step]
  refine ⟨(hStep q _ hq rfl).1, ?_⟩
  rintro ⟨rx, replay⟩ q' hq'
  have hKept := (hStep q _ hq rfl).2 _ q' hq'
  clear hq'
  refine hSend _ _ ?_ q' hKept
  induction replay with
  | nil =>
    intro q hq
    apply obeys_bind.mpr
    apply (hRead q hq).mono
    exact fun q' _ hq' => hSend _ _ (hLive frames rx) q' hq'
  | cons a rest ih => exact hSend _ _ ih

/-- What can be started, at any time and for any account: a request or a task. -/
inductive Task
  | registerAccount (wxid : String)
  | buildTask (h : Nat)
  | pollOnce (h : Nat)
  | deregisterAccount (wxid : String) (purgeMedia : Bool)
  | sseFrom (since frames : Nat)

def Task.code (x : Codec) : Task → Code Outcome
  | .registerAccount wxid => Accounts.registerAccount wxid
  | .buildTask h => Accounts.buildTask h
  | .pollOnce h => Accounts.pollOnce x h
  | .deregisterAccount wxid purgeMedia => Accounts.deregisterAccount wxid purgeMedia
  | .sseFrom since frames => Accounts.sseFrom since frames

/-- The server with its running programs. -/
abbrev Server := Pool AppState Instr Instr.Ans Outcome

abbrev Op := Threads.Event Task Io

def step (x : Codec) : Server → Op → Option Server := Pool.step exec (Task.code x)

/-- `AppState::EVENT_BUS_CAPACITY`. -/
def eventBusCapacity : Nat := 1024

theorem eventBusCapacity_pos : 0 < eventBusCapacity := by decide

/-- A server that has just started. -/
def fresh : Server := ⟨{ bus := .new eventBusCapacity eventBusCapacity_pos }, []⟩

/-- The check of an event list that leaves every event free. -/
def anyOp (_ : Server) (_ : Op) : Bool := true

end Accounts

end Weflow
