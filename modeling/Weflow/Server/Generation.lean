import Weflow.Server.Retired

/-!
# The generation of sync frames

A sync frame carries the generation that is current when it is serialized, while its watermarks
were read when the event was published or the baseline collected. `Carrier` is what a thread
carries from the one to the other: the watermark sets it read or received, and where its
receiver stands. A deregistration advances the generation without waiting for the sets that are
still on their way; `QuietBumps` says that there are none, and `stale_sync_frame` shows one. A reader that
listed an account reads its store later, and by then the account may have been taken out;
`QuietReads` says that it was not.
-/

namespace Weflow.Accounts

open Threads Sse

/-- The set that `current_watermarks` answers if nothing comes between its steps. -/
def AppState.currentSet (s : AppState) : Watermarks :=
  s.readyHandles.flatMap fun h => ((s.handles[h]?).map fun a => a.store.watermarkList).getD []

/-! ## The protocol of the watermark sets -/

/-- The sets a thread holds, and the position its receiver reads next. -/
structure Carrier where
  held : Watermarks → Prop
  rx : Option Nat

/-- One set more. -/
def Carrier.hold (q : Carrier) (wms : Option Watermarks) : Carrier :=
  { q with held := fun w => q.held w ∨ wms = some w }

/-- A thread publishes and sends only the sets it holds, and reads where its receiver stands. -/
@[simp] def Carrier.allow (q : Carrier) : Instr → Prop
  | .publish _ ev => ∀ w, ev.sync? = some w → q.held w
  | .deliver frame => ∀ w, frame.sync? = some w → q.held w
  | .recv rx => ∃ n, q.rx = some n ∧ n ≤ rx
  | _ => True

/-- There is at most one ready account, and a poll has no sync events. -/
@[simp] def Carrier.next (q : Carrier) : (ins : Instr) → ins.Ans → Option Carrier
  | .watermarks _, wms => some (q.hold (some wms))
  | .readyHandles, hs =>
    if hs.length ≤ 1 then some (if hs = [] then q.hold (some []) else q) else none
  | .handle _ (.apply _), events => if events.all fun ev => ev.sync?.isNone then some q else none
  | .subscribe _, (rx, replay) =>
    some ⟨fun w => q.held w ∨ ∃ e ∈ replay, e.event.sync? = some w, some rx⟩
  | .recv _, (item, rx) =>
    some { q.hold (match item with | .item e => e.event.sync? | _ => none) with rx := some rx }
  | _, _ => some q

@[reducible] def carrierStates : Typestate Instr Instr.Ans := ⟨Carrier, Carrier.allow, Carrier.next⟩

/-! ### The programs obey it -/

section

variable {q : Carrier}

theorem fullSync_carrier (h : Nat) : Obeys carrierStates q (fullSync h) fun _ _ => True := by
  simp [fullSync, Obeys, Carrier.allow, Carrier.next, Option.forall]

theorem publishWatermarkBaseline_carrier (h : Nat) :
    Obeys carrierStates q (publishWatermarkBaseline h) fun _ _ => True := by
  simp [publishWatermarkBaseline, Obeys, Carrier.allow, Carrier.next, Carrier.hold, Event.sync?]

theorem buildTask_carrier (h : Nat) : Obeys carrierStates q (buildTask h) fun _ _ => True := by
  apply obeys_bind.mpr
  apply (fullSync_carrier h).mono
  rintro q' (_ | _) -
  · simp [Obeys, Carrier.allow, Carrier.next]
  · simp only [Prog.call_bind, obeys_step, Carrier.allow, Carrier.next, Option.some.injEq,
      forall_eq', forall_const, true_and, Bool.forall_bool, if_true, Bool.false_eq_true, if_false]
    refine ⟨?_, by simp⟩
    apply obeys_bind.mpr
    apply (publishWatermarkBaseline_carrier h).mono
    intro q'' _ _
    simp [Obeys, Carrier.allow, Carrier.next]

theorem registerAccount_carrier (wxid : String) :
    Obeys carrierStates q (registerAccount wxid) fun _ _ => True := by
  have hReplace : ∀ q : Carrier, Obeys carrierStates q (replaceAccount wxid) fun _ _ => True := by
    intro q
    rw [replaceAccount, Prog.call_bind, obeys_step]
    refine ⟨trivial, ?_⟩
    rintro ⟨new, _ | old⟩ q' -
    · simp [Obeys, Carrier.allow]
    · simp [Obeys, Carrier.allow, Carrier.next, Option.forall]
  simp only [registerAccount, Prog.call_bind, obeys_step, Carrier.allow, Carrier.next,
    Option.some.injEq, forall_eq', forall_const, true_and]
  rintro (_ | ⟨name, h⟩)
  · exact hReplace _
  · simp only [obeys_step, Carrier.allow, Carrier.next, Option.some.injEq, forall_eq', true_and]
    intro st
    split
    · simp [Obeys, Carrier.allow]
    · split
      · simp [Obeys, Carrier.allow]
      · exact hReplace _

theorem publishAll_carrier (h : Nat) {events : List Event}
    (hNone : ∀ ev ∈ events, ev.sync? = none) :
    Obeys carrierStates q (publishAll h events) fun _ _ => True := by
  induction events with
  | nil => trivial
  | cons ev evs ih =>
    obtain ⟨hEv, hEvs⟩ := List.forall_mem_cons.mp hNone
    simp only [publishAll, Prog.call_bind, obeys_step, Carrier.allow, Carrier.next,
      Option.some.injEq, forall_eq', forall_const, hEv]
    exact ⟨by simp, ih hEvs⟩

theorem reloadSections_carrier (x : Codec) (h : Nat) (todo : List Sync.Work) :
    Obeys carrierStates q (reloadSections x h todo) fun _ _ => True := by
  induction todo with
  | nil => trivial
  | cons w todo ih =>
    cases w <;> simp [reloadSections, Obeys, Carrier.allow, Carrier.next, Option.forall, ih]

theorem pollOnce_carrier (x : Codec) (h : Nat) :
    Obeys carrierStates q (pollOnce x h) fun _ _ => True := by
  simp only [pollOnce, Prog.call_bind, obeys_step, Carrier.allow, Carrier.next,
    Option.some.injEq, forall_eq', forall_const, true_and, Bool.forall_bool, if_true,
    Bool.false_eq_true, if_false]
  refine ⟨?_, by simp⟩
  rintro (_ | p)
  · simp [Obeys, Carrier.allow]
  · simp only [obeys_step, Carrier.allow, Carrier.next, Option.some.injEq, forall_eq',
      forall_const, true_and, Bool.forall_bool, if_true, Bool.false_eq_true, if_false]
    refine ⟨fun events q' hNext => ?_, by simp⟩
    obtain ⟨hNone, -⟩ := Option.ite_none_right_eq_some.mp hNext
    apply obeys_bind.mpr
    apply (publishAll_carrier h fun ev hev =>
      Option.isNone_iff_eq_none.mp (List.all_eq_true.mp hNone ev hev)).mono
    intro q'' _ _
    simp only [obeys_step, Carrier.allow, Carrier.next, Option.some.injEq, forall_eq',
      forall_const, true_and]
    apply obeys_bind.mpr
    apply (reloadSections_carrier x h p.work).mono
    rintro q₃ (_ | _) -
    · simp [Obeys, Carrier.allow]
    · simp [Obeys, Carrier.allow, Carrier.next]

/-- What `current_watermarks` answers is held then, and the receiver stands where it stood. -/
theorem currentWatermarks_carrier :
    Obeys carrierStates q currentWatermarks fun q' r => q'.held r.1 ∧ q'.rx = q.rx := by
  simp only [currentWatermarks, Prog.call_bind, obeys_step, Carrier.allow, Carrier.next,
    Option.some.injEq, forall_eq', forall_const, true_and]
  intro hs q' hNext
  obtain ⟨hLength, hEq⟩ := Option.ite_none_right_eq_some.mp hNext
  obtain rfl := Option.some.inj hEq
  rcases hs with _ | ⟨h, _ | ⟨h', hs⟩⟩
  · exact ⟨.inr rfl, rfl⟩
  · refine ⟨trivial, fun wms q'' hNext => ?_⟩
    obtain rfl := Option.some.inj hNext
    exact ⟨.inr (congrArg some (List.append_nil wms).symm), rfl⟩
  · rw [List.length_cons, List.length_cons] at hLength
    omega

theorem hangUp_carrier : Obeys carrierStates q hangUp fun _ _ => True := by
  simp [hangUp, Obeys, Carrier.allow]

theorem send_carrier {frame : Frame} {next : Code Outcome}
    (hHeld : ∀ w, frame.sync? = some w → q.held w)
    (hNext : Obeys carrierStates q next fun _ _ => True) :
    Obeys carrierStates q (send frame next) fun _ _ => True := by
  simp only [send, Prog.call_bind, obeys_step, Carrier.allow, Carrier.next, Option.some.injEq,
    forall_eq', Bool.forall_bool, if_true, Bool.false_eq_true, if_false]
  exact ⟨hHeld, hNext, hangUp_carrier⟩

theorem streamLive_carrier (frames : Nat) {rx : Nat} (hRx : ∃ n, q.rx = some n ∧ n ≤ rx) :
    Obeys carrierStates q (streamLive frames rx) fun _ _ => True := by
  induction frames generalizing q rx with
  | zero => exact hangUp_carrier
  | succ frames ih =>
    rw [streamLive, Prog.call_bind, obeys_step]
    refine ⟨hRx, ?_⟩
    rintro ⟨item, rx'⟩ q' hNext
    obtain rfl := Option.some.inj hNext
    cases item with
    | item e => exact send_carrier (fun w hw => .inr hw) (ih ⟨rx', rfl, le_rfl⟩)
    | lagged n =>
      apply obeys_bind.mpr
      apply currentWatermarks_carrier.mono
      rintro q' ⟨wms, hs⟩ ⟨hHeld, hRx'⟩
      refine send_carrier (fun w hw => ?_) (ih ⟨rx', hRx', le_rfl⟩)
      obtain rfl := Option.some.inj hw
      exact hHeld
    | empty => exact ih ⟨rx', rfl, le_rfl⟩

/-- A replay that is held from its start. -/
theorem streamReplay_carrier {rx : Nat} {next : Code Outcome}
    (hNext : ∀ q : Carrier, q.rx = some rx → Obeys carrierStates q next fun _ _ => True)
    {replay : List Stamped} (hRx : q.rx = some rx)
    (hHeld : ∀ e ∈ replay, ∀ w, e.event.sync? = some w → q.held w) :
    Obeys carrierStates q (streamReplay next replay) fun _ _ => True := by
  induction replay with
  | nil => exact hNext q hRx
  | cons e rest ih =>
    obtain ⟨hE, hRest⟩ := List.forall_mem_cons.mp hHeld
    exact send_carrier hE (ih hRest)

theorem sseFrom_carrier (since frames : Nat) :
    Obeys carrierStates q (sseFrom since frames) fun _ _ => True := by
  rw [sseFrom, Prog.call_bind, obeys_step]
  refine ⟨trivial, ?_⟩
  rintro ⟨rx, replay⟩ q' hNext
  obtain rfl := Option.some.inj hNext
  refine send_carrier (fun w hw => by cases hw) ?_
  refine streamReplay_carrier (fun q hRx => ?_) rfl fun e he w hw => .inr ⟨e, he, hw⟩
  apply obeys_bind.mpr
  apply currentWatermarks_carrier.mono
  rintro q' ⟨wms, hs⟩ ⟨hHeld, hRx'⟩
  refine send_carrier (fun w hw => ?_) (streamLive_carrier frames ⟨rx, hRx'.trans hRx, le_rfl⟩)
  obtain rfl := Option.some.inj hw
  exact hHeld

theorem dropAccount_carrier (h : Nat) (previous : AccountStatus) (purgeMedia : Bool) :
    Obeys carrierStates q (dropAccount h previous purgeMedia) fun _ _ => True := by
  simp only [dropAccount, Prog.call_bind, obeys_step, Carrier.allow, Carrier.next,
    Option.some.injEq, forall_eq', forall_const, true_and]
  rintro ⟨talkers, indexCleared⟩
  apply obeys_bind.mpr
  apply currentWatermarks_carrier.mono
  rintro q' ⟨wms, hs⟩ ⟨hHeld, -⟩
  have hPublish : ∀ w, (Event.sync wms).sync? = some w → q'.held w := by
    intro w hw
    obtain rfl := Option.some.inj hw
    exact hHeld
  cases purgeMedia with
  | true => simpa [Obeys, Carrier.allow, Carrier.next] using hPublish
  | false => simpa [Obeys, Carrier.allow] using hPublish

theorem deregisterAccount_carrier (wxid : String) (purgeMedia : Bool) :
    Obeys carrierStates q (deregisterAccount wxid purgeMedia) fun _ _ => True := by
  simp only [deregisterAccount, Prog.call_bind, obeys_step, Carrier.allow, Carrier.next,
    Option.some.injEq, forall_eq', forall_const, true_and]
  rintro (_ | ⟨name, h⟩)
  · simp [Obeys, Carrier.allow]
  · by_cases hName : name = wxid
    · simp only [hName, ne_eq, not_true_eq_false, if_false, obeys_step, Carrier.allow,
        Carrier.next, Option.some.injEq, forall_eq', forall_const, true_and]
      rintro previous (_ | task)
      · exact dropAccount_carrier h previous purgeMedia
      · refine ⟨trivial, fun _ q' hNext => ?_⟩
        obtain rfl := Option.some.inj hNext
        exact dropAccount_carrier h previous purgeMedia
    · simp [hName, Obeys, Carrier.allow, Carrier.next]

end

theorem carrier_code (x : Codec) (c : Task) (q : Carrier) :
    Obeys carrierStates q (c.code x) fun _ _ => True := by
  cases c with
  | registerAccount wxid => exact registerAccount_carrier wxid
  | buildTask h => exact buildTask_carrier h
  | pollOnce h => exact pollOnce_carrier x h
  | deregisterAccount wxid purgeMedia => exact deregisterAccount_carrier wxid purgeMedia
  | sseFrom since frames => exact sseFrom_carrier since frames

/-! ## Sets that are still current -/

/-- The set was read in this generation. -/
def AppState.Fresh (s : AppState) (w : Watermarks) : Prop := (s.generation, w) ∈ s.captures

/-- The sync frames sent so far, and the sync events that can still be replayed. -/
structure GenerationInv (s : AppState) : Prop where
  delivered : ∀ d ∈ s.delivered, ∀ w, d.frame.sync? = some w → (d.generation, w) ∈ s.captures
  history : ∀ e ∈ s.bus.history.items.map HistoryItem.stamped, ∀ w, e.event.sync? = some w →
    s.Fresh w

/-- What a thread holds and what its receiver has not read yet was read in this generation. -/
structure CarrierRel (s : AppState) (q : Carrier) : Prop where
  held : ∀ w, q.held w → s.Fresh w
  unread : ∀ n, q.rx = some n → ∀ pos e, n ≤ pos → s.bus.tx.at? pos = some e →
    ∀ w, e.event.sync? = some w → s.Fresh w

/-- A program that has no set to publish or send but those it will still read, with a receiver
that has no sync event to read. -/
def Clean (s : AppState) (p : Code Outcome) : Prop :=
  ∃ rx, (∀ n, rx = some n → ∀ pos e, n ≤ pos → s.bus.tx.at? pos = some e → e.isSync = false) ∧
    Obeys carrierStates ⟨fun _ => False, rx⟩ p fun _ _ => True

/-- The generation is advanced at a moment at which no set is on its way: not in the history, not
before any receiver, and with no program. -/
def QuietBumps (s : Server) : Op → Prop
  | .tick i _ => ∀ k, s.threads[i]? = some (.step .bumpGeneration k) →
      (∀ e ∈ s.shared.bus.history.items.map HistoryItem.stamped, e.isSync = false) ∧
      ∀ (j : Nat) p, s.threads[j]? = some p → Clean s.shared p
  | _ => True

/-- A store is read for its watermarks while its account is in the registry and ready: no
registration or deregistration came between the listing and the read. -/
def QuietReads (s : Server) : Op → Prop
  | .tick i _ => ∀ h k, s.threads[i]? = some (.step (.watermarks h) k) → h ∈ s.shared.readyHandles
  | _ => True

structure Quiet (s : Server) (op : Op) : Prop where
  bumps : QuietBumps s op
  reads : QuietReads s op

/-- The instruction reads the set `w`: from a store, or as the one of no accounts. -/
def Instr.Reads (s : AppState) (w : Watermarks) : Instr → Prop
  | .watermarks h => ∃ a, s.handles[h]? = some a ∧ a.store.watermarkList = w
  | .readyHandles => s.readyHandles = [] ∧ w = []
  | _ => False

/-- The set `w` is captured by the next step. -/
def Captures (s : Server) (op : Op) (w : Watermarks) : Prop :=
  ∃ i io ins k, op = .tick i io ∧ s.threads[i]? = some (.step ins k) ∧ ins.Reads s.shared w

theorem sync?_of_not_isSync {e : Stamped} {w : Watermarks} (h : e.isSync = false) :
    e.event.sync? ≠ some w := by
  intro hw
  rw [Stamped.isSync, hw] at h
  cases h

/-- A clean program holds nothing, in any generation. -/
theorem Clean.exists_rel {s s' : AppState} {p : Code Outcome} (h : Clean s p)
    (hTx : s'.bus.tx = s.bus.tx) :
    ∃ q, CarrierRel s' q ∧ Obeys carrierStates q p fun _ _ => True := by
  obtain ⟨rx, hUnread, hObeys⟩ := h
  refine ⟨⟨fun _ => False, rx⟩, ⟨fun w hw => hw.elim, fun n hn pos e hPos hAt w hw => ?_⟩, hObeys⟩
  rw [hTx] at hAt
  exact absurd hw (sync?_of_not_isSync (hUnread n hn pos e hPos hAt))

section

variable {i : Nat} {io : Io} {ins : Instr} {s s' : AppState} {a : ins.Ans} {q : Carrier}

/-- Nothing that was read in a generation is forgotten while it lasts. -/
theorem AppState.Fresh.exec {w : Watermarks} (h : s.Fresh w)
    (hExec : Accounts.exec i io ins s = some (s', a)) (hBump : ins ≠ .bumpGeneration) :
    s'.Fresh w := by
  cases ins with
  | handle h' op =>
    obtain ⟨y, y', hy, hOp, rfl⟩ := exec_handle hExec
    exact h
  | bumpGeneration => exact absurd rfl hBump
  | _ => grind [Accounts.exec, AppState.publish, AppState.Fresh]

theorem captures_exec (hExec : exec i io ins s = some (s', a)) :
    ∀ c ∈ s.captures, c ∈ s'.captures := by
  cases ins with
  | handle h' op =>
    obtain ⟨y, y', hy, hOp, rfl⟩ := exec_handle hExec
    exact fun c hc => hc
  | _ => grind [exec, AppState.publish]

/-- The ring after a step: the same, or with one event the thread was allowed to publish. -/
theorem unread_exec (hExec : exec i io ins s = some (s', a)) (hAllow : q.allow ins)
    (hHeld : ∀ w, q.held w → s.Fresh w) {pos : Nat} {e : Stamped} (hAt : s'.bus.tx.at? pos = some e) :
    s.bus.tx.at? pos = some e ∨ ∀ w, e.event.sync? = some w → s.Fresh w := by
  cases ins with
  | publish producer ev =>
    simp only [exec, Option.some.injEq, Prod.mk.injEq] at hExec
    obtain ⟨rfl, -⟩ := hExec
    change (s.bus.tx.send ⟨s.bus.history.lastId + 1, ev⟩).at? pos = some e at hAt
    rw [Broadcast.RingBuffer.send] at hAt
    split at hAt
    · exact .inl hAt
    · rcases Broadcast.RingBuffer.at?_of_push hAt with ⟨-, rfl⟩ | hAt
      · exact .inr fun w hw => hHeld w (hAllow w hw)
      · exact .inl hAt
  | handle h' op =>
    obtain ⟨y, y', hy, hOp, rfl⟩ := exec_handle hExec
    exact .inl hAt
  | subscribe since =>
    simp only [exec, Option.some.injEq, Prod.mk.injEq] at hExec
    obtain ⟨rfl, -⟩ := hExec
    exact .inl hAt
  | unsubscribe =>
    simp only [exec, Option.some.injEq, Prod.mk.injEq] at hExec
    obtain ⟨rfl, -⟩ := hExec
    exact .inl hAt
  | clearHistory =>
    simp only [exec, Option.some.injEq, Prod.mk.injEq] at hExec
    obtain ⟨rfl, -⟩ := hExec
    exact .inl hAt
  | _ =>
    have hBus : s'.bus = s.bus := by grind [exec]
    rw [hBus] at hAt
    exact .inl hAt

/-- What a thread knows survives a step of another thread. -/
theorem CarrierRel.exec {q' : Carrier} (h : CarrierRel s q')
    (hExec : Accounts.exec i io ins s = some (s', a)) (hBump : ins ≠ .bumpGeneration)
    (hAllow : q.allow ins) (hHeld : ∀ w, q.held w → s.Fresh w) : CarrierRel s' q' where
  held w hw := (h.held w hw).exec hExec hBump
  unread n hn pos e hPos hAt w hw := by
    rcases unread_exec hExec hAllow hHeld hAt with hOld | hNew
    · exact (h.unread n hn pos e hPos hOld w hw).exec hExec hBump
    · exact (hNew w hw).exec hExec hBump

theorem GenerationInv.exec (h : GenerationInv s) (hExec : Accounts.exec i io ins s = some (s', a))
    (hBump : ins ≠ .bumpGeneration) (hAllow : q.allow ins) (hHeld : ∀ w, q.held w → s.Fresh w) :
    GenerationInv s' := by
  have hKeep := captures_exec hExec
  have hFresh : ∀ w, s.Fresh w → s'.Fresh w := fun w hw => hw.exec hExec hBump
  cases ins with
  | publish producer ev =>
    simp only [Accounts.exec, Option.some.injEq, Prod.mk.injEq] at hExec
    obtain ⟨rfl, -⟩ := hExec
    refine ⟨fun d hd w hw => ?_, fun e he w hw => ?_⟩
    · rw [AppState.publish_delivered] at hd
      exact hKeep _ (h.delivered d hd w hw)
    rw [AppState.publish_history, HistoryBuf.stamped_append] at he
    rcases List.mem_append.mp (List.mem_of_mem_drop he) with he | he
    · exact hFresh w (h.history e he w hw)
    · rw [List.mem_singleton.mp he] at hw
      exact hFresh w (hHeld w (hAllow w hw))
  | deliver frame =>
    simp only [Accounts.exec] at hExec
    split at hExec
    · obtain ⟨rfl, -⟩ := Prod.mk.inj (Option.some.inj hExec)
      exact h
    · obtain ⟨rfl, -⟩ := Prod.mk.inj (Option.some.inj hExec)
      refine ⟨fun d hd w hw => ?_, h.history⟩
      rcases List.mem_append.mp hd with hd | hd
      · exact h.delivered d hd w hw
      · rw [List.mem_singleton.mp hd] at hw ⊢
        exact hHeld w (hAllow w hw)
  | clearHistory =>
    simp only [Accounts.exec, Option.some.injEq, Prod.mk.injEq] at hExec
    obtain ⟨rfl, -⟩ := hExec
    exact ⟨h.delivered, fun e he => absurd he List.not_mem_nil⟩
  | handle h' op =>
    obtain ⟨y, y', hy, hOp, rfl⟩ := exec_handle hExec
    exact ⟨h.delivered, h.history⟩
  | bumpGeneration => exact absurd rfl hBump
  | _ =>
    have hSame : s'.bus.history = s.bus.history ∧ s'.delivered = s.delivered := by
      grind [Accounts.exec, EventBus.subscribeWithReplay]
    refine ⟨?_, ?_⟩
    · rw [hSame.2]
      exact fun d hd w hw => hKeep _ (h.delivered d hd w hw)
    · rw [hSame.1]
      exact fun e he w hw => hFresh w (h.history e he w hw)

/-- A new set in the hands of a thread that has just been read. -/
theorem CarrierRel.hold {wms : Option Watermarks} (h : CarrierRel s q)
    (hFresh : ∀ w, wms = some w → s.Fresh w) : CarrierRel s (q.hold wms) where
  held w hw := hw.elim (h.held w) (hFresh w)
  unread := h.unread

/-- The events of a poll are no sync events. -/
theorem sync?_applyTo (p : Sync.Poll) (store : Store) :
    (p.applyTo store).2.all fun ev => ev.sync?.isNone := by
  have hNew : ∀ (rows : List (String × MessageRecord)) (se : Store × List Event),
      (se.2.all fun ev => ev.sync?.isNone) = true →
      ((rows.foldl Sync.applyNew se).2.all fun ev => ev.sync?.isNone) = true := by
    intro rows
    induction rows with
    | nil => exact fun se h => h
    | cons r rows ih =>
      intro se h
      apply ih
      simp only [Sync.applyNew]
      split
      · exact h
      · rw [List.all_append, h]
        rfl
  rw [Sync.Poll.applyTo, List.all_append, hNew _ _ rfl, Bool.true_and, Sync.revokeEvents]
  rw [List.all_map]
  exact List.all_eq_true.mpr fun _ _ => rfl

/-- There is one ready account at most. -/
theorem SingleBinding.readyHandles_length (h : SingleBinding s) : s.readyHandles.length ≤ 1 := by
  rw [AppState.readyHandles]
  exact (List.length_filter_le _ _).trans ((List.length_map _).trans_le h.length_le)

/-- What a thread holds after its own instruction. -/
theorem carrier_own (hSingle : SingleBinding s) (hInv : GenerationInv s) (hRel : CarrierRel s q)
    (hAllow : q.allow ins) (hExec : exec i io ins s = some (s', a))
    (hBump : ins ≠ .bumpGeneration) : ∃ q', q.next ins a = some q' ∧ CarrierRel s' q' := by
  have hRel' : CarrierRel s' q := hRel.exec hExec hBump hAllow hRel.held
  cases ins with
  | watermarks h =>
    refine ⟨_, rfl, hRel'.hold fun w hw => ?_⟩
    obtain rfl := Option.some.inj hw
    simp only [exec] at hExec
    split at hExec
    · split at hExec
      · obtain ⟨rfl, rfl⟩ := Prod.mk.inj (Option.some.inj hExec)
        exact List.mem_append_right _ (List.mem_singleton.mpr rfl)
      · cases hExec
    · cases hExec
  | readyHandles =>
    simp only [exec, Option.some.injEq, Prod.mk.injEq] at hExec
    obtain ⟨rfl, rfl⟩ := hExec
    refine ⟨_, if_pos hSingle.readyHandles_length, ?_⟩
    by_cases hNone : s.readyHandles = []
    · simp only [if_pos hNone] at hRel' ⊢
      refine hRel'.hold fun w hw => ?_
      obtain rfl := Option.some.inj hw
      exact List.mem_append_right _ (List.mem_singleton.mpr rfl)
    · simp only [if_neg hNone] at hRel' ⊢
      exact hRel'
  | handle h op =>
    cases op with
    | apply p =>
      obtain ⟨y, y', hy, hOp, rfl⟩ := exec_handle hExec
      simp only [HandleOp.exec, Option.some.injEq, Prod.mk.injEq] at hOp
      obtain ⟨-, rfl⟩ := hOp
      exact ⟨q, if_pos (sync?_applyTo p y.store), hRel'⟩
    | _ => exact ⟨q, rfl, hRel'⟩
  | subscribe since =>
    simp only [exec, Option.some.injEq, Prod.mk.injEq] at hExec
    obtain ⟨rfl, rfl⟩ := hExec
    refine ⟨_, rfl, ⟨fun w hw => ?_, fun n hn pos e hPos hAt => ?_⟩⟩
    · rcases hw with hw | ⟨e, he, hw⟩
      · exact hRel'.held w hw
      · exact hInv.history e ((s.bus.history.replaySince_spec io.now since).2 e he).2.2 w hw
    · -- the receiver starts at the end of the ring
      obtain rfl := Option.some.inj hn
      exact absurd (Broadcast.RingBuffer.at?_some hAt).2 (Nat.not_lt.mpr hPos)
  | recv rx =>
    obtain ⟨n, hn, hLe⟩ := hAllow
    simp only [exec, Option.some.injEq, Prod.mk.injEq] at hExec
    obtain ⟨rfl, rfl⟩ := hExec
    rcases hRecv : s.bus.tx.recv rx with ⟨item, rx'⟩
    have hNext : rx ≤ rx' ∧ ∀ e, item = .item e → s.bus.tx.at? rx = some e := by
      cases item with
      | item e =>
        obtain ⟨hAt, rfl⟩ := Broadcast.RingBuffer.recv_item hRecv
        exact ⟨Nat.le_succ _, fun e' he' => Broadcast.RingBuffer.Recv.item.inj he' ▸ hAt⟩
      | lagged m =>
        obtain ⟨hLt, rfl⟩ := Broadcast.RingBuffer.recv_lagged hRecv
        exact ⟨hLt.le, fun _ h => by cases h⟩
      | empty =>
        obtain ⟨-, rfl⟩ := Broadcast.RingBuffer.recv_empty hRecv
        exact ⟨le_rfl, fun _ h => by cases h⟩
    refine ⟨_, rfl, ⟨fun w hw => ?_, fun m hm pos e hPos hAt => ?_⟩⟩
    · rcases hw with hw | hw
      · exact hRel'.held w hw
      · cases item with
        | item e => exact hRel.unread n hn rx e hLe (hNext.2 e rfl) w hw
        | _ => cases hw
    · obtain rfl := Option.some.inj hm
      exact hRel.unread n hn pos e (hLe.trans (hNext.1.trans hPos)) hAt
  | _ => exact ⟨q, rfl, hRel'⟩

end

/-- In a run whose generation is advanced quietly, every set sent is of the generation it is sent
with. -/
theorem generation_run {x : Codec} {t : Server} (hRun : Runs.Run (step x) QuietBumps fresh t) :
    GenerationInv t.shared := by
  have hKnown : Runs.Run (step x)
      (fun s e => QuietBumps s e ∧ Runs.Run (step x) QuietBumps fresh s) fresh t :=
    hRun.strengthen .refl fun s e u hs hGood hStep => .tail e hs hGood hStep
  refine (pool_invariant (J := fun _ s => GenerationInv s)
    (A := fun _ s p => ∃ q, CarrierRel s q ∧ Obeys carrierStates q p fun _ _ => True) ?_ ?_ ?_ hKnown
    ⟨fun d hd => absurd hd List.not_mem_nil, fun e he => absurd he List.not_mem_nil⟩
    (fun i p hp => absurd hp (fresh_threads i p))).1
  · exact fun n s c hInv => ⟨hInv, ⟨fun _ => False, none⟩, ⟨fun w hw => hw.elim, by simp⟩,
      carrier_code x c _⟩
  · rintro s i io ins k s' a ⟨hQuiet, hBefore⟩ hInv hAll hGet hExec
    by_cases hBump : ins = .bumpGeneration
    · subst hBump
      obtain ⟨hHistory, hClean⟩ := hQuiet k hGet
      have hStep := hExec
      simp only [exec, Option.some.injEq, Prod.mk.injEq] at hStep
      obtain ⟨rfl, -⟩ := hStep
      have hTx : { s.shared with generation := s.shared.generation + 1 }.bus.tx =
          s.shared.bus.tx := rfl
      obtain ⟨q, hRel, -, hNext⟩ := (hClean i _ hGet).exists_rel hTx
      exact ⟨⟨hInv.delivered, fun e he w hw =>
        absurd hw (sync?_of_not_isSync (hHistory e he))⟩, q, hRel, hNext a q rfl⟩
    · obtain ⟨q, hRel, hAllow, hNext⟩ := hAll i _ hGet
      obtain ⟨q', hq', hRel'⟩ :=
        carrier_own (registry_run hBefore).1.toSingleBinding hInv hRel hAllow hExec hBump
      exact ⟨hInv.exec hExec hBump hAllow hRel.held, q', hRel', hNext a q' hq'⟩
  · rintro s i io ins k s' a j p ⟨hQuiet, hBefore⟩ hInv hAll hGet hExec hNe hp
    by_cases hBump : ins = .bumpGeneration
    · subst hBump
      obtain ⟨-, hClean⟩ := hQuiet k hGet
      simp only [exec, Option.some.injEq, Prod.mk.injEq] at hExec
      obtain ⟨rfl, -⟩ := hExec
      exact (hClean j p hp).exists_rel rfl
    · obtain ⟨q, hRel, hAllow, -⟩ := hAll i _ hGet
      obtain ⟨q', hRel', hObeys⟩ := hAll j p hp
      exact ⟨q', hRel'.exec hExec hBump hAllow hRel.held, hObeys⟩

/-- Every set recorded was read in the generation it is recorded with. -/
theorem captures_of_exec {i : Nat} {io : Io} {ins : Instr} {s s' : AppState} {a : ins.Ans}
    (hExec : exec i io ins s = some (s', a)) {g : Nat} {w : Watermarks} (h : (g, w) ∈ s'.captures) :
    (g, w) ∈ s.captures ∨ s.generation = g ∧ ins.Reads s w := by
  cases ins with
  | watermarks k =>
    simp only [exec] at hExec
    split at hExec
    · rename_i y hy
      split at hExec
      · obtain ⟨rfl, rfl⟩ := Prod.mk.inj (Option.some.inj hExec)
        rcases List.mem_append.mp h with h | h
        · exact .inl h
        · obtain ⟨rfl, rfl⟩ := Prod.mk.inj (List.mem_singleton.mp h)
          exact .inr ⟨rfl, y, hy, rfl⟩
      · cases hExec
    · cases hExec
  | readyHandles =>
    simp only [exec, Option.some.injEq, Prod.mk.injEq] at hExec
    obtain ⟨rfl, rfl⟩ := hExec
    by_cases hNone : s.readyHandles = []
    · rw [if_pos hNone] at h
      rcases List.mem_append.mp h with h | h
      · exact .inl h
      · obtain ⟨rfl, rfl⟩ := Prod.mk.inj (List.mem_singleton.mp h)
        exact .inr ⟨rfl, hNone, rfl⟩
    · rw [if_neg hNone] at h
      exact .inl h
  | handle h' op =>
    obtain ⟨y, y', hy, hOp, rfl⟩ := exec_handle hExec
    exact .inl h
  | _ => exact .inl (by grind [exec, AppState.publish])

/-- What is read of a ready account is the current set: there is no other account. -/
theorem currentSet_of_captures {s : Server} {op : Op} {w : Watermarks}
    (hSingle : SingleBinding s.shared) (hQuiet : QuietReads s op) (h : Captures s op w) :
    s.shared.currentSet = w := by
  obtain ⟨i, io, ins, k, rfl, hGet, hReads⟩ := h
  cases ins with
  | watermarks h =>
    obtain ⟨a, ha, rfl⟩ := hReads
    have hOnly : s.shared.readyHandles = [h] := by
      have hMem := hQuiet h k hGet
      have hLength := hSingle.readyHandles_length
      rcases hHandles : s.shared.readyHandles with _ | ⟨h', _ | ⟨h'', hs⟩⟩
      · rw [hHandles] at hMem
        cases hMem
      · rw [hHandles] at hMem
        rw [List.mem_singleton.mp hMem]
      · rw [hHandles, List.length_cons, List.length_cons] at hLength
        omega
    rw [AppState.currentSet, hOnly, List.flatMap_singleton, ha, Option.map_some, Option.getD_some]
  | readyHandles =>
    obtain ⟨hNone, rfl⟩ := hReads
    rw [AppState.currentSet, hNone, List.flatMap_nil]
  | _ => exact hReads.elim

/-- In every run, given by its events, in which the generation is only advanced while no set is on
its way and stores are only read of ready accounts, every sync frame carries a set that was
captured in its own generation, by a step at which it was the current one. So what was captured
before a deregistration is in no frame of the later generation. -/
theorem sync_of_its_generation (x : Codec) (ops : List Op) {t : Server}
    (hExec : Runs.exec (step x) anyOp fresh ops = some t)
    (hQuiet : ∀ done op rest m, ops = done ++ op :: rest →
      Runs.exec (step x) anyOp fresh done = some m → Quiet m op) :
    ∀ d ∈ t.shared.delivered, ∀ w, d.frame.sync? = some w →
      ∃ done op rest m, ops = done ++ op :: rest ∧
        Runs.exec (step x) anyOp fresh done = some m ∧ m.shared.generation = d.generation ∧
        Captures m op w ∧ m.shared.currentSet = w := by
  have hRun : Runs.Run (step x) Quiet fresh t :=
    Runs.exec_invariant (P := fun _ s => Runs.Run (step x) Quiet fresh s) hExec .refl
      fun done op rest m u hEq hDone hm hStep => .tail op hm (hQuiet done op rest m hEq hDone) hStep
  have hCaptured : ∀ c ∈ t.shared.captures, ∃ done op rest m, ops = done ++ op :: rest ∧
      Runs.exec (step x) anyOp fresh done = some m ∧ m.shared.generation = c.1 ∧
      Captures m op c.2 ∧ m.shared.currentSet = c.2 := by
    refine (Runs.exec_invariant (P := fun _ s => Runs.Run (step x) Quiet fresh s ∧
      ∀ c ∈ s.shared.captures, ∃ done op rest m, ops = done ++ op :: rest ∧
        Runs.exec (step x) anyOp fresh done = some m ∧ m.shared.generation = c.1 ∧
        Captures m op c.2 ∧ m.shared.currentSet = c.2) hExec
      ⟨.refl, fun c hc => absurd hc List.not_mem_nil⟩ ?_).2
    rintro done op rest m u hEq hDone ⟨hBefore, hm⟩ hStep
    have hNow := hQuiet done op rest m hEq hDone
    refine ⟨.tail op hBefore hNow hStep, ?_⟩
    rintro ⟨g, w⟩ hc
    cases op with
    | start task =>
      obtain rfl := Option.some.inj hStep
      exact hm _ hc
    | tick i io =>
      obtain ⟨ins, k, s', a, hGet, hExec', rfl⟩ := tick_cases hStep
      rcases captures_of_exec hExec' hc with hOld | ⟨hGeneration, hReads⟩
      · exact hm _ hOld
      · have hCaptures : Captures m (.tick i io) w := ⟨i, io, ins, k, rfl, hGet, hReads⟩
        exact ⟨done, _, rest, m, hEq, hDone, hGeneration, hCaptures,
          currentSet_of_captures (registry_run hBefore).1.toSingleBinding hNow.reads hCaptures⟩
  have hBumps : Runs.Run (step x) QuietBumps fresh t := hRun.mono fun _ _ h => h.bumps
  exact fun d hd w hw => hCaptured _ ((generation_run hBumps).delivered d hd w hw)

/-- The next instruction does not advance the generation, and reads no store but that of a ready
account. -/
def bumpsNothing (s : Server) : Op → Bool
  | .tick i _ =>
    match s.threads[i]? with
    | some (.step .bumpGeneration _) => false
    | some (.step (.watermarks h) _) => h ∈ s.shared.readyHandles
    | _ => true
  | _ => true

theorem quiet_of_bumpsNothing {s : Server} {op : Op} (h : bumpsNothing s op = true) :
    Quiet s op := by
  cases op with
  | start c => exact ⟨trivial, trivial⟩
  | tick i io =>
    refine ⟨fun k hGet => ?_, fun a k hGet => ?_⟩
    · rw [bumpsNothing, hGet] at h
      cases h
    · rw [bumpsNothing, hGet] at h
      exact of_decide_eq_true h

/-- An account is registered and built, somebody subscribes, the account is deregistered, and
somebody subscribes again. -/
def quietOps : List Op :=
  .start (.registerAccount "a") :: List.replicate 4 (.tick 0 {}) ++
    .start (.buildTask 0) :: List.replicate 18 (.tick 1 { built := some lifeOps.oneMark }) ++
    .start (.sseFrom 0 0) :: List.replicate 9 (.tick 2 {}) ++
    .start (.deregisterAccount "a" false) :: List.replicate 17 (.tick 3 {}) ++
    .start (.sseFrom 0 0) :: List.replicate 7 (.tick 4 {})

def afterQuiet : Server := (Runs.exec (step (.blank "")) anyOp fresh quietOps).getD fresh

/-- The generation is about to be advanced. -/
def beforeBump : Server :=
  (Runs.exec (step (.blank "")) anyOp fresh (quietOps.take 47)).getD fresh

theorem quiet_beforeBump (op : Op) (hReads : QuietReads beforeBump op) : Quiet beforeBump op := by
  refine ⟨?_, hReads⟩
  cases op with
  | start c => trivial
  | tick i io =>
    intro k hGet
    refine ⟨by decide +kernel, fun j p hp => ⟨none, by simp, ?_⟩⟩
    match j with
    | 0 | 1 | 2 =>
      obtain rfl := Option.some.inj hp
      trivial
    | 3 =>
      have hDrop := dropAccount_carrier (q := ⟨fun _ => False, none⟩) 0 .ready false
      obtain rfl := Option.some.inj hp
      exact ((((hDrop.2 () _ rfl).2 ([], false) _ rfl).2 () _ rfl).2 () _ rfl)
    | j + 4 => cases hp

theorem quiet_quietOps (done : List Op) (op : Op) (rest : List Op) (m : Server)
    (hEq : quietOps = done ++ op :: rest)
    (hDone : Runs.exec (step (.blank "")) anyOp fresh done = some m) : Quiet m op := by
  have hOther : (List.range quietOps.length).all (fun n => n == 47 ||
      (Runs.exec (step (.blank "")) anyOp fresh (quietOps.take n)).all fun m =>
        quietOps[n]?.all (bumpsNothing m)) = true := by decide +kernel
  have hTake : quietOps.take done.length = done := by rw [hEq, List.take_left]
  have hGet : quietOps[done.length]? = some op := by
    rw [hEq, List.getElem?_append_right le_rfl, Nat.sub_self, List.getElem?_cons_zero]
  have hLt : done.length < quietOps.length := (List.getElem?_eq_some_iff.mp hGet).1
  have hAt := List.all_eq_true.mp hOther done.length (List.mem_range.mpr hLt)
  rcases Bool.or_eq_true_iff.mp hAt with hBump | hFree
  · rw [beq_iff_eq] at hBump
    rw [hBump] at hTake hGet
    rw [← hTake] at hDone
    obtain rfl : beforeBump = m := by rw [beforeBump, hDone, Option.getD_some]
    obtain rfl : Threads.Event.tick 3 {} = op := Option.some.inj hGet
    exact quiet_beforeBump _ fun a k hAt => by cases Option.some.inj hAt
  · rw [hTake, hDone, hGet] at hFree
    exact quiet_of_bumpsNothing hFree

/-- The set of the account was captured in the first generation, and the one of the reset in the
second. -/
theorem sync_of_its_generation_afterQuiet :
    afterQuiet.shared.delivered.filterMap (fun d => d.frame.sync?.map fun w => (d.generation, w)) =
        [(1, lifeOps.oneMark.watermarkList), (1, lifeOps.oneMark.watermarkList), (2, []), (2, [])] ∧
      ∀ d ∈ afterQuiet.shared.delivered, ∀ w, d.frame.sync? = some w →
        ∃ done op rest m, quietOps = done ++ op :: rest ∧
          Runs.exec (step (.blank "")) anyOp fresh done = some m ∧
          m.shared.generation = d.generation ∧ Captures m op w ∧ m.shared.currentSet = w :=
  ⟨by decide +kernel, sync_of_its_generation (.blank "") quietOps rfl quiet_quietOps⟩

/-- The sync event of an account waits for a subscriber while the account is deregistered. -/
def staleOps : List Op :=
  .start (.registerAccount "a") :: List.replicate 4 (.tick 0 {}) ++
    .start (.sseFrom 0 1) :: List.replicate 6 (.tick 1 {}) ++
    .start (.buildTask 0) :: List.replicate 18 (.tick 2 { built := some lifeOps.oneMark }) ++
    .start (.deregisterAccount "a" false) :: List.replicate 17 (.tick 3 {}) ++
    List.replicate 2 (.tick 1 {})

/-- The frame is sent with the generation of the deregistration, in which its set was never
current. -/
theorem stale_sync_frame : ¬ ∀ (ops : List Op) (t : Server),
    Runs.exec (step (.blank "")) anyOp fresh ops = some t →
    ∀ d ∈ t.shared.delivered, ∀ w, d.frame.sync? = some w → ∃ done rest m, ops = done ++ rest ∧
      Runs.exec (step (.blank "")) anyOp fresh done = some m ∧
      m.shared.generation = d.generation ∧ m.shared.currentSet = w := by
  intro h
  have hMem : (⟨1, .live 1 (.sync lifeOps.oneMark.watermarkList), 2⟩ : Delivered) ∈
      ((Runs.exec (step (.blank "")) anyOp fresh staleOps).getD fresh).shared.delivered := by
    decide +kernel
  obtain ⟨done, rest, m, hEq, hDone, hGeneration, hCurrent⟩ := h staleOps _ rfl _ hMem _ rfl
  have hNever : (List.range (staleOps.length + 1)).all (fun n =>
      (Runs.exec (step (.blank "")) anyOp fresh (staleOps.take n)).all fun m =>
        m.shared.generation != 2 ||
          m.shared.currentSet != lifeOps.oneMark.watermarkList) = true := by decide +kernel
  have hTake : staleOps.take done.length = done := by rw [hEq, List.take_left]
  have hLe : done.length < staleOps.length + 1 := by
    rw [hEq, List.length_append]
    omega
  have hAt := List.all_eq_true.mp hNever done.length (List.mem_range.mpr hLe)
  rw [hTake, hDone, Option.all_some, hGeneration, hCurrent] at hAt
  exact absurd hAt (by decide)

end Weflow.Accounts
