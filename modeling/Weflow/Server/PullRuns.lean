import Weflow.Lib.Runs
import Weflow.Server.ChatlabPull

/-!
# Pulling a growing conversation

A client that drains one conversation again and again while its index grows. A drain ends
with the cursor at the clock second of its last request, not at the last row it was served,
so a row indexed later with an earlier `create_time` is never delivered
(`late_row_is_never_delivered`). `resumed_pulls_exact` is the guarantee that is left: as long
as every added row is later than the cursor the client holds, each row is delivered once.
-/

namespace Weflow.Pull

open Runs

/-- The server's conversation, the wall clock, and the client with everything it was given. -/
structure Client where
  store : Store
  now : Int
  cursor : Option Int
  offset : Nat
  delivered : List MessageRecord

inductive PullOp
  /-- rows become indexed -/
  | grow (rows : List MessageRecord)
  /-- the clock moves on -/
  | tick (d : Nat)
  /-- a whole drain; request `i` is made `clock i` seconds from now -/
  | drain (limits : Nat → Option Nat) (clock : Nat → Nat)

/-- A client before its first request. -/
def Client.start (s : Store) (now : Int) (cursor : Option Int) : Client := ⟨s, now, cursor, 0, []⟩

def Client.grow (c : Client) (id : String) (rows : List MessageRecord) : Client :=
  { c with store := c.store.extendConv id rows }

/-- The pages of a drain that starts at the client's cursor, `none` if it does not end. -/
def Client.pages (c : Client) (id : String) (limits : Nat → Option Nat) (clock : Nat → Nat) :
    Option (List PullEnvelope) :=
  match drain c.store id none limits (fun i => c.now + clock i) ((c.store.conv id).length + 1) 0
      c.cursor c.offset with
  | some (.ok pages) => some pages
  | _ => none

/-- The client after a drain: the last page's cursors are the next ones. -/
def Client.take (c : Client) (clock : Nat → Nat) (pages : List PullEnvelope) : Client :=
  match pages.getLast? with
  | some p =>
    { c with
      now := c.now + clock (pages.length - 1)
      cursor := some p.sync.nextSince
      offset := p.sync.nextOffset
      delivered := c.delivered ++ pages.flatMap PullEnvelope.messages }
  | none => c

def pullStep (id : String) (c : Client) : PullOp → Option Client
  | .grow rows => some (c.grow id rows)
  | .tick d => some { c with now := c.now + d }
  | .drain limits clock => (c.pages id limits clock).map (c.take clock)

/-- The rows the client has not been given. -/
def Client.waiting (c : Client) (id : String) : List MessageRecord :=
  (c.store.conv id).filter (inWindow c.cursor none)

/-- When an operation keeps the guarantee: added rows were created no later than now and
after the cursor; no cursor of a drain prints with eight digits. -/
def PullOk (id : String) (c : Client) : PullOp → Prop
  | .grow rows => ∀ r ∈ rows, InI64 r.createTime ∧ r.createTime ≤ c.now ∧
      c.cursor.getD i64Min < r.createTime
  | .tick _ => True
  | .drain _ clock => (∀ i, Echoes (c.now + clock i)) ∧
      ∀ r ∈ c.waiting id, ∀ r' ∈ c.waiting id,
        r.createTime < r'.createTime → ¬ EightDigits r.createTime

/-- What every run of such operations keeps. -/
structure PullInv (id : String) (c : Client) : Prop where
  known : c.store.conversationKnown id = true
  rows_ok : ∀ r ∈ c.store.conv id, InI64 r.createTime ∧ r.createTime ≤ c.now
  waiting_low : ∀ r ∈ c.waiting id, c.cursor.getD i64Min < r.createTime
  cursor_echoes : ∀ n ∈ c.cursor, Echoes n
  offset_eq : c.offset = 0
  delivered : c.delivered.Perm ((c.store.conv id).filter fun r => !inWindow c.cursor none r)

section

variable {id : String} {c c' : Client}

theorem conversationKnown_extendConv (s : Store) (id : String) (rows : List MessageRecord) :
    (s.extendConv id rows).conversationKnown id = true := by
  simp [Store.conversationKnown, Store.extendConv]

/-- A drain from a good state ends and hands over exactly the rows that were waiting. -/
theorem pages_of_inv (h : PullInv id c) (limits : Nat → Option Nat) (clock : Nat → Nat)
    (hOk : PullOk id c (.drain limits clock)) :
    ∃ pages, c.pages id limits clock = some pages ∧
      Drained c.store id c.cursor none (fun i => c.now + clock i) 0 pages := by
  have hMem : ∀ r, r ∈ ascending c.store id c.cursor none ↔ r ∈ c.waiting id := by
    intro r
    rw [mem_ascending, Client.waiting, List.mem_filter]
  have hCursors : CursorsEcho (ascending c.store id c.cursor none) := by
    intro r hr r' hr' hLt
    rw [hMem] at hr hr'
    exact ⟨(h.rows_ok r (List.mem_of_mem_filter hr)).1, hOk.2 r hr r' hr' hLt⟩
  have hFuel : (ascending c.store id c.cursor none).length < (c.store.conv id).length + 1 := by
    rw [ascending, Keyset.length_sortBy]
    exact Nat.lt_succ_of_le (List.length_filter_le _ _)
  obtain ⟨pages, hDrain, hDrained⟩ := drain_from h.known none (by simp) limits
    (fun i => c.now + clock i) _ 0 c.cursor h.cursor_echoes
    (fun r hr => h.waiting_low r ((hMem r).mp hr)) hCursors hFuel
  refine ⟨pages, ?_, hDrained⟩
  rw [Client.pages, h.offset_eq, hDrain]

/-- After a drain everything indexed has been delivered once. -/
theorem take_of_drained (h : PullInv id c) {pages : List PullEnvelope} {clock : Nat → Nat}
    (hDrained : Drained c.store id c.cursor none (fun i => c.now + clock i) 0 pages)
    (hClock : ∀ i, Echoes (c.now + clock i)) :
    PullInv id (c.take clock pages) ∧
      (c.take clock pages).delivered.Perm ((c.take clock pages).store.conv id) := by
  obtain ⟨p, n, hLast, hLen, hNext, hOffset⟩ := hDrained.last
  have hNext : p.sync.nextSince = c.now + clock n := by simpa using hNext
  have hTake : c.take clock pages =
      { c with
        now := c.now + clock n
        cursor := some (c.now + clock n)
        offset := 0
        delivered := c.delivered ++ ascending c.store id c.cursor none } := by
    simp [Client.take, hLast, hLen, hNext, hOffset, hDrained.rows_eq]
  have hAll : (c.delivered ++ ascending c.store id c.cursor none).Perm (c.store.conv id) := by
    have hWait : (ascending c.store id c.cursor none).Perm (c.waiting id) :=
      Keyset.perm_sortBy _ _
    refine (h.delivered.append hWait).trans (List.perm_append_comm.trans ?_)
    exact List.filter_append_perm _ _
  have hSeen : ∀ r ∈ c.store.conv id, inWindow (some (c.now + clock n)) none r = false := by
    intro r hr
    have := (h.rows_ok r hr).2
    simp only [inWindow, Option.all_some, Option.all_none, Bool.and_true, decide_eq_false_iff_not]
    omega
  rw [hTake]
  refine ⟨⟨h.known, fun r hr => ⟨(h.rows_ok r hr).1, ?_⟩, fun r hr => ?_, fun m hm => ?_, rfl,
    ?_⟩, hAll⟩
  · have := (h.rows_ok r hr).2
    simp only
    omega
  · have hFalse := hSeen r (List.mem_of_mem_filter hr)
    have hTrue := (List.mem_filter.mp hr).2
    rw [hFalse] at hTrue
    cases hTrue
  · rw [← Option.some.inj hm]
    exact hClock n
  · have hFilter : (c.store.conv id).filter
        (fun r => !inWindow (some (c.now + clock n)) none r) = c.store.conv id :=
      List.filter_eq_self.mpr fun r hr => by simp [hSeen r hr]
    simp only [hFilter]
    exact hAll

theorem pullInv_step {op : PullOp} (h : PullInv id c) (hOk : PullOk id c op)
    (hStep : pullStep id c op = some c') : PullInv id c' := by
  cases op with
  | grow rows =>
    cases hStep
    have hConv : (c.grow id rows).store.conv id = c.store.conv id ++ rows :=
      Store.conv_extendConv _ _ _
    have hWindow : ∀ r ∈ rows, inWindow c.cursor none r = true := by
      intro r hr
      have := (hOk r hr).2.2
      cases hCursor : c.cursor with
      | none => rfl
      | some n =>
        rw [hCursor, Option.getD_some] at this
        simp [inWindow, this]
    refine ⟨conversationKnown_extendConv _ _ _, ?_, ?_, h.cursor_echoes, h.offset_eq, ?_⟩
    · intro r hr
      rw [hConv] at hr
      rcases List.mem_append.mp hr with hr | hr
      · exact h.rows_ok r hr
      · exact ⟨(hOk r hr).1, (hOk r hr).2.1⟩
    · intro r hr
      rw [Client.waiting, hConv, List.filter_append] at hr
      rcases List.mem_append.mp hr with hr | hr
      · exact h.waiting_low r hr
      · exact (hOk r (List.mem_of_mem_filter hr)).2.2
    · rw [hConv, List.filter_append]
      have hNil : rows.filter (fun r => !inWindow c.cursor none r) = [] :=
        List.filter_eq_nil_iff.mpr fun r hr => by simp [hWindow r hr]
      change c.delivered.Perm (_ ++ rows.filter fun r => !inWindow c.cursor none r)
      rw [hNil, List.append_nil]
      exact h.delivered
  | tick d =>
    cases hStep
    refine ⟨h.known, fun r hr => ⟨(h.rows_ok r hr).1, ?_⟩, h.waiting_low, h.cursor_echoes,
      h.offset_eq, h.delivered⟩
    have := (h.rows_ok r hr).2
    simp only
    omega
  | drain limits clock =>
    obtain ⟨pages, hPages, hDrained⟩ := pages_of_inv h limits clock hOk
    rw [pullStep, hPages, Option.map_some] at hStep
    cases hStep
    exact (take_of_drained h hDrained hOk.1).1

/-- A client that knows the conversation starts below all its rows. -/
structure PullStart (id : String) (s : Store) (now : Int) (cursor : Option Int) : Prop where
  known : s.conversationKnown id = true
  rows_ok : ∀ r ∈ s.conv id, InI64 r.createTime ∧ r.createTime ≤ now ∧
    cursor.getD i64Min < r.createTime
  cursor_echoes : ∀ n ∈ cursor, Echoes n

theorem pullInv_start {s : Store} {now : Int} {cursor : Option Int}
    (h : PullStart id s now cursor) : PullInv id (.start s now cursor) where
  known := h.known
  rows_ok r hr := ⟨(h.rows_ok r hr).1, (h.rows_ok r hr).2.1⟩
  waiting_low r hr := (h.rows_ok r (List.mem_of_mem_filter hr)).2.2
  cursor_echoes := h.cursor_echoes
  offset_eq := rfl
  delivered := by
    have hNil : (s.conv id).filter (fun r => !inWindow cursor none r) = [] := by
      refine List.filter_eq_nil_iff.mpr fun r hr => ?_
      have := (h.rows_ok r hr).2.2
      cases cursor with
      | none => simp [inWindow]
      | some n => simpa [inWindow] using this
    change [].Perm _
    rw [Client.start, hNil]

/-- **Resumed pulls.** In every run whose operations meet `PullOk`, no row has been delivered
twice, and a further drain ends and leaves every row delivered exactly once. -/
theorem resumed_pulls_exact (id : String) (s : Store) (now : Int) (cursor : Option Int)
    (hStart : PullStart id s now cursor) (c : Client)
    (hRun : Run (pullStep id) (PullOk id) (.start s now cursor) c) :
    (∃ undelivered, (c.delivered ++ undelivered).Perm (c.store.conv id)) ∧
      ∀ limits clock, PullOk id c (.drain limits clock) →
        ∃ c', pullStep id c (.drain limits clock) = some c' ∧
          c'.delivered.Perm (c'.store.conv id) := by
  have h : PullInv id c :=
    hRun.invariant (pullInv_start hStart) fun _ _ _ h hOk hStep => pullInv_step h hOk hStep
  refine ⟨⟨c.waiting id, ?_⟩, fun limits clock hOk => ?_⟩
  · exact (h.delivered.append_right _).trans
      (List.perm_append_comm.trans (List.filter_append_perm _ _))
  · obtain ⟨pages, hPages, hDrained⟩ := pages_of_inv h limits clock hOk
    exact ⟨c.take clock pages, by rw [pullStep, hPages, Option.map_some],
      (take_of_drained h hDrained hOk.1).2⟩

end

/-! ## Runs on small conversations -/

/-- The store of a listed conversation without messages. -/
def listedStore : Store := storeOf "wxid_a" []

/-- The client of the example with its first row indexed. -/
def firstIndexed : Client :=
  (Client.start listedStore 1700000000 none).grow "wxid_a" [recordAt 1 1699999999]

/-- What its first drain is served. -/
def firstPages : List PullEnvelope :=
  (firstIndexed.pages "wxid_a" (fun _ => none) (fun _ => 0)).getD []

/-- A minute after that drain a second row is indexed. -/
def secondIndexed : Client :=
  Client.grow { firstIndexed.take (fun _ => 0) firstPages with now := 1700000060 } "wxid_a"
    [recordAt 2 1700000030]

theorem pullOk_firstIndexed :
    PullOk "wxid_a" firstIndexed (.drain (fun _ => none) (fun _ => 0)) := by
  have hNow : Echoes 1700000000 := ⟨by decide, by decide⟩
  exact ⟨fun _ => hNow, by decide⟩

theorem pullOk_secondIndexed :
    PullOk "wxid_a" secondIndexed (.drain (fun _ => some 1) (fun _ => 0)) := by
  have hNow : Echoes 1700000060 := ⟨by decide, by decide⟩
  exact ⟨fun _ => hNow, by decide⟩

theorem run_secondIndexed :
    Run (pullStep "wxid_a") (PullOk "wxid_a") (.start listedStore 1700000000 none)
      secondIndexed := by
  have hFirst : Run (pullStep "wxid_a") (PullOk "wxid_a") (.start listedStore 1700000000 none)
      firstIndexed := .single (.grow [recordAt 1 1699999999]) (by simp only [PullOk]; decide) rfl
  have hDrained := hFirst.tail (.drain (fun _ => none) (fun _ => 0)) pullOk_firstIndexed
    (u := firstIndexed.take (fun _ => 0) firstPages) rfl
  have hLater := hDrained.tail (PullOp.tick 60) trivial rfl
  exact hLater.tail (.grow [recordAt 2 1700000030]) (by simp only [PullOk]; decide) rfl

/-- Two drains: the second one begins at the cursor of the first and serves the later row. -/
theorem resumed_pulls_exact_two_drains :
    secondIndexed.delivered = [recordAt 1 1699999999] ∧ secondIndexed.cursor = some 1700000000 ∧
      secondIndexed.store.conv "wxid_a" = [recordAt 1 1699999999, recordAt 2 1700000030] ∧
      ∃ c', pullStep "wxid_a" secondIndexed (.drain (fun _ => some 1) (fun _ => 0)) = some c' ∧
        c'.delivered.Perm (c'.store.conv "wxid_a") :=
  ⟨by decide, by decide, by decide, (resumed_pulls_exact "wxid_a" listedStore 1700000000 none
    ⟨by decide, by decide, by simp⟩ secondIndexed run_secondIndexed).2 _ _ pullOk_secondIndexed⟩

/-- What the client holds and what the server has after a list of operations. -/
def outcome (id : String) (s : Store) (now : Int) (ops : List PullOp) :
    Option (List MessageRecord × List MessageRecord) :=
  (exec (pullStep id) (fun _ _ => true) (.start s now none) ops).map fun c =>
    (c.delivered, c.store.conv id)

/-- The first client drains at 1700000000; then a row created a second before becomes indexed,
and no later drain delivers it. The second one loses a row to a cursor that reads as a date. -/
theorem late_row_is_never_delivered :
    outcome "wxid_a" listedStore 1700000000
        [.drain (fun _ => none) (fun _ => 0), .grow [recordAt 1 1699999999], .tick 60,
          .drain (fun _ => none) (fun _ => 0)] = some ([], [recordAt 1 1699999999]) ∧
      outcome "wxid_a" listedStore 1700000000
        [.grow [recordAt 1 20240101, recordAt 2 20240102],
          .drain (fun _ => some 1) (fun _ => 0), .drain (fun _ => some 1) (fun _ => 0)] =
        some ([recordAt 1 20240101], [recordAt 1 20240101, recordAt 2 20240102]) := by
  decide

end Weflow.Pull
