import Weflow.Sync.History

/-!
# The SSE stream

`sse_from` of `server/handlers/push_events.rs`: the frames one connection is sent, and the
system of the event bus with any number of connections. A connection is polled frame by
frame by `Conn.next`; between two frames any other connection may move and anything may be
published, so every interleaving is a list of `Op`s.

* `SseOk` collects what the stream promises in one state; `sse_ok` proves it for every list
  of operations.
* The argument runs over two relations: `Live e fs e'` describes the frames of the live part
  from the expected id `e` to the expected id `e'`, and `ConnOk` ties the receiver's position
  to that id.

Keep-alive comments are no frames, and the shape of a payload is left to the serializer.
-/

namespace Weflow.Sse

open Broadcast

/-- The watermarks a sync frame carries. -/
abbrev Watermarks := List (WmKey × Watermark)

/-- One frame of the stream, by the part of `sse_from` that yields it. -/
inductive Frame
  | ready
  | replay (id : Nat) (ev : Event)
  | baseline (wms : Watermarks)
  | live (id : Nat) (ev : Event)
  | rebase (wms : Watermarks)
deriving DecidableEq, Repr

namespace Frame

/-- The `id:` field. -/
@[simp] def id : Frame → Option Nat
  | ready => none
  | replay id _ => some id
  | baseline _ => none
  | live id _ => some id
  | rebase _ => none

@[simp] def isLive : Frame → Bool
  | live _ _ => true
  | _ => false

/-- The data field: a literal, or what the serializer made. -/
inductive Data (P : Type)
  | text (s : String)
  | json (payload : P)

/-- `id`, event name and data as sent, with the serializer of the face. -/
def wire {P : Type} (serialize : Event → String × P) :
    Frame → Option String × String × Data P
  | ready => (none, "ready", .text "\x7b\"status\":\"ok\"\x7d")
  | replay id ev => (some (toString id), (serialize ev).1, .json (serialize ev).2)
  | baseline wms => (none, (serialize (.sync wms)).1, .json (serialize (.sync wms)).2)
  | live id ev => (some (toString id), (serialize ev).1, .json (serialize ev).2)
  | rebase wms => (none, (serialize (.sync wms)).1, .json (serialize (.sync wms)).2)

end Frame

/-- Where the stream body stands: before `ready`, in the replay loop, in the live loop. -/
inductive Pc
  | ready (replay : List Stamped)
  | replay (rest : List Stamped)
  | live
deriving DecidableEq, Repr

/-- One connection. The frames sent are kept as those before the live loop and those of it.
The last id assigned before the subscription and the receiver's first position are kept for
the statements. -/
structure Conn where
  pc : Pc
  rx : Nat
  preamble : List Frame
  stream : List Frame
  closed : Bool
  base : Nat
  start : Nat
deriving DecidableEq, Repr

/-- All frames sent, in order. -/
def Conn.sent (c : Conn) : List Frame := c.preamble ++ c.stream

/-- The next frame of the stream, if one is due; `wms` are the current watermarks. -/
def Conn.next (tx : RingBuffer Stamped) (wms : Watermarks) (c : Conn) : Conn :=
  match c.pc with
  | .ready replay => { c with pc := .replay replay, preamble := c.preamble ++ [.ready] }
  | .replay (a :: rest) =>
    { c with pc := .replay rest, preamble := c.preamble ++ [.replay a.id a.event] }
  | .replay [] => { c with pc := .live, preamble := c.preamble ++ [.baseline wms] }
  | .live =>
    match tx.recv c.rx with
    | (.item a, rx) => { c with rx, stream := c.stream ++ [.live a.id a.event] }
    | (.lagged _, rx) => { c with rx, stream := c.stream ++ [.rebase wms] }
    | (.empty, _) => c

/-- The server. `log` lists everything published and `cleared` how much of it the last clear
of the history found; both are kept for the statements. -/
structure Server where
  bus : EventBus
  now : Nat
  conns : List Conn
  log : List Stamped
  cleared : Nat

def Server.new (capacity : Nat) (h : 0 < capacity) : Server := ⟨.new capacity h, 0, [], [], 0⟩

inductive Op
  | publish (event : Event)
  | subscribe (since : Nat)
  | next (i : Nat) (wms : Watermarks)
  | close (i : Nat)
  | clear
  | tick (d : Nat)
deriving DecidableEq, Repr

/-- The connection a subscription opens. -/
def Conn.opened (rx base : Nat) (replay : List Stamped) : Conn :=
  ⟨.ready replay, rx, [], [], false, base, rx⟩

def Server.publish (s : Server) (event : Event) : Server :=
  let (bus, id) := s.bus.publish s.now event
  { s with bus, log := s.log ++ [⟨id, event⟩] }

def Server.subscribe (s : Server) (since : Nat) : Server :=
  let (bus, rx, replay) := s.bus.subscribeWithReplay s.now since
  { s with bus, conns := s.conns ++ [.opened rx bus.history.lastId replay] }

/-- The consumer of connection `i` asks for a frame. -/
def Server.next (s : Server) (i : Nat) (wms : Watermarks) : Server :=
  { s with conns := s.conns.modify i fun c => if c.closed then c else c.next s.bus.tx wms }

/-- Connection `i` ends and its receiver is dropped. -/
def Server.close (s : Server) (i : Nat) : Server :=
  match s.conns[i]? with
  | some c =>
    if c.closed then s
    else
      { s with
        bus := { s.bus with tx := s.bus.tx.unsubscribe }
        conns := s.conns.set i { c with closed := true } }
  | none => s

def Server.step (s : Server) : Op → Server
  | .publish event => s.publish event
  | .subscribe since => s.subscribe since
  | .next i wms => s.next i wms
  | .close i => s.close i
  | .clear => { s with bus := s.bus.clearHistory, cleared := s.log.length }
  | .tick d => { s with now := s.now + d }

def Server.run (s : Server) (ops : List Op) : Server := ops.foldl Server.step s

/-! ## The live part of a stream -/

/-- The frames of the live loop take the expected id from `e` to `e'`: a live frame has the
expected id, a rebase frame may skip some. -/
inductive Live : Nat → List Frame → Nat → Prop
  | nil (e : Nat) : Live e [] e
  | live {e e' : Nat} {fs : List Frame} (ev : Event) (h : Live (e + 1) fs e') :
      Live e (.live e ev :: fs) e'
  | rebase {e m e' : Nat} {fs : List Frame} (wms : Watermarks) (hm : e ≤ m)
      (h : Live m fs e') : Live e (.rebase wms :: fs) e'

namespace Live

variable {a b c : Nat} {fs gs : List Frame}

theorem append (h : Live a fs b) (g : Live b gs c) : Live a (fs ++ gs) c := by
  induction h with
  | nil _ => exact g
  | live ev _ ih => exact .live ev (ih g)
  | rebase wms hm _ ih => exact .rebase wms hm (ih g)

theorem of_append (h : Live a (fs ++ gs) c) : ∃ b, Live a fs b ∧ Live b gs c := by
  induction fs generalizing a with
  | nil => exact ⟨a, .nil a, h⟩
  | cons f fs ih =>
    cases h with
    | live ev h =>
      obtain ⟨b, h₁, h₂⟩ := ih h
      exact ⟨b, .live ev h₁, h₂⟩
    | rebase wms hm h =>
      obtain ⟨b, h₁, h₂⟩ := ih h
      exact ⟨b, .rebase wms hm h₁, h₂⟩

theorem id_eq {i : Nat} {ev : Event} (h : Live a (.live i ev :: fs) b) : i = a := by
  cases h
  rfl

/-- The ids of the live part are strictly increasing, from the expected one on. -/
theorem ids (h : Live a fs b) :
    (fs.filterMap Frame.id).Pairwise (· < ·) ∧ ∀ i ∈ fs.filterMap Frame.id, a ≤ i := by
  induction h with
  | nil _ => simp
  | live ev _ ih =>
    rw [List.filterMap_cons_some (show Frame.id (.live _ ev) = some _ from rfl)]
    refine ⟨List.pairwise_cons.mpr ⟨fun i hi => ih.2 i hi, ih.1⟩, fun i hi => ?_⟩
    rcases List.mem_cons.mp hi with rfl | hi
    · exact le_rfl
    · have := ih.2 i hi
      omega
  | rebase wms hm _ ih =>
    rw [List.filterMap_cons_none (show Frame.id (.rebase wms) = none from rfl)]
    exact ⟨ih.1, fun i hi => hm.trans (ih.2 i hi)⟩

/-- Frames without an id that skip ids contain a rebase frame. -/
theorem gap (h : Live a fs b) (hNone : ∀ f ∈ fs, f.id = none) (hne : a ≠ b) :
    ∃ wms, Frame.rebase wms ∈ fs := by
  cases h with
  | nil _ => exact absurd rfl hne
  | live ev _ => exact absurd (hNone _ List.mem_cons_self) (by simp [Frame.id])
  | rebase wms _ _ => exact ⟨wms, List.mem_cons_self⟩

/-- No frame of the live part belongs to the preamble. -/
theorem cases_mem (h : Live a fs b) {f : Frame} (hf : f ∈ fs) :
    (∃ i ev, f = .live i ev) ∨ ∃ wms, f = .rebase wms := by
  induction h with
  | nil _ => cases hf
  | live ev _ ih =>
    rcases List.mem_cons.mp hf with rfl | hf
    · exact .inl ⟨_, ev, rfl⟩
    · exact ih hf
  | rebase wms _ _ ih =>
    rcases List.mem_cons.mp hf with rfl | hf
    · exact .inr ⟨wms, rfl⟩
    · exact ih hf

end Live

/-! ## One connection -/

/-- The replayed events not sent yet. -/
def Conn.pending (c : Conn) : List Stamped :=
  match c.pc with
  | .ready replay => replay
  | .replay rest => rest
  | .live => []

/-- What was sent and what is still to be replayed. -/
structure Traced (log : List Stamped) (c : Conn) : Prop where
  preamble_ids : (c.preamble.filterMap Frame.id ++ c.pending.map Stamped.id).Pairwise (· < ·)
  preamble_le : ∀ i ∈ c.preamble.filterMap Frame.id ++ c.pending.map Stamped.id, i ≤ c.base
  preamble_not_live : ∀ f ∈ c.preamble, f.isLive = false
  pending_published : ∀ a ∈ c.pending, a ∈ log
  preamble_published : ∀ id ev, .replay id ev ∈ c.preamble → ⟨id, ev⟩ ∈ log
  start_le : c.start ≤ c.rx
  live : Live (c.base + 1) c.stream (c.base + 1 + (c.rx - c.start))
  stream_published : ∀ id ev, .live id ev ∈ c.stream → ⟨id, ev⟩ ∈ log

/-- The receiver of an open connection: positions and ids differ by a constant, and a
retained item it has passed was sent. -/
structure Attached (tx : RingBuffer Stamped) (lastId : Nat) (c : Conn) : Prop where
  rx_le : c.rx ≤ tx.pos
  offset : c.base + tx.pos = lastId + c.start
  older : ∀ p a, tx.at? p = some a → p < c.start → a.id ≤ c.base
  item_id : ∀ p a, tx.at? p = some a → c.start ≤ p → a.id + c.start = c.base + 1 + p
  passed : ∀ p a, tx.at? p = some a → c.start ≤ p → p < c.rx → .live a.id a.event ∈ c.stream

section

variable {log : List Stamped} {tx : RingBuffer Stamped} {lastId : Nat} {c : Conn}

theorem Traced.mono {log' : List Stamped} (h : Traced log c) (hLog : ∀ a ∈ log, a ∈ log') :
    Traced log' c :=
  { h with
    pending_published := fun a ha => hLog a (h.pending_published a ha)
    preamble_published := fun i ev hf => hLog _ (h.preamble_published i ev hf)
    stream_published := fun i ev hf => hLog _ (h.stream_published i ev hf) }

/-- The connection a subscription opens. -/
theorem traced_opened {replay : List Stamped} {rx base : Nat}
    (hIds : (replay.map Stamped.id).Pairwise (· < ·)) (hLe : ∀ a ∈ replay, a.id ≤ base)
    (hLog : ∀ a ∈ replay, a ∈ log) : Traced log (.opened rx base replay) where
  preamble_ids := by simpa [Conn.opened, Conn.pending] using hIds
  preamble_le := by simpa [Conn.opened, Conn.pending] using hLe
  preamble_not_live := by simp [Conn.opened]
  pending_published := hLog
  preamble_published := by simp [Conn.opened]
  start_le := le_rfl
  live := by
    simp only [Conn.opened, Nat.sub_self, Nat.add_zero]
    exact .nil _
  stream_published := by simp [Conn.opened]

theorem attached_opened (tx : RingBuffer Stamped) {replay : List Stamped} {base : Nat}
    (hLe : ∀ p a, tx.at? p = some a → a.id ≤ base) :
    Attached tx base (.opened tx.pos base replay) where
  rx_le := le_rfl
  offset := rfl
  older p a ha _ := hLe p a ha
  item_id _ _ ha hp := absurd (RingBuffer.at?_some ha).2 (Nat.not_lt.mpr hp)
  passed _ _ _ hp hLt := absurd hLt (Nat.not_lt.mpr hp)

/-- A publication reaches every open connection. -/
theorem Attached.push (h : Attached tx lastId c) (hStart : c.start ≤ c.rx) (ev : Event) :
    Attached (tx.push ⟨lastId + 1, ev⟩) (lastId + 1) c where
  rx_le := by
    have := h.rx_le
    rw [RingBuffer.pos_push]
    omega
  offset := by
    have := h.offset
    rw [RingBuffer.pos_push]
    omega
  older p a ha hp := by
    rcases RingBuffer.at?_of_push ha with ⟨rfl, rfl⟩ | ha
    · exact absurd hp (Nat.not_lt.mpr (hStart.trans h.rx_le))
    · exact h.older p a ha hp
  item_id p a ha hp := by
    rcases RingBuffer.at?_of_push ha with ⟨rfl, rfl⟩ | ha
    · have := h.offset
      simp only
      omega
    · exact h.item_id p a ha hp
  passed p a ha hp hLt := by
    rcases RingBuffer.at?_of_push ha with ⟨rfl, rfl⟩ | ha
    · exact absurd hLt (Nat.not_lt.mpr h.rx_le)
    · exact h.passed p a ha hp hLt

theorem Conn.closed_next (wms : Watermarks) : (c.next tx wms).closed = c.closed := by
  unfold Conn.next
  split <;> try rfl
  split <;> rfl

/-- What one poll of an open connection does. -/
theorem Conn.next_cases (c : Conn) (tx : RingBuffer Stamped) (wms : Watermarks) :
    (∃ replay, c.pc = .ready replay ∧ c.next tx wms =
      { c with pc := .replay replay, preamble := c.preamble ++ [.ready] }) ∨
    (∃ a rest, c.pc = .replay (a :: rest) ∧ c.next tx wms =
      { c with pc := .replay rest, preamble := c.preamble ++ [.replay a.id a.event] }) ∨
    (c.pc = .replay [] ∧ c.next tx wms =
      { c with pc := .live, preamble := c.preamble ++ [.baseline wms] }) ∨
    (∃ a, c.pc = .live ∧ tx.at? c.rx = some a ∧ c.next tx wms =
      { c with rx := c.rx + 1, stream := c.stream ++ [.live a.id a.event] }) ∨
    (c.pc = .live ∧ c.rx < tx.oldest ∧ c.next tx wms =
      { c with rx := tx.oldest, stream := c.stream ++ [.rebase wms] }) ∨
    (c.pc = .live ∧ tx.pos ≤ c.rx ∧ c.next tx wms = c) := by
  unfold Conn.next
  rcases hPc : c.pc with replay | rest | _
  · exact .inl ⟨replay, rfl, rfl⟩
  · rcases rest with _ | ⟨a, rest⟩
    · exact .inr (.inr (.inl ⟨rfl, rfl⟩))
    · exact .inr (.inl ⟨a, rest, rfl, rfl⟩)
  · rcases hRecv : tx.recv c.rx with ⟨_ | _ | a, rx⟩
    · exact .inr (.inr (.inr (.inr (.inr ⟨rfl, (RingBuffer.recv_empty hRecv).1, rfl⟩))))
    · obtain ⟨hLt, rfl⟩ := RingBuffer.recv_lagged hRecv
      exact .inr (.inr (.inr (.inr (.inl ⟨rfl, hLt, rfl⟩))))
    · obtain ⟨hAt, rfl⟩ := RingBuffer.recv_item hRecv
      exact .inr (.inr (.inr (.inl ⟨a, rfl, hAt, rfl⟩)))

theorem Traced.next (h : Traced log c) (hA : Attached tx lastId c)
    (hRing : ∀ p a, tx.at? p = some a → a ∈ log) (wms : Watermarks) :
    Traced log (c.next tx wms) := by
  obtain ⟨hIds, hLe, hNot, hPend, hPre, hStart, hLive, hStream⟩ := h
  rcases c.next_cases tx wms with ⟨replay, hPc, hEq⟩ | ⟨a, rest, hPc, hEq⟩ |
    ⟨hPc, hEq⟩ | ⟨a, hPc, hAt, hEq⟩ | ⟨hPc, hLt, hEq⟩ | ⟨_, _, hEq⟩ <;> rw [hEq]
  · -- `ready`
    simp only [Conn.pending, hPc] at hIds hLe hPend
    refine ⟨?_, ?_, ?_, hPend, ?_, hStart, hLive, hStream⟩
    · simpa [Conn.pending, List.filterMap_cons] using hIds
    · simpa [Conn.pending] using hLe
    · simpa [or_imp, forall_and] using hNot
    · simpa using hPre
  · -- one replayed event
    simp only [Conn.pending, hPc] at hIds hLe hPend
    refine ⟨?_, ?_, ?_, fun b hb => hPend b (List.mem_cons_of_mem _ hb), ?_, hStart, hLive,
      hStream⟩
    · simpa [Conn.pending, List.filterMap_cons] using hIds
    · simpa [Conn.pending] using hLe
    · intro f hf
      rcases List.mem_append.mp hf with hf | hf
      · exact hNot f hf
      · rw [List.mem_singleton.mp hf]
        rfl
    · intro id ev hf
      rcases List.mem_append.mp hf with hf | hf
      · exact hPre id ev hf
      · cases List.mem_singleton.mp hf
        exact hPend a List.mem_cons_self
  · -- the baseline
    simp only [Conn.pending, hPc] at hIds hLe
    refine ⟨?_, ?_, ?_, by simp [Conn.pending], ?_, hStart, hLive, hStream⟩
    · simpa [Conn.pending, List.filterMap_cons] using hIds
    · simpa [Conn.pending] using hLe
    · simpa [or_imp, forall_and] using hNot
    · simpa using hPre
  · -- an item: it has the expected id
    have hId := hA.item_id c.rx a hAt hStart
    have hId' : a.id = c.base + 1 + (c.rx - c.start) := by omega
    refine ⟨hIds, hLe, hNot, hPend, hPre, Nat.le_succ_of_le hStart, ?_, ?_⟩
    · refine hLive.append ?_
      rw [hId']
      have hNext : c.base + 1 + (c.rx + 1 - c.start) = c.base + 1 + (c.rx - c.start) + 1 := by
        omega
      simp only [hNext]
      exact .live _ (.nil _)
    · intro id ev hf
      rcases List.mem_append.mp hf with hf | hf
      · exact hStream id ev hf
      · cases List.mem_singleton.mp hf
        exact hRing _ a hAt
  · -- lagged: the expected id jumps with the position
    refine ⟨hIds, hLe, hNot, hPend, hPre, hStart.trans hLt.le, ?_, ?_⟩
    · exact hLive.append (.rebase wms (by simp only; omega) (.nil _))
    · simpa using hStream
  · exact ⟨hIds, hLe, hNot, hPend, hPre, hStart, hLive, hStream⟩

theorem Attached.next (h : Attached tx lastId c) (wms : Watermarks) :
    Attached tx lastId (c.next tx wms) := by
  obtain ⟨hRx, hOffset, hOlder, hItem, hPassed⟩ := h
  rcases c.next_cases tx wms with ⟨replay, hPc, hEq⟩ | ⟨a, rest, hPc, hEq⟩ |
    ⟨hPc, hEq⟩ | ⟨a, hPc, hAt, hEq⟩ | ⟨hPc, hLt, hEq⟩ | ⟨_, _, hEq⟩ <;> rw [hEq]
  · exact ⟨hRx, hOffset, hOlder, hItem, hPassed⟩
  · exact ⟨hRx, hOffset, hOlder, hItem, hPassed⟩
  · exact ⟨hRx, hOffset, hOlder, hItem, hPassed⟩
  · refine ⟨(RingBuffer.at?_some hAt).2, hOffset, hOlder, hItem, fun p b hb hp hLt => ?_⟩
    rcases Nat.lt_succ_iff_lt_or_eq.mp hLt with hLt | rfl
    · exact List.mem_append_left _ (hPassed p b hb hp hLt)
    · obtain rfl : a = b := Option.some.inj (hAt.symm.trans hb)
      simp
  · refine ⟨tx.oldest_le_pos, hOffset, hOlder, hItem, fun p b hb _ hLt => ?_⟩
    exact absurd (RingBuffer.at?_some hb).1 (Nat.not_le.mpr hLt)
  · exact ⟨hRx, hOffset, hOlder, hItem, hPassed⟩

/-! ## A consumer that keeps reading -/

/-- The polls an open connection needs at most to catch up with the ring. -/
def Conn.behind (tx : RingBuffer Stamped) (c : Conn) : Nat :=
  match c.pc with
  | .ready replay => replay.length + 2 + 2 * (tx.pos - c.rx)
  | .replay rest => rest.length + 1 + 2 * (tx.pos - c.rx)
  | .live => 2 * (tx.pos - c.rx)

theorem Conn.behind_next (wms : Watermarks) (h : 0 < c.behind tx) : (c.next tx wms).behind tx < c.behind tx := by
  have hOld := tx.oldest_add_length
  rcases c.next_cases tx wms with ⟨replay, hPc, hEq⟩ | ⟨a, rest, hPc, hEq⟩ |
    ⟨hPc, hEq⟩ | ⟨a, hPc, hAt, hEq⟩ | ⟨hPc, hLt, hEq⟩ | ⟨hPc, hEnd, hEq⟩
  · simp only [hEq, Conn.behind, hPc]
    omega
  · simp only [hEq, Conn.behind, hPc, List.length_cons]
    omega
  · simp only [hEq, Conn.behind, hPc, List.length_nil]
    omega
  · have := (RingBuffer.at?_some hAt).2
    simp only [hEq, Conn.behind, hPc]
    omega
  · simp only [hEq, Conn.behind, hPc]
    omega
  · simp only [Conn.behind, hPc] at h
    omega

/-- A consumer that polls often enough is at the end of the ring. -/
theorem Conn.caught_up (tx : RingBuffer Stamped) (wms : Watermarks) (c : Conn) :
    ∃ n, tx.pos ≤ ((Conn.next tx wms)^[n] c).rx := by
  generalize hm : c.behind tx = m
  induction m using Nat.strong_induction_on generalizing c with
  | _ m ih =>
    rcases Nat.eq_zero_or_pos (c.behind tx) with h | h
    · refine ⟨0, ?_⟩
      change tx.pos ≤ c.rx
      unfold Conn.behind at h
      split at h <;> omega
    · obtain ⟨n, hn⟩ := ih _ (hm ▸ c.behind_next wms h) (c.next tx wms) rfl
      exact ⟨n + 1, by rwa [Function.iterate_succ_apply]⟩

theorem Attached.iterate (h : Attached tx lastId c) (wms : Watermarks) (n : Nat) :
    Attached tx lastId ((Conn.next tx wms)^[n] c) := by
  induction n generalizing c with
  | zero => exact h
  | succ n ih =>
    rw [Function.iterate_succ_apply]
    exact ih (h.next wms)

theorem Conn.start_next (wms : Watermarks) : (c.next tx wms).start = c.start := by
  unfold Conn.next
  split <;> try rfl
  split <;> rfl

theorem Conn.start_iterate (wms : Watermarks) (n : Nat) (c : Conn) :
    ((Conn.next tx wms)^[n] c).start = c.start := by
  induction n generalizing c with
  | zero => rfl
  | succ n ih => rw [Function.iterate_succ_apply, ih, Conn.start_next]

/-- Every retained item published after the subscription is sent to a consumer that polls
often enough. -/
theorem Attached.delivers (h : Attached tx lastId c) (wms : Watermarks) :
    ∃ n, ∀ p a, tx.at? p = some a → c.start ≤ p →
      .live a.id a.event ∈ ((Conn.next tx wms)^[n] c).stream := by
  obtain ⟨n, hn⟩ := Conn.caught_up tx wms c
  refine ⟨n, fun p a ha hp => (h.iterate wms n).passed p a ha ?_ ?_⟩
  · rwa [Conn.start_iterate]
  · exact (RingBuffer.at?_some ha).2.trans_le hn

end

/-! ## The server -/

/-- The invariant of every run. -/
structure Inv (s : Server) : Prop where
  log_ids : s.log.map Stamped.id = List.range' 1 s.log.length
  lastId : s.bus.history.lastId = s.log.length
  cleared_le : s.cleared ≤ s.log.length
  history : s.bus.history.items.map HistoryItem.stamped = (s.log.drop s.cleared).rtake historyMax
  ring : ∀ p a, s.bus.tx.at? p = some a → a ∈ s.log
  receivers : s.bus.tx.receivers = s.conns.countP fun c => !c.closed
  traced : ∀ c ∈ s.conns, Traced s.log c
  attached : ∀ c ∈ s.conns, c.closed = false → Attached s.bus.tx s.bus.history.lastId c

theorem inv_new (capacity : Nat) (h : 0 < capacity) : Inv (.new capacity h) where
  log_ids := rfl
  lastId := rfl
  cleared_le := le_rfl
  history := by simp [Server.new, EventBus.new, HistoryBuf.empty, List.rtake]
  ring _ _ ha := by simp [Server.new, EventBus.new, RingBuffer.new, RingBuffer.at?] at ha
  receivers := rfl
  traced := by simp [Server.new]
  attached := by simp [Server.new]

namespace Inv

variable {s : Server}

theorem id_le (h : Inv s) {a : Stamped} (ha : a ∈ s.log) : a.id ≤ s.bus.history.lastId := by
  have hMem : a.id ∈ s.log.map Stamped.id := List.mem_map_of_mem ha
  rw [h.log_ids, List.mem_range'_1] at hMem
  have := h.lastId
  omega

/-- An id determines what was published under it. -/
theorem eq_of_id_eq (h : Inv s) {a b : Stamped} (ha : a ∈ s.log) (hb : b ∈ s.log)
    (hId : a.id = b.id) : a = b := by
  have hNodup : (s.log.map Stamped.id).Nodup := by
    rw [h.log_ids]
    exact List.nodup_range'
  exact List.inj_on_of_nodup_map hNodup ha hb hId

theorem publish (h : Inv s) (ev : Event) : Inv (s.publish ev) := by
  have hLast : (s.bus.history.append s.now ev).lastId = s.log.length + 1 := by
    rw [HistoryBuf.lastId_append, h.lastId]
  have hLog : ∀ a ∈ s.log, a ∈ s.log ++ [Stamped.mk (s.log.length + 1) ev] :=
    fun a ha => List.mem_append_left _ ha
  have hPublish : s.publish ev =
      { s with
        bus := ⟨s.bus.history.append s.now ev, s.bus.tx.send ⟨s.log.length + 1, ev⟩⟩
        log := s.log ++ [⟨s.log.length + 1, ev⟩] } := by
    rw [← hLast]
    rfl
  rw [hPublish]
  refine ⟨?_, ?_, ?_, ?_, ?_, ?_, ?_, ?_⟩
  · simp only [List.map_append, h.log_ids, List.length_append, List.length_singleton,
      List.map_singleton, List.range'_concat]
    congr 2
    omega
  · simpa using hLast
  · simpa using Nat.le_succ_of_le h.cleared_le
  · simp only [HistoryBuf.stamped_append, h.history, h.lastId, rtake_concat_rtake]
    rw [List.drop_append_of_le_length h.cleared_le]
  · intro p a ha
    simp only [RingBuffer.send] at ha
    split at ha
    · exact hLog a (h.ring p a ha)
    · rcases RingBuffer.at?_of_push ha with ⟨_, rfl⟩ | ha
      · simp
      · exact hLog a (h.ring p a ha)
  · simp only [RingBuffer.send]
    split
    · exact h.receivers
    · exact h.receivers
  · exact fun c hc => (h.traced c hc).mono hLog
  · intro c hc hOpen
    -- an open connection is a receiver, so the event is stored in the ring
    have hPos : 0 < s.conns.countP fun c => !c.closed :=
      List.countP_pos_iff.mpr ⟨c, hc, by simp [hOpen]⟩
    have hRecv : s.bus.tx.receivers ≠ 0 := by
      have := h.receivers
      omega
    simp only [RingBuffer.send, if_neg hRecv, HistoryBuf.lastId_append, ← h.lastId]
    exact (h.attached c hc hOpen).push (h.traced c hc).start_le ev

theorem subscribe (h : Inv s) (since : Nat) : Inv (s.subscribe since) := by
  obtain ⟨hIds, hReplay⟩ := s.bus.history.replaySince_spec s.now since
  have hLog : ∀ a ∈ s.bus.history.replaySince s.now since, a ∈ s.log := by
    intro a ha
    have hMem := (hReplay a ha).2.2
    rw [h.history] at hMem
    exact List.mem_of_mem_drop (List.mem_of_mem_drop hMem)
  have hAt : ∀ p, s.bus.tx.subscribe.1.at? p = s.bus.tx.at? p := fun _ => rfl
  refine ⟨h.log_ids, h.lastId, h.cleared_le, h.history, h.ring, ?_, ?_, ?_⟩
  · simp only [Server.subscribe, EventBus.subscribeWithReplay, RingBuffer.subscribe,
      List.countP_append, h.receivers]
    rfl
  · intro c hc
    rcases List.mem_append.mp hc with hc | hc
    · exact h.traced c hc
    · rw [List.mem_singleton.mp hc]
      exact traced_opened hIds (fun a ha => (hReplay a ha).2.1) hLog
  · intro c hc hOpen
    rcases List.mem_append.mp hc with hc | hc
    · obtain ⟨hRx, hOffset, hOlder, hItem, hPassed⟩ := h.attached c hc hOpen
      exact ⟨hRx, hOffset, hOlder, hItem, hPassed⟩
    · rw [List.mem_singleton.mp hc]
      exact attached_opened s.bus.tx.subscribe.1 fun p a ha => h.id_le (h.ring p a ha)

/-- A poll changes one connection and nothing else. -/
theorem next (h : Inv s) (i : Nat) (wms : Watermarks) : Inv (s.next i wms) := by
  have hMem : ∀ c' ∈ (s.next i wms).conns, c' ∈ s.conns ∨
      ∃ c ∈ s.conns, c.closed = false ∧ c' = c.next s.bus.tx wms := by
    intro c' hc'
    obtain ⟨j, hj⟩ := List.mem_iff_getElem?.mp hc'
    simp only [Server.next, List.getElem?_modify] at hj
    split at hj
    · obtain ⟨c, hc, rfl⟩ := Option.map_eq_some_iff.mp hj
      have hc := List.mem_of_getElem? hc
      by_cases hClosed : c.closed
      · rw [if_pos hClosed]
        exact .inl hc
      · rw [if_neg hClosed]
        exact .inr ⟨c, hc, by simpa using hClosed, rfl⟩
    · exact .inl (List.mem_of_getElem? (by simpa using hj))
  refine ⟨h.log_ids, h.lastId, h.cleared_le, h.history, h.ring, ?_, ?_, ?_⟩
  · have hClosed : (s.next i wms).conns.map Conn.closed = s.conns.map Conn.closed := by
      apply List.ext_getElem?
      intro j
      simp only [Server.next, List.getElem?_map, List.getElem?_modify]
      split
      · cases s.conns[j]? with
        | none => rfl
        | some c =>
          by_cases hc : c.closed <;> simp [hc, Conn.closed_next]
      · simp
    have hCount := congrArg (List.countP (! ·)) hClosed
    rw [List.countP_map, List.countP_map] at hCount
    exact h.receivers.trans hCount.symm
  · intro c' hc'
    rcases hMem c' hc' with hc | ⟨c, hc, hOpen, rfl⟩
    · exact h.traced c' hc
    · exact (h.traced c hc).next (h.attached c hc hOpen) h.ring wms
  · intro c' hc' hOpen'
    rcases hMem c' hc' with hc | ⟨c, hc, hOpen, rfl⟩
    · exact h.attached c' hc hOpen'
    · exact (h.attached c hc hOpen).next wms

theorem close (h : Inv s) (i : Nat) : Inv (s.close i) := by
  unfold Server.close
  split
  · rename_i c hc
    split
    · exact h
    · rename_i hOpen
      have hOpen : c.closed = false := by simpa using hOpen
      obtain ⟨hi, rfl⟩ := List.getElem?_eq_some_iff.mp hc
      have hMem : ∀ c' ∈ s.conns.set i { s.conns[i] with closed := true },
          c' ∈ s.conns ∨ c' = { s.conns[i] with closed := true } := by
        intro c' hc'
        exact List.mem_or_eq_of_mem_set hc'
      refine ⟨h.log_ids, h.lastId, h.cleared_le, h.history, h.ring, ?_, ?_, ?_⟩
      · have hCount := h.receivers
        simp only [RingBuffer.unsubscribe, List.countP_set hi, hOpen, hCount]
        simp
      · intro c' hc'
        rcases hMem c' hc' with hc' | rfl
        · exact h.traced c' hc'
        · obtain ⟨h₁, h₂, h₃, h₄, h₅, h₆, h₇, h₈⟩ := h.traced s.conns[i] (List.getElem_mem hi)
          exact ⟨h₁, h₂, h₃, h₄, h₅, h₆, h₇, h₈⟩
      · intro c' hc' hOpen'
        rcases hMem c' hc' with hc' | rfl
        · obtain ⟨hRx, hOffset, hOlder, hItem, hPassed⟩ := h.attached c' hc' hOpen'
          exact ⟨hRx, hOffset, hOlder, hItem, hPassed⟩
        · cases hOpen'
  · exact h

theorem clear (h : Inv s) : Inv (s.step .clear) where
  log_ids := h.log_ids
  lastId := h.lastId
  cleared_le := le_rfl
  history := by simp [Server.step, EventBus.clearHistory, HistoryBuf.clear, List.rtake]
  ring := h.ring
  receivers := h.receivers
  traced := h.traced
  attached := h.attached

theorem step (h : Inv s) (op : Op) : Inv (s.step op) := by
  cases op with
  | publish ev => exact h.publish ev
  | subscribe since => exact h.subscribe since
  | next i wms => exact h.next i wms
  | close i => exact h.close i
  | clear => exact h.clear
  | tick d =>
    obtain ⟨h₁, h₂, h₃, h₄, h₅, h₆, h₇, h₈⟩ := h
    exact ⟨h₁, h₂, h₃, h₄, h₅, h₆, h₇, h₈⟩

theorem run (h : Inv s) (ops : List Op) : Inv (s.run ops) := by
  induction ops generalizing s with
  | nil => exact h
  | cons op ops ih => exact ih (h.step op)

end Inv

/-! ## What the stream promises -/

/-- The promises of the stream in one state of the server. -/
structure SseOk (s : Server) : Prop where
  /-- The ids on one connection strictly increase. -/
  ids_increasing : ∀ c ∈ s.conns, (c.sent.filterMap Frame.id).Pairwise (· < ·)
  /-- No id is replayed and also sent live. -/
  parts_disjoint : ∀ c ∈ s.conns, ∀ i ev ev',
    .replay i ev ∈ c.sent → .live i ev' ∉ c.sent
  /-- Every id is sent with the event it was published with. -/
  published : ∀ c ∈ s.conns, ∀ i ev,
    .replay i ev ∈ c.sent ∨ .live i ev ∈ c.sent → ⟨i, ev⟩ ∈ s.log
  /-- Ids missing before the first live frame are announced before it. -/
  first_live : ∀ c ∈ s.conns, ∀ pre post i ev, c.sent = pre ++ .live i ev :: post →
    (∀ f ∈ pre, f.isLive = false) → i ≠ c.base + 1 → ∃ wms, .rebase wms ∈ pre
  /-- Ids missing between two live frames are announced between them. -/
  live_gap : ∀ c ∈ s.conns, ∀ pre mid post i j ev ev',
    c.sent = pre ++ .live i ev :: (mid ++ .live j ev' :: post) →
    (∀ f ∈ mid, f.id = none) → j ≠ i + 1 → ∃ wms, .rebase wms ∈ mid
  /-- What was published after the subscription and is retained, in the ring or in a history
  no longer than the ring, reaches the consumer when it polls often enough. -/
  retained_delivered : ∀ i c, s.conns[i]? = some c → c.closed = false → ∀ wms, ∃ n c',
    (s.run (List.replicate n (.next i wms))).conns[i]? = some c' ∧
      ∀ a, a ∈ s.bus.tx.buf ∨
          historyMax ≤ s.bus.tx.cap ∧ a ∈ s.bus.history.items.map HistoryItem.stamped →
        c.base < a.id → .live a.id a.event ∈ c'.sent
  /-- Ids are assigned one after the other and never again. -/
  ids_fresh : s.log.map Stamped.id = List.range' 1 s.log.length
  /-- The history holds the newest events since the last clear. -/
  history_newest : s.bus.history.items.map HistoryItem.stamped =
    (s.log.drop s.cleared).rtake historyMax

section

variable {s : Server} {c : Conn} {log : List Stamped}

theorem Traced.id_le_base (h : Traced log c) {i : Nat} (hi : i ∈ c.preamble.filterMap Frame.id) :
    i ≤ c.base := h.preamble_le i (List.mem_append_left _ hi)

theorem Traced.ids_increasing (h : Traced log c) :
    (c.sent.filterMap Frame.id).Pairwise (· < ·) := by
  obtain ⟨hLive, hAbove⟩ := h.live.ids
  rw [Conn.sent, List.filterMap_append, List.pairwise_append]
  refine ⟨(List.pairwise_append.mp h.preamble_ids).1, hLive, fun i hi j hj => ?_⟩
  have := h.id_le_base hi
  have := hAbove j hj
  omega

/-- A live frame belongs to the live loop. -/
theorem Traced.mem_stream (h : Traced log c) {i : Nat} {ev : Event}
    (hf : .live i ev ∈ c.sent) : .live i ev ∈ c.stream := by
  rcases List.mem_append.mp hf with hf | hf
  · have := h.preamble_not_live _ hf
    simp at this
  · exact hf

theorem Traced.mem_preamble (h : Traced log c) {i : Nat} {ev : Event}
    (hf : .replay i ev ∈ c.sent) : .replay i ev ∈ c.preamble := by
  rcases List.mem_append.mp hf with hf | hf
  · exact hf
  · rcases h.live.cases_mem hf with ⟨_, _, hEq⟩ | ⟨_, hEq⟩ <;> cases hEq

/-- Where a live frame stands in the frames of the live loop. -/
theorem Traced.split_at_live (h : Traced log c) {pre post : List Frame} {i : Nat} {ev : Event}
    (hSent : c.sent = pre ++ .live i ev :: post) :
    ∃ pre', pre = c.preamble ++ pre' ∧ c.stream = pre' ++ .live i ev :: post := by
  rcases List.append_eq_append_iff.mp (show c.preamble ++ c.stream = _ from hSent) with
    ⟨pre', hPre, hStream⟩ | ⟨rest, hPre, hRest⟩
  · exact ⟨pre', hPre, hStream⟩
  · cases rest with
    | nil => exact ⟨[], by simpa using hPre.symm, by simpa using hRest.symm⟩
    | cons f rest =>
      -- then the live frame would stand in the preamble
      rw [List.cons_append] at hRest
      obtain ⟨rfl, -⟩ := List.cons.inj hRest
      have := h.preamble_not_live (.live i ev) (by rw [hPre]; simp)
      simp at this

theorem Traced.first_live (h : Traced log c) {pre post : List Frame} {i : Nat} {ev : Event}
    (hSent : c.sent = pre ++ .live i ev :: post) (hPre : ∀ f ∈ pre, f.isLive = false)
    (hne : i ≠ c.base + 1) : ∃ wms, .rebase wms ∈ pre := by
  obtain ⟨pre', rfl, hStream⟩ := h.split_at_live hSent
  have hLive := h.live
  rw [hStream] at hLive
  obtain ⟨e, hHead, hTail⟩ := hLive.of_append
  obtain rfl := hTail.id_eq
  have hNone : ∀ f ∈ pre', f.id = none := by
    intro f hf
    have hNot := hPre f (List.mem_append_right _ hf)
    rcases hHead.cases_mem hf with ⟨_, _, rfl⟩ | ⟨_, rfl⟩
    · simp at hNot
    · rfl
  obtain ⟨wms, hMem⟩ := hHead.gap hNone hne.symm
  exact ⟨wms, List.mem_append_right _ hMem⟩

theorem Traced.live_gap (h : Traced log c) {pre mid post : List Frame} {i j : Nat}
    {ev ev' : Event} (hSent : c.sent = pre ++ .live i ev :: (mid ++ .live j ev' :: post))
    (hMid : ∀ f ∈ mid, f.id = none) (hne : j ≠ i + 1) : ∃ wms, .rebase wms ∈ mid := by
  obtain ⟨pre', -, hStream⟩ := h.split_at_live hSent
  have hLive := h.live
  rw [hStream] at hLive
  obtain ⟨e, -, hTail⟩ := hLive.of_append
  cases hTail with
  | live _ hTail =>
    obtain ⟨e', hGap, hLast⟩ := hTail.of_append
    obtain rfl := hLast.id_eq
    exact hGap.gap hMid hne.symm

/-- Polling one open connection again and again. -/
theorem run_next {i : Nat} (wms : Watermarks) (n : Nat) {s : Server} {c : Conn}
    (hc : s.conns[i]? = some c) (hOpen : c.closed = false) :
    (s.run (List.replicate n (.next i wms))).conns[i]? =
      some ((Conn.next s.bus.tx wms)^[n] c) := by
  induction n generalizing s c with
  | zero => exact hc
  | succ n ih =>
    have hNext : (s.next i wms).conns[i]? = some (c.next s.bus.tx wms) := by
      simp [Server.next, hc, hOpen]
    have := ih (s := s.next i wms) hNext (by rw [Conn.closed_next, hOpen])
    rwa [Function.iterate_succ_apply]

/-- An event of the history above the subscription stands in a ring that is long enough. -/
theorem Inv.at?_of_history (h : Inv s) (hc : c ∈ s.conns) (hOpen : c.closed = false)
    (hCap : historyMax ≤ s.bus.tx.cap) {a : Stamped}
    (ha : a ∈ s.bus.history.items.map HistoryItem.stamped) (hBase : c.base < a.id) :
    ∃ p, s.bus.tx.at? p = some a ∧ c.start ≤ p := by
  have hA := h.attached c hc hOpen
  have hOffset := hA.offset
  have hOldest := s.bus.tx.oldest_eq
  obtain ⟨item, hItem, rfl⟩ := List.mem_map.mp ha
  have hBase : c.base < item.id := hBase
  have hLe := HistoryBuf.id_le_lastId hItem
  have hNew := HistoryBuf.lastId_lt_id_add hItem
  have hLen : s.bus.history.items.length ≤ historyMax := by
    have := congrArg List.length h.history
    rw [List.length_map, List.rtake, List.length_drop] at this
    omega
  have hLog : item.stamped ∈ s.log := by
    rw [h.history] at ha
    exact List.mem_of_mem_drop (List.mem_of_mem_drop ha)
  obtain ⟨b, hb⟩ := RingBuffer.exists_at? (r := s.bus.tx) (p := c.start + (item.id - c.base - 1))
    (by omega) (by omega)
  have hId := hA.item_id _ b hb (Nat.le_add_right _ _)
  have hEq : b = item.stamped := by
    refine h.eq_of_id_eq (h.ring _ b hb) hLog ?_
    change b.id = item.id
    omega
  exact ⟨_, hEq ▸ hb, Nat.le_add_right _ _⟩

theorem Inv.retained_delivered (h : Inv s) {i : Nat} (hc : s.conns[i]? = some c)
    (hOpen : c.closed = false) (wms : Watermarks) : ∃ n c',
      (s.run (List.replicate n (.next i wms))).conns[i]? = some c' ∧
        ∀ a, a ∈ s.bus.tx.buf ∨
            historyMax ≤ s.bus.tx.cap ∧ a ∈ s.bus.history.items.map HistoryItem.stamped →
          c.base < a.id → .live a.id a.event ∈ c'.sent := by
  have hMem := List.mem_of_getElem? hc
  have hA := h.attached c hMem hOpen
  obtain ⟨n, hn⟩ := hA.delivers wms
  refine ⟨n, _, run_next wms n hc hOpen, fun a ha hBase => List.mem_append_right _ ?_⟩
  rcases ha with ha | ⟨hCap, ha⟩
  · obtain ⟨p, hp⟩ := RingBuffer.mem_buf_iff.mp ha
    refine hn p a hp ?_
    by_contra hLt
    have := hA.older p a hp (Nat.lt_of_not_le hLt)
    omega
  · obtain ⟨p, hp, hStart⟩ := h.at?_of_history hMem hOpen hCap ha hBase
    exact hn p a hp hStart

theorem Inv.sse_ok (h : Inv s) : SseOk s where
  ids_increasing c hc := (h.traced c hc).ids_increasing
  parts_disjoint c hc i ev ev' hReplay hLive := by
    have hT := h.traced c hc
    have hLe : i ≤ c.base := hT.id_le_base
      (List.mem_filterMap.mpr ⟨_, hT.mem_preamble hReplay, rfl⟩)
    have hAbove := hT.live.ids.2 i (List.mem_filterMap.mpr ⟨_, hT.mem_stream hLive, rfl⟩)
    omega
  published c hc i ev hf := by
    have hT := h.traced c hc
    rcases hf with hf | hf
    · exact hT.preamble_published i ev (hT.mem_preamble hf)
    · exact hT.stream_published i ev (hT.mem_stream hf)
  first_live c hc _ _ _ _ := (h.traced c hc).first_live
  live_gap c hc _ _ _ _ _ _ _ := (h.traced c hc).live_gap
  retained_delivered _ _ hc hOpen wms := h.retained_delivered hc hOpen wms
  ids_fresh := h.log_ids
  history_newest := h.history

end

/-- **SSE delivery.** After every interleaving of publications, subscriptions, polls,
disconnections and clears the stream keeps its promises. -/
theorem sse_delivery (capacity : Nat) (hCap : 0 < capacity) (ops : List Op) :
    SseOk ((Server.new capacity hCap).run ops) :=
  ((inv_new capacity hCap).run ops).sse_ok

/-- The capacity of the server's own bus, `EVENT_BUS_CAPACITY`. -/
def eventBusCapacity : Nat := 1024

theorem sse_delivery_server : SseOk ((Server.new eventBusCapacity (by decide)).run
    [.publish (.sync []), .subscribe 0, .publish (.sync []), .next 0 []]) :=
  sse_delivery eventBusCapacity (by decide) _

end Weflow.Sse
