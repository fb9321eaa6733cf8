import Mathlib.Data.List.Sort
import Weflow.Server.PushEvents

/-!
# What a connection still has to send

A connection of the SSE stream that is not behind the ring sends the log: what it has sent with an
id and what it still has to send are together what was published behind the id it was opened with
(`Follows`). This holds of a connection that was opened with a complete replay, and every step of
the server keeps it.
-/

namespace Weflow.Sse

open Broadcast

namespace Frame

/-- The event of the bus that a frame carries, with its id. -/
def stamped? : Frame → Option Stamped
  | replay id ev => some ⟨id, ev⟩
  | live id ev => some ⟨id, ev⟩
  | _ => none

end Frame

/-- What was sent with an id. -/
def Conn.told (c : Conn) : List Stamped := c.sent.filterMap Frame.stamped?

/-- What is still to be sent with an id: the rest of the replay, and what was published since the
subscription and is not yet received. -/
def Conn.todo (log : List Stamped) (c : Conn) : List Stamped :=
  c.pending ++ log.drop (c.base + (c.rx - c.start))

/-- The connection sends what was published behind `since`. -/
structure Follows (log : List Stamped) (since : Nat) (c : Conn) : Prop where
  log_eq : c.told ++ c.todo log = log.drop since
  before_live : c.pc ≠ .live → c.stream = [] ∧ c.rx = c.start

/-- Nothing that was published behind `since` was cleared, evicted or has expired. -/
def Server.Keeps (s : Server) (since : Nat) : Prop :=
  ∀ a ∈ s.log, since < a.id →
    ∃ i ∈ s.bus.history.items, i.stamped = a ∧ s.now - i.appendedAt < historyTtl

/-- The next poll of the connection does not find that it lags. -/
def Conn.Abreast (tx : RingBuffer Stamped) (c : Conn) : Prop := c.pc = .live → tx.oldest ≤ c.rx

section

variable {log : List Stamped} {tx : RingBuffer Stamped} {c : Conn} {since : Nat} {s : Server}

/-! ## The ids of the log -/

theorem getElem?_log {a : Stamped} (hIds : log.map Stamped.id = List.range' 1 log.length)
    (ha : a ∈ log) : ∃ i, log[i]? = some a ∧ a.id = i + 1 := by
  obtain ⟨i, hi⟩ := List.mem_iff_getElem?.mp ha
  have hLt := (List.getElem?_eq_some_iff.mp hi).1
  have hId : (log.map Stamped.id)[i]? = some a.id := by rw [List.getElem?_map, hi, Option.map_some]
  rw [hIds, List.getElem?_range' hLt] at hId
  have := Option.some.inj hId
  exact ⟨i, hi, by omega⟩

/-- What was published behind an id. -/
theorem mem_drop_log {a : Stamped} (hIds : log.map Stamped.id = List.range' 1 log.length) :
    a ∈ log.drop since ↔ a ∈ log ∧ since < a.id := by
  constructor
  · intro ha
    obtain ⟨i, hi⟩ := List.mem_iff_getElem?.mp ha
    rw [List.getElem?_drop] at hi
    have hMem := List.mem_of_getElem? hi
    have hLt := (List.getElem?_eq_some_iff.mp hi).1
    have hId : (log.map Stamped.id)[since + i]? = some a.id := by
      rw [List.getElem?_map, hi, Option.map_some]
    rw [hIds, List.getElem?_range' hLt] at hId
    have := Option.some.inj hId
    exact ⟨hMem, by omega⟩
  · rintro ⟨ha, hId⟩
    obtain ⟨i, hi, hEq⟩ := getElem?_log hIds ha
    refine List.mem_iff_getElem?.mpr ⟨i - since, ?_⟩
    have hIndex : since + (i - since) = i := by omega
    rw [List.getElem?_drop, hIndex, hi]

theorem pairwise_log (hIds : log.map Stamped.id = List.range' 1 log.length) :
    (log.map Stamped.id).Pairwise (· < ·) := by
  rw [hIds]
  exact List.pairwise_lt_range'

/-- Two increasing lists of the same events are one list. -/
theorem eq_of_increasing {as bs : List Stamped} (ha : (as.map Stamped.id).Pairwise (· < ·))
    (hb : (bs.map Stamped.id).Pairwise (· < ·)) (h : ∀ a, a ∈ as ↔ a ∈ bs) : as = bs := by
  rw [List.pairwise_map] at ha hb
  have hIrrefl : ∀ {ls : List Stamped}, ls.Pairwise (fun a b => a.id < b.id) → ls.Nodup :=
    fun hLs => hLs.imp fun hLt hEq => by
      rw [hEq] at hLt
      exact lt_irrefl _ hLt
  refine List.Perm.eq_of_pairwise (fun a b _ _ hab hba => ?_) ha hb
    ((List.perm_ext_iff_of_nodup (hIrrefl ha) (hIrrefl hb)).mpr h)
  exact absurd hab hba.not_gt

/-! ## Opening -/

/-- A replay from which nothing is missing is what was published behind the id. -/
theorem Inv.replay_eq (h : Inv s) (hKeeps : s.Keeps since) :
    s.bus.history.replaySince s.now since = s.log.drop since := by
  obtain ⟨hReplay, hSpec⟩ := s.bus.history.replaySince_spec s.now since
  refine eq_of_increasing hReplay ?_ fun a => ?_
  · rw [List.map_drop]
    exact (pairwise_log h.log_ids).sublist (List.drop_sublist _ _)
  · rw [mem_drop_log h.log_ids]
    constructor
    · intro ha
      obtain ⟨hId, -, hItem⟩ := hSpec a ha
      rw [h.history] at hItem
      exact ⟨List.mem_of_mem_drop (List.mem_of_mem_drop hItem), hId⟩
    · rintro ⟨ha, hId⟩
      obtain ⟨i, hi, rfl, hYoung⟩ := hKeeps a ha hId
      refine List.mem_map_of_mem (List.mem_filter.mpr ⟨hi, ?_⟩)
      exact decide_eq_true ⟨hId, hYoung⟩

/-- The connection that a subscription opens. -/
theorem Inv.follows_opened (h : Inv s) (hKeeps : s.Keeps since) :
    Follows s.log since (.opened s.bus.tx.pos s.bus.history.lastId
      (s.bus.history.replaySince s.now since)) where
  log_eq := by
    have hEnd : s.log.drop (s.bus.history.lastId + (s.bus.tx.pos - s.bus.tx.pos)) = [] :=
      List.drop_eq_nil_of_le (by rw [h.lastId]; omega)
    rw [Conn.todo, Conn.told, ← h.replay_eq hKeeps]
    show [] ++ (s.bus.history.replaySince s.now since ++
      s.log.drop (s.bus.history.lastId + (s.bus.tx.pos - s.bus.tx.pos))) = _
    rw [hEnd, List.append_nil, List.nil_append]
  before_live _ := ⟨rfl, rfl⟩

/-! ## Steps -/

/-- A frame that is sent is the next one that was to be sent. -/
theorem Follows.next (h : Follows log since c) (hTraced : Traced log c)
    {lastId : Nat} (hA : Attached tx lastId c)
    (hIds : log.map Stamped.id = List.range' 1 log.length)
    (hRing : ∀ p a, tx.at? p = some a → a ∈ log) (hAbreast : c.Abreast tx) (wms : Watermarks) :
    Follows log since (c.next tx wms) := by
  obtain ⟨hLog, hBefore⟩ := h
  rcases c.next_cases tx wms with ⟨replay, hPc, hEq⟩ | ⟨a, rest, hPc, hEq⟩ |
    ⟨hPc, hEq⟩ | ⟨a, hPc, hAt, hEq⟩ | ⟨hPc, hLt, hEq⟩ | ⟨_, _, hEq⟩ <;> rw [hEq]
  · obtain ⟨hStream, hRx⟩ := hBefore (by rw [hPc]; exact Pc.noConfusion)
    refine ⟨?_, fun _ => ⟨hStream, hRx⟩⟩
    rw [← hLog]
    simp [Conn.told, Conn.sent, Conn.todo, Conn.pending, hPc, hStream, Frame.stamped?]
  · obtain ⟨hStream, hRx⟩ := hBefore (by rw [hPc]; exact Pc.noConfusion)
    refine ⟨?_, fun _ => ⟨hStream, hRx⟩⟩
    rw [← hLog]
    simp [Conn.told, Conn.sent, Conn.todo, Conn.pending, hPc, hStream, Frame.stamped?]
  · obtain ⟨hStream, hRx⟩ := hBefore (by rw [hPc]; exact Pc.noConfusion)
    refine ⟨?_, fun hNot => absurd rfl hNot⟩
    rw [← hLog]
    simp [Conn.told, Conn.sent, Conn.todo, Conn.pending, hPc, hStream, Frame.stamped?]
  · -- an event of the ring is the one of the log that is due
    refine ⟨?_, fun hNot => absurd hPc hNot⟩
    have hStart := hTraced.start_le
    have hId := hA.item_id c.rx a hAt hStart
    obtain ⟨i, hi, hIndex⟩ := getElem?_log hIds (hRing _ a hAt)
    have hI : i = c.base + (c.rx - c.start) := by omega
    have hDrop : log.drop (c.base + (c.rx - c.start)) =
        a :: log.drop (c.base + (c.rx + 1 - c.start)) := by
      have hNext : c.base + (c.rx + 1 - c.start) = i + 1 := by omega
      obtain ⟨hLt, hGet⟩ := List.getElem?_eq_some_iff.mp hi
      rw [← hI, hNext, List.drop_eq_getElem_cons hLt, hGet]
    rw [← hLog]
    simp [Conn.told, Conn.sent, Conn.todo, Conn.pending, hPc, hDrop, Frame.stamped?]
  · have hOld := hAbreast hPc
    omega
  · exact ⟨hLog, hBefore⟩

/-- A poll only appends to what was sent. -/
theorem Follows.sent_next (h : Follows log since c) (tx : RingBuffer Stamped) (wms : Watermarks) :
    ∃ fs, (c.next tx wms).sent = c.sent ++ fs := by
  rcases c.next_cases tx wms with ⟨replay, hPc, hEq⟩ | ⟨a, rest, hPc, hEq⟩ |
    ⟨hPc, hEq⟩ | ⟨a, hPc, hAt, hEq⟩ | ⟨hPc, hLt, hEq⟩ | ⟨_, _, hEq⟩ <;> rw [hEq]
  · have hStream := (h.before_live (by rw [hPc]; exact Pc.noConfusion)).1
    exact ⟨[.ready], by simp [Conn.sent, hStream]⟩
  · have hStream := (h.before_live (by rw [hPc]; exact Pc.noConfusion)).1
    exact ⟨[.replay a.id a.event], by simp [Conn.sent, hStream]⟩
  · have hStream := (h.before_live (by rw [hPc]; exact Pc.noConfusion)).1
    exact ⟨[.baseline wms], by simp [Conn.sent, hStream]⟩
  · exact ⟨[.live a.id a.event], by simp [Conn.sent]⟩
  · exact ⟨[.rebase wms], by simp [Conn.sent]⟩
  · exact ⟨[], (List.append_nil _).symm⟩

/-- What is published later is to be sent later. -/
theorem Follows.publish (h : Follows log since c) (hSince : since ≤ log.length)
    (hHere : c.base + (c.rx - c.start) ≤ log.length) (a : Stamped) :
    Follows (log ++ [a]) since c where
  log_eq := by
    rw [Conn.todo, List.drop_append_of_le_length hHere, List.drop_append_of_le_length hSince,
      ← h.log_eq, Conn.todo]
    simp
  before_live := h.before_live

theorem log_step (s : Server) (op : Op) : ∃ more, (s.step op).log = s.log ++ more := by
  cases op with
  | publish ev => exact ⟨_, rfl⟩
  | subscribe since => exact ⟨[], (List.append_nil _).symm⟩
  | next i wms => exact ⟨[], (List.append_nil _).symm⟩
  | close i =>
    refine ⟨[], ?_⟩
    rw [List.append_nil, Server.step, Server.close]
    split
    · split <;> rfl
    · rfl
  | clear => exact ⟨[], (List.append_nil _).symm⟩
  | tick d => exact ⟨[], (List.append_nil _).symm⟩

/-- An open connection is not ahead of the log. -/
theorem Inv.here_le (h : Inv s) (hc : c ∈ s.conns) (hOpen : c.closed = false) :
    c.base + (c.rx - c.start) ≤ s.log.length := by
  have hA := h.attached c hc hOpen
  have hStart := (h.traced c hc).start_le
  have hRx := hA.rx_le
  have hOffset := hA.offset
  have hLast := h.lastId
  omega

/-- A connection at the end of the ring has sent everything. -/
theorem Inv.todo_nil (h : Inv s) (hc : c ∈ s.conns) (hOpen : c.closed = false)
    (hPc : c.pc = .live) (hEnd : s.bus.tx.pos ≤ c.rx) : c.todo s.log = [] := by
  have hA := h.attached c hc hOpen
  have hStart := (h.traced c hc).start_le
  have hOffset := hA.offset
  have hLast := h.lastId
  rw [Conn.todo, Conn.pending, hPc]
  exact List.drop_eq_nil_of_le (by omega)

/-- Whatever the server does, an open connection still follows the log. -/
theorem Follows.step (h : Follows s.log since c) (hInv : Inv s) (hc : c ∈ s.conns)
    (hOpen : c.closed = false) (hSince : since ≤ s.log.length) (op : Op) :
    Follows (s.step op).log since c := by
  cases op with
  | publish ev => exact h.publish hSince (hInv.here_le hc hOpen) _
  | subscribe since => exact h
  | next i wms => exact h
  | close i =>
    rw [Server.step, Server.close]
    split
    · split <;> exact h
    · exact h
  | clear => exact h
  | tick d => exact h

end

end Weflow.Sse
