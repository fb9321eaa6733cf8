import Mathlib.Data.List.Basic
import Mathlib.Data.List.DropRight
import Weflow.Lib.Broadcast
import Weflow.Store.Basic

/-!
# Events, the replay history and the event bus

`sync/history.rs` with the event types of `sync/mod.rs`. An instant is a number of
nanoseconds on the monotonic clock. The history always holds consecutive ids that end with
the last assigned one; this is a field of `HistoryBuf`, so every operation proves it.

`publish` and `subscribe_with_replay` each hold the history lock for their whole body, so
each is one step here.
-/

namespace Weflow

/-- Media metadata of a pushed message. -/
structure PushMedia where
  kind : String
  kindDir : Option String
  fileName : String
  md5 : Option String
deriving DecidableEq, Repr

def PushMedia.ofHint (m : MediaHint) : PushMedia :=
  ⟨m.kind.asStr, m.kind.kindDirFor, m.fileName, m.md5⟩

structure NewMessageEvent where
  sessionId : String
  sessionType : String
  rawid : String
  sourceName : String
  groupName : Option String
  content : String
  timestamp : Int
  media : Option PushMedia
deriving DecidableEq, Repr

structure RevokeEvent where
  sessionId : String
  sessionType : String
  rawid : String
  sourceName : String
  groupName : Option String
  content : String
  timestamp : Int
deriving DecidableEq, Repr

/-- An event of the bus. -/
inductive Event
  | sync (wms : List (WmKey × Watermark))
  | new (m : NewMessageEvent)
  | revoke (r : RevokeEvent)
deriving DecidableEq, Repr

/-- An event with its id, the payload of the broadcast. -/
structure Stamped where
  id : Nat
  event : Event
deriving DecidableEq, Repr

/-- One buffered event with the instant it was appended. -/
structure HistoryItem where
  id : Nat
  appendedAt : Nat
  event : Event
deriving DecidableEq, Repr

def HistoryItem.stamped (i : HistoryItem) : Stamped := ⟨i.id, i.event⟩

/-- `HistoryBuf::MAX`. -/
def historyMax : Nat := 1000

/-- `HistoryBuf::TTL`, ten minutes. -/
def historyTtl : Nat := 600 * 1000000000

/-- The replay buffer: the buffered ids are the last assigned ones. -/
structure HistoryBuf where
  items : List HistoryItem
  lastId : Nat
  ids_eq : items.map HistoryItem.id = List.range' (lastId + 1 - items.length) items.length
  length_le : items.length ≤ lastId

namespace HistoryBuf

def empty : HistoryBuf := ⟨[], 0, rfl, le_rfl⟩

/-- `append`: the next id, then the oldest items beyond the cap go. -/
def append (h : HistoryBuf) (now : Nat) (event : Event) : HistoryBuf where
  items := (h.items ++ [HistoryItem.mk (h.lastId + 1) now event]).rtake historyMax
  lastId := h.lastId + 1
  ids_eq := by
    have hLe := h.length_le
    have hAll : (h.items ++ [HistoryItem.mk (h.lastId + 1) now event]).map HistoryItem.id =
        List.range' (h.lastId + 1 - h.items.length) (h.items.length + 1) := by
      have hEnd : h.lastId + 1 - h.items.length + h.items.length = h.lastId + 1 := by omega
      rw [List.map_append, h.ids_eq, List.range'_concat, Nat.one_mul, hEnd]
      rfl
    generalize historyMax = cap
    rw [List.rtake, List.map_drop, hAll, List.drop_range', List.length_drop, List.length_append,
      List.length_singleton]
    congr 1
    omega
  length_le := by
    have hLe := h.length_le
    rw [List.rtake, List.length_drop, List.length_append, List.length_singleton]
    omega

/-- `clear`: the items go, the counter stays. -/
def clear (h : HistoryBuf) : HistoryBuf := ⟨[], h.lastId, rfl, Nat.zero_le _⟩

/-- `replay_since`: the younger items with a larger id. -/
def replaySince (h : HistoryBuf) (now since : Nat) : List Stamped :=
  (h.items.filter fun i => since < i.id ∧ now - i.appendedAt < historyTtl).map
    HistoryItem.stamped

@[simp] theorem lastId_append (h : HistoryBuf) (now : Nat) (e : Event) :
    (h.append now e).lastId = h.lastId + 1 := rfl

@[simp] theorem lastId_clear (h : HistoryBuf) : h.clear.lastId = h.lastId := rfl

theorem ids_increasing (h : HistoryBuf) : (h.items.map HistoryItem.id).Pairwise (· < ·) := by
  rw [h.ids_eq]
  exact List.pairwise_lt_range'

/-- No buffered id is larger than the counter. -/
theorem id_le_lastId {h : HistoryBuf} {i : HistoryItem} (hi : i ∈ h.items) : i.id ≤ h.lastId := by
  have hMem : i.id ∈ h.items.map HistoryItem.id := List.mem_map_of_mem hi
  have hLe := h.length_le
  rw [h.ids_eq, List.mem_range'_1] at hMem
  omega

theorem lastId_lt_id_add {h : HistoryBuf} {i : HistoryItem} (hi : i ∈ h.items) :
    h.lastId < i.id + h.items.length := by
  have hMem : i.id ∈ h.items.map HistoryItem.id := List.mem_map_of_mem hi
  have hLe := h.length_le
  rw [h.ids_eq, List.mem_range'_1] at hMem
  omega

theorem stamped_append (h : HistoryBuf) (now : Nat) (e : Event) :
    (h.append now e).items.map HistoryItem.stamped =
      (h.items.map HistoryItem.stamped ++ [Stamped.mk (h.lastId + 1) e]).rtake historyMax := by
  simp [append, List.rtake, HistoryItem.stamped]

/-- A replay is increasing, above `since` and at or below the counter. -/
theorem replaySince_spec (h : HistoryBuf) (now since : Nat) :
    ((h.replaySince now since).map Stamped.id).Pairwise (· < ·) ∧
      ∀ a ∈ h.replaySince now since,
        since < a.id ∧ a.id ≤ h.lastId ∧ a ∈ h.items.map HistoryItem.stamped := by
  constructor
  · have hIds : (h.replaySince now since).map Stamped.id =
        (h.items.filter fun i => since < i.id ∧ now - i.appendedAt < historyTtl).map
          HistoryItem.id := by
      rw [replaySince, List.map_map]
      rfl
    rw [hIds]
    exact h.ids_increasing.sublist (List.filter_sublist.map _)
  · intro a ha
    obtain ⟨i, hi, rfl⟩ := List.mem_map.mp ha
    have hFilter := List.mem_filter.mp hi
    simp only [decide_eq_true_eq] at hFilter
    exact ⟨hFilter.2.1, id_le_lastId hFilter.1, List.mem_map_of_mem hFilter.1⟩

end HistoryBuf

/-- Keeping the newest `n` step by step keeps the newest `n` of all. -/
theorem rtake_concat_rtake {α : Type*} (n : Nat) (l : List α) (a : α) :
    (l.rtake n ++ [a]).rtake n = (l ++ [a]).rtake n := by
  have hEq : l ++ [a] = l.take (l.length - n) ++ (l.rtake n ++ [a]) := by
    rw [← List.append_assoc, List.rtake, List.take_append_drop]
  have hLen : (l.rtake n).length = l.length - (l.length - n) := by
    rw [List.rtake, List.length_drop]
  have hTake : (l.take (l.length - n)).length = l.length - n := by
    rw [List.length_take]
    omega
  have hLong : (l.take (l.length - n)).length ≤ (l ++ [a]).length - n := by
    rw [hTake, List.length_append, List.length_singleton]
    omega
  have hRight : (l ++ [a]).rtake n = (l.rtake n ++ [a]).drop
      ((l ++ [a]).length - n - (l.take (l.length - n)).length) := by
    rw [List.rtake]
    conv_lhs => arg 2; rw [hEq]
    rw [List.drop_append, List.drop_eq_nil_of_le hLong, List.nil_append]
  rw [hRight, List.rtake]
  congr 1
  rw [hTake, List.length_append, List.length_append, List.length_singleton, hLen]
  omega

/-! ## The bus -/

structure EventBus where
  history : HistoryBuf
  tx : Broadcast.RingBuffer Stamped

namespace EventBus

def new (capacity : Nat) (h : 0 < capacity) : EventBus := ⟨.empty, .new capacity h⟩

/-- `publish`: the history first, then the broadcast; the assigned id. -/
def publish (b : EventBus) (now : Nat) (event : Event) : EventBus × Nat :=
  let history := b.history.append now event
  ({ history, tx := b.tx.send ⟨history.lastId, event⟩ }, history.lastId)

/-- `subscribe_with_replay`: a receiver at the end of the ring and the replay. -/
def subscribeWithReplay (b : EventBus) (now since : Nat) : EventBus × Nat × List Stamped :=
  let (tx, rx) := b.tx.subscribe
  ({ b with tx }, rx, b.history.replaySince now since)

/-- `history().lock().clear()`. -/
def clearHistory (b : EventBus) : EventBus := { b with history := b.history.clear }

end EventBus

end Weflow
