import Mathlib.Data.List.Basic
import Mathlib.Tactic.Common

/-!
# A bounded broadcast ring

The channel keeps the newest `cap` items and gives every item a position. A receiver holds
the position it reads next. A receiver that fell behind the oldest retained item is told so
once and then continues with that item. An item sent while nobody listens is not stored.
-/

namespace Broadcast

variable {α : Type*}

/-- The retained items, oldest first, with the position the next item will get. -/
structure RingBuffer (α : Type*) where
  cap : Nat
  buf : List α
  pos : Nat
  receivers : Nat
  cap_pos : 0 < cap
  length_eq : buf.length = min cap pos

namespace RingBuffer

/-- An empty channel. -/
def new (cap : Nat) (h : 0 < cap) : RingBuffer α := ⟨cap, [], 0, 0, h, by simp⟩

/-- The position of the oldest retained item. -/
def oldest (r : RingBuffer α) : Nat := r.pos - r.buf.length

/-- The item at a position, if it is retained. -/
def at? (r : RingBuffer α) (p : Nat) : Option α :=
  if p < r.oldest then none else r.buf[p - r.oldest]?

/-- Store an item, dropping the oldest one when the ring is full. -/
def push (r : RingBuffer α) (a : α) : RingBuffer α where
  cap := r.cap
  buf := (r.buf ++ [a]).drop (r.buf.length + 1 - r.cap)
  pos := r.pos + 1
  receivers := r.receivers
  cap_pos := r.cap_pos
  length_eq := by
    have := r.length_eq
    have := r.cap_pos
    simp only [List.length_drop, List.length_append, List.length_singleton]
    omega

/-- `send`: an error, and nothing stored, without receivers. -/
def send (r : RingBuffer α) (a : α) : RingBuffer α := if r.receivers = 0 then r else r.push a

/-- `subscribe`: the receiver starts at the end of the ring. -/
def subscribe (r : RingBuffer α) : RingBuffer α × Nat := ({ r with receivers := r.receivers + 1 }, r.pos)

/-- A receiver is dropped. -/
def unsubscribe (r : RingBuffer α) : RingBuffer α := { r with receivers := r.receivers - 1 }

/-- What a receiver gets. -/
inductive Recv (α : Type*)
  | empty
  | lagged (missed : Nat)
  | item (a : α)

/-- `recv` at a position, with the position to continue from. -/
def recv (r : RingBuffer α) (next : Nat) : Recv α × Nat :=
  if next < r.oldest then (.lagged (r.oldest - next), r.oldest)
  else
    match r.buf[next - r.oldest]? with
    | some a => (.item a, next + 1)
    | none => (.empty, next)

/-- The ring keeps the newest `cap` positions. -/
theorem oldest_eq (r : RingBuffer α) : r.oldest = r.pos - r.cap := by
  have := r.length_eq
  unfold oldest
  omega

theorem oldest_add_length (r : RingBuffer α) : r.oldest + r.buf.length = r.pos := by
  have := r.length_eq
  unfold oldest
  omega

theorem oldest_le_pos (r : RingBuffer α) : r.oldest ≤ r.pos := Nat.sub_le _ _

/-- A retained position carries an item. -/
theorem exists_at? {r : RingBuffer α} {p : Nat} (h : r.oldest ≤ p) (hp : p < r.pos) :
    ∃ a, r.at? p = some a := by
  have := r.oldest_add_length
  have hLt : p - r.oldest < r.buf.length := by omega
  exact ⟨r.buf[p - r.oldest], by
    rw [at?, if_neg (by omega), List.getElem?_eq_getElem hLt]⟩

theorem at?_some {r : RingBuffer α} {p : Nat} {a : α} (h : r.at? p = some a) :
    r.oldest ≤ p ∧ p < r.pos := by
  have := r.oldest_add_length
  unfold at? at h
  split at h
  · cases h
  · have hLt := (List.getElem?_eq_some_iff.mp h).1
    omega

theorem mem_buf_iff {r : RingBuffer α} {a : α} : a ∈ r.buf ↔ ∃ p, r.at? p = some a := by
  constructor
  · intro h
    obtain ⟨i, hi, rfl⟩ := List.getElem_of_mem h
    refine ⟨r.oldest + i, ?_⟩
    rw [at?, if_neg (by omega), Nat.add_sub_cancel_left, List.getElem?_eq_getElem hi]
  · rintro ⟨p, h⟩
    unfold at? at h
    split at h
    · cases h
    · exact List.mem_of_getElem? h

/-! ## Sending -/

@[simp] theorem pos_push (r : RingBuffer α) (a : α) : (r.push a).pos = r.pos + 1 := rfl

@[simp] theorem cap_push (r : RingBuffer α) (a : α) : (r.push a).cap = r.cap := rfl

theorem oldest_push (r : RingBuffer α) (a : α) :
    (r.push a).oldest = r.oldest + (r.buf.length + 1 - r.cap) := by
  have := r.length_eq
  rw [oldest_eq, oldest_eq, cap_push, pos_push]
  omega

/-- A push puts the item at the end and forgets only the oldest positions. -/
theorem at?_push (r : RingBuffer α) (a : α) (p : Nat) :
    (r.push a).at? p =
      if p < (r.push a).oldest then none else if p = r.pos then some a else r.at? p := by
  have hOld := r.oldest_add_length
  have hPush := r.oldest_push a
  by_cases hp : p < (r.push a).oldest
  · rw [at?, if_pos hp, if_pos hp]
  · have hGet : (r.push a).buf[p - (r.push a).oldest]? = (r.buf ++ [a])[p - r.oldest]? := by
      have hIdx : p - r.oldest = r.buf.length + 1 - r.cap + (p - (r.push a).oldest) := by omega
      rw [hIdx, ← List.getElem?_drop]
      rfl
    rw [at?, if_neg hp, if_neg hp, hGet]
    by_cases hEnd : p = r.pos
    · have hLen : p - r.oldest = r.buf.length := by omega
      rw [if_pos hEnd, hLen, List.getElem?_concat_length]
    · rw [if_neg hEnd, at?, if_neg (by omega)]
      by_cases hIn : p < r.pos
      · rw [List.getElem?_append_left (by omega)]
      · have hOut : r.buf.length + 1 ≤ p - r.oldest := by omega
        rw [List.getElem?_eq_none (by simpa using hOut), List.getElem?_eq_none (by omega)]

/-- What a push leaves in the ring was there before or is the new item. -/
theorem at?_of_push {r : RingBuffer α} {a b : α} {p : Nat} (h : (r.push a).at? p = some b) :
    (p = r.pos ∧ b = a) ∨ r.at? p = some b := by
  rw [at?_push] at h
  split at h
  · cases h
  · split at h
    · rename_i hp
      exact .inl ⟨hp, (Option.some.inj h).symm⟩
    · exact .inr h

/-! ## Receiving -/

theorem recv_item {r : RingBuffer α} {next next' : Nat} {a : α} (h : r.recv next = (.item a, next')) :
    r.at? next = some a ∧ next' = next + 1 := by
  unfold recv at h
  split at h
  · cases h
  · rename_i hNot
    split at h
    · rename_i b hb
      cases h
      exact ⟨by rw [at?, if_neg hNot, hb], rfl⟩
    · cases h

theorem recv_lagged {r : RingBuffer α} {next next' m : Nat} (h : r.recv next = (.lagged m, next')) :
    next < r.oldest ∧ next' = r.oldest := by
  unfold recv at h
  split at h
  · rename_i hLt
    cases h
    exact ⟨hLt, rfl⟩
  · split at h <;> cases h

theorem recv_empty {r : RingBuffer α} {next next' : Nat} (h : r.recv next = (.empty, next')) :
    r.pos ≤ next ∧ next' = next := by
  have := r.oldest_add_length
  unfold recv at h
  split at h
  · cases h
  · split at h
    · cases h
    · rename_i hNone
      cases h
      have := List.getElem?_eq_none_iff.mp hNone
      exact ⟨by omega, rfl⟩

end RingBuffer

end Broadcast
