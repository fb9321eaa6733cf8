import Mathlib.Data.List.Basic

/-!
# Buffers and ranges

A range of a buffer is read by `slice` and written by `write`; a range that is not in the buffer
gives nothing. A buffer of fixed length keeps it in its type.
-/

namespace Buffer

variable {α : Type*}

/-- The elements from `start` up to `stop`. -/
def slice (a : List α) (start stop : Nat) : Option (List α) :=
  if start ≤ stop ∧ stop ≤ a.length then some ((a.take stop).drop start) else none

theorem slice_eq {a p mid q : List α} {i j : Nat} (h : a = p ++ mid ++ q)
    (hStart : i = p.length) (hStop : j = p.length + mid.length) :
    slice a i j = some mid := by
  subst h hStart hStop
  rw [slice, if_pos ⟨by omega, by simp⟩, ← List.length_append, List.take_left, List.drop_left]

theorem slice_some {a : List α} {start stop : Nat} (h : start ≤ stop) (hStop : stop ≤ a.length) :
    ∃ mid, slice a start stop = some mid ∧ mid.length = stop - start := by
  refine ⟨(a.take stop).drop start, if_pos ⟨h, hStop⟩, ?_⟩
  rw [List.length_drop, List.length_take]
  omega

/-- A buffer of `n` elements. -/
abbrev Fixed (α : Type*) (n : Nat) := { a : List α // a.length = n }

namespace Fixed

variable {n : Nat}

@[simp] theorem length_val (b : Fixed α n) : b.1.length = n := b.2

def fill (n : Nat) (a : α) : Fixed α n := ⟨List.replicate n a, List.length_replicate⟩

/-- A list that has the length. -/
def of (n : Nat) (a : List α) : Option (Fixed α n) := if h : a.length = n then some ⟨a, h⟩ else none

theorem of_eq {a : List α} (h : a.length = n) : of n a = some ⟨a, h⟩ := dif_pos h

/-- The elements from `start` up to `stop` are replaced by as many others. -/
def write (b : Fixed α n) (start stop : Nat) (src : List α) : Option (Fixed α n) :=
  if h : start ≤ stop ∧ stop ≤ n ∧ src.length = stop - start then
    some ⟨b.1.take start ++ src ++ b.1.drop stop, by
      have := b.2
      simp only [List.length_append, List.length_take, List.length_drop]
      omega⟩
  else none

theorem write_eq {b : Fixed α n} {p mid q s : List α} {i j : Nat}
    (h : b.1 = p ++ mid ++ q) (hStart : i = p.length)
    (hStop : j = p.length + mid.length) (hSrc : s.length = mid.length) :
    ∃ b' : Fixed α n, b.write i j s = some b' ∧ b'.1 = p ++ s ++ q := by
  have hLength : p.length + mid.length + q.length = n := by
    have := b.2
    rw [h, List.length_append, List.length_append] at this
    exact this
  refine ⟨_, dif_pos ⟨by omega, by omega, by omega⟩, ?_⟩
  subst hStart hStop
  simp only [h]
  rw [← List.length_append, List.drop_left, List.append_assoc p mid, List.take_left]

end Fixed

end Buffer
