import Mathlib.Data.List.Forall2
import Mathlib.Data.List.Perm.Basic

/-!
# The first hit of a list of groups

The groups come in a fixed order, the elements of one group in any. A search takes the first
element with a property, so it takes one of the first group that has any (`firstHits`), and every
element of that group that has the property is found in some order (`head?_toFront`).
-/

namespace Groups

variable {α : Type} (p : α → Bool)

/-- The elements with the property in the first group that has any. -/
def firstHits : List (List α) → List α
  | [] => []
  | g :: gs => if g.filter p = [] then firstHits gs else g.filter p

variable {p} {gs hs : List (List α)} {a : α}

theorem find?_flatten : gs.flatten.find? p = (firstHits p gs).head? := by
  induction gs with
  | nil => rfl
  | cons g gs ih =>
    rw [List.flatten_cons, List.find?_append, firstHits, ← List.head?_filter]
    split_ifs with hNone
    · rw [hNone, ih]
      rfl
    · obtain ⟨b, bs, hEq⟩ := List.exists_cons_of_ne_nil hNone
      rw [hEq]
      rfl

theorem mem_firstHits (h : a ∈ firstHits p gs) : a ∈ gs.flatten ∧ p a = true := by
  induction gs with
  | nil => cases h
  | cons g gs ih =>
    rw [firstHits] at h
    rw [List.flatten_cons, List.mem_append]
    split_ifs at h with hNone
    · exact ⟨.inr (ih h).1, (ih h).2⟩
    · exact ⟨.inl (List.mem_filter.mp h).1, (List.mem_filter.mp h).2⟩

theorem exists_firstHits (h : a ∈ gs.flatten) (hp : p a = true) : firstHits p gs ≠ [] := by
  intro hNone
  have hFind : gs.flatten.find? p = none := by rw [find?_flatten, hNone, List.head?_nil]
  exact List.find?_eq_none.mp hFind a h hp

theorem firstHits_perm (h : List.Forall₂ List.Perm gs hs) :
    (firstHits p gs).Perm (firstHits p hs) := by
  induction h with
  | nil => exact .refl _
  | cons hGroup _ ih =>
    have hFilter := hGroup.filter p
    rw [firstHits, firstHits]
    split_ifs with hLeft hRight hRight
    · exact ih
    · rw [hLeft] at hFilter
      exact absurd hFilter.nil_eq.symm hRight
    · rw [hRight] at hFilter
      exact absurd hFilter.eq_nil hLeft
    · exact hFilter

section ToFront

variable [DecidableEq α]

/-- The group with the occurrences of an element in front. -/
def toFront (a : α) (g : List α) : List α := g.filter (· = a) ++ g.filter (· ≠ a)

theorem filter_toFront (g : List α) :
    (toFront a g).filter p = toFront a (g.filter p) := by
  simp only [toFront, List.filter_append, List.filter_filter, Bool.and_comm]

theorem head?_toFront {g : List α} (h : a ∈ g) : (toFront a g).head? = some a := by
  have hMem : a ∈ g.filter (· = a) := List.mem_filter.mpr ⟨h, by simp⟩
  obtain ⟨b, bs, hEq⟩ := List.exists_cons_of_ne_nil (List.ne_nil_of_mem hMem)
  have hb : b ∈ g.filter (· = a) := by
    rw [hEq]
    exact List.mem_cons_self
  have hSame : b = a := by simpa using (List.mem_filter.mp hb).2
  rw [toFront, hEq, hSame]
  rfl

/-- An element of the first hits is found when every group has it in front. -/
theorem head?_firstHits_toFront (h : a ∈ firstHits p gs) :
    (firstHits p (gs.map (toFront a))).head? = some a := by
  have hp := (mem_firstHits h).2
  induction gs with
  | nil => cases h
  | cons g gs ih =>
    rw [firstHits] at h
    rw [List.map_cons, firstHits, filter_toFront]
    split_ifs at h with hNone
    · have hEmpty : toFront a ([] : List α) = [] := rfl
      rw [hNone, hEmpty, if_pos rfl]
      exact ih h
    · have hHead := head?_toFront h
      rw [if_neg, hHead]
      intro hNil
      rw [hNil] at hHead
      cases hHead

end ToFront

end Groups
