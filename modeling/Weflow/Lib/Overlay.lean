import Mathlib.Data.List.Induction
import Mathlib.Data.List.Nodup

/-!
# Refreshing in place

A table that is refreshed by writing its new content over what it holds. Additions and changes
are exact, deletions are not: the refreshed table is the new content exactly when that has an
entry for everything that was held (`eq_fresh_iff`). A list of members that is refreshed by
appending those it lacks is the new list exactly when it was a prefix of it (`union_eq_iff`).
-/

namespace Overlay

/-! ## Tables -/

section

variable {ι β : Type*} {new fresh old : ι → Option β}

theorem or_eq_left_iff {a b : Option β} : a.or b = a ↔ (b.isSome → a.isSome) := by
  cases a <;> cases b <;> simp

theorem eq_fresh_iff (h : ∀ k, new k = (fresh k).or (old k)) :
    (∀ k, new k = fresh k) ↔ ∀ k, (old k).isSome → (fresh k).isSome := by
  refine forall_congr' fun k => ?_
  rw [h k]
  exact or_eq_left_iff

end

/-! ## Lists of members -/

section

variable {β : Type*} [DecidableEq β]

/-- Append a member unless it is there. -/
def insertNew (l : List β) (a : β) : List β := if a ∈ l then l else l ++ [a]

/-- Append the members that are not there. -/
def union (l ms : List β) : List β := ms.foldl insertNew l

theorem union_concat (l ms : List β) (a : β) : union l (ms ++ [a]) = insertNew (union l ms) a := by
  rw [union, List.foldl_append, List.foldl_cons, List.foldl_nil, union]

theorem nodup_union (ms : List β) : (union [] ms).Nodup := by
  induction ms using List.reverseRecOn with
  | nil => exact List.nodup_nil
  | append_singleton ms a ih =>
    rw [union_concat, insertNew]
    split
    · exact ih
    · rename_i hNot
      exact List.nodup_append.mpr ⟨ih, List.nodup_singleton a, fun x hx y hy hEq => by
        obtain rfl := List.mem_singleton.mp hy
        exact hNot (hEq ▸ hx)⟩

/-- The held members, then the new ones among the others. -/
theorem union_eq (l ms : List β) :
    union l ms = l ++ (union [] ms).filter fun a => a ∉ l := by
  induction ms using List.reverseRecOn with
  | nil => simp [union]
  | append_singleton ms a ih =>
    rw [union_concat, union_concat, ih]
    unfold insertNew
    by_cases hNew : a ∈ union [] ms
    · have hThere : a ∈ l ++ (union [] ms).filter fun a => a ∉ l := by
        by_cases hOld : a ∈ l
        · exact List.mem_append_left _ hOld
        · exact List.mem_append_right _ (List.mem_filter.mpr ⟨hNew, by simpa using hOld⟩)
      rw [if_pos hThere, if_pos hNew]
    · by_cases hOld : a ∈ l
      · rw [if_pos (List.mem_append_left _ hOld), if_neg hNew, List.filter_append]
        simp [hOld]
      · have hNot : a ∉ l ++ (union [] ms).filter fun a => a ∉ l := by
          simp [hOld, hNew]
        rw [if_neg hNot, if_neg hNew, List.filter_append]
        simp [hOld]

theorem union_eq_iff {l ms : List β} : union l ms = union [] ms ↔ l <+: union [] ms := by
  rw [union_eq]
  constructor
  · intro h
    exact ⟨_, h⟩
  · rintro ⟨rest, hRest⟩
    have hNodup : (l ++ rest).Nodup := hRest ▸ nodup_union ms
    have hOld : l.filter (fun a => a ∉ l) = [] := List.filter_eq_nil_iff.mpr fun a ha => by simpa
    have hNew : rest.filter (fun a => a ∉ l) = rest := List.filter_eq_self.mpr fun a ha => by
      simpa using fun h => List.disjoint_of_nodup_append hNodup h ha
    rw [← hRest, List.filter_append, hOld, hNew, List.nil_append]

end

end Overlay
