import Mathlib.Data.List.Basic
import Mathlib.Data.List.Sort
import Mathlib.Order.Lattice

/-!
# Pages that never split a group

A page takes elements until it has at least `limit` of them and the next element belongs to
another group than the last one taken. Over a list sorted by group the page ends between two
groups (`lt_of_mem_page`), so the rest of the list is exactly what lies above the group of
the page's last element (`drop_page`). Pages that are each sorted again are sorted as a whole
(`flatMap_insertionSort`).
-/

namespace GroupPage

variable {α κ : Type*}

section

variable [DecidableEq κ] (group : α → κ) (limit : Nat)

/-- The page loop: `prev` is the group of the last element taken, `n` how many were taken. -/
def extend : Option κ → Nat → List α → List α
  | _, _, [] => []
  | prev, n, a :: l =>
    if prev.any (· ≠ group a) ∧ limit ≤ n then [] else a :: extend (some (group a)) (n + 1) l

/-- One page from the front of the list. -/
def page (l : List α) : List α := extend group limit none 0 l

theorem extend_prefix_rows (prev : Option κ) (n : Nat) (l : List α) :
    extend group limit prev n l <+: l := by
  induction l generalizing prev n with
  | nil => exact List.prefix_rfl
  | cons a l ih =>
    unfold extend
    split
    · exact List.nil_prefix
    · exact List.cons_prefix_cons.mpr ⟨rfl, ih _ _⟩

theorem page_prefix_rows (l : List α) : page group limit l <+: l :=
  extend_prefix_rows group limit none 0 l

theorem page_append_drop (l : List α) :
    page group limit l ++ l.drop (page group limit l).length = l := by
  obtain ⟨rest, h⟩ := page_prefix_rows group limit l
  conv_lhs => arg 2; arg 2; rw [← h]
  rw [List.drop_left, h]

variable {group limit}

theorem page_ne_nil {l : List α} (h : l ≠ []) : page group limit l ≠ [] := by
  cases l with
  | nil => exact absurd rfl h
  | cons a l => simp [page, extend]

/-- Where the loop stops before the end, the group changes. -/
theorem extend_boundary {l rest : List α} {b : α} (prev : Option κ) (n : Nat)
    (h : l = extend group limit prev n l ++ b :: rest) {p : κ}
    (hp : ((extend group limit prev n l).getLast?.map group).or prev = some p) :
    p ≠ group b := by
  induction l generalizing prev n with
  | nil => simp [extend] at h
  | cons a l ih =>
    unfold extend at h hp
    split at h
    · rename_i hStop
      obtain ⟨rfl, rfl⟩ := List.cons.inj h
      rw [if_pos hStop] at hp
      obtain rfl : prev = some p := by simpa using hp
      simpa using hStop.1
    · rename_i hGo
      rw [if_neg hGo] at hp
      refine ih (some (group a)) (n + 1) (List.cons.inj h).2 ?_
      rw [List.getLast?_cons] at hp
      cases hLast : (extend group limit (some (group a)) (n + 1) l).getLast? with
      | none => simpa [hLast] using hp
      | some z => simpa [hLast] using hp

theorem page_boundary {l rest : List α} {b z : α} (h : l = page group limit l ++ b :: rest)
    (hz : (page group limit l).getLast? = some z) : group z ≠ group b := by
  refine extend_boundary none 0 h ?_
  change (((page group limit l).getLast?).map group).or none = some (group z)
  rw [hz]
  rfl

end

section

variable [LinearOrder κ] {group : α → κ} {limit : Nat} {l : List α}

/-- In a list sorted by group, everything after a page is above everything in it. -/
theorem lt_of_mem_page (hSorted : l.Pairwise fun a b => group a ≤ group b) {a b : α}
    (ha : a ∈ page group limit l) (hb : b ∈ l.drop (page group limit l).length) :
    group a < group b := by
  have hSplit := page_append_drop group limit l
  obtain ⟨z, hz⟩ : ∃ z, (page group limit l).getLast? = some z :=
    Option.isSome_iff_exists.mp (by simpa using List.ne_nil_of_mem ha)
  obtain ⟨c, rest, hRest⟩ := List.exists_cons_of_ne_nil (List.ne_nil_of_mem hb)
  have hNe : group z ≠ group c := by
    rw [hRest] at hSplit
    exact page_boundary hSplit.symm hz
  obtain ⟨pre, hPre⟩ := List.getLast?_eq_some_iff.mp hz
  rw [← hSplit] at hSorted
  obtain ⟨hPage, hDrop, hCross⟩ := List.pairwise_append.mp hSorted
  have hzMem : z ∈ page group limit l := List.mem_of_getLast? hz
  have haz : group a ≤ group z := by
    rw [hPre] at ha hPage
    rcases List.mem_append.mp ha with ha | ha
    · exact (List.pairwise_append.mp hPage).2.2 a ha z (by simp)
    · rw [List.mem_singleton.mp ha]
  have hzc : group z < group c :=
    lt_of_le_of_ne (hCross z hzMem c (by rw [hRest]; exact List.mem_cons_self)) hNe
  have hcb : group c ≤ group b := by
    rw [hRest] at hb hDrop
    rcases List.mem_cons.mp hb with rfl | hb
    · exact le_rfl
    · exact (List.pairwise_cons.mp hDrop).1 b hb
  exact haz.trans_lt (hzc.trans_le hcb)

/-- The rest of the list is what lies above the page's last group. -/
theorem drop_page (hSorted : l.Pairwise fun a b => group a ≤ group b) {z : α}
    (hz : (page group limit l).getLast? = some z) :
    l.drop (page group limit l).length = l.filter fun b => group z < group b := by
  have hzMem : z ∈ page group limit l := List.mem_of_getLast? hz
  have hSplit := page_append_drop group limit l
  have hLe : ∀ a ∈ page group limit l, group a ≤ group z := by
    intro a ha
    obtain ⟨pre, hPre⟩ := List.getLast?_eq_some_iff.mp hz
    have hPage := hSorted.sublist (page_prefix_rows group limit l).sublist
    rw [hPre] at ha hPage
    rcases List.mem_append.mp ha with ha | ha
    · exact (List.pairwise_append.mp hPage).2.2 a ha z (by simp)
    · rw [List.mem_singleton.mp ha]
  have hPageNil : (page group limit l).filter (fun b => decide (group z < group b)) = [] :=
    List.filter_eq_nil_iff.mpr fun a ha => by simpa using hLe a ha
  have hRest : (l.drop (page group limit l).length).filter (fun b => decide (group z < group b)) =
      l.drop (page group limit l).length :=
    List.filter_eq_self.mpr fun b hb => by simpa using lt_of_mem_page hSorted hzMem hb
  conv_rhs => rw [← hSplit, List.filter_append, hPageNil, List.nil_append, hRest]

end

/-! ## Sorting page by page -/

section

variable {r : α → α → Prop} [DecidableRel r]

theorem orderedInsert_append {x : α} {a b : List α} (h : ∀ y ∈ b, r x y) :
    (a ++ b).orderedInsert r x = a.orderedInsert r x ++ b := by
  induction a with
  | nil =>
    cases b with
    | nil => rfl
    | cons y b => exact List.orderedInsert_cons_of_le r b (h y List.mem_cons_self)
  | cons c a ih =>
    rw [List.cons_append, List.orderedInsert_cons, List.orderedInsert_cons, ih]
    split <;> rfl

theorem insertionSort_append {a b : List α} (h : ∀ x ∈ a, ∀ y ∈ b, r x y) :
    (a ++ b).insertionSort r = a.insertionSort r ++ b.insertionSort r := by
  induction a with
  | nil => rfl
  | cons x a ih =>
    rw [List.cons_append, List.insertionSort_cons, List.insertionSort_cons,
      ih fun y hy => h y (List.mem_cons_of_mem x hy)]
    refine orderedInsert_append fun y hy => ?_
    exact h x List.mem_cons_self y ((List.mem_insertionSort r).mp hy)

/-- Where every page is in front of the later ones, sorting each sorts all. -/
theorem flatMap_insertionSort {pages : List (List α)}
    (h : pages.Pairwise fun p q => ∀ x ∈ p, ∀ y ∈ q, r x y) :
    pages.flatMap (List.insertionSort r) = pages.flatten.insertionSort r := by
  induction pages with
  | nil => rfl
  | cons p pages ih =>
    obtain ⟨hFirst, hRest⟩ := List.pairwise_cons.mp h
    rw [List.flatMap_cons, List.flatten_cons, ih hRest]
    refine (insertionSort_append fun x hx y hy => ?_).symm
    obtain ⟨q, hq, hyq⟩ := List.mem_flatten.mp hy
    exact hFirst q hq x hx y hyq

end

end GroupPage
