import Mathlib.Data.List.Sort
import Mathlib.Order.Basic
import Mathlib.Order.Lattice
import Mathlib.Data.List.Nodup

/-!
# Reading a growing table by a key cursor

A reader that keeps the key of the last row it was given and asks for the rows above it,
sorted by key and at most `n` at a time. For keys that are pairwise different, a nonempty
page is exactly the rows between the old and the new cursor (`page_perm_between`), a page
that could hold all rows above the cursor leaves none there (`le_of_page_covers`), and
over rows whose keys are already increasing a page is the next segment of the list
(`after_eq_drop`).
-/

namespace Keyset

variable {α κ : Type*} [LinearOrder κ] {key : α → κ} {rows : List α} {w c : κ} {n : Nat}

/-! ## The stable sort -/

/-- The stable ascending sort by `key`. -/
def sortBy (key : α → κ) (rows : List α) : List α :=
  rows.insertionSort fun a b => key a ≤ key b

private instance totalKey : Std.Total fun a b : α => key a ≤ key b := ⟨fun a b => le_total (key a) (key b)⟩

private instance transKey : IsTrans α fun a b => key a ≤ key b := ⟨fun _ _ _ => le_trans⟩

theorem perm_sortBy (key : α → κ) (rows : List α) : (sortBy key rows).Perm rows :=
  List.perm_insertionSort _ rows

@[simp] theorem mem_sortBy {r : α} : r ∈ sortBy key rows ↔ r ∈ rows :=
  (perm_sortBy key rows).mem_iff

@[simp] theorem length_sortBy : (sortBy key rows).length = rows.length :=
  (perm_sortBy key rows).length_eq

theorem pairwise_sortBy (key : α → κ) (rows : List α) :
    (sortBy key rows).Pairwise fun a b => key a ≤ key b :=
  List.pairwise_insertionSort _ rows

theorem sortBy_of_pairwise (h : rows.Pairwise fun a b => key a ≤ key b) :
    sortBy key rows = rows :=
  h.insertionSort_eq

private theorem filter_orderedInsert (p : α → Bool) (a : α) :
    ∀ l : List α, l.Pairwise (fun a b => key a ≤ key b) →
      (l.orderedInsert (fun a b => key a ≤ key b) a).filter p =
        if p a then (l.filter p).orderedInsert (fun a b => key a ≤ key b) a else l.filter p
  | [], _ => by by_cases h : p a <;> simp [h]
  | b :: l, hl => by
    have ih := filter_orderedInsert p a l hl.tail
    have hb : ∀ x ∈ l, key b ≤ key x := (List.pairwise_cons.mp hl).1
    by_cases hab : key a ≤ key b
    · -- `a` lands in front: it stays in front of whatever the filter keeps
      rw [List.orderedInsert_cons, if_pos hab]
      by_cases ha : p a
      · have hFront : ∀ x ∈ (b :: l).filter p, key a ≤ key x := by
          intro x hx
          rcases List.mem_cons.mp (List.mem_of_mem_filter hx) with rfl | hx
          · exact hab
          · exact hab.trans (hb x hx)
        rw [List.filter_cons_of_pos ha, if_pos ha]
        cases hf : (b :: l).filter p with
        | nil => rfl
        | cons x xs =>
          have hx := hFront x (by rw [hf]; exact List.mem_cons_self)
          rw [List.orderedInsert_cons, if_pos hx]
      · rw [List.filter_cons_of_neg ha, if_neg ha]
    · rw [List.orderedInsert_cons, if_neg hab]
      by_cases hpb : p b
      · rw [List.filter_cons_of_pos hpb, ih, List.filter_cons_of_pos hpb]
        split
        · rw [List.orderedInsert_cons, if_neg hab]
        · rfl
      · rw [List.filter_cons_of_neg hpb, ih, List.filter_cons_of_neg hpb]

/-- Filtering commutes with the stable sort. -/
theorem filter_sortBy (p : α → Bool) (rows : List α) :
    (sortBy key rows).filter p = sortBy key (rows.filter p) := by
  induction rows with
  | nil => rfl
  | cons a rows ih =>
    have hs := filter_orderedInsert p a _ (pairwise_sortBy key rows)
    simp only [sortBy, List.insertionSort_cons] at hs ih ⊢
    rw [hs, ih]
    by_cases ha : p a
    · rw [if_pos ha, List.filter_cons_of_pos ha, List.insertionSort_cons]
    · rw [if_neg ha, List.filter_cons_of_neg ha]

/-! ## Pages above a cursor -/

/-- The rows above the cursor `w`, in key order. -/
def after (key : α → κ) (w : κ) (rows : List α) : List α :=
  sortBy key (rows.filter fun r => w < key r)

/-- One page: at most `n` of them. -/
def page (n : Nat) (key : α → κ) (w : κ) (rows : List α) : List α :=
  (after key w rows).take n

@[simp] theorem mem_after {r : α} : r ∈ after key w rows ↔ r ∈ rows ∧ w < key r := by
  simp [after]

theorem pairwise_after : (after key w rows).Pairwise fun a b => key a ≤ key b :=
  pairwise_sortBy _ _

theorem mem_of_mem_page {r : α} (h : r ∈ page n key w rows) : r ∈ rows ∧ w < key r :=
  mem_after.mp (List.mem_of_mem_take h)

theorem page_eq_after (h : (page n key w rows).length < n) :
    page n key w rows = after key w rows := by
  apply List.take_of_length_le
  simp only [page, List.length_take] at h
  omega

theorem page_sublist_after : (page n key w rows).Sublist (after key w rows) :=
  List.take_sublist _ _

/-- With pairwise different keys the rows above the cursor are strictly sorted. -/
theorem pairwise_lt_after (hKey : (rows.map key).Nodup) :
    (after key w rows).Pairwise fun a b => key a < key b := by
  have hNodup : ((after key w rows).map key).Nodup := by
    refine ((perm_sortBy key _).map key).nodup_iff.mpr ?_
    exact hKey.sublist (List.filter_sublist.map key)
  have hNe := List.pairwise_map.mp hNodup
  exact (pairwise_after.and hNe).imp fun h => lt_of_le_of_ne h.1 h.2

/-- In a strictly sorted list, the rows up to the last one of a prefix are that prefix. -/
theorem filter_le_last {l p q : List α} {z : α} (hl : l.Pairwise fun a b => key a < key b)
    (h : l = p ++ z :: q) : l.filter (fun r => key r ≤ key z) = p ++ [z] := by
  subst h
  obtain ⟨-, hzq, hcross⟩ := List.pairwise_append.mp hl
  have hq := (List.pairwise_cons.mp hzq).1
  rw [List.filter_append, List.filter_cons_of_pos (by simp)]
  have hp : p.filter (fun r => decide (key r ≤ key z)) = p :=
    List.filter_eq_self.mpr fun r hr => by
      simpa using (hcross r hr z List.mem_cons_self).le
  have hqn : q.filter (fun r => decide (key r ≤ key z)) = [] :=
    List.filter_eq_nil_iff.mpr fun r hr => by simpa using hq r hr
  rw [hp, hqn]

/-- The cursor after a page: the key of its last row, or the old cursor. -/
def cursorAfter (key : α → κ) (w : κ) (p : List α) : κ :=
  (p.getLast?.map key).getD w

omit [LinearOrder κ] in
@[simp] theorem cursorAfter_nil : cursorAfter key w [] = w := rfl

omit [LinearOrder κ] in
@[simp] theorem cursorAfter_concat (p : List α) (z : α) :
    cursorAfter key w (p ++ [z]) = key z := by
  simp [cursorAfter]

theorem le_cursorAfter_page : w ≤ cursorAfter key w (page n key w rows) := by
  rcases List.eq_nil_or_concat (page n key w rows) with h | ⟨p, z, h⟩
  · rw [h, cursorAfter_nil]
  · have hz : z ∈ page n key w rows := by rw [h]; simp
    rw [h, List.concat_eq_append, cursorAfter_concat]
    exact (mem_of_mem_page hz).2.le

/-- A page is exactly the rows between the old cursor and the new one. -/
theorem page_perm_between (hKey : (rows.map key).Nodup) :
    (page n key w rows).Perm
      (rows.filter fun r => w < key r ∧ key r ≤ cursorAfter key w (page n key w rows)) := by
  rcases List.eq_nil_or_concat (page n key w rows) with h | ⟨p, z, h⟩
  · rw [h, cursorAfter_nil, List.filter_eq_nil_iff.mpr]
    intro r _
    simp
  · rw [List.concat_eq_append] at h
    have hSplit : after key w rows = p ++ z :: (after key w rows).drop n := by
      conv_lhs => rw [← List.take_append_drop n (after key w rows)]
      change page n key w rows ++ _ = _
      rw [h, List.append_assoc, List.singleton_append]
    have hCut := filter_le_last (pairwise_lt_after hKey) hSplit
    rw [h, cursorAfter_concat, ← hCut]
    refine ((perm_sortBy key _).filter _).trans ?_
    rw [List.filter_filter]
    refine List.Perm.of_eq (List.filter_congr fun r _ => ?_)
    simp [and_comm]

/-- After a page that has room for all rows above the old cursor none is above the new one. -/
theorem le_of_page_covers (hKey : (rows.map key).Nodup)
    (h : (rows.filter fun r => w < key r).length ≤ n) {r : α} (hr : r ∈ rows) :
    key r ≤ cursorAfter key w (page n key w rows) := by
  by_cases hw : w < key r
  · have hMem : r ∈ page n key w rows := by
      rw [page, List.take_of_length_le (by simpa [after] using h)]
      exact mem_after.mpr ⟨hr, hw⟩
    have := (page_perm_between hKey).mem_iff.mp hMem
    simp only [List.mem_filter, decide_eq_true_eq] at this
    exact this.2.2
  · exact (not_lt.mp hw).trans le_cursorAfter_page

theorem length_after_le (h : (page n key w rows).length < n) :
    (rows.filter fun r => w < key r).length ≤ n := by
  have hAll := congrArg List.length (page_eq_after h)
  simp only [after, length_sortBy] at hAll
  omega

/-- A full page takes `n` rows off those above the cursor. -/
theorem length_above_cursor (hKey : (rows.map key).Nodup)
    (h : n ≤ (page n key w rows).length) :
    (rows.filter fun r => cursorAfter key w (page n key w rows) < key r).length + n =
      (rows.filter fun r => w < key r).length := by
  have hLen : (page n key w rows).length = n := by
    refine le_antisymm ?_ h
    rw [page, List.length_take]
    exact min_le_left _ _
  have hBetween := (page_perm_between (n := n) (w := w) hKey).length_eq
  rw [hLen] at hBetween
  have hSplit := (List.filter_append_perm
    (fun r => decide (key r ≤ cursorAfter key w (page n key w rows)))
    (rows.filter fun r => w < key r)).length_eq
  rw [List.length_append, List.filter_filter, List.filter_filter] at hSplit
  have hPassed : (rows.filter fun r => decide (key r ≤ cursorAfter key w (page n key w rows)) &&
      decide (w < key r)).length = n := by
    refine Eq.trans (congrArg List.length (List.filter_congr fun r _ => ?_)) hBetween.symm
    simp [and_comm]
  have hLeft : (rows.filter fun r => !decide (key r ≤ cursorAfter key w (page n key w rows)) &&
      decide (w < key r)) =
      rows.filter fun r => cursorAfter key w (page n key w rows) < key r := by
    refine List.filter_congr fun r _ => ?_
    have hLe : w ≤ cursorAfter key w (page n key w rows) := le_cursorAfter_page
    by_cases hr : cursorAfter key w (page n key w rows) < key r
    · simp [hr, hLe.trans_lt hr]
    · simp [hr]
  rw [hPassed, hLeft] at hSplit
  omega

/-- The rows above a cursor are those up to a bound and those above it. -/
theorem length_above_split {b : κ} (h : w ≤ b) : (rows.filter fun r => w < key r).length =
    (rows.filter fun r => w < key r ∧ key r ≤ b).length +
      (rows.filter fun r => b < key r).length := by
  have hSplit := (List.filter_append_perm (fun r => decide (key r ≤ b))
    (rows.filter fun r => w < key r)).length_eq
  rw [List.length_append, List.filter_filter, List.filter_filter] at hSplit
  rw [← hSplit]
  congr 2
  · refine List.filter_congr fun r _ => ?_
    simp [and_comm]
  · refine List.filter_congr fun r _ => ?_
    by_cases hr : b < key r
    · simp [hr, h.trans_lt hr]
    · simp [hr]

/-- A full page takes `n` rows off those up to a bound that the cursor has not passed. -/
theorem length_between_cursor (hKey : (rows.map key).Nodup)
    (h : n ≤ (page n key w rows).length) {b : κ}
    (hb : cursorAfter key w (page n key w rows) ≤ b) :
    (rows.filter fun r => cursorAfter key w (page n key w rows) < key r ∧ key r ≤ b).length + n =
      (rows.filter fun r => w < key r ∧ key r ≤ b).length := by
  have hAll := length_above_cursor hKey h
  have hLe : w ≤ cursorAfter key w (page n key w rows) := le_cursorAfter_page
  have hBefore : (rows.filter fun r => w < key r).length = _ := length_above_split (hLe.trans hb)
  have hAfter : (rows.filter fun r => cursorAfter key w (page n key w rows) < key r).length = _ :=
    length_above_split hb
  omega

/-- A row above the cursor that the page does not hold comes after all of its rows. -/
theorem lt_of_not_mem_page (hKey : (rows.map key).Nodup) {r : α} (hr : r ∈ rows) (hw : w < key r)
    (hNot : r ∉ page n key w rows) :
    n ≤ (page n key w rows).length ∧ ∀ z ∈ page n key w rows, key z < key r := by
  have hAfter : r ∈ after key w rows := mem_after.mpr ⟨hr, hw⟩
  refine ⟨?_, fun z hz => ?_⟩
  · by_contra hShort
    exact hNot (page_eq_after (not_le.mp hShort) ▸ hAfter)
  · rw [← List.take_append_drop n (after key w rows)] at hAfter
    have hDrop := (List.mem_append.mp hAfter).resolve_left hNot
    have hSorted := pairwise_lt_after (w := w) hKey
    rw [← List.take_append_drop n (after key w rows)] at hSorted
    exact (List.pairwise_append.mp hSorted).2.2 z hz r hDrop

/-! ## Tables whose rows are appended in key order -/

/-- In a table appended in key order, the rows above the key of a row are the rest. -/
theorem after_eq_drop {p q : List α} (hIncr : (p ++ q).Pairwise fun a b => key a < key b)
    (hp : ∀ r ∈ p, key r ≤ w) (hq : ∀ r ∈ q, w < key r) : after key w (p ++ q) = q := by
  have hFilter : (p ++ q).filter (fun r => decide (w < key r)) = q := by
    rw [List.filter_append, List.filter_eq_nil_iff.mpr (by simpa using hp),
      List.filter_eq_self.mpr (by simpa using hq), List.nil_append]
  rw [after, hFilter]
  exact sortBy_of_pairwise ((List.pairwise_append.mp hIncr).2.1.imp le_of_lt)

/-! ## The first and the last of an ordered list -/

/-- The first `n` of a strictly ordered list are those with fewer than `n` below them. -/
theorem mem_take_iff {l : List κ} (h : l.Pairwise (· < ·)) {a : κ} {n : Nat} :
    a ∈ l.take n ↔ a ∈ l ∧ (l.filter (· < a)).length < n := by
  induction l generalizing n with
  | nil => simp
  | cons b l ih =>
    obtain ⟨hHead, hTail⟩ := List.pairwise_cons.mp h
    cases n with
    | zero => simp
    | succ n =>
      rw [List.take_succ_cons, List.mem_cons, List.mem_cons, ih hTail]
      by_cases hab : a = b
      · subst hab
        have hNone : l.filter (· < a) = [] := by
          refine List.filter_eq_nil_iff.mpr fun x hx => ?_
          simpa using (hHead x hx).le
        simp [hNone]
      · simp only [hab, false_or]
        refine and_congr_right fun ha => ?_
        rw [List.filter_cons_of_pos (by simpa using hHead a ha), List.length_cons,
          Nat.add_lt_add_iff_right]

/-- The last element of an ordered list with a property is the greatest one. -/
theorem find?_reverse_eq_some {l : List κ} (h : l.Pairwise (· ≤ ·)) {p : κ → Bool} {a : κ} :
    l.reverse.find? p = some a ↔ a ∈ l ∧ p a = true ∧ ∀ b ∈ l, p b = true → b ≤ a := by
  have hFound : ∀ {a}, l.reverse.find? p = some a →
      a ∈ l ∧ p a = true ∧ ∀ b ∈ l, p b = true → b ≤ a := by
    intro a hFind
    obtain ⟨hp, before, after, hSplit, hNot⟩ := List.find?_eq_some_iff_append.mp hFind
    have hMem : a ∈ l := List.mem_reverse.mp (List.mem_of_find?_eq_some hFind)
    refine ⟨hMem, hp, fun b hb hpb => ?_⟩
    have hb' : b ∈ before ++ a :: after := hSplit ▸ List.mem_reverse.mpr hb
    have hDown : (before ++ a :: after).Pairwise fun x y => y ≤ x := by
      rw [← hSplit, List.pairwise_reverse]
      exact h
    rcases List.mem_append.mp hb' with hb' | hb'
    · simpa [hpb] using hNot b hb'
    · rcases List.mem_cons.mp hb' with rfl | hb'
      · exact le_rfl
      · exact (List.pairwise_cons.mp (List.pairwise_append.mp hDown).2.1).1 b hb'
  refine ⟨hFound, fun ⟨ha, hp, hMax⟩ => ?_⟩
  cases hFind : l.reverse.find? p with
  | none => exact absurd hp (by simpa using List.find?_eq_none.mp hFind a (List.mem_reverse.mpr ha))
  | some b =>
    obtain ⟨hb, hpb, hMaxB⟩ := hFound hFind
    rw [le_antisymm (hMaxB a ha hp) (hMax b hb hpb)]

end Keyset
