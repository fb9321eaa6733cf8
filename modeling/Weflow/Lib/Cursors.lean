import Mathlib.Data.List.Basic
import Mathlib.Data.List.Nodup
import Mathlib.Order.Lattice

/-!
# Rows under several cursors

Rows that come from several sources, each source with a cursor of its own. `below` are the rows
a reader with these cursors has passed, `between` those it passes when the cursors advance. The
two add up (`below_append_between`), advances compose (`between_append_between`), an advance of
one cursor concerns the rows of its source only (`between_of_ne`), and rows that arrive above
the cursors change neither.
-/

namespace Cursors

variable {α ι κ : Type*} [LinearOrder κ] {origin : α → ι} {key : α → κ} {rows added : List α}
  {g g' g'' : ι → κ}

/-- The rows at or below the cursor of their source. -/
def below (origin : α → ι) (key : α → κ) (rows : List α) (g : ι → κ) : List α :=
  rows.filter fun r => key r ≤ g (origin r)

/-- The rows above their old cursor and not above the new one. -/
def between (origin : α → ι) (key : α → κ) (rows : List α) (g g' : ι → κ) : List α :=
  rows.filter fun r => g (origin r) < key r ∧ key r ≤ g' (origin r)

theorem mem_between {r : α} :
    r ∈ between origin key rows g g' ↔ r ∈ rows ∧ g (origin r) < key r ∧ key r ≤ g' (origin r) := by
  simp [between]

theorem below_perm {rows' : List α} (h : rows.Perm rows') :
    (below origin key rows g).Perm (below origin key rows' g) := h.filter _

theorem between_perm {rows' : List α} (h : rows.Perm rows') :
    (between origin key rows g g').Perm (between origin key rows' g g') := h.filter _

/-- Two conditions that exclude each other split a list. -/
theorem filter_append_filter {p q r : α → Prop} [DecidablePred p] [DecidablePred q]
    [DecidablePred r] (hr : ∀ a, r a ↔ p a ∨ q a) (hNot : ∀ a, p a → ¬q a) (l : List α) :
    (l.filter (fun a => p a) ++ l.filter (fun a => q a)).Perm (l.filter fun a => r a) := by
  induction l with
  | nil => exact .refl _
  | cons a l ih =>
    by_cases hp : p a
    · simpa [List.filter_cons, hp, hNot a hp, (hr a).mpr (.inl hp)] using ih
    · by_cases hq : q a
      · simp only [List.filter_cons, hp, hq, (hr a).mpr (.inr hq), decide_true, decide_false,
          if_true, Bool.false_eq_true, if_false]
        exact List.perm_middle.trans (ih.cons a)
      · have hNone : ¬r a := fun h => ((hr a).mp h).elim hp hq
        simpa [List.filter_cons, hp, hq, hNone] using ih

theorem below_append_between (h : ∀ i, g i ≤ g' i) :
    (below origin key rows g ++ between origin key rows g g').Perm
      (below origin key rows g') := by
  refine filter_append_filter (fun r => ⟨fun hr => ?_, fun hr => ?_⟩)
    (fun r hr hBetween => absurd hBetween.1 (not_lt.mpr hr)) rows
  · rcases le_or_gt (key r) (g (origin r)) with hLe | hLt
    · exact .inl hLe
    · exact .inr ⟨hLt, hr⟩
  · rcases hr with hLe | ⟨-, hLe⟩
    · exact hLe.trans (h _)
    · exact hLe

theorem between_append_between (h : ∀ i, g i ≤ g' i) (h' : ∀ i, g' i ≤ g'' i) :
    (between origin key rows g g' ++ between origin key rows g' g'').Perm
      (between origin key rows g g'') := by
  refine filter_append_filter (fun r => ⟨fun hr => ?_, fun hr => ?_⟩)
    (fun r hr hNext => absurd hNext.1 (not_lt.mpr hr.2)) rows
  · rcases le_or_gt (key r) (g' (origin r)) with hLe | hLt
    · exact .inl ⟨hr.1, hLe⟩
    · exact .inr ⟨hLt, hr.2⟩
  · rcases hr with ⟨hLt, hLe⟩ | ⟨hLt, hLe⟩
    · exact ⟨hLt, hLe.trans (h' _)⟩
    · exact ⟨(h _).trans_lt hLt, hLe⟩

/-- An advance of one cursor passes rows of its source only. -/
theorem between_of_ne [DecidableEq ι] (i : ι) (h : ∀ j, j ≠ i → g' j = g j) :
    between origin key rows g g' =
      (rows.filter fun r => origin r = i).filter fun r => g i < key r ∧ key r ≤ g' i := by
  rw [between, List.filter_filter]
  refine List.filter_congr fun r _ => ?_
  by_cases hr : origin r = i
  · simp [hr]
  · simp [hr, h _ hr]

theorem below_append_above (h : ∀ r ∈ added, g (origin r) < key r) :
    below origin key (rows ++ added) g = below origin key rows g := by
  have hNone : below origin key added g = [] :=
    List.filter_eq_nil_iff.mpr fun r hr => by simpa using h r hr
  rw [below, List.filter_append]
  change below origin key rows g ++ below origin key added g = _
  rw [hNone, List.append_nil]

theorem between_append_above (h : ∀ r ∈ added, g' (origin r) < key r) :
    between origin key (rows ++ added) g g' = between origin key rows g g' := by
  have hNone : between origin key added g g' = [] :=
    List.filter_eq_nil_iff.mpr fun r hr => by simpa using fun _ => h r hr
  rw [between, List.filter_append]
  change between origin key rows g g' ++ between origin key added g g' = _
  rw [hNone, List.append_nil]

theorem below_eq_self (h : ∀ r ∈ rows, key r ≤ g (origin r)) : below origin key rows g = rows :=
  List.filter_eq_self.mpr fun r hr => by simpa using h r hr

theorem between_self : between origin key rows g g = [] :=
  List.filter_eq_nil_iff.mpr fun r _ => by simp

/-! ## Rows that are grouped by source -/

section

variable {β : Type*} {bs : List β} {rowsOf : β → List α}

omit [LinearOrder κ] in
/-- The rows of one source among the rows of all. -/
theorem filter_group [DecidableEq ι] (origin : α → ι) (o : β → ι) (hNodup : (bs.map o).Nodup)
    (hOrigin : ∀ b ∈ bs, ∀ r ∈ rowsOf b, origin r = o b) {b : β} (hb : b ∈ bs) :
    (bs.flatMap rowsOf).filter (fun r => origin r = o b) = rowsOf b := by
  have hNone : ∀ c ∈ bs, o c ≠ o b → (rowsOf c).filter (fun r => origin r = o b) = [] := by
    intro c hc hNe
    refine List.filter_eq_nil_iff.mpr fun r hr => ?_
    simpa [hOrigin c hc r hr] using hNe
  have hAll : (rowsOf b).filter (fun r => origin r = o b) = rowsOf b :=
    List.filter_eq_self.mpr fun r hr => by simpa using hOrigin b hb r hr
  induction bs with
  | nil => cases hb
  | cons c bs ih =>
    rw [List.map_cons, List.nodup_cons] at hNodup
    rw [List.flatMap_cons, List.filter_append]
    rcases List.mem_cons.mp hb with rfl | hb'
    · rw [hAll, List.filter_flatMap, List.flatMap_eq_nil_iff.mpr, List.append_nil]
      intro c hc
      refine hNone c (List.mem_cons_of_mem _ hc) fun hEq => hNodup.1 ?_
      exact hEq ▸ List.mem_map_of_mem hc
    · rw [hNone c List.mem_cons_self, List.nil_append]
      · exact ih hNodup.2 (fun c hc => hOrigin c (List.mem_cons_of_mem _ hc)) hb'
          fun c hc => hNone c (List.mem_cons_of_mem _ hc)
      · intro hEq
        exact hNodup.1 (hEq ▸ List.mem_map_of_mem hb')

/-- Groups without rows can be left out. -/
theorem flatMap_sublist {cs : List β} (h : cs.Sublist bs) (hNodup : bs.Nodup)
    (hNone : ∀ b ∈ bs, b ∉ cs → rowsOf b = []) : bs.flatMap rowsOf = cs.flatMap rowsOf := by
  induction h with
  | slnil => rfl
  | @cons cs bs b hSub ih =>
    rw [List.nodup_cons] at hNodup
    have hNot : b ∉ cs := fun hMem => hNodup.1 (hSub.subset hMem)
    rw [List.flatMap_cons, hNone b List.mem_cons_self hNot, List.nil_append]
    exact ih hNodup.2 fun c hc => hNone c (List.mem_cons_of_mem _ hc)
  | @cons_cons cs bs b hSub ih =>
    rw [List.nodup_cons] at hNodup
    rw [List.flatMap_cons, List.flatMap_cons, ih hNodup.2]
    intro c hc hNot
    refine hNone c (List.mem_cons_of_mem _ hc) fun hMem => ?_
    rcases List.mem_cons.mp hMem with rfl | hMem
    · exact hNodup.1 hc
    · exact hNot hMem

end

end Cursors
