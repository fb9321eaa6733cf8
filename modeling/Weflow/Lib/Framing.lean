import Mathlib.Data.List.Basic

/-!
# Lines of a stream

A stream arrives in pieces and is read line by line: what is behind the last separator waits for the
next piece. `splitLines` takes a buffer apart, and `splitLines_append` says that it does not matter
where the pieces were cut. The lines of a prefix are a prefix of the lines.
-/

namespace Framing

variable {α : Type*} (sep : α)

/-- Lines as they are written. -/
def joinLines (ls : List (List α)) : List α := ls.flatMap fun l => l ++ [sep]

@[simp] theorem joinLines_nil : joinLines sep [] = [] := rfl

@[simp] theorem joinLines_append (ls ms : List (List α)) :
    joinLines sep (ls ++ ms) = joinLines sep ls ++ joinLines sep ms := List.flatMap_append

variable [DecidableEq α]

/-- The lines of a buffer, and what is behind the last of them. -/
def splitLines : List α → List (List α) × List α
  | [] => ([], [])
  | b :: rest =>
    if b = sep then ([] :: (splitLines rest).1, (splitLines rest).2)
    else
      match (splitLines rest).1 with
      | [] => ([], b :: (splitLines rest).2)
      | l :: ls => ((b :: l) :: ls, (splitLines rest).2)

variable {sep}

theorem splitLines_open {a : List α} (h : sep ∉ a) : splitLines sep a = ([], a) := by
  induction a with
  | nil => rfl
  | cons b a ih =>
    rw [List.mem_cons, not_or] at h
    rw [splitLines, if_neg (Ne.symm h.1), ih h.2]

theorem splitLines_line {a : List α} (h : sep ∉ a) (b : List α) :
    splitLines sep (a ++ sep :: b) = (a :: (splitLines sep b).1, (splitLines sep b).2) := by
  induction a with
  | nil => rw [List.nil_append, splitLines, if_pos rfl]
  | cons c a ih =>
    rw [List.mem_cons, not_or] at h
    rw [List.cons_append, splitLines, if_neg (Ne.symm h.1), ih h.2]

/-- The lines put together again, with what is left. -/
theorem joinLines_splitLines (a : List α) :
    joinLines sep (splitLines sep a).1 ++ (splitLines sep a).2 = a := by
  induction a with
  | nil => rfl
  | cons b a ih =>
    rw [splitLines]
    split
    · rename_i hEq
      rw [hEq]
      exact congrArg (sep :: ·) ih
    · split
      · rename_i hNil
        rw [hNil] at ih
        exact congrArg (b :: ·) ih
      · rename_i l ls hCons
        rw [hCons] at ih
        exact congrArg (b :: ·) ih

theorem not_mem_splitLines (sep : α) (a : List α) :
    (∀ l ∈ (splitLines sep a).1, sep ∉ l) ∧ sep ∉ (splitLines sep a).2 := by
  induction a with
  | nil => exact ⟨fun l hl => absurd hl List.not_mem_nil, List.not_mem_nil⟩
  | cons b a ih =>
    obtain ⟨hLines, hRest⟩ := ih
    rw [splitLines]
    split
    · refine ⟨fun l hl => ?_, hRest⟩
      rcases List.mem_cons.mp hl with rfl | hl
      · exact List.not_mem_nil
      · exact hLines l hl
    · rename_i hNe
      have hHead : ∀ l : List α, sep ∉ l → sep ∉ b :: l := by
        intro l hl hMem
        rcases List.mem_cons.mp hMem with hEq | hMem
        · exact hNe hEq.symm
        · exact hl hMem
      split
      · exact ⟨fun l hl => absurd hl List.not_mem_nil, hHead _ hRest⟩
      · rename_i l ls hCons
        rw [hCons] at hLines
        refine ⟨fun m hm => ?_, hRest⟩
        rcases List.mem_cons.mp hm with rfl | hm
        · exact hHead l (hLines l List.mem_cons_self)
        · exact hLines m (List.mem_cons_of_mem _ hm)

theorem splitLines_joinLines {ls : List (List α)} (h : ∀ l ∈ ls, sep ∉ l) (b : List α) :
    splitLines sep (joinLines sep ls ++ b) =
      (ls ++ (splitLines sep b).1, (splitLines sep b).2) := by
  induction ls with
  | nil => rfl
  | cons l ls ih =>
    have hEq : joinLines sep (l :: ls) ++ b = l ++ sep :: (joinLines sep ls ++ b) := by
      simp [joinLines]
    rw [hEq, splitLines_line (h l List.mem_cons_self),
      ih fun m hm => h m (List.mem_cons_of_mem _ hm)]
    rfl

/-- A piece is read behind what was left of the pieces before it. -/
theorem splitLines_append (sep : α) (a b : List α) :
    splitLines sep (a ++ b) =
      ((splitLines sep a).1 ++ (splitLines sep ((splitLines sep a).2 ++ b)).1,
        (splitLines sep ((splitLines sep a).2 ++ b)).2) := by
  have hLines := (not_mem_splitLines sep a).1
  rw [← splitLines_joinLines hLines, ← List.append_assoc, joinLines_splitLines]

theorem splitLines_prefix {a b : List α} (h : a <+: b) :
    (splitLines sep a).1 <+: (splitLines sep b).1 := by
  obtain ⟨c, rfl⟩ := h
  rw [splitLines_append]
  exact List.prefix_append _ _

/-- The characters of a line are those of the buffer. -/
theorem mem_of_mem_splitLines (sep : α) {a l : List α}
    (hl : l ∈ (splitLines sep a).1 ∨ l = (splitLines sep a).2) {b : α} (hb : b ∈ l) : b ∈ a := by
  rw [← joinLines_splitLines a, List.mem_append]
  rcases hl with hl | rfl
  · exact .inl (List.mem_flatMap.mpr ⟨l, hl, List.mem_append_left _ hb⟩)
  · exact .inr hb

/-- What is open when a buffer grows is the beginning of its next line. -/
theorem splitLines_begin {a : List α} (h : sep ∉ a) (b : List α) :
    splitLines sep (a ++ b) = ([], a ++ b) ∨
      ∃ l ls, (splitLines sep (a ++ b)).1 = l :: ls ∧ a <+: l := by
  by_cases hb : sep ∈ b
  · obtain ⟨front, rest, rfl, hFront⟩ := List.eq_append_cons_of_mem hb
    have hLine : sep ∉ a ++ front := by
      rw [List.mem_append, not_or]
      exact ⟨h, hFront⟩
    rw [← List.append_assoc, splitLines_line hLine]
    exact .inr ⟨_, _, rfl, List.prefix_append a front⟩
  · left
    refine splitLines_open ?_
    rw [List.mem_append, not_or]
    exact ⟨h, hb⟩

/-! ## Prefixes of a line -/

/-- What is behind a prefix, if the line begins with it. -/
def stripPrefix (p line : List α) : Option (List α) :=
  if p <+: line then some (line.drop p.length) else none

@[simp] theorem stripPrefix_append (p a : List α) : stripPrefix p (p ++ a) = some a := by
  rw [stripPrefix, if_pos (List.prefix_append p a), List.drop_left]

theorem stripPrefix_of_not {p line : List α} (h : ¬ p <+: line) : stripPrefix p line = none :=
  if_neg h

omit [DecidableEq α] in
/-- A prefix of two texts behind each other ends in the first or in the second. -/
theorem prefix_append_cases {a b l : List α} (h : l <+: a ++ b) :
    l <+: a ∨ ∃ t, l = a ++ t ∧ t <+: b := by
  rcases List.prefix_or_prefix_of_prefix h (List.prefix_append a b) with hl | ⟨t, rfl⟩
  · exact .inl hl
  · exact .inr ⟨t, rfl, (List.prefix_append_right_inj a).mp h⟩

omit [DecidableEq α] in
/-- A prefix without the separator is one of the first line. -/
theorem prefix_line {l line rest : List α} (h : l <+: line ++ sep :: rest) (hSep : sep ∉ l) :
    l <+: line := by
  rcases prefix_append_cases h with hLine | ⟨t, rfl, ht⟩
  · exact hLine
  · cases t with
    | nil => exact ⟨[], by rw [List.append_nil, List.append_nil]⟩
    | cons b t =>
      obtain rfl : b = sep := (List.cons_prefix_cons.mp ht).1
      exact absurd (List.mem_append_right line List.mem_cons_self) hSep

omit [DecidableEq α] in
/-- Two texts that begin differently are no prefixes of one line. -/
theorem not_prefix_append {p q a : List α} (h : ¬ p <+: q) (h' : ¬ q <+: p) : ¬ p <+: q ++ a := by
  intro hp
  rcases List.prefix_or_prefix_of_prefix hp (List.prefix_append q a) with hpq | hqp
  · exact h hpq
  · exact h' hqp

end Framing
