import Mathlib.Data.List.Basic
import Mathlib.Data.List.Infix

/-!
# Searching a text for another

`splitOnce` finds the first place at which a text stands in another. Where the searched text has
its first element nowhere else in it, it cannot begin in one part and end in the next
(`splitOnce_front`); where it has its last element nowhere else in it, the place is found segment by
segment (`splitOnce_segment`).
-/

namespace Search

variable {α : Type*} [DecidableEq α]

/-- The first place at which `needle` stands: what is before it, and what is behind it. -/
def splitOnce (needle : List α) : List α → Option (List α × List α)
  | [] => if needle = [] then some ([], []) else none
  | c :: cs =>
    if needle <+: c :: cs then some ([], (c :: cs).drop needle.length)
    else (splitOnce needle cs).map fun p => (c :: p.1, p.2)

/-- The place is a place. -/
theorem eq_of_splitOnce {needle h a b : List α} (hSplit : splitOnce needle h = some (a, b)) :
    h = a ++ needle ++ b := by
  induction h generalizing a with
  | nil =>
    rw [splitOnce] at hSplit
    split at hSplit
    · rename_i hNil
      cases hSplit
      rw [hNil]
      rfl
    · cases hSplit
  | cons c cs ih =>
    rw [splitOnce] at hSplit
    split at hSplit
    · rename_i hPrefix
      cases hSplit
      obtain ⟨t, hEq⟩ := hPrefix
      rw [← hEq, List.drop_left, List.nil_append]
    · obtain ⟨p, hp, hEq⟩ := Option.map_eq_some_iff.mp hSplit
      cases hEq
      rw [ih hp]
      rfl

theorem splitOnce_none {needle h : List α} : splitOnce needle h = none ↔ ¬ needle <:+: h := by
  induction h with
  | nil =>
    rw [splitOnce]
    split
    · rename_i hNil
      simp [hNil]
    · rename_i hNil
      simpa using hNil
  | cons c cs ih =>
    rw [splitOnce, List.infix_cons_iff, not_or]
    split
    · rename_i hPrefix
      simp [hPrefix]
    · rename_i hPrefix
      rw [Option.map_eq_none_iff, ih]
      exact ⟨fun hRest => ⟨hPrefix, hRest⟩, And.right⟩

omit [DecidableEq α] in
/-- What cannot begin before a text with a given first element. -/
theorem not_prefix_of_front {x : α} {tail a b : List α} (hx : x ∉ tail) (ha : a ≠ [])
    (hNot : ¬ (x :: tail) <:+: a) : ¬ (x :: tail) <+: a ++ x :: b := by
  intro hPrefix
  rcases List.prefix_or_prefix_of_prefix hPrefix (List.prefix_append a (x :: b)) with hIn | ⟨t, hEq⟩
  · exact hNot hIn.isInfix
  · rw [← hEq, List.prefix_append_right_inj] at hPrefix
    obtain ⟨c, a, rfl⟩ := List.exists_cons_of_ne_nil ha
    rw [List.cons_append, List.cons.injEq] at hEq
    cases t with
    | nil =>
      rw [List.append_nil] at hEq
      exact hNot ⟨[], [], by rw [hEq.1, ← hEq.2]; simp⟩
    | cons y t =>
      obtain ⟨rfl, -⟩ := List.cons_prefix_cons.mp hPrefix
      exact hx (hEq.2 ▸ List.mem_append_right _ List.mem_cons_self)

omit [DecidableEq α] in
/-- A text does not begin where its first element does not stand. -/
theorem infix_behind {x : α} {tail a b : List α} (ha : x ∉ a) (h : (x :: tail) <:+: a ++ b) :
    (x :: tail) <:+: b := by
  induction a with
  | nil => exact h
  | cons c a ih =>
    rw [List.mem_cons, not_or] at ha
    rw [List.cons_append, List.infix_cons_iff] at h
    rcases h with hPrefix | hIn
    · exact absurd (List.cons_prefix_cons.mp hPrefix).1 ha.1
    · exact ih ha.2 hIn

/-- A text whose first element is nowhere else in it is found where it first stands whole. -/
theorem splitOnce_front {x : α} {tail a b : List α} (hx : x ∉ tail)
    (hNot : ¬ (x :: tail) <:+: a) :
    splitOnce (x :: tail) (a ++ (x :: tail) ++ b) = some (a, b) := by
  induction a with
  | nil =>
    have hPrefix : (x :: tail) <+: (x :: tail) ++ b := List.prefix_append _ _
    rw [List.nil_append]
    rw [List.cons_append] at hPrefix ⊢
    rw [splitOnce, if_pos hPrefix, ← List.cons_append, List.drop_left]
  | cons c a ih =>
    have hHead : ¬ (x :: tail) <+: c :: (a ++ (x :: tail) ++ b) := by
      have := not_prefix_of_front (b := tail ++ b) hx (List.cons_ne_nil c a) hNot
      simpa using this
    rw [List.cons_append, List.cons_append, splitOnce, if_neg hHead,
      ih fun hIn => hNot (hIn.trans (List.suffix_cons c a).isInfix)]
    rfl

/-- One element is found where it first stands. -/
theorem splitOnce_singleton {c : α} {h a b : List α} :
    splitOnce [c] h = some (a, b) ↔ h = a ++ c :: b ∧ c ∉ a := by
  have hFound : ∀ a b : List α, c ∉ a → splitOnce [c] (a ++ c :: b) = some (a, b) := by
    intro a b ha
    have hNil : c ∉ ([] : List α) := List.not_mem_nil
    have hFront := splitOnce_front (b := b) hNil fun hIn => ha (hIn.subset (List.mem_singleton_self c))
    rwa [List.append_assoc] at hFront
  constructor
  · intro hSplit
    have hMem : c ∈ h := by
      rw [eq_of_splitOnce hSplit]
      simp
    obtain ⟨a', b', hEq, ha'⟩ := List.eq_append_cons_of_mem hMem
    rw [hEq, hFound a' b' ha', Option.some.injEq, Prod.mk.injEq] at hSplit
    rw [← hSplit.1, ← hSplit.2]
    exact ⟨hEq, ha'⟩
  · rintro ⟨rfl, ha⟩
    exact hFound a b ha

omit [DecidableEq α] in
/-- A text up to a separator begins another one only when they are the same. -/
theorem segment_prefix {q : α} {init seg : List α} (rest : List α) (hInit : q ∉ init) (hSeg : q ∉ seg) :
    init ++ [q] <+: seg ++ q :: rest ↔ init = seg := by
  induction init generalizing seg with
  | nil =>
    cases seg with
    | nil => simp
    | cons c seg =>
      rw [List.mem_cons, not_or] at hSeg
      simp [hSeg.1]
  | cons d init ih =>
    rw [List.mem_cons, not_or] at hInit
    cases seg with
    | nil => simp [Ne.symm hInit.1]
    | cons c seg =>
      rw [List.mem_cons, not_or] at hSeg
      rw [List.cons_append, List.cons_append, List.cons_prefix_cons, ih hInit.2 hSeg.2,
        List.cons.injEq]

/-- A segment up to the last element of the searched text: the place is at its end, or behind. -/
theorem splitOnce_segment {q : α} {init seg : List α} (hInit : q ∉ init) (hSeg : q ∉ seg)
    (rest : List α) :
    splitOnce (init ++ [q]) (seg ++ q :: rest) =
      if init <:+ seg then some (seg.take (seg.length - init.length), rest)
      else (splitOnce (init ++ [q]) rest).map fun p => (seg ++ q :: p.1, p.2) := by
  induction seg with
  | nil =>
    have hHead := segment_prefix rest hInit hSeg
    rw [List.nil_append] at hHead
    rw [List.nil_append, splitOnce]
    by_cases hNil : init = []
    · rw [if_pos (hHead.mpr hNil), if_pos (List.suffix_nil.mpr hNil), hNil]
      rfl
    · rw [if_neg (hNil ∘ hHead.mp), if_neg (hNil ∘ List.suffix_nil.mp)]
      rfl
  | cons c seg ih =>
    have hHead := segment_prefix rest hInit hSeg
    rw [List.mem_cons, not_or] at hSeg
    rw [List.cons_append] at hHead ⊢
    rw [splitOnce]
    by_cases hWhole : init = c :: seg
    · rw [if_pos (hHead.mpr hWhole), if_pos (hWhole ▸ List.suffix_rfl), hWhole, Nat.sub_self,
        List.take_zero, List.length_append, List.length_singleton, ← List.cons_append,
        List.drop_append, List.drop_eq_nil_of_le (Nat.le_succ _), List.nil_append,
        Nat.add_sub_cancel_left, List.drop_one, List.tail_cons]
    · rw [if_neg (hWhole ∘ hHead.mp), ih hSeg.2]
      by_cases hSuffix : init <:+ seg
      · have hLength := hSuffix.length_le
        rw [if_pos hSuffix, if_pos (List.suffix_cons_iff.mpr (.inr hSuffix)), List.length_cons,
          Nat.succ_sub hLength]
        rfl
      · have hNot : ¬ init <:+ c :: seg := by
          rw [List.suffix_cons_iff, not_or]
          exact ⟨hWhole, hSuffix⟩
        rw [if_neg hSuffix, if_neg hNot, Option.map_map]
        rfl

/-- Nothing ends in a segment that nothing follows. -/
theorem splitOnce_open {q : α} {init seg : List α} (hSeg : q ∉ seg) :
    splitOnce (init ++ [q]) seg = none := by
  rw [splitOnce_none]
  intro hIn
  exact hSeg (hIn.subset (List.mem_append_right _ List.mem_cons_self))

/-! ## All places -/

/-- The pieces between the places, at most `fuel` of them found. -/
def splitFuel (needle : List α) : Nat → List α → List (List α)
  | 0, h => [h]
  | fuel + 1, h =>
    match splitOnce needle h with
    | none => [h]
    | some (a, b) => a :: splitFuel needle fuel b

/-- The pieces between all places. -/
def splitAll (needle h : List α) : List (List α) := splitFuel needle h.length h

section

variable {x : α} {tail a b h : List α}

theorem splitFuel_enough {needle : List α} (hNeedle : needle ≠ []) {m n : Nat}
    (hm : h.length ≤ m) (hn : h.length ≤ n) : splitFuel needle m h = splitFuel needle n h := by
  have hPos := List.length_pos_of_ne_nil hNeedle
  induction m generalizing n h with
  | zero =>
    obtain rfl := List.eq_nil_of_length_eq_zero (Nat.le_zero.mp hm)
    cases n with
    | zero => rfl
    | succ n => rw [splitFuel, splitFuel, splitOnce, if_neg hNeedle]
  | succ m ih =>
    cases n with
    | zero =>
      obtain rfl := List.eq_nil_of_length_eq_zero (Nat.le_zero.mp hn)
      rw [splitFuel, splitFuel, splitOnce, if_neg hNeedle]
    | succ n =>
      rw [splitFuel, splitFuel]
      cases hSplit : splitOnce needle h with
      | none => rfl
      | some p =>
        have hLength := congrArg List.length (eq_of_splitOnce hSplit)
        rw [List.length_append, List.length_append] at hLength
        exact congrArg (p.1 :: ·) (ih (by omega) (by omega))

theorem splitAll_none {needle : List α} (hSplit : splitOnce needle h = none) :
    splitAll needle h = [h] := by
  unfold splitAll
  cases h.length with
  | zero => rfl
  | succ n => rw [splitFuel, hSplit]

theorem splitAll_some {needle : List α} (hNeedle : needle ≠ [])
    (hSplit : splitOnce needle h = some (a, b)) :
    splitAll needle h = a :: splitAll needle b := by
  have hPos := List.length_pos_of_ne_nil hNeedle
  have hLength := congrArg List.length (eq_of_splitOnce hSplit)
  rw [List.length_append, List.length_append] at hLength
  have hMore : splitAll needle h = splitFuel needle (h.length + 1) h :=
    splitFuel_enough hNeedle le_rfl (Nat.le_succ _)
  rw [hMore, splitFuel, hSplit]
  exact congrArg (a :: ·) (splitFuel_enough hNeedle (by omega) le_rfl)

/-- One more element in front, at which the searched text does not begin. -/
theorem splitAll_cons {needle first : List α} {rest : List (List α)} {c : α}
    (hNot : ¬ needle <+: c :: h) (hPieces : splitAll needle h = first :: rest) :
    splitAll needle (c :: h) = (c :: first) :: rest := by
  have hNeedle : needle ≠ [] := fun hNil => hNot (hNil ▸ List.nil_prefix)
  have hCons : splitOnce needle (c :: h) = (splitOnce needle h).map fun p => (c :: p.1, p.2) := by
    rw [splitOnce, if_neg hNot]
  cases hSplit : splitOnce needle h with
  | none =>
    rw [hSplit] at hCons
    rw [splitAll_none hSplit, List.cons.injEq] at hPieces
    rw [splitAll_none hCons, hPieces.1, hPieces.2]
  | some p =>
    rw [hSplit] at hCons
    rw [splitAll_some hNeedle hSplit, List.cons.injEq] at hPieces
    rw [splitAll_some hNeedle hCons, hPieces.1, hPieces.2]

/-- A text in front in which nothing is found. -/
theorem splitOnce_skip (hx : x ∉ tail) (hNot : ¬ (x :: tail) <:+: a) :
    splitOnce (x :: tail) (a ++ x :: b) =
      (splitOnce (x :: tail) (x :: b)).map fun p => (a ++ p.1, p.2) := by
  induction a with
  | nil => simp
  | cons c a ih =>
    have hHead := not_prefix_of_front (b := b) hx (List.cons_ne_nil c a) hNot
    rw [List.cons_append] at hHead
    rw [List.cons_append, splitOnce, if_neg hHead,
      ih fun hIn => hNot (hIn.trans (List.suffix_cons c a).isInfix), Option.map_map]
    rfl

omit [DecidableEq α] in
/-- Nothing stands across the beginning of a text with the first element. -/
theorem not_infix_append (hx : x ∉ tail) (hA : ¬ (x :: tail) <:+: a)
    (hB : ¬ (x :: tail) <:+: x :: b) : ¬ (x :: tail) <:+: a ++ x :: b := by
  induction a with
  | nil => exact hB
  | cons c a ih =>
    have hHead := not_prefix_of_front (b := b) hx (List.cons_ne_nil c a) hA
    rw [List.cons_append] at hHead
    rw [List.cons_append, List.infix_cons_iff, not_or]
    exact ⟨hHead, ih fun hIn => hA (hIn.trans (List.suffix_cons c a).isInfix)⟩

/-- The pieces behind a text in which nothing is found; the first one begins with that text. -/
theorem splitAll_skip (hx : x ∉ tail) (hNot : ¬ (x :: tail) <:+: a) :
    ∃ first rest, splitAll (x :: tail) (x :: b) = first :: rest ∧
      splitAll (x :: tail) (a ++ x :: b) = (a ++ first) :: rest := by
  have hSkip := splitOnce_skip (b := b) hx hNot
  cases hSplit : splitOnce (x :: tail) (x :: b) with
  | none =>
    rw [hSplit] at hSkip
    exact ⟨x :: b, [], splitAll_none hSplit, splitAll_none hSkip⟩
  | some p =>
    rw [hSplit] at hSkip
    exact ⟨p.1, splitAll (x :: tail) p.2, splitAll_some (List.cons_ne_nil _ _) hSplit,
      splitAll_some (List.cons_ne_nil _ _) hSkip⟩

/-- What is found in a text is found in every longer one. -/
theorem splitOnce_append {needle : List α} (hSplit : splitOnce needle h = some (a, b))
    (t : List α) : splitOnce needle (h ++ t) = some (a, b ++ t) := by
  induction h generalizing a with
  | nil =>
    rw [splitOnce] at hSplit
    split at hSplit
    · rename_i hNil
      cases hSplit
      cases t <;> simp [splitOnce, hNil]
    · cases hSplit
  | cons c cs ih =>
    rw [splitOnce] at hSplit
    rw [List.cons_append, splitOnce]
    split at hSplit
    · rename_i hPrefix
      cases hSplit
      have hLonger : needle <+: c :: (cs ++ t) := hPrefix.trans ⟨t, rfl⟩
      rw [if_pos hLonger, ← List.cons_append, List.drop_append_of_le_length hPrefix.length_le]
    · rename_i hNot
      obtain ⟨p, hp, hEq⟩ := Option.map_eq_some_iff.mp hSplit
      cases hEq
      have hLength := congrArg List.length (eq_of_splitOnce hp)
      rw [List.length_append, List.length_append] at hLength
      have hHead : ¬ needle <+: c :: (cs ++ t) := fun hPrefix =>
        hNot (List.prefix_of_prefix_length_le hPrefix (List.prefix_append (c :: cs) t)
          (by rw [List.length_cons]; omega))
      rw [if_neg hHead, ih hp]
      rfl

/-- The pieces of two texts with the searched one between them. -/
theorem splitAll_append (hx : x ∉ tail) (a b : List α) :
    splitAll (x :: tail) (a ++ (x :: tail) ++ b) =
      splitAll (x :: tail) a ++ splitAll (x :: tail) b := by
  induction hLength : a.length using Nat.strong_induction_on generalizing a with
  | _ n ih =>
    have hNeedle := List.cons_ne_nil x tail
    cases hSplit : splitOnce (x :: tail) a with
    | none =>
      rw [splitAll_none hSplit,
        splitAll_some hNeedle (splitOnce_front hx (splitOnce_none.mp hSplit))]
      rfl
    | some p =>
      have hFound := splitOnce_append hSplit ((x :: tail) ++ b)
      rw [← List.append_assoc, ← List.append_assoc] at hFound
      have hShorter : p.2.length < n := by
        have := congrArg List.length (eq_of_splitOnce hSplit)
        rw [List.length_append, List.length_append, List.length_cons] at this
        omega
      rw [splitAll_some hNeedle hFound, splitAll_some hNeedle hSplit, ih _ hShorter _ rfl]
      rfl

theorem splitAll_ne_nil {needle : List α} (hNeedle : needle ≠ []) : splitAll needle h ≠ [] := by
  cases hSplit : splitOnce needle h with
  | none => simp [splitAll_none hSplit]
  | some p => simp [splitAll_some hNeedle hSplit]

/-- A piece stands in the text. -/
theorem infix_of_mem_splitAll {needle piece : List α} (hNeedle : needle ≠ [])
    (hPiece : piece ∈ splitAll needle h) : piece <:+: h := by
  induction hLength : h.length using Nat.strong_induction_on generalizing h with
  | _ n ih =>
    cases hSplit : splitOnce needle h with
    | none =>
      rw [splitAll_none hSplit, List.mem_singleton] at hPiece
      rw [hPiece]
    | some p =>
      have hEq := eq_of_splitOnce hSplit
      have hPos := List.length_pos_of_ne_nil hNeedle
      have hSum := congrArg List.length hEq
      rw [List.length_append, List.length_append] at hSum
      rw [splitAll_some hNeedle hSplit, List.mem_cons] at hPiece
      rcases hPiece with rfl | hRest
      · exact ⟨[], needle ++ p.2, by rw [hEq]; simp⟩
      · exact (ih _ (by omega) hRest rfl).trans ⟨p.1 ++ needle, [], by rw [hEq]; simp⟩

/-- The pieces of a text with something in front in which the searched text does not begin. -/
theorem splitAll_behind (tail h : List α) (ha : x ∉ a) :
    ∃ first rest, splitAll (x :: tail) h = first :: rest ∧
      splitAll (x :: tail) (a ++ h) = (a ++ first) :: rest := by
  obtain ⟨first, rest, hPieces⟩ := List.exists_cons_of_ne_nil
    (splitAll_ne_nil (h := h) (List.cons_ne_nil x tail))
  refine ⟨first, rest, hPieces, ?_⟩
  induction a with
  | nil => exact hPieces
  | cons c a ih =>
    rw [List.mem_cons, not_or] at ha
    exact splitAll_cons (fun hPrefix => ha.1 (List.cons_prefix_cons.mp hPrefix).1) (ih ha.2)

end

/-! ## What stands between two texts -/

/-- From an opened place on: what is closed before the next opening. -/
def closedFrom (o c h : List α) : List (List α) :=
  (splitAll o h).filterMap fun piece => (splitOnce c piece).map Prod.fst

/-- What stands between an opening and a closing text, up to the first closing one of each piece. -/
def between (o c h : List α) : List (List α) :=
  (splitAll o h).tail.filterMap fun piece => (splitOnce c piece).map Prod.fst

section

variable {x : α} {o c a b : List α}

/-- Nothing is closed in a text in which the closing text does not stand. -/
theorem pieces_unclosed (hFree : ¬ c <:+: a) {pieces : List (List α)}
    (hPieces : ∀ piece ∈ pieces, piece <:+: a) :
    pieces.filterMap (fun piece => (splitOnce c piece).map Prod.fst) = [] := by
  rw [List.filterMap_eq_nil_iff]
  intro piece hPiece
  rw [splitOnce_none.mpr fun hIn => hFree (hIn.trans (hPieces piece hPiece))]
  rfl

/-- What is in front of an opening is not counted. -/
theorem between_open (hx : x ∉ o) (hFree : ¬ c <:+: a) :
    between (x :: o) c (a ++ (x :: o) ++ b) = closedFrom (x :: o) c b := by
  have hNeedle := List.cons_ne_nil x o
  rw [between, splitAll_append hx, List.tail_append_of_ne_nil (splitAll_ne_nil hNeedle),
    List.filterMap_append, pieces_unclosed hFree fun piece hPiece =>
      infix_of_mem_splitAll hNeedle (List.mem_of_mem_tail hPiece)]
  rfl

theorem between_none (hFree : ¬ c <:+: a) : between (x :: o) c a = [] :=
  pieces_unclosed hFree fun _ hPiece =>
    infix_of_mem_splitAll (List.cons_ne_nil x o) (List.mem_of_mem_tail hPiece)

theorem closedFrom_open (hx : x ∉ o) :
    closedFrom (x :: o) c (a ++ (x :: o) ++ b) =
      closedFrom (x :: o) c a ++ closedFrom (x :: o) c b := by
  rw [closedFrom, splitAll_append hx, List.filterMap_append]
  rfl

/-- A block that is closed, with something behind it in which nothing is. -/
theorem closedFrom_closed (hx : x ∉ o) (hc : x ∉ c) (hDiffer : ∀ t, ¬ (x :: o) <+: x :: (c ++ t))
    (hOpen : ¬ (x :: o) <:+: a) (hClose : ¬ (x :: c) <:+: a) (hFree : ¬ (x :: c) <:+: b) :
    closedFrom (x :: o) (x :: c) (a ++ (x :: c) ++ b) = [a] := by
  obtain ⟨first, rest, hPieces, hBehind⟩ := splitAll_behind o b hc
  have hAt := splitAll_cons (hDiffer b) hBehind
  obtain ⟨first', rest', hPieces', hWhole⟩ := splitAll_skip (b := c ++ b) hx hOpen
  rw [hAt, List.cons.injEq] at hPieces'
  have hRest := pieces_unclosed hFree fun piece (hPiece : piece ∈ rest) =>
    infix_of_mem_splitAll (List.cons_ne_nil x o) (hPieces ▸ List.mem_cons_of_mem _ hPiece)
  have hFirst := splitOnce_front (b := first) hc hClose
  rw [List.append_assoc, List.cons_append] at hFirst ⊢
  rw [closedFrom, hWhole, ← hPieces'.1, ← hPieces'.2, List.filterMap_cons, hFirst, hRest]
  rfl

end

end Search
