import Weflow.Lib.Effects

/-!
# Two machines side by side

A program on the left machine, with operations on the right one in between. `left` and `right`
lift a program of one machine, `both` is the machine with both states, and the operations of one
side are what `lefts` and `rights` leave of a list. `Shadows` says that a program on both does on
the left what a program of the left machine does: what holds of the runs and stops of the one then
holds of the left side of the other.

In the machine `whole`, no operation is stopped in the middle.
-/

namespace Effects

variable {S S' O O' A B C : Type}

/-- Both states; an operation works on the state of its side. -/
def both (E : Machine S O) (F : Machine S' O') : Machine (S × S') (O ⊕ O') where
  apply s o := match o with
    | .inl o => (E.apply s.1 o, s.2)
    | .inr o => (s.1, F.apply s.2 o)
  during s o t := match o with
    | .inl o => E.during s.1 o t.1 ∧ t.2 = s.2
    | .inr o => F.during s.2 o t.2 ∧ t.1 = s.1

/-- The machine whose operations are never stopped in the middle. -/
def whole (F : Machine S O) : Machine S O where
  apply := F.apply
  during _ _ _ := False

def lefts (os : List (O ⊕ O')) : List O := os.filterMap Sum.getLeft?

variable {E : Machine S O} {F : Machine S' O'}

@[simp] theorem lefts_append (os rest : List (O ⊕ O')) :
    lefts (os ++ rest) = lefts os ++ lefts rest := List.filterMap_append

@[simp] theorem lefts_map_inl (os : List O) : lefts (os.map (Sum.inl : O → O ⊕ O')) = os := by
  rw [lefts, List.filterMap_map]
  exact List.filterMap_some

@[simp] theorem lefts_map_inr (os : List O') : lefts (os.map (Sum.inr : O' → O ⊕ O')) = [] := by
  rw [lefts, List.filterMap_map, List.filterMap_eq_nil_iff]
  exact fun _ _ => rfl

theorem replay_both_fst (s : S × S') (os : List (O ⊕ O')) :
    (replay (both E F) s os).1 = replay E s.1 (lefts os) := by
  induction os generalizing s with
  | nil => rfl
  | cons o os ih =>
    rw [replay_cons, ih]
    cases o <;> rfl

theorem replay_map_inl (s : S × S') (os : List O) :
    replay (both E F) s (os.map Sum.inl) = (replay E s.1 os, s.2) := by
  induction os generalizing s with
  | nil => rfl
  | cons o os ih =>
    rw [List.map_cons, replay_cons, ih]
    rfl

theorem replay_map_inr (s : S × S') (os : List O') :
    replay (both E F) s (os.map Sum.inr) = (s.1, replay F s.2 os) := by
  induction os generalizing s with
  | nil => rfl
  | cons o os ih =>
    rw [List.map_cons, replay_cons, ih]
    rfl

/-- A stop of both is a stop on the left. -/
theorem stops_fst {s t : S × S'} {os : List (O ⊕ O')} (h : Stops (both E F) s os t) :
    Stops E s.1 (lefts os) t.1 := by
  induction os generalizing s with
  | nil =>
    rw [show t = s from h]
    rfl
  | cons o os ih =>
    cases o with
    | inl o =>
      rcases h with rfl | h | h
      · exact .inl rfl
      · exact .inr (.inl h.1)
      · exact .inr (.inr (ih h))
    | inr o =>
      rcases h with rfl | h | h
      · exact stops_start _ _
      · rw [h.2]
        exact stops_start _ _
      · have hRest := ih h
        exact hRest

/-- What is done on the left leaves the right state alone. -/
theorem stops_map_inl {s t : S × S'} {os : List O}
    (h : Stops (both E F) s (os.map Sum.inl) t) : t.2 = s.2 := by
  induction os generalizing s with
  | nil => rw [show t = s from h]
  | cons o os ih =>
    rcases h with rfl | h | h
    · rfl
    · exact h.2
    · have hRest := ih h
      exact hRest

/-! ## Programs -/

namespace Act

/-- A program of the left machine. -/
def left (F : Machine S' O') (m : Act E A) : Act (both E F) A :=
  fun s => ((m.ops s.1).map Sum.inl, m.result s.1)

/-- A program of the right machine. -/
def right (E : Machine S O) (m : Act F A) : Act (both E F) A :=
  fun s => ((m.ops s.2).map Sum.inr, m.result s.2)

variable {m : Act E A} {n : Act F A} {s : S × S'}

@[simp] theorem ops_left : (left F m).ops s = (m.ops s.1).map Sum.inl := rfl

@[simp] theorem result_left : (left F m).result s = m.result s.1 := rfl

@[simp] theorem after_left : (left F m).after s = (m.after s.1, s.2) := replay_map_inl _ _

@[simp] theorem ops_right : (right E n).ops s = (n.ops s.2).map Sum.inr := rfl

@[simp] theorem result_right : (right E n).result s = n.result s.2 := rfl

@[simp] theorem after_right : (right E n).after s = (s.1, n.after s.2) := replay_map_inr _ _

/-! ## Programs that do the same on the left -/

/-- From a state, a program on both returns what a program of the left machine returns, and does
the same on the left. -/
structure Shadows (p : Act (both E F) A) (m : Act E A) (s : S × S') : Prop where
  result : p.result s = m.result s.1
  ops : lefts (p.ops s) = m.ops s.1

variable {p : Act (both E F) A} {f : A → Act (both E F) B} {g : A → Act E B}

theorem Shadows.after (h : Shadows p m s) : (p.after s).1 = m.after s.1 := by
  rw [Act.after, replay_both_fst, h.ops]
  rfl

theorem shadows_pure (a : A) (s : S × S') : Shadows (pure a : Act (both E F) A) (pure a) s :=
  ⟨rfl, rfl⟩

theorem shadows_left (m : Act E A) (s : S × S') : Shadows (left F m) m s :=
  ⟨rfl, lefts_map_inl _⟩

theorem Shadows.bind (h : Shadows p m s)
    (hf : Shadows (f (p.result s)) (g (p.result s)) (p.after s)) : Shadows (p >>= f) (m >>= g) s := by
  constructor
  · rw [result_bind, result_bind, hf.result, h.result, h.after]
  · rw [ops_bind, ops_bind, lefts_append, h.ops, hf.ops, h.result, h.after]

/-- What a program of the right machine does is nothing on the left. -/
theorem Shadows.behind_right {n : Act F A} {m : Act E B}
    (h : Shadows (f (n.result s.2)) m (s.1, n.after s.2)) : Shadows (right E n >>= f) m s := by
  constructor
  · rw [result_bind, after_right]
    exact h.result
  · rw [ops_bind, lefts_append, ops_right, lefts_map_inr, List.nil_append, after_right]
    exact h.ops

/-! ## Rules -/

variable {G : O' → Prop} {P : S' → Prop} {Q : A → S' → Prop}

/-- Nothing is asked of the operations on the left. -/
def OnRight (G : O' → Prop) : O ⊕ O' → Prop
  | .inl _ => True
  | .inr o => G o

theorem holds_right (h : Holds G P n Q) :
    Holds (OnRight G) (fun s : S × S' => P s.2) (right E n) fun a s => Q a s.2 := by
  intro s hs
  obtain ⟨hOps, hQ⟩ := h s.2 hs
  refine ⟨fun o ho => ?_, ?_⟩
  · obtain ⟨o', ho', rfl⟩ := List.mem_map.mp ho
    exact hOps o' ho'
  · rw [result_right, after_right]
    exact hQ

theorem holds_left (m : Act E A) :
    Holds (OnRight G) (fun s : S × S' => P s.2) (left F m) fun _ s => P s.2 := by
  intro s hs
  refine ⟨fun o ho => ?_, ?_⟩
  · obtain ⟨o', -, rfl⟩ := List.mem_map.mp ho
    trivial
  · rw [after_left]
    exact hs

end Act

end Effects
