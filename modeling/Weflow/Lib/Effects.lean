import Mathlib.Data.List.Basic

/-!
# Programs that issue operations

A program reads a state, issues operations on it and returns. What it did to the state is the
replay of its operations, so that every moment of a run is a prefix of one list: `Stops` are the
states a run can be stopped in, between two operations or in the middle of one.

`Stops.invariant` is the rule for a property of all these states: each operation is issued in a
state that allows it (`Allowed`), and an allowed operation keeps the property, also when it is
cut short.
-/

namespace Effects

/-- What an operation does to the state, and the states it can be stopped in. -/
structure Machine (S O : Type) where
  apply : S → O → S
  during : S → O → S → Prop

variable {S O : Type} {E : Machine S O} {A B : Type}

/-- The state after a list of operations. -/
def replay (E : Machine S O) (s : S) (os : List O) : S := os.foldl E.apply s

@[simp] theorem replay_nil (s : S) : replay E s [] = s := rfl

@[simp] theorem replay_cons (s : S) (o : O) (os : List O) :
    replay E s (o :: os) = replay E (E.apply s o) os := rfl

@[simp] theorem replay_append (s : S) (os rest : List O) :
    replay E s (os ++ rest) = replay E (replay E s os) rest :=
  List.foldl_append

/-! ## Programs -/

/-- The operations issued and the result, by the state before. -/
def Act (_ : Machine S O) (A : Type) : Type := S → List O × A

namespace Act

def ops (m : Act E A) (s : S) : List O := (m s).1

def result (m : Act E A) (s : S) : A := (m s).2

def after (m : Act E A) (s : S) : S := replay E s (m.ops s)

instance : Monad (Act E) where
  pure a := fun _ => ([], a)
  bind m f := fun s =>
    let p := m s
    let q := f p.2 (replay E s p.1)
    (p.1 ++ q.1, q.2)

/-- Something read off the state. -/
def look (f : S → A) : Act E A := fun s => ([], f s)

variable {m : Act E A} {f : A → Act E B} {a : A} {s : S}

@[simp] theorem ops_pure : (pure a : Act E A).ops s = [] := rfl

@[simp] theorem result_pure : (pure a : Act E A).result s = a := rfl

@[simp] theorem after_pure : (pure a : Act E A).after s = s := rfl

@[simp] theorem ops_look {g : S → A} : (look g : Act E A).ops s = [] := rfl

@[simp] theorem result_look {g : S → A} : (look g : Act E A).result s = g s := rfl

@[simp] theorem after_look {g : S → A} : (look g : Act E A).after s = s := rfl

@[simp] theorem ops_bind :
    (m >>= f).ops s = m.ops s ++ (f (m.result s)).ops (m.after s) := rfl

@[simp] theorem result_bind :
    (m >>= f).result s = (f (m.result s)).result (m.after s) := rfl

theorem ops_look_bind {g : S → B} {f : B → Act E A} :
    (look g >>= f).ops s = (f (g s)).ops s := rfl

theorem result_look_bind {g : S → B} {f : B → Act E A} :
    (look g >>= f).result s = (f (g s)).result s := rfl

@[simp] theorem after_bind :
    (m >>= f).after s = (f (m.result s)).after (m.after s) := by
  rw [after, ops_bind, replay_append]
  rfl

end Act

/-! ## Rules -/

namespace Act

/-- From a state with `P`, every operation satisfies `G`, and the result and the state after
satisfy `Q`. -/
def Holds (G : O → Prop) (P : S → Prop) (m : Act E A) (Q : A → S → Prop) : Prop :=
  ∀ s, P s → (∀ o ∈ m.ops s, G o) ∧ Q (m.result s) (m.after s)

variable {G : O → Prop} {P P' : S → Prop} {Q Q' : A → S → Prop} {R : B → S → Prop}
  {m : Act E A} {f : A → Act E B}

theorem holds_pure {a : A} (h : ∀ s, P s → Q a s) : Holds G P (pure a : Act E A) Q :=
  fun s hs => ⟨by simp, h s hs⟩

theorem Holds.bind (hm : Holds G P m Q) (hf : ∀ a, Holds G (Q a) (f a) R) :
    Holds G P (m >>= f) R := by
  intro s hs
  obtain ⟨hOps, hQ⟩ := hm s hs
  obtain ⟨hOps', hR⟩ := hf _ _ hQ
  refine ⟨?_, ?_⟩
  · intro o ho
    rw [ops_bind, List.mem_append] at ho
    exact ho.elim (hOps o) (hOps' o)
  · rw [result_bind, after_bind]
    exact hR

theorem Holds.mono (h : Holds G P m Q) (hP : ∀ s, P' s → P s) (hQ : ∀ a s, Q a s → Q' a s) :
    Holds G P' m Q' :=
  fun s hs => ⟨(h s (hP s hs)).1, hQ _ _ (h s (hP s hs)).2⟩

end Act

/-! ## Allowed operations -/

/-- Every operation is issued in a state that allows it. -/
def Allowed (E : Machine S O) (G : S → O → Prop) : S → List O → Prop
  | _, [] => True
  | s, o :: os => G s o ∧ Allowed E G (E.apply s o) os

@[simp] theorem allowed_nil {G : S → O → Prop} {s : S} : Allowed E G s [] := trivial

theorem allowed_append {G : S → O → Prop} {s : S} {os rest : List O} :
    Allowed E G s (os ++ rest) ↔ Allowed E G s os ∧ Allowed E G (replay E s os) rest := by
  induction os generalizing s with
  | nil => simp
  | cons o os ih => simp [Allowed, ih, and_assoc]

theorem Allowed.mono {G G' : S → O → Prop} {s : S} {os : List O} (h : Allowed E G s os)
    (hG : ∀ s o, G s o → G' s o) : Allowed E G' s os := by
  induction os generalizing s with
  | nil => trivial
  | cons o os ih => exact ⟨hG _ _ h.1, ih h.2⟩

/-- Every operation of the list was allowed in some state. -/
theorem Allowed.mem {G : S → O → Prop} {s : S} {os : List O} {o : O} (h : Allowed E G s os)
    (ho : o ∈ os) : ∃ s', G s' o := by
  induction os generalizing s with
  | nil => cases ho
  | cons a os ih =>
    rcases List.mem_cons.mp ho with rfl | ho
    · exact ⟨s, h.1⟩
    · exact ih h.2 ho

/-- What is allowed in every state is allowed along a list. -/
theorem allowed_of_forall {G : S → O → Prop} {s : S} {os : List O} (h : ∀ o ∈ os, ∀ s, G s o) :
    Allowed E G s os := by
  induction os generalizing s with
  | nil => trivial
  | cons o os ih =>
    exact ⟨h o List.mem_cons_self s, ih fun o ho => h o (List.mem_cons_of_mem _ ho)⟩

/-! ## Stops -/

/-- The states in which a run of these operations can be stopped. -/
def Stops (E : Machine S O) : S → List O → S → Prop
  | s, [], t => t = s
  | s, o :: os, t => t = s ∨ E.during s o t ∨ Stops E (E.apply s o) os t

theorem stops_start (s : S) (os : List O) : Stops E s os s := by
  cases os with
  | nil => rfl
  | cons o os => exact .inl rfl

theorem stops_end (s : S) (os : List O) : Stops E s os (replay E s os) := by
  induction os generalizing s with
  | nil => rfl
  | cons o os ih => exact .inr (.inr (ih _))

theorem stops_take (s : S) (os : List O) (k : Nat) : Stops E s os (replay E s (os.take k)) := by
  induction os generalizing s k with
  | nil =>
    rw [List.take_nil]
    rfl
  | cons o os ih =>
    cases k with
    | zero => exact .inl rfl
    | succ k => exact .inr (.inr (ih _ k))

/-- A stop of two parts is a stop of one of them. -/
theorem stops_append {s t : S} {os rest : List O} (h : Stops E s (os ++ rest) t) :
    Stops E s os t ∨ Stops E (replay E s os) rest t := by
  induction os generalizing s with
  | nil => exact .inr h
  | cons o os ih =>
    rcases h with h | h | h
    · exact .inl (.inl h)
    · exact .inl (.inr (.inl h))
    · exact (ih h).imp (fun h => .inr (.inr h)) id

/-- A run can be stopped in the middle of any of its operations. -/
theorem stops_at {s t : S} {os : List O} {o : O} {n : Nat} (hAt : os[n]? = some o)
    (hDuring : E.during (replay E s (os.take n)) o t) : Stops E s os t := by
  induction os generalizing s n with
  | nil => cases hAt
  | cons a os ih =>
    cases n with
    | zero =>
      cases hAt
      exact .inr (.inl hDuring)
    | succ n => exact .inr (.inr (ih hAt hDuring))

theorem Stops.invariant {P : S → Prop} {G : S → O → Prop} {s t : S} {os : List O}
    (h : Stops E s os t) (hAllowed : Allowed E G s os) (h0 : P s)
    (hApply : ∀ s o, P s → G s o → P (E.apply s o))
    (hDuring : ∀ s o t, P s → G s o → E.during s o t → P t) : P t := by
  induction os generalizing s with
  | nil => exact h ▸ h0
  | cons o os ih =>
    rcases h with rfl | h | h
    · exact h0
    · exact hDuring s o t h0 hAllowed.1 h
    · exact ih h hAllowed.2 (hApply s o h0 hAllowed.1)

end Effects
