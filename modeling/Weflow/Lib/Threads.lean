import Weflow.Lib.Runs

/-!
# Threads over a shared state

A program is a tree of instructions, a thread is what is left of its program, and one step of
the pool executes the first instruction of one thread. What an instruction does to the shared
state is a function `exec`; everything the environment decides about a step is part of its
event.

* `Obeys` checks a program against a typestate, a protocol for the order of its instructions
  that reads the answers but not the shared state. It is checked along the text of the program
  (`obeys_bind`), once for each program.
* `pool_invariant` is the rule for a pool: an invariant of the shared state and an assertion
  about every thread, kept by the step of the thread itself and by the steps of the others.
  `Discipline.run` is its form for typestates.
-/

namespace Threads

/-- A program: a result, or an instruction and what follows each answer. -/
inductive Prog (I : Type) (Ans : I → Type) (R : Type)
  | ret (r : R)
  | step (i : I) (k : Ans i → Prog I Ans R)

variable {I : Type} {Ans : I → Type} {R T : Type}

namespace Prog

def bind : Prog I Ans R → (R → Prog I Ans T) → Prog I Ans T
  | ret r, f => f r
  | step i k, f => step i fun a => (k a).bind f

instance : Monad (Prog I Ans) where
  pure := ret
  bind := bind

/-- The program of one instruction. -/
def call (i : I) : Prog I Ans (Ans i) := step i ret

@[simp] theorem pure_eq (r : R) : (pure r : Prog I Ans R) = ret r := rfl

@[simp] theorem ret_bind (r : R) (f : R → Prog I Ans T) : ret r >>= f = f r := rfl

@[simp] theorem step_bind (i : I) (k : Ans i → Prog I Ans R) (f : R → Prog I Ans T) :
    step i k >>= f = step i fun a => k a >>= f := rfl

@[simp] theorem call_bind (i : I) (f : Ans i → Prog I Ans T) :
    call i >>= f = step i f := rfl

theorem step_inj {i i' : I} {k : Ans i → Prog I Ans R} {k' : Ans i' → Prog I Ans R}
    (h : step i k = step i' k') : i = i' ∧ HEq k k' := by
  cases h
  exact ⟨rfl, HEq.rfl⟩

end Prog

/-- Every result the program can have satisfies `P`. -/
def Prog.Results (P : R → Prop) : Prog I Ans R → Prop
  | ret r => P r
  | step _ k => ∀ a, (k a).Results P

namespace Prog

@[simp] theorem results_ret {P : R → Prop} {r : R} :
    (ret r : Prog I Ans R).Results P ↔ P r := Iff.rfl

@[simp] theorem results_step {P : R → Prop} {i : I} {k : Ans i → Prog I Ans R} :
    (step i k).Results P ↔ ∀ a, (k a).Results P := Iff.rfl

/-- The results of a program that ends in `f` are those of `f`. -/
theorem results_bind {P : T → Prop} {p : Prog I Ans R} {f : R → Prog I Ans T}
    (hf : ∀ r, (f r).Results P) : (p >>= f).Results P := by
  induction p with
  | ret r => exact hf r
  | step i k ih => exact fun a => ih a

end Prog

/-- Every instruction the program can come to satisfies `P`. -/
def Prog.Only (P : I → Prop) : Prog I Ans R → Prop
  | ret _ => True
  | step i k => P i ∧ ∀ a, (k a).Only P

namespace Prog

@[simp] theorem only_ret {P : I → Prop} {r : R} : (ret r : Prog I Ans R).Only P := trivial

@[simp] theorem only_step {P : I → Prop} {i : I} {k : Ans i → Prog I Ans R} :
    (step i k).Only P ↔ P i ∧ ∀ a, (k a).Only P := Iff.rfl

theorem only_bind {P : I → Prop} {p : Prog I Ans R} {f : R → Prog I Ans T} (hp : p.Only P)
    (hf : ∀ r, (f r).Only P) : (p >>= f).Only P := by
  induction p with
  | ret r => exact hf r
  | step i k ih => exact ⟨hp.1, fun a => ih a (hp.2 a)⟩

end Prog

/-! ## Typestates -/

/-- A protocol for the instructions of a thread: what is allowed in a state, and the state after
an answer. `none` marks an answer that cannot be given there. -/
structure Typestate (I : Type) (Ans : I → Type) where
  State : Type
  allow : State → I → Prop
  next : State → (i : I) → Ans i → Option State

/-- From `q` on, the program issues allowed instructions only, and returns in a state that meets
`post`. -/
def Obeys (P : Typestate I Ans) (q : P.State) : Prog I Ans R → (P.State → R → Prop) → Prop
  | .ret r, post => post q r
  | .step i k, post => P.allow q i ∧ ∀ a q', P.next q i a = some q' → Obeys P q' (k a) post

section

variable {P : Typestate I Ans} {q : P.State}

@[simp] theorem obeys_ret {r : R} {post : P.State → R → Prop} :
    Obeys P q (.ret r) post ↔ post q r := Iff.rfl

theorem obeys_step {i : I} {k : Ans i → Prog I Ans R} {post : P.State → R → Prop} :
    Obeys P q (.step i k) post ↔
      P.allow q i ∧ ∀ a q', P.next q i a = some q' → Obeys P q' (k a) post := Iff.rfl

@[simp] theorem obeys_call {i : I} {post : P.State → Ans i → Prop} :
    Obeys P q (.call i) post ↔ P.allow q i ∧ ∀ a q', P.next q i a = some q' → post q' a := Iff.rfl

theorem obeys_bind {p : Prog I Ans R} {f : R → Prog I Ans T} {post : P.State → T → Prop} :
    Obeys P q (p >>= f) post ↔ Obeys P q p fun q r => Obeys P q (f r) post := by
  induction p generalizing q with
  | ret r => exact Iff.rfl
  | step i k ih =>
    rw [Prog.step_bind, obeys_step, obeys_step]
    constructor
    · intro h
      exact ⟨h.1, fun a q' hNext => (ih a).mp (h.2 a q' hNext)⟩
    · intro h
      exact ⟨h.1, fun a q' hNext => (ih a).mpr (h.2 a q' hNext)⟩

theorem Obeys.mono {p : Prog I Ans R} {post post' : P.State → R → Prop} (h : Obeys P q p post)
    (hPost : ∀ q r, post q r → post' q r) : Obeys P q p post' := by
  induction p generalizing q with
  | ret r => exact hPost q r h
  | step i k ih =>
    obtain ⟨hAllow, hNext⟩ := h
    exact ⟨hAllow, fun a q' ha => ih a (hNext a q' ha)⟩

/-- A program of instructions that leave the state as it is. -/
theorem Obeys.of_only {Q : I → Prop} {p : Prog I Ans R} (h : p.Only Q)
    (hStay : ∀ i, Q i → P.allow q i ∧ ∀ a q', P.next q i a = some q' → q' = q) :
    Obeys P q p fun q' _ => q' = q := by
  induction p with
  | ret r => rfl
  | step i k ih =>
    obtain ⟨hAllow, hNext⟩ := hStay i h.1
    refine ⟨hAllow, fun a q' ha => ?_⟩
    obtain rfl := hNext a q' ha
    exact ih a (h.2 a)

end

/-- Two typestates at once. -/
def Typestate.prod (P Q : Typestate I Ans) : Typestate I Ans where
  State := P.State × Q.State
  allow q i := P.allow q.1 i ∧ Q.allow q.2 i
  next q i a := (P.next q.1 i a).bind fun q₁ => (Q.next q.2 i a).map fun q₂ => (q₁, q₂)

theorem Typestate.prod_next {P Q : Typestate I Ans} {q q' : P.State × Q.State} {i : I} {a : Ans i} :
    (P.prod Q).next q i a = some q' ↔
      P.next q.1 i a = some q'.1 ∧ Q.next q.2 i a = some q'.2 := by
  simp only [Typestate.prod, Option.bind_eq_some_iff, Option.map_eq_some_iff]
  constructor
  · rintro ⟨q₁, h₁, q₂, h₂, rfl⟩
    exact ⟨h₁, h₂⟩
  · rintro ⟨h₁, h₂⟩
    exact ⟨q'.1, h₁, q'.2, h₂, rfl⟩

/-- A program that obeys two typestates obeys them at once. -/
theorem Obeys.prod {P Q : Typestate I Ans} {q₁ : P.State} {q₂ : Q.State} {p : Prog I Ans R}
    {post₁ : P.State → R → Prop} {post₂ : Q.State → R → Prop} (h₁ : Obeys P q₁ p post₁)
    (h₂ : Obeys Q q₂ p post₂) :
    Obeys (P.prod Q) (q₁, q₂) p fun q r => post₁ q.1 r ∧ post₂ q.2 r := by
  induction p generalizing q₁ q₂ with
  | ret r => exact ⟨h₁, h₂⟩
  | step i k ih =>
    refine ⟨⟨h₁.1, h₂.1⟩, fun a q' hNext => ?_⟩
    obtain ⟨hNext₁, hNext₂⟩ := Typestate.prod_next.mp hNext
    exact ih a (h₁.2 a _ hNext₁) (h₂.2 a _ hNext₂)

/-! ## Pools -/

structure Pool (S I : Type) (Ans : I → Type) (R : Type) where
  shared : S
  threads : List (Prog I Ans R)

/-- A program is started, or a thread executes its next instruction. -/
inductive Event (C Io : Type)
  | start (c : C)
  | tick (i : Nat) (io : Io)

variable {S C Io : Type}

section

variable (exec : Nat → Io → (i : I) → S → Option (S × Ans i)) (main : C → Prog I Ans R)

namespace Pool

/-- The step of thread `i`, if it has not returned and its instruction is enabled. -/
def tick (s : Pool S I Ans R) (i : Nat) (io : Io) : Option (Pool S I Ans R) :=
  match s.threads[i]? with
  | some (.step ins k) =>
    (exec i io ins s.shared).map fun r => ⟨r.1, s.threads.set i (k r.2)⟩
  | _ => none

def step (s : Pool S I Ans R) : Event C Io → Option (Pool S I Ans R)
  | .start c => some { s with threads := s.threads ++ [main c] }
  | .tick i io => s.tick exec i io

end Pool

variable {exec main} {s t : Pool S I Ans R} {i : Nat} {io : Io}

/-- What a step of a thread does. -/
theorem tick_cases (h : s.tick exec i io = some t) :
    ∃ ins k s' a, s.threads[i]? = some (.step ins k) ∧ exec i io ins s.shared = some (s', a) ∧
      t = ⟨s', s.threads.set i (k a)⟩ := by
  unfold Pool.tick at h
  split at h
  · rename_i ins k hGet
    obtain ⟨⟨s', a⟩, hExec, rfl⟩ := Option.map_eq_some_iff.mp h
    exact ⟨ins, k, s', a, hGet, hExec, rfl⟩
  · cases h

/-- The rule for a pool. The invariant may read how many threads there are; `A i s p` is the
assertion about thread `i` with program `p`. -/
theorem pool_invariant {good : Pool S I Ans R → Event C Io → Prop} {J : Nat → S → Prop}
    {A : Nat → S → Prog I Ans R → Prop}
    (hStart : ∀ n s c, J n s → J (n + 1) s ∧ A n s (main c))
    (hOwn : ∀ (s : Pool S I Ans R) i io ins k s' a, good s (.tick i io) →
      J s.threads.length s.shared → (∀ j p, s.threads[j]? = some p → A j s.shared p) →
      s.threads[i]? = some (.step ins k) → exec i io ins s.shared = some (s', a) →
      J s.threads.length s' ∧ A i s' (k a))
    (hOther : ∀ (s : Pool S I Ans R) i io ins k s' a j p, good s (.tick i io) →
      J s.threads.length s.shared → (∀ j p, s.threads[j]? = some p → A j s.shared p) →
      s.threads[i]? = some (.step ins k) → exec i io ins s.shared = some (s', a) → j ≠ i →
      s.threads[j]? = some p → A j s' p)
    (hRun : Runs.Run (Pool.step exec main) good s t) (hInv : J s.threads.length s.shared)
    (hAll : ∀ i p, s.threads[i]? = some p → A i s.shared p) :
    J t.threads.length t.shared ∧ ∀ i p, t.threads[i]? = some p → A i t.shared p := by
  refine hRun.invariant (P := fun s => J s.threads.length s.shared ∧
    ∀ i p, s.threads[i]? = some p → A i s.shared p) ⟨hInv, hAll⟩ ?_
  rintro s e u ⟨hInv, hAll⟩ hGood hStep
  cases e with
  | start c =>
    obtain rfl := Option.some.inj hStep
    obtain ⟨hInv', hNew⟩ := hStart _ s.shared c hInv
    refine ⟨by simpa using hInv', fun i p hp => ?_⟩
    by_cases hLt : i < s.threads.length
    · exact hAll i p (by rwa [List.getElem?_append_left hLt] at hp)
    · rw [List.getElem?_append_right (Nat.le_of_not_lt hLt)] at hp
      obtain ⟨hOne, rfl⟩ := List.getElem?_eq_some_iff.mp hp
      rw [List.length_singleton] at hOne
      have hEq : i = s.threads.length := by omega
      subst hEq
      simpa only [List.getElem_singleton] using hNew
  | tick i io =>
    obtain ⟨ins, k, s', a, hGet, hExec, rfl⟩ := tick_cases hStep
    obtain ⟨hInv', hOwn'⟩ := hOwn s i io ins k s' a hGood hInv hAll hGet hExec
    refine ⟨by simpa using hInv', fun j p hp => ?_⟩
    by_cases hEq : j = i
    · subst hEq
      have hLt : j < s.threads.length := (List.getElem?_eq_some_iff.mp hGet).1
      rw [List.getElem?_set_self hLt] at hp
      obtain rfl := Option.some.inj hp
      exact hOwn'
    · have hSame : s.threads[j]? = some p := by
        rwa [List.getElem?_set_ne (fun h => hEq h.symm)] at hp
      exact hOther s i io ins k s' a j p hGood hInv hAll hGet hExec hEq hSame

/-! ## Disciplines -/

/-- A typestate with what it says about the shared state, for the thread that is in it. -/
structure Discipline (exec : Nat → Io → (i : I) → S → Option (S × Ans i)) where
  states : Typestate I Ans
  Inv : Nat → S → Prop
  Rel : Nat → S → states.State → Prop
  /-- An allowed instruction keeps the invariant, and its answer is one the typestate expects. -/
  own : ∀ n i io ins s s' a q, i < n → Inv n s → Rel i s q → states.allow q ins →
    exec i io ins s = some (s', a) →
    Inv n s' ∧ ∃ q', states.next q ins a = some q' ∧ Rel i s' q'
  /-- An allowed instruction of another thread keeps what a thread knows. -/
  other : ∀ n i io ins s s' a q j q', Inv n s → Rel i s q → states.allow q ins →
    exec i io ins s = some (s', a) → j ≠ i → Rel j s q' → Rel j s' q'

namespace Discipline

variable (D : Discipline exec)

/-- Thread `i` is in some state of the typestate, and what is left of its program obeys it. -/
def Keeps (post : D.states.State → R → Prop) (i : Nat) (s : S) (p : Prog I Ans R) : Prop :=
  ∃ q, D.Rel i s q ∧ Obeys D.states q p post

/-- Programs that obey the typestate from the state of a new thread keep it in every run. -/
theorem run {good : Pool S I Ans R → Event C Io → Prop} {Q : D.states.State → R → Prop}
    (hStart : ∀ n s c, D.Inv n s → D.Inv (n + 1) s ∧ D.Keeps Q n s (main c))
    (hRun : Runs.Run (Pool.step exec main) good s t) (hInv : D.Inv s.threads.length s.shared)
    (hAll : ∀ i p, s.threads[i]? = some p → D.Keeps Q i s.shared p) :
    D.Inv t.threads.length t.shared ∧
      ∀ i p, t.threads[i]? = some p → D.Keeps Q i t.shared p := by
  refine pool_invariant hStart ?_ ?_ hRun hInv hAll
  · intro s i io ins k s' a _ hInv hAll hGet hExec
    obtain ⟨q, hRel, hAllow, hNext⟩ := hAll i _ hGet
    have hLt : i < s.threads.length := (List.getElem?_eq_some_iff.mp hGet).1
    obtain ⟨hInv', q', hq', hRel'⟩ :=
      D.own _ i io ins s.shared s' a q hLt hInv hRel hAllow hExec
    exact ⟨hInv', q', hRel', hNext a q' hq'⟩
  · intro s i io ins k s' a j p _ hInv hAll hGet hExec hNe hp
    obtain ⟨q, hRel, hAllow, _⟩ := hAll i _ hGet
    obtain ⟨q', hRel', hObeys⟩ := hAll j p hp
    exact ⟨q', D.other _ i io ins s.shared s' a q j q' hInv hRel hAllow hExec hNe hRel', hObeys⟩

end Discipline

end

end Threads
