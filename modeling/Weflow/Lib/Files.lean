import Mathlib.Logic.Function.Basic
import Mathlib.Data.Set.Basic
import Weflow.Lib.Effects

/-!
# Files

A disk says what stands under each key. A path names a key, and two paths may name one (a
volume that folds case). A call is made by somebody, its tag, and is one of four operations:
creating an empty file, writing at the end of one, renaming, removing. Renaming is one step; a
write may be stopped after any of its bytes.

Every call can fail as the system decides (`fails`, `WriteFault`). It fails by itself on a
directory, and where there is no file to rename. Removing a file does not fail.
-/

namespace Files

open Effects

inductive Entry
  | file (bytes : List UInt8)
  | directory
  deriving DecidableEq

abbrev Disk (K : Type) := K → Option Entry

inductive Op (P : Type)
  | create (p : P)
  | append (p : P) (bytes : List UInt8)
  | rename (p q : P)
  | remove (p : P)
  deriving DecidableEq

/-- The paths an operation creates, changes, replaces or removes. -/
def Op.touched {P : Type} : Op P → List P
  | create p => [p]
  | append p _ => [p]
  | rename p q => [p, q]
  | remove p => [p]

variable {K P T : Type} [DecidableEq K]

def appended (bytes : List UInt8) : Option Entry → Option Entry
  | some (.file old) => some (.file (old ++ bytes))
  | e => e

def apply (key : P → K) (d : Disk K) : Op P → Disk K
  | .create p => Function.update d (key p) (some (.file []))
  | .append p bytes => Function.update d (key p) (appended bytes (d (key p)))
  | .rename p q => Function.update (Function.update d (key p) none) (key q) (d (key p))
  | .remove p => Function.update d (key p) none

/-- A write stopped in the middle has written some of its bytes. -/
def during (key : P → K) (d : Disk K) : Op P → Disk K → Prop
  | .append p bytes, d' => ∃ n, d' = apply key d (.append p (bytes.take n))
  | _, _ => False

/-- The calls of a run, each with the one who makes it. -/
def effects (T : Type) (key : P → K) : Machine (Disk K) (T × Op P) where
  apply d o := apply key d o.2
  during d o := during key d o.2

variable {key : P → K} {d : Disk K} {t : T} {p q : P} {k : K}

/-! ## Frame -/

theorem apply_frame {o : Op P} (h : ∀ p ∈ o.touched, key p ≠ k) : apply key d o k = d k := by
  cases o with
  | create p => exact Function.update_of_ne (h p (by simp [Op.touched])).symm _ _
  | append p bytes => exact Function.update_of_ne (h p (by simp [Op.touched])).symm _ _
  | rename p q =>
    rw [apply, Function.update_of_ne (h q (by simp [Op.touched])).symm,
      Function.update_of_ne (h p (by simp [Op.touched])).symm]
  | remove p => exact Function.update_of_ne (h p (by simp [Op.touched])).symm _ _

theorem during_frame {o : Op P} {d' : Disk K} (hDuring : during key d o d')
    (h : ∀ p ∈ o.touched, key p ≠ k) : d' k = d k := by
  cases o with
  | append p bytes =>
    obtain ⟨n, rfl⟩ := hDuring
    exact apply_frame (o := .append p (bytes.take n)) h
  | create p => exact hDuring.elim
  | rename p q => exact hDuring.elim
  | remove p => exact hDuring.elim

/-- Calls that touch no path of a key leave what stands there. -/
theorem replay_frame {os : List (T × Op P)} (h : ∀ o ∈ os, ∀ p ∈ o.2.touched, key p ≠ k) :
    replay (effects T key) d os k = d k := by
  induction os generalizing d with
  | nil => rfl
  | cons o os ih =>
    rw [replay_cons, ih fun o ho => h o (List.mem_cons_of_mem _ ho)]
    exact apply_frame (h o List.mem_cons_self)

theorem stops_frame {os : List (T × Op P)} {d' : Disk K}
    (hStop : Stops (effects T key) d os d')
    (h : ∀ o ∈ os, ∀ p ∈ o.2.touched, key p ≠ k) : d' k = d k := by
  refine hStop.invariant (P := fun s => s k = d k)
    (G := fun _ o => ∀ p ∈ o.2.touched, key p ≠ k)
    (allowed_of_forall fun o ho _ => h o ho) rfl ?_ ?_
  · intro s o hs hG
    exact (apply_frame hG).trans hs
  · intro s o s' hs hG hDuring
    exact (during_frame hDuring hG).trans hs

/-! ## Calls -/

def isFile : Option Entry → Bool
  | some (.file _) => true
  | _ => false

def isDirectory : Option Entry → Bool
  | some .directory => true
  | _ => false

/-- `File::create`: an empty file, in the place of the file that stands there. -/
def create (key : P → K) (t : T) (fails : Bool) (p : P) : Act (effects T key) Bool := fun d =>
  if fails || isDirectory (d (key p)) then ([], false) else ([(t, .create p)], true)

def append (key : P → K) (t : T) (p : P) (bytes : List UInt8) : Act (effects T key) Unit :=
  fun _ => ([(t, .append p bytes)], ())

/-- `fs::rename` of a file, which replaces the file that stands under the new name. -/
def rename (key : P → K) (t : T) (fails : Bool) (p q : P) : Act (effects T key) Bool := fun d =>
  if fails || !isFile (d (key p)) || isDirectory (d (key q)) then ([], false)
  else ([(t, .rename p q)], true)

/-- `fs::remove_file`, its result dropped. -/
def remove (key : P → K) (t : T) (p : P) : Act (effects T key) Unit := fun d =>
  if isFile (d (key p)) then ([(t, .remove p)], ()) else ([], ())

/-- `Path::exists`. -/
def present (key : P → K) (p : P) : Act (effects T key) Bool :=
  Act.look fun d => (d (key p)).isSome

/-- How the writing of a whole file fails. -/
inductive WriteFault
  | none
  | opening
  | after (written : Nat)

def WriteFault.fails : WriteFault → Bool
  | none => false
  | _ => true

/-- `fs::write`: the file created anew and written. -/
def write (key : P → K) (t : T) (fault : WriteFault) (p : P) (bytes : List UInt8) :
    Act (effects T key) Bool := do
  match fault with
  | .opening => return false
  | .none =>
    if ← create key t false p then
      append key t p bytes
      return true
    else return false
  | .after n =>
    if ← create key t false p then
      append key t p (bytes.take n)
    return false

/-! ## What the calls do -/

variable {fails : Bool} {bytes : List UInt8} {G : T × Op P → Prop} {D : Disk K → Prop}

/-- A file is created empty, or the call fails and nothing has happened. -/
theorem holds_create (hG : G (t, .create p)) {Q : Bool → Disk K → Prop}
    (hFail : ∀ d, D d → Q false d)
    (hDone : ∀ d, D d → Q true (Function.update d (key p) (some (.file [])))) :
    Act.Holds G D (create key t fails p) Q := by
  intro d hd
  rw [Act.after, Act.ops, Act.result, create]
  split
  · exact ⟨by simp, hFail d hd⟩
  · exact ⟨by simpa using hG, hDone d hd⟩

theorem holds_append (hG : G (t, .append p bytes)) {Q : Unit → Disk K → Prop}
    (hDone : ∀ d, D d → Q () (Function.update d (key p) (appended bytes (d (key p))))) :
    Act.Holds G D (append key t p bytes) Q :=
  fun d hd => ⟨by simpa [append, Act.ops] using hG, hDone d hd⟩

/-- After `remove` no file stands there. -/
theorem holds_remove (hG : G (t, .remove p)) {Q : Unit → Disk K → Prop}
    (hSame : ∀ d, D d → isFile (d (key p)) = false → Q () d)
    (hDone : ∀ d, D d → isFile (d (key p)) = true → Q () (Function.update d (key p) none)) :
    Act.Holds G D (remove key t p) Q := by
  intro d hd
  rw [Act.after, Act.ops, Act.result, remove]
  split
  · exact ⟨by simpa using hG, hDone d hd (by assumption)⟩
  · rename_i hNone
    exact ⟨by simp, hSame d hd (by simpa using hNone)⟩

/-- A rename is done, or it is not. -/
theorem rename_cases (fails : Bool) (key : P → K) :
    ((rename key t fails p q).result d = true ∧
      (rename key t fails p q).ops d = [(t, .rename p q)]) ∨
    ((rename key t fails p q).result d = false ∧ (rename key t fails p q).ops d = []) := by
  rw [Act.result, Act.ops, rename]
  split
  · exact .inr ⟨rfl, rfl⟩
  · exact .inl ⟨rfl, rfl⟩

/-- A whole file is written, or the call fails with none, an empty or a part of one written. -/
theorem holds_write (fault : WriteFault) (hCreate : G (t, .create p))
    (hAppend : ∀ bytes, G (t, .append p bytes)) {Q : Bool → Disk K → Prop}
    (hFail : ∀ d, D d → Q false d)
    (hPart : ∀ d bytes, D d → Q false (Function.update d (key p) (some (.file bytes))))
    (hDone : ∀ d, D d → Q true (Function.update d (key p) (some (.file bytes)))) :
    Act.Holds G D (write key t fault p bytes) Q := by
  have hOpen : Act.Holds G D (create key t false p) fun opened d' =>
      (opened = false ∧ D d') ∨
      opened = true ∧ ∃ d, D d ∧ d' = Function.update d (key p) (some (.file [])) :=
    holds_create hCreate (fun d hd => .inl ⟨rfl, hd⟩) fun d hd => .inr ⟨rfl, d, hd, rfl⟩
  have hWritten : ∀ (d : Disk K) (bs : List UInt8),
      Function.update (Function.update d (key p) (some (.file []))) (key p)
        (appended bs (Function.update d (key p) (some (.file [])) (key p))) =
        Function.update d (key p) (some (.file bs)) := by
    intro d bs
    rw [Function.update_self, appended, List.nil_append, Function.update_idem]
  cases fault with
  | opening => exact Act.holds_pure hFail
  | none =>
    refine hOpen.bind fun opened => ?_
    cases opened with
    | false =>
      refine Act.holds_pure ?_
      rintro d (⟨-, hd⟩ | ⟨hEq, -⟩)
      · exact hFail d hd
      · cases hEq
    | true =>
      refine Act.Holds.bind (Q := fun _ d' => Q true d') (holds_append (hAppend bytes) ?_)
        fun _ => Act.holds_pure fun _ h => h
      rintro d (⟨hEq, -⟩ | ⟨-, d, hd, rfl⟩)
      · cases hEq
      · rw [hWritten]
        exact hDone d hd
  | after n =>
    refine hOpen.bind fun opened => ?_
    cases opened with
    | false =>
      refine Act.holds_pure ?_
      rintro d (⟨-, hd⟩ | ⟨hEq, -⟩)
      · exact hFail d hd
      · cases hEq
    | true =>
      refine Act.Holds.bind (Q := fun _ d' => Q false d') (holds_append (hAppend _) ?_)
        fun _ => Act.holds_pure fun _ h => h
      rintro d (⟨hEq, -⟩ | ⟨-, d, hd, rfl⟩)
      · cases hEq
      · rw [hWritten]
        exact hPart d _ hd

theorem create_result : (create key t fails p).result d =
    !(fails || isDirectory (d (key p))) := by
  rw [Act.result, create]
  cases fails || isDirectory (d (key p)) <;> rfl

theorem rename_result : (rename key t fails p q).result d =
    !(fails || !isFile (d (key p)) || isDirectory (d (key q))) := by
  rw [Act.result, rename]
  cases fails || !isFile (d (key p)) || isDirectory (d (key q)) <;> rfl

/-- A file that was renamed stands under its new name. -/
theorem rename_after (h : (rename key t fails p q).result d = true) :
    (rename key t fails p q).after d =
      Function.update (Function.update d (key p) none) (key q) (d (key p)) := by
  rcases rename_cases (p := p) (q := q) (t := t) (d := d) fails key with ⟨-, hOps⟩ | ⟨hResult, -⟩
  · rw [Act.after, hOps]
    rfl
  · rw [hResult] at h
    cases h

/-- When a whole file is written. -/
theorem write_result (fault : WriteFault) : (write key t fault p bytes).result d =
    !(fault.fails || isDirectory (d (key p))) := by
  cases fault with
  | opening => rfl
  | none =>
    rw [write, Act.result_bind, create_result]
    cases isDirectory (d (key p)) <;> rfl
  | after n =>
    rw [write, Act.result_bind, create_result]
    cases isDirectory (d (key p)) <;> rfl

theorem write_after {fault : WriteFault} (h : (write key t fault p bytes).result d = true) :
    (write key t fault p bytes).after d = Function.update d (key p) (some (.file bytes)) := by
  have hWrite : Act.Holds (fun _ => True) (· = d) (write key t fault p bytes) fun done s =>
      done = true → s = Function.update d (key p) (some (.file bytes)) := by
    refine holds_write fault trivial (fun _ => trivial) (fun _ _ h' => by cases h')
      (fun _ _ _ h' => by cases h') ?_
    rintro s rfl _
    rfl
  exact (hWrite d rfl).2 h

/-! ## Where only files stand -/

theorem isDirectory_of_isFile {e : Option Entry} (h : isFile e = true) : isDirectory e = false := by
  cases e with
  | none => rfl
  | some e =>
    cases e with
    | file => rfl
    | directory => cases h

theorem isSome_of_isFile {e : Option Entry} (h : isFile e = true) : e.isSome = true := by
  cases e with
  | none => cases h
  | some e => rfl

theorem isFile_appended {bytes : List UInt8} {e : Option Entry} (h : isFile e = true) :
    isFile (appended bytes e) = true := by
  rcases e with _ | (old | _)
  · cases h
  · rfl
  · cases h

theorem isFile_update {e : Option Entry} (h : ∀ k, isFile (d k) = true) (he : isFile e = true)
    (k' k : K) : isFile (Function.update d k' e k) = true := by
  by_cases hk : k = k'
  · rw [hk, Function.update_self]
    exact he
  · rw [Function.update_of_ne hk]
    exact h k

theorem isFile_create (h : ∀ k, isFile (d k) = true) (k : K) :
    isFile ((create key t fails p).after d k) = true := by
  rw [Act.after, Act.ops, create]
  split_ifs
  · exact h k
  · exact isFile_update h rfl (key p) k

theorem isFile_append (h : ∀ k, isFile (d k) = true) (k : K) :
    isFile ((append key t p bytes).after d k) = true :=
  isFile_update h (isFile_appended (h _)) (key p) k

theorem isFile_write {fault : WriteFault} (h : ∀ k, isFile (d k) = true) (k : K) :
    isFile ((write key t fault p bytes).after d k) = true := by
  cases fault with
  | opening => exact h k
  | none =>
    rw [write, Act.after_bind]
    cases (create key t false p).result d with
    | false => exact isFile_create h k
    | true => exact isFile_append (isFile_create h) k
  | after n =>
    rw [write, Act.after_bind]
    cases (create key t false p).result d with
    | false => exact isFile_create h k
    | true => exact isFile_append (isFile_create h) k

theorem mem_rename (h : ∀ k, isFile (d k) = true) :
    (t, Op.rename p q) ∈ (rename key t false p q).ops d := by
  rw [Act.ops, rename, h, isDirectory_of_isFile (h _)]
  exact List.mem_cons_self

end Files
