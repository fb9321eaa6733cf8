import Weflow.Db.Catalog

/-!
# Live connections

The database files an account finds on disk, as the foreign writers leave them, and the pool
of long-lived read-only connections of `db/live.rs`.

`PRAGMA data_version` is modelled by the number of commits to the file: on one connection two
readings differ exactly if a commit lies between them. Everything the environment decides on
one access (an open that fails, a pragma that fails) is an argument.
-/

namespace Weflow

/-- The raw 32-byte key, in hex. -/
abbrev DbKey := String

/-- `KeyMap::key_for`, by relative path. -/
abbrev KeyMap := String → Option DbKey

inductive DbKind
  | session
  | message
  | contact
  | contactFts
  | media
  | sns
  | other
deriving DecidableEq, Repr

/-- What `enum_db_files` says about one file. -/
structure DbFile where
  rel : String
  kind : DbKind
deriving DecidableEq, Repr

/-- Fingerprint of one file on disk. -/
structure SrcStamp where
  mtimeNs : Int
  size : Nat
deriving DecidableEq, Repr

/-- Main file and WAL sibling. -/
structure DbStamps where
  main : Option SrcStamp
  wal : Option SrcStamp
deriving DecidableEq, Repr

/-- One database file: the key it opens with, its stamps, the number of commits so far and
the committed content. -/
structure Source extends DbFile where
  key : DbKey
  stamps : DbStamps
  version : Nat
  db : Db

/-- The files under the storage root, in the order they are enumerated. -/
structure World where
  files : List Source
  rels_nodup : (files.map fun f => f.rel).Nodup

namespace World

def source? (w : World) (rel : String) : Option Source := w.files.find? fun f => f.rel = rel

theorem source?_of_mem {w : World} {f : Source} (h : f ∈ w.files) :
    w.source? f.rel = some f := by
  have hNodup := w.rels_nodup
  unfold source?
  generalize w.files = fs at h hNodup
  induction fs with
  | nil => cases h
  | cons a fs ih =>
    rw [List.map_cons, List.nodup_cons] at hNodup
    rcases List.mem_cons.mp h with rfl | hMem
    · rw [List.find?_cons_of_pos (by simp)]
    · rw [List.find?_cons_of_neg]
      · exact ih hMem hNodup.2
      · intro hEq
        apply hNodup.1
        rw [show a.rel = f.rel by simpa using hEq]
        exact List.mem_map_of_mem hMem

theorem source?_some {w : World} {rel : String} {f : Source} (h : w.source? rel = some f) :
    f ∈ w.files ∧ f.rel = rel :=
  ⟨List.mem_of_find?_eq_some h, by simpa using List.find?_some h⟩

end World

/-! ## Connections -/

inductive AcquireError
  | wrongKey
  | missing
  | io
deriving DecidableEq, Repr

/-- `open_read_only`: the environment's failure, else the key is checked. -/
def openReadOnly (f : Source) (key : DbKey) (fails : Option AcquireError) : Option AcquireError :=
  match fails with
  | some e => some e
  | none => if key = f.key then none else some .wrongKey

/-- A pool entry. `conn` is the open connection, with the `data_version` baseline taken on it,
if one could be read. -/
structure LiveDb where
  key : DbKey
  conn : Option (Option Nat)
deriving DecidableEq, Repr

structure LivePool where
  pool : Map LiveDb := ∅
  keyless : List String := []

/-- What the environment decides about one access to a file. -/
structure Access where
  fails : Option AcquireError := none
  pragmaOk : Bool := true
deriving DecidableEq, Repr

namespace LivePool

def isKeyless (p : LivePool) (rel : String) : Bool := p.keyless.contains rel

def markKeyless (p : LivePool) (rel : String) : LivePool := { p with keyless := rel :: p.keyless }

/-- The open connection of a file. -/
def conn? (p : LivePool) (rel : String) : Option (Option Nat) := (p.pool.lookup rel).bind LiveDb.conn

def isOpen (p : LivePool) (rel : String) : Bool := (p.conn? rel).isSome

/-- Replace the entry of a file. -/
def setEntry (p : LivePool) (rel : String) (e : LiveDb) : LivePool :=
  { p with pool := p.pool.insert rel e }

/-- The pool without the wrong-key mark of a file. -/
def unmark (p : LivePool) (rel : String) : LivePool :=
  { p with keyless := p.keyless.filter (· ≠ rel) }

/-- The entry of the file with the key of this call, and its connection, opened if needed. -/
def acquire (p : LivePool) (f : Source) (key : DbKey) (io : Access) :
    LivePool × Option AcquireError :=
  match p.conn? f.rel with
  | some baseline => (p.setEntry f.rel ⟨key, some baseline⟩, none)
  | none =>
    match openReadOnly f key io.fails with
    | some e => (p.setEntry f.rel ⟨key, none⟩, some e)
    | none =>
      (p.setEntry f.rel ⟨key, some (if io.pragmaOk then some f.version else none)⟩, none)

/-- `get_or_open`: the pool afterwards, and the error. A remembered wrong key fails fast until
the registered key changes. -/
def getOrOpen (p : LivePool) (f : Source) (key : DbKey) (io : Access) :
    LivePool × Option AcquireError :=
  let unchanged := (p.pool.lookup f.rel).all fun e => e.conn.isNone && e.key = key
  if p.isKeyless f.rel then
    if unchanged then (p, some .wrongKey) else (p.unmark f.rel).acquire f key io
  else p.acquire f key io

/-- `foreign_commit_pending`. -/
def foreignCommitPending (p : LivePool) (f : Source) (pragmaOk : Bool) : Option Bool :=
  match p.conn? f.rel with
  | none => none
  | some baseline => if pragmaOk then some (baseline ≠ some f.version) else none

/-- `advance_data_version`: the *current* version becomes the baseline. -/
def advanceDataVersion (p : LivePool) (f : Source) (pragmaOk : Bool) : LivePool :=
  match p.pool.lookup f.rel with
  | none => p
  | some e =>
    if e.conn.isSome ∧ pragmaOk then p.setEntry f.rel { e with conn := some (some f.version) }
    else p

/-! ## What the operations do to the open connections -/

@[simp] theorem conn?_markKeyless (p : LivePool) (rel r : String) :
    (p.markKeyless rel).conn? r = p.conn? r := rfl

theorem conn?_setEntry (p : LivePool) (rel r : String) (e : LiveDb) :
    (p.setEntry rel e).conn? r = if r = rel then e.conn else p.conn? r := by
  unfold conn? setEntry
  split
  · rename_i h
    rw [h, AList.lookup_insert]
    rfl
  · rename_i h
    rw [AList.lookup_insert_ne h]

@[simp] theorem conn?_unmark (p : LivePool) (rel r : String) :
    (p.unmark rel).conn? r = p.conn? r := rfl

/-- What an access did: nothing to the open connections, or it opened the file at its current
version. -/
def Accessed (p p' : LivePool) (f : Source) (err : Option AcquireError) (ok : Bool) : Prop :=
  (∀ r, p'.conn? r = p.conn? r) ∧ (err = none → p.isOpen f.rel = true) ∨
    (p.conn? f.rel = none ∧ err = none ∧
      ∀ r, p'.conn? r = if r = f.rel then some (if ok then some f.version else none)
        else p.conn? r)

theorem acquire_spec (p : LivePool) (f : Source) (key : DbKey) (io : Access) :
    Accessed p (p.acquire f key io).1 f (p.acquire f key io).2 io.pragmaOk := by
  unfold acquire
  split
  · rename_i b hb
    refine .inl ⟨fun r => ?_, fun _ => by simp [isOpen, hb]⟩
    rw [conn?_setEntry]
    split
    · rename_i hr
      rw [hr, hb]
    · rfl
  · rename_i hNone
    split
    · refine .inl ⟨fun r => ?_, fun h => by cases h⟩
      rw [conn?_setEntry]
      split
      · rename_i hr
        rw [hr, hNone]
      · rfl
    · exact .inr ⟨hNone, rfl, fun r => conn?_setEntry _ _ _ _⟩

theorem getOrOpen_spec (p : LivePool) (f : Source) (key : DbKey) (io : Access) :
    Accessed p (p.getOrOpen f key io).1 f (p.getOrOpen f key io).2 io.pragmaOk := by
  unfold getOrOpen
  simp only
  split
  · split
    · exact .inl ⟨fun _ => rfl, fun h => by cases h⟩
    · exact (p.unmark f.rel).acquire_spec f key io
  · exact p.acquire_spec f key io

/-- A successful access leaves the file open. -/
theorem Accessed.isOpen {p p' : LivePool} {f : Source} {ok : Bool}
    (h : Accessed p p' f none ok) : p'.isOpen f.rel = true := by
  rcases h with ⟨hSame, hOpen⟩ | ⟨_, _, hOpened⟩
  · rw [LivePool.isOpen, hSame]
    exact hOpen rfl
  · rw [LivePool.isOpen, hOpened, if_pos rfl]
    rfl

theorem isOpen_of_conn {p p' : LivePool} {r : String} (hConn : p'.conn? r = p.conn? r)
    (h : p.isOpen r = true) : p'.isOpen r = true := by
  rw [isOpen, hConn]
  exact h

/-- No access closes a file. -/
theorem Accessed.isOpen_mono {p p' : LivePool} {f : Source} {err : Option AcquireError}
    {ok : Bool} (hAcc : Accessed p p' f err ok) {r : String} (h : p.isOpen r = true) :
    p'.isOpen r = true := by
  rcases hAcc with ⟨hSame, -⟩ | ⟨-, -, hOpened⟩
  · exact isOpen_of_conn (hSame r) h
  · rw [LivePool.isOpen, hOpened r]
    split
    · rfl
    · exact h

/-- An access leaves the connections of other files alone. -/
theorem Accessed.conn?_ne {p p' : LivePool} {f : Source} {err : Option AcquireError}
    {ok : Bool} (hAcc : Accessed p p' f err ok) {r : String} (h : r ≠ f.rel) :
    p'.conn? r = p.conn? r := by
  rcases hAcc with ⟨hSame, -⟩ | ⟨-, -, hOpened⟩
  · exact hSame r
  · rw [hOpened r, if_neg h]

/-- An access marks no file. -/
theorem keyless_getOrOpen (p : LivePool) (f : Source) (key : DbKey) (io : Access) :
    (p.getOrOpen f key io).1.keyless.Sublist p.keyless := by
  have hAcquire : ∀ q : LivePool, (q.acquire f key io).1.keyless = q.keyless := by
    intro q
    unfold acquire
    split
    · rfl
    · split <;> rfl
  unfold getOrOpen
  dsimp only
  split
  · split
    · exact .refl _
    · rw [hAcquire]
      exact List.filter_sublist
  · rw [hAcquire]

/-- A failed access leaves the file closed. -/
theorem conn?_of_error {p : LivePool} {f : Source} {key : DbKey} {io : Access}
    (h : (p.getOrOpen f key io).2 ≠ none) : (p.getOrOpen f key io).1.conn? f.rel = none := by
  have hAcquire : ∀ q : LivePool, (q.acquire f key io).2 ≠ none →
      (q.acquire f key io).1.conn? f.rel = none := by
    intro q hq
    unfold acquire at hq ⊢
    split at hq
    · exact absurd rfl hq
    · split at hq
      · rw [conn?_setEntry, if_pos rfl]
      · exact absurd rfl hq
  unfold getOrOpen at h ⊢
  simp only at h ⊢
  by_cases hMark : p.isKeyless f.rel = true
  · rw [if_pos hMark] at h ⊢
    by_cases hSame : (p.pool.lookup f.rel).all (fun e => e.conn.isNone && e.key = key) = true
    · rw [if_pos hSame, conn?]
      cases hEntry : p.pool.lookup f.rel with
      | none => rfl
      | some e =>
        simp only [hEntry, Option.all_some, Bool.and_eq_true, Option.isNone_iff_eq_none] at hSame
        exact hSame.1
    · rw [if_neg hSame] at h ⊢
      exact hAcquire _ h
  · rw [if_neg hMark] at h ⊢
    exact hAcquire _ h

/-- With the right key and no failure of the environment a file that is not marked opens. -/
theorem getOrOpen_ok {p : LivePool} {f : Source} {key : DbKey} {io : Access}
    (hMark : p.isKeyless f.rel = false) (hKey : key = f.key) (hIo : io.fails = none) :
    (p.getOrOpen f key io).2 = none := by
  unfold getOrOpen
  simp only [hMark, Bool.false_eq_true, if_false]
  unfold acquire
  split
  · rfl
  · simp [openReadOnly, hIo, hKey]

theorem conn?_advance (p : LivePool) (f : Source) (ok : Bool) (r : String) :
    (p.advanceDataVersion f ok).conn? r = p.conn? r ∨
      r = f.rel ∧ (p.conn? f.rel).isSome ∧
        (p.advanceDataVersion f ok).conn? r = some (some f.version) := by
  unfold advanceDataVersion
  split
  · exact .inl rfl
  · rename_i e he
    split
    · rename_i h
      rw [conn?_setEntry]
      split
      · rename_i hr
        exact .inr ⟨hr, by simpa [conn?, he] using h.1, rfl⟩
      · exact .inl rfl
    · exact .inl rfl

/-! ## Files that open -/

theorem acquire_congr {p p' : LivePool} {f : Source} {key : DbKey} {io : Access}
    (hEntry : p'.pool.lookup f.rel = p.pool.lookup f.rel) :
    (p'.acquire f key io).2 = (p.acquire f key io).2 := by
  have hConn : p'.conn? f.rel = p.conn? f.rel := by rw [conn?, conn?, hEntry]
  unfold acquire
  rw [hConn]
  split
  · rfl
  · split <;> rfl

/-- Whether an access succeeds depends on the entry and the mark of the file only. -/
theorem getOrOpen_congr {p p' : LivePool} {f : Source} {key : DbKey} {io : Access}
    (hMark : p'.isKeyless f.rel = p.isKeyless f.rel)
    (hEntry : p'.pool.lookup f.rel = p.pool.lookup f.rel) :
    (p'.getOrOpen f key io).2 = (p.getOrOpen f key io).2 := by
  unfold getOrOpen
  simp only [hMark, hEntry]
  split
  · split
    · rfl
    · have hUnmarked : (p'.unmark f.rel).pool.lookup f.rel = (p.unmark f.rel).pool.lookup f.rel :=
        hEntry
      exact acquire_congr hUnmarked
  · exact acquire_congr hEntry

/-- An open file can always be accessed. -/
theorem getOrOpen_of_isOpen {p : LivePool} {f : Source} {key : DbKey} {io : Access}
    (h : p.isOpen f.rel = true) : (p.getOrOpen f key io).2 = none := by
  by_contra hErr
  rcases p.getOrOpen_spec f key io with ⟨hSame, -⟩ | ⟨-, hNone, -⟩
  · have hClosed := conn?_of_error hErr
    rw [hSame] at hClosed
    rw [isOpen, hClosed] at h
    cases h
  · exact hErr hNone

theorem entry_acquire_ne (p : LivePool) (g : Source) (key : DbKey) (io : Access) {r : String}
    (h : r ≠ g.rel) : (p.acquire g key io).1.isKeyless r = p.isKeyless r ∧
      (p.acquire g key io).1.pool.lookup r = p.pool.lookup r := by
  unfold acquire
  split
  · exact ⟨rfl, AList.lookup_insert_ne h⟩
  · split <;> exact ⟨rfl, AList.lookup_insert_ne h⟩

theorem isKeyless_unmark_ne {p : LivePool} {rel r : String} (h : r ≠ rel) :
    (p.unmark rel).isKeyless r = p.isKeyless r := by
  have hMem : r ∈ p.keyless.filter (fun q => decide (q ≠ rel)) ↔ r ∈ p.keyless := by
    simp [h]
  rw [isKeyless, isKeyless, List.contains_eq_mem, List.contains_eq_mem, decide_eq_decide]
  exact hMem

/-- An access leaves the entries and marks of other files alone. -/
theorem entry_getOrOpen_ne (p : LivePool) (g : Source) (key : DbKey) (io : Access) {r : String}
    (h : r ≠ g.rel) : (p.getOrOpen g key io).1.isKeyless r = p.isKeyless r ∧
      (p.getOrOpen g key io).1.pool.lookup r = p.pool.lookup r := by
  unfold getOrOpen
  dsimp only
  split
  · split
    · exact ⟨rfl, rfl⟩
    · obtain ⟨hMark, hEntry⟩ := (p.unmark g.rel).entry_acquire_ne g key io h
      exact ⟨hMark.trans (isKeyless_unmark_ne h), hEntry⟩
  · exact p.entry_acquire_ne g key io h

theorem entry_advance_ne (p : LivePool) (g : Source) (ok : Bool) {r : String} (h : r ≠ g.rel) :
    (p.advanceDataVersion g ok).isKeyless r = p.isKeyless r ∧
      (p.advanceDataVersion g ok).pool.lookup r = p.pool.lookup r := by
  unfold advanceDataVersion
  split
  · exact ⟨rfl, rfl⟩
  · split
    · exact ⟨rfl, AList.lookup_insert_ne h⟩
    · exact ⟨rfl, rfl⟩

end LivePool

end Weflow
