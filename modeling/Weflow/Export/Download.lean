import Weflow.Export.Order
import Weflow.Media.Export

/-!
# The media of a page

`fetch_one_handle` and `media_for_page` of `cli.rs`: with media, every page is preceded by the
download of its media into the directory `media`. A handle that names something in the directory is
not asked for again. What the server answers and which calls fail is data.

`Holding` is what a page keeps when every file is written whole: what stands in the directory was
served under its name, and the names of the page are there (`holds_mediaForPage`).
-/

namespace Weflow.Export

open Effects
open Chatlab (PullMessage)

/-! ## The media directory -/

/-- A file put into the media directory. -/
structure Save where
  name : String
  bytes : List UInt8
  deriving DecidableEq

abbrev MediaDir (N : Type) := N → Option (List UInt8)

variable {N : Type} [DecidableEq N]

/-- The media directory, by the file that a name stands for. `fs::write` creates a file anew, and
may be stopped after any of its bytes. -/
def mediaDir (file : String → N) : Machine (MediaDir N) Save where
  apply m s := Function.update m (file s.name) (some s.bytes)
  during m s t := ∃ n, t = Function.update m (file s.name) (some (s.bytes.take n))

/-- `media_bytes_by_id`: the bytes, a 404, or another error. -/
inductive Answer
  | bytes (content : List UInt8)
  | notFound
  | failed

/-- What one download meets. -/
structure Download where
  answer : Answer
  createDirFails : Bool
  fault : Files.WriteFault

section

variable (file : String → N)

/-- `fs::write` -/
def save (fault : Files.WriteFault) (name : String) (bytes : List UInt8) :
    Act (mediaDir file) Bool := fun _ =>
  match fault with
  | .none => ([⟨name, bytes⟩], true)
  | .opening => ([], false)
  | .after n => ([⟨name, bytes.take n⟩], false)

/-- `fetch_one_handle` -/
def fetchOneHandle (e : Download) (name : String) :
    Act (mediaDir file) (Except Failure (Option String)) := do
  if ← Act.look fun m => (m (file name)).isSome then return .ok (some name)
  match e.answer with
  | .notFound => return .ok none
  | .failed => return .error .other
  | .bytes content =>
    if e.createDirFails then return .error .other
    if ← save file e.fault name content then return .ok (some name)
    else return .error .other

/-! ## A page -/

/-- What is known of a page: the file of each message, the files by folded name, the names that
are refused, the messages without a handle, and how many handles were asked for. -/
structure Landing where
  byMessage : List (String × String)
  landed : List (String × String)
  rejected : List String
  needExport : List PullMessage
  asked : Nat

def Landing.start : Landing := ⟨[], [], [], [], 0⟩

/-- The files of the page so far. -/
def Landing.files (l : Landing) : List String := l.landed.map (·.2) ++ l.byMessage.map (·.2)

/-- `BTreeMap::insert` -/
def put (k v : String) (l : List (String × String)) : List (String × String) :=
  (k, v) :: l.filter (·.1 ≠ k)

variable (lower : String → String) (env : Nat → String → Download)

/-- A message gets the file of its handle, which is downloaded unless its name has landed. -/
def land (l : Landing) (id name : String) : Act (mediaDir file) (Except Failure Landing) :=
  match l.landed.lookup (lower name) with
  | some known => pure (.ok { l with byMessage := put id known l.byMessage })
  | none => do
    match ← fetchOneHandle file (env l.asked name) name with
    | .error e => return .error e
    | .ok none => return .ok { l with asked := l.asked + 1 }
    | .ok (some got) => return .ok { l with
        landed := put (lower name) got l.landed
        byMessage := put id got l.byMessage
        asked := l.asked + 1 }

/-- A loop that ends at the first error. -/
def each {A : Type} (f : Landing → A → Act (mediaDir file) (Except Failure Landing)) :
    List A → Landing → Act (mediaDir file) (Except Failure Landing)
  | [], l => pure (.ok l)
  | a :: rest, l => do
    match ← f l a with
    | .error e => return .error e
    | .ok l => each f rest l

/-- The fast path: a message that brings its handle along. -/
def fastOne (l : Landing) (m : PullMessage) : Act (mediaDir file) (Except Failure Landing) :=
  if m.media.isNone then pure (.ok l)
  else
    match (m.mediaId.filter (· ≠ "")).filter fun s => Media.safeSegment s.toList with
    | none => pure (.ok { l with needExport := l.needExport ++ [m] })
    | some handle => land file lower env l m.platformMessageId handle

/-- A message of the message face, and the file name of its media. -/
structure Backfilled where
  platformMessageId : String
  media : Option String

structure Backfill where
  messages : List Backfilled
  hasMore : Bool

/-- What the message face is asked for: an export of the media in a window. -/
structure MediaQuery where
  talker : String
  start : Int
  stop : Int
  offset : Nat

/-- The slow path: a message of the window. -/
def slowOne (l : Landing) (b : Backfilled) : Act (mediaDir file) (Except Failure Landing) :=
  match b.media with
  | none => pure (.ok l)
  | some name =>
    if (l.byMessage.lookup b.platformMessageId).isSome then pure (.ok l)
    else if name = "" then pure (.ok l)
    else if !Media.safeSegment name.toList then
      pure (.ok { l with
        rejected := if lower name ∈ l.rejected then l.rejected else lower name :: l.rejected })
    else land file lower env l b.platformMessageId name

/-- The pages of the window; the answers are those the server gives, and then no more. -/
def slowLoop : MediaQuery → List (MediaQuery → Except Failure Backfill) → Landing →
    Act (mediaDir file) (Except Failure Landing)
  | _, [], _ => pure (.error .other)
  | q, answer :: rest, l =>
    match answer q with
    | .error e => pure (.error e)
    | .ok resp => do
      match ← each file (slowOne file lower env) resp.messages l with
      | .error e => return .error e
      | .ok l =>
        if !resp.hasMore || resp.messages.isEmpty then return .ok l
        else slowLoop { q with offset := q.offset + resp.messages.length } rest l

/-- `media_for_page`: the file of each message, and the number of refused names. -/
def mediaForPage (talker : String) (answers : List (MediaQuery → Except Failure Backfill))
    (page : List PullMessage) :
    Act (mediaDir file) (Except Failure (List (String × String) × Nat)) := do
  match ← each file (fastOne file lower env) page .start with
  | .error e => return .error e
  | .ok l =>
    if l.needExport = [] then return .ok (l.byMessage, l.rejected.length)
    let times := l.needExport.map (·.timestamp)
    let q : MediaQuery := ⟨talker, times.min?.getD 0, times.max?.getD 0, 0⟩
    match ← slowLoop file lower env q answers l with
    | .error e => return .error e
    | .ok l => return .ok (l.byMessage, l.rejected.length)

/-- The rows of a page, with the names under which their media were stored. -/
def loadPage (talker : String) (answers : List (MediaQuery → Except Failure Backfill))
    (page : List PullMessage) : Act (mediaDir file) (Except Failure (List Row)) := do
  match ← mediaForPage file lower env talker answers page with
  | .error e => return .error e
  | .ok got => return .ok (page.map fun m =>
      retainDownloadedMedia (fun id => got.1.lookup id) (rowFromPull m))

end

/-! ## What a page keeps -/

section

variable (file : String → N) (serves : String → List UInt8 → Prop)

def Has (m : MediaDir N) (name : String) : Prop := (m (file name)).isSome = true

/-- What stands in the directory was served under its name, and these names are there. -/
structure Holding (names : List String) (m : MediaDir N) : Prop where
  sound : ∀ name bytes, m (file name) = some bytes → serves name bytes
  has : ∀ name ∈ names, Has file m name

/-- A file that is put in whole, as it was served. -/
def Served (s : Save) : Prop := serves s.name s.bytes

/-- Names that stand for one file are served the same bytes. -/
def SameFile : Prop := ∀ a b, file a = file b → ∀ bytes, serves a bytes → serves b bytes

/-- A download of what the server serves, none of whose writes ends in the middle. -/
structure Download.Fair (e : Download) (name : String) : Prop where
  served : ∀ content, e.answer = .bytes content → serves name content
  whole : ∀ n, e.fault ≠ .after n

variable {file serves} {names : List String} {m : MediaDir N} {name : String}

theorem Holding.save (hSame : SameFile file serves) (h : Holding file serves names m) {s : Save}
    (hServed : Served serves s) :
    Holding file serves names ((mediaDir file).apply m s) ∧
      Has file ((mediaDir file).apply m s) s.name := by
  have hAt : ∀ n, (mediaDir file).apply m s (file n) =
      if file n = file s.name then some s.bytes else m (file n) := by
    exact fun n => Function.update_apply m (file s.name) (some s.bytes) (file n)
  refine ⟨⟨fun n bytes hn => ?_, fun n hn => ?_⟩, ?_⟩
  · rw [hAt] at hn
    split at hn
    · rename_i hEq
      cases hn
      exact hSame s.name n hEq.symm s.bytes hServed
    · exact h.sound n bytes hn
  · rw [Has, hAt]
    split
    · rfl
    · exact h.has n hn
  · rw [Has, hAt, if_pos rfl]
    rfl

omit [DecidableEq N] in
theorem Holding.cons (h : Holding file serves names m) (hHas : Has file m name) :
    Holding file serves (name :: names) m :=
  ⟨h.sound, List.forall_mem_cons.mpr ⟨hHas, h.has⟩⟩

omit [DecidableEq N] in
theorem Holding.append {more : List String} (h : Holding file serves names m)
    (hMore : ∀ n ∈ more, Has file m n) : Holding file serves (names ++ more) m :=
  ⟨h.sound, fun n hn => (List.mem_append.mp hn).elim (h.has n) (hMore n)⟩

omit [DecidableEq N] in
theorem Holding.sub {fewer : List String} (h : Holding file serves names m)
    (hSub : fewer ⊆ names) : Holding file serves fewer m :=
  ⟨h.sound, fun n hn => h.has n (hSub hn)⟩

/-- A handle that is had names a file of the directory. -/
theorem holds_fetchOneHandle (hSame : SameFile file serves) {e : Download}
    (hFair : e.Fair serves name) :
    Act.Holds (Served serves) (Holding file serves names) (fetchOneHandle file e name)
      fun res m => Holding file serves names m ∧
        ∀ got, res = .ok (some got) → got = name ∧ Has file m name := by
  intro m hm
  rw [fetchOneHandle, Act.after, Act.ops_look_bind, Act.result_look_bind]
  by_cases hHere : (m (file name)).isSome = true
  · rw [if_pos hHere]
    refine ⟨by simp, hm, fun got hGot => ?_⟩
    cases hGot
    exact ⟨rfl, hHere⟩
  · rw [if_neg hHere]
    cases hAnswer : e.answer with
    | notFound => exact ⟨by simp, hm, fun got hGot => by cases hGot⟩
    | failed => exact ⟨by simp, hm, fun got hGot => by cases hGot⟩
    | bytes content =>
      have hServed := hFair.served content hAnswer
      by_cases hDir : e.createDirFails = true
      · simp only [hDir, if_true]
        exact ⟨by simp, hm, fun got hGot => by cases hGot⟩
      · simp only [hDir]
        cases hFault : e.fault with
        | none =>
          have hSaved := hm.save hSame (s := ⟨name, content⟩) hServed
          refine ⟨fun s hs => ?_, hSaved.1, fun got hGot => ?_⟩
          · obtain rfl := List.mem_singleton.mp hs
            exact hServed
          · cases hGot
            exact ⟨rfl, hSaved.2⟩
        | opening =>
          exact ⟨fun s hs => absurd hs List.not_mem_nil, hm, fun got hGot => by cases hGot⟩
        | after n => exact absurd hFault (hFair.whole n)

variable (serves) in
/-- What one step of a page keeps. -/
def Steps {A : Type} (names : List String)
    (f : Landing → A → Act (mediaDir file) (Except Failure Landing)) : Prop :=
  ∀ l a, Act.Holds (Served serves) (Holding file serves (names ++ l.files)) (f l a)
    fun res m => Holding file serves names m ∧
      ∀ l', res = .ok l' → Holding file serves (names ++ l'.files) m

theorem mem_put {k v : String} {l : List (String × String)} {p : String × String}
    (h : p ∈ put k v l) : p = (k, v) ∨ p ∈ l := by
  rcases List.mem_cons.mp h with h | h
  · exact .inl h
  · exact .inr (List.mem_filter.mp h).1

theorem map_put {k v n : String} {l : List (String × String)} (h : n ∈ (put k v l).map (·.2)) :
    n = v ∨ n ∈ l.map (·.2) := by
  obtain ⟨p, hp, rfl⟩ := List.mem_map.mp h
  rcases mem_put hp with rfl | hp
  · exact .inl rfl
  · exact .inr (List.mem_map_of_mem hp)

theorem of_lookup {k v : String} {l : List (String × String)} (h : l.lookup k = some v) :
    v ∈ l.map (·.2) := by
  induction l with
  | nil => cases h
  | cons p l ih =>
    rw [List.lookup_cons] at h
    split at h
    · cases h
      exact List.mem_cons_self
    · exact List.mem_cons_of_mem _ (ih h)

variable {lower : String → String} {env : Nat → String → Download}

omit [DecidableEq N] in
theorem Holding.same {l l' : Landing} (h : Holding file serves (names ++ l.files) m)
    (hNames : l'.files ⊆ l.files) : Holding file serves (names ++ l'.files) m :=
  h.sub fun _ hn => List.mem_append.mpr ((List.mem_append.mp hn).imp_right fun h => hNames h)

theorem holds_same {l l' : Landing} (hNames : l'.files ⊆ l.files) :
    Act.Holds (Served serves) (Holding file serves (names ++ l.files))
      (pure (.ok l') : Act (mediaDir file) (Except Failure Landing))
      fun res m => Holding file serves names m ∧
        ∀ l'', res = .ok l'' → Holding file serves (names ++ l''.files) m := by
  refine Act.holds_pure fun m h => ⟨h.sub (List.subset_append_left _ _), fun l'' hEq => ?_⟩
  cases hEq
  exact h.same hNames

theorem holds_land (hSame : SameFile file serves)
    (hFair : ∀ k name, (env k name).Fair serves name) (l : Landing) (id name : String) :
    Act.Holds (Served serves) (Holding file serves (names ++ l.files))
      (land file lower env l id name) fun res m => Holding file serves names m ∧
        ∀ l', res = .ok l' → Holding file serves (names ++ l'.files) m := by
  rw [land]
  cases hKnown : l.landed.lookup (lower name) with
  | some known =>
    refine holds_same fun n hn => ?_
    rcases List.mem_append.mp hn with hn | hn
    · exact List.mem_append_left _ hn
    · rcases map_put hn with rfl | hn
      · exact List.mem_append_left _ (of_lookup hKnown)
      · exact List.mem_append_right _ hn
  | none =>
    refine Act.Holds.bind (holds_fetchOneHandle hSame (hFair l.asked name)) fun res => ?_
    rcases res with e | _ | got
    · exact Act.holds_pure fun m h =>
        ⟨h.1.sub (List.subset_append_left _ _), fun _ hEq => by cases hEq⟩
    · refine Act.holds_pure fun m h =>
        ⟨h.1.sub (List.subset_append_left _ _), fun l' hEq => ?_⟩
      cases hEq
      exact h.1.same fun _ hn => hn
    · refine Act.holds_pure fun m h =>
        ⟨h.1.sub (List.subset_append_left _ _), fun l' hEq => ?_⟩
      cases hEq
      obtain ⟨rfl, hHas⟩ := h.2 got rfl
      refine (h.1.cons hHas).sub fun n hn => ?_
      rcases List.mem_append.mp hn with hn | hn
      · exact List.mem_cons_of_mem _ (List.mem_append_left _ hn)
      · rcases List.mem_append.mp hn with hn | hn
        · rcases map_put hn with rfl | hn
          · exact List.mem_cons_self
          · exact List.mem_cons_of_mem _ (List.mem_append_right _ (List.mem_append_left _ hn))
        · rcases map_put hn with rfl | hn
          · exact List.mem_cons_self
          · exact List.mem_cons_of_mem _ (List.mem_append_right _ (List.mem_append_right _ hn))

theorem holds_each {A : Type} {f : Landing → A → Act (mediaDir file) (Except Failure Landing)}
    (hf : Steps serves names f) (as : List A) (l : Landing) :
    Act.Holds (Served serves) (Holding file serves (names ++ l.files)) (each file f as l)
      fun res m => Holding file serves names m ∧
        ∀ l', res = .ok l' → Holding file serves (names ++ l'.files) m := by
  induction as generalizing l with
  | nil => exact holds_same fun _ hn => hn
  | cons a as ih =>
    refine Act.Holds.bind (hf l a) fun res => ?_
    cases res with
    | error e => exact Act.holds_pure fun m h => ⟨h.1, fun _ hEq => by cases hEq⟩
    | ok l' => exact (ih l').mono (fun m h => h.2 l' rfl) fun _ _ h => h

theorem steps_fastOne (hSame : SameFile file serves)
    (hFair : ∀ k name, (env k name).Fair serves name) :
    Steps serves names (fastOne file lower env) := by
  intro l a
  rw [fastOne]
  split
  · exact holds_same fun _ hn => hn
  · split
    · exact holds_same fun _ hn => hn
    · exact holds_land hSame hFair l _ _

theorem steps_slowOne (hSame : SameFile file serves)
    (hFair : ∀ k name, (env k name).Fair serves name) :
    Steps serves names (slowOne file lower env) := by
  intro l b
  rw [slowOne]
  split
  · exact holds_same fun _ hn => hn
  · split_ifs
    · exact holds_same fun _ hn => hn
    · exact holds_same fun _ hn => hn
    · exact holds_same fun _ hn => hn
    · exact holds_same fun _ hn => hn
    · exact holds_land hSame hFair l _ _

theorem holds_slowLoop (hSame : SameFile file serves)
    (hFair : ∀ k name, (env k name).Fair serves name)
    (answers : List (MediaQuery → Except Failure Backfill)) (q : MediaQuery) (l : Landing) :
    Act.Holds (Served serves) (Holding file serves (names ++ l.files))
      (slowLoop file lower env q answers l) fun res m => Holding file serves names m ∧
        ∀ l', res = .ok l' → Holding file serves (names ++ l'.files) m := by
  have hError : ∀ e : Failure, Act.Holds (Served serves) (Holding file serves (names ++ l.files))
      (pure (.error e) : Act (mediaDir file) (Except Failure Landing))
      fun res m => Holding file serves names m ∧
        ∀ l', res = .ok l' → Holding file serves (names ++ l'.files) m :=
    fun e => Act.holds_pure fun m h =>
      ⟨h.sub (List.subset_append_left _ _), fun _ hEq => by cases hEq⟩
  induction answers generalizing q l with
  | nil => exact hError .other
  | cons answer rest ih =>
    rw [slowLoop]
    split
    · exact hError _
    · refine Act.Holds.bind (holds_each (steps_slowOne hSame hFair) _ l) fun res => ?_
      cases res with
      | error e => exact Act.holds_pure fun m h => ⟨h.1, fun _ hEq => by cases hEq⟩
      | ok l' =>
        dsimp only
        split
        · exact (holds_same fun _ hn => hn).mono (fun m h => h.2 l' rfl) fun _ _ h => h
        · refine (ih _ l' fun e => ?_).mono (fun m h => h.2 l' rfl) fun _ _ h => h
          exact Act.holds_pure fun m h =>
            ⟨h.sub (List.subset_append_left _ _), fun _ hEq => by cases hEq⟩

/-- The files of the messages of a page are in the directory. -/
theorem holds_mediaForPage (hSame : SameFile file serves)
    (hFair : ∀ k name, (env k name).Fair serves name) (talker : String)
    (answers : List (MediaQuery → Except Failure Backfill)) (page : List PullMessage) :
    Act.Holds (Served serves) (Holding file serves names)
      (mediaForPage file lower env talker answers page) fun res m =>
        Holding file serves names m ∧
          ∀ got, res = .ok got → Holding file serves (names ++ got.1.map (·.2)) m := by
  have hSteps : Steps serves names (fastOne file lower env) := steps_fastOne hSame hFair
  have hStart := holds_each hSteps page .start
  have hNil : names ++ Landing.start.files = names := List.append_nil names
  have hDone : ∀ l : Landing, Act.Holds (Served serves)
      (fun m => Holding file serves names m ∧ Holding file serves (names ++ l.files) m)
      (pure (.ok (l.byMessage, l.rejected.length)) :
        Act (mediaDir file) (Except Failure (List (String × String) × Nat)))
      fun res m => Holding file serves names m ∧
        ∀ got, res = .ok got → Holding file serves (names ++ got.1.map (·.2)) m := by
    refine fun l => Act.holds_pure fun m h => ⟨h.1, fun got hEq => ?_⟩
    cases hEq
    exact h.2.sub fun _ hn => List.mem_append.mpr
      ((List.mem_append.mp hn).imp_right fun h => List.mem_append_right _ h)
  rw [hNil] at hStart
  refine Act.Holds.bind hStart fun res => ?_
  cases res with
  | error e => exact Act.holds_pure fun m h => ⟨h.1, fun _ hEq => by cases hEq⟩
  | ok l =>
    dsimp only
    split
    · exact (hDone l).mono (fun m h => ⟨h.1, h.2 l rfl⟩) fun _ _ h => h
    · refine Act.Holds.bind ((holds_slowLoop hSame hFair answers _ l).mono
        (fun m h => h.2 l rfl) fun _ _ h => h) fun res => ?_
      cases res with
      | error e => exact Act.holds_pure fun m h => ⟨h.1, fun _ hEq => by cases hEq⟩
      | ok l' => exact (hDone l').mono (fun m h => ⟨h.1, h.2 l' rfl⟩) fun _ _ h => h

/-- The media names of a page of rows are in the directory. -/
def RowsHere (file : String → N) (m : MediaDir N) (rows : List Row) : Prop :=
  ∀ r ∈ rows, ∀ name ∈ r.mediaFileName, Has file m name

theorem holds_loadPage (hSame : SameFile file serves)
    (hFair : ∀ k name, (env k name).Fair serves name) (talker : String)
    (answers : List (MediaQuery → Except Failure Backfill)) (page : List PullMessage) :
    Act.Holds (Served serves) (Holding file serves names)
      (loadPage file lower env talker answers page) fun res m =>
        Holding file serves names m ∧ ∀ rows, res = .ok rows → RowsHere file m rows := by
  refine Act.Holds.bind (holds_mediaForPage hSame hFair talker answers page) fun res => ?_
  cases res with
  | error e => exact Act.holds_pure fun m h => ⟨h.1, fun _ hEq => by cases hEq⟩
  | ok got =>
    refine Act.holds_pure fun m h => ⟨h.1, fun rows hEq r hr name hName => ?_⟩
    cases hEq
    obtain ⟨msg, -, rfl⟩ := List.mem_map.mp hr
    rw [retainDownloadedMedia] at hName
    split at hName
    · exact (h.2 got rfl).has name (List.mem_append_right _ (of_lookup hName))
    · rename_i hNone
      rw [Option.mem_def] at hName
      rw [hName] at hNone
      exact absurd rfl hNone

end

end Weflow.Export
