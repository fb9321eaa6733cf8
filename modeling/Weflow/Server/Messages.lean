import Weflow.Media.Export
import Weflow.Server.ChatlabPull

/-!
# The message faces and their media

`page_slice`, `collect_export_jobs` and the handlers of `server/handlers/messages.rs` and
`server/handlers/chatlab_messages.rs`, with `export_batch` of `media/export.rs`. A page is kept as
the records its indices point to, and a message of an answer as its record and its media.
`str::to_lowercase` is the parameter `lower`.

The export of one item is a parameter too: `exportOne k job` is what the `k`-th call of a request
returns. The results come back in a map from local ids, and a local id is unique in one table only,
so two messages of one page can get each other's results (`faces_exact_iff`).
-/

namespace Weflow.Messages

open Keyset (sortBy)
open Media (ExportedMedia)
open Pull (ApiError)

/-! ## The query and the page -/

structure MessageQuery where
  talker : String
  limit : Nat
  offset : Nat
  keyword : Option String
  start : Option Int
  stop : Option Int
  deriving DecidableEq

structure MessagePage where
  rows : List MessageRecord
  hasMore : Bool
  nextOffset : Nat
  deriving DecidableEq

section Query

variable (lower : String → String)

def fromParams (params : Map String) : Except ApiError MessageQuery :=
  match (params.lookup "talker").filter (· ≠ "") with
  | none => .error ⟨400, "talker is required"⟩
  | some talker =>
      .ok
        { talker
          limit := parseLimit params "limit" 100 10000
          offset := parseOffset params "offset"
          keyword := ((params.lookup "keyword").filter (· ≠ "")).map lower
          start := (params.lookup "start").bind parseTimeBound
          stop := (params.lookup "end").bind parseTimeBoundEnd }

/-- The cursor, where it is a number, takes the place of the offset. -/
def fromParamsWithCursor (params : Map String) : Except ApiError MessageQuery :=
  (fromParams lower params).map fun q =>
    { q with offset := ((params.lookup "cursor").bind parseUsize).getD q.offset }

/-- `str::contains` -/
def contains (text part : String) : Bool := text.toList.tails.any part.toList.isPrefixOf

def MessageQuery.selects (q : MessageQuery) (m : MessageRecord) : Bool :=
  q.start.all (fun s => s ≤ m.createTime) && q.stop.all (fun e => m.createTime ≤ e) &&
    q.keyword.all fun kw =>
      contains (lower m.parsed.parsedText) kw || contains (lower m.parsed.rawContent) kw

/-- The selected rows, the latest first; rows of one position stay in the order of the store. -/
def descending (q : MessageQuery) (rows : List MessageRecord) : List MessageRecord :=
  sortBy (fun m => OrderDual.toDual m.mark) (rows.filter (q.selects lower))

def pageSlice (s : Store) (q : MessageQuery) : Except ApiError MessagePage :=
  if s.conversationKnown q.talker = false then
    .error ⟨404, "conversation '" ++ q.talker ++ "' not found"⟩
  else
    let found := descending lower q (s.conv q.talker)
    let rows := (found.drop q.offset).take q.limit
    .ok ⟨rows, q.offset + rows.length < found.length, q.offset + rows.length⟩

end Query

/-! ## Export jobs -/

def mediaRequested (params : Map String) : Bool := flexBool params "media"

/-- Files are never exported; without a kind in the parameters all the others are. -/
def wantsKind (params : Map String) : MediaKind → Bool
  | .file => false
  | kind =>
      if [MediaKind.image, .voice, .video, .emoji].any fun k => flexBool params k.asStr then
        flexBool params kind.asStr
      else true

structure ExportJob where
  localId : Int
  kind : MediaKind
  md5 : Option String
  serverId : Int
  talker : String
  deriving DecidableEq

/-- The job of a message: its media is wanted, and it has an md5 or is a voice. -/
def jobOf (params : Map String) (talker : String) (m : MessageRecord) : Option ExportJob :=
  m.parsed.media.bind fun hint =>
    if wantsKind params hint.kind && (hint.md5.isSome || hint.kind == .voice) then
      some ⟨m.localId, hint.kind, hint.md5, m.serverId, talker⟩
    else none

/-- The bound on the work of one request. -/
def maxItems : Nat := 200

def collectExportJobs (params : Map String) (talker : String) (rows : List MessageRecord) :
    List ExportJob :=
  (rows.filterMap (jobOf params talker)).take maxItems

/-- A `HashMap<i64, ExportedMedia>` that is only read by key. -/
abbrev Results := Int → Option ExportedMedia

/-- What the calls of a request return. -/
structure Exporter where
  one : Nat → ExportJob → Option ExportedMedia
  panics : Bool

/-- The loop of the batch, from call `k` on. -/
def exportFrom (one : Nat → ExportJob → Option ExportedMedia) : Nat → Results → List ExportJob →
    Results
  | _, out, [] => out
  | k, out, job :: jobs =>
      exportFrom one (k + 1)
        (match one k job with
          | some media => Function.update out job.localId (some media)
          | none => out) jobs

def exportBatch (one : Nat → ExportJob → Option ExportedMedia) (jobs : List ExportJob) : Results :=
  exportFrom one 0 (fun _ => none) (jobs.take maxItems)

/-- A batch that panics counts as one without results. -/
def runExportBatch (e : Exporter) (jobs : List ExportJob) : Results :=
  if jobs = [] ∨ e.panics = true then fun _ => none else exportBatch e.one jobs

/-! ## The answers -/

structure MediaObject where
  exported : Option Bool
  fileName : String
  localPath : Option Media.DirPath
  md5 : Option String
  mediaId : Option String
  kind : String
  url : Option String
  deriving DecidableEq

structure MessageNative where
  record : MessageRecord
  media : Option MediaObject
  deriving DecidableEq

structure MediaBrief where
  fileName : String
  md5 : Option String
  kind : String
  deriving DecidableEq

structure ChatlabMessage where
  record : MessageRecord
  media : Option MediaBrief
  deriving DecidableEq

def exportedMediaUrl (fileName : String) : String := "/api/v1/media/" ++ fileName

/-- The media of a native message before the export. -/
def mediaObject (hint : MediaHint) : MediaObject :=
  ⟨none, hint.fileName, none, hint.md5, none, hint.kind.asStr, none⟩

def mediaBrief (hint : MediaHint) : MediaBrief := ⟨hint.fileName, hint.md5, hint.kind.asStr⟩

/-- The native media with the result of an export. -/
def MediaObject.fill (media : MediaObject) (res : ExportedMedia) : MediaObject :=
  let media := match res.externalUrl with
    | some url => { media with url := some (String.ofList url) }
    | none =>
        if res.digestNamed then
          { media with
            url := some (exportedMediaUrl (String.ofList res.fileName))
            mediaId := some (String.ofList res.fileName) }
        else media
  { media with
    localPath := if res.localPath = [] then none else some res.localPath
    exported := some true }

/-- The ChatLab media with the result of an export: the name of a file that can be fetched. -/
def MediaBrief.fill (media : MediaBrief) (res : ExportedMedia) : MediaBrief :=
  if res.externalUrl.isSome || !res.digestNamed then media
  else { media with fileName := String.ofList res.fileName }

/-- A native message, with the result it is given. -/
def native (m : MessageRecord) (res : Option ExportedMedia) : MessageNative :=
  ⟨m, m.parsed.media.map fun hint => res.elim (mediaObject hint) (mediaObject hint).fill⟩

/-- A ChatLab message, with the result it is given. -/
def chatlab (m : MessageRecord) (res : Option ExportedMedia) : ChatlabMessage :=
  ⟨m, m.parsed.media.map fun hint => res.elim (mediaBrief hint) (mediaBrief hint).fill⟩

/-- The results of a request over a page. -/
def exported (params : Map String) (e : Exporter) (talker : String) (rows : List MessageRecord) :
    Results :=
  runExportBatch e (if mediaRequested params then collectExportJobs params talker rows else [])

structure MessagesNative where
  count : Nat
  hasMore : Bool
  exportedCount : Nat
  messages : List MessageNative
  talker : String

structure ChatlabMessages where
  count : Nat
  members : List String
  messages : List ChatlabMessage
  nextCursor : Option Nat
  talker : String

variable (lower : String → String)

/-- The native face over a page. -/
def nativeFace (params : Map String) (e : Exporter) (talker : String) (page : MessagePage) :
    MessagesNative :=
  let results := exported params e talker page.rows
  { count := page.rows.length
    hasMore := page.hasMore
    exportedCount := page.rows.countP fun m =>
      m.parsed.media.isSome && (results m.localId).isSome
    messages := page.rows.map fun m => native m (results m.localId)
    talker }

/-- The ChatLab face over a page: the same rows in the order of time. -/
def chatlabFace (params : Map String) (e : Exporter) (talker : String) (page : MessagePage) :
    ChatlabMessages :=
  let results := exported params e talker page.rows
  { count := page.rows.length
    members := ((page.rows.reverse.map MessageRecord.senderUsername).filter (· ≠ "")).reverse.dedup.reverse
    messages := page.rows.reverse.map fun m => chatlab m (results m.localId)
    nextCursor := if page.hasMore then some page.nextOffset else none
    talker }

/-- `messages::handler` -/
def handler (s : Store) (params : Map String) (e : Exporter) : Except ApiError MessagesNative := do
  let q ← fromParams lower params
  let page ← pageSlice lower s q
  return nativeFace params e q.talker page

/-- `chatlab_messages::handler` -/
def chatlabHandler (s : Store) (params : Map String) (e : Exporter) :
    Except ApiError ChatlabMessages := do
  let q ← fromParamsWithCursor lower params
  let page ← pageSlice lower s q
  return chatlabFace params e q.talker page

/-! ## Own results -/

section Own

variable (params : Map String) (e : Exporter) (talker : String)

/-- The result of each message's own export, where `k` jobs came before: none without a job, for a
job that was cut off, and for one that failed. -/
def outcomes : Nat → List MessageRecord → List (Option ExportedMedia)
  | _, [] => []
  | k, m :: rows =>
      match jobOf params talker m with
      | none => none :: outcomes k rows
      | some job => (if k < maxItems then e.one k job else none) :: outcomes (k + 1) rows

/-- The messages of a page, each with the result of its own export. -/
def ownResults (rows : List MessageRecord) : List (MessageRecord × Option ExportedMedia) :=
  if mediaRequested params && !e.panics then rows.zip (outcomes params e talker 0 rows)
  else rows.map fun m => (m, none)

/-- The last result under a local id. -/
def lastResult : List (MessageRecord × Option ExportedMedia) → Results
  | [], _ => none
  | p :: rest, id => (lastResult rest id).or (if p.1.localId = id then p.2 else none)

variable {params e talker}

theorem localId_jobOf {m : MessageRecord} {job : ExportJob} (h : jobOf params talker m = some job) :
    job.localId = m.localId ∧ m.parsed.media.isSome = true := by
  obtain ⟨hint, hHint, hJob⟩ := Option.bind_eq_some_iff.mp h
  split at hJob
  · cases hJob
    exact ⟨rfl, by rw [hHint]; rfl⟩
  · cases hJob

theorem length_outcomes (k : Nat) (rows : List MessageRecord) :
    (outcomes params e talker k rows).length = rows.length := by
  induction rows generalizing k with
  | nil => rfl
  | cons m rows ih =>
    rw [outcomes]
    split <;> rw [List.length_cons, List.length_cons, ih]

/-- The map of a batch has the last result under each local id. -/
theorem exportFrom_eq (k : Nat) (out : Results) (rows : List MessageRecord) (id : Int) :
    exportFrom e.one k out ((rows.filterMap (jobOf params talker)).take (maxItems - k)) id =
      (lastResult (rows.zip (outcomes params e talker k rows)) id).or (out id) := by
  induction rows generalizing k out with
  | nil =>
    rw [List.filterMap_nil, List.take_nil]
    rfl
  | cons m rows ih =>
    cases hJob : jobOf params talker m with
    | none =>
      rw [List.filterMap_cons_none hJob, ih, outcomes, hJob, List.zip_cons_cons, lastResult,
        ite_self, Option.or_none]
    | some job =>
      rw [List.filterMap_cons_some hJob, outcomes, hJob, List.zip_cons_cons, lastResult]
      dsimp only
      by_cases hRoom : k < maxItems
      · have hTake : maxItems - k = maxItems - (k + 1) + 1 := by omega
        rw [hTake, List.take_succ_cons, exportFrom, ih, if_pos hRoom, Option.or_assoc]
        congr 1
        have hId := (localId_jobOf hJob).1
        cases hOne : e.one k job with
        | none =>
          dsimp only
          rw [ite_self, Option.none_or]
        | some media =>
          dsimp only
          by_cases hSame : m.localId = id
          · rw [if_pos hSame, hId, hSame, Function.update_self, Option.some_or]
          · rw [if_neg hSame, hId, Function.update_of_ne (Ne.symm hSame), Option.none_or]
      · have hRest := ih (k + 1) out
        have hNow : maxItems - k = 0 := by omega
        have hNext : maxItems - (k + 1) = 0 := by omega
        rw [hNext, List.take_zero] at hRest
        rw [hNow, List.take_zero, if_neg hRoom, ite_self, Option.or_none, ← hRest]
        rfl

theorem exported_eq (rows : List MessageRecord) (id : Int) :
    exported params e talker rows id = lastResult (ownResults params e talker rows) id := by
  have hNone : lastResult (rows.map fun m => (m, none)) id = none := by
    induction rows with
    | nil => rfl
    | cons m rows ih =>
      rw [List.map_cons, lastResult, ih, ite_self]
      rfl
  unfold exported runExportBatch ownResults
  by_cases hMedia : mediaRequested params = true
  · rw [if_pos hMedia, hMedia, Bool.true_and]
    by_cases hPanics : e.panics = true
    · rw [if_pos (Or.inr hPanics), hPanics, if_neg (by decide), hNone]
    · have hBatch : exportFrom e.one 0 (fun _ => none)
          ((rows.filterMap (jobOf params talker)).take (maxItems - 0)) id =
          lastResult (rows.zip (outcomes params e talker 0 rows)) id := by
        rw [exportFrom_eq, Option.or_none]
      rw [Bool.not_eq_true] at hPanics
      rw [hPanics, if_pos (by decide : (!false) = true), ← hBatch]
      by_cases hEmpty : collectExportJobs params talker rows = []
      · rw [if_pos (Or.inl hEmpty)]
        rw [collectExportJobs] at hEmpty
        rw [Nat.sub_zero, hEmpty, exportFrom]
      · have hRuns : ¬ (collectExportJobs params talker rows = [] ∨ (false : Bool) = true) := by
          rintro (h | h)
          · exact hEmpty h
          · cases h
        rw [if_neg hRuns, exportBatch, collectExportJobs, List.take_take, Nat.min_self,
          Nat.sub_zero]
  · rw [Bool.not_eq_true] at hMedia
    rw [hMedia, Bool.false_and, if_neg Bool.false_ne_true, if_pos (Or.inl rfl),
      if_neg Bool.false_ne_true, hNone]

/-- What is under a local id is the own result of a message with that id. -/
theorem lastResult_some {pairs : List (MessageRecord × Option ExportedMedia)} {id : Int}
    {res : ExportedMedia} (h : lastResult pairs id = some res) :
    ∃ p ∈ pairs, p.1.localId = id ∧ p.2 = some res := by
  induction pairs with
  | nil => cases h
  | cons p rest ih =>
    rw [lastResult, Option.or_eq_some_iff] at h
    rcases h with h | ⟨-, h⟩
    · obtain ⟨p', hp', hFound⟩ := ih h
      exact ⟨p', List.mem_cons_of_mem _ hp', hFound⟩
    · split at h
      · exact ⟨p, List.mem_cons_self, by assumption, h⟩
      · cases h

theorem lastResult_none {pairs : List (MessageRecord × Option ExportedMedia)} {id : Int}
    (h : lastResult pairs id = none) : ∀ p ∈ pairs, p.1.localId = id → p.2 = none := by
  induction pairs with
  | nil =>
    intro p hp
    cases hp
  | cons p rest ih =>
    rw [lastResult, Option.or_eq_none_iff] at h
    intro p' hp' hId
    rcases List.mem_cons.mp hp' with rfl | hp'
    · rw [if_pos hId] at h
      exact h.2
    · exact ih h.1 p' hp' hId

/-- Only messages with media have results. -/
theorem media_of_outcome {k : Nat} {rows : List MessageRecord} :
    ∀ p ∈ rows.zip (outcomes params e talker k rows), p.2.isSome = true →
      p.1.parsed.media.isSome = true := by
  induction rows generalizing k with
  | nil =>
    intro p hp
    cases hp
  | cons m rows ih =>
    intro p hp hSome
    rw [outcomes] at hp
    cases hJob : jobOf params talker m with
    | none =>
      rw [hJob, List.zip_cons_cons] at hp
      rcases List.mem_cons.mp hp with rfl | hp
      · cases hSome
      · exact ih p hp hSome
    | some job =>
      rw [hJob, List.zip_cons_cons] at hp
      rcases List.mem_cons.mp hp with rfl | hp
      · exact (localId_jobOf hJob).2
      · exact ih p hp hSome

theorem media_of_ownResults {rows : List MessageRecord} {p : MessageRecord × Option ExportedMedia}
    (hp : p ∈ ownResults params e talker rows) (hSome : p.2.isSome = true) :
    p.1.parsed.media.isSome = true := by
  unfold ownResults at hp
  split at hp
  · exact media_of_outcome p hp hSome
  · obtain ⟨m, -, rfl⟩ := List.mem_map.mp hp
    cases hSome

theorem map_fst_ownResults (rows : List MessageRecord) :
    (ownResults params e talker rows).map Prod.fst = rows := by
  unfold ownResults
  split
  · rw [List.map_fst_zip (by rw [length_outcomes])]
  · rw [List.map_map]
    exact List.map_id rows

end Own

/-! ## Whose result a message shows -/

/-- What a native message shows of a result. -/
structure Mark where
  url : Option String
  mediaId : Option String
  localPath : Option Media.DirPath
  deriving DecidableEq

def mark (res : ExportedMedia) : Mark :=
  { url := match res.externalUrl with
      | some url => some (String.ofList url)
      | none => if res.digestNamed then some (exportedMediaUrl (String.ofList res.fileName)) else none
    mediaId := match res.externalUrl with
      | some _ => none
      | none => if res.digestNamed then some (String.ofList res.fileName) else none
    localPath := if res.localPath = [] then none else some res.localPath }

/-- The native media with what is shown of a result. -/
def shown (hint : MediaHint) : Option Mark → MediaObject
  | none => mediaObject hint
  | some mk =>
      ⟨some true, hint.fileName, mk.localPath, hint.md5, mk.mediaId, hint.kind.asStr, mk.url⟩

/-- The ChatLab media with what is shown of a result. -/
def shownBrief (hint : MediaHint) : Option Mark → MediaBrief
  | none => mediaBrief hint
  | some mk => ⟨mk.mediaId.getD hint.fileName, hint.md5, hint.kind.asStr⟩

theorem native_eq (m : MessageRecord) (res : Option ExportedMedia) :
    native m res = ⟨m, m.parsed.media.map fun hint => shown hint (res.map mark)⟩ := by
  have hFill : ∀ hint, res.elim (mediaObject hint) (mediaObject hint).fill =
      shown hint (res.map mark) := by
    intro hint
    cases res with
    | none => rfl
    | some res =>
      change (mediaObject hint).fill res = shown hint (some (mark res))
      unfold MediaObject.fill mark
      cases res.externalUrl with
      | some url => rfl
      | none => cases res.digestNamed <;> rfl
  rw [native]
  simp only [hFill]

theorem chatlab_eq (m : MessageRecord) (res : Option ExportedMedia) :
    chatlab m res = ⟨m, m.parsed.media.map fun hint => shownBrief hint (res.map mark)⟩ := by
  have hFill : ∀ hint, res.elim (mediaBrief hint) (mediaBrief hint).fill =
      shownBrief hint (res.map mark) := by
    intro hint
    cases res with
    | none => rfl
    | some res =>
      change (mediaBrief hint).fill res = shownBrief hint (some (mark res))
      unfold MediaBrief.fill mark
      cases res.externalUrl with
      | some url => rfl
      | none => cases res.digestNamed <;> rfl
  rw [chatlab]
  simp only [hFill]

theorem shown_injective (hint : MediaHint) : Function.Injective (shown hint) := by
  intro a b h
  cases a with
  | none =>
    cases b with
    | none => rfl
    | some mk => exact absurd (congrArg MediaObject.exported h) (by simp [shown, mediaObject])
  | some mk =>
    cases b with
    | none => exact absurd (congrArg MediaObject.exported h) (by simp [shown, mediaObject])
    | some mk' =>
      have hUrl : mk.url = mk'.url := congrArg MediaObject.url h
      have hId : mk.mediaId = mk'.mediaId := congrArg MediaObject.mediaId h
      have hPath : mk.localPath = mk'.localPath := congrArg MediaObject.localPath h
      cases mk
      cases mk'
      rw [Option.some.injEq, Mark.mk.injEq]
      exact ⟨hUrl, hId, hPath⟩

/-- A native message tells results apart by what it shows of them. -/
theorem native_eq_iff {m : MessageRecord} (hMedia : m.parsed.media.isSome = true)
    (res res' : Option ExportedMedia) :
    native m res = native m res' ↔ res.map mark = res'.map mark := by
  obtain ⟨hint, hHint⟩ := Option.isSome_iff_exists.mp hMedia
  rw [native_eq, native_eq, hHint]
  constructor
  · intro h
    have hMedia := congrArg MessageNative.media h
    rw [Option.map_some, Option.map_some, Option.some.injEq] at hMedia
    exact shown_injective hint hMedia
  · intro h
    rw [h]

/-- Messages with media and one local id show the same of their own results. -/
def Unswapped (pairs : List (MessageRecord × Option ExportedMedia)) : Prop :=
  ∀ p ∈ pairs, ∀ p' ∈ pairs, p.1.parsed.media.isSome = true → p'.1.parsed.media.isSome = true →
    p.1.localId = p'.1.localId → p.2.map mark = p'.2.map mark

/-- Both faces give every message of a page its own result exactly when no two messages of the
page with one local id have results that differ. -/
theorem faces_exact_iff (params : Map String) (e : Exporter) (talker : String) (page : MessagePage) :
    ((nativeFace params e talker page).messages =
        (ownResults params e talker page.rows).map (fun p => native p.1 p.2) ∧
      (chatlabFace params e talker page).messages =
        (ownResults params e talker page.rows).reverse.map fun p => chatlab p.1 p.2) ↔
    Unswapped (ownResults params e talker page.rows) := by
  generalize hPairs : ownResults params e talker page.rows = pairs
  have hRows : page.rows = pairs.map Prod.fst := by
    rw [← hPairs, map_fst_ownResults]
  have hResults : ∀ id, exported params e talker page.rows id = lastResult pairs id := by
    intro id
    rw [exported_eq, hPairs]
  have hNative : (nativeFace params e talker page).messages =
      pairs.map fun p => native p.1 (lastResult pairs p.1.localId) := by
    simp only [nativeFace, hResults]
    rw [hRows, List.map_map]
    rfl
  have hChatlab : (chatlabFace params e talker page).messages =
      pairs.reverse.map fun p => chatlab p.1 (lastResult pairs p.1.localId) := by
    simp only [chatlabFace, hResults]
    rw [hRows, ← List.map_reverse, List.map_map]
    rfl
  have hHas : ∀ p ∈ pairs, p.2.isSome = true → p.1.parsed.media.isSome = true := by
    intro p hp
    rw [← hPairs] at hp
    exact media_of_ownResults hp
  rw [hNative, hChatlab, List.map_inj_left, List.map_inj_left]
  constructor
  · rintro ⟨hOwn, -⟩ p hp p' hp' hMedia hMedia' hId
    have hFirst := (native_eq_iff hMedia _ _).mp (hOwn p hp)
    have hSecond := (native_eq_iff hMedia' _ _).mp (hOwn p' hp')
    rw [← hFirst, ← hSecond, hId]
  · intro hUnswapped
    have hSame : ∀ p ∈ pairs, p.1.parsed.media.isSome = true →
        (lastResult pairs p.1.localId).map mark = p.2.map mark := by
      intro p hp hMedia
      cases hLast : lastResult pairs p.1.localId with
      | none => rw [lastResult_none hLast p hp rfl]
      | some res =>
        obtain ⟨p', hp', hId, hRes⟩ := lastResult_some hLast
        rw [← hRes]
        exact hUnswapped p' hp' p hp (hHas p' hp' (by rw [hRes]; rfl)) hMedia hId
    have hWithout : ∀ m : MessageRecord, ¬ m.parsed.media.isSome = true → m.parsed.media = none := by
      intro m h
      rwa [Option.not_isSome_iff_eq_none] at h
    refine ⟨fun p hp => ?_, fun p hp => ?_⟩
    · by_cases hMedia : p.1.parsed.media.isSome = true
      · exact (native_eq_iff hMedia _ _).mpr (hSame p hp hMedia)
      · rw [native_eq, native_eq, hWithout _ hMedia]
        rfl
    · by_cases hMedia : p.1.parsed.media.isSome = true
      · rw [chatlab_eq, chatlab_eq, hSame p (List.mem_reverse.mp hp) hMedia]
      · rw [chatlab_eq, chatlab_eq, hWithout _ hMedia]
        rfl

/-! ## Two shards, one local id -/

/-- An image of the conversation's table in one of its files. -/
def imageRow (rel md5 : String) (t : Int) : MessageRecord :=
  ⟨7, t, 3, t, 0, false, "wxid_a", "wxid_a",
    { ParsedMsg.text "[image]" with media := some ⟨.image, md5 ++ ".jpg", some md5, none⟩ },
    ⟨rel, "Msg_a"⟩⟩

/-- A conversation of two files, each with its row 7. -/
def twinStore : Store :=
  Pull.storeOf "wxid_a"
    [imageRow "message_0.db" "0a" 1700000000, imageRow "message_1.db" "0b" 1700000005]

def mediaParams : Map String := ((∅ : Map String).insert "talker" "wxid_a").insert "media" "1"

/-- Every image is found and written under its md5. -/
def findsAll : Exporter :=
  ⟨fun _ job => job.md5.map fun md5 => ⟨(md5 ++ ".jpg").toList, ['i'], [(md5 ++ ".jpg").toList], none,
    true⟩, false⟩

theorem twin_ids_swapped : ∃ page,
    (fromParams id mediaParams).bind (pageSlice id twinStore) = .ok page ∧
    ¬ ((nativeFace mediaParams findsAll "wxid_a" page).messages =
      (ownResults mediaParams findsAll "wxid_a" page.rows).map fun p => native p.1 p.2) := by
  refine ⟨⟨[imageRow "message_1.db" "0b" 1700000005, imageRow "message_0.db" "0a" 1700000000],
    false, 2⟩, ?_, ?_⟩
  · decide
  · decide

end Weflow.Messages
