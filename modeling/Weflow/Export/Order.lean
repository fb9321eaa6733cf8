import Weflow.Export.Verdicts
import Weflow.Server.Chatlab

/-!
# The order of an exported conversation

The fetch of `run_export` in `cli.rs`: a loop over the pages of the pull face, each of which is
handed to `SessionWriter::page`. The pull face serves the rows by time, sequence and local id; the
writer sorts each page again, by time and message id. No page splits a second, so the file is in
the order of the writer as a whole (`exported_in_order`), and rows that share a second are not in
the order in which they were served (`second_reordered`).
-/

namespace Weflow.Export

open Chatlab (PullMessage pullMessage)
open Effects
open Json (Value)
open Pull (PullEnvelope ascending drain handler pullQuery Drained)

/-- `row_from_pull` -/
def rowFromPull (m : PullMessage) : Row where
  platformMessageId := m.platformMessageId
  sender := m.sender
  accountName := m.accountName
  groupNickname := m.groupNickname
  timestamp := Int64.ofInt m.timestamp
  msgType := Int64.ofInt m.type
  content := m.content
  replyToMessageId := m.replyToMessageId
  mediaFileName := (m.media.map (·.fileName)).filter (· ≠ "")
  mediaType := m.media.map (·.type)

/-- `retain_downloaded_media`: the name under which the media of the message was stored. -/
def retainDownloadedMedia (downloaded : String → Option String) (r : Row) : Row :=
  if r.mediaFileName.isSome then { r with mediaFileName := downloaded r.platformMessageId } else r

/-- What the fetch of a session meets: the server, and for each page what its media come to and
which of its lines cannot be written. -/
structure PullEnv where
  store : Store
  limits : Nat → Option Nat
  clock : Nat → Int
  handles : Nat → String → Option String
  downloaded : Nat → Except Failure (String → Option String)
  fails : Nat → Nat → Bool

namespace PullEnv

variable (x : PullEnv) (withMedia : Bool) (talker : String)

/-- The rows of page `i`. -/
def rows (i : Nat) (messages : List MessageRecord) : Except Failure (List Row) :=
  let pulled := messages.map fun m => rowFromPull (pullMessage x.store talker (x.handles i) m)
  if withMedia then (x.downloaded i).map fun got => pulled.map (retainDownloadedMedia got)
  else .ok pulled

/-- The end of the loop: an error of the writer is kept until then. -/
def ended : Option Failure → Except Failure Unit
  | none => .ok ()
  | some e => .error e

def failureOf : Except Failure Unit → Option Failure
  | .ok _ => none
  | .error e => some e

/-- The loop from page `i` on. After an error of the writer the pages are only skipped. -/
def fetch : Nat → Nat → Option Int → Nat → Option Failure → Fetch
  | 0, _, _, _, _ => .done (.error .other)
  | fuel + 1, i, since, offset, writeErr =>
    match handler x.store talker (pullQuery since offset (x.limits i) none) (x.clock i) with
    | .error _ => .done (.error .other)
    | .ok page =>
      let goOn (writeErr : Option Failure) : Fetch :=
        if page.sync.hasMore then
          fetch fuel (i + 1) (some page.sync.nextSince) page.sync.nextOffset writeErr
        else .done (ended writeErr)
      if page.messages = [] then .done (ended writeErr)
      else
        match writeErr with
        | some e => goOn (some e)
        | none =>
          match x.rows withMedia talker i page.messages with
          | .error e => .done (.error e)
          | .ok rows => .page rows (x.fails i) fun answer => goOn (failureOf answer)

/-- The whole loop. -/
def session (since : Option Int) : Fetch :=
  x.fetch withMedia talker ((x.store.conv talker).length + 1) 0 since 0 none

/-! ## What the loop hands over -/

/-- A row without the name of its media, which depends on the page. -/
def bare (r : Row) : Row := { r with mediaFileName := none }

/-- The row of a record. -/
def rowOf (m : MessageRecord) : Row :=
  rowFromPull (pullMessage x.store talker (fun _ => none) m)

/-- The rows of a page. -/
def Served (page : PullEnvelope) (rows : List Row) : Prop :=
  rows.map bare = page.messages.map fun m => bare (x.rowOf talker m)

variable {x withMedia talker} {fuel i : Nat} {since : Option Int} {offset : Nat}

theorem bare_retain (got : String → Option String) (r : Row) :
    bare (retainDownloadedMedia got r) = bare r := by
  rw [retainDownloadedMedia]
  split <;> rfl

theorem served_pulled (x : PullEnv) (talker : String) (i : Nat) (messages : List MessageRecord) :
    (messages.map fun m => rowFromPull (pullMessage x.store talker (x.handles i) m)).map bare =
      messages.map fun m => bare (x.rowOf talker m) := by
  rw [List.map_map]
  apply List.map_congr_left
  intro m _
  simp only [Function.comp_apply, rowOf, rowFromPull, pullMessage]

theorem served_rows {page : PullEnvelope} {rows : List Row}
    (h : x.rows withMedia talker i page.messages = .ok rows) : x.Served talker page rows := by
  have hPulled := served_pulled x talker i page.messages
  rw [PullEnv.rows] at h
  rw [Served, ← hPulled]
  generalize (page.messages.map fun m =>
    rowFromPull (pullMessage x.store talker (x.handles i) m)) = pulled at h
  split at h
  · cases hGot : x.downloaded i with
    | error e =>
      rw [hGot] at h
      cases h
    | ok got =>
      rw [hGot] at h
      have hRows : pulled.map (retainDownloadedMedia got) = rows := Except.ok.inj h
      rw [← hRows, List.map_map]
      exact List.map_congr_left fun r _ => bare_retain got r
  · rw [Except.ok.inj h]

theorem fails_fetch (e : Failure) :
    (x.fetch withMedia talker fuel i since offset (some e)).Fails := by
  induction fuel generalizing i since offset with
  | zero => exact ⟨.other, rfl⟩
  | succ fuel ih =>
    rw [fetch]
    split
    · exact ⟨.other, rfl⟩
    · dsimp only
      split
      · exact ⟨e, rfl⟩
      · split
        · exact ih
        · exact ⟨e, rfl⟩

theorem honest_fetch (writeErr : Option Failure) :
    (x.fetch withMedia talker fuel i since offset writeErr).Honest := by
  induction fuel generalizing i since offset writeErr with
  | zero => exact trivial
  | succ fuel ih =>
    rw [fetch]
    split
    · exact trivial
    · dsimp only
      split
      · exact trivial
      · split
        · split
          · exact ih _
          · exact trivial
        · split
          · exact trivial
          · refine ⟨?_, fun e => ?_⟩
            · split
              · exact ih _
              · exact trivial
            · split
              · exact fails_fetch e
              · exact ⟨e, rfl⟩

/-- A page with more behind it is not empty. -/
theorem messages_of_more {rows : List MessageRecord} {watermark : Int} {limit : Nat}
    (hMore : (Pull.envelope rows since watermark limit offset).sync.hasMore = true) :
    (Pull.envelope rows since watermark limit offset).messages ≠ [] := by
  intro hNil
  have hPage : Pull.pageAt limit offset rows = [] := hNil
  have hLess := of_decide_eq_true hMore
  rw [hPage, List.length_nil] at hLess
  rw [Pull.pageAt] at hPage
  have hRest : rows.drop (offset ⊓ rows.length) = [] := by
    by_contra hNe
    exact GroupPage.page_ne_nil hNe hPage
  rw [List.drop_eq_nil_iff] at hRest
  omega

theorem messages_of_hasMore {query : Map String} {now : Int} {page : PullEnvelope}
    (h : handler x.store talker query now = .ok page) (hMore : page.sync.hasMore = true) :
    page.messages ≠ [] := by
  rw [handler] at h
  split at h
  · cases h
  · cases h
    exact messages_of_more hMore

theorem verdict_fails {f : Fetch} (h : f.Fails)
    (answer : List Row → (Nat → Bool) → Except Failure Unit) :
    (f.verdict answer).1 ≠ .ok () := by
  induction f with
  | done result =>
    obtain ⟨e, rfl⟩ := h
    exact fun hOk => by cases hOk
  | page rows fails next ih => exact ih _ (h _)

/-- Without an error the loop hands over the pages of the drain. -/
theorem verdict_fetch {envelopes : List PullEnvelope}
    {answer : List Row → (Nat → Bool) → Except Failure Unit}
    (hDrain : drain x.store talker none x.limits x.clock fuel i since offset =
      some (.ok envelopes))
    (hOk : ((x.fetch withMedia talker fuel i since offset none).verdict answer).1 = .ok ()) :
    List.Forall₂ (x.Served talker) (envelopes.filter (·.messages ≠ []))
      ((x.fetch withMedia talker fuel i since offset none).verdict answer).2 := by
  induction fuel generalizing i since offset envelopes with
  | zero => cases hDrain
  | succ fuel ih =>
    rw [drain] at hDrain
    rw [fetch] at hOk ⊢
    cases hPage : handler x.store talker (pullQuery since offset (x.limits i) none) (x.clock i) with
    | error e =>
      rw [hPage] at hDrain
      cases hDrain
    | ok page =>
      simp only [hPage] at hDrain hOk ⊢
      by_cases hEmpty : page.messages = []
      · have hLast : page.sync.hasMore = false := by
          rw [Bool.eq_false_iff]
          exact fun hMore => messages_of_hasMore hPage hMore hEmpty
        rw [hLast] at hDrain
        cases hDrain
        simp only [hEmpty, if_true]
        rw [List.filter_cons_of_neg (by simp [hEmpty])]
        exact .nil
      · simp only [if_neg hEmpty] at hOk ⊢
        cases hRows : x.rows withMedia talker i page.messages with
        | error e =>
          rw [hRows] at hOk
          cases hOk
        | ok rows =>
          simp only [hRows, Fetch.verdict] at hOk ⊢
          have hServed := served_rows hRows
          cases hAnswer : answer rows (x.fails i) with
          | error e =>
            rw [hAnswer] at hOk
            refine absurd hOk (verdict_fails ?_ answer)
            simp only [failureOf]
            split
            · exact fails_fetch e
            · exact ⟨e, rfl⟩
          | ok u =>
            simp only [hAnswer, failureOf] at hOk ⊢
            cases hMore : page.sync.hasMore with
            | true =>
              rw [hMore] at hDrain hOk
              simp only [if_true] at hDrain hOk ⊢
              obtain ⟨result, hRest, hEq⟩ := Option.map_eq_some_iff.mp hDrain
              cases result with
              | error e => cases hEq
              | ok rest =>
                cases hEq
                rw [List.filter_cons_of_pos (by simp [hEmpty])]
                exact .cons hServed (ih hRest hOk)
            | false =>
              rw [hMore] at hDrain
              cases hDrain
              rw [List.filter_cons_of_pos (by simp [hEmpty])]
              exact .cons hServed .nil

/-- When no call fails, the loop ends without an error. -/
theorem verdict_fetch_calm {envelopes : List PullEnvelope}
    (hDownloads : withMedia = true → ∀ i, ∃ got, x.downloaded i = .ok got)
    (hDrain : drain x.store talker none x.limits x.clock fuel i since offset =
      some (.ok envelopes)) :
    ((x.fetch withMedia talker fuel i since offset none).verdict fun _ _ => .ok ()).1 = .ok () := by
  induction fuel generalizing i since offset envelopes with
  | zero => cases hDrain
  | succ fuel ih =>
    rw [drain] at hDrain
    rw [fetch]
    cases hPage : handler x.store talker (pullQuery since offset (x.limits i) none) (x.clock i) with
    | error e =>
      rw [hPage] at hDrain
      cases hDrain
    | ok page =>
      simp only [hPage] at hDrain ⊢
      by_cases hEmpty : page.messages = []
      · simp only [hEmpty, if_true]
        rfl
      · obtain ⟨rows, hRows⟩ : ∃ rows, x.rows withMedia talker i page.messages = .ok rows := by
          rw [PullEnv.rows]
          split
          · rename_i hMedia
            obtain ⟨got, hGot⟩ := hDownloads hMedia i
            rw [hGot]
            exact ⟨_, rfl⟩
          · exact ⟨_, rfl⟩
        simp only [if_neg hEmpty, hRows, Fetch.verdict, failureOf]
        cases hMore : page.sync.hasMore with
        | true =>
          rw [hMore] at hDrain
          simp only [if_true] at hDrain ⊢
          obtain ⟨result, hRest, hEq⟩ := Option.map_eq_some_iff.mp hDrain
          cases result with
          | error e => cases hEq
          | ok rest => exact ih hRest
        | false => rfl

/-! ## The order of the rows -/

theorem timestamp_of_served {page : PullEnvelope} {rows : List Row}
    (h : x.Served talker page rows) {r : Row} (hr : r ∈ rows) :
    ∃ m ∈ page.messages, r.timestamp = Int64.ofInt m.createTime := by
  have hBare : bare r ∈ page.messages.map fun m => bare (x.rowOf talker m) := by
    rw [← h]
    exact List.mem_map_of_mem hr
  obtain ⟨m, hm, hEq⟩ := List.mem_map.mp hBare
  have hTime := congrArg Row.timestamp hEq
  simp only [bare, rowOf, rowFromPull, pullMessage, Chatlab.messageFields] at hTime
  exact ⟨m, hm, hTime.symm⟩

theorem ofInt_lt {a b : Int} (ha : InI64 a) (hb : InI64 b) (hLt : a < b) :
    Int64.ofInt a < Int64.ofInt b := by
  obtain ⟨ha₁, ha₂⟩ := ha
  obtain ⟨hb₁, hb₂⟩ := hb
  rw [i64Min] at ha₁ hb₁
  rw [i64Max] at ha₂ hb₂
  rw [Int64.lt_iff_toInt_lt, Int64.toInt_ofInt_of_le (by omega) (by omega),
    Int64.toInt_ofInt_of_le (by omega) (by omega)]
  exact hLt

/-- Every page is in front of the later ones. -/
theorem pairwise_pages {envelopes : List PullEnvelope} {pages : List (List Row)}
    (h : List.Forall₂ (x.Served talker) envelopes pages)
    (hRange : ∀ p ∈ envelopes, ∀ m ∈ p.messages, InI64 m.createTime)
    (hBoundaries : envelopes.Pairwise fun p q =>
      ∀ a ∈ p.messages, ∀ b ∈ q.messages, a.createTime < b.createTime) :
    pages.Pairwise fun p q => ∀ a ∈ p, ∀ b ∈ q, rowLe a b := by
  induction h with
  | nil => exact .nil
  | @cons page rows envelopes pages hServed hRest ih =>
    obtain ⟨hFirst, hLater⟩ := List.pairwise_cons.mp hBoundaries
    refine List.pairwise_cons.mpr ⟨fun q hq a ha b hb => ?_,
      ih (fun p hp => hRange p (List.mem_cons_of_mem page hp)) hLater⟩
    obtain ⟨p, hp, hServed'⟩ : ∃ p ∈ envelopes, x.Served talker p q := by
      clear ih hFirst hLater hBoundaries hRange
      induction hRest with
      | nil => cases hq
      | @cons p r _ _ hIt _ ih =>
        rcases List.mem_cons.mp hq with rfl | hq
        · exact ⟨p, List.mem_cons_self, hIt⟩
        · obtain ⟨p', hp', hIt'⟩ := ih hq
          exact ⟨p', List.mem_cons_of_mem p hp', hIt'⟩
    obtain ⟨m, hm, hTime⟩ := timestamp_of_served hServed ha
    obtain ⟨m', hm', hTime'⟩ := timestamp_of_served hServed' hb
    left
    rw [hTime, hTime']
    exact ofInt_lt (hRange page List.mem_cons_self m hm)
      (hRange p (List.mem_cons_of_mem page hp) m' hm') (hFirst p hp m hm m' hm')

/-- All the rows, in the order in which they were served. -/
theorem flatten_pages {envelopes : List PullEnvelope} {pages : List (List Row)}
    (h : List.Forall₂ (x.Served talker) (envelopes.filter (·.messages ≠ [])) pages) :
    pages.flatten.map bare =
      (envelopes.flatMap PullEnvelope.messages).map fun m => bare (x.rowOf talker m) := by
  have hFilter : envelopes.flatMap PullEnvelope.messages =
      (envelopes.filter (·.messages ≠ [])).flatMap PullEnvelope.messages := by
    clear h
    induction envelopes with
    | nil => rfl
    | cons p envelopes ih =>
      by_cases hEmpty : p.messages = []
      · rw [List.filter_cons_of_neg (by simp [hEmpty]), List.flatMap_cons, hEmpty, ih]
        rfl
      · rw [List.filter_cons_of_pos (by simp [hEmpty]), List.flatMap_cons, List.flatMap_cons, ih]
  rw [hFilter]
  generalize envelopes.filter (·.messages ≠ []) = served at h
  induction h with
  | nil => rfl
  | cons hServed _ ih =>
    rw [List.flatten_cons, List.map_append, List.flatMap_cons, List.map_append, ih, hServed]

end PullEnv

/-! ## The file -/

section

variable {K : Type} [DecidableEq K] {H : Host K} {target : SessionTarget} {opts : Options}
  {env : SessionEnv} {stem : String} {d : Files.Disk K}

/-- A session that is written had a fetch without an error, and got what it handed over. -/
theorem exportSession_fetched {n : UInt64}
    (h : ((exportSession H target opts env stem).result d).1 = .ok n) :
    (env.fetch.verdict (pageAnswer H.json opts.format opts.secret)).1 = .ok () ∧
      ((exportSession H target opts env stem).result d).2 =
        (env.fetch.verdict (pageAnswer H.json opts.format opts.secret)).2 := by
  rw [exportSession, Act.result_bind] at h ⊢
  rcases SessionWriter.begin_verdict H target opts env stem d with ⟨w, hBegin, hNext, -⟩ |
    ⟨e, hBegin, -⟩
  · rw [hBegin] at h ⊢
    dsimp only at h ⊢
    rw [Act.result_bind] at h ⊢
    obtain ⟨hResult, hPages, -⟩ := SessionWriter.drive_verdict H env.fetch hNext.fits
      ((SessionWriter.begin H target opts env stem).after d)
    have hFormat : w.format = opts.format := hNext.format
    have hSecret : w.secret = opts.secret := hNext.secret
    rw [hFormat, hSecret] at hResult hPages
    rw [← hResult, ← hPages]
    cases hDrive : ((w.drive H env.fetch).result
        ((SessionWriter.begin H target opts env stem).after d)).1 with
    | error e =>
      rw [hDrive] at h
      cases h
    | ok u => exact ⟨rfl, rfl⟩
  · rw [hBegin] at h
    cases h

/-- The file of a session that is written holds the rows of its pages. -/
theorem exportSession_complete (hHonest : env.fetch.Honest) {n : UInt64}
    (h : ((exportSession H target opts env stem).result d).1 = .ok n) :
    ∃ bytes,
      (exportSession H target opts env stem).after d (H.key (opts.path H stem)) =
        some (.file bytes) ∧
      Complete H.json opts.format target env.now
        (writtenRows (env.fetch.verdict (pageAnswer H.json opts.format opts.secret)).2) bytes ∧
      n = UInt64.ofNat
        (writtenRows (env.fetch.verdict (pageAnswer H.json opts.format opts.secret)).2).length := by
  have hEnd := exportSession_end H target opts env stem d
  obtain ⟨-, hPages⟩ := exportSession_fetched h
  rw [h, hPages] at hEnd
  obtain _ | ⟨n, before, bytes, -, hOps, hFile, hComplete⟩ := hEnd
  obtain ⟨hAll, hCount⟩ := hComplete hHonest
  refine ⟨bytes, ?_, hAll, hCount⟩
  rw [Act.after, hOps, replay_append]
  exact (Function.update_self _ _ _).trans hFile

open PullEnv (bare)

variable (target opts env stem d) in
/-- An exported conversation holds every row once, in the order of time and message id; rows that
agree in both stay in the order in which they were served. -/
theorem exported_in_order (x : PullEnv) (since : Option Int)
    (hFetch : env.fetch = x.session opts.withMedia target.talker since)
    (hKnown : x.store.conversationKnown target.talker = true)
    (hRows : ∀ r ∈ x.store.conv target.talker, InI64 r.createTime)
    (hSince : ∀ n ∈ since, InI64 n ∧ ¬ EightDigits n)
    (hLow : since = none → ∀ r ∈ x.store.conv target.talker, i64Min < r.createTime)
    (hCursors : ∀ r ∈ ascending x.store target.talker since none,
      ∀ r' ∈ ascending x.store target.talker since none,
        r.createTime < r'.createTime → ¬ EightDigits r.createTime) :
    ((opts.withMedia = true → ∀ i, ∃ got, x.downloaded i = .ok got) →
        (env.fetch.verdict fun _ _ => .ok ()).1 = .ok ()) ∧
      ∀ n, ((exportSession H target opts env stem).result d).1 = .ok n →
        ∃ pulled bytes,
          pulled.map bare = (ascending x.store target.talker since none).map
            (fun m => bare (x.rowOf target.talker m)) ∧
          (exportSession H target opts env stem).after d (H.key (opts.path H stem)) =
            some (.file bytes) ∧
          Complete H.json opts.format target env.now (sortPage pulled) bytes ∧
          n = UInt64.ofNat pulled.length := by
  have hRange : ∀ r ∈ ascending x.store target.talker since none, InI64 r.createTime :=
    fun r hr => hRows r (Pull.mem_ascending.mp hr).1
  have hAbove : ∀ r ∈ ascending x.store target.talker since none,
      since.getD i64Min < r.createTime := by
    intro r hr
    obtain ⟨hConv, hWindow⟩ := Pull.mem_ascending.mp hr
    cases hSome : since with
    | none => exact hLow hSome r hConv
    | some n =>
      rw [hSome] at hWindow
      simp only [Pull.inWindow, Option.all_some, Bool.and_eq_true, decide_eq_true_eq] at hWindow
      exact hWindow.1
  have hFuel : (ascending x.store target.talker since none).length <
      (x.store.conv target.talker).length + 1 := by
    rw [ascending, Keyset.length_sortBy]
    exact Nat.lt_succ_of_le (List.length_filter_le _ _)
  obtain ⟨envelopes, hDrain, hDrained⟩ := Pull.drain_from hKnown none (by simp) x.limits x.clock _ 0
    since hSince hAbove (fun r hr r' hr' hLt => ⟨hRange r hr, hCursors r hr r' hr' hLt⟩) hFuel
  refine ⟨fun hDownloads => ?_, fun n hWritten => ?_⟩
  · rw [hFetch]
    exact PullEnv.verdict_fetch_calm hDownloads hDrain
  have hHonest : env.fetch.Honest := by
    rw [hFetch]
    exact PullEnv.honest_fetch none
  obtain ⟨bytes, hFile, hAll, hCount⟩ := exportSession_complete hHonest hWritten
  obtain ⟨hOk, -⟩ := exportSession_fetched hWritten
  rw [hFetch] at hOk hAll hCount
  have hServed := PullEnv.verdict_fetch hDrain hOk
  rw [← PullEnv.session] at hServed
  generalize ((x.session opts.withMedia target.talker since).verdict
    (pageAnswer H.json opts.format opts.secret)).2 = pages at hAll hCount hServed
  have hFilter : (envelopes.filter (·.messages ≠ [])).Sublist envelopes := List.filter_sublist
  have hPairwise := PullEnv.pairwise_pages hServed
    (fun p hp m hm => hRange m (by
      rw [← hDrained.rows_eq]
      exact List.mem_flatMap.mpr ⟨p, hFilter.subset hp, hm⟩))
    (hDrained.boundaries.sublist hFilter)
  have hSorted : writtenRows pages = sortPage pages.flatten :=
    GroupPage.flatMap_insertionSort hPairwise
  have hFlatten := PullEnv.flatten_pages hServed
  rw [hDrained.rows_eq] at hFlatten
  rw [hSorted] at hAll hCount
  refine ⟨pages.flatten, bytes, hFlatten, hFile, hAll, ?_⟩
  rw [hCount, (sortPage_perm _).length_eq]

end

/-! ## Small conversations -/

open PullEnv (bare)

/-- A record with a server id and a place in its second. -/
def sequenced (serverId sortSeq : Int) (createTime : Int) : MessageRecord :=
  ⟨sortSeq, serverId, 1, createTime, sortSeq, false, "u", "u", .text "", ⟨"", ""⟩⟩

/-- A server with these rows, which gives one second a page. -/
def smallPull (rows : List MessageRecord) : PullEnv where
  store := Pull.storeOf "u" rows
  limits _ := some 1
  clock _ := 1700000009
  handles _ _ := none
  downloaded _ := .ok fun _ => none
  fails _ _ := false

def smallSession (rows : List MessageRecord) :
    Io unixHost (Except Failure UInt64 × List (List Row)) :=
  exportSession unixHost ⟨"u", "U"⟩ (plainOptions .jsonl false)
    (.calm ((smallPull rows).session false "u" none)) "U"

/-- What the session leaves under its name. -/
def smallFile (rows : List MessageRecord) : Option Files.Entry :=
  (smallSession rows).after emptyDisk (unixHost.key ((plainOptions .jsonl false).path unixHost "U"))

/-- The session of `rows` leaves a file that holds the rows `written`. -/
def Leaves (rows written : List MessageRecord) : Prop :=
  ∃ bytes, smallFile rows = some (.file bytes) ∧
    readLines Json.text bytes =
      some (sessionLines ⟨"u", "U"⟩ 100 (written.map ((smallPull rows).rowOf "u")))

theorem leaves {rows written : List MessageRecord} {n : UInt64}
    (hWritten : ((smallSession rows).result emptyDisk).1 = .ok n)
    (hRows : writtenRows (((smallPull rows).session false "u" none).verdict
      (pageAnswer Json.text .jsonl "")).2 = written.map ((smallPull rows).rowOf "u")) :
    Leaves rows written := by
  obtain ⟨bytes, hFile, hComplete, -⟩ :=
    exportSession_complete (PullEnv.honest_fetch none) hWritten
  exact ⟨bytes, hFile, hRows ▸ hComplete⟩

/-- Two rows of one second, the first one with the greater message id. -/
def twins : List MessageRecord := [sequenced 2 1 1700000000, sequenced 1 2 1700000000]

theorem exported_in_order_twins :
    ((false = true → ∀ i, ∃ got, (smallPull twins).downloaded i = .ok got) →
        (((smallPull twins).session false "u" none).verdict fun _ _ => .ok ()).1 = .ok ()) ∧
      ∀ n, ((smallSession twins).result emptyDisk).1 = .ok n →
        ∃ pulled bytes,
          pulled.map bare = (ascending (smallPull twins).store "u" none none).map
            (fun m => bare ((smallPull twins).rowOf "u" m)) ∧
          smallFile twins = some (.file bytes) ∧
          Complete Json.text .jsonl ⟨"u", "U"⟩ 100 (sortPage pulled) bytes ∧
          n = UInt64.ofNat pulled.length :=
  exported_in_order ⟨"u", "U"⟩ (plainOptions .jsonl false)
    (.calm ((smallPull twins).session false "u" none)) "U" emptyDisk (smallPull twins) none rfl
    (by decide) (by decide) (by decide) (by decide) (by decide)

/-- The rows of a second are written by message id, whatever the order they were served in. Further
pages lose rows where a cursor reads as a date, and where it is the least one. -/
theorem second_reordered :
    (ascending (smallPull twins).store "u" none none = twins ∧ Leaves twins twins.reverse) ∧
      Leaves [sequenced 1 1 20240101, sequenced 2 2 20240102] [sequenced 1 1 20240101] ∧
      Leaves [sequenced 1 1 i64Min, sequenced 2 2 0, sequenced 3 3 1]
        [sequenced 1 1 i64Min, sequenced 3 3 1] :=
  ⟨⟨by decide, leaves (n := 2) (by decide +kernel) (by decide +kernel)⟩,
    leaves (n := 1) (by decide +kernel) (by decide +kernel),
    leaves (n := 2) (by decide +kernel) (by decide +kernel)⟩

end Weflow.Export
