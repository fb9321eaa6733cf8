import Weflow.Lib.GroupPage
import Weflow.Lib.Keyset
import Weflow.Server.Params

/-!
# The pull endpoint and its cursor loop

`handler` of `server/handlers/chatlab_pull.rs`, with the request and the loop of the client
(`pull_page` and `drain_session`). A page is served as the records it is made from; how a
record becomes a message of the envelope is left out.

`drain_exact` describes a whole drain of a fixed store: it ends after at most one request
more than there are rows, the pages concatenate to the rows of the window in order, and no
second is split. The cursor goes through text, and a cursor of eight digits is read as a date
(`parse_time_bound`), so the rows before the last second must not stand at such a second.
-/

namespace Weflow.Pull

open Keyset (sortBy)

/-- `ApiError::not_found`. -/
structure ApiError where
  status : Nat
  message : String
deriving DecidableEq, Repr

/-- The `sync` block. -/
structure PullSync where
  hasMore : Bool
  nextSince : Int
  nextOffset : Nat
  watermark : Int
deriving DecidableEq, Repr

structure PullEnvelope where
  members : List String
  messages : List MessageRecord
  sync : PullSync
deriving DecidableEq, Repr

/-- The rows with `since < create_time <= end`. -/
def inWindow (since endBound : Option Int) (m : MessageRecord) : Bool :=
  since.all (fun s => s < m.createTime) && endBound.all fun e => m.createTime ≤ e

/-- The rows of the window, ascending. -/
def ascending (s : Store) (id : String) (since endBound : Option Int) : List MessageRecord :=
  sortBy MessageRecord.mark ((s.conv id).filter (inWindow since endBound))

/-- The page of the window that starts at `offset`. -/
def pageAt (limit offset : Nat) (rows : List MessageRecord) : List MessageRecord :=
  GroupPage.page MessageRecord.createTime limit (rows.drop (offset ⊓ rows.length))

/-- The answer over the rows of the window. -/
def envelope (rows : List MessageRecord) (since : Option Int) (watermark : Int)
    (limit offset : Nat) : PullEnvelope :=
  let start := offset ⊓ rows.length
  let page := pageAt limit offset rows
  let hasMore := start + page.length < rows.length
  let nextSince := (page.getLast?.map MessageRecord.createTime).getD (since.getD 0)
  { members := ((page.map MessageRecord.senderUsername).filter (· ≠ "")).reverse.dedup.reverse
    messages := page
    sync :=
      { hasMore
        nextSince := if hasMore then nextSince else watermark
        nextOffset := if hasMore ∧ nextSince ≤ since.getD i64Min then start + page.length else 0
        watermark } }

/-- `handler`; `now` is the wall clock in seconds. -/
def handler (s : Store) (id : String) (query : Map String) (now : Int) :
    Except ApiError PullEnvelope :=
  let since := (query.lookup "since").bind parseTimeBound
  let endBound := (query.lookup "end").bind parseTimeBoundEnd
  let limit := parseLimit query "limit" 5000 5000
  let offset := parseOffset query "offset"
  if s.conversationKnown id = false then
    .error ⟨404, "session '" ++ id ++ "' not found"⟩
  else
    .ok (envelope (ascending s id since endBound) since (endBound.getD now) limit offset)

/-! ## The client -/

/-- Set a query parameter if there is a value. -/
def setParam (query : Map String) (key : String) (value : Option String) : Map String :=
  match value with
  | some v => query.insert key v
  | none => query

/-- The query of one page request. -/
def pullQuery (since : Option Int) (offset : Nat) (limit : Option Nat) (endBound : Option Int) :
    Map String :=
  setParam
    (setParam
      (setParam (setParam ∅ "since" (since.map toString)) "offset"
        (if offset = 0 then none else some (toString offset)))
      "limit" (limit.map toString))
    "end" (endBound.map toString)

/-- One drain: request pages and echo both cursors while there is more. The requests are
numbered; request `i` asks for `limits i` rows at the second `clock i`. -/
def drain (s : Store) (id : String) (endBound : Option Int) (limits : Nat → Option Nat)
    (clock : Nat → Int) :
    Nat → Nat → Option Int → Nat → Option (Except ApiError (List PullEnvelope))
  | 0, _, _, _ => none
  | fuel + 1, i, since, offset =>
    match handler s id (pullQuery since offset (limits i) endBound) (clock i) with
    | .error e => some (.error e)
    | .ok page =>
      if page.sync.hasMore then
        (drain s id endBound limits clock fuel (i + 1) (some page.sync.nextSince)
          page.sync.nextOffset).map fun rest => rest.map (page :: ·)
      else some (.ok [page])

/-! ## One request -/

theorem lookup_setParam (query : Map String) (key : String) (value : Option String)
    (k : String) : (setParam query key value).lookup k =
      if k = key then value.or (query.lookup k) else query.lookup k := by
  unfold setParam
  split
  · split
    · rename_i h
      rw [h, AList.lookup_insert]
      rfl
    · rename_i h
      rw [AList.lookup_insert_ne h]
  · simp

section

variable {s : Store} {id : String} {since endBound : Option Int}

/-- A cursor that survives printing and reading. -/
def Echoes (n : Int) : Prop := InI64 n ∧ ¬ EightDigits n

theorem bind_parse_echo (hSince : ∀ n ∈ since, Echoes n) (endOfDay : Bool) :
    (since.map toString).bind (parseTimeBoundInner · endOfDay) = since := by
  cases since with
  | none => rfl
  | some n =>
    have := hSince n rfl
    simpa using parseTimeBoundInner_toString this.1 this.2 endOfDay

/-- What the server reads from the query of a client at offset zero. -/
theorem handler_pullQuery (hKnown : s.conversationKnown id = true)
    (hSince : ∀ n ∈ since, Echoes n) (hEnd : ∀ n ∈ endBound, Echoes n) (limit : Option Nat)
    (now : Int) : ∃ k, handler s id (pullQuery since 0 limit endBound) now =
      .ok (envelope (ascending s id since endBound) since (endBound.getD now) k 0) := by
  have hSinceQ : ((pullQuery since 0 limit endBound).lookup "since").bind parseTimeBound =
      since := by
    simp only [pullQuery, lookup_setParam]
    simpa [parseTimeBound] using bind_parse_echo hSince false
  have hEndQ : ((pullQuery since 0 limit endBound).lookup "end").bind parseTimeBoundEnd =
      endBound := by
    simp only [pullQuery, lookup_setParam]
    simpa [parseTimeBoundEnd] using bind_parse_echo hEnd true
  have hOffsetQ : parseOffset (pullQuery since 0 limit endBound) "offset" = 0 := by
    simp [parseOffset, pullQuery, lookup_setParam]
  refine ⟨parseLimit (pullQuery since 0 limit endBound) "limit" 5000 5000, ?_⟩
  unfold handler
  rw [hSinceQ, hEndQ, hOffsetQ, hKnown]
  rfl

theorem ascending_sorted (s : Store) (id : String) (since endBound : Option Int) :
    (ascending s id since endBound).Pairwise
    fun a b => a.createTime ≤ b.createTime := by
  refine (Keyset.pairwise_sortBy _ _).imp fun h => ?_
  rw [Watermark.le_iff] at h
  rcases h with h | h
  · exact h.le
  · exact h.1.le

theorem mem_ascending {m : MessageRecord} : m ∈ ascending s id since endBound ↔
    m ∈ s.conv id ∧ inWindow since endBound m = true := by
  rw [ascending, Keyset.mem_sortBy, List.mem_filter]

/-- Moving the lower bound up filters the rows. -/
theorem ascending_filter (s : Store) (id : String) (endBound : Option Int) {t : Int} (h : ∀ n ∈ since, n ≤ t) :
    ascending s id (some t) endBound =
      (ascending s id since endBound).filter fun m => t < m.createTime := by
  rw [ascending, ascending, Keyset.filter_sortBy, List.filter_filter]
  congr 1
  apply List.filter_congr
  intro m _
  cases since with
  | none => simp [inWindow]
  | some n =>
    have := h n rfl
    by_cases ht : t < m.createTime
    · have : n < m.createTime := by omega
      simp [inWindow, ht, this]
    · simp [inWindow, ht]

variable {rows : List MessageRecord} {watermark : Int} {k : Nat}

theorem messages_envelope :
    (envelope rows since watermark k 0).messages =
      GroupPage.page MessageRecord.createTime k rows := by
  simp [envelope, pageAt]

/-- The last page of a drain. -/
theorem envelope_last (h : (envelope rows since watermark k 0).sync.hasMore = false) :
    (envelope rows since watermark k 0).messages = rows ∧
      (envelope rows since watermark k 0).sync.nextSince = watermark ∧
      (envelope rows since watermark k 0).sync.nextOffset = 0 := by
  have hLen : ¬ (pageAt k 0 rows).length < rows.length := by
    simpa [envelope] using h
  refine ⟨?_, by simp [envelope, hLen], by simp [envelope, hLen]⟩
  have hSplit := GroupPage.page_append_drop MessageRecord.createTime k rows
  rw [messages_envelope]
  rw [pageAt, Nat.zero_min, List.drop_zero] at hLen
  conv_rhs => rw [← hSplit, List.drop_eq_nil_of_le (by omega), List.append_nil]

/-- A page with more behind it: the cursor is the second of its last row, and the rest is
what lies above that second. -/
theorem envelope_more (hSorted : rows.Pairwise fun a b => a.createTime ≤ b.createTime)
    (hLow : ∀ r ∈ rows, since.getD i64Min < r.createTime)
    (h : (envelope rows since watermark k 0).sync.hasMore = true) :
    ∃ z ∈ (envelope rows since watermark k 0).messages,
      (envelope rows since watermark k 0).sync.nextSince = z.createTime ∧
      (envelope rows since watermark k 0).sync.nextOffset = 0 ∧
      z ∈ rows ∧
      rows = (envelope rows since watermark k 0).messages ++
        rows.filter (fun m => z.createTime < m.createTime) ∧
      rows.filter (fun m => z.createTime < m.createTime) ≠ [] ∧
      ∀ m ∈ (envelope rows since watermark k 0).messages, m.createTime ≤ z.createTime := by
  have hLen : (GroupPage.page MessageRecord.createTime k rows).length < rows.length := by
    simpa [envelope, pageAt] using h
  have hNe : rows ≠ [] := by
    rintro rfl
    simp at hLen
  obtain ⟨z, hz⟩ : ∃ z, (GroupPage.page MessageRecord.createTime k rows).getLast? = some z :=
    Option.isSome_iff_exists.mp (by simpa using GroupPage.page_ne_nil hNe)
  have hzPage := List.mem_of_getLast? hz
  have hzRows : z ∈ rows := (GroupPage.page_prefix_rows _ _ rows).subset hzPage
  have hDrop := GroupPage.drop_page hSorted hz
  have hSplit := GroupPage.page_append_drop MessageRecord.createTime k rows
  rw [hDrop] at hSplit
  have hLowZ := hLow z hzRows
  rw [messages_envelope]
  refine ⟨z, hzPage, ?_, ?_, hzRows, hSplit.symm, ?_, ?_⟩
  · simp [envelope, pageAt, hLen, hz]
  · simp [envelope, pageAt, hz]
    omega
  · rw [← hDrop]
    intro hNil
    have := congrArg List.length hNil
    rw [List.length_drop, List.length_nil] at this
    omega
  · intro m hm
    have hPage := hSorted.sublist (GroupPage.page_prefix_rows MessageRecord.createTime k rows).sublist
    obtain ⟨pre, hPre⟩ := List.getLast?_eq_some_iff.mp hz
    rw [hPre] at hm hPage
    rcases List.mem_append.mp hm with hm | hm
    · exact (List.pairwise_append.mp hPage).2.2 m hm z (by simp)
    · rw [List.mem_singleton.mp hm]

end

/-! ## A whole drain -/

section

variable {s : Store} {id : String} {endBound : Option Int}

/-- What a drain delivers: the pages in order, none splitting a second, and the cursor it
ends with. -/
structure Drained (s : Store) (id : String) (since endBound : Option Int) (clock : Nat → Int)
    (first : Nat) (pages : List PullEnvelope) : Prop where
  rows_eq : pages.flatMap PullEnvelope.messages = ascending s id since endBound
  boundaries : pages.Pairwise fun p q =>
    ∀ a ∈ p.messages, ∀ b ∈ q.messages, a.createTime < b.createTime
  last : ∃ p n, pages.getLast? = some p ∧ pages.length = n + 1 ∧
    p.sync.nextSince = endBound.getD (clock (first + n)) ∧ p.sync.nextOffset = 0

/-- The seconds a page may end at: all but the last one of the window. -/
def CursorsEcho (rows : List MessageRecord) : Prop :=
  ∀ r ∈ rows, ∀ r' ∈ rows, r.createTime < r'.createTime → Echoes r.createTime

theorem drain_from (hKnown : s.conversationKnown id = true) (endBound : Option Int)
    (hEnd : ∀ n ∈ endBound, Echoes n) (limits : Nat → Option Nat) (clock : Nat → Int) (fuel i : Nat) (since : Option Int)
    (hSince : ∀ n ∈ since, Echoes n)
    (hLow : ∀ r ∈ ascending s id since endBound, since.getD i64Min < r.createTime)
    (hRows : CursorsEcho (ascending s id since endBound))
    (hFuel : (ascending s id since endBound).length < fuel) :
    ∃ pages, drain s id endBound limits clock fuel i since 0 = some (.ok pages) ∧
      Drained s id since endBound clock i pages := by
  induction fuel generalizing i since with
  | zero => omega
  | succ fuel ih =>
    obtain ⟨k, hPage⟩ := handler_pullQuery hKnown hSince hEnd (limits i) (clock i)
    have hSorted := ascending_sorted s id since endBound
    unfold drain
    rw [hPage]
    cases hMore : (envelope (ascending s id since endBound) since (endBound.getD (clock i)) k
        0).sync.hasMore with
    | false =>
      obtain ⟨hAll, hNext, hOffset⟩ := envelope_last hMore
      refine ⟨[envelope (ascending s id since endBound) since (endBound.getD (clock i)) k 0],
        by simp [hMore], ?_, by simp, ?_⟩
      · simpa using hAll
      · exact ⟨_, 0, rfl, rfl, hNext, hOffset⟩
    | true =>
      obtain ⟨z, hzPage, hNext, hOffset, hz, hSplit, hRest, hUpTo⟩ :=
        envelope_more hSorted hLow hMore
      have hzSince : ∀ n ∈ since, n ≤ z.createTime := by
        intro n hn
        have := hLow z hz
        rw [Option.mem_def.mp hn, Option.getD_some] at this
        exact this.le
      have hFilter := ascending_filter s id endBound hzSince
      obtain ⟨b, hb⟩ := List.exists_mem_of_ne_nil _ hRest
      have hbRows := List.mem_of_mem_filter hb
      have hzb : z.createTime < b.createTime := by simpa using (List.mem_filter.mp hb).2
      have hzEcho : Echoes z.createTime := hRows z hz b hbRows hzb
      have hShort : (ascending s id (some z.createTime) endBound).length < fuel := by
        have hLen := congrArg List.length hSplit
        rw [List.length_append, ← hFilter] at hLen
        have := List.length_pos_of_mem hzPage
        omega
      obtain ⟨pages, hDrain, hDrained⟩ := ih (i + 1) (some z.createTime)
        (fun n hn => by rw [← Option.some.inj hn]; exact hzEcho)
        (fun r hr => by
          rw [hFilter] at hr
          simpa using (List.mem_filter.mp hr).2)
        (fun r hr r' hr' hLt => by
          rw [hFilter] at hr hr'
          exact hRows r (List.mem_of_mem_filter hr) r' (List.mem_of_mem_filter hr') hLt)
        hShort
      refine ⟨envelope (ascending s id since endBound) since (endBound.getD (clock i)) k 0 ::
        pages, ?_, ?_, ?_, ?_⟩
      · simp [hMore, hNext, hOffset, hDrain]
        rfl
      · rw [List.flatMap_cons, hDrained.rows_eq, hFilter, ← hSplit]
      · refine List.pairwise_cons.mpr ⟨fun p hp a ha b hb => ?_, hDrained.boundaries⟩
        have hbRest : b ∈ ascending s id (some z.createTime) endBound := by
          rw [← hDrained.rows_eq]
          exact List.mem_flatMap.mpr ⟨p, hp, hb⟩
        rw [hFilter] at hbRest
        have hzb : z.createTime < b.createTime := by simpa using (List.mem_filter.mp hbRest).2
        exact (hUpTo a ha).trans_lt hzb
      · obtain ⟨p, n, hLast, hLen, hCursor, hZero⟩ := hDrained.last
        refine ⟨p, n + 1, ?_, ?_, ?_, hZero⟩
        · rw [List.getLast?_cons, hLast]
          rfl
        · rw [List.length_cons, hLen]
        · rw [hCursor]
          congr 2
          omega

/-- **A static drain is exact.** For a client that starts from unix seconds, with any limits
and any clock, the loop ends, no page boundary splits a second, and the pages concatenate to
the rows of the window in order. The seconds that are followed by another second of the window
are not printed with eight digits. -/
theorem drain_exact (s : Store) (id : String) (hKnown : s.conversationKnown id = true)
    (hI64 : ∀ r ∈ s.conv id, InI64 r.createTime) (since : Int) (endBound : Option Int)
    (hSince : InI64 since ∧ ¬ EightDigits since)
    (hEnd : ∀ e ∈ endBound, InI64 e ∧ ¬ EightDigits e)
    (hRows : ∀ r ∈ ascending s id (some since) endBound,
      ∀ r' ∈ ascending s id (some since) endBound,
        r.createTime < r'.createTime → ¬ EightDigits r.createTime)
    (limits : Nat → Option Nat) (clock : Nat → Int) :
    ∃ pages, drain s id endBound limits clock ((s.conv id).length + 1) 0 (some since) 0 =
        some (.ok pages) ∧
      pages.flatMap PullEnvelope.messages = sortBy MessageRecord.mark ((s.conv id).filter
        fun m => since < m.createTime ∧ ∀ e ∈ endBound, m.createTime ≤ e) ∧
      pages.Pairwise fun p q =>
        ∀ a ∈ p.messages, ∀ b ∈ q.messages, a.createTime ≠ b.createTime := by
  have hCursors : CursorsEcho (ascending s id (some since) endBound) := by
    intro r hr r' hr' hLt
    exact ⟨hI64 r (mem_ascending.mp hr).1, hRows r hr r' hr' hLt⟩
  have hLow : ∀ r ∈ ascending s id (some since) endBound,
      (some since).getD i64Min < r.createTime := by
    intro r hr
    have := (mem_ascending.mp hr).2
    simp only [inWindow, Option.all_some, Bool.and_eq_true, decide_eq_true_eq] at this
    exact this.1
  have hFuel : (ascending s id (some since) endBound).length < (s.conv id).length + 1 := by
    rw [ascending, Keyset.length_sortBy]
    exact Nat.lt_succ_of_le (List.length_filter_le _ _)
  obtain ⟨pages, hDrain, hDrained⟩ := drain_from hKnown endBound hEnd limits clock _ 0 (some since)
    (fun n hn => by rw [← Option.some.inj hn]; exact hSince) hLow hCursors hFuel
  refine ⟨pages, hDrain, ?_, hDrained.boundaries.imp fun h a ha b hb => (h a ha b hb).ne⟩
  rw [hDrained.rows_eq, ascending]
  congr 1
  apply List.filter_congr
  intro m _
  cases endBound <;> simp [inWindow]

end

/-! ## Runs on small conversations -/

/-- A record of the second `t`. -/
def recordAt (localId t : Int) : MessageRecord :=
  ⟨localId, 0, 1, t, 0, false, "wxid_a", "wxid_a", .text "", ⟨"", ""⟩⟩

/-- A store with one conversation. -/
def storeOf (id : String) (rows : List MessageRecord) : Store := ({} : Store).extendConv id rows

theorem drain_exact_two_seconds : ∃ pages, drain
      (storeOf "wxid_a" [recordAt 2 1700000000, recordAt 1 1700000000, recordAt 3 1700000005])
      "wxid_a" none (fun _ => some 1) (fun _ => 1700000009) 4 0 (some 0) 0 = some (.ok pages) ∧
    pages.flatMap PullEnvelope.messages = sortBy MessageRecord.mark
      (((storeOf "wxid_a" [recordAt 2 1700000000, recordAt 1 1700000000,
        recordAt 3 1700000005]).conv "wxid_a").filter
        fun m => 0 < m.createTime ∧ ∀ e ∈ (none : Option Int), m.createTime ≤ e) ∧
    pages.Pairwise fun p q =>
      ∀ a ∈ p.messages, ∀ b ∈ q.messages, a.createTime ≠ b.createTime :=
  drain_exact _ "wxid_a" (by decide) (by decide) 0 none (by decide) (by decide) (by decide) _ _

/-- Two rows, the first at a second of eight digits. -/
def dateSecondStore : Store :=
  storeOf "wxid_a" [recordAt 1 10000000, recordAt 2 10000001]

/-- The cursor `10000000` is read as the date of month 0, so as no bound at all. -/
theorem handler_dateSecond (since : Int) (h : since = 0 ∨ since = 10000000) :
    ∃ page, handler dateSecondStore "wxid_a" (pullQuery (some since) 0 (some 1) none) 0 =
        .ok page ∧
      page.sync.hasMore = true ∧ page.sync.nextSince = 10000000 ∧ page.sync.nextOffset = 0 := by
  rcases h with rfl | rfl
  · exact ⟨envelope (ascending dateSecondStore "wxid_a" (some 0) none) (some 0) 0 1 0,
      by decide, by decide, by decide, by decide⟩
  · exact ⟨envelope (ascending dateSecondStore "wxid_a" none none) none 0 1 0,
      by decide, by decide, by decide, by decide⟩

theorem drain_dateSecond_never_ends : ¬ ∃ fuel result,
    drain dateSecondStore "wxid_a" none (fun _ => some 1) (fun _ => 0) fuel 0 (some 0) 0 =
      some result := by
  have hNone : ∀ fuel i since, since = 0 ∨ since = 10000000 →
      drain dateSecondStore "wxid_a" none (fun _ => some 1) (fun _ => 0) fuel i (some since) 0 =
        none := by
    intro fuel
    induction fuel with
    | zero => intros; rfl
    | succ fuel ih =>
      intro i since h
      obtain ⟨page, hPage, hMore, hNext, hOffset⟩ := handler_dateSecond since h
      unfold drain
      rw [hPage]
      simp only [hMore, if_true, hNext, hOffset, ih (i + 1) 10000000 (.inr rfl), Option.map_none]
  rintro ⟨fuel, result, h⟩
  rw [hNone fuel 0 0 (.inl rfl)] at h
  cases h

end Weflow.Pull
