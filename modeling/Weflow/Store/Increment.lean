import Weflow.Store.Index

/-!
# Bulk load followed by incremental pages of one table

One table is loaded as `build_all_live` loads it and then read page by page as `poll_once`
does, while rows are appended in the order of the read. A page is *exact* when it goes on
where the rows returned so far end and, if it is not full, returns everything there is.

`read_new` compares the order key of a row with the watermark of the last record. In a table
without a sequence column these are tuples of different shape, so a page selects the last
second again. `PageOk` says when a page is exact; `readExact_iff` proves that it is the exact
condition for one page, `increment_exact_iff` for every page of a run.
-/

namespace Weflow.Increment

/-- One message table between reads: the committed rows, the records returned so far and the
stored watermark. -/
structure Feed where
  rows : List MsgRow
  out : List MessageRecord
  wm : Watermark

/-- What happens to the table: a commit appends rows, a read returns one page. -/
inductive Op
  | commit (rows : List MsgRow)
  | read (uids : AList fun _ : Int => String)

/-- The cursor of the drain loop moves with every row of a page. -/
def advance (wm : Watermark) (page : List MessageRecord) : Watermark :=
  page.foldl (fun _ r => r.mark) wm

/-- The feed after the bulk load of a table; the build takes the larger of the stored
watermark (none yet) and the watermark of the table. -/
def start (x : Codec) (o : WmKey) (cols : List String) (rows : List MsgRow)
    (uids : AList fun _ : Int => String) (contacts : Map Contact) (me : String) : Feed :=
  match loadMessageTable x o cols rows uids contacts me with
  | .ok (records, wm) => ⟨rows, records, maxWatermark .zero wm⟩
  | .error _ => ⟨rows, [], .zero⟩

def Feed.commit (f : Feed) (rows : List MsgRow) : Feed := { f with rows := f.rows ++ rows }

/-- The records of the next page. -/
def Feed.page (x : Codec) (o : WmKey) (cols : List String) (f : Feed)
    (uids : AList fun _ : Int => String) : List MessageRecord :=
  match readNew x o cols f.rows f.wm uids with
  | .ok records => records
  | .error _ => []

def Feed.read (x : Codec) (o : WmKey) (cols : List String) (f : Feed)
    (uids : AList fun _ : Int => String) : Feed :=
  let page := f.page x o cols uids
  { f with out := f.out ++ page, wm := advance f.wm page }

/-- `P` holds of the feed before every read of the run. -/
def AllReads (x : Codec) (o : WmKey) (cols : List String)
    (P : Feed → (AList fun _ : Int => String) → Prop) : Feed → List Op → Prop
  | _, [] => True
  | f, .commit rows :: ops => AllReads x o cols P (f.commit rows) ops
  | f, .read uids :: ops => P f uids ∧ AllReads x o cols P (f.read x o cols uids) ops

/-- The rows a run commits. -/
def committed : List Op → List MsgRow
  | [] => []
  | .commit rows :: ops => rows ++ committed ops
  | .read _ :: ops => committed ops

/-- The source rows of a list of table rows, in order. -/
def sources (c : MsgCols) (o : WmKey) (rows : List MsgRow) : List SourceRow :=
  rows.map (c.sourceRow o)

/-- A watermark in the order of the read. -/
def markOrder (c : MsgCols) (wm : Watermark) : Watermark :=
  ⟨wm.createTime, if c.seq.isSome then wm.sortSeq else wm.localId, wm.localId⟩

/-- The page continues the rows returned so far, returns everything unless it is full, and
a full page advances the watermark in the order of the read. -/
structure ReadExact (x : Codec) (o : WmKey) (cols : List String) (c : MsgCols) (f : Feed)
    (uids : AList fun _ : Int => String) : Prop where
  continues : (f.read x o cols uids).out.map MessageRecord.sourceRow <+: sources c o f.rows
  drained : (f.page x o cols uids).length < readPage →
    (f.read x o cols uids).out.map MessageRecord.sourceRow = sources c o f.rows
  advances : (f.page x o cols uids).length = readPage →
    markOrder c f.wm < markOrder c (f.read x o cols uids).wm

/-- The rows already returned, and those still waiting. -/
def returned (f : Feed) : List MsgRow := f.rows.take f.out.length

def waiting (f : Feed) : List MsgRow := f.rows.drop f.out.length

/-- When a page is read exactly: no waiting row has a key at or below zero, and in a table
without a sequence column the last returned row, if the watermark is its own, has a
`local_id` that is not positive and no waiting row of its second has a negative one. -/
def PageOk (c : MsgCols) (f : Feed) : Prop :=
  (∀ r ∈ waiting f, Watermark.zero < c.orderKey r) ∧
    (c.seq = none → ∀ w, (returned f).getLast? = some w → Watermark.zero < c.mark w →
      w.localId ≤ 0 ∧ ∀ r ∈ waiting f, r.createTime = w.createTime → 0 ≤ r.localId)

/-- What every run keeps: the rows returned are the first committed ones, and the watermark
is the mark of the last of them, or zero if that is larger. -/
structure Inv (c : MsgCols) (o : WmKey) (f : Feed) : Prop where
  sorted : f.rows.Pairwise fun a b => c.orderKey a < c.orderKey b
  out_eq : f.out.map MessageRecord.sourceRow = sources c o (returned f)
  wm_eq : f.wm = (((returned f).getLast?).map fun w => max .zero (c.mark w)).getD .zero

/-! ## Order keys and marks -/

section

variable {c : MsgCols} {o : WmKey}

/-- The order key is determined by the source row. -/
def sourceKey (c : MsgCols) (s : SourceRow) : Watermark :=
  ⟨s.createTime, if c.seq.isSome then s.sortSeq else s.localId, s.localId⟩

theorem sourceKey_sourceRow (hTime : c.time.isSome) (r : MsgRow) :
    sourceKey c (c.sourceRow o r) = c.orderKey r := by
  simp only [sourceKey, MsgCols.sourceRow, MsgCols.orderKey, hTime, if_true]
  split <;> simp_all

theorem markOrder_mark (hTime : c.time.isSome) (r : MsgRow) :
    markOrder c (c.mark r) = c.orderKey r := by
  simp only [markOrder, MsgCols.mark, MsgCols.orderKey, hTime, if_true]
  split <;> simp_all

theorem orderKey_noSeq (hTime : c.time.isSome) (hSeq : c.seq = none) (r : MsgRow) :
    c.orderKey r = ⟨r.createTime, r.localId, r.localId⟩ := by
  simp [MsgCols.orderKey, hTime, hSeq]

theorem mark_noSeq (hTime : c.time.isSome) (hSeq : c.seq = none) (r : MsgRow) :
    c.mark r = ⟨r.createTime, 0, r.localId⟩ := by
  simp [MsgCols.mark, hTime, hSeq]

/-- Marks follow order keys. -/
theorem mark_le_of_orderKey_le (hTime : c.time.isSome) {a b : MsgRow}
    (h : c.orderKey a ≤ c.orderKey b) : c.mark a ≤ c.mark b := by
  by_cases hSeq : c.seq.isSome
  · rwa [← MsgCols.orderKey_eq_mark ⟨hTime, hSeq⟩, ← MsgCols.orderKey_eq_mark ⟨hTime, hSeq⟩]
  · have hNone : c.seq = none := by simpa using hSeq
    rw [orderKey_noSeq hTime hNone, orderKey_noSeq hTime hNone, Watermark.le_iff] at h
    rw [mark_noSeq hTime hNone, mark_noSeq hTime hNone, Watermark.le_iff]
    simp only [lt_self_iff_false, false_or, true_and] at h ⊢
    omega

/-- A row above zero in the order of the read has a mark above zero, and conversely. -/
theorem zero_lt_mark_iff (hTime : c.time.isSome) (r : MsgRow) :
    Watermark.zero < c.mark r ↔ Watermark.zero < c.orderKey r := by
  by_cases hSeq : c.seq.isSome
  · rw [MsgCols.orderKey_eq_mark ⟨hTime, hSeq⟩]
  · have hNone : c.seq = none := by simpa using hSeq
    rw [orderKey_noSeq hTime hNone, mark_noSeq hTime hNone, Watermark.lt_iff, Watermark.lt_iff]
    simp only [Watermark.zero, lt_self_iff_false, false_or, true_and]
    omega

/-! ## One page -/

/-- The page selects exactly the waiting rows. -/
def Split (c : MsgCols) (f : Feed) : Prop :=
  (∀ r ∈ returned f, c.orderKey r ≤ f.wm) ∧ ∀ r ∈ waiting f, f.wm < c.orderKey r

theorem returned_append_waiting (f : Feed) : returned f ++ waiting f = f.rows :=
  List.take_append_drop _ _

theorem returned_lt_waiting {f : Feed} (h : Inv c o f) {a b : MsgRow} (ha : a ∈ returned f)
    (hb : b ∈ waiting f) : c.orderKey a < c.orderKey b := by
  have hSorted := h.sorted
  rw [← returned_append_waiting f] at hSorted
  exact (List.pairwise_append.mp hSorted).2.2 a ha b hb

/-- Every returned row is at or below the last one. -/
theorem orderKey_le_last {f : Feed} (h : Inv c o f) {w r : MsgRow}
    (hLast : (returned f).getLast? = some w) (hr : r ∈ returned f) :
    c.orderKey r ≤ c.orderKey w := by
  obtain ⟨p, hp⟩ := List.getLast?_eq_some_iff.mp hLast
  have hSorted := h.sorted
  rw [← returned_append_waiting f, hp] at hSorted
  have hLe := (List.pairwise_append.mp (List.pairwise_append.mp hSorted).1).2.2
  rw [hp] at hr
  rcases List.mem_append.mp hr with hr | hr
  · exact (hLe r hr w (by simp)).le
  · rw [List.mem_singleton.mp hr]

theorem split_iff_pageOk (hTime : c.time.isSome) {f : Feed} (h : Inv c o f) :
    Split c f ↔ PageOk c f := by
  have hWm := h.wm_eq
  cases hLast : (returned f).getLast? with
  | none =>
    -- nothing returned yet: the watermark is zero
    have hNil : returned f = [] := List.getLast?_eq_none_iff.mp hLast
    simp only [hLast, Option.map_none, Option.getD_none] at hWm
    simp [Split, PageOk, hNil, hWm]
  | some w =>
    have hMemLast : w ∈ returned f := List.mem_of_getLast? hLast
    simp only [hLast, Option.map_some, Option.getD_some] at hWm
    by_cases hSeq : c.seq.isSome
    · have hNe : c.seq ≠ none := by intro hn; simp [hn] at hSeq
      have hEq := MsgCols.orderKey_eq_mark (c := c) ⟨hTime, hSeq⟩
      constructor
      · intro hS
        refine ⟨fun r hr => lt_of_le_of_lt ?_ (hS.2 r hr), fun hn => absurd hn hNe⟩
        rw [hWm]
        exact le_max_left _ _
      · intro hP
        refine ⟨fun r hr => ?_, fun r hr => ?_⟩
        · rw [hWm, ← hEq]
          exact (orderKey_le_last h hLast hr).trans (le_max_right _ _)
        · rw [hWm, ← hEq]
          exact max_lt (hP.1 r hr) (returned_lt_waiting h hMemLast hr)
    · have hNone : c.seq = none := by simpa using hSeq
      by_cases hPos : Watermark.zero < c.mark w
      · rw [max_eq_right hPos.le, mark_noSeq hTime hNone] at hWm
        have hTimePos : Watermark.zero < c.orderKey w := (zero_lt_mark_iff hTime w).mp hPos
        constructor
        · intro hS
          refine ⟨fun r hr => hTimePos.trans (returned_lt_waiting h hMemLast hr), ?_⟩
          intro _ w' hw' _
          obtain rfl : w = w' := Option.some.inj (hLast.symm.trans hw')
          have hw := hS.1 w hMemLast
          rw [hWm, orderKey_noSeq hTime hNone, Watermark.le_iff] at hw
          simp only at hw
          refine ⟨by omega, fun r hr hSame => ?_⟩
          have hLt := hS.2 r hr
          rw [hWm, orderKey_noSeq hTime hNone, Watermark.lt_iff] at hLt
          simp only at hLt
          omega
        · intro hP
          obtain ⟨hw, hSecond⟩ := hP.2 hNone w hLast hPos
          refine ⟨fun r hr => ?_, fun r hr => ?_⟩
          · have hLe := orderKey_le_last h hLast hr
            rw [orderKey_noSeq hTime hNone, orderKey_noSeq hTime hNone, Watermark.le_iff] at hLe
            rw [hWm, orderKey_noSeq hTime hNone, Watermark.le_iff]
            simp only at hLe ⊢
            omega
          · have hLt := returned_lt_waiting h hMemLast hr
            have hNonneg := hSecond r hr
            rw [orderKey_noSeq hTime hNone, orderKey_noSeq hTime hNone, Watermark.lt_iff] at hLt
            rw [hWm, orderKey_noSeq hTime hNone, Watermark.lt_iff]
            simp only at hLt ⊢
            omega
      · -- the returned rows are all at or below zero, so the watermark still is zero
        rw [max_eq_left (not_lt.mp hPos)] at hWm
        have hKey : ¬ Watermark.zero < c.orderKey w := fun h' =>
          hPos ((zero_lt_mark_iff hTime w).mpr h')
        rw [Split, PageOk, hWm]
        constructor
        · intro hS
          refine ⟨hS.2, fun _ w' hw' hPos' => ?_⟩
          obtain rfl : w = w' := Option.some.inj (hLast.symm.trans hw')
          exact absurd hPos' hPos
        · intro hP
          exact ⟨fun r hr => (orderKey_le_last h hLast hr).trans (not_lt.mp hKey), hP.1⟩

/-- The selected rows, in the order of the table. -/
def selected (c : MsgCols) (f : Feed) : List MsgRow :=
  f.rows.filter fun r => f.wm < c.orderKey r

theorem newRows_eq {f : Feed} (h : Inv c o f) :
    newRows c f.wm f.rows = (selected c f).take readPage := by
  rw [newRows, Keyset.page, Keyset.after, Keyset.sortBy_of_pairwise]
  · rfl
  · exact (h.sorted.sublist List.filter_sublist).imp le_of_lt

variable {x : Codec} {cols : List String} {uids : AList fun _ : Int => String}

theorem page_eq (hCols : MsgCols.probe cols = some c) (hTime : c.time.isSome) (f : Feed) :
    f.page x o cols uids =
      (newRows c f.wm f.rows).map fun r => rowToRecord x o "" ∅ (c.extract r uids) := by
  have hNone : ¬ c.time.isNone := by
    rw [Option.isNone_iff_eq_none]
    intro hn
    simp [hn] at hTime
  simp [Feed.page, readNew, hCols, hNone]

theorem sources_page (hCols : MsgCols.probe cols = some c) (hTime : c.time.isSome) (f : Feed) :
    (f.page x o cols uids).map MessageRecord.sourceRow = sources c o (newRows c f.wm f.rows) := by
  rw [page_eq hCols hTime, List.map_map]
  rfl

theorem length_page (hCols : MsgCols.probe cols = some c) (hTime : c.time.isSome) (f : Feed) :
    (f.page x o cols uids).length = (newRows c f.wm f.rows).length := by
  rw [page_eq hCols hTime, List.length_map]

theorem map_orderKey_sources (hTime : c.time.isSome) (rows : List MsgRow) :
    (sources c o rows).map (sourceKey c) = rows.map c.orderKey := by
  rw [sources, List.map_map]
  exact List.map_congr_left fun r _ => sourceKey_sourceRow hTime r

/-- What an exact page says about the order keys alone. -/
theorem split_of_prefix (hTime : c.time.isSome) {f : Feed} (h : Inv c o f)
    (hPrefix : sources c o (returned f) ++ sources c o (newRows c f.wm f.rows) <+:
      sources c o f.rows)
    (hDrained : (newRows c f.wm f.rows).length < readPage →
      sources c o (returned f) ++ sources c o (newRows c f.wm f.rows) = sources c o f.rows) :
    Split c f := by
  have hRows : sources c o f.rows = sources c o (returned f) ++ sources c o (waiting f) := by
    rw [sources, ← returned_append_waiting f, List.map_append]
    rfl
  rw [hRows] at hPrefix hDrained
  have hKeys : (newRows c f.wm f.rows).map c.orderKey <+: (waiting f).map c.orderKey := by
    have := ((List.prefix_append_right_inj _).mp hPrefix).map (sourceKey c)
    rwa [map_orderKey_sources hTime, map_orderKey_sources hTime] at this
  have hDrainedKeys : (newRows c f.wm f.rows).length < readPage →
      (newRows c f.wm f.rows).map c.orderKey = (waiting f).map c.orderKey := by
    intro hLen
    have := congrArg (List.map (sourceKey c)) (List.append_cancel_left (hDrained hLen))
    rwa [map_orderKey_sources hTime, map_orderKey_sources hTime] at this
  have hPage := newRows_eq h
  have hHead : ∀ s ∈ (newRows c f.wm f.rows).head?, s ∉ returned f := by
    -- the first row of the page has the key of the first waiting row
    intro s hs hRet
    rcases hNew : newRows c f.wm f.rows with _ | ⟨a, as⟩
    · simp [hNew] at hs
    · simp only [hNew, List.head?_cons, Option.mem_def, Option.some.injEq] at hs
      subst hs
      rw [hNew, List.map_cons] at hKeys
      rcases hWait : waiting f with _ | ⟨u, us⟩
      · simp [hWait] at hKeys
      · rw [hWait, List.map_cons] at hKeys
        have hEq := (List.cons_prefix_cons.mp hKeys).1
        have hLt := returned_lt_waiting h hRet (b := u) (by rw [hWait]; simp)
        exact absurd hEq hLt.ne
  have hReturned : ∀ r ∈ returned f, c.orderKey r ≤ f.wm := by
    intro r hr
    by_contra hNot
    have hSel : ∃ s, (selected c f).head? = some s ∧ s ∈ returned f := by
      have hMem : r ∈ (returned f).filter fun r => f.wm < c.orderKey r := by
        simpa using ⟨hr, not_le.mp hNot⟩
      obtain ⟨s, ss, hs⟩ := List.exists_cons_of_ne_nil (List.ne_nil_of_mem hMem)
      refine ⟨s, ?_, List.mem_of_mem_filter (hs ▸ List.mem_cons_self)⟩
      rw [selected, ← returned_append_waiting f, List.filter_append, hs]
      rfl
    obtain ⟨s, hs, hRet⟩ := hSel
    refine hHead s ?_ hRet
    rw [hPage, List.head?_take, if_neg (by decide), hs]
    rfl
  refine ⟨hReturned, ?_⟩
  by_cases hLen : (newRows c f.wm f.rows).length < readPage
  · intro u hu
    have hMem : c.orderKey u ∈ (newRows c f.wm f.rows).map c.orderKey := by
      rw [hDrainedKeys hLen]
      exact List.mem_map_of_mem hu
    obtain ⟨s, hs, hEq⟩ := List.mem_map.mp hMem
    rw [← hEq]
    exact (Keyset.mem_of_mem_page hs).2
  · intro u hu
    rcases hNew : newRows c f.wm f.rows with _ | ⟨a, as⟩
    · rw [hNew] at hLen
      exact absurd (show ([] : List MsgRow).length < readPage by decide) hLen
    · rcases hWait : waiting f with _ | ⟨v, vs⟩
      · simp [hWait] at hu
      · rw [hNew, hWait, List.map_cons, List.map_cons] at hKeys
        have hEq := (List.cons_prefix_cons.mp hKeys).1
        have ha : f.wm < c.orderKey a :=
          (Keyset.mem_of_mem_page (show a ∈ newRows c f.wm f.rows by rw [hNew]; simp)).2
        rw [hEq] at ha
        have hSorted := h.sorted
        rw [← returned_append_waiting f, hWait] at hSorted
        have hTail := (List.pairwise_cons.mp (List.pairwise_append.mp hSorted).2.1).1
        rw [hWait] at hu
        rcases List.mem_cons.mp hu with rfl | hu
        · exact ha
        · exact ha.trans (hTail u hu)

theorem newRows_of_split {f : Feed} (h : Inv c o f) (hSplit : Split c f) :
    newRows c f.wm f.rows = (waiting f).take readPage := by
  have hSorted := h.sorted
  rw [← returned_append_waiting f] at hSorted
  rw [newRows, Keyset.page, ← returned_append_waiting f,
    Keyset.after_eq_drop hSorted hSplit.1 hSplit.2]

theorem advance_concat (wm : Watermark) (p : List MessageRecord) (z : MessageRecord) :
    advance wm (p ++ [z]) = z.mark := by
  simp [advance]

/-- The watermark after a page, in terms of the rows read. -/
theorem wm_read (hCols : MsgCols.probe cols = some c) (hTime : c.time.isSome) (f : Feed) :
    (f.read x o cols uids).wm =
      ((newRows c f.wm f.rows).getLast?.map c.mark).getD f.wm := by
  change advance f.wm (f.page x o cols uids) = _
  rw [page_eq hCols hTime]
  rcases List.eq_nil_or_concat (newRows c f.wm f.rows) with h | ⟨p, z, h⟩
  · simp [h, advance]
  · rw [h, List.concat_eq_append, List.map_append, List.map_singleton, advance_concat]
    simp

theorem out_read (x : Codec) (uids : AList fun _ : Int => String)
    (hCols : MsgCols.probe cols = some c) (hTime : c.time.isSome) {f : Feed} (h : Inv c o f) : (f.read x o cols uids).out.map MessageRecord.sourceRow =
      sources c o (returned f) ++ sources c o (newRows c f.wm f.rows) := by
  change (f.out ++ f.page x o cols uids).map _ = _
  rw [List.map_append, h.out_eq, sources_page hCols hTime]

/-- **One page.** It is exact if and only if `PageOk` holds before it. -/
theorem readExact_iff (hCols : MsgCols.probe cols = some c) (hTime : c.time.isSome) {f : Feed}
    (h : Inv c o f) : ReadExact x o cols c f uids ↔ PageOk c f := by
  rw [← split_iff_pageOk hTime h]
  constructor
  · intro hExact
    refine split_of_prefix hTime h ?_ fun hLen => ?_
    · rw [← out_read x uids hCols hTime h]
      exact hExact.continues
    · rw [← out_read x uids hCols hTime h]
      exact hExact.drained (by rwa [length_page hCols hTime])
  · intro hSplit
    have hNew := newRows_of_split h hSplit
    have hOut := out_read x uids hCols hTime h
    have hJoin : returned f ++ newRows c f.wm f.rows <+: f.rows := by
      conv_rhs => rw [← returned_append_waiting f]
      rw [hNew]
      exact (List.prefix_append_right_inj _).mpr (List.take_prefix _ _)
    refine ⟨?_, fun hLen => ?_, fun hLen => ?_⟩
    · rw [hOut]
      simpa only [sources, List.map_append] using hJoin.map (c.sourceRow o)
    · rw [length_page hCols hTime, hNew, List.length_take] at hLen
      rw [hOut, hNew, List.take_of_length_le (by omega)]
      rw [sources, sources, sources, ← List.map_append, returned_append_waiting]
    · rw [length_page hCols hTime] at hLen
      rw [wm_read hCols hTime]
      rcases List.eq_nil_or_concat (newRows c f.wm f.rows) with hNil | ⟨p, z, hz⟩
      · rw [hNil] at hLen
        exact absurd hLen (by decide)
      · have hMem : z ∈ newRows c f.wm f.rows := by rw [hz]; simp
        have hWait : z ∈ waiting f := List.mem_of_mem_take (hNew ▸ hMem)
        have hAbove := hSplit.2 z hWait
        rw [hz, List.concat_eq_append, List.getLast?_concat, Option.map_some, Option.getD_some,
          markOrder_mark hTime]
        have hWm := h.wm_eq
        cases hLast : (returned f).getLast? with
        | none =>
          simp only [hLast, Option.map_none, Option.getD_none] at hWm
          rw [hWm] at hAbove ⊢
          simpa [markOrder, Watermark.zero] using hAbove
        | some w =>
          simp only [hLast, Option.map_some, Option.getD_some] at hWm
          rcases le_total Watermark.zero (c.mark w) with hw | hw
          · rw [hWm, max_eq_right hw, markOrder_mark hTime]
            exact returned_lt_waiting h (List.mem_of_getLast? hLast) hWait
          · rw [max_eq_left hw] at hWm
            rw [hWm] at hAbove ⊢
            simpa [markOrder, Watermark.zero] using hAbove

/-! ## The invariant along a run -/

theorem inv_commit {f : Feed} (h : Inv c o f) (hLen : f.out.length ≤ f.rows.length)
    {rows : List MsgRow}
    (hSorted : (f.rows ++ rows).Pairwise fun a b => c.orderKey a < c.orderKey b) :
    Inv c o (f.commit rows) := by
  have hTake : returned (f.commit rows) = returned f := by
    simp [returned, Feed.commit, List.take_append_of_le_length hLen]
  exact ⟨hSorted, by rw [hTake]; exact h.out_eq, by rw [hTake]; exact h.wm_eq⟩

theorem length_out_le {f : Feed} (h : Inv c o f) : f.out.length ≤ f.rows.length := by
  have := congrArg List.length h.out_eq
  simp only [List.length_map, sources, returned, List.length_take] at this
  omega

theorem inv_read (hCols : MsgCols.probe cols = some c) (hTime : c.time.isSome) {f : Feed}
    (h : Inv c o f) (hOk : PageOk c f) : Inv c o (f.read x o cols uids) := by
  have hSplit := (split_iff_pageOk hTime h).mpr hOk
  have hNew := newRows_of_split h hSplit
  have hLen : (f.read x o cols uids).out.length =
      f.out.length + (newRows c f.wm f.rows).length := by
    change (f.out ++ f.page x o cols uids).length = _
    rw [List.length_append, length_page hCols hTime]
  have hReturned : returned (f.read x o cols uids) = returned f ++ newRows c f.wm f.rows := by
    rw [returned, hLen]
    change f.rows.take _ = _
    rw [List.take_add, hNew, List.length_take]
    change returned f ++ (waiting f).take _ = _
    rw [List.take_eq_take_min (l := waiting f) (i := readPage)]
  refine ⟨h.sorted, ?_, ?_⟩
  · rw [out_read x uids hCols hTime h, hReturned, sources, sources, sources, List.map_append]
  · rw [wm_read hCols hTime, hReturned]
    rcases List.eq_nil_or_concat (newRows c f.wm f.rows) with hNil | ⟨p, z, hz⟩
    · rw [hNil, List.append_nil]
      exact h.wm_eq
    · have hMem : z ∈ waiting f := by
        refine List.mem_of_mem_take (i := readPage) ?_
        rw [← hNew, hz]
        simp
      have hz0 : Watermark.zero < c.mark z :=
        (zero_lt_mark_iff hTime z).mpr (hOk.1 z hMem)
      rw [hz, List.concat_eq_append, ← List.append_assoc, List.getLast?_concat,
        List.getLast?_concat]
      simp [max_eq_right hz0.le]

/-- The bulk load of a table in key order starts the run. -/
theorem inv_start (hCols : MsgCols.probe cols = some c) (hTime : c.time.isSome)
    {rows : List MsgRow} {contacts : Map Contact} {me : String}
    (hSorted : rows.Pairwise fun a b => c.orderKey a < c.orderKey b) :
    Inv c o (start x o cols rows uids contacts me) := by
  have hSort : Keyset.sortBy c.orderKey rows = rows :=
    Keyset.sortBy_of_pairwise (hSorted.imp le_of_lt)
  have hStart : start x o cols rows uids contacts me =
      ⟨rows, rows.map fun r => rowToRecord x o me contacts (c.extract r uids),
        maxWatermark .zero (rows.foldl (fun w r => maxWatermark w (c.mark r)) .zero)⟩ := by
    simp [start, loadMessageTable, hCols, hSort]
  rw [hStart]
  have hReturned : returned ⟨rows, rows.map fun r => rowToRecord x o me contacts
      (c.extract r uids), maxWatermark .zero
        (rows.foldl (fun w r => maxWatermark w (c.mark r)) .zero)⟩ = rows := by
    simp [returned]
  refine ⟨hSorted, ?_, ?_⟩
  · rw [hReturned, List.map_map]
    rfl
  · rw [hReturned, maxWatermark_eq, max_eq_right (le_foldl_mark c rows _)]
    rcases List.eq_nil_or_concat rows with hNil | ⟨p, z, hz⟩
    · simp [hNil]
    · -- the last row of the sorted table has the largest mark
      have hz' : z ∈ rows := by rw [hz]; simp
      have hMax : ∀ r ∈ rows, c.mark r ≤ c.mark z := by
        intro r hr
        apply mark_le_of_orderKey_le hTime
        rw [hz, List.concat_eq_append] at hr hSorted
        rcases List.mem_append.mp hr with hr | hr
        · exact ((List.pairwise_append.mp hSorted).2.2 r hr z (by simp)).le
        · rw [List.mem_singleton.mp hr]
      have hLast : rows.getLast? = some z := by
        rw [hz, List.concat_eq_append, List.getLast?_concat]
      rw [hLast, Option.map_some, Option.getD_some]
      apply le_antisymm
      · rcases foldl_mark_eq c rows .zero with h' | ⟨r, hr, h'⟩
        · rw [h']
          exact le_max_left _ _
        · rw [h']
          exact (hMax r hr).trans (le_max_right _ _)
      · exact max_le (le_foldl_mark c rows _) (mark_le_foldl c hz' _)

theorem allReads_iff (hCols : MsgCols.probe cols = some c) (hTime : c.time.isSome) :
    ∀ (ops : List Op) (f : Feed), Inv c o f →
      (f.rows ++ committed ops).Pairwise (fun a b => c.orderKey a < c.orderKey b) →
      (AllReads x o cols (ReadExact x o cols c) f ops ↔
        AllReads x o cols (fun f _ => PageOk c f) f ops)
  | [], _, _, _ => Iff.rfl
  | .commit rows :: ops, f, h, hSorted => by
    have hSorted' : ((f.commit rows).rows ++ committed ops).Pairwise
        fun a b => c.orderKey a < c.orderKey b := by
      simpa [Feed.commit, committed, List.append_assoc] using hSorted
    exact allReads_iff hCols hTime ops _
      (inv_commit h (length_out_le h) (List.pairwise_append.mp hSorted').1) hSorted'
  | .read uids :: ops, f, h, hSorted => by
    simp only [AllReads, readExact_iff hCols hTime h]
    exact and_congr_right fun hOk =>
      allReads_iff hCols hTime ops _ (inv_read hCols hTime h hOk) hSorted

end

/-- **Exactly-once incremental read.** In every run over a table with a time column whose
rows are appended in the order of the read, all pages are exact if and only if every page is
read in a state with `PageOk`. -/
theorem increment_exact_iff (x : Codec) (o : WmKey) (cols : List String) (c : MsgCols)
    (hCols : MsgCols.probe cols = some c) (hTime : c.time.isSome) (rows : List MsgRow)
    (uids : AList fun _ : Int => String) (contacts : Map Contact) (me : String) (ops : List Op)
    (hSorted : (rows ++ committed ops).Pairwise fun a b => c.orderKey a < c.orderKey b) :
    AllReads x o cols (ReadExact x o cols c) (start x o cols rows uids contacts me) ops ↔
      AllReads x o cols (fun f _ => PageOk c f) (start x o cols rows uids contacts me) ops := by
  have hRows : (start x o cols rows uids contacts me).rows = rows := by
    simp [start, loadMessageTable, hCols]
  refine allReads_iff hCols hTime ops _
    (inv_start hCols hTime (List.pairwise_append.mp hSorted).1) ?_
  rwa [hRows]

/-- The columns of a table with a time and a sequence column. -/
def fullColumns : List String := ["local_id", "server_id", "local_type", "create_time", "sort_seq"]

theorem increment_exact_iff_full :
    AllReads (.blank "") ⟨"", ""⟩ fullColumns
        (ReadExact (.blank "") ⟨"", ""⟩ fullColumns
          ⟨"local_id", "server_id", "local_type", "create_time", "sort_seq", none, none, none,
            none⟩)
        (start (.blank "") ⟨"", ""⟩ fullColumns [⟨1, 0, 1, 100, 1, none, 0, none, none⟩] ∅ ∅ "")
        [.commit [⟨2, 0, 1, 100, 2, none, 0, none, none⟩], .read ∅] ↔
      AllReads (.blank "") ⟨"", ""⟩ fullColumns
        (fun f _ => PageOk ⟨"local_id", "server_id", "local_type", "create_time", "sort_seq",
          none, none, none, none⟩ f)
        (start (.blank "") ⟨"", ""⟩ fullColumns [⟨1, 0, 1, 100, 1, none, 0, none, none⟩] ∅ ∅ "")
        [.commit [⟨2, 0, 1, 100, 2, none, 0, none, none⟩], .read ∅] :=
  increment_exact_iff _ _ _ _ (by decide) rfl _ _ _ _ _ (by decide)

/-- A table without a sequence column: the row of the bulk load is returned again by the
first page. -/
theorem noSeq_row_is_returned_twice :
    ¬ AllReads (.blank "") ⟨"", ""⟩ ["local_id", "create_time"]
      (ReadExact (.blank "") ⟨"", ""⟩ ["local_id", "create_time"]
        ⟨"local_id", none, none, "create_time", none, none, none, none, none⟩)
      (start (.blank "") ⟨"", ""⟩ ["local_id", "create_time"]
        [⟨1, 0, 1, 100, 0, none, 0, none, none⟩] ∅ ∅ "")
      [.read ∅] := by
  rintro ⟨h, -⟩
  exact absurd (h.drained (by decide)) (by decide)

end Weflow.Increment
