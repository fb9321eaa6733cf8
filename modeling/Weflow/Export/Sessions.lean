import Weflow.Export.Run

/-!
# What one session does to the directory

Whatever its fetch does and whichever calls fail, a session touches its `.part` file only, up to
the one rename of a session that is written (`exportSession_ops`). What is renamed is complete
when the fetch reports its failed pages (`Honest`): the header and the rows handed over, each
page in its order, and nothing else.
-/

namespace Weflow.Export

open Effects
open Json (Value)

/-! ## Fetches -/

namespace Fetch

/-- Every way the fetch can end is an error. -/
def Fails : Fetch → Prop
  | done result => ∃ e, result = .error e
  | page _ _ next => ∀ answer, (next answer).Fails

/-- A fetch whose `on_page` failed returns an error. -/
def Honest : Fetch → Prop
  | done _ => True
  | page _ _ next => (next (.ok ())).Honest ∧ ∀ e, (next (.error e)).Fails

end Fetch

/-! ## Complete files -/

def linesBytes (J : Json.Text) (lines : List Value) : List UInt8 :=
  Utf8.encode (lines.flatMap (lineText J))

/-- The lines of a file, each read as a value; `none` if the last one is not ended or one cannot
be read. -/
def readLines (J : Json.Text) (bytes : List UInt8) : Option (List Value) :=
  (Utf8.decode bytes).bind fun text =>
    if (text.splitOn '\n').getLast? = some [] then
      (text.splitOn '\n').dropLast.mapM fun line => J.parse (String.ofList line)
    else none

/-- The document of a file. -/
def readDocument (J : Json.Text) (bytes : List UInt8) : Option Value :=
  (Utf8.decode bytes).bind fun text => J.parse (String.ofList text)

/-- A sender met for the first time becomes a member. -/
def meetRow (acc : List String × List Value) (r : Row) : List String × List Value :=
  if r.sender ∈ acc.1 then acc else (r.sender :: acc.1, acc.2 ++ [memberLine r])

def membersOf (rows : List Row) : List Value := (rows.foldl meetRow ([], [])).2

/-- The rows of the pages in the order they are written. -/
def writtenRows (pages : List (List Row)) : List Row := pages.flatMap sortPage

/-- The lines of a session: the header and one line for each row. -/
def sessionLines (target : SessionTarget) (now : Int64) (rows : List Row) : List Value :=
  headerLine target now :: rows.map messageLine

/-- The bytes are a session's header and exactly these rows. -/
def Complete (J : Json.Text) (format : Format) (target : SessionTarget) (now : Int64)
    (rows : List Row) (bytes : List UInt8) : Prop :=
  match format with
  | .jsonl => readLines J bytes = some (sessionLines target now rows)
  | .json => readDocument J bytes =
      some (document (sessionLines target now rows) (membersOf rows))

theorem wf_sessionLines (target : SessionTarget) (now : Int64) (rows : List Row) :
    ∀ v ∈ sessionLines target now rows, v.Wf := by
  intro v hv
  rcases List.mem_cons.mp hv with rfl | hv
  · exact wf_headerLine target now
  · obtain ⟨r, -, rfl⟩ := List.mem_map.mp hv
    exact wf_messageLine r

theorem wf_membersOf (rows : List Row) : ∀ v ∈ membersOf rows, v.Wf := by
  have hFold : ∀ (rows : List Row) (acc : List String × List Value), (∀ v ∈ acc.2, v.Wf) →
      ∀ v ∈ (rows.foldl meetRow acc).2, v.Wf := by
    intro rows
    induction rows with
    | nil => exact fun acc h => h
    | cons r rows ih =>
      intro acc h
      refine ih _ fun v hv => ?_
      rw [meetRow] at hv
      split at hv
      · exact h v hv
      · rcases List.mem_append.mp hv with hv | hv
        · exact h v hv
        · rw [List.mem_singleton.mp hv]
          exact wf_memberLine r
  exact hFold rows ([], []) (by simp)

theorem mapM_parse {J : Json.Text} {vs : List Value} (h : ∀ v ∈ vs, v.Wf) :
    (vs.map fun v => (J.render v).toList).mapM (fun line => J.parse (String.ofList line)) =
      some vs := by
  induction vs with
  | nil => rfl
  | cons v vs ih =>
    rw [List.map_cons, List.mapM_cons, String.ofList_toList,
      J.parse_render (h v List.mem_cons_self),
      ih fun w hw => h w (List.mem_cons_of_mem v hw)]
    rfl

/-- The pieces of a text of ended lines: the lines, and the empty piece behind the last one. -/
theorem splitOn_lines {lines : List (List Char)} (h : ∀ l ∈ lines, '\n' ∉ l) :
    (lines.flatMap (· ++ ['\n'])).splitOn '\n' = lines ++ [[]] := by
  have hJoin : ['\n'].intercalate (lines ++ [[]]) = lines.flatMap (· ++ ['\n']) := by
    induction lines with
    | nil => rfl
    | cons l ls ih =>
      have hls := ih fun m hm => h m (List.mem_cons_of_mem l hm)
      obtain ⟨m, ms, hms⟩ : ∃ m ms, ls ++ [[]] = m :: ms :=
        List.exists_cons_of_ne_nil (by simp)
      rw [List.cons_append, hms, List.intercalate_cons_cons, ← hms, hls, List.flatMap_cons]
  rw [← hJoin]
  refine List.splitOn_intercalate '\n' ?_ (by simp)
  intro l hl
  rcases List.mem_append.mp hl with hl | hl
  · exact h l hl
  · rw [List.mem_singleton.mp hl]
    simp

theorem readLines_linesBytes {J : Json.Text} {vs : List Value} (h : ∀ v ∈ vs, v.Wf) :
    readLines J (linesBytes J vs) = some vs := by
  have hText : vs.flatMap (lineText J) =
      (vs.map fun v => (J.render v).toList).flatMap (· ++ ['\n']) := by
    rw [List.flatMap_map]
    rfl
  have hLines : ∀ l ∈ vs.map fun v => (J.render v).toList, '\n' ∉ l := by
    intro l hl
    obtain ⟨v, hv, rfl⟩ := List.mem_map.mp hl
    exact J.newline_render (h v hv)
  rw [readLines, linesBytes, Utf8.decode_encode, Option.bind_some, hText, splitOn_lines hLines,
    List.getLast?_concat, if_pos rfl, List.dropLast_concat, mapM_parse h]

theorem complete_jsonl (J : Json.Text) (target : SessionTarget) (now : Int64) (rows : List Row) :
    Complete J .jsonl target now rows (linesBytes J (sessionLines target now rows)) :=
  readLines_linesBytes (wf_sessionLines target now rows)

theorem complete_json (J : Json.Text) (target : SessionTarget) (now : Int64) (rows : List Row) :
    Complete J .json target now rows
      (Utf8.encode (J.render
        (document (sessionLines target now rows) (membersOf rows))).toList) := by
  have hWf := wf_document (wf_sessionLines target now rows) (wf_membersOf rows)
  rw [Complete, readDocument, Utf8.decode_encode, Option.bind_some, String.ofList_toList,
    J.parse_render hWf]

/-! ## The writer keeps to its `.part` file -/

namespace SessionWriter

/-- The same session: the fields that `begin` sets. -/
structure Same (w₀ w : SessionWriter) : Prop where
  talker : w.talker = w₀.talker
  path : w.path = w₀.path
  part : w.part = w₀.part
  format : w.format = w₀.format
  secret : w.secret = w₀.secret

/-- A call made for the session on its `.part` file. -/
def OnPart (w : SessionWriter) (o : Option String × Files.Op Paths.Path) : Prop :=
  o.1 = some w.talker ∧ o.2.touched = [w.part]

variable {K : Type} (H : Host K)

/-- The session with its `.part` file open in the line format, and a disk it has not touched in
the document format. -/
structure Live (w₀ : SessionWriter) (d₀ : Files.Disk K) (w : SessionWriter) (d : Files.Disk K) :
    Prop where
  same : Same w₀ w
  opened : w.sink = .lines → Files.isFile (d (H.key w.part)) = true
  kept : w.sink ≠ .lines → d = d₀

theorem same_meet {w₀ w : SessionWriter} (h : Same w₀ w) (r : Row) : Same w₀ (w.meet r) := by
  rw [meet]
  split
  · exact ⟨h.talker, h.path, h.part, h.format, h.secret⟩
  · exact h

theorem sink_meet (w : SessionWriter) (r : Row) : (w.meet r).sink = w.sink := by
  rw [meet]
  split <;> rfl

theorem live_meet {w₀ w : SessionWriter} {d₀ d : Files.Disk K} (h : Live H w₀ d₀ w d)
    (r : Row) : Live H w₀ d₀ (w.meet r) d := by
  refine ⟨same_meet h.same r, fun hSink => ?_, fun hSink => h.kept ?_⟩
  · rw [(same_meet h.same r).part, ← h.same.part]
    exact h.opened (by rw [← sink_meet w r, hSink])
  · rwa [← sink_meet w r]

variable [DecidableEq K]

/-- What `put` does: the line is at the end of the file or of the buffer, or nothing happened. -/
theorem put_holds {w₀ w : SessionWriter} (hSame : Same w₀ w) (fails : Bool) (v : Value)
    {D : Files.Disk K → Prop} {Q : Except Failure SessionWriter → Files.Disk K → Prop}
    (hFail : ∀ d e, D d → Q (.error e) d)
    (hLine : ∀ d, D d → w.sink = .lines → Q (.ok w) (Function.update d (H.key w.part)
      (Files.appended (Utf8.encode (lineText H.json v)) (d (H.key w.part)))))
    (hBuffer : ∀ d lines, D d → w.sink = .buffer lines →
      Q (.ok { w with sink := .buffer (lines ++ [v]) }) d) :
    Act.Holds (OnPart w₀) D (w.put H fails v) Q := by
  rw [put]
  split
  · rename_i hSink
    split_ifs
    · exact Act.holds_pure fun d hd => hFail d _ hd
    · exact Act.holds_pure fun d hd => hFail d _ hd
    · refine Act.Holds.bind (Q := fun _ => Q (.ok w)) (Files.holds_append ?_ ?_) fun _ =>
        Act.holds_pure fun _ h => h
      · exact ⟨by rw [hSame.talker], by rw [← hSame.part]; rfl⟩
      · exact fun d hd => hLine d hd hSink
  · rename_i lines hSink
    exact Act.holds_pure fun d hd => hBuffer d lines hd hSink

theorem putRows_live {w₀ : SessionWriter} {d₀ : Files.Disk K} (fails : Nat → Bool)
    (rows : List Row) (i : Nat) (w : SessionWriter) :
    Act.Holds (OnPart w₀) (Live H w₀ d₀ w) (putRows H fails i rows w)
      fun p d => Live H w₀ d₀ p.2 d := by
  induction rows generalizing i w with
  | nil => exact Act.holds_pure fun _ h => h
  | cons r rest ih =>
    intro d hLive
    have hMeet := live_meet H hLive r
    have hPut : Act.Holds (OnPart w₀) (Live H w₀ d₀ (w.meet r))
        ((w.meet r).put H (fails i) (messageLine r))
        fun p d => Live H w₀ d₀ (p.toOption.getD (w.meet r)) d := by
      refine put_holds H hMeet.same (fails i) (messageLine r) (fun d e h => h) ?_ ?_
      · intro d h hSink
        refine ⟨h.same, fun _ => ?_, fun hNot => absurd hSink hNot⟩
        change Files.isFile (Function.update d _ _ (H.key (w.meet r).part)) = true
        rw [Function.update_self]
        exact Files.isFile_appended (h.opened hSink)
      · intro d lines h hSink
        exact ⟨⟨h.same.talker, h.same.path, h.same.part, h.same.format, h.same.secret⟩,
          (fun h' => by cases h'), fun _ => h.kept (by rw [hSink]; simp)⟩
    rw [putRows]
    refine Act.Holds.bind (R := fun (p : Except Failure Unit × SessionWriter) d =>
      Live H w₀ d₀ p.2 d) hPut (fun p => ?_) d hMeet
    cases p with
    | error e => exact Act.holds_pure fun _ h => h
    | ok w' =>
      refine (ih (i + 1) _).mono (fun d h => ?_) fun _ _ h => h
      obtain ⟨hSame, hOpened, hKept⟩ := h
      exact ⟨⟨hSame.talker, hSame.path, hSame.part, hSame.format, hSame.secret⟩, hOpened, hKept⟩

theorem drive_live {w₀ : SessionWriter} {d₀ : Files.Disk K} (f : Fetch) (w : SessionWriter) :
    Act.Holds (OnPart w₀) (Live H w₀ d₀ w) (drive H f w)
      fun p d => Live H w₀ d₀ p.2.1 d := by
  induction f generalizing w with
  | done result => exact Act.holds_pure fun _ h => h
  | page rows fails next ih =>
    rw [drive]
    refine Act.Holds.bind (putRows_live H fails (sortPage rows) 0 w) fun p => ?_
    exact Act.Holds.bind (ih p.1 p.2) fun q => Act.holds_pure fun _ h => h

/-! ## What has been written -/

/-- The header and the rows so far stand in the file, or in the buffer with the members met. -/
structure Progress (w₀ : SessionWriter) (target : SessionTarget) (now : Int64) (rows : List Row)
    (w : SessionWriter) (d : Files.Disk K) : Prop where
  same : Same w₀ w
  count : w.count = UInt64.ofNat rows.length
  content : w.format = .jsonl ∧ w.sink = .lines ∧ d (H.key w.part) =
      some (.file (linesBytes H.json (sessionLines target now rows))) ∨
    w.format = .json ∧ w.sink = .buffer (sessionLines target now rows) ∧
      (w.seen, w.members) = rows.foldl meetRow ([], [])

theorem sessionLines_concat (target : SessionTarget) (now : Int64) (rows : List Row) (r : Row) :
    sessionLines target now (rows ++ [r]) = sessionLines target now rows ++ [messageLine r] := by
  simp [sessionLines]

theorem linesBytes_concat (J : Json.Text) (vs : List Value) (v : Value) :
    linesBytes J (vs ++ [v]) = linesBytes J vs ++ Utf8.encode (lineText J v) := by
  simp [linesBytes]

theorem meet_jsonl {w : SessionWriter} (h : w.format = .jsonl) (r : Row) : w.meet r = w := by
  rw [meet, if_neg (by simp [h])]

theorem meet_json {w : SessionWriter} (h : w.format = .json) (r : Row) :
    ((w.meet r).seen, (w.meet r).members) = meetRow (w.seen, w.members) r := by
  rw [meet, meetRow]
  by_cases hSeen : r.sender ∈ w.seen
  · rw [if_neg (by simp [hSeen]), if_pos hSeen]
  · rw [if_pos ⟨h, hSeen⟩, if_neg hSeen]

variable {target : SessionTarget} {now : Int64} {w₀ : SessionWriter}

/-- One row: it is written, or there is an error. -/
theorem putRow_progress (rows : List Row) (r : Row) (fails : Bool) (w : SessionWriter) :
    Act.Holds (OnPart w₀) (Progress H w₀ target now rows w)
      ((w.meet r).put H fails (messageLine r)) fun p d => ∀ w', p = .ok w' →
        Progress H w₀ target now (rows ++ [r]) { w' with count := w'.count + 1 } d := by
  intro d hProgress
  have hSame := same_meet hProgress.same r
  have hFormat : (w.meet r).format = w.format := hSame.format.trans hProgress.same.format.symm
  have hPart : (w.meet r).part = w.part := hSame.part.trans hProgress.same.part.symm
  have hCount : (w.meet r).count = w.count := by
    rw [meet]
    split <;> rfl
  have hNext : UInt64.ofNat rows.length + 1 = UInt64.ofNat (rows ++ [r]).length := by
    rw [List.length_append, List.length_singleton, UInt64.ofNat_add]
    rfl
  refine put_holds (Q := fun p d => ∀ w', p = .ok w' → Progress H w₀ target now (rows ++ [r])
    { w' with count := w'.count + 1 } d) H hSame fails (messageLine r) ?_ ?_ ?_ d hProgress
  · intro d e h w' h'
    cases h'
  · intro d h hSink w' h'
    cases h'
    rw [sink_meet] at hSink
    refine ⟨⟨hSame.talker, hSame.path, hSame.part, hSame.format, hSame.secret⟩, ?_, .inl ?_⟩
    · change (w.meet r).count + 1 = _
      rw [hCount, h.count, hNext]
    rcases h.content with ⟨hJsonl, -, hFile⟩ | ⟨-, hBuffer, -⟩
    · rw [meet_jsonl hJsonl]
      refine ⟨hJsonl, hSink, ?_⟩
      change Function.update d (H.key w.part) _ (H.key w.part) = _
      rw [Function.update_self, hFile, Files.appended, sessionLines_concat, linesBytes_concat]
    · rw [hBuffer] at hSink
      cases hSink
  · intro d lines h hSink w' h'
    cases h'
    rw [sink_meet] at hSink
    refine ⟨⟨hSame.talker, hSame.path, hSame.part, hSame.format, hSame.secret⟩, ?_, .inr ?_⟩
    · change (w.meet r).count + 1 = _
      rw [hCount, h.count, hNext]
    rcases h.content with ⟨-, hLines, -⟩ | ⟨hJson, hBuffer, hMembers⟩
    · rw [hLines] at hSink
      cases hSink
    · rw [hBuffer, Sink.buffer.injEq] at hSink
      refine ⟨hFormat.trans hJson, ?_, ?_⟩
      · change Sink.buffer (lines ++ [messageLine r]) = _
        rw [← hSink, sessionLines_concat]
      · change ((w.meet r).seen, (w.meet r).members) = _
        rw [meet_json hJson, hMembers, List.foldl_append]
        rfl

theorem putRows_progress (fails : Nat → Bool) (rs : List Row) (i : Nat) (rows : List Row)
    (w : SessionWriter) :
    Act.Holds (OnPart w₀) (Progress H w₀ target now rows w) (putRows H fails i rs w)
      fun p d => p.1 = .ok () → Progress H w₀ target now (rows ++ rs) p.2 d := by
  induction rs generalizing i rows w with
  | nil =>
    refine Act.holds_pure fun d h _ => ?_
    rw [List.append_nil]
    exact h
  | cons r rest ih =>
    rw [putRows]
    refine Act.Holds.bind (putRow_progress H rows r (fails i) w) fun p => ?_
    cases p with
    | error e => exact Act.holds_pure fun _ _ h => by cases h
    | ok w' =>
      refine (ih (i + 1) (rows ++ [r]) _).mono (fun d h => h w' rfl) fun p d h hOk => ?_
      rw [← List.singleton_append, ← List.append_assoc]
      exact h hOk

/-- A fetch that fails on every path fails. -/
theorem drive_fails {f : Fetch} (h : f.Fails) (w : SessionWriter) (d : Files.Disk K) :
    ∃ e, ((drive H f w).result d).1 = .error e := by
  induction f generalizing w d with
  | done result => exact h
  | page rows fails next ih =>
    rw [drive, Act.result_bind, Act.result_bind]
    exact ih _ (h _) _ _

/-- An honest fetch that succeeds has had every row it handed over written. -/
theorem drive_progress {f : Fetch} (hHonest : f.Honest) {rows : List Row} {w : SessionWriter}
    {d : Files.Disk K} (h : Progress H w₀ target now rows w d)
    (hOk : ((drive H f w).result d).1 = .ok ()) :
    Progress H w₀ target now (rows ++ writtenRows ((drive H f w).result d).2.2)
      ((drive H f w).result d).2.1 ((drive H f w).after d) := by
  induction f generalizing rows w d with
  | done result =>
    rw [drive, Act.result_pure, Act.after_pure, writtenRows, List.flatMap_nil, List.append_nil]
    exact h
  | page page fails next ih =>
    rw [drive] at hOk ⊢
    simp only [Act.result_bind, Act.after_bind, Act.result_pure, Act.after_pure] at hOk ⊢
    have hPage := (putRows_progress H fails (sortPage page) 0 rows w d h).2
    change ((SessionWriter.page H w page fails).result d).1 = .ok () → _ at hPage
    cases hAnswer : ((SessionWriter.page H w page fails).result d).1 with
    | error e =>
      rw [hAnswer] at hOk
      obtain ⟨e', hError⟩ := drive_fails H (hHonest.2 e) ((SessionWriter.page H w page fails).result d).2
        ((SessionWriter.page H w page fails).after d)
      rw [hError] at hOk
      cases hOk
    | ok u =>
      rw [hAnswer] at hOk
      have hRest := ih (.ok ()) hHonest.1 (hPage hAnswer) hOk
      rw [writtenRows, List.flatMap_cons, ← List.append_assoc]
      exact hRest

/-! ## Beginning and finishing -/

theorem same_refl (w : SessionWriter) : Same w w := ⟨rfl, rfl, rfl, rfl, rfl⟩

/-- What is open after `openSink`. -/
def Opened (w₀ : SessionWriter) (d₀ : Files.Disk K) (opened : Bool) (d : Files.Disk K) : Prop :=
  (opened = false → d = d₀) ∧ (opened = true →
    w₀.format = .jsonl ∧ w₀.sink = .lines ∧ d (H.key w₀.part) = some (.file []) ∨
    w₀.format = .json ∧ w₀.sink = .buffer [] ∧ d = d₀)

theorem openSink_holds (opts : Options) (stem : String) (fails : Bool) (d₀ : Files.Disk K) :
    Act.Holds (OnPart (new H target opts stem)) (· = d₀)
      ((new H target opts stem).openSink H fails) (Opened H (new H target opts stem) d₀) := by
  cases hFormat : opts.format with
  | jsonl =>
    have hSink : (new H target opts stem).sink = .lines := by simp [new, hFormat]
    rw [openSink, hSink]
    refine Files.holds_create ⟨rfl, rfl⟩ (fun d h => ⟨fun _ => h, fun h' => by cases h'⟩) ?_
    intro d _
    refine ⟨fun h' => (by cases h'), fun _ => .inl ⟨hFormat, hSink, ?_⟩⟩
    rw [Function.update_self]
  | json =>
    have hSink : (new H target opts stem).sink = .buffer [] := by simp [new, hFormat]
    rw [openSink, hSink]
    exact Act.holds_pure fun d h => ⟨fun h' => (by cases h'), fun _ => .inr ⟨hFormat, hSink, h⟩⟩

theorem header_holds (opts : Options) (env : SessionEnv) (stem : String) (d₀ : Files.Disk K) :
    Act.Holds (OnPart (new H target opts stem)) (Opened H (new H target opts stem) d₀ true)
      ((new H target opts stem).put H env.headerFails (headerLine target env.now)) fun p d =>
        (∀ e, p = .error e → Opened H (new H target opts stem) d₀ true d) ∧
        ∀ w, p = .ok w → Live H (new H target opts stem) d₀ w d ∧
          Progress H (new H target opts stem) target env.now [] w d := by
  refine put_holds H (same_refl _) _ _ ?_ ?_ ?_
  · exact fun d e h => ⟨fun _ _ => h, fun _ h' => by cases h'⟩
  · intro d h hSink
    refine ⟨fun _ h' => (by cases h'), fun w h' => ?_⟩
    cases h'
    rcases h.2 rfl with ⟨hFormat, -, hFile⟩ | ⟨-, hBuffer, -⟩
    · have hText : Function.update d (H.key (new H target opts stem).part)
          (Files.appended (Utf8.encode (lineText H.json (headerLine target env.now)))
            (d (H.key (new H target opts stem).part))) (H.key (new H target opts stem).part) =
          some (.file (linesBytes H.json (sessionLines target env.now []))) := by
        rw [Function.update_self, hFile, Files.appended, List.nil_append]
        simp [linesBytes, sessionLines]
      refine ⟨⟨same_refl _, fun _ => ?_, fun h' => absurd hSink h'⟩,
        same_refl _, rfl, .inl ⟨hFormat, hSink, hText⟩⟩
      rw [hText]
      rfl
    · rw [hBuffer] at hSink
      cases hSink
  · intro d lines h hSink
    refine ⟨fun _ h' => (by cases h'), fun w h' => ?_⟩
    cases h'
    rcases h.2 rfl with ⟨-, hLines, -⟩ | ⟨hFormat, hBuffer, hSame⟩
    · rw [hLines] at hSink
      cases hSink
    · rw [hBuffer, Sink.buffer.injEq] at hSink
      subst hSink
      exact ⟨⟨⟨rfl, rfl, rfl, rfl, rfl⟩, (fun h' => by cases h'), fun _ => hSame⟩,
        ⟨rfl, rfl, rfl, rfl, rfl⟩, rfl, .inr ⟨hFormat, rfl, rfl⟩⟩

/-- After `remove` the `.part` file is gone, or the disk is the one it never touched. -/
theorem remove_holds (w₀ : SessionWriter) (d₀ : Files.Disk K) :
    Act.Holds (OnPart w₀) (fun d => Files.isFile (d (H.key w₀.part)) = true ∨ d = d₀)
      (Files.remove H.key (some w₀.talker) w₀.part)
      fun _ d => d (H.key w₀.part) = none ∨ d = d₀ := by
  refine Files.holds_remove ⟨rfl, rfl⟩ ?_ ?_
  · rintro d (h | h) hNone
    · rw [h] at hNone
      cases hNone
    · exact .inr h
  · intro d _ _
    rw [Function.update_self]
    exact .inl rfl

/-- After an error of `begin` the `.part` file is gone, or nothing has happened. -/
theorem begin_holds (target : SessionTarget) (opts : Options) (env : SessionEnv) (stem : String) (d₀ : Files.Disk K) :
    Act.Holds (OnPart (new H target opts stem)) (· = d₀)
      (SessionWriter.begin H target opts env stem) fun p d =>
        (∀ e, p = .error e → d (H.key (new H target opts stem).part) = none ∨ d = d₀) ∧
        ∀ w, p = .ok w → Live H (new H target opts stem) d₀ w d ∧
          Progress H (new H target opts stem) target env.now [] w d := by
  rw [SessionWriter.begin]
  split_ifs
  · exact Act.holds_pure fun d h => ⟨fun _ _ => .inr h, fun _ h' => by cases h'⟩
  refine Act.Holds.bind (openSink_holds H opts stem env.createFails d₀) fun opened => ?_
  cases opened with
  | false => exact Act.holds_pure fun d h => ⟨fun _ _ => .inr (h.1 rfl), fun _ h' => by cases h'⟩
  | true =>
    refine Act.Holds.bind (header_holds H opts env stem d₀) fun p => ?_
    cases p with
    | ok w => exact Act.holds_pure fun d h => ⟨fun _ h' => (by cases h'), fun w' h' => h.2 w' h'⟩
    | error e =>
      refine Act.Holds.bind ((remove_holds H _ d₀).mono (fun d h => ?_) fun _ _ h => h) fun _ =>
        Act.holds_pure fun d h => ⟨fun _ _ => h, fun _ h' => by cases h'⟩
      rcases (h.1 e rfl).2 rfl with ⟨-, -, hFile⟩ | ⟨-, -, hSame⟩
      · rw [hFile]
        exact .inl rfl
      · exact .inr hSame

/-- A session that can be finished has its whole text in the `.part` file. -/
theorem finishInner_holds (target : SessionTarget) (now : Int64) {w : SessionWriter}
    (hSame : Same w₀ w) (env : SessionEnv) (d₀ d : Files.Disk K) :
    Act.Holds (OnPart w₀) (fun s => s = d ∧ Live H w₀ d₀ w s) (w.finishInner H env) fun p d' =>
        (∀ e, p = .error e → Files.isFile (d' (H.key w₀.part)) = true ∨ d' = d₀) ∧
        ∀ n, p = .ok n → ∃ bytes, d' (H.key w₀.part) = some (.file bytes) ∧
          ∀ rows, Progress H w₀ target now rows w d →
            Complete H.json w₀.format target now rows bytes ∧ n = UInt64.ofNat rows.length := by
  rw [finishInner]
  split
  · rename_i hSink
    refine Act.holds_pure ?_
    rintro s ⟨rfl, hLive⟩
    have hFile := hLive.opened hSink
    rw [hSame.part] at hFile
    refine ⟨fun _ _ => .inl hFile, fun n hn => ?_⟩
    obtain ⟨bytes, hBytes⟩ : ∃ bytes, s (H.key w₀.part) = some (.file bytes) := by
      revert hFile
      rcases s (H.key w₀.part) with _ | (bytes | _)
      · exact fun h => by cases h
      · exact fun _ => ⟨bytes, rfl⟩
      · exact fun h => by cases h
    refine ⟨bytes, hBytes, fun rows h => ?_⟩
    split at hn
    · cases hn
    cases hn
    refine ⟨?_, h.count⟩
    rcases h.content with ⟨hFormat, -, hContent⟩ | ⟨-, hBuffer, -⟩
    · rw [hSame.part, hBytes, Option.some.injEq, Files.Entry.file.injEq] at hContent
      rw [← hSame.format, hFormat, hContent]
      exact complete_jsonl H.json target now rows
    · rw [hBuffer] at hSink
      cases hSink
  · rename_i lines hSink
    have hNot : w.sink ≠ .lines := by rw [hSink]; simp
    dsimp only
    split_ifs
    · refine Act.holds_pure ?_
      rintro s ⟨rfl, hLive⟩
      exact ⟨fun _ _ => .inr (hLive.kept hNot), fun _ h' => by cases h'⟩
    have hPart : ∀ op : Files.Op Paths.Path, op.touched = [w.part] →
        OnPart w₀ (some w.talker, op) := by
      intro op hOp
      exact ⟨by rw [hSame.talker], by rw [hOp, hSame.part]⟩
    have hWrite : Act.Holds (OnPart w₀) (fun s => s = d ∧ Live H w₀ d₀ w s)
        (Files.write H.key (some w.talker) env.writeFault w.part
          (Utf8.encode (H.json.render (document lines w.members)).toList)) fun done d' =>
        (done = false → Files.isFile (d' (H.key w₀.part)) = true ∨ d' = d₀) ∧
        (done = true → d' (H.key w₀.part) = some (.file
          (Utf8.encode (H.json.render (document lines w.members)).toList))) := by
      refine Files.holds_write _ (hPart _ rfl) (fun _ => hPart _ rfl) ?_ ?_ ?_
      · rintro s ⟨-, hLive⟩
        exact ⟨fun _ => .inr (hLive.kept hNot), fun h => by cases h⟩
      · intro s bytes _
        rw [hSame.part, Function.update_self]
        exact ⟨fun _ => .inl rfl, fun h => by cases h⟩
      · intro s _
        rw [hSame.part, Function.update_self]
        exact ⟨fun h => (by cases h), fun _ => rfl⟩
    refine hWrite.bind fun done => ?_
    cases done with
    | false => exact Act.holds_pure fun s h => ⟨fun _ _ => h.1 rfl, fun _ h' => by cases h'⟩
    | true =>
      refine Act.holds_pure fun s h => ⟨fun _ h' => (by cases h'), fun n hn => ?_⟩
      cases hn
      refine ⟨_, h.2 rfl, fun rows hProgress => ⟨?_, hProgress.count⟩⟩
      rcases hProgress.content with ⟨-, hLines, -⟩ | ⟨hFormat, hBuffer, hMembers⟩
      · exact absurd hLines hNot
      · rw [hSink, Sink.buffer.injEq] at hBuffer
        have hMembers' : w.members = membersOf rows := congrArg Prod.snd hMembers
        rw [← hSame.format, hFormat, hBuffer, hMembers']
        exact complete_json H.json target now rows

end SessionWriter

/-! ## The whole session -/

open SessionWriter (new OnPart Live Progress)

variable {K : Type} [DecidableEq K] (H : Host K)

/-- What a session has done when it is over: after an error, calls on its `.part` file that leave
none behind; after success, calls on the `.part` file and then the rename of a file that is
complete if the fetch was honest. -/
inductive SessionEnd (target : SessionTarget) (opts : Options) (env : SessionEnv) (stem : String)
    (d : Files.Disk K) (ops : List (Option String × Files.Op Paths.Path))
    (pages : List (List Row)) : Except Failure UInt64 → Prop
  | failed (e : Failure) (hPart : ∀ o ∈ ops, OnPart (new H target opts stem) o)
      (hGone : replay (Files.effects _ H.key) d ops (H.key (opts.join H (partName stem opts.format)))
        = none ∨ replay (Files.effects _ H.key) d ops = d) :
      SessionEnd target opts env stem d ops pages (.error e)
  | written (n : UInt64) (before : List (Option String × Files.Op Paths.Path))
      (bytes : List UInt8) (hPart : ∀ o ∈ before, OnPart (new H target opts stem) o)
      (hOps : ops = before ++ [(some target.talker, .rename
        (opts.join H (partName stem opts.format)) (opts.join H (fileName stem opts.format)))])
      (hFile : replay (Files.effects _ H.key) d before
        (H.key (opts.join H (partName stem opts.format))) = some (.file bytes))
      (hComplete : env.fetch.Honest →
        Complete H.json opts.format target env.now (writtenRows pages) bytes ∧
        n = UInt64.ofNat (writtenRows pages).length) :
      SessionEnd target opts env stem d ops pages (.ok n)

variable {target : SessionTarget} {opts : Options} {env : SessionEnv} {stem : String}

theorem finish_end {w : SessionWriter} {d₀ d : Files.Disk K} {pages : List (List Row)}
    {before : List (Option String × Files.Op Paths.Path)}
    (hBefore : ∀ o ∈ before, OnPart (new H target opts stem) o)
    (hReplay : replay (Files.effects _ H.key) d₀ before = d)
    (hLive : Live H (new H target opts stem) d₀ w d)
    (hProgress : env.fetch.Honest → Progress H (new H target opts stem) target env.now
      (writtenRows pages) w d) :
    SessionEnd H target opts env stem d₀ (before ++ (w.finish H env).ops d) pages
      ((w.finish H env).result d) := by
  have hInner := SessionWriter.finishInner_holds H target env.now
    hLive.same env d₀ d d ⟨rfl, hLive⟩
  rw [SessionWriter.finish, Act.ops_bind, Act.result_bind]
  obtain ⟨hOps, hError, hOk⟩ := hInner
  have hTogether : ∀ o ∈ before ++ (w.finishInner H env).ops d,
      OnPart (new H target opts stem) o := by
    intro o ho
    exact (List.mem_append.mp ho).elim (hBefore o) (hOps o)
  have hAfter : replay (Files.effects _ H.key) d₀ (before ++ (w.finishInner H env).ops d) =
      (w.finishInner H env).after d := by
    rw [replay_append, hReplay]
    rfl
  have hRemove := SessionWriter.remove_holds H (new H target opts stem) d₀
    ((w.finishInner H env).after d)
  have hTalker : w.talker = target.talker := hLive.same.talker
  have hPart : w.part = opts.join H (partName stem opts.format) := hLive.same.part
  have hPath : w.path = opts.join H (fileName stem opts.format) := hLive.same.path
  have hFailed : ∀ e, Files.isFile ((w.finishInner H env).after d
        (H.key (new H target opts stem).part)) = true ∨ (w.finishInner H env).after d = d₀ →
      SessionEnd H target opts env stem d₀ (before ++ ((w.finishInner H env).ops d ++
        (Files.remove H.key (some w.talker) w.part).ops ((w.finishInner H env).after d)))
        pages (.error e) := by
    intro e hState
    obtain ⟨hOps', hGone⟩ := hRemove hState
    rw [hTalker, hPart]
    rw [← List.append_assoc]
    refine .failed e ?_ ?_
    · intro o ho
      exact (List.mem_append.mp ho).elim (hTogether o) (hOps' o)
    · rw [replay_append, hAfter]
      exact hGone
  cases hResult : (w.finishInner H env).result d with
  | error e =>
    dsimp only
    simp only [Act.ops_bind, Act.result_bind, Act.ops_pure, Act.result_pure, List.append_nil]
    exact hFailed e (hError e hResult)
  | ok n =>
    obtain ⟨bytes, hBytes, hComplete⟩ := hOk n hResult
    dsimp only
    simp only [Act.ops_bind, Act.result_bind]
    rcases Files.rename_cases (t := some w.talker) (p := w.part) (q := w.path)
      (d := (w.finishInner H env).after d) env.renameFails H.key with ⟨hDone, hOps'⟩ | ⟨hDone, hOps'⟩
    · rw [hDone, if_pos rfl, Act.ops_pure, Act.result_pure, List.append_nil, hOps',
        ← List.append_assoc, hTalker, hPart, hPath]
      refine .written n _ bytes hTogether rfl ?_ fun hHonest => ?_
      · rw [hAfter]
        exact hBytes
      · exact hComplete _ (hProgress hHonest)
    · have hAfter' : (Files.rename H.key (some w.talker) env.renameFails w.part w.path).after
          ((w.finishInner H env).after d) = (w.finishInner H env).after d := by
        rw [Act.after, hOps', replay_nil]
      rw [hDone, if_neg (by simp), hOps', hAfter']
      simp only [Act.ops_bind, Act.result_bind, Act.ops_pure, Act.result_pure, List.append_nil,
        List.nil_append]
      refine hFailed .other (.inl ?_)
      rw [show (new H target opts stem).part = opts.join H (partName stem opts.format) from rfl]
        at hBytes ⊢
      rw [hBytes]
      rfl

/-- Whatever the fetch does and whichever calls fail, a session ends in one of two ways. -/
theorem exportSession_end (target : SessionTarget) (opts : Options) (env : SessionEnv)
    (stem : String) (d : Files.Disk K) :
    SessionEnd H target opts env stem d ((exportSession H target opts env stem).ops d)
      ((exportSession H target opts env stem).result d).2
      ((exportSession H target opts env stem).result d).1 := by
  obtain ⟨hBeginOps, hBeginError, hBeginOk⟩ :=
    SessionWriter.begin_holds H target opts env stem d d rfl
  rw [exportSession, Act.ops_bind, Act.result_bind]
  cases hBegin : (SessionWriter.begin H target opts env stem).result d with
  | error e =>
    rw [Act.ops_pure, Act.result_pure, List.append_nil]
    exact .failed e hBeginOps (hBeginError e hBegin)
  | ok w =>
    obtain ⟨hLive, hProgress⟩ := hBeginOk w hBegin
    obtain ⟨hDriveOps, hDriveLive⟩ := SessionWriter.drive_live H env.fetch w _ hLive
    have hBefore : ∀ o ∈ (SessionWriter.begin H target opts env stem).ops d ++
        (SessionWriter.drive H env.fetch w).ops
          ((SessionWriter.begin H target opts env stem).after d),
        OnPart (new H target opts stem) o := by
      intro o ho
      exact (List.mem_append.mp ho).elim (hBeginOps o) (hDriveOps o)
    have hReplay : replay (Files.effects _ H.key) d
        ((SessionWriter.begin H target opts env stem).ops d ++
          (SessionWriter.drive H env.fetch w).ops
            ((SessionWriter.begin H target opts env stem).after d)) =
        (SessionWriter.drive H env.fetch w).after
          ((SessionWriter.begin H target opts env stem).after d) := by
      rw [replay_append]
      rfl
    dsimp only
    rw [Act.ops_bind, Act.result_bind, ← List.append_assoc]
    cases hDrive : ((SessionWriter.drive H env.fetch w).result
        ((SessionWriter.begin H target opts env stem).after d)).1 with
    | error e =>
      simp only [Act.ops_bind, Act.result_bind, Act.ops_pure, Act.result_pure, List.append_nil]
      have hPart : w.part = (new H target opts stem).part := hLive.same.part
      have hState : Files.isFile ((SessionWriter.drive H env.fetch w).after
          ((SessionWriter.begin H target opts env stem).after d)
          (H.key (new H target opts stem).part)) = true ∨
          (SessionWriter.drive H env.fetch w).after
            ((SessionWriter.begin H target opts env stem).after d) = d := by
        rw [← hDriveLive.same.part]
        by_cases hSink : ((SessionWriter.drive H env.fetch w).result
            ((SessionWriter.begin H target opts env stem).after d)).2.1.sink = .lines
        · exact .inl (hDriveLive.opened hSink)
        · exact .inr (hDriveLive.kept hSink)
      obtain ⟨hOps, hGone⟩ := SessionWriter.remove_holds H (new H target opts stem) d _ hState
      rw [hPart]
      refine .failed e ?_ ?_
      · intro o ho
        exact (List.mem_append.mp ho).elim (hBefore o) (hOps o)
      · rw [replay_append, hReplay]
        exact hGone
    | ok u =>
      simp only [Act.ops_bind, Act.result_bind, Act.ops_pure, Act.result_pure, List.append_nil]
      refine finish_end H hBefore hReplay hDriveLive fun hHonest => ?_
      have hRows := SessionWriter.drive_progress H hHonest hProgress hDrive
      rwa [List.nil_append] at hRows

end Weflow.Export
