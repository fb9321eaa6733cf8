import Weflow.Export.History

/-!
# What decides the fate of a session

`SessionEnv.verdict` says from the inputs of a session how it ends: from what its fetch hands over
and returns, from the calls that fail, from the secret, and from whether a directory stands in
the place of its files. `lastRound_fates` is the verdict on every target of a run, in terms of the
directory before the run: the files of other sessions do not matter, since their names differ.
-/

namespace Weflow.Export

open Effects
open Json (Value)

/-! ## Verdicts -/

/-- The answer of `page` in the line format: the error of the first line that holds the secret or
cannot be written. -/
def lineAnswer (J : Json.Text) (secret : String) (fails : Nat → Bool) :
    Nat → List Row → Except Failure Unit
  | _, [] => .ok ()
  | i, r :: rest =>
    if leaks J (J.render (messageLine r)) secret then .error .secretLeak
    else if fails i then .error .other
    else lineAnswer J secret fails (i + 1) rest

def pageAnswer (J : Json.Text) (format : Format) (secret : String) (rows : List Row)
    (fails : Nat → Bool) : Except Failure Unit :=
  match format with
  | .jsonl => lineAnswer J secret fails 0 (sortPage rows)
  | .json => .ok ()

/-- What a fetch returns, and the pages it hands over, when its pages are answered so. -/
def Fetch.verdict (answer : List Row → (Nat → Bool) → Except Failure Unit) :
    Fetch → Except Failure Unit × List (List Row)
  | .done result => (result, [])
  | .page rows fails next =>
    (((next (answer rows fails)).verdict answer).1,
      rows :: ((next (answer rows fails)).verdict answer).2)

/-- How many of the rows stand in front of the first that holds the secret or cannot be written. -/
def lineCount (J : Json.Text) (secret : String) (fails : Nat → Bool) : Nat → List Row → Nat
  | _, [] => 0
  | i, r :: rest =>
    if leaks J (J.render (messageLine r)) secret || fails i then 0
    else lineCount J secret fails (i + 1) rest + 1

def pageCount (J : Json.Text) (format : Format) (secret : String) (rows : List Row)
    (fails : Nat → Bool) : Nat :=
  match format with
  | .jsonl => lineCount J secret fails 0 (sortPage rows)
  | .json => (sortPage rows).length

/-- How many of the rows that a fetch hands over are written. -/
def Fetch.count (J : Json.Text) (format : Format) (secret : String) : Fetch → Nat
  | .done _ => 0
  | .page rows fails next => pageCount J format secret rows fails +
      (next (pageAnswer J format secret rows fails)).count J format secret

/-- How a session ends. `partDir` and `pathDir` say that a directory stands under its names. -/
def SessionEnv.verdict (J : Json.Text) (opts : Options) (target : SessionTarget)
    (env : SessionEnv) (partDir pathDir : Bool) : Except Failure Unit :=
  let fetched := env.fetch.verdict (pageAnswer J opts.format opts.secret)
  let body := document (sessionLines target env.now (writtenRows fetched.2))
    (membersOf (writtenRows fetched.2))
  if env.createDirFails then .error .other
  else match opts.format with
    | .jsonl =>
      if env.createFails || partDir then .error .other
      else if leaks J (J.render (headerLine target env.now)) opts.secret then .error .secretLeak
      else if env.headerFails then .error .other
      else match fetched.1 with
        | .error e => .error e
        | .ok _ => if env.flushFails || env.renameFails || pathDir then .error .other else .ok ()
    | .json =>
      match fetched.1 with
      | .error e => .error e
      | .ok _ =>
        if leaks J (J.render body) opts.secret then .error .secretLeak
        else if env.writeFault.fails || partDir || env.renameFails || pathDir then .error .other
        else .ok ()

namespace SessionWriter

variable {K : Type} [DecidableEq K] (H : Host K)

/-- The sink is that of the format. -/
def Fits (w : SessionWriter) : Prop :=
  w.format = .jsonl ∧ w.sink = .lines ∨ w.format = .json ∧ ∃ lines, w.sink = .buffer lines

/-- The same settings, and still the sink of the format. -/
structure Continues (w w' : SessionWriter) : Prop where
  fits : Fits w'
  format : w'.format = w.format
  secret : w'.secret = w.secret

theorem continues_meet {w : SessionWriter} (h : Fits w) (r : Row) : Continues w (w.meet r) := by
  rw [meet]
  split
  · exact ⟨h, rfl, rfl⟩
  · exact ⟨h, rfl, rfl⟩

omit [DecidableEq K] in
theorem fits_new (target : SessionTarget) (opts : Options) (stem : String) :
    Fits (new H target opts stem) := by
  cases hFormat : opts.format with
  | jsonl => exact .inl ⟨hFormat, by simp [new, hFormat]⟩
  | json => exact .inr ⟨hFormat, [], by simp [new, hFormat]⟩

/-- The answer of `put`, whatever stands on the disk. -/
theorem put_answer {w : SessionWriter} (h : Fits w) (fails : Bool) (v : Value)
    (d : Files.Disk K) :
    (w.format = .json ∨ leaks H.json (H.json.render v) w.secret = false ∧ fails = false) ∧
      (∃ w', (w.put H fails v).result d = .ok w' ∧ Continues w w') ∨
    w.format = .jsonl ∧ leaks H.json (H.json.render v) w.secret = true ∧
      (w.put H fails v).result d = .error .secretLeak ∨
    w.format = .jsonl ∧ leaks H.json (H.json.render v) w.secret = false ∧ fails = true ∧
      (w.put H fails v).result d = .error .other := by
  rcases h with ⟨hFormat, hSink⟩ | ⟨hFormat, lines, hSink⟩
  · rw [put, hSink]
    dsimp only
    split_ifs with hLeak hFails
    · exact .inr (.inl ⟨hFormat, hLeak, rfl⟩)
    · exact .inr (.inr ⟨hFormat, by simpa using hLeak, hFails, rfl⟩)
    · refine .inl ⟨.inr ⟨by simpa using hLeak, by simpa using hFails⟩, w, rfl, ?_⟩
      exact ⟨.inl ⟨hFormat, hSink⟩, rfl, rfl⟩
  · rw [put, hSink]
    exact .inl ⟨.inl hFormat, _, rfl, .inr ⟨hFormat, _, rfl⟩, rfl, rfl⟩

theorem putRows_answer (fails : Nat → Bool) (rows : List Row) (i : Nat) {w : SessionWriter}
    (h : Fits w) (d : Files.Disk K) :
    ((putRows H fails i rows w).result d).1 = (match w.format with
      | .jsonl => lineAnswer H.json w.secret fails i rows
      | .json => .ok ()) ∧
    Continues w ((putRows H fails i rows w).result d).2 := by
  induction rows generalizing i w d with
  | nil =>
    refine ⟨?_, h, rfl, rfl⟩
    rw [putRows, Act.result_pure]
    cases w.format <;> rfl
  | cons r rest ih =>
    have hMeet := continues_meet h r
    rw [putRows, Act.result_bind]
    rcases put_answer H hMeet.fits (fails i) (messageLine r) d with
      ⟨hClean, w', hPut, hNext⟩ | ⟨hFormat, hLeak, hPut⟩ | ⟨hFormat, hLeak, hFails, hPut⟩
    · rw [hPut]
      dsimp only
      have hFits : Fits { w' with count := w'.count + 1 } := hNext.fits
      obtain ⟨hAnswer, hAfter⟩ := ih (i + 1) hFits
        (((w.meet r).put H (fails i) (messageLine r)).after d)
      refine ⟨?_, hAfter.fits, hAfter.format.trans (hNext.format.trans hMeet.format),
        hAfter.secret.trans (hNext.secret.trans hMeet.secret)⟩
      rw [hAnswer, hNext.format, hNext.secret, hMeet.format, hMeet.secret]
      rw [hMeet.format, hMeet.secret] at hClean
      cases hFormat : w.format with
      | json => rfl
      | jsonl =>
        rw [hFormat] at hClean
        obtain ⟨hLeak, hFails⟩ := hClean.resolve_left (by simp)
        dsimp only
        rw [lineAnswer, hLeak, hFails]
        rfl
    · rw [hPut]
      refine ⟨?_, hMeet⟩
      rw [hMeet.format] at hFormat
      rw [hMeet.secret] at hLeak
      rw [hFormat]
      dsimp only
      rw [lineAnswer, hLeak]
      rfl
    · rw [hPut]
      refine ⟨?_, hMeet⟩
      rw [hMeet.format] at hFormat
      rw [hMeet.secret] at hLeak
      rw [hFormat]
      dsimp only
      rw [lineAnswer, hLeak, hFails]
      rfl

theorem put_count {w w' : SessionWriter} {fails : Bool} {v : Value} {d : Files.Disk K}
    (h : (w.put H fails v).result d = .ok w') : w'.count = w.count := by
  rw [put] at h
  split at h
  · split_ifs at h
    · cases h
    · cases h
    · cases h
      rfl
  · cases h
    rfl

theorem meet_count (w : SessionWriter) (r : Row) : (w.meet r).count = w.count := by
  rw [meet]
  split <;> rfl

theorem putRows_count (fails : Nat → Bool) (rows : List Row) (i : Nat) {w : SessionWriter}
    (h : Fits w) (d : Files.Disk K) :
    ((putRows H fails i rows w).result d).2.count = w.count + UInt64.ofNat (match w.format with
      | .jsonl => lineCount H.json w.secret fails i rows
      | .json => rows.length) := by
  induction rows generalizing i w d with
  | nil =>
    rw [putRows, Act.result_pure]
    cases w.format <;> exact (UInt64.add_zero _).symm
  | cons r rest ih =>
    have hMeet := continues_meet h r
    rw [putRows, Act.result_bind]
    rcases put_answer H hMeet.fits (fails i) (messageLine r) d with
      ⟨hClean, w', hPut, hNext⟩ | ⟨hFormat, hLeak, hPut⟩ | ⟨hFormat, hLeak, hFails, hPut⟩
    · rw [hPut]
      dsimp only
      have hFits : Fits { w' with count := w'.count + 1 } := hNext.fits
      have hCount : w'.count = w.count := (put_count H hPut).trans (meet_count w r)
      rw [ih (i + 1) hFits (((w.meet r).put H (fails i) (messageLine r)).after d)]
      dsimp only
      rw [hCount, hNext.format, hNext.secret, hMeet.format, hMeet.secret, UInt64.add_assoc]
      rw [hMeet.format, hMeet.secret] at hClean
      congr 1
      cases hFormat : w.format with
      | json =>
        rw [List.length_cons, UInt64.ofNat_add, UInt64.add_comm]
        rfl
      | jsonl =>
        rw [hFormat] at hClean
        obtain ⟨hLeak, hFails⟩ := hClean.resolve_left (by simp)
        dsimp only
        rw [lineCount, hLeak, hFails, if_neg (by simp), UInt64.ofNat_add, UInt64.add_comm]
        rfl
    · rw [hPut]
      rw [hMeet.format] at hFormat
      rw [hMeet.secret] at hLeak
      rw [hFormat]
      dsimp only
      rw [lineCount, hLeak, Bool.true_or, if_pos rfl, Act.result_pure, meet_count]
      exact (UInt64.add_zero _).symm
    · rw [hPut]
      rw [hMeet.format] at hFormat
      rw [hFormat]
      dsimp only
      rw [lineCount, hFails, Bool.or_true, if_pos rfl, Act.result_pure, meet_count]
      exact (UInt64.add_zero _).symm

theorem drive_count (f : Fetch) {w : SessionWriter} (h : Fits w) (d : Files.Disk K) :
    ((w.drive H f).result d).2.1.count =
      w.count + UInt64.ofNat (f.count H.json w.format w.secret) := by
  induction f generalizing w d with
  | done result => exact (UInt64.add_zero _).symm
  | page rows fails next ih =>
    have hAnswer : ((w.page H rows fails).result d).1 =
        pageAnswer H.json w.format w.secret rows fails :=
      (putRows_answer H fails (sortPage rows) 0 h d).1
    have hPage : Continues w ((w.page H rows fails).result d).2 :=
      (putRows_answer H fails (sortPage rows) 0 h d).2
    have hCount : ((w.page H rows fails).result d).2.count =
        w.count + UInt64.ofNat (pageCount H.json w.format w.secret rows fails) :=
      putRows_count H fails (sortPage rows) 0 h d
    have hRest := ih (pageAnswer H.json w.format w.secret rows fails) hPage.fits
      ((w.page H rows fails).after d)
    rw [hPage.format, hPage.secret, hCount] at hRest
    rw [drive, Act.result_bind, Act.result_bind, Act.result_pure, hAnswer, Fetch.count,
      UInt64.ofNat_add, ← UInt64.add_assoc]
    exact hRest

theorem drive_verdict (f : Fetch) {w : SessionWriter} (h : Fits w) (d : Files.Disk K) :
    ((w.drive H f).result d).1 = (f.verdict (pageAnswer H.json w.format w.secret)).1 ∧
    ((w.drive H f).result d).2.2 = (f.verdict (pageAnswer H.json w.format w.secret)).2 ∧
    Continues w ((w.drive H f).result d).2.1 := by
  induction f generalizing w d with
  | done result => exact ⟨rfl, rfl, h, rfl, rfl⟩
  | page rows fails next ih =>
    obtain ⟨hAnswer, hPage⟩ := putRows_answer H fails (sortPage rows) 0 h d
    have hPageAnswer : ((w.page H rows fails).result d).1 =
        pageAnswer H.json w.format w.secret rows fails := hAnswer
    obtain ⟨hFirst, hPages, hNext⟩ := ih (pageAnswer H.json w.format w.secret rows fails)
      hPage.fits ((w.page H rows fails).after d)
    rw [hPage.format, hPage.secret] at hFirst hPages
    rw [drive, Act.result_bind, Act.result_bind, Act.result_pure, hPageAnswer, Fetch.verdict]
    refine ⟨hFirst, congrArg (rows :: ·) hPages, hNext.fits, hNext.format.trans hPage.format,
      hNext.secret.trans hPage.secret⟩

variable {target : SessionTarget} {opts : Options} {env : SessionEnv} {stem : String}
  {d : Files.Disk K}

variable (target opts env stem d) in
/-- `begin` opens the session, or its error is the verdict. -/
theorem begin_verdict : (∃ w, (begin H target opts env stem).result d = .ok w ∧
      Continues (new H target opts stem) w ∧ env.createDirFails = false ∧
      (opts.format = .jsonl → (env.createFails ||
          Files.isDirectory (d (H.key (opts.part H stem)))) = false ∧
        leaks H.json (H.json.render (headerLine target env.now)) opts.secret = false ∧
        env.headerFails = false)) ∨
    ∃ e, (begin H target opts env stem).result d = .error e ∧ ∀ pathDir,
      env.verdict H.json opts target (Files.isDirectory (d (H.key (opts.part H stem)))) pathDir =
        .error e := by
  have hFits := fits_new H target opts stem
  have hSecret : (new H target opts stem).secret = opts.secret := rfl
  rw [begin]
  by_cases hDir : env.createDirFails = true
  · rw [if_pos hDir]
    refine .inr ⟨.other, rfl, fun pathDir => ?_⟩
    rw [SessionEnv.verdict, hDir]
    rfl
  rw [if_neg hDir]
  have hNoDir : env.createDirFails = false := by simpa using hDir
  dsimp only
  rw [Act.result_bind]
  cases hFormat : opts.format with
  | jsonl =>
    have hSink : (new H target opts stem).sink = .lines := by simp [new, hFormat]
    have hOpen : ((new H target opts stem).openSink H env.createFails).result d =
        !(env.createFails || Files.isDirectory (d (H.key (opts.part H stem)))) := by
      rw [openSink, hSink]
      exact Files.create_result
    rw [hOpen]
    cases hFails : env.createFails || Files.isDirectory (d (H.key (opts.part H stem))) with
    | true =>
      refine .inr ⟨.other, rfl, fun pathDir => ?_⟩
      rw [SessionEnv.verdict, hNoDir, hFormat]
      simp only [Bool.false_eq_true, if_false]
      rw [hFails, if_pos rfl]
    | false =>
      rw [Bool.not_false, if_pos rfl, Act.result_bind]
      rcases put_answer H hFits env.headerFails (headerLine target env.now)
        (((new H target opts stem).openSink H env.createFails).after d) with
        ⟨hClean, w', hPut, hNext⟩ | ⟨-, hLeak, hPut⟩ | ⟨-, hLeak, hHeader, hPut⟩
      · rw [hPut]
        obtain ⟨hLeak, hHeader⟩ := hClean.resolve_left (by simp [new, hFormat])
        exact .inl ⟨w', rfl, hNext, hNoDir, fun _ => ⟨rfl, hLeak, hHeader⟩⟩
      · rw [hSecret] at hLeak
        rw [hPut]
        refine .inr ⟨.secretLeak, rfl, fun pathDir => ?_⟩
        rw [SessionEnv.verdict, hNoDir, hFormat]
        simp only [Bool.false_eq_true, if_false]
        rw [hFails, if_neg (by simp), if_pos hLeak]
      · rw [hSecret] at hLeak
        rw [hPut]
        refine .inr ⟨.other, rfl, fun pathDir => ?_⟩
        rw [SessionEnv.verdict, hNoDir, hFormat]
        simp only [Bool.false_eq_true, if_false]
        rw [hFails, if_neg (by simp), if_neg (by simp [hLeak]), if_pos hHeader]
  | json =>
    have hSink : (new H target opts stem).sink = .buffer [] := by simp [new, hFormat]
    have hOpen : ((new H target opts stem).openSink H env.createFails).result d = true := by
      rw [openSink, hSink]
      rfl
    rw [hOpen, if_pos rfl, Act.result_bind]
    rcases put_answer H hFits env.headerFails (headerLine target env.now)
      (((new H target opts stem).openSink H env.createFails).after d) with
      ⟨-, w', hPut, hNext⟩ | ⟨hLines, -⟩ | ⟨hLines, -⟩
    · rw [hPut]
      exact .inl ⟨w', rfl, hNext, hNoDir, fun h' => by cases h'⟩
    · simp [new, hFormat] at hLines
    · simp [new, hFormat] at hLines

/-- In the document format every row handed over is kept, whatever the fetch does. -/
theorem drive_progress_json {w₀ : SessionWriter} {now : Int64} (f : Fetch) {rows : List Row}
    {w : SessionWriter} {d : Files.Disk K} (hJson : w.format = .json)
    (h : Progress H w₀ target now rows w d) :
    Progress H w₀ target now (rows ++ writtenRows ((drive H f w).result d).2.2)
      ((drive H f w).result d).2.1 ((drive H f w).after d) := by
  induction f generalizing rows w d with
  | done result =>
    rw [drive, Act.result_pure, Act.after_pure, writtenRows, List.flatMap_nil, List.append_nil]
    exact h
  | page page fails next ih =>
    have hFits : Fits w := by
      rcases h.content with ⟨hFormat, hSink, -⟩ | ⟨hFormat, hSink, -⟩
      · exact .inl ⟨hFormat, hSink⟩
      · exact .inr ⟨hFormat, _, hSink⟩
    obtain ⟨hAnswer, hPage⟩ := putRows_answer H fails (sortPage page) 0 hFits d
    rw [hJson] at hAnswer
    have hOk : ((SessionWriter.page H w page fails).result d).1 = .ok () := hAnswer
    have hNext := (putRows_progress H fails (sortPage page) 0 rows w d h).2 hAnswer
    have hRest := ih (.ok ()) (hPage.format.trans hJson) hNext
    rw [drive]
    simp only [Act.result_bind, Act.after_bind, Act.result_pure, Act.after_pure]
    rw [hOk, writtenRows, List.flatMap_cons, ← List.append_assoc]
    exact hRest

theorem begin_count {w : SessionWriter} (h : (begin H target opts env stem).result d = .ok w) :
    w.count = 0 := by
  rw [begin] at h
  split at h
  · cases h
  dsimp only at h
  rw [Act.result_bind] at h
  split at h
  · rw [Act.result_bind] at h
    cases hPut : ((new H target opts stem).put H env.headerFails
        (headerLine target env.now)).result
          (((new H target opts stem).openSink H env.createFails).after d) with
    | ok w' =>
      rw [hPut] at h
      obtain rfl : w' = w := Except.ok.inj h
      exact put_count H hPut
    | error e =>
      rw [hPut] at h
      cases h
  · cases h

theorem finish_count {w : SessionWriter} {n : UInt64} (h : (w.finish H env).result d = .ok n) :
    n = w.count := by
  rw [finish, Act.result_bind] at h
  cases hInner : (w.finishInner H env).result d with
  | error e =>
    rw [hInner] at h
    cases h
  | ok m =>
    rw [hInner] at h
    have hCount : m = w.count := by
      rw [finishInner] at hInner
      split at hInner
      · rw [Act.result_pure] at hInner
        split at hInner
        · cases hInner
        · exact (Except.ok.inj hInner).symm
      · dsimp only at hInner
        split at hInner
        · cases hInner
        rw [Act.result_bind] at hInner
        split at hInner
        · exact (Except.ok.inj hInner).symm
        · cases hInner
    dsimp only at h
    rw [Act.result_bind] at h
    split at h
    · exact (Except.ok.inj h).symm.trans hCount
    · cases h

/-- How `finish` ends, from the disk that `begin` found. -/
theorem finish_verdict {w : SessionWriter} {s : Files.Disk K}
    (hKeys : H.key (opts.path H stem) ≠ H.key (opts.part H stem))
    (hLive : Live H (new H target opts stem) d w s) (hFits : Fits w)
    (hPath : s (H.key (opts.path H stem)) = d (H.key (opts.path H stem)))
    {rows : List Row} (hProgress : opts.format = .json →
      Progress H (new H target opts stem) target env.now rows w s) :
    ((w.finish H env).result s).map (fun _ => ()) = (match opts.format with
      | .jsonl =>
        if env.flushFails || env.renameFails ||
          Files.isDirectory (d (H.key (opts.path H stem))) then .error .other else .ok ()
      | .json =>
        if leaks H.json (H.json.render (document (sessionLines target env.now rows)
          (membersOf rows))) opts.secret then .error .secretLeak
        else if env.writeFault.fails || Files.isDirectory (d (H.key (opts.part H stem))) ||
          env.renameFails || Files.isDirectory (d (H.key (opts.path H stem))) then .error .other
        else .ok ()) := by
  have hPart : w.part = opts.part H stem := hLive.same.part
  have hFile : w.path = opts.path H stem := hLive.same.path
  have hSecret : w.secret = opts.secret := hLive.same.secret
  have hWriter : w.format = opts.format := hLive.same.format
  rw [finish, Act.result_bind]
  cases hFormat : opts.format with
  | jsonl =>
    rw [hFormat] at hWriter
    have hSink : w.sink = .lines := by
      rcases hFits with ⟨-, hSink⟩ | ⟨hJson, -⟩
      · exact hSink
      · rw [hWriter] at hJson
        cases hJson
    have hOpened := hLive.opened hSink
    rw [hPart] at hOpened
    rw [finishInner, hSink]
    dsimp only
    rw [Act.result_pure, Act.after_pure]
    cases hFlush : env.flushFails with
    | true => rfl
    | false =>
      simp only [Bool.false_eq_true, if_false, Bool.false_or]
      rw [Act.result_bind, Files.rename_result, hPart, hFile, hOpened, hPath, Bool.not_true,
        Bool.or_false]
      cases env.renameFails || Files.isDirectory (d (H.key (opts.path H stem))) <;> rfl
  | json =>
    rw [hFormat] at hWriter
    obtain ⟨hSame, -, hContent⟩ := hProgress hFormat
    rcases hContent with ⟨hJsonl, -⟩ | ⟨-, hSink, hMembers⟩
    · rw [hWriter] at hJsonl
      cases hJsonl
    have hKept : s = d := hLive.kept (by rw [hSink]; simp)
    have hMembers' : w.members = membersOf rows := congrArg Prod.snd hMembers
    rw [finishInner, hSink, hMembers', hSecret]
    dsimp only
    by_cases hLeak : leaks H.json (H.json.render (document (sessionLines target env.now rows)
        (membersOf rows))) opts.secret = true
    · rw [if_pos hLeak, if_pos hLeak]
      rfl
    rw [if_neg hLeak, if_neg hLeak, Act.result_bind, Act.after_bind]
    have hWrite : (Files.write H.key (some w.talker) env.writeFault w.part
        (Utf8.encode (H.json.render (document (sessionLines target env.now rows)
          (membersOf rows))).toList)).result s =
        !(env.writeFault.fails || Files.isDirectory (s (H.key w.part))) :=
      Files.write_result env.writeFault
    cases hFault : env.writeFault.fails || Files.isDirectory (s (H.key w.part)) with
    | true =>
      rw [hFault, Bool.not_true] at hWrite
      rw [hKept, hPart] at hFault
      rw [hWrite, if_neg (by simp), Act.result_pure, hFault]
      rfl
    | false =>
      rw [hFault, Bool.not_false] at hWrite
      rw [hKept, hPart] at hFault
      rw [hWrite, if_pos rfl, Act.result_pure, Act.after_pure, Files.write_after hWrite]
      dsimp only
      rw [Act.result_bind, Files.rename_result, hPart, hFile, Function.update_self,
        Function.update_of_ne hKeys, hPath, hFault, Bool.false_or]
      simp only [Files.isFile, Bool.not_true, Bool.or_false]
      cases env.renameFails || Files.isDirectory (d (H.key (opts.path H stem))) <;> rfl

end SessionWriter

section Sessions

open SessionWriter (new)

variable {K : Type} [DecidableEq K] (H : Host K) {target : SessionTarget} {opts : Options}
  {env : SessionEnv} {stem : String} {d : Files.Disk K}

/-- A session ends as its verdict says. -/
theorem exportSession_verdict (hKeys : H.key (opts.path H stem) ≠ H.key (opts.part H stem)) :
    ((exportSession H target opts env stem).result d).1.map (fun _ => ()) =
      env.verdict H.json opts target (Files.isDirectory (d (H.key (opts.part H stem))))
        (Files.isDirectory (d (H.key (opts.path H stem)))) := by
  obtain ⟨hBeginOps, -, hBeginOk⟩ := SessionWriter.begin_holds H target opts env stem d d rfl
  rw [exportSession, Act.result_bind]
  rcases SessionWriter.begin_verdict H target opts env stem d with
    ⟨w, hBegin, hNew, hDir, hOpen⟩ | ⟨e, hBegin, hVerdict⟩
  · have hFormat : w.format = opts.format := hNew.format
    have hSecret : w.secret = opts.secret := hNew.secret
    obtain ⟨hLive, hProgress⟩ := hBeginOk w hBegin
    obtain ⟨hDriveOps, hDriveLive⟩ := SessionWriter.drive_live H env.fetch w _ hLive
    obtain ⟨hFetched, hPages, hContinues⟩ := SessionWriter.drive_verdict H env.fetch hNew.fits
      ((SessionWriter.begin H target opts env stem).after d)
    rw [hFormat, hSecret] at hFetched hPages
    -- the calls so far were made on the `.part` file
    have hPath : (SessionWriter.drive H env.fetch w).after
        ((SessionWriter.begin H target opts env stem).after d) (H.key (opts.path H stem)) =
        d (H.key (opts.path H stem)) := by
      have hOnPart : ∀ {ops : List (Option String × Files.Op Paths.Path)} {s : Files.Disk K},
          (∀ o ∈ ops, SessionWriter.OnPart (new H target opts stem) o) →
          replay (Files.effects _ H.key) s ops (H.key (opts.path H stem)) =
            s (H.key (opts.path H stem)) := by
        intro ops s hOps
        refine Files.replay_frame fun o ho p hp => ?_
        rw [(hOps o ho).2, List.mem_singleton] at hp
        rw [hp]
        exact hKeys.symm
      exact (hOnPart hDriveOps).trans (hOnPart hBeginOps)
    have hJson : opts.format = .json → SessionWriter.Progress H (new H target opts stem) target
        env.now (writtenRows (env.fetch.verdict (pageAnswer H.json opts.format opts.secret)).2)
        ((SessionWriter.drive H env.fetch w).result
          ((SessionWriter.begin H target opts env stem).after d)).2.1
        ((SessionWriter.drive H env.fetch w).after
          ((SessionWriter.begin H target opts env stem).after d)) := by
      intro hIsJson
      have hRows := SessionWriter.drive_progress_json H env.fetch (hFormat.trans hIsJson) hProgress
      rwa [List.nil_append, hPages] at hRows
    have hFinish := SessionWriter.finish_verdict H hKeys hDriveLive hContinues.fits hPath hJson
    rw [hBegin, SessionEnv.verdict, hDir]
    dsimp only
    simp only [Bool.false_eq_true, if_false]
    rw [Act.result_bind, hFetched]
    cases hFirst : (env.fetch.verdict (pageAnswer H.json opts.format opts.secret)).1 with
    | error e =>
      simp only [Act.result_bind, Act.result_pure]
      cases hIs : opts.format with
      | json => rfl
      | jsonl =>
        obtain ⟨hOpenFile, hLeak, hHeader⟩ := hOpen hIs
        simp only [hOpenFile, hLeak, hHeader, Bool.false_eq_true, if_false]
        rfl
    | ok u =>
      simp only [Act.result_bind, Act.result_pure]
      rw [hFinish]
      cases hIs : opts.format with
      | json => rfl
      | jsonl =>
        obtain ⟨hOpenFile, hLeak, hHeader⟩ := hOpen hIs
        simp only [hOpenFile, hLeak, hHeader, Bool.false_eq_true, if_false]
  · rw [hBegin, hVerdict]
    rfl

/-- A session that is written has as many messages as its fetch hands over and it writes. -/
theorem exportSession_count {n : UInt64}
    (h : ((exportSession H target opts env stem).result d).1 = .ok n) :
    n = UInt64.ofNat (env.fetch.count H.json opts.format opts.secret) := by
  rw [exportSession, Act.result_bind] at h
  rcases SessionWriter.begin_verdict H target opts env stem d with
    ⟨w, hBegin, hNew, -⟩ | ⟨e, hBegin, -⟩
  · have hFormat : w.format = opts.format := hNew.format
    have hSecret : w.secret = opts.secret := hNew.secret
    have hDrive := SessionWriter.drive_count H env.fetch hNew.fits
      ((SessionWriter.begin H target opts env stem).after d)
    rw [SessionWriter.begin_count H hBegin, hFormat, hSecret, UInt64.zero_add] at hDrive
    rw [hBegin] at h
    dsimp only at h
    rw [Act.result_bind] at h
    split at h
    · cases h
    · rw [Act.result_bind, Act.result_pure] at h
      exact (SessionWriter.finish_count H h).trans hDrive
  · rw [hBegin] at h
    cases h

end Sessions

/-! ## Fates -/

section Fates

variable {K : Type} [DecidableEq K] (H : Host K) (targets : List SessionTarget) (opts : Options)
  (env : CallEnv) (index : Index) (d : Files.Disk K)

/-- The verdict on a session of a run. -/
def verdictOf (i : Nat) (target : SessionTarget) (stem : String) : Except Failure Unit :=
  (env.session i).verdict H.json opts target (Files.isDirectory (d (H.key (opts.part H stem))))
    (Files.isDirectory (d (H.key (opts.path H stem))))

/-- The number of messages of a session of a run. -/
def countOf (i : Nat) : UInt64 :=
  UInt64.ofNat ((env.session i).fetch.count H.json opts.format opts.secret)

/-- The index and the directory let the session be exported. -/
structure Open (target : SessionTarget) (stem : String) : Prop where
  first : opts.resume = false → d (H.key (opts.path H stem)) = none ∨
    index.owner (fileName stem opts.format) = some target.talker
  again : opts.resume = true → (d (H.key (opts.path H stem))).isSome = true →
    reusable H opts index target stem (opts.path H stem) d = false

/-- What the fate of a report says about the directory before the run, and the other way round. -/
inductive Fated (i : Nat) (rep : Report) : Prop
  | refused (hFate : rep.fate = .refused) (hFirst : opts.resume = false)
      (hHere : (d (H.key (opts.path H rep.stem))).isSome = true)
      (hOwner : index.owner (fileName rep.stem opts.format) ≠ some rep.target.talker)
  | reused (hFate : rep.fate = .reused) (hResume : opts.resume = true)
      (hHere : (d (H.key (opts.path H rep.stem))).isSome = true)
      (hReusable : reusable H opts index rep.target rep.stem (opts.path H rep.stem) d = true)
  | failed (e : Failure) (hFate : rep.fate = .failed e)
      (hOpen : Open H opts index d rep.target rep.stem)
      (hVerdict : verdictOf H opts env d i rep.target rep.stem = .error e)
  | written (n : UInt64) (hFate : rep.fate = .written n)
      (hOpen : Open H opts index d rep.target rep.stem)
      (hVerdict : verdictOf H opts env d i rep.target rep.stem = .ok ())
      (hCount : n = countOf H opts env i)

variable {H targets opts env index d}

omit [DecidableEq K] in
/-- The files of a session are untouched until its turn. -/
theorem Named.untouched {previous : Index} {r : Round} (h : Named previous r) {rep : Report}
    {s : Files.Disk K} (hPlace : ∀ k, Place H opts env d s r.reports k) (hStem : Stem rep.stem)
    (hApart : ∀ rep' ∈ r.reports, foldCase rep.stem ≠ foldCase rep'.stem) :
    s (H.key (opts.path H rep.stem)) = d (H.key (opts.path H rep.stem)) ∧
      s (H.key (opts.part H rep.stem)) = d (H.key (opts.part H rep.stem)) := by
  constructor
  · cases hPlace (H.key (opts.path H rep.stem)) with
    | same hSame => exact hSame
    | part rep' hRep' hKey hGone =>
      exact absurd hKey (key_file_ne_part H hStem (h.stem rep' hRep').1 opts.format)
    | delivered rep' n bytes hRep' hFate hKey hFile hDelivered =>
      exact absurd (key_path H hStem (h.stem rep' hRep').1 hKey) (hApart rep' hRep')
  · cases hPlace (H.key (opts.part H rep.stem)) with
    | same hSame => exact hSame
    | part rep' hRep' hKey hGone =>
      exact absurd (key_part H hStem (h.stem rep' hRep').1 hKey) (hApart rep' hRep')
    | delivered rep' n bytes hRep' hFate hKey hFile hDelivered =>
      exact absurd hKey.symm (key_file_ne_part H (h.stem rep' hRep').1 hStem opts.format)

omit [DecidableEq K] in
/-- `reusable` reads the two files of the session only. -/
theorem reusable_congr {previous : Index} {target : SessionTarget} {stem : String}
    {s : Files.Disk K} (hPath : s (H.key (opts.path H stem)) = d (H.key (opts.path H stem)))
    (hPart : s (H.key (opts.part H stem)) = d (H.key (opts.part H stem))) :
    reusable H opts previous target stem (opts.path H stem) s =
      reusable H opts previous target stem (opts.path H stem) d := by
  rw [Options.part] at hPart
  rw [reusable, reusable, hPath, hPart]

theorem getElem?_concat {A : Type} {l : List A} {a b : A} {i : Nat}
    (h : (l ++ [a])[i]? = some b) : l[i]? = some b ∨ i = l.length ∧ a = b := by
  by_cases hOld : i < l.length
  · rw [List.getElem?_append_left hOld] at h
    exact .inl h
  · rw [List.getElem?_append_right (by omega), List.getElem?_singleton] at h
    split_ifs at h with hZero
    exact .inr ⟨by omega, Option.some.inj h⟩

/-- The reports so far are apart from the next one. -/
theorem talker_notMem (hTalkers : (targets.map (·.talker)).Nodup) {r : Round}
    {target : SessionTarget}
    (hReports : r.reports.map (·.target) = targets.take r.reports.length)
    (hTarget : targets[r.reports.length]? = some target) :
    ∀ rep ∈ r.reports, rep.target.talker ≠ target.talker := by
  intro rep hRep hEq
  have hTake : rep.target ∈ targets.take r.reports.length := by
    rw [← hReports]
    exact List.mem_map_of_mem hRep
  obtain ⟨i, hGet⟩ := List.mem_iff_getElem?.mp hTake
  rw [List.getElem?_take] at hGet
  split_ifs at hGet with hLess
  have hLength := (List.getElem?_eq_some_iff.mp hGet).1
  have hSame : (targets.map (·.talker))[i]? = (targets.map (·.talker))[r.reports.length]? := by
    rw [List.getElem?_map, List.getElem?_map, hGet, hTarget, Option.map_some, Option.map_some, hEq]
  have := (List.getElem?_inj (by rwa [List.length_map]) hTalkers).mp hSame
  omega

/-- The fate of one target, when its files are as they were before the run and none of the run is
its own. -/
theorem TargetEnd.fated {previous : Index} (hPrevious : opts.resume = true → previous = index)
    {i : Nat} {target : SessionTarget} {r : Round} {s : Files.Disk K}
    {ops : List (Option String × Files.Op Paths.Path)} {p : Bool × Round} {fate : Fate}
    {pages : List (List Row)} {stem : String} (hStemIn : stemIn H previous target r = stem)
    (hStem : Stem stem)
    (hPath : s (H.key (opts.path H stem)) = d (H.key (opts.path H stem)))
    (hPart : s (H.key (opts.part H stem)) = d (H.key (opts.part H stem)))
    (hNoFile : ∀ path, (target.talker, path) ∉ r.roundFiles)
    (hReports : p.2.reports = r.reports ++ [⟨target, stem, fate, pages⟩])
    (hEnd : TargetEnd H opts previous index (env.session i) target r s ops p) :
    Fated H opts env index d i ⟨target, stem, fate, pages⟩ := by
  have hPathIn : pathIn H opts previous target r = opts.path H stem := by
    rw [pathIn, hStemIn, Options.path]
  have hName : nameHere (opts.path H stem) = fileName stem opts.format :=
    nameHere_join H (portable_fileName hStem opts.format)
  have hOpen : Admitted H opts previous index target r s → Open H opts index d target stem := by
    rintro ⟨hFirst, hAgain⟩
    rw [hPathIn] at hFirst hAgain
    rw [hName] at hFirst
    rw [hStemIn, reusable_congr hPath hPart] at hAgain
    constructor
    · intro hNot
      rcases hFirst hNot with hNone | hOwner | hFile
      · exact .inl (hPath.symm.trans hNone)
      · exact .inr hOwner
      · exact absurd hFile (hNoFile _)
    · intro hResume hHere
      rw [← hPrevious hResume]
      exact hAgain hResume (by rw [hPath]; exact hHere)
  have hVerdict : ((exportSession H target opts (env.session i) stem).result s).1.map
      (fun _ => ()) = verdictOf H opts env d i target stem := by
    rw [exportSession_verdict H (key_file_ne_part H hStem hStem opts.format), hPath, hPart,
      verdictOf]
  cases hEnd with
  | refused hFirst hHere hOwner hRound =>
    have hRep := List.singleton_inj.mp (List.append_cancel_left hReports)
    simp only [Report.mk.injEq] at hRep
    rw [hPathIn, hPath] at hHere
    rw [hPathIn, hName] at hOwner
    exact .refused hRep.2.2.1.symm hFirst hHere hOwner
  | reused hResume hHere hReusable =>
    have hRep := List.singleton_inj.mp (List.append_cancel_left hReports)
    simp only [Report.mk.injEq] at hRep
    rw [hPathIn, hPath] at hHere
    rw [hPathIn, hStemIn, reusable_congr hPath hPart, hPrevious hResume] at hReusable
    exact .reused hRep.2.2.1.symm hResume hHere hReusable
  | failed e _ _ hAdmitted hResult hSession =>
    have hRep := List.singleton_inj.mp (List.append_cancel_left hReports)
    simp only [Report.mk.injEq] at hRep
    rw [hStemIn] at hResult
    rw [hResult] at hVerdict
    exact .failed e hRep.2.2.1.symm (hOpen hAdmitted) hVerdict.symm
  | written n _ _ hAdmitted hResult hSession =>
    have hRep := List.singleton_inj.mp (List.append_cancel_left hReports)
    simp only [Report.mk.injEq] at hRep
    rw [hStemIn] at hResult
    rw [hResult] at hVerdict
    exact .written n hRep.2.2.1.symm (hOpen hAdmitted) hVerdict.symm
      (exportSession_count H (congrArg Prod.fst hResult))

variable (H)

/-- What is known about a run while its sessions go on. -/
structure Going (targets : List SessionTarget) (opts : Options) (env : CallEnv)
    (d : Files.Disk K) (r : Round) (s : Files.Disk K) : Prop where
  named : Named (if opts.resume then previousIndex H opts d else []) r
  targets : r.reports.map (·.target) = targets.take r.reports.length
  place : ∀ k, Place H opts env d s r.reports k
  files : ∀ f ∈ r.roundFiles, ∃ rep ∈ r.reports, rep.target.talker = f.1
  fates : ∀ i rep, r.reports[i]? = some rep →
    Fated H opts env (previousIndex H opts d) d i rep

variable {H}

theorem Going.step (hSound : (previousIndex H opts d).Sound)
    (hTalkers : (targets.map (·.talker)).Nodup) {r : Round} {s : Files.Disk K}
    (h : Going H targets opts env d r s) {target : SessionTarget}
    {ops : List (Option String × Files.Op Paths.Path)} {p : Bool × Round}
    (hTarget : targets[r.reports.length]? = some target)
    (hEnd : TargetEnd H opts (if opts.resume then previousIndex H opts d else [])
      (previousIndex H opts d) (env.session r.reports.length) target r s ops p) :
    Going H targets opts env d p.2 (replay (Files.effects _ H.key) s ops) := by
  have hNamed := h.named.step (sound_previous hSound) hEnd
  obtain ⟨fate, pages, hReports, -⟩ := hEnd.reports
  have hApart := talker_notMem hTalkers h.targets hTarget
  have hSub : r.reports ⊆ p.2.reports := by
    rw [hReports]
    exact List.subset_append_left _ _
  have hLast : (⟨target, stemIn H (if opts.resume then previousIndex H opts d else []) target r,
      fate, pages⟩ : Report) ∈ p.2.reports := by
    rw [hReports]
    exact List.mem_append_right _ List.mem_cons_self
  have hStem := (hNamed.stem _ hLast).1
  have hNoFile : ∀ path, (target.talker, path) ∉ r.roundFiles := by
    intro path hMem
    obtain ⟨rep, hRep, hTalker⟩ := h.files _ hMem
    exact hApart rep hRep hTalker
  -- the next session's files are as the run found them
  obtain ⟨hPath, hPart⟩ := h.named.untouched h.place hStem fun rep' hRep' hFold =>
    hApart rep' hRep' (hNamed.talker_eq hLast (hSub hRep') hFold).symm
  have hFate := hEnd.fated (fun hResume => if_pos hResume) rfl hStem hPath hPart hNoFile hReports
  refine ⟨hNamed, ?_, fun k => (h.place k).trans hSub (hEnd.issues.2 k), ?_, ?_⟩
  · rw [hReports, List.map_append, h.targets, List.length_append, List.length_singleton,
      List.take_add_one, hTarget]
    rfl
  · have hOld : ∀ f ∈ r.roundFiles, ∃ rep ∈ p.2.reports, rep.target.talker = f.1 := by
      intro f hf
      obtain ⟨rep, hRep, hTalker⟩ := h.files f hf
      exact ⟨rep, hSub hRep, hTalker⟩
    have hNew : ∀ path, ∀ f ∈ (target.talker, path) :: r.roundFiles,
        ∃ rep ∈ p.2.reports, rep.target.talker = f.1 := by
      intro path f hf
      rcases List.mem_cons.mp hf with rfl | hf
      · exact ⟨_, hLast, rfl⟩
      · exact hOld f hf
    cases hEnd with
    | refused => exact hOld
    | reused => exact hNew _
    | failed => exact hOld
    | written => exact hNew _
  · intro i rep hRep
    rw [hReports] at hRep
    rcases getElem?_concat hRep with hOld | ⟨rfl, rfl⟩
    · exact h.fates i rep hOld
    · exact hFate

/-- At the end of the sessions. -/
theorem lastRound_going (env : CallEnv) (hSound : (previousIndex H opts d).Sound)
    (hTalkers : (targets.map (·.talker)).Nodup) :
    Going H targets opts env d (lastRound H targets opts env d)
      (sessionsDisk H targets opts env d) := by
  refine rounds_invariant (I := Going H targets opts env d) d ?_
    fun target r s ops p hTarget hGoing hEnd => hGoing.step hSound hTalkers hTarget hEnd
  exact ⟨named_start H.lowers (sound_previous hSound), rfl, fun k => .same rfl,
    by simp [Round.start], by simp [Round.start]⟩

end Fates

end Weflow.Export
