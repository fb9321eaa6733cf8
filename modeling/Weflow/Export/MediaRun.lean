import Weflow.Export.Atomic
import Weflow.Export.Dangling
import Weflow.Export.Download
import Weflow.Lib.Beside

/-!
# Runs with media

`run_export` of `cli.rs` with `--with-media`: the fetch of a session downloads the media of a page
before it hands the page over. The files of the output directory and those of its media directory
are two machines side by side, and on its own side the run does what `run` does
(`shadows_runMedia`).

A name that stands in the media directory is taken for a whole download. `reached_whole` is what
holds of every directory that runs with media leave, wherever they are stopped but in the middle of
a download: the media names of every artifact are files with the bytes that were served.
`part_reused` is a run that was stopped in the middle of one.
-/

namespace Weflow.Export

open Effects
open Json (Value)
open Chatlab (PullMessage)

variable {N : Type} [DecidableEq N]

/-! ## The fetch -/

/-- A fetch that loads a page, with its media, before it hands the page over. -/
inductive MediaFetch (file : String → N)
  | done (result : Except Failure Unit)
  | page (load : Act (mediaDir file) (Except Failure (List Row))) (fails : Nat → Bool)
      (next : Except Failure Unit → MediaFetch file)

/-- A page of the pull face. -/
structure PullPage where
  messages : List PullMessage
  hasMore : Bool
  nextSince : Int
  nextOffset : Nat

/-- What a page meets: the answer of the pull face, the answers of the message face, the downloads
and the lines that cannot be written. -/
structure PageEnv where
  pull : Option Int → Nat → Except Failure PullPage
  answers : List (MediaQuery → Except Failure Backfill)
  download : Nat → String → Download
  fails : Nat → Bool

section

variable (file : String → N) (lower : String → String) (talker : String)

/-- The loop over the pages; after an error of the writer they are only skipped. The pages are
those the server gives, and then no more. -/
def mediaFetch : List PageEnv → Option Int → Nat → Option Failure → MediaFetch file
  | [], _, _, _ => .done (.error .other)
  | e :: rest, since, offset, writeErr =>
    match e.pull since offset with
    | .error err => .done (.error err)
    | .ok page =>
      let goOn (writeErr : Option Failure) : MediaFetch file :=
        if page.hasMore then mediaFetch rest (some page.nextSince) page.nextOffset writeErr
        else .done (PullEnv.ended writeErr)
      if page.messages = [] then .done (PullEnv.ended writeErr)
      else
        match writeErr with
        | some err => goOn (some err)
        | none =>
          .page (loadPage file lower e.download talker e.answers page.messages) e.fails
            fun answer => goOn (PullEnv.failureOf answer)

end

namespace MediaFetch

variable {file : String → N}

/-- What the fetch hands over when its loads start in a media directory. -/
def resolve : MediaFetch file → MediaDir N → Fetch
  | done result, _ => .done result
  | page load fails next, m =>
    match load.result m with
    | .error e => .done (.error e)
    | .ok rows => .page rows fails fun answer => (next answer).resolve (load.after m)

def Fails : MediaFetch file → Prop
  | done result => ∃ e, result = .error e
  | page _ _ next => ∀ answer, (next answer).Fails

/-- After an error of the writer, the fetch ends with an error. -/
def Honest : MediaFetch file → Prop
  | done _ => True
  | page _ _ next => (next (.ok ())).Honest ∧ ∀ e, (next (.error e)).Fails

theorem fails_resolve {f : MediaFetch file} (h : f.Fails) (m : MediaDir N) :
    (f.resolve m).Fails := by
  induction f generalizing m with
  | done result => exact h
  | page load fails next ih =>
    rw [resolve]
    split
    · exact ⟨_, rfl⟩
    · exact fun answer => ih answer (h answer) _

theorem honest_resolve {f : MediaFetch file} (h : f.Honest) (m : MediaDir N) :
    (f.resolve m).Honest := by
  induction f generalizing m with
  | done result => trivial
  | page load fails next ih =>
    rw [resolve]
    split
    · trivial
    · exact ⟨ih _ h.1 _, fun e => fails_resolve (h.2 e) _⟩

end MediaFetch

section

variable {file : String → N} {lower : String → String} {talker : String} {since : Option Int}
  {offset : Nat}

theorem fails_mediaFetch (pages : List PageEnv) (e : Failure) :
    (mediaFetch file lower talker pages since offset (some e)).Fails := by
  induction pages generalizing since offset with
  | nil => exact ⟨.other, rfl⟩
  | cons p rest ih =>
    rw [mediaFetch]
    split
    · exact ⟨_, rfl⟩
    · dsimp only
      split
      · exact ⟨e, rfl⟩
      · split
        · exact ih
        · exact ⟨e, rfl⟩

theorem honest_mediaFetch (pages : List PageEnv) (writeErr : Option Failure) :
    (mediaFetch file lower talker pages since offset writeErr).Honest := by
  induction pages generalizing since offset writeErr with
  | nil => trivial
  | cons p rest ih =>
    rw [mediaFetch]
    split
    · trivial
    · dsimp only
      split
      · trivial
      · split
        · split
          · exact ih _
          · trivial
        · refine ⟨?_, fun e => ?_⟩
          · split
            · exact ih _
            · trivial
          · split
            · exact fails_mediaFetch rest e
            · exact ⟨e, rfl⟩

end

/-! ## The run -/

section

variable {K : Type} [DecidableEq K] (H : Host K) (file : String → N)

/-- Programs on the output directory and its media directory. -/
abbrev MediaIo (A : Type) : Type :=
  Act (both (Files.effects (Option String) H.key) (mediaDir file)) A

/-- The fetch of a session, with the writer's `page` as its callback. -/
def driveMedia : MediaFetch file → SessionWriter →
    MediaIo H file (Except Failure Unit × SessionWriter × List (List Row))
  | .done result, w => pure (result, w, [])
  | .page load fails next, w => do
    match ← Act.right _ load with
    | .error e => return (.error e, w, [])
    | .ok rows =>
      let p ← Act.left _ (w.page H rows fails)
      let q ← driveMedia (next p.1) p.2
      return (q.1, q.2.1, rows :: q.2.2)

/-- One session of a run with media: `f` is its fetch, in the place of that of `env`. -/
def exportSessionMedia (target : SessionTarget) (opts : Options) (env : SessionEnv)
    (f : MediaFetch file) (stem : String) :
    MediaIo H file (Except Failure UInt64 × List (List Row)) := do
  match ← Act.left _ (SessionWriter.begin H target opts env stem) with
  | .error e => return (.error e, [])
  | .ok w =>
    let p ← driveMedia H file f w
    match p.1 with
    | .error e =>
      Act.left _ (Files.remove H.key (some target.talker) w.part)
      return (.error e, p.2.2)
    | .ok _ =>
      let result ← Act.left _ (p.2.1.finish H env)
      return (result, p.2.2)

variable (opts : Options) (previous recorded : Index) (since : Option Int)

/-- One target of a run with media. -/
def exportTargetMedia (env : SessionEnv) (pages : List PageEnv) (target : SessionTarget)
    (r : Round) : MediaIo H file (Bool × Round) := do
  let named := stemFor H.lower previous target r.taken
  let stem := named.1
  let r := { r with taken := named.2 }
  let path := opts.join H (fileName stem opts.format)
  let here ← Act.left _ (Files.present H.key path)
  let owner := recorded.owner (nameHere path)
  let ownRerun := owner == some target.talker
  let thisRound := r.roundFiles.contains (target.talker, path)
  if !opts.resume && here && !ownRerun && !thisRound then
    return (false, r.refuse target stem (carried recorded owner r.indexRows))
  let reuse ← Act.left _ (Act.look (reusable H opts previous target stem path))
  if opts.resume && here && reuse then
    return (false, r.reuse target stem path (previous.row target.talker))
  let f := mediaFetch file H.lower target.talker pages since 0 none
  let result ← exportSessionMedia H file target opts env f stem
  match result.1 with
  | .error e => return (e == .secretLeak, r.fail target stem e result.2)
  | .ok n => return (false, r.deliver target stem path opts.withMedia n result.2)

def exportTargetsMedia (env : Nat → SessionEnv) (pages : Nat → List PageEnv) :
    Nat → List SessionTarget → Round → MediaIo H file (Bool × Round)
  | _, [], r => pure (false, r)
  | i, target :: rest, r => do
    let p ← exportTargetMedia H file opts previous recorded since (env i) (pages i) target r
    if p.1 then return p
    else exportTargetsMedia env pages (i + 1) rest p.2

end

section

variable {K : Type} [DecidableEq K] (H : Host K) (file : String → N)

/-- The call and its log. -/
def runMedia (targets : List SessionTarget) (opts : Options) (since : Option Int) (env : CallEnv)
    (pages : Nat → List PageEnv) : MediaIo H file (Except Failure Outcome × List Report) := do
  if env.createDirFails then return (.error .other, [])
  let recorded ← Act.left _ (Act.look (previousIndex H opts))
  let previous := if opts.resume then recorded else []
  let p ← exportTargetsMedia H file opts previous recorded since env.session pages 0 targets
    (Round.start (seedTaken H.lower previous))
  let r := p.2
  if p.1 then return (.error .secretLeak, r.reports)
  match ← Act.left _ (writeIndex H opts r.indexRows env) with
  | .error e => return (.error e, r.reports)
  | .ok index => return (.ok ⟨r.written, r.reused, r.skipped, r.total, index⟩, r.reports)

end

/-! ## The side of the output directory -/

section

variable {K : Type} [DecidableEq K] {H : Host K} {file : String → N}

theorem shadows_driveMedia (f : MediaFetch file) (w : SessionWriter)
    (s : Files.Disk K × MediaDir N) :
    Act.Shadows (driveMedia H file f w) (w.drive H (f.resolve s.2)) s := by
  induction f generalizing w s with
  | done result => exact Act.shadows_pure _ s
  | page load fails next ih =>
    rw [driveMedia, MediaFetch.resolve]
    refine Act.Shadows.behind_right ?_
    cases load.result s.2 with
    | error e => exact Act.shadows_pure _ _
    | ok rows =>
      refine Act.Shadows.bind (Act.shadows_left _ _) ?_
      rw [Act.result_left, Act.after_left]
      refine Act.Shadows.bind
        (ih _ _ ((SessionWriter.page H w rows fails).after s.1, load.after s.2)) ?_
      exact Act.shadows_pure _ _

/-- A session whose pages are loaded from a media directory. -/
def SessionEnv.loading (env : SessionEnv) (f : MediaFetch file) (m : MediaDir N) : SessionEnv :=
  { env with fetch := f.resolve m }

theorem shadows_exportSessionMedia (target : SessionTarget) (opts : Options) (env : SessionEnv)
    (f : MediaFetch file) (stem : String) (s : Files.Disk K × MediaDir N) :
    Act.Shadows (exportSessionMedia H file target opts env f stem)
      (exportSession H target opts (env.loading f s.2) stem) s := by
  refine Act.Shadows.bind (Act.shadows_left _ _) ?_
  rw [Act.result_left, Act.after_left]
  cases (SessionWriter.begin H target opts env stem).result s.1 with
  | error e => exact Act.shadows_pure _ _
  | ok w =>
    refine Act.Shadows.bind (shadows_driveMedia f w
      ((SessionWriter.begin H target opts env stem).after s.1, s.2)) ?_
    generalize (driveMedia H file f w).result _ = p
    rcases p with ⟨e | u, w', pages⟩
    · refine Act.Shadows.bind (Act.shadows_left _ _) ?_
      exact Act.shadows_pure _ _
    · refine Act.Shadows.bind (Act.shadows_left _ _) ?_
      exact Act.shadows_pure _ _

variable {opts : Options} {previous recorded : Index} {since : Option Int}

variable (H file opts previous recorded since) in
theorem shadows_exportTargetMedia (env : SessionEnv) (pages : List PageEnv)
    (target : SessionTarget) (r : Round) (s : Files.Disk K × MediaDir N) :
    Act.Shadows (exportTargetMedia H file opts previous recorded since env pages target r)
      (exportTarget H opts previous recorded
        (env.loading (mediaFetch file H.lower target.talker pages since 0 none) s.2) target r)
      s := by
  refine Act.Shadows.bind (Act.shadows_left _ _) ?_
  rw [Act.result_left, Act.after_left]
  generalize (Files.present H.key _).result s.1 = here
  dsimp only
  split
  · exact Act.shadows_pure _ _
  · refine Act.Shadows.bind (Act.shadows_left _ _) ?_
    rw [Act.result_left, Act.after_left]
    generalize (Act.look _ : Io H Bool).result _ = reuse
    split
    · exact Act.shadows_pure _ _
    · refine Act.Shadows.bind (shadows_exportSessionMedia _ _ _ _ _ s) ?_
      generalize (exportSessionMedia H file target opts env _ _).result _ = p
      rcases p with ⟨e | n, rows⟩
      · exact Act.shadows_pure _ _
      · exact Act.shadows_pure _ _

/-- The loop reads the environment of the targets that are left. -/
theorem exportTargets_congr {env env' : Nat → SessionEnv} (targets : List SessionTarget) (i : Nat)
    (r : Round) (h : ∀ j, i ≤ j → env j = env' j) :
    exportTargets H opts previous recorded env i targets r =
      exportTargets H opts previous recorded env' i targets r := by
  induction targets generalizing i r with
  | nil => rfl
  | cons target rest ih =>
    rw [exportTargets, exportTargets, h i le_rfl]
    refine congrArg (fun g => exportTarget H opts previous recorded (env' i) target r >>= g) ?_
    funext p
    rw [ih (i + 1) p.2 fun j hj => h j (by omega)]

variable (H file opts previous recorded since) in
theorem shadows_exportTargetsMedia (env : Nat → SessionEnv) (pages : Nat → List PageEnv)
    (targets : List SessionTarget) (i : Nat) (r : Round) (s : Files.Disk K × MediaDir N) :
    ∃ env' : Nat → SessionEnv,
      Act.Shadows (exportTargetsMedia H file opts previous recorded since env pages i targets r)
        (exportTargets H opts previous recorded env' i targets r) s ∧
      ((∀ j, (env j).fetch.Honest) → ∀ j, (env' j).fetch.Honest) := by
  induction targets generalizing i r s with
  | nil => exact ⟨env, Act.shadows_pure _ _, id⟩
  | cons target rest ih =>
    have hHead : Act.Shadows
        (exportTargetMedia H file opts previous recorded since (env i) (pages i) target r) _ s :=
      shadows_exportTargetMedia H file opts previous recorded since (env i) (pages i) target r s
    have hHonest : ((env i).loading
        (mediaFetch file H.lower target.talker (pages i) since 0 none) s.2).fetch.Honest :=
      MediaFetch.honest_resolve (honest_mediaFetch (pages i) none) s.2
    generalize (env i).loading _ s.2 = first at hHead hHonest
    rw [exportTargetsMedia]
    generalize hResult : (exportTargetMedia H file opts previous recorded since (env i) (pages i)
      target r).result s = p
    generalize hAfter : (exportTargetMedia H file opts previous recorded since (env i) (pages i)
      target r).after s = s'
    obtain ⟨later, hLater, hLaterHonest⟩ := ih (i + 1) p.2 s'
    refine ⟨Function.update later i first, ?_, fun hAll j => ?_⟩
    swap
    · by_cases hj : j = i
      · rw [hj, Function.update_self]
        exact hHonest
      · rw [Function.update_of_ne hj]
        exact hLaterHonest hAll j
    rw [exportTargets, Function.update_self]
    refine Act.Shadows.bind hHead ?_
    rw [hResult, hAfter]
    split
    · exact Act.shadows_pure _ _
    · have hSame : ∀ j, i + 1 ≤ j → Function.update later i first j = later j :=
        fun j hj => Function.update_of_ne (by omega) _ _
      rw [exportTargets_congr rest (i + 1) p.2 hSame]
      exact hLater

variable (H file) in
/-- On the side of the output directory, a run with media is a run. -/
theorem shadows_runMedia (targets : List SessionTarget) (opts : Options) (since : Option Int)
    (env : CallEnv) (pages : Nat → List PageEnv) (s : Files.Disk K × MediaDir N) :
    ∃ sessions : Nat → SessionEnv,
      Act.Shadows (runMedia H file targets opts since env pages)
        (run H targets opts { env with session := sessions }) s ∧
      (env.Honest → CallEnv.Honest { env with session := sessions }) := by
  rw [runMedia]
  by_cases hFails : env.createDirFails = true
  · refine ⟨env.session, ?_, id⟩
    rw [run, if_pos hFails, if_pos hFails]
    exact Act.shadows_pure _ _
  · generalize hRecorded : previousIndex H opts s.1 = recorded
    obtain ⟨sessions, hSessions, hHonest⟩ := shadows_exportTargetsMedia H file opts
      (if opts.resume then recorded else []) recorded since env.session pages targets 0
      (Round.start (seedTaken H.lower (if opts.resume then recorded else []))) s
    refine ⟨sessions, ?_, hHonest⟩
    rw [run, if_neg hFails, if_neg hFails]
    refine Act.Shadows.bind (Act.shadows_left _ _) ?_
    rw [Act.result_left, Act.after_left, Act.result_look, hRecorded]
    refine Act.Shadows.bind hSessions ?_
    generalize (exportTargetsMedia H file opts _ recorded since env.session pages 0 targets _).result
      _ = p
    obtain ⟨leaked, r⟩ := p
    cases leaked with
    | true => exact Act.shadows_pure _ _
    | false =>
      refine Act.Shadows.bind (Act.shadows_left _ _) ?_
      generalize (Act.left (mediaDir file) (writeIndex H opts r.indexRows env)).result _ = index
      cases index with
      | error e => exact Act.shadows_pure _ _
      | ok index => exact Act.shadows_pure _ _

end

/-! ## What a session does -/

section

variable {K : Type} [DecidableEq K] {H : Host K} {file : String → N}
  {serves : String → List UInt8 → Prop} {names : List String} {s t : Files.Disk K × MediaDir N}

/-- Every load of the fetch puts the media of its rows in the directory, as they are served. -/
def MediaFetch.Loads (serves : String → List UInt8 → Prop) : MediaFetch file → Prop
  | .done _ => True
  | .page load _ next =>
    (∀ names, Act.Holds (Served serves) (Holding file serves names) load fun res m =>
      Holding file serves names m ∧ ∀ rows, res = .ok rows → RowsHere file m rows) ∧
    ∀ answer, (next answer).Loads serves

theorem loads_mediaFetch {lower : String → String} {talker : String}
    (hSame : SameFile file serves) (pages : List PageEnv)
    (hFair : ∀ p ∈ pages, ∀ k name, (p.download k name).Fair serves name) (since : Option Int)
    (offset : Nat) (writeErr : Option Failure) :
    (mediaFetch file lower talker pages since offset writeErr).Loads serves := by
  induction pages generalizing since offset writeErr with
  | nil => trivial
  | cons p rest ih =>
    have hRest := ih fun q hq => hFair q (List.mem_cons_of_mem p hq)
    rw [mediaFetch]
    split
    · trivial
    · dsimp only
      split
      · trivial
      · split
        · split
          · exact hRest _ _ _
          · trivial
        · refine ⟨fun names => holds_loadPage hSame (hFair p List.mem_cons_self) _ _ _,
            fun answer => ?_⟩
          split
          · exact hRest _ _ _
          · trivial

/-- The pages handed over have their media in the directory. -/
theorem holds_driveMedia {f : MediaFetch file} (hLoads : f.Loads serves) (w : SessionWriter)
    (names : List String) :
    Act.Holds (Act.OnRight (Served serves))
      (fun s : Files.Disk K × MediaDir N => Holding file serves names s.2) (driveMedia H file f w)
      fun res s => Holding file serves names s.2 ∧ ∀ page ∈ res.2.2, RowsHere file s.2 page := by
  induction f generalizing w names with
  | done result => exact Act.holds_pure fun s h => ⟨h, fun page hPage => by cases hPage⟩
  | page load fails next ih =>
    rw [driveMedia]
    refine Act.Holds.bind (Act.holds_right (hLoads.1 names)) fun res => ?_
    cases res with
    | error e => exact Act.holds_pure fun s h => ⟨h.1, fun page hPage => by cases hPage⟩
    | ok rows =>
      have hLoaded : Act.Holds (Act.OnRight (Served serves))
          (fun s : Files.Disk K × MediaDir N => Holding file serves names s.2 ∧
            ∀ rows', Except.ok (ε := Failure) rows = .ok rows' → RowsHere file s.2 rows')
          (Act.left (mediaDir file) (w.page H rows fails)) fun _ s =>
            Holding file serves (names ++ rows.filterMap Row.mediaFileName) s.2 := by
        refine (Act.holds_left
          (P := Holding file serves (names ++ rows.filterMap Row.mediaFileName)) _).mono
          (fun s h => h.1.append fun name hName => ?_) fun _ _ h => h
        obtain ⟨r, hr, hName⟩ := List.mem_filterMap.mp hName
        exact h.2 rows rfl r hr name hName
      refine Act.Holds.bind hLoaded fun p => ?_
      refine Act.Holds.bind (ih p.1 (hLoads.2 p.1) p.2 _) fun q => ?_
      refine Act.holds_pure fun s h => ⟨h.1.sub (List.subset_append_left _ _), fun page hPage => ?_⟩
      rcases List.mem_cons.mp hPage with rfl | hPage
      · intro r hr name hName
        exact h.1.has name (List.mem_append_right _ (List.mem_filterMap.mpr ⟨r, hr, hName⟩))
      · exact h.2 page hPage

open SessionWriter (new OnPart Live)

/-- The calls of a session: those on its `.part` file and the downloads, at whose end the media of
its pages are in the directory, and then the last calls, none of which is a download. -/
theorem exportSessionMedia_parts {f : MediaFetch file} (hLoads : f.Loads serves)
    (target : SessionTarget) (opts : Options) (env : SessionEnv) (stem : String)
    (hSound : Holding file serves [] s.2) :
    ∃ (front : List ((Option String × Files.Op Paths.Path) ⊕ Save))
      (back : List (Option String × Files.Op Paths.Path)),
      (exportSessionMedia H file target opts env f stem).ops s = front ++ back.map Sum.inl ∧
      (∀ o ∈ lefts front, OnPart (new H target opts stem) o) ∧
      (∀ o ∈ front, Act.OnRight (Served serves) o) ∧
      ∀ page ∈ ((exportSessionMedia H file target opts env f stem).result s).2,
        RowsHere file (replay (both (Files.effects (Option String) H.key) (mediaDir file))
          s front).2 page := by
  obtain ⟨hBeginOps, -, hBeginOk⟩ := SessionWriter.begin_holds H target opts env stem s.1 s.1 rfl
  have hLeft : ∀ ops : List (Option String × Files.Op Paths.Path),
      ∀ o ∈ ops.map (Sum.inl : _ → _ ⊕ Save), Act.OnRight (Served serves) o := by
    intro ops o ho
    obtain ⟨o', -, rfl⟩ := List.mem_map.mp ho
    trivial
  rw [exportSessionMedia, Act.ops_bind, Act.result_bind, Act.result_left, Act.after_left,
    Act.ops_left]
  cases hBegin : (SessionWriter.begin H target opts env stem).result s.1 with
  | error e =>
    refine ⟨((SessionWriter.begin H target opts env stem).ops s.1).map Sum.inl, [], rfl, ?_,
      hLeft _, fun page hPage => by cases hPage⟩
    rw [lefts_map_inl]
    exact hBeginOps
  | ok w =>
    obtain ⟨hLive, -⟩ := hBeginOk w hBegin
    generalize hStart : (((SessionWriter.begin H target opts env stem).after s.1, s.2) :
      Files.Disk K × MediaDir N) = s'
    have hShadow := shadows_driveMedia (H := H) f w s'
    have hSound' : Holding file serves [] s'.2 := by
      rw [← hStart]
      exact hSound
    have hLive' : Live H (new H target opts stem) s.1 w s'.1 := by
      rw [← hStart]
      exact hLive
    obtain ⟨hServed, -, hHere⟩ := holds_driveMedia (H := H) hLoads w [] s' hSound'
    have hOnPart := (SessionWriter.drive_live H (f.resolve s'.2) w s'.1 hLive').1
    rw [← hShadow.ops] at hOnPart
    dsimp only
    rw [Act.ops_bind, Act.result_bind]
    have hFront : ∀ o ∈ lefts (((SessionWriter.begin H target opts env stem).ops s.1).map Sum.inl ++
        (driveMedia H file f w).ops s'), OnPart (new H target opts stem) o := by
      intro o ho
      rw [lefts_append, lefts_map_inl] at ho
      exact (List.mem_append.mp ho).elim (hBeginOps o) (hOnPart o)
    have hServed' : ∀ o ∈ ((SessionWriter.begin H target opts env stem).ops s.1).map Sum.inl ++
        (driveMedia H file f w).ops s', Act.OnRight (Served serves) o :=
      fun o ho => (List.mem_append.mp ho).elim (hLeft _ o) (hServed o)
    have hAfter : replay (both (Files.effects (Option String) H.key) (mediaDir file)) s
        (((SessionWriter.begin H target opts env stem).ops s.1).map Sum.inl ++
          (driveMedia H file f w).ops s') = (driveMedia H file f w).after s' := by
      rw [replay_append, replay_map_inl]
      exact congrArg (fun x => replay _ x ((driveMedia H file f w).ops s')) hStart
    cases hDone : ((driveMedia H file f w).result s').1 with
    | error e =>
      refine ⟨_, (Files.remove H.key (some target.talker) w.part).ops
        ((driveMedia H file f w).after s').1, ?_, hFront, hServed', fun page hPage => ?_⟩
      · rw [Act.ops_bind, Act.ops_left, Act.ops_pure, List.append_nil, List.append_assoc]
      · rw [hAfter]
        exact hHere page hPage
    | ok u =>
      refine ⟨_, (((driveMedia H file f w).result s').2.1.finish H env).ops
        ((driveMedia H file f w).after s').1, ?_, hFront, hServed', fun page hPage => ?_⟩
      · rw [Act.ops_bind, Act.ops_left, Act.ops_pure, List.append_nil, List.append_assoc]
      · rw [hAfter]
        exact hHere page hPage

end

/-! ## Whole directories -/

section

variable {K : Type} [DecidableEq K] {H : Host K} {file : String → N}
  {serves : String → List UInt8 → Prop} {dir : Paths.Path} {s t : Files.Disk K × MediaDir N}

variable (H file serves dir s) in
/-- What stands in the media directory was served under its name, and the media names of every
artifact are there. -/
structure Whole : Prop where
  sound : ∀ name bytes, s.2 (file name) = some bytes → serves name bytes
  named : ∀ stem format bytes, Stem stem → foldCase stem ≠ "index" →
    s.1 (nameKey H dir (fileName stem format)) = some (.file bytes) →
    ∃ names, mediaNames H.json format bytes = some names ∧ ∀ name ∈ names, Has file s.2 name

/-- The machine of a run with media, in which no download is stopped in the middle. -/
abbrev calmly (H : Host K) (file : String → N) :
    Machine (Files.Disk K × MediaDir N) ((Option String × Files.Op Paths.Path) ⊕ Save) :=
  both (Files.effects (Option String) H.key) (whole (mediaDir file))

theorem holding_stops (hSame : SameFile file serves)
    {os : List ((Option String × Files.Op Paths.Path) ⊕ Save)}
    (hServed : ∀ o ∈ os, Act.OnRight (Served serves) o) (hStop : Stops (calmly H file) s os t)
    {names : List String} (h : Holding file serves names s.2) :
    Holding file serves names t.2 := by
  refine hStop.invariant (P := fun t => Holding file serves names t.2)
    (G := fun _ o => Act.OnRight (Served serves) o)
    (allowed_of_forall fun o ho _ => hServed o ho) h ?_ ?_
  · intro s o hs ho
    cases o with
    | inl o => exact hs
    | inr o => exact (hs.save hSame ho).1
  · intro s o t hs ho hDuring
    cases o with
    | inl o =>
      rw [hDuring.2]
      exact hs
    | inr o => exact hDuring.1.elim

omit [DecidableEq N] [DecidableEq K] in
/-- Files that are as they were, or whose media are there. -/
theorem Whole.keep (h : Whole H file serves dir s)
    (hHolding : ∀ names, Holding file serves names s.2 → Holding file serves names t.2)
    (hFiles : ∀ stem format, Stem stem → foldCase stem ≠ "index" →
      t.1 (nameKey H dir (fileName stem format)) = s.1 (nameKey H dir (fileName stem format)) ∨
      ∀ bytes, t.1 (nameKey H dir (fileName stem format)) = some (.file bytes) →
        ∃ names, mediaNames H.json format bytes = some names ∧
          ∀ name ∈ names, Has file t.2 name) :
    Whole H file serves dir t := by
  refine ⟨(hHolding [] ⟨h.sound, by simp⟩).sound, fun stem format bytes hStem hIndex hFile => ?_⟩
  rcases hFiles stem format hStem hIndex with hOld | hNew
  · rw [hOld] at hFile
    obtain ⟨names, hNames, hHas⟩ := h.named stem format bytes hStem hIndex hFile
    exact ⟨names, hNames, (hHolding names ⟨h.sound, hHas⟩).has⟩
  · exact hNew bytes hFile

theorem mediaFileName_of_mediaName {r : Row} {name : String} (h : r.mediaName = some name) :
    name ∈ r.mediaFileName := by
  obtain ⟨f, hFile, h⟩ := Option.bind_eq_some_iff.mp h
  obtain ⟨type, -, rfl⟩ := Option.map_eq_some_iff.mp h
  exact hFile

open SessionWriter (new OnPart)

/-- Session files are none of the `.part` files. -/
theorem file_of_onPart {target : SessionTarget} {opts : Options} {stem : String}
    {d d' : Files.Disk K} {ops : List (Option String × Files.Op Paths.Path)} (hStem : Stem stem)
    (hPart : ∀ o ∈ ops, OnPart (new H target opts stem) o)
    (hStop : Stops (Files.effects _ H.key) d ops d') {stem' : String} (hStem' : Stem stem')
    (format : Format) : d' (nameKey H opts.outDir (fileName stem' format)) =
      d (nameKey H opts.outDir (fileName stem' format)) := by
  refine Files.stops_frame hStop fun o ho p hp => ?_
  rw [(hPart o ho).2, List.mem_singleton] at hp
  rw [hp, ← nameKey_join H opts (portable_fileName hStem' format)]
  exact (key_file_ne_part H hStem' hStem format).symm

/-- Wherever a session is stopped, the directory is whole. -/
theorem Whole.session {opts : Options} (h : Whole H file serves opts.outDir s)
    (hSame : SameFile file serves) {f : MediaFetch file} (hLoads : f.Loads serves)
    (hHonest : f.Honest) {target : SessionTarget} {env : SessionEnv} {stem : String}
    (hStem : Stem stem)
    (hStop : Stops (calmly H file) s ((exportSessionMedia H file target opts env f stem).ops s) t) :
    Whole H file serves opts.outDir t := by
  obtain ⟨front, back, hOps, hPart, hServed, hHere⟩ :=
    exportSessionMedia_parts (H := H) hLoads target opts env stem (s := s) ⟨h.sound, by simp⟩
  have hShadow := shadows_exportSessionMedia (H := H) target opts env f stem s
  have hEnd := exportSession_end H target opts (env.loading f s.2) stem s.1
  rw [← hShadow.ops, ← hShadow.result] at hEnd
  have hAll : ∀ o ∈ front ++ back.map Sum.inl, Act.OnRight (Served serves) o := by
    intro o ho
    rcases List.mem_append.mp ho with ho | ho
    · exact hServed o ho
    · obtain ⟨o', -, rfl⟩ := List.mem_map.mp ho
      trivial
  have hLeft := stops_fst hStop
  rw [hOps] at hStop hEnd hLeft
  refine h.keep (fun names => holding_stops hSame hAll hStop) fun stem' format hStem' hIndex' => ?_
  rcases stops_append hStop with hFront | hBack
  · exact .inl (file_of_onPart hStem hPart (stops_fst hFront) hStem' format)
  · have hMedia : t.2 = (replay (both (Files.effects (Option String) H.key) (mediaDir file))
        s front).2 := stops_map_inl hBack
    generalize hResult : ((exportSessionMedia H file target opts env f stem).result s).1 = result
      at hEnd
    cases hEnd with
    | failed e hOnPart _ => exact .inl (file_of_onPart hStem hOnPart hLeft hStem' format)
    | written n before bytes hOnPart hSplit hFile hComplete =>
      rw [hSplit] at hLeft
      rcases stops_append hLeft with hBefore | hBefore | hDuring | hAfter
      · exact .inl (file_of_onPart hStem hOnPart hBefore hStem' format)
      · rw [hBefore]
        exact .inl (file_of_onPart hStem hOnPart (stops_end _ _) hStem' format)
      · exact hDuring.elim
      · have hRename : t.1 = Files.apply H.key (replay (Files.effects _ H.key) s.1 before)
          (.rename (opts.part H stem) (opts.path H stem)) := hAfter
        have hKey := nameKey_join H opts (portable_fileName hStem' format)
        by_cases hPath : H.key (opts.join H (fileName stem' format)) = H.key (opts.path H stem)
        · -- the file that was delivered
          right
          intro bytes' hFile'
          obtain ⟨-, rfl⟩ := foldCase_fileName_inj (key_join H (portable_fileName hStem' format)
            (portable_fileName hStem opts.format) hPath)
          rw [hRename, ← hKey, hPath, Files.apply, Function.update_self] at hFile'
          have hBytes : bytes = bytes' :=
            Files.Entry.file.inj (Option.some.inj (hFile.symm.trans hFile'))
          have hRows := mediaNames_of_complete (hComplete (MediaFetch.honest_resolve hHonest s.2)).1
          rw [hBytes] at hRows
          refine ⟨_, hRows, fun name hName => ?_⟩
          obtain ⟨r, hr, hName⟩ := List.mem_filterMap.mp hName
          obtain ⟨page, hPage, hr⟩ := List.mem_flatten.mp ((writtenRows_perm _).mem_iff.mp hr)
          rw [hMedia]
          exact hHere page hPage r hr name (mediaFileName_of_mediaName hName)
        · left
          rw [hRename, ← hKey, Files.apply_frame, hKey]
          · exact file_of_onPart hStem hOnPart (stops_end _ _) hStem' format
          · intro p hp
            rcases List.mem_pair.mp hp with rfl | rfl
            · exact (key_file_ne_part H hStem' hStem format).symm
            · exact fun hEq => hPath hEq.symm

variable {opts : Options} {previous recorded : Index} {since : Option Int}

variable (H file opts previous recorded since) in
/-- The calls of a target are none, or those of its session. -/
theorem ops_exportTargetMedia (env : SessionEnv) (pages : List PageEnv) (target : SessionTarget)
    (r : Round) (s : Files.Disk K × MediaDir N) :
    (exportTargetMedia H file opts previous recorded since env pages target r).ops s = [] ∨
      (exportTargetMedia H file opts previous recorded since env pages target r).ops s =
        (exportSessionMedia H file target opts env
          (mediaFetch file H.lower target.talker pages since 0 none)
          (stemIn H previous target r)).ops s := by
  rw [exportTargetMedia, Act.ops_bind, Act.ops_left, Act.result_left, Act.after_left]
  generalize (Files.present H.key _).result s.1 = here
  dsimp only
  split
  · exact .inl rfl
  · rw [Act.ops_bind, Act.ops_left, Act.result_left, Act.after_left]
    generalize (Act.look _ : Io H Bool).result _ = reuse
    split
    · exact .inl rfl
    · right
      rw [Act.ops_bind]
      generalize (exportSessionMedia H file target opts env _ _).result _ = p
      rcases p with ⟨e | n, rows⟩
      · exact List.append_nil _
      · exact List.append_nil _

/-- Every download of the run is one of what the server serves, and is not cut short. -/
def FairPages (serves : String → List UInt8 → Prop) (pages : Nat → List PageEnv) : Prop :=
  ∀ i, ∀ p ∈ pages i, ∀ k name, (p.download k name).Fair serves name

/-- Wherever the sessions of a run are stopped, the directory is whole. -/
theorem Whole.targets (hSame : SameFile file serves) {pages : Nat → List PageEnv}
    (hFair : FairPages serves pages) (hSound : previous.Sound) {env : Nat → SessionEnv}
    (targets : List SessionTarget) (i : Nat) (r : Round) (hNamed : Named previous r)
    (h : Whole H file serves opts.outDir s)
    (hStop : Stops (calmly H file) s
      ((exportTargetsMedia H file opts previous recorded since env pages i targets r).ops s) t) :
    Whole H file serves opts.outDir t := by
  induction targets generalizing i r s with
  | nil =>
    rw [show t = s from hStop]
    exact h
  | cons target rest ih =>
    have hShadow := shadows_exportTargetMedia H file opts previous recorded since (env i) (pages i)
      target r s
    have hEnd := exportTarget_end H opts previous recorded ((env i).loading
      (mediaFetch file H.lower target.talker (pages i) since 0 none) s.2) target r s.1
    rw [← hShadow.ops, ← hShadow.result] at hEnd
    have hNamed' := hNamed.step hSound hEnd
    have hStem : Stem (stemIn H previous target r) := by
      obtain ⟨fate, rows, hReports, -⟩ := hEnd.reports
      refine (hNamed'.stem ⟨target, stemIn H previous target r, fate, rows⟩ ?_).1
      rw [hReports]
      exact List.mem_append_right _ List.mem_cons_self
    have hTarget : ∀ t, Stops (calmly H file) s ((exportTargetMedia H file opts previous recorded
        since (env i) (pages i) target r).ops s) t → Whole H file serves opts.outDir t := by
      intro t hStop
      rcases ops_exportTargetMedia H file opts previous recorded since (env i) (pages i) target r s
        with hNone | hSession
      · rw [hNone] at hStop
        rw [show t = s from hStop]
        exact h
      · rw [hSession] at hStop
        exact h.session hSame (loads_mediaFetch hSame (pages i) (hFair i) since 0 none)
          (honest_mediaFetch (pages i) none) hStem hStop
    rw [exportTargetsMedia, Act.ops_bind] at hStop
    rcases stops_append hStop with hFirst | hRest
    · exact hTarget t hFirst
    · have hNext := hTarget _ (stops_end _ _)
      revert hRest
      split
      · intro hRest
        rw [show t = _ from hRest]
        exact hNext
      · exact fun hRest => ih (i + 1) _ hNamed' hNext hRest

/-- Wherever a run is stopped, the directory is whole. -/
theorem Whole.run (hSame : SameFile file serves) {pages : Nat → List PageEnv}
    (hFair : FairPages serves pages) {P : Prop} (hRecorded : Recorded H opts.outDir P s.1)
    {targets : List SessionTarget} {env : CallEnv} (h : Whole H file serves opts.outDir s)
    (hStop : Stops (calmly H file) s
      ((runMedia H file targets opts since env pages).ops s) t) :
    Whole H file serves opts.outDir t := by
  obtain ⟨-, hSound⟩ := hRecorded.entries
  have hPrevious : (if opts.resume then previousIndex H opts s.1 else []).Sound :=
    sound_previous hSound
  rw [runMedia] at hStop
  by_cases hFails : env.createDirFails = true
  · rw [if_pos hFails] at hStop
    rw [show t = s from hStop]
    exact h
  rw [if_neg hFails, Act.ops_bind, Act.ops_left, Act.ops_look, List.map_nil, List.nil_append,
    Act.result_left, Act.after_left, Act.result_look, Act.after_look, Prod.mk.eta] at hStop
  dsimp only at hStop
  have hTargets : ∀ t, Stops (calmly H file) s ((exportTargetsMedia H file opts
      (if opts.resume then previousIndex H opts s.1 else []) (previousIndex H opts s.1) since
      env.session pages 0 targets (Round.start (seedTaken H.lower
        (if opts.resume then previousIndex H opts s.1 else [])))).ops s) t →
      Whole H file serves opts.outDir t := fun t hStop =>
    h.targets hSame hFair hPrevious targets 0 _ (named_start H.lowers hPrevious) hStop
  generalize exportTargetsMedia H file opts (if opts.resume then previousIndex H opts s.1 else [])
    (previousIndex H opts s.1) since env.session pages 0 targets (Round.start (seedTaken H.lower
      (if opts.resume then previousIndex H opts s.1 else []))) = sessions at hStop hTargets
  rw [Act.ops_bind] at hStop
  rcases stops_append hStop with hSessions | hRest
  · exact hTargets t hSessions
  have hNext : Whole H file serves opts.outDir (sessions.after s) := hTargets _ (stops_end _ _)
  change Stops (calmly H file) (sessions.after s) _ t at hRest
  generalize sessions.after s = s' at hNext hRest
  generalize sessions.result s = p at hRest
  obtain ⟨leaked, r⟩ := p
  cases leaked with
  | true =>
    rw [show t = s' from hRest]
    exact hNext
  | false =>
    have hOps : ∀ o ∈ ((writeIndex H opts r.indexRows env).ops s'.1).map (Sum.inl : _ → _ ⊕ Save),
        Act.OnRight (Served serves) o := by
      intro o ho
      obtain ⟨o', -, rfl⟩ := List.mem_map.mp ho
      trivial
    have hIndex : Stops (calmly H file) s'
        (((writeIndex H opts r.indexRows env).ops s'.1).map Sum.inl) t := by
      rw [if_neg (by simp), Act.ops_bind] at hRest
      generalize (Act.left (mediaDir file) (writeIndex H opts r.indexRows env)).result s' = index
        at hRest
      cases index with
      | error e =>
        rw [Act.ops_pure, List.append_nil] at hRest
        exact hRest
      | ok index =>
        rw [Act.ops_pure, List.append_nil] at hRest
        exact hRest
    have hFiles := stops_fst hIndex
    rw [lefts_map_inl] at hFiles
    have hEnd := (writeIndex_end H opts r.indexRows env s'.1).stops hFiles
    refine hNext.keep (fun names => holding_stops hSame hOps hIndex)
      fun stem format hStem hIndex' => .inl ?_
    rw [← nameKey_join H opts (portable_fileName hStem format)]
    exact hEnd.1 _ (key_file_ne_indexPart H hStem format)
      (key_file_ne_index H hStem hIndex' format)

/-! ## Directories that runs with media leave -/

variable (H file serves dir) in
/-- The directories that runs with media leave, one after another from an empty one, each stopped
anywhere but in the middle of a download. -/
inductive MediaReached : Files.Disk K × MediaDir N → Prop
  | start : MediaReached (fun _ => none, fun _ => none)
  | stopped (s t : Files.Disk K × MediaDir N) (targets : List SessionTarget) (opts : Options)
      (since : Option Int) (env : CallEnv) (pages : Nat → List PageEnv)
      (hReached : MediaReached s) (hDir : opts.outDir = dir) (hMedia : opts.withMedia = true)
      (hFair : FairPages serves pages)
      (hStop : Stops (calmly H file) s ((runMedia H file targets opts since env pages).ops s) t) :
      MediaReached t

theorem MediaReached.reached (h : MediaReached H file serves dir s) : Reached H dir False s.1 := by
  induction h with
  | start => exact .start _ rfl
  | stopped s t targets opts since env pages hReached hDir hMedia hFair hStop ih =>
    obtain ⟨sessions, hShadow, -⟩ := shadows_runMedia H file targets opts since env pages s
    have hLeft := stops_fst hStop
    rw [hShadow.ops] at hLeft
    exact .stopped s.1 t.1 targets opts _ ih hDir (fun h => h.elim) hLeft

/-- In every directory that runs with media leave, the media names of every artifact are files with
the bytes that were served. -/
theorem reached_whole (hSame : SameFile file serves) (h : MediaReached H file serves dir s) :
    ∀ stem format bytes, Stem stem → foldCase stem ≠ "index" →
      s.1 (nameKey H dir (fileName stem format)) = some (.file bytes) →
      ∃ names, mediaNames H.json format bytes = some names ∧
        ∀ name ∈ names, ∃ content, s.2 (file name) = some content ∧ serves name content := by
  have hWhole : Whole H file serves dir s := by
    induction h with
    | start =>
      refine ⟨?_, ?_⟩
      · intro name bytes hNone
        cases hNone
      · intro stem format bytes _ _ hNone
        cases hNone
    | stopped s t targets opts since env pages hReached hDir hMedia hFair hStop ih =>
      subst hDir
      exact ih.run hSame hFair hReached.reached.recorded hStop
  intro stem format bytes hStem hIndex hFile
  obtain ⟨names, hNames, hHas⟩ := hWhole.named stem format bytes hStem hIndex hFile
  refine ⟨names, hNames, fun name hName => ?_⟩
  obtain ⟨content, hContent⟩ := Option.isSome_iff_exists.mp (hHas name hName)
  exact ⟨content, hContent, hWhole.sound name content hContent⟩

end

/-! ## One picture -/

/-- A picture with the handle `a.jpg`. -/
def pictureMessage : PullMessage where
  accountName := "u"
  content := ""
  groupNickname := ""
  media := some ⟨"p.jpg", "", "image"⟩
  platformMessageId := "1"
  replyToMessageId := none
  sender := "u"
  timestamp := 1
  type := 1
  mediaId := some "a.jpg"

/-- The server has one page and one file of two bytes. -/
def picturePage : PageEnv where
  pull _ _ := .ok ⟨[pictureMessage], false, 1, 0⟩
  answers := []
  download _ name := ⟨if name = "a.jpg" then .bytes [1, 2] else .notFound, false, .none⟩
  fails _ := false

def picturesServed (name : String) (bytes : List UInt8) : Prop := name = "a.jpg" ∧ bytes = [1, 2]

def mediaOptions : Options := { plainOptions .jsonl false with withMedia := true }

def pictureRun : MediaIo unixHost (fun name : String => name)
    (Except Failure Outcome × List Report) :=
  runMedia unixHost _ [⟨"u", "U"⟩] mediaOptions none (.calm fun _ => .done (.ok ()))
    fun _ => [picturePage]

def emptyDirectory : Files.Disk (List (List Char)) × MediaDir String :=
  (fun _ => none, fun _ => none)

/-- The file of the conversation. -/
def pictureKey : List (List Char) := nameKey unixHost mediaOptions.outDir (fileName "U" .jsonl)

/-- A run that writes the conversation leaves an artifact that names the picture. -/
theorem picture_named {s : Files.Disk (List (List Char)) × MediaDir String}
    (hReached : Reached unixHost mediaOptions.outDir False s.1) (hOld : s.1 pictureKey = none)
    (hNew : ((pictureRun.after s).1 pictureKey).isSome = true)
    (hLog : ∀ rep ∈ (pictureRun.result s).2, rep.pages = [[pictureRow "a.jpg"]]) :
    ∃ bytes, (pictureRun.after s).1 pictureKey = some (.file bytes) ∧
      mediaNames Json.text .jsonl bytes = some ["a.jpg"] := by
  obtain ⟨sessions, hShadow, hHonest⟩ := shadows_runMedia unixHost (fun name : String => name)
    [⟨"u", "U"⟩] mediaOptions none (.calm fun _ => .done (.ok ())) (fun _ => [picturePage]) s
  have hStem : Stem "U" := ⟨List.all_eq_true.mp (by decide), by decide, by decide⟩
  have hTalkers : (([⟨"u", "U"⟩] : List SessionTarget).map (·.talker)).Nodup := by decide
  have hAtomic := (run_atomic hReached hTalkers (hHonest fun _ => trivial) (stops_end _ _)).1 "U"
    .jsonl hStem (by decide)
  have hAfter : (pictureRun.after s).1 = (run unixHost [⟨"u", "U"⟩] mediaOptions
    { CallEnv.calm (fun _ => .done (.ok ())) with session := sessions }).after s.1 := hShadow.after
  have hResult : pictureRun.result s = (run unixHost [⟨"u", "U"⟩] mediaOptions
    { CallEnv.calm (fun _ => .done (.ok ())) with session := sessions }).result s.1 :=
    hShadow.result
  rw [hAfter] at hNew ⊢
  rw [hResult] at hLog
  rcases hAtomic with hSame | ⟨rep, hRep, bytes, now, -, -, hFile, hComplete⟩
  · have hNone : (run unixHost [⟨"u", "U"⟩] mediaOptions
        { CallEnv.calm (fun _ => .done (.ok ())) with session := sessions }).after s.1 pictureKey =
        none := hSame.trans hOld
    rw [hNone] at hNew
    cases hNew
  · refine ⟨bytes, hFile, ?_⟩
    have hNames : mediaNames Json.text .jsonl bytes =
      some ((writtenRows rep.pages).filterMap Row.mediaName) := mediaNames_of_complete hComplete
    rw [hNames, hLog rep hRep]
    decide +kernel

theorem sameFile_id (serves : String → List UInt8 → Prop) :
    SameFile (fun name : String => name) serves := by
  intro a b hEq bytes h
  have hSame : a = b := hEq
  rwa [← hSame]

theorem pictureRun_reached : MediaReached unixHost (fun name => name) picturesServed
    mediaOptions.outDir (pictureRun.after emptyDirectory) := by
  refine .stopped emptyDirectory _ [⟨"u", "U"⟩] mediaOptions none _ (fun _ => [picturePage]) .start
    rfl rfl (fun _ p hPage k name => ?_) (stops_end _ _)
  rw [List.mem_singleton.mp hPage]
  refine ⟨fun content hContent => ?_, fun n hFault => by cases hFault⟩
  rw [picturePage] at hContent
  dsimp only at hContent
  split at hContent
  · rename_i hName
    cases hContent
    exact ⟨hName, rfl⟩
  · cases hContent

theorem reached_whole_picture :
    ∃ bytes, (pictureRun.after emptyDirectory).1 pictureKey = some (.file bytes) ∧
      ∃ names, mediaNames Json.text .jsonl bytes = some names ∧
        ∀ name ∈ names, ∃ content, (pictureRun.after emptyDirectory).2 name = some content ∧
          picturesServed name content := by
  obtain ⟨bytes, hFile, -⟩ := picture_named (s := emptyDirectory) (.start _ rfl) rfl
    (by decide +kernel) (by decide +kernel)
  exact ⟨bytes, hFile, reached_whole (sameFile_id picturesServed) pictureRun_reached "U" .jsonl
    bytes ⟨List.all_eq_true.mp (by decide), by decide, by decide⟩ (by decide) hFile⟩

/-- The directory when the run is stopped after the first byte of the picture. -/
def cutDirectory : Files.Disk (List (List Char)) × MediaDir String :=
  let s := replay (both (Files.effects (Option String) unixHost.key) (mediaDir fun name => name))
    emptyDirectory ((pictureRun.ops emptyDirectory).take 2)
  (s.1, Function.update s.2 "a.jpg" (some [1]))

/-- A run that is stopped in the middle of a download leaves a part of the picture, which the next
run takes for the picture. -/
theorem part_reused :
    (∀ k, (picturePage.download k "a.jpg").answer = .bytes [1, 2]) ∧
    ∃ s, Stops (both (Files.effects (Option String) unixHost.key) (mediaDir fun name => name))
        emptyDirectory (pictureRun.ops emptyDirectory) s ∧
      (∃ bytes, (pictureRun.after s).1 pictureKey = some (.file bytes) ∧
        mediaNames Json.text .jsonl bytes = some ["a.jpg"]) ∧
      (pictureRun.after s).2 "a.jpg" = some [1] := by
  have hStop : Stops
      (both (Files.effects (Option String) unixHost.key) (mediaDir fun name => name))
      emptyDirectory (pictureRun.ops emptyDirectory) cutDirectory :=
    stops_at (n := 2) (o := .inr ⟨"a.jpg", [1, 2]⟩) (by decide +kernel) ⟨⟨1, rfl⟩, rfl⟩
  obtain ⟨sessions, hShadow, -⟩ := shadows_runMedia unixHost (fun name : String => name)
    [⟨"u", "U"⟩] mediaOptions none (.calm fun _ => .done (.ok ())) (fun _ => [picturePage])
    emptyDirectory
  have hReached : Reached unixHost mediaOptions.outDir False cutDirectory.1 := by
    have hLeft := stops_fst hStop
    have hOps : lefts (pictureRun.ops emptyDirectory) = _ := hShadow.ops
    rw [hOps] at hLeft
    exact .stopped emptyDirectory.1 _ [⟨"u", "U"⟩] mediaOptions _ (.start _ rfl) rfl
      (fun h => h.elim) hLeft
  exact ⟨fun _ => rfl, cutDirectory, hStop,
    picture_named hReached (by decide +kernel) (by decide +kernel) (by decide +kernel),
    by decide +kernel⟩

end Weflow.Export
