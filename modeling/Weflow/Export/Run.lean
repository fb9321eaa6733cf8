import Weflow.Export.Writer

/-!
# A run of the export

`run` of `src/export.rs` with `previous_index`, `write_index` and `file_is_complete`: every
target gets its name, may be refused because the file there is not its own, may be reused on a
resume, or is exported; at the end the index is rewritten out of the entries collected on the
way. The reports are the log of the run: what was named, and what came of it.
-/

namespace Weflow.Export

open Effects
open Json (Value)

inductive Fate
  | refused
  | reused
  | failed (error : Failure)
  | written (messages : UInt64)
  deriving DecidableEq

/-- What a run did with one target; the pages are those handed to `on_page`. -/
structure Report where
  target : SessionTarget
  stem : String
  fate : Fate
  pages : List (List Row)

structure Round where
  taken : List String
  written : List Paths.Path
  reused : List String
  skipped : List String
  total : UInt64
  indexRows : List Value
  roundFiles : List (String × Paths.Path)
  reports : List Report

structure Outcome where
  written : List Paths.Path
  reused : List String
  skipped : List String
  messages : UInt64
  index : Paths.Path

/-- What the environment decides about one call of `run`. -/
structure CallEnv where
  createDirFails : Bool
  session : Nat → SessionEnv
  now : Int64
  indexFault : Files.WriteFault
  indexRenameFails : Bool

/-! ## The index -/

def indexName : String := "index.json"

def indexPartName : String := "index.json.part"

/-- The entries of an index file by talker, none if it cannot be read. -/
def parseIndex (J : Json.Text) (entry : Option Files.Entry) : Index :=
  match entry with
  | some (.file bytes) =>
    let doc := (Utf8.decode bytes).bind fun text => J.parse (String.ofList text)
    let rows := ((doc.bind (·.get "sessions")).bind (·.asArray)).getD []
    Json.ordered (rows.filterMap fun r => ((r.get "talker").bind (·.asStr)).map (·, r))
  | _ => []

/-- The first talker whose recorded file is `name`, letter case aside. -/
def Index.owner (index : Index) (name : String) : Option String :=
  (index.find? fun e => (fileOf e.2).any fun f => foldCase f == foldCase name).map (·.1)

/-- The entry is that of `talker`. -/
def isRowOf (talker : String) (row : Value) : Bool :=
  (row.get "talker").bind (·.asStr) == some talker

/-- The file name of a path, empty if it has none. -/
def nameHere (path : Paths.Path) : String := ((Paths.fileName path).map String.ofList).getD ""

variable {K : Type} [DecidableEq K] (H : Host K)

/-- `previous_index` of the output directory. -/
def previousIndex (opts : Options) (d : Files.Disk K) : Index :=
  parseIndex H.json (d (H.key (opts.join H indexName)))

def writeIndex (opts : Options) (rows : List Value) (env : CallEnv) :
    Io H (Except Failure Paths.Path) := do
  let index := opts.join H indexName
  let body := H.json.render (indexDocument rows env.now)
  if leaks H.json body opts.secret then return .error .secretLeak
  let part := opts.join H indexPartName
  if ← Files.write H.key none env.indexFault part (Utf8.encode body.toList) then
    if ← Files.rename H.key none env.indexRenameFails part index then return .ok index
    else return .error .other
  else return .error .other

/-- Not empty, and ends as a file of its format does. -/
def fileIsComplete (entry : Option Files.Entry) (format : Format) : Bool :=
  match entry with
  | some (.file bytes) =>
    bytes.getLast? == some (match format with
      | .json => 125
      | .jsonl => 10)
  | _ => false

/-! ## One target -/

/-- The entry of the owner that a refusal keeps in the index, unless it has one already. -/
def carried (recorded : Index) (owner : Option String) (rows : List Value) : List Value :=
  match owner with
  | none => []
  | some o => if rows.any (isRowOf o) then [] else (recorded.row o).toList

/-- The four conditions under which a resumed run keeps what is there. -/
def reusable (opts : Options) (previous : Index) (target : SessionTarget) (stem : String)
    (path : Paths.Path) (d : Files.Disk K) : Bool :=
  previous.file target.talker == some (nameHere path) &&
  !(d (H.key (opts.join H (partName stem opts.format)))).isSome &&
  (!opts.withMedia ||
    (((previous.row target.talker).bind (·.get "withMedia")).bind (·.asBool)).getD false) &&
  fileIsComplete (d (H.key path)) opts.format

def Round.refuse (r : Round) (target : SessionTarget) (stem : String) (rows : List Value) : Round :=
  { r with
    indexRows := r.indexRows ++ rows
    skipped := if target.talker ∈ r.skipped then r.skipped else r.skipped ++ [target.talker]
    reports := r.reports ++ [⟨target, stem, .refused, []⟩] }

def Round.reuse (r : Round) (target : SessionTarget) (stem : String) (path : Paths.Path)
    (row : Option Value) : Round :=
  { r with
    indexRows := r.indexRows ++ row.toList
    reused := r.reused ++ [target.talker]
    roundFiles := (target.talker, path) :: r.roundFiles
    reports := r.reports ++ [⟨target, stem, .reused, []⟩] }

def Round.fail (r : Round) (target : SessionTarget) (stem : String) (e : Failure)
    (pages : List (List Row)) : Round :=
  { r with
    skipped := r.skipped ++ [target.talker]
    reports := r.reports ++ [⟨target, stem, .failed e, pages⟩] }

def Round.deliver (r : Round) (target : SessionTarget) (stem : String) (path : Paths.Path)
    (withMedia : Bool) (n : UInt64) (pages : List (List Row)) : Round :=
  { r with
    total := r.total + n
    written := r.written ++ [path]
    roundFiles := (target.talker, path) :: r.roundFiles
    indexRows := r.indexRows ++ [indexRow target (nameHere path) n withMedia]
    reports := r.reports ++ [⟨target, stem, .written n, pages⟩] }

/-- One target of a run; the first component says that a secret stops the run. -/
def exportTarget (opts : Options) (previous recorded : Index) (env : SessionEnv)
    (target : SessionTarget) (r : Round) : Io H (Bool × Round) := do
  let named := stemFor H.lower previous target r.taken
  let stem := named.1
  let r := { r with taken := named.2 }
  let path := opts.join H (fileName stem opts.format)
  let here ← Files.present H.key path
  let owner := recorded.owner (nameHere path)
  let ownRerun := owner == some target.talker
  let thisRound := r.roundFiles.contains (target.talker, path)
  if !opts.resume && here && !ownRerun && !thisRound then
    return (false, r.refuse target stem (carried recorded owner r.indexRows))
  let reuse ← Act.look (reusable H opts previous target stem path)
  if opts.resume && here && reuse then
    return (false, r.reuse target stem path (previous.row target.talker))
  let result ← exportSession H target opts env stem
  match result.1 with
  | .error e => return (e == .secretLeak, r.fail target stem e result.2)
  | .ok n => return (false, r.deliver target stem path opts.withMedia n result.2)

def exportTargets (opts : Options) (previous recorded : Index) (env : Nat → SessionEnv) :
    Nat → List SessionTarget → Round → Io H (Bool × Round)
  | _, [], r => pure (false, r)
  | i, target :: rest, r => do
    let p ← exportTarget H opts previous recorded (env i) target r
    if p.1 then return p
    else exportTargets opts previous recorded env (i + 1) rest p.2

def Round.start (taken : List String) : Round := ⟨taken, [], [], [], 0, [], [], []⟩

/-- The call and its log. -/
def run (targets : List SessionTarget) (opts : Options) (env : CallEnv) :
    Io H (Except Failure Outcome × List Report) := do
  if env.createDirFails then return (.error .other, [])
  let recorded ← Act.look (previousIndex H opts)
  let previous := if opts.resume then recorded else []
  let p ← exportTargets H opts previous recorded env.session 0 targets
    (Round.start (seedTaken H.lower previous))
  let r := p.2
  if p.1 then return (.error .secretLeak, r.reports)
  match ← writeIndex H opts r.indexRows env with
  | .error e => return (.error e, r.reports)
  | .ok index => return (.ok ⟨r.written, r.reused, r.skipped, r.total, index⟩, r.reports)

/-! ## A calm system -/

/-- A Unix system: paths are one file if they have the same parts. -/
def unixHost : Host (List (List Char)) where
  platform := .unix
  json := Json.text
  lower := foldCase
  lowers := fun _ _ => rfl
  key p := p.parts
  key_portable := by
    intro dir a b _ _ h
    have hParts : a.toList = b.toList := by simpa [Paths.child] using h
    rw [String.toList_inj.mp hParts]

/-- A session none of whose calls fails. -/
def SessionEnv.calm (fetch : Fetch) : SessionEnv where
  now := 100
  createDirFails := false
  createFails := false
  headerFails := false
  fetch := fetch
  flushFails := false
  writeFault := .none
  renameFails := false

/-- A call of `run` in which nothing fails but what the fetches report. -/
def CallEnv.calm (fetch : Nat → Fetch) : CallEnv where
  createDirFails := false
  session i := .calm (fetch i)
  now := 100
  indexFault := .none
  indexRenameFails := false

/-- A fetch that hands over one row and passes on the answer. -/
def oneRow (content : String) : Fetch :=
  .page [⟨"1", "u", "u", "", 1, 0, content, none, none, none⟩] (fun _ => false) .done

def emptyDisk {K : Type} : Files.Disk K := fun _ => none

/-- Options of a call on the directory `/o`. -/
def plainOptions (format : Format) (resume : Bool) : Options where
  outDir := ⟨none, true, [['o']]⟩
  format := format
  resume := resume
  secret := ""
  withMedia := false

end Weflow.Export
