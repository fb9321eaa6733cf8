import Weflow.Lib.Files
import Weflow.Export.Lines

/-!
# The writer of one session

`SessionWriter` of `src/export.rs`: `begin`, some pages, `finish`. In the line format every line
goes to the `.part` file at once, in the document format the lines are kept and written by
`finish`; either way the final name appears by a rename and by nothing else.

What the environment decides is data: which calls fail (`SessionEnv`) and what the fetch does
(`Fetch`), page by page, by the answers it gets. The buffer of the source's writer may hold back
bytes until `flush`; the model writes through, and a run may be stopped after any byte.
-/

namespace Weflow.Export

open Effects
open Json (Value)

/-- The characters of a name that means one file on every volume, letter case aside. -/
structure Portable (name : String) : Prop where
  chars : ∀ c ∈ name.toList, slugChar c = true ∨ c = '.'
  ne_nil : name.toList ≠ []
  last : name.toList.getLast? ≠ some '.'
  not_device : isReservedDevice name.toList = false

/-- The system the export runs on: its paths, its JSON library, `str::to_lowercase`, and which
paths name one file. Portable names of one directory do so only if they differ in letter case at
most. -/
structure Host (K : Type) where
  platform : Paths.Platform
  json : Json.Text
  lower : String → String
  lowers : LowersAscii lower
  key : Paths.Path → K
  key_portable : ∀ dir a b, Portable a → Portable b →
    key (Paths.child dir a.toList) = key (Paths.child dir b.toList) → foldCase a = foldCase b

/-- Calls are tagged with the talker of the session they are made for, none for the index. -/
abbrev Io {K : Type} [DecidableEq K] (H : Host K) (A : Type) : Type :=
  Act (Files.effects (Option String) H.key) A

/-- An error of a session: a secret in the text, or anything else. -/
inductive Failure
  | secretLeak
  | other
  deriving DecidableEq

/-- What the caller's fetch does: it is done, or it hands over a page and goes on by the answer.
`fails` says which line of the page cannot be written. -/
inductive Fetch
  | done (result : Except Failure Unit)
  | page (rows : List Row) (fails : Nat → Bool) (next : Except Failure Unit → Fetch)

/-- What the environment decides about one session. -/
structure SessionEnv where
  now : Int64
  createDirFails : Bool
  createFails : Bool
  headerFails : Bool
  fetch : Fetch
  flushFails : Bool
  writeFault : Files.WriteFault
  renameFails : Bool

inductive Sink
  | lines
  | buffer (lines : List Value)

structure SessionWriter where
  talker : String
  path : Paths.Path
  part : Paths.Path
  format : Format
  secret : String
  sink : Sink
  count : UInt64
  members : List Value
  seen : List String

/-- `out_dir.join(name)`. -/
def Options.join {K : Type} (H : Host K) (opts : Options) (name : String) : Paths.Path :=
  Paths.join H.platform opts.outDir name.toList

def fileName (stem : String) (format : Format) : String := stem ++ "." ++ format.ext

def partName (stem : String) (format : Format) : String := fileName stem format ++ ".part"

def lineText (J : Json.Text) (v : Value) : List Char := (J.render v).toList ++ ['\n']

namespace SessionWriter

variable {K : Type} [DecidableEq K] (H : Host K)

def put (w : SessionWriter) (fails : Bool) (v : Value) : Io H (Except Failure SessionWriter) :=
  match w.sink with
  | .lines =>
    if leaks H.json (H.json.render v) w.secret then pure (.error .secretLeak)
    else if fails then pure (.error .other)
    else do
      Files.append H.key (some w.talker) w.part (Utf8.encode (lineText H.json v))
      return .ok w
  | .buffer lines => pure (.ok { w with sink := .buffer (lines ++ [v]) })

def new (target : SessionTarget) (opts : Options) (stem : String) : SessionWriter where
  talker := target.talker
  path := opts.join H (fileName stem opts.format)
  part := opts.join H (partName stem opts.format)
  format := opts.format
  secret := opts.secret
  sink := match opts.format with
    | .jsonl => .lines
    | .json => .buffer []
  count := 0
  members := []
  seen := []

/-- Opening the `.part` file, in the line format only. -/
def openSink (w : SessionWriter) (fails : Bool) : Io H Bool :=
  match w.sink with
  | .lines => Files.create H.key (some w.talker) fails w.part
  | .buffer _ => pure true

def begin (target : SessionTarget) (opts : Options) (env : SessionEnv) (stem : String) :
    Io H (Except Failure SessionWriter) :=
  if env.createDirFails then pure (.error .other)
  else do
    let w := new H target opts stem
    if ← w.openSink H env.createFails then
      match ← w.put H env.headerFails (headerLine target env.now) with
      | .ok w => return .ok w
      | .error e =>
        Files.remove H.key (some w.talker) w.part
        return .error e
    else return .error .other

/-- The member line of a sender seen for the first time, in the document format only. -/
def meet (w : SessionWriter) (r : Row) : SessionWriter :=
  if w.format = .json ∧ r.sender ∉ w.seen then
    { w with seen := r.sender :: w.seen, members := w.members ++ [memberLine r] }
  else w

def putRows (fails : Nat → Bool) : Nat → List Row → SessionWriter →
    Io H (Except Failure Unit × SessionWriter)
  | _, [], w => pure (.ok (), w)
  | i, r :: rest, w => do
    match ← (w.meet r).put H (fails i) (messageLine r) with
    | .ok w => putRows fails (i + 1) rest { w with count := w.count + 1 }
    | .error e => return (.error e, w.meet r)

def page (w : SessionWriter) (rows : List Row) (fails : Nat → Bool) :
    Io H (Except Failure Unit × SessionWriter) :=
  putRows H fails 0 (sortPage rows) w

/-- The fetch, with the writer's `page` as its callback; also the pages it handed over. -/
def drive : Fetch → SessionWriter →
    Io H (Except Failure Unit × SessionWriter × List (List Row))
  | .done result, w => pure (result, w, [])
  | .page rows fails next, w => do
    let p ← w.page H rows fails
    let q ← drive (next p.1) p.2
    return (q.1, q.2.1, rows :: q.2.2)

def finishInner (w : SessionWriter) (env : SessionEnv) : Io H (Except Failure UInt64) :=
  match w.sink with
  | .lines => pure (if env.flushFails then .error .other else .ok w.count)
  | .buffer lines =>
    let body := H.json.render (document lines w.members)
    if leaks H.json body w.secret then pure (.error .secretLeak)
    else do
      if ← Files.write H.key (some w.talker) env.writeFault w.part (Utf8.encode body.toList) then
        return .ok w.count
      else return .error .other

def finish (w : SessionWriter) (env : SessionEnv) : Io H (Except Failure UInt64) := do
  match ← w.finishInner H env with
  | .ok n =>
    if ← Files.rename H.key (some w.talker) env.renameFails w.part w.path then return .ok n
    else
      Files.remove H.key (some w.talker) w.part
      return .error .other
  | .error e =>
    Files.remove H.key (some w.talker) w.part
    return .error e

end SessionWriter

/-- One session of `run`, from `begin` to `finish`: the number of messages or the error, and the
pages the fetch handed over. -/
def exportSession {K : Type} [DecidableEq K] (H : Host K) (target : SessionTarget)
    (opts : Options) (env : SessionEnv) (stem : String) :
    Io H (Except Failure UInt64 × List (List Row)) := do
  match ← SessionWriter.begin H target opts env stem with
  | .error e => return (.error e, [])
  | .ok w =>
    let p ← w.drive H env.fetch
    match p.1 with
    | .error e =>
      Files.remove H.key (some target.talker) w.part
      return (.error e, p.2.2)
    | .ok _ =>
      let result ← p.2.1.finish H env
      return (result, p.2.2)

end Weflow.Export
