import Weflow.Client.Frames

/-!
# What the Rust client reads

The reading loop of `Client::watch` in the Rust client: the bytes of a connection are taken apart
line by line, and `SseFrameState::feed` hands something over at each `data:` line. The id of a frame
waits for that line and becomes the cursor with it.

* `feedAll_items`: a whole frame is handed over once, and its id becomes the cursor.
* `feedAll_prefix`: the lines of a stream that ends anywhere are handed over as the first frames of
  it, and the cursor is the last id of these.
* `Reading.Received`: it does not matter in which pieces the bytes came.
-/

namespace Weflow.Client

open Json (Value)
open Framing (stripPrefix splitLines)

/-! ## The parser -/

/-- Why a `data:` line is handed over as an error. -/
inductive DecodeError
  | json
  | shape
deriving DecidableEq, Repr

/-- An event that was read, or the error that its shape is wrong. -/
def orShape (r : Option ServerEvent) : Except DecodeError ServerEvent :=
  (r.map Except.ok).getD (.error .shape)

/-- The frame that is handed over for a kind that is not known. -/
def placeholder (kind : String) : NotificationFrame where
  event := kind
  eventId := ""
  platformMessageId := none
  sessionId := ""
  timestamp := 0

/-- `decode_event`. -/
def decodeEvent (kind : String) (v : Value) : Except DecodeError ServerEvent :=
  match kind with
  | "message.new" => orShape ((readNew .rust v).map .new)
  | "message.revoke" => orShape ((readRevoke .rust v).map .revoke)
  | "sync" => orShape ((readSync .rust v).map .sync)
  | "notification" => orShape ((readNotification .rust v).map .notification)
  | other => .ok (.notification (placeholder other))

/-- `SseFrameState`. -/
structure SseFrameState where
  pendingId : Option Nat := none
  lastEventId : Option Nat := none
deriving DecidableEq, Repr

/-- The kind that the payload names. -/
def kindOf (v : Value) : String := ((v.get "event").bind Value.asStr).getD ""

/-- What the text of a `data:` line is handed over as. -/
def decodeData (rest : List Char) : Except DecodeError ServerEvent :=
  match Json.parse (String.ofList ((stripPrefix [' '] rest).getD rest)) with
  | none => .error .json
  | some v => decodeEvent (kindOf v) v

/-- How the text of a `data:` line is decoded. -/
abbrev Decode := List Char → Except DecodeError ServerEvent

namespace SseFrameState

def beginConnection (s : SseFrameState) : SseFrameState := { s with pendingId := none }

/-- A `data:` line commits the id that waits for it. -/
def commit (s : SseFrameState) : SseFrameState :=
  match s.pendingId with
  | some id => { pendingId := none, lastEventId := some id }
  | none => s

/-- `feed`: one line, and what it hands to the caller. -/
def feed (decode : Decode) (s : SseFrameState) (line : List Char) :
    SseFrameState × Option (Except DecodeError ServerEvent) :=
  match stripPrefix "id:".toList line with
  | some rest =>
    match parseUsize (String.ofList (trimChars rest)) with
    | some id => ({ s with pendingId := some id }, none)
    | none => (s, none)
  | none =>
    match stripPrefix "data:".toList line with
    | some rest => (s.commit, some (decode rest))
    | none => (s, none)

end SseFrameState

/-- Something that was handed over, with the id that was committed for it. -/
abbrev Handed := Option Nat × Except DecodeError ServerEvent

/-- The lines of a piece, one after the other. -/
def feedAll (decode : Decode) (s : SseFrameState) : List (List Char) → SseFrameState × List Handed
  | [] => (s, [])
  | line :: lines =>
    let (s', out) := s.feed decode line
    let (t, rest) := feedAll decode s' lines
    (t, (out.map fun r => (s.pendingId, r)).toList ++ rest)

/-- The variables of the loop, and everything that was handed over. -/
structure Reading where
  sse : SseFrameState := {}
  buf : List UInt8 := []
  handed : List Handed := []

namespace Reading

/-- The top of the loop: a connection begins. -/
def connect (r : Reading) : Reading := { r with sse := r.sse.beginConnection, buf := [] }

/-- A piece arrives. -/
def chunk (decode : Decode) (r : Reading) (piece : List UInt8) : Reading :=
  let (lines, rest) := splitLines newline (r.buf ++ piece)
  let (sse, out) := feedAll decode r.sse (lines.map Utf8.decodeLossy)
  { sse, buf := rest, handed := r.handed ++ out }

end Reading

/-! ## One line -/

section

variable {decode : Decode} {s : SseFrameState}

theorem trimChars_id (n : Nat) :
    trimChars (' ' :: (toString n).toList) = (toString n).toList := by
  have hDigits : (toString n).toList = Nat.toDigits 10 n := by
    rw [Nat.toString_eq_repr, Nat.toList_repr]
  have hSpace : trimChars (' ' :: (toString n).toList) = trimChars (toString n).toList := by
    simp only [trimChars]
    rw [List.dropWhile_cons_of_pos (by decide)]
  rw [hSpace, hDigits]
  refine trimChars_of_not_white fun c hc => ?_
  have hBounds := isDigit_bounds (List.all_eq_true.mp (all_isDigit_toDigits n) c hc)
  exact isWhite_of_bounds ⟨by omega, hBounds.2⟩

theorem parseUsize_toString {n : Nat} (h : n < 2 ^ 64) : parseUsize (toString n) = some n := by
  have hDigits : (toString n).toList = Nat.toDigits 10 n := by
    rw [Nat.toString_eq_repr, Nat.toList_repr]
  have hAll := all_isDigit_toDigits n
  unfold parseUsize
  rw [hDigits]
  split
  · rename_i ds hEq
    rw [hEq] at hAll
    simp [Char.isDigit] at hAll
  · rw [parseDigits_toDigits, Option.filter_some, if_pos (decide_eq_true h)]

theorem stripPrefix_idLine (id : String) :
    stripPrefix "id:".toList (idLine id) = some (' ' :: id.toList) :=
  Framing.stripPrefix_append "id:".toList (' ' :: id.toList)

theorem stripPrefix_dataLine (data : String) :
    stripPrefix "data:".toList (dataLine data) = some (' ' :: data.toList) :=
  Framing.stripPrefix_append "data:".toList (' ' :: data.toList)

theorem feed_idLine {n : Nat} (h : n < 2 ^ 64) :
    s.feed decode (idLine (toString n)) = ({ s with pendingId := some n }, none) := by
  unfold SseFrameState.feed
  rw [stripPrefix_idLine]
  simp only
  rw [trimChars_id, String.ofList_toList, parseUsize_toString h]

theorem feed_eventLine (name : String) : s.feed decode (eventLine name) = (s, none) := by
  have hId : stripPrefix "id:".toList (eventLine name) = none :=
    Framing.stripPrefix_of_not (Framing.not_prefix_append (by decide) (by decide))
  have hData : stripPrefix "data:".toList (eventLine name) = none :=
    Framing.stripPrefix_of_not (Framing.not_prefix_append (by decide) (by decide))
  unfold SseFrameState.feed
  rw [hId]
  simp only
  rw [hData]

theorem feed_dataLine (data : String) :
    s.feed decode (dataLine data) = (s.commit, some (decode (' ' :: data.toList))) := by
  have hId : stripPrefix "id:".toList (dataLine data) = none :=
    Framing.stripPrefix_of_not (Framing.not_prefix_append (by decide) (by decide))
  unfold SseFrameState.feed
  rw [hId]
  simp only
  rw [stripPrefix_dataLine]

end

/-! ## Whole frames -/

/-- What a frame is decoded as. -/
def Said.decoded (s : Said) : Except DecodeError ServerEvent :=
  decodeEvent (kindOf s.payload) s.payload

def Item.id? (item : Item) : Option Nat := item.said.bind Said.id

/-- What an item is handed over as. -/
def Item.handed (item : Item) : List Handed := (item.said.map fun s => (s.id, s.decoded)).toList

/-- The cursor behind some items. -/
def lastId (c : Option Nat) (items : List Item) : Option Nat :=
  items.foldl (fun c item => item.id?.or c) c

theorem decodeData_render {v : Value} (h : v.Wf) :
    decodeData (' ' :: (Json.render v).toList) = decodeEvent (kindOf v) v := by
  unfold decodeData
  have hStrip : stripPrefix [' '] (' ' :: (Json.render v).toList) =
      some (Json.render v).toList := Framing.stripPrefix_append [' '] _
  rw [hStrip, Option.getD_some, String.ofList_toList, Json.parse_render h]

section

variable {decode : Decode} {s : Said} {item : Item} {items : List Item} {c : Option Nat}

theorem feedAll_append (t : SseFrameState) (a b : List (List Char)) :
    feedAll decode t (a ++ b) =
      ((feedAll decode (feedAll decode t a).1 b).1,
        (feedAll decode t a).2 ++ (feedAll decode (feedAll decode t a).1 b).2) := by
  induction a generalizing t with
  | nil => rfl
  | cons line a ih =>
    simp only [List.cons_append, feedAll, ih, List.append_assoc]

/-- The lines of a frame up to its `event` line: nothing is handed over. -/
theorem feedAll_head (h : s.Fits) :
    feedAll decode ⟨none, c⟩
        ((s.id.map fun n => idLine (toString n)).toList ++ [eventLine s.name]) =
      (⟨s.id, c⟩, []) := by
  cases hId : s.id with
  | none =>
    show feedAll decode ⟨none, c⟩ [eventLine s.name] = _
    simp only [feedAll, feed_eventLine]
    rfl
  | some n =>
    show feedAll decode ⟨none, c⟩ [idLine (toString n), eventLine s.name] = _
    simp only [feedAll, feed_idLine (h.id_lt n hId), feed_eventLine]
    rfl

theorem feedAll_data (h : s.Fits) :
    feedAll decodeData ⟨s.id, c⟩ [dataLine (Json.render s.payload)] =
      (⟨none, s.id.or c⟩, [(s.id, s.decoded)]) := by
  simp only [feedAll, feed_dataLine, decodeData_render h.wf]
  cases s.id <;> rfl

theorem Said.lines_eq (s : Said) :
    s.lines = ((s.id.map fun n => idLine (toString n)).toList ++ [eventLine s.name]) ++
      ([dataLine (Json.render s.payload)] ++ [[]]) := by
  rw [Said.lines, frameLines, Option.map_map]
  simp [Function.comp_def]

theorem feedAll_said (h : s.Fits) :
    feedAll decodeData ⟨none, c⟩ s.lines = (⟨none, s.id.or c⟩, [(s.id, s.decoded)]) := by
  rw [Said.lines_eq, feedAll_append, feedAll_head h, feedAll_append, feedAll_data h]
  rfl

theorem feedAll_item (h : item.InRange) :
    feedAll decodeData ⟨none, c⟩ item.lines = (⟨none, item.id?.or c⟩, item.handed) := by
  cases hSaid : item.said with
  | some s =>
    rw [Item.lines_said hSaid, feedAll_said (h.fits hSaid), Item.id?, Item.handed, hSaid]
    rfl
  | none =>
    cases item with
    | comment => rfl
    | frame f at_ => cases hSaid
    | foreign id kind fields => cases hSaid

/-- Every frame is handed over once. -/
theorem feedAll_items (h : ∀ i ∈ items, i.InRange) :
    feedAll decodeData ⟨none, c⟩ (items.flatMap Item.lines) =
      (⟨none, lastId c items⟩, items.flatMap Item.handed) := by
  induction items generalizing c with
  | nil => rfl
  | cons item items ih =>
    rw [List.flatMap_cons, feedAll_append, feedAll_item (h item List.mem_cons_self),
      ih fun i hi => h i (List.mem_cons_of_mem _ hi)]
    rfl

/-- The cursor only moves when something is handed over. -/
theorem lastEventId_feedAll {t : SseFrameState} {ls : List (List Char)}
    (h : (feedAll decode t ls).2 = []) : (feedAll decode t ls).1.lastEventId = t.lastEventId := by
  induction ls generalizing t with
  | nil => rfl
  | cons line ls ih =>
    simp only [feedAll, List.append_eq_nil_iff] at h ⊢
    obtain ⟨hOut, hRest⟩ := h
    rw [ih hRest]
    revert hOut
    unfold SseFrameState.feed
    split
    · split <;> exact fun _ => rfl
    · split
      · intro hOut
        cases hOut
      · exact fun _ => rfl

/-- Some of the lines of an item: it was handed over with its id, or neither happened. -/
theorem feedAll_part (h : item.InRange) {ls : List (List Char)} (hLines : ls <+: item.lines) :
    ((feedAll decodeData ⟨none, c⟩ ls).1.lastEventId = c ∧
        (feedAll decodeData ⟨none, c⟩ ls).2 = []) ∨
      ((feedAll decodeData ⟨none, c⟩ ls).1.lastEventId = item.id?.or c ∧
        (feedAll decodeData ⟨none, c⟩ ls).2 = item.handed) := by
  obtain ⟨rest, hRest⟩ := hLines
  have hAll := feedAll_item (c := c) h
  rw [← hRest, feedAll_append, Prod.mk.injEq] at hAll
  obtain ⟨hState, hOut⟩ := hAll
  cases hFirst : (feedAll decodeData ⟨none, c⟩ ls).2 with
  | nil => exact .inl ⟨lastEventId_feedAll hFirst, rfl⟩
  | cons a as =>
    -- an item is handed over once, so nothing is left for the other lines
    have hLength : item.handed.length ≤ 1 := by
      rw [Item.handed]
      cases item.said <;> simp
    rw [← hOut, hFirst, List.length_append, List.length_cons] at hLength
    have hNil : (feedAll decodeData (feedAll decodeData ⟨none, c⟩ ls).1 rest).2 = [] := by
      refine List.eq_nil_of_length_eq_zero ?_
      omega
    right
    rw [hNil, List.append_nil, hFirst] at hOut
    rw [← lastEventId_feedAll hNil, hState]
    exact ⟨rfl, hOut⟩

/-- A stream that ends anywhere: its first frames were handed over, and the cursor is theirs. -/
theorem feedAll_prefix (h : ∀ i ∈ items, i.InRange) {ls : List (List Char)}
    (hLines : ls <+: items.flatMap Item.lines) :
    ∃ front, front <+: items ∧ (feedAll decodeData ⟨none, c⟩ ls).1.lastEventId = lastId c front ∧
      (feedAll decodeData ⟨none, c⟩ ls).2 = front.flatMap Item.handed := by
  induction items generalizing c ls with
  | nil =>
    rw [List.flatMap_nil, List.prefix_nil] at hLines
    subst hLines
    exact ⟨[], List.prefix_rfl, rfl, rfl⟩
  | cons item items ih =>
    have hItem := h item List.mem_cons_self
    rw [List.flatMap_cons] at hLines
    rcases Framing.prefix_append_cases hLines with hPart | ⟨rest, rfl, hRest⟩
    · rcases feedAll_part (c := c) hItem hPart with ⟨hLast, hOut⟩ | ⟨hLast, hOut⟩
      · exact ⟨[], List.nil_prefix, hLast, hOut⟩
      · refine ⟨[item], List.prefix_append [item] items, hLast, ?_⟩
        rw [hOut, List.flatMap_singleton]
    · obtain ⟨front, hFront, hLast, hOut⟩ := ih (c := item.id?.or c)
        (fun i hi => h i (List.mem_cons_of_mem _ hi)) hRest
      refine ⟨item :: front, List.cons_prefix_cons.mpr ⟨rfl, hFront⟩, ?_, ?_⟩
      · rw [feedAll_append, feedAll_item hItem]
        exact hLast
      · rw [feedAll_append, feedAll_item hItem, List.flatMap_cons]
        exact congrArg (item.handed ++ ·) hOut

end

/-! ## Pieces -/

/-- The state of the loop when the bytes `got` have come on a connection that began with cursor
`c` and `before` handed over. -/
structure Reading.Received (decode : Decode) (c : Option Nat) (before : List Handed)
    (got : List UInt8) (r : Reading) : Prop where
  buf : r.buf = (splitLines newline got).2
  sse : r.sse = (feedAll decode ⟨none, c⟩ ((splitLines newline got).1.map Utf8.decodeLossy)).1
  handed : r.handed = before ++
    (feedAll decode ⟨none, c⟩ ((splitLines newline got).1.map Utf8.decodeLossy)).2

namespace Reading

variable {decode : Decode} {r : Reading} {c : Option Nat} {before : List Handed} {got : List UInt8}

theorem received_connect (decode : Decode) (r : Reading) :
    r.connect.Received decode r.sse.lastEventId r.handed [] where
  buf := rfl
  sse := rfl
  handed := (List.append_nil _).symm

theorem Received.chunk (h : r.Received decode c before got) (piece : List UInt8) :
    (r.chunk decode piece).Received decode c before (got ++ piece) := by
  obtain ⟨hBuf, hSse, hHanded⟩ := h
  have hSplit := Framing.splitLines_append newline got piece
  refine ⟨?_, ?_, ?_⟩
  · rw [hSplit, ← hBuf]
    rfl
  · rw [hSplit, ← hBuf, List.map_append, feedAll_append, ← hSse]
    rfl
  · rw [hSplit, ← hBuf, List.map_append, feedAll_append, ← hSse, ← List.append_assoc, ← hHanded]
    rfl

theorem Received.chunks (h : r.Received decode c before got) (pieces : List (List UInt8)) :
    (pieces.foldl (Reading.chunk decode) r).Received decode c before (got ++ pieces.flatten) := by
  induction pieces generalizing r got with
  | nil => simpa using h
  | cons piece pieces ih =>
    rw [List.flatten_cons, ← List.append_assoc]
    exact ih (h.chunk piece)

end Reading

end Weflow.Client
