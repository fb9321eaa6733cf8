import Weflow.Lib.Json
import Weflow.Server.Params
import Weflow.Sync.History

/-!
# The payload of a push event

`serialize_event` of `server/handlers/push_events.rs`, which makes a value of an event of the bus,
and the types of the two clients that are read from it. The clients generate their types from one
description, so each type is read by one definition, with what the two languages take for an
integer as a parameter.

`read_serializeEvent` is the round trip.
-/

namespace Weflow.Client

open Json (Value object)

/-! ## What the server writes -/

/-- What the server looks up at the moment a frame is made: the id under which a media file can be
fetched, for a session, a directory and a file name, and the generation. -/
structure Moment where
  fetchableMediaId : String → String → String → Option String := fun _ _ _ => none
  generation : Nat := 1

def optional : Option String → Value
  | some s => .str s
  | none => .null

/-- `EventMedia`; the id is left out where there is none. -/
def eventMedia (at_ : Moment) (sessionId : String) (md : PushMedia) : Value :=
  object ([("fileName", .str md.fileName), ("md5", optional md.md5), ("type", .str md.kind)] ++
    ((md.kindDir.bind fun dir => at_.fetchableMediaId sessionId dir md.fileName).map fun id =>
      ("mediaId", .str id)).toList)

def watermarkEntry (e : WmKey × Watermark) : Value :=
  object [("table", .str (e.1.rel ++ ":" ++ e.1.table)),
    ("watermark", object [("create_time", .int e.2.createTime),
      ("local_id", .int e.2.localId), ("sort_seq", .int e.2.sortSeq)])]

/-- `serialize_event`: the name of the frame and its payload. -/
def serializeEvent (at_ : Moment) : Event → String × Value
  | .new m =>
    ("message.new", object [
      ("content", .str m.content), ("event", .str "message.new"),
      ("groupName", optional m.groupName),
      ("media", (m.media.map (eventMedia at_ m.sessionId)).getD .null),
      ("rawid", .str m.rawid), ("sessionId", .str m.sessionId),
      ("sessionType", .str m.sessionType), ("sourceName", .str m.sourceName),
      ("timestamp", .int m.timestamp)])
  | .revoke r =>
    ("message.revoke", object [
      ("content", .str r.content), ("event", .str "message.revoke"),
      ("groupName", optional r.groupName), ("rawid", .str r.rawid),
      ("sessionId", .str r.sessionId), ("sessionType", .str r.sessionType),
      ("sourceName", .str r.sourceName), ("timestamp", .int r.timestamp)])
  | .sync wms =>
    ("sync", object [("event", .str "sync"), ("generation", .int at_.generation),
      ("watermarks", .arr (wms.map watermarkEntry))])

/-! ## What the clients read -/

structure EventMedia where
  fileName : String
  md5 : Option String
  mediaId : Option String
  type : String
deriving DecidableEq, Repr

structure EventNew where
  content : String
  event : String
  groupName : Option String
  media : Option EventMedia
  rawid : String
  sessionId : String
  sessionType : String
  sourceName : String
  timestamp : Int
deriving DecidableEq, Repr

structure EventRevoke where
  content : String
  event : String
  groupName : Option String
  rawid : String
  sessionId : String
  sessionType : String
  sourceName : String
  timestamp : Int
deriving DecidableEq, Repr

structure WatermarkEntry where
  table : String
  watermark : Watermark
deriving DecidableEq, Repr

structure EventSync where
  event : String
  generation : Int
  watermarks : List WatermarkEntry
deriving DecidableEq, Repr

/-- The meta-only frame of the notification face. -/
structure NotificationFrame where
  event : String
  eventId : String
  platformMessageId : Option String
  sessionId : String
  timestamp : Int
deriving DecidableEq, Repr

/-- `ServerEvent`. -/
inductive ServerEvent
  | new (e : EventNew)
  | revoke (e : EventRevoke)
  | sync (e : EventSync)
  | notification (e : NotificationFrame)
deriving DecidableEq, Repr

/-- The integers a client takes, for an ordinary field and for the generation. -/
structure Ints where
  field : Int → Bool
  generation : Int → Bool

namespace Ints

/-- `i64`. -/
def rust : Ints := ⟨fun n => InI64 n, fun n => InI64 n⟩

/-- `StrictInt`, and a generation that is not negative. -/
def python : Ints := ⟨fun _ => true, fun n => 0 ≤ n⟩

end Ints

def readStr (v : Value) (key : String) : Option String := (v.get key).bind Value.asStr

/-- A text or null. -/
def asOptional : Value → Option (Option String)
  | .null => some none
  | .str s => some (some s)
  | _ => none

/-- A field that may be missing or null. -/
def readOptional (v : Value) (key : String) : Option (Option String) :=
  ((v.get key).map asOptional).getD (some none)

def asInt (ok : Int → Bool) : Value → Option Int
  | .int n => if ok n then some n else none
  | _ => none

def readInt (ok : Int → Bool) (v : Value) (key : String) : Option Int := (v.get key).bind (asInt ok)

def readMedia (v : Value) : Option EventMedia := do
  let fileName ← readStr v "fileName"
  let md5 ← readOptional v "md5"
  let mediaId ← readOptional v "mediaId"
  let type ← readStr v "type"
  return { fileName, md5, mediaId, type }

/-- Media or null. -/
def asMedia : Value → Option (Option EventMedia)
  | .null => some none
  | v => (readMedia v).map some

def readMediaField (v : Value) : Option (Option EventMedia) :=
  ((v.get "media").map asMedia).getD (some none)

def readNew (ints : Ints) (v : Value) : Option EventNew := do
  let content ← readStr v "content"
  let event ← readStr v "event"
  let groupName ← readOptional v "groupName"
  let media ← readMediaField v
  let rawid ← readStr v "rawid"
  let sessionId ← readStr v "sessionId"
  let sessionType ← readStr v "sessionType"
  let sourceName ← readStr v "sourceName"
  let timestamp ← readInt ints.field v "timestamp"
  return { content, event, groupName, media, rawid, sessionId, sessionType, sourceName, timestamp }

def readRevoke (ints : Ints) (v : Value) : Option EventRevoke := do
  let content ← readStr v "content"
  let event ← readStr v "event"
  let groupName ← readOptional v "groupName"
  let rawid ← readStr v "rawid"
  let sessionId ← readStr v "sessionId"
  let sessionType ← readStr v "sessionType"
  let sourceName ← readStr v "sourceName"
  let timestamp ← readInt ints.field v "timestamp"
  return { content, event, groupName, rawid, sessionId, sessionType, sourceName, timestamp }

def readWatermark (ints : Ints) (v : Value) : Option WatermarkEntry := do
  let table ← readStr v "table"
  let wm ← v.get "watermark"
  let createTime ← readInt ints.field wm "create_time"
  let localId ← readInt ints.field wm "local_id"
  let sortSeq ← readInt ints.field wm "sort_seq"
  return { table, watermark := { createTime, localId, sortSeq } }

def readSync (ints : Ints) (v : Value) : Option EventSync := do
  let event ← readStr v "event"
  let generation ← readInt ints.generation v "generation"
  let items ← (v.get "watermarks").bind Value.asArray
  let watermarks ← items.mapM (readWatermark ints)
  return { event, generation, watermarks }

def readNotification (ints : Ints) (v : Value) : Option NotificationFrame := do
  let event ← readStr v "event"
  let eventId ← readStr v "eventId"
  let platformMessageId ← readOptional v "platformMessageId"
  let sessionId ← readStr v "sessionId"
  let timestamp ← readInt ints.field v "timestamp"
  return { event, eventId, platformMessageId, sessionId, timestamp }

/-! ## The round trip -/

/-- An event as a client should see it. -/
def typedMedia (at_ : Moment) (sessionId : String) (md : PushMedia) : EventMedia where
  fileName := md.fileName
  md5 := md.md5
  mediaId := md.kindDir.bind fun dir => at_.fetchableMediaId sessionId dir md.fileName
  type := md.kind

def typedEvent (at_ : Moment) : Event → ServerEvent
  | .new m => .new { m with
      event := "message.new", media := m.media.map (typedMedia at_ m.sessionId) }
  | .revoke r => .revoke { r with event := "message.revoke" }
  | .sync wms => .sync {
      event := "sync", generation := at_.generation
      watermarks := wms.map fun e => ⟨e.1.rel ++ ":" ++ e.1.table, e.2⟩ }

/-- The integers of an event are such as the client takes. -/
def Ints.Takes (ints : Ints) (at_ : Moment) : Event → Prop
  | .new m => ints.field m.timestamp
  | .revoke r => ints.field r.timestamp
  | .sync wms => ints.generation at_.generation ∧ ∀ e ∈ wms,
      ints.field e.2.createTime ∧ ints.field e.2.localId ∧ ints.field e.2.sortSeq

section

variable {ints : Ints} {at_ : Moment}

@[simp] theorem asOptional_optional (s : Option String) : asOptional (optional s) = some s := by
  cases s <;> rfl

@[simp] theorem asOptional_str (s : String) : asOptional (.str s) = some (some s) := rfl

theorem readMedia_eventMedia (sessionId : String) (md : PushMedia) :
    readMedia (eventMedia at_ sessionId md) = some (typedMedia at_ sessionId md) := by
  unfold readMedia eventMedia typedMedia
  cases hId : md.kindDir.bind fun dir => at_.fetchableMediaId sessionId dir md.fileName with
  | none => simp [readStr, readOptional, Json.get_object, Value.asStr]
  | some id => simp [readStr, readOptional, Json.get_object, Value.asStr]

theorem asMedia_eventMedia (sessionId : String) (md : Option PushMedia) :
    asMedia ((md.map (eventMedia at_ sessionId)).getD .null) =
      some (md.map (typedMedia at_ sessionId)) := by
  cases md with
  | none => rfl
  | some md =>
    have hMedia : asMedia (eventMedia at_ sessionId md) =
        (readMedia (eventMedia at_ sessionId md)).map some := rfl
    rw [Option.map_some, Option.getD_some, hMedia, readMedia_eventMedia]
    rfl

theorem readNew_serializeEvent {m : NewMessageEvent} (h : ints.field m.timestamp) :
    (readNew ints (serializeEvent at_ (.new m)).2).map .new = some (typedEvent at_ (.new m)) := by
  simp [readNew, serializeEvent, typedEvent, readStr, readOptional, readMediaField, readInt,
    Json.get_object, Value.asStr, asMedia_eventMedia, asInt, h]

theorem readRevoke_serializeEvent {r : RevokeEvent} (h : ints.field r.timestamp) :
    (readRevoke ints (serializeEvent at_ (.revoke r)).2).map .revoke =
      some (typedEvent at_ (.revoke r)) := by
  simp [readRevoke, serializeEvent, typedEvent, readStr, readOptional, readInt, Json.get_object,
    Value.asStr, asInt, h]

theorem readWatermark_watermarkEntry {e : WmKey × Watermark} (hTime : ints.field e.2.createTime)
    (hId : ints.field e.2.localId) (hSeq : ints.field e.2.sortSeq) :
    readWatermark ints (watermarkEntry e) = some ⟨e.1.rel ++ ":" ++ e.1.table, e.2⟩ := by
  simp [readWatermark, watermarkEntry, readStr, readInt, Json.get_object, Value.asStr, asInt,
    hTime, hId, hSeq]

theorem readSync_serializeEvent {wms : List (WmKey × Watermark)}
    (h : ints.Takes at_ (.sync wms)) :
    (readSync ints (serializeEvent at_ (.sync wms)).2).map .sync =
      some (typedEvent at_ (.sync wms)) := by
  have hItems : (wms.map watermarkEntry).mapM (readWatermark ints) =
      some (wms.map fun e => ⟨e.1.rel ++ ":" ++ e.1.table, e.2⟩) := by
    obtain ⟨-, hAll⟩ := h
    induction wms with
    | nil => rfl
    | cons e wms ih =>
      obtain ⟨hTime, hId, hSeq⟩ := hAll e List.mem_cons_self
      rw [List.map_cons, List.mapM_cons, readWatermark_watermarkEntry hTime hId hSeq,
        ih fun e he => hAll e (List.mem_cons_of_mem _ he)]
      rfl
  simp [readSync, serializeEvent, typedEvent, readStr, readInt, Json.get_object, Value.asStr,
    Value.asArray, asInt, h.1, hItems]

/-- The integers of the event are values of their types. -/
def InRange (at_ : Moment) : Event → Prop
  | .new m => InI64 m.timestamp
  | .revoke r => InI64 r.timestamp
  | .sync wms => at_.generation < 2 ^ 64 ∧ ∀ e ∈ wms,
      InI64 e.2.createTime ∧ InI64 e.2.localId ∧ InI64 e.2.sortSeq

theorem wf_optional (s : Option String) : (optional s).Wf := by
  cases s <;> simp [optional, Value.Wf]

theorem wf_int_of_inI64 {n : Int} (h : InI64 n) : (Value.int n).Wf := by
  obtain ⟨hLow, hHigh⟩ := h
  simp only [i64Min, i64Max] at hLow hHigh
  simp only [Value.Wf]
  omega

theorem wf_eventMedia (sessionId : String) (md : PushMedia) :
    (eventMedia at_ sessionId md).Wf := by
  refine Json.wf_object fun f hf => ?_
  simp only [List.mem_append, List.mem_cons, List.not_mem_nil, or_false, Option.mem_toList,
    Option.map_eq_some_iff] at hf
  rcases hf with (rfl | rfl | rfl) | ⟨id, -, rfl⟩
  · exact Json.wf_str _
  · exact wf_optional _
  · exact Json.wf_str _
  · exact Json.wf_str _

theorem wf_watermarkEntry {e : WmKey × Watermark} (hTime : InI64 e.2.createTime)
    (hId : InI64 e.2.localId) (hSeq : InI64 e.2.sortSeq) : (watermarkEntry e).Wf := by
  refine Json.wf_object fun f hf => ?_
  simp only [List.mem_cons, List.not_mem_nil, or_false] at hf
  rcases hf with rfl | rfl
  · exact Json.wf_str _
  · refine Json.wf_object fun f hf => ?_
    simp only [List.mem_cons, List.not_mem_nil, or_false] at hf
    rcases hf with rfl | rfl | rfl
    · exact wf_int_of_inI64 hTime
    · exact wf_int_of_inI64 hId
    · exact wf_int_of_inI64 hSeq

/-- A payload is a value that can be written. -/
theorem wf_serializeEvent {ev : Event} (h : InRange at_ ev) : (serializeEvent at_ ev).2.Wf := by
  cases ev with
  | new m =>
    refine Json.wf_object fun f hf => ?_
    simp only [List.mem_cons, List.not_mem_nil, or_false] at hf
    rcases hf with rfl | rfl | rfl | rfl | rfl | rfl | rfl | rfl | rfl
    · exact Json.wf_str _
    · exact Json.wf_str _
    · exact wf_optional _
    · cases m.media with
      | none => simp [Value.Wf]
      | some md => exact wf_eventMedia _ md
    · exact Json.wf_str _
    · exact Json.wf_str _
    · exact Json.wf_str _
    · exact Json.wf_str _
    · exact wf_int_of_inI64 h
  | revoke r =>
    refine Json.wf_object fun f hf => ?_
    simp only [List.mem_cons, List.not_mem_nil, or_false] at hf
    rcases hf with rfl | rfl | rfl | rfl | rfl | rfl | rfl | rfl
    · exact Json.wf_str _
    · exact Json.wf_str _
    · exact wf_optional _
    · exact Json.wf_str _
    · exact Json.wf_str _
    · exact Json.wf_str _
    · exact Json.wf_str _
    · exact wf_int_of_inI64 h
  | sync wms =>
    refine Json.wf_object fun f hf => ?_
    simp only [List.mem_cons, List.not_mem_nil, or_false] at hf
    rcases hf with rfl | rfl | rfl
    · exact Json.wf_str _
    · have hGeneration := h.1
      simp only [Value.Wf]
      omega
    · refine Json.wf_arr.mpr fun v hv => ?_
      obtain ⟨e, he, rfl⟩ := List.mem_map.mp hv
      obtain ⟨hTime, hId, hSeq⟩ := h.2 e he
      exact wf_watermarkEntry hTime hId hSeq

/-- The kind is in the payload, too. -/
theorem event_serializeEvent (ev : Event) :
    (serializeEvent at_ ev).2.get "event" = some (.str (serializeEvent at_ ev).1) := by
  cases ev <;> simp [serializeEvent, Json.get_object]

end

end Weflow.Client
