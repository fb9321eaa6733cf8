import Weflow.Client.Payload
import Weflow.Lib.Framing
import Weflow.Lib.Utf8
import Weflow.Server.PushEvents

/-!
# Frames on the wire

How the frames of a push stream are written: a frame is its `id`, `event` and `data` lines in that
order and a blank line, and a keep-alive comment may stand between any two of them. A later server
may also send frames of a kind that the clients do not know.

* `Said` is what a frame says, and `Said.Fits` what holds of it for every frame of the server.
* `lines_received`: a line is text without a newline, so the lines of what was received are the
  first of those that were written.
-/

namespace Weflow.Client

open Json (Value object)
open Sse (Frame)

/-- What is sent on a connection. -/
inductive Item
  | frame (f : Frame) (at_ : Moment)
  | foreign (id : Option Nat) (kind : String) (fields : List (String × Value))
  | comment

/-- The kinds that one of the clients looks for. -/
def knownKinds : List String := ["message.new", "message.revoke", "sync", "notification"]

/-- The text of a data field. -/
def dataText : Frame.Data Value → String
  | .text s => s
  | .json payload => Json.render payload

def idLine (id : String) : List Char := "id: ".toList ++ id.toList

def eventLine (name : String) : List Char := "event: ".toList ++ name.toList

def dataLine (data : String) : List Char := "data: ".toList ++ data.toList

def frameLines (id : Option String) (name data : String) : List (List Char) :=
  (id.map idLine).toList ++ [eventLine name, dataLine data, []]

/-- Every event says its kind in the payload, too. -/
def foreignPayload (kind : String) (fields : List (String × Value)) : Value :=
  object (fields ++ [("event", .str kind)])

namespace Item

def lines : Item → List (List Char)
  | .comment => [": ping".toList, []]
  | .frame f at_ =>
    let (id, name, data) := f.wire (serializeEvent at_)
    frameLines id name (dataText data)
  | .foreign id kind fields =>
    frameLines (id.map toString) kind (Json.render (foreignPayload kind fields))

/-- The event of the bus that a frame carries, with its id. -/
def stamped? : Item → Option Stamped
  | .frame (.replay id ev) _ => some ⟨id, ev⟩
  | .frame (.live id ev) _ => some ⟨id, ev⟩
  | _ => none

end Item

/-- LF. -/
def newline : UInt8 := 10

def bytesOf (lines : List (List Char)) : List UInt8 :=
  Framing.joinLines newline (lines.map Utf8.encode)

/-- The bytes of a stream. -/
def wireBytes (items : List Item) : List UInt8 := bytesOf (items.flatMap Item.lines)

/-! ## What a frame says -/

structure Said where
  id : Option Nat
  name : String
  payload : Value

def Said.lines (s : Said) : List (List Char) :=
  frameLines (s.id.map toString) s.name (Json.render s.payload)

def readyPayload : Value := object [("status", .str "ok")]

/-- The event of a frame, if it has one. -/
def frameEvent : Frame → Option Event
  | .ready => none
  | .replay _ ev => some ev
  | .baseline wms => some (.sync wms)
  | .live _ ev => some ev
  | .rebase wms => some (.sync wms)

/-- A frame that carries an event. -/
def saidEvent (at_ : Moment) (id : Option Nat) (ev : Event) : Said where
  id
  name := (serializeEvent at_ ev).1
  payload := (serializeEvent at_ ev).2

def Item.said : Item → Option Said
  | .comment => none
  | .frame f at_ => some (((frameEvent f).map (saidEvent at_ f.id)).getD ⟨none, "ready", readyPayload⟩)
  | .foreign id kind fields => some ⟨id, kind, foreignPayload kind fields⟩

/-- What an item says is in the range of its types. -/
def Item.InRange : Item → Prop
  | .comment => True
  | .frame f at_ => (∀ n ∈ f.id, n < 2 ^ 64) ∧ ∀ ev ∈ frameEvent f, Client.InRange at_ ev
  | .foreign id kind fields => (∀ n ∈ id, n < 2 ^ 64) ∧ kind ∉ knownKinds ∧
      '\n' ∉ kind.toList ∧ '\r' ∉ kind.toList ∧ ∀ f ∈ fields, f.2.Wf

/-- What holds of all that the server says. -/
structure Said.Fits (s : Said) : Prop where
  id_lt : ∀ n ∈ s.id, n < 2 ^ 64
  newline_name : '\n' ∉ s.name.toList
  cr_name : '\r' ∉ s.name.toList
  wf : s.payload.Wf
  obj : ∃ fields, s.payload = .obj fields

theorem Item.lines_comment : Item.lines .comment = [": ping".toList, []] := rfl

theorem render_readyPayload :
    dataText (.text "\x7b\"status\":\"ok\"\x7d") = Json.render readyPayload := by decide +kernel

/-- An item is written as what it says. -/
theorem Item.lines_said {item : Item} {s : Said} (h : item.said = some s) :
    item.lines = s.lines := by
  cases item with
  | comment => cases h
  | foreign id kind fields =>
    cases h
    rfl
  | frame f at_ =>
    cases h
    cases f with
    | ready =>
      show frameLines none "ready" (dataText (.text "\x7b\"status\":\"ok\"\x7d")) =
        frameLines none "ready" (Json.render readyPayload)
      rw [render_readyPayload]
    | replay id ev => rfl
    | baseline wms => rfl
    | live id ev => rfl
    | rebase wms => rfl

section

variable {at_ : Moment}

theorem name_serializeEvent (ev : Event) :
    (serializeEvent at_ ev).1 ∈ ["message.new", "message.revoke", "sync"] := by
  cases ev <;> simp [serializeEvent]

theorem char_not_mem_name {c : Char} {name : String}
    (hName : name ∈ ["message.new", "message.revoke", "sync"]) (hc : c = '\n' ∨ c = '\r') :
    c ∉ name.toList := by
  simp only [List.mem_cons, List.not_mem_nil, or_false] at hName
  rcases hName with rfl | rfl | rfl <;> rcases hc with rfl | rfl <;> decide

theorem obj_serializeEvent (ev : Event) : ∃ fields, (serializeEvent at_ ev).2 = .obj fields := by
  cases ev <;> exact ⟨_, rfl⟩

theorem fits_saidEvent {id : Option Nat} {ev : Event} (hId : ∀ n ∈ id, n < 2 ^ 64)
    (hEv : InRange at_ ev) : (saidEvent at_ id ev).Fits where
  id_lt := hId
  newline_name := char_not_mem_name (name_serializeEvent ev) (.inl rfl)
  cr_name := char_not_mem_name (name_serializeEvent ev) (.inr rfl)
  wf := wf_serializeEvent hEv
  obj := obj_serializeEvent ev

theorem fits_ready : Said.Fits ⟨none, "ready", readyPayload⟩ where
  id_lt _ hn := by cases hn
  newline_name := by
    show '\n' ∉ "ready".toList
    decide
  cr_name := by
    show '\r' ∉ "ready".toList
    decide
  wf := Json.wf_object fun f hf => by
    rw [List.mem_singleton.mp hf]
    exact Json.wf_str _
  obj := ⟨_, rfl⟩

/-- All that the server says fits. -/
theorem Item.InRange.fits {item : Item} {s : Said} (h : item.InRange)
    (hSaid : item.said = some s) : s.Fits := by
  cases item with
  | comment => cases hSaid
  | foreign id kind fields =>
    cases hSaid
    obtain ⟨hId, -, hNewline, hCr, hFields⟩ := h
    refine ⟨hId, hNewline, hCr, Json.wf_object fun f hf => ?_, ⟨_, rfl⟩⟩
    rcases List.mem_append.mp hf with hf | hf
    · exact hFields f hf
    · rw [List.mem_singleton.mp hf]
      exact Json.wf_str _
  | frame f at_ =>
    obtain ⟨hId, hEv⟩ := h
    cases hSaid
    cases f with
    | ready => exact fits_ready
    | replay id ev => exact fits_saidEvent hId (hEv ev rfl)
    | baseline wms => exact fits_saidEvent hId (hEv _ rfl)
    | live id ev => exact fits_saidEvent hId (hEv ev rfl)
    | rebase wms => exact fits_saidEvent hId (hEv _ rfl)

end

/-! ## Lines without newlines -/

theorem newline_not_mem_encode {line : List Char} (h : '\n' ∉ line) :
    newline ∉ Utf8.encode line := by
  intro hMem
  have hChar := (Utf8.mem_encode (b := newline) (by decide)).mp hMem
  exact h hChar

theorem not_mem_toString (n : Nat) : '\n' ∉ (toString n).toList := by
  rw [Nat.toString_eq_repr, Nat.toList_repr]
  exact Json.newline_toDigits n

theorem newline_append {a b : List Char} (ha : '\n' ∉ a) (hb : '\n' ∉ b) : '\n' ∉ a ++ b := by
  rw [List.mem_append, not_or]
  exact ⟨ha, hb⟩

theorem newline_eventLine {name : String} (h : '\n' ∉ name.toList) : '\n' ∉ eventLine name :=
  newline_append (by decide) h

theorem newline_dataLine {data : String} (h : '\n' ∉ data.toList) : '\n' ∉ dataLine data :=
  newline_append (by decide) h

theorem newline_idLine (n : Nat) : '\n' ∉ idLine (toString n) :=
  newline_append (by decide) (not_mem_toString n)

theorem Said.Fits.newline_not_mem {s : Said} (h : s.Fits) {line : List Char}
    (hLine : line ∈ s.lines) : '\n' ∉ line := by
  simp only [Said.lines, frameLines, List.mem_append, List.mem_cons, List.not_mem_nil, or_false,
    Option.mem_toList, Option.map_eq_some_iff] at hLine
  rcases hLine with ⟨id, ⟨n, -, rfl⟩, rfl⟩ | rfl | rfl | rfl
  · exact newline_idLine n
  · exact newline_eventLine h.newline_name
  · exact newline_dataLine (Json.text.newline_render h.wf)
  · exact List.not_mem_nil

/-- No line of an item has a newline in it. -/
theorem newline_not_mem_lines {item : Item} (h : item.InRange) {line : List Char}
    (hLine : line ∈ item.lines) : '\n' ∉ line := by
  cases hSaid : item.said with
  | some s =>
    rw [Item.lines_said hSaid] at hLine
    exact (h.fits hSaid).newline_not_mem hLine
  | none =>
    cases item with
    | comment =>
      simp only [Item.lines_comment, List.mem_cons, List.not_mem_nil, or_false] at hLine
      rcases hLine with rfl | rfl <;> decide
    | frame f at_ => cases hSaid
    | foreign id kind fields => cases hSaid

theorem newline_not_mem_encoded {items : List Item} (hItems : ∀ i ∈ items, i.InRange) :
    ∀ l ∈ (items.flatMap Item.lines).map Utf8.encode, newline ∉ l := by
  intro l hl
  obtain ⟨line, hLine, rfl⟩ := List.mem_map.mp hl
  obtain ⟨item, hItem, hLine⟩ := List.mem_flatMap.mp hLine
  exact newline_not_mem_encode (newline_not_mem_lines (hItems item hItem) hLine)

/-- What was written is read line by line. -/
theorem splitLines_wireBytes {items : List Item} (hItems : ∀ i ∈ items, i.InRange) :
    Framing.splitLines newline (wireBytes items) =
      ((items.flatMap Item.lines).map Utf8.encode, []) := by
  have hAll := Framing.splitLines_joinLines (newline_not_mem_encoded hItems) []
  simpa [Framing.splitLines, wireBytes, bytesOf] using hAll

/-- The lines of what was received are the first of those that were written. -/
theorem lines_received {items : List Item} (hItems : ∀ i ∈ items, i.InRange) {got : List UInt8}
    (h : got <+: wireBytes items) :
    (Framing.splitLines newline got).1.map Utf8.decodeLossy <+: items.flatMap Item.lines := by
  have hSplit : (Framing.splitLines newline got).1 <+:
      (Framing.splitLines newline (wireBytes items)).1 := Framing.splitLines_prefix h
  have hPrefix := hSplit.map Utf8.decodeLossy
  rw [splitLines_wireBytes hItems] at hPrefix
  simpa [Function.comp_def] using hPrefix

end Weflow.Client
