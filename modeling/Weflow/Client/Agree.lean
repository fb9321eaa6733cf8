import Weflow.Client.Blocks

/-!
# Two clients on one stream

What the callers of the Rust and of the Python client see of one push stream. Each reader has its
own framer, its own rule for the cursor and its own dispatch on the kind of an event.

The cursors agree behind every frame. The events do not: a frame of a kind that is not known, and
the `ready` frame with which every connection begins, is handed over by the Rust client as a
notification that says nothing, and a `sync` frame whose generation is no `i64` is an error there.
`clients_agree_iff` says that nothing else differs.
-/

namespace Weflow.Client

open Json (Value)
open Sse (Frame)
open Framing (splitLines)

/-! ## What the callers see -/

/-- The typed events among what the Rust client handed over. -/
def eventsOf (handed : List Handed) : List ServerEvent := handed.filterMap fun h => h.2.toOption

/-- A Rust client with a cursor, before its next connection. -/
def Reading.at (c : Option Nat) : Reading where
  sse := { lastEventId := c }

/-- A Python client with a cursor, before its next connection. -/
def Reader.at (c : Option String) : Reader where
  gathered := { lastEventId := c }

/-- Behind every item of the stream both clients have seen the same events and hold one cursor, in
whatever pieces the bytes came and however the connection ends. -/
def ClientsAgree (otherDigit : Char → Bool) (c : Option Nat) (items : List Item) : Prop :=
  ∀ front, front <+: items → ∀ (pieces pieces' : List (List UInt8)) (e : StreamEnd),
    pieces.flatten = wireBytes front → pieces'.flatten = wireBytes front →
      eventsOf ((Reading.at c).connection decodeData pieces).1 =
          ((Reader.at (c.map toString)).connection (decoding otherDigit) pieces' e).yielded ∧
        ((Reading.at c).connection decodeData pieces).2.map toString =
          ((Reader.at (c.map toString)).connection (decoding otherDigit) pieces' e).lastEventId

/-- Both clients read the item as the same: it is a comment or an event whose generation, if it has
one, is an `i64`. -/
def Item.Shared : Item → Prop
  | .comment => True
  | .frame f at_ =>
    match frameEvent f with
    | none => False
    | some (.sync _) => at_.generation < 2 ^ 63
    | some _ => True
  | .foreign _ _ _ => False

/-! ## One item -/

/-- The event that an item carries. -/
def Item.typed : Item → Option ServerEvent
  | .frame f at_ => (frameEvent f).map (typedEvent at_)
  | _ => none

/-- The events of an item that the Rust client hands over. -/
def Item.seen (item : Item) : List ServerEvent := eventsOf item.handed

section

variable {item : Item} {items : List Item} {at_ : Moment} {ev : Event}

theorem typedEvent_ne_notification (at_ : Moment) (ev : Event) (n : NotificationFrame) :
    typedEvent at_ ev ≠ .notification n := by
  cases ev <;> exact fun h => by cases h

theorem takes_python (at_ : Moment) (ev : Event) : Ints.python.Takes at_ ev := by
  cases ev with
  | new m => rfl
  | revoke r => rfl
  | sync wms =>
    have hGeneration : (0 : Int) ≤ at_.generation := Int.natCast_nonneg at_.generation
    exact ⟨decide_eq_true hGeneration, fun _ _ => ⟨rfl, rfl, rfl⟩⟩

theorem takes_rust (h : InRange at_ ev) (hSync : ∀ wms, ev = .sync wms → at_.generation < 2 ^ 63) :
    Ints.rust.Takes at_ ev := by
  cases ev with
  | new m => exact decide_eq_true h
  | revoke r => exact decide_eq_true h
  | sync wms =>
    have hGeneration := hSync wms rfl
    refine ⟨decide_eq_true ⟨?_, ?_⟩, fun e he => ?_⟩
    · simp only [i64Min]
      omega
    · simp only [i64Max]
      omega
    · obtain ⟨hTime, hId, hSeq⟩ := h.2 e he
      exact ⟨decide_eq_true hTime, decide_eq_true hId, decide_eq_true hSeq⟩

/-- The Python client yields the event of a frame. -/
theorem decodeKind_event (at_ : Moment) (ev : Event) :
    decodeKind (serializeEvent at_ ev).2 (some (serializeEvent at_ ev).1) =
      .ok (some (typedEvent at_ ev)) := by
  have hTakes := takes_python at_ ev
  cases ev with
  | new m => exact congrArg validate (readNew_serializeEvent hTakes)
  | revoke r => exact congrArg validate (readRevoke_serializeEvent hTakes)
  | sync wms => exact congrArg validate (readSync_serializeEvent hTakes)

/-- The Rust client hands the event of a frame over. -/
theorem decodeEvent_event (h : Ints.rust.Takes at_ ev) :
    decodeEvent (serializeEvent at_ ev).1 (serializeEvent at_ ev).2 = .ok (typedEvent at_ ev) := by
  cases ev with
  | new m => exact congrArg orShape (readNew_serializeEvent h)
  | revoke r => exact congrArg orShape (readRevoke_serializeEvent h)
  | sync wms => exact congrArg orShape (readSync_serializeEvent h)

/-- A generation that is no `i64` is no event for the Rust client. -/
theorem decodeEvent_sync {wms : List (WmKey × Watermark)} (h : ¬ at_.generation < 2 ^ 63) :
    decodeEvent (serializeEvent at_ (.sync wms)).1 (serializeEvent at_ (.sync wms)).2 =
      .error .shape := by
  have hInt : asInt Ints.rust.generation (.int at_.generation) = none := by
    refine if_neg ?_
    rw [Ints.rust, decide_eq_true_eq, InI64]
    simp only [i64Max]
    omega
  have hNone : readSync .rust (serializeEvent at_ (.sync wms)).2 = none := by
    simp [readSync, serializeEvent, readStr, readInt, Json.get_object, Value.asStr, hInt]
  exact congrArg orShape (congrArg (Option.map ServerEvent.sync) hNone)

theorem kindOf_event (at_ : Moment) (ev : Event) :
    kindOf (serializeEvent at_ ev).2 = (serializeEvent at_ ev).1 := by
  rw [kindOf, event_serializeEvent]
  rfl

/-- What the Python client yields for the frame of an item. -/
theorem yielded_said {s : Said} (h : s.Fits) : s.frame.yielded =
    match decodeKind s.payload ((s.payload.get "event").getD (.str (eventText s.name))).asStr with
    | .ok e => e.toList
    | .error _ => [] := by
  obtain ⟨fields, hObj⟩ := h.obj
  have hParse : Json.parse s.frame.data = some (.obj fields) := by
    rw [← hObj]
    exact Json.parse_render h.wf
  rw [SseFrame.yielded, SseFrame.decodeEvent, hParse, hObj]
  rfl

theorem decodeKind_unknown {payload : Value} {kind : String} (h : kind ∉ knownKinds) :
    decodeKind payload (some kind) = .ok none := by
  unfold decodeKind
  split
  · rename_i hKind
    exact absurd (by simp [knownKinds, Option.some.inj hKind]) h
  · rename_i hKind
    exact absurd (by simp [knownKinds, Option.some.inj hKind]) h
  · rename_i hKind
    exact absurd (by simp [knownKinds, Option.some.inj hKind]) h
  · rfl

theorem decodeEvent_unknown {payload : Value} {kind : String} (h : kind ∉ knownKinds) :
    decodeEvent kind payload = .ok (.notification (placeholder kind)) := by
  unfold decodeEvent
  split
  · exact absurd (by simp [knownKinds]) h
  · exact absurd (by simp [knownKinds]) h
  · exact absurd (by simp [knownKinds]) h
  · exact absurd (by simp [knownKinds]) h
  · rfl

theorem event_ready : readyPayload.get "event" = none := by
  rw [readyPayload, Json.get_object]
  simp

theorem eventText_ready : eventText "ready" = "ready" := by decide +kernel

/-- The frames of an item yield the event that it carries. -/
theorem yieldedOf_block (h : item.InRange) (otherDigit : Char → Bool) :
    yieldedOf (decoding otherDigit) [item.block] = item.typed.toList := by
  rw [yieldedOf, List.flatMap_singleton, parse_block h]
  cases hSaid : item.said with
  | none =>
    cases item with
    | comment => rfl
    | frame f at_ => cases hSaid
    | foreign id kind fields => cases hSaid
  | some s =>
    rw [Option.map_some, Option.toList_some, List.flatMap_singleton]
    show s.frame.yielded = _
    rw [yielded_said (h.fits hSaid)]
    cases item with
    | comment => cases hSaid
    | foreign id kind fields =>
      cases hSaid
      have hKind : ((foreignPayload kind fields).get "event").getD (.str (eventText kind)) =
          .str kind := by
        rw [foreignPayload, Json.get_object]
        simp
      obtain ⟨-, hUnknown, -⟩ := h
      rw [hKind]
      simp only [Value.asStr, decodeKind_unknown hUnknown]
      rfl
    | frame f at_ =>
      cases hSaid
      rw [Item.typed]
      cases hEvent : frameEvent f with
      | none =>
        rw [Option.map_none, Option.getD_none, event_ready, Option.getD_none, Value.asStr,
          eventText_ready, decodeKind_unknown (by decide)]
        rfl
      | some ev =>
        simp only [Option.map_some, Option.getD_some, saidEvent, event_serializeEvent, Value.asStr,
          decodeKind_event]

/-- The Rust client on one item: the event, a notification instead of nothing, or nothing. -/
theorem seen_cases (h : item.InRange) :
    item.Shared ∧ item.seen = item.typed.toList ∨
      ¬ item.Shared ∧ ((∃ n, item.seen = [.notification n]) ∨
        item.seen = [] ∧ item.typed.isSome = true) := by
  cases item with
  | comment => exact .inl ⟨trivial, rfl⟩
  | foreign id kind fields =>
    obtain ⟨-, hUnknown, -⟩ := h
    have hKind : kindOf (foreignPayload kind fields) = kind := by
      rw [kindOf, foreignPayload, Json.get_object]
      simp [Value.asStr]
    refine .inr ⟨fun hShared => hShared, .inl ⟨placeholder kind, ?_⟩⟩
    rw [Item.seen, Item.handed, Item.said, Option.map_some, Said.decoded, hKind,
      decodeEvent_unknown hUnknown]
    rfl
  | frame f at_ =>
    rw [Item.Shared, Item.seen, Item.handed, Item.said, Item.typed, Option.map_some]
    cases hEvent : frameEvent f with
    | none =>
      refine .inr ⟨fun hShared => hShared, .inl ⟨placeholder "", ?_⟩⟩
      have hKind : kindOf readyPayload = "" := by
        rw [kindOf, event_ready]
        rfl
      rw [Option.map_none, Option.getD_none, Said.decoded, hKind, decodeEvent_unknown (by decide)]
      rfl
    | some ev =>
      have hRange := h.2 ev hEvent
      have hSeen : ∀ r, decodeEvent (serializeEvent at_ ev).1 (serializeEvent at_ ev).2 = r →
          eventsOf (Option.map (fun s => (s.id, s.decoded))
            (some (((some ev).map (saidEvent at_ f.id)).getD ⟨none, "ready", readyPayload⟩))).toList =
            r.toOption.toList := by
        rintro r rfl
        rw [Option.map_some, Option.map_some, Option.getD_some, Option.toList_some, Said.decoded,
          saidEvent, kindOf_event]
        cases decodeEvent (serializeEvent at_ ev).1 (serializeEvent at_ ev).2 <;> rfl
      by_cases hSync : ∀ wms, ev = .sync wms → at_.generation < 2 ^ 63
      · refine .inl ⟨?_, hSeen _ (decodeEvent_event (takes_rust hRange hSync))⟩
        cases ev with
        | new m => trivial
        | revoke r => trivial
        | sync wms => exact hSync wms rfl
      · simp only [not_forall, exists_prop] at hSync
        obtain ⟨wms, rfl, hBig⟩ := hSync
        exact .inr ⟨hBig, .inr ⟨hSeen _ (decodeEvent_sync hBig), rfl⟩⟩

/-- The two clients differ on every other item. -/
theorem shared_iff (h : item.InRange) : item.Shared ↔ item.seen = item.typed.toList := by
  rcases seen_cases h with ⟨hShared, hSeen⟩ | ⟨hNot, hSeen⟩
  · exact iff_of_true hShared hSeen
  · refine iff_of_false hNot fun hEq => ?_
    rcases hSeen with ⟨n, hOne⟩ | ⟨hNil, hSome⟩
    · rw [hOne, eq_comm, Option.toList_eq_singleton_iff] at hEq
      cases item with
      | comment => cases hEq
      | foreign id kind fields => cases hEq
      | frame f at_ =>
        obtain ⟨ev, -, hEv⟩ := Option.map_eq_some_iff.mp hEq
        exact typedEvent_ne_notification at_ ev n hEv
    · obtain ⟨e, he⟩ := Option.isSome_iff_exists.mp hSome
      rw [hNil, he] at hEq
      cases hEq

/-! ## A connection -/

/-- The Rust client on whole items. -/
theorem connection_rust (h : ∀ i ∈ items, i.InRange) (c : Option Nat) {pieces : List (List UInt8)}
    (hPieces : pieces.flatten = wireBytes items) :
    (Reading.at c).connection decodeData pieces = (items.flatMap Item.handed, lastId c items) := by
  have hReceived := (Reading.received_connect decodeData (Reading.at c)).chunks pieces
  have hLines : (splitLines newline (wireBytes items)).1.map Utf8.decodeLossy =
      items.flatMap Item.lines := by
    rw [splitLines_wireBytes h]
    simp [Function.comp_def]
  rw [List.nil_append, hPieces] at hReceived
  obtain ⟨-, hSse, hHanded⟩ := hReceived
  rw [hLines] at hSse hHanded
  rw [Reading.connection]
  simp only [hSse, hHanded]
  have hAll := feedAll_items (c := (Reading.at c).sse.lastEventId) h
  rw [hAll]
  rfl

/-- Where nothing is held, the end of the stream changes nothing. -/
theorem outcome_finish {D : Decoding} {r : Reader} (hPending : r.gathered.pending = [])
    (hBuffer : r.buffer = []) (e : StreamEnd) : (r.finish D e).outcome = r.outcome := by
  cases e with
  | error => rfl
  | eof =>
    have hResidual : rstripCr [] = [] := rfl
    unfold Reader.finish
    simp only [hBuffer, hResidual, hPending, ne_eq, not_true_eq_false, if_false, if_true]
    split <;> rfl

/-- The Python client on whole items within the cap. -/
theorem connection_python (h : ∀ i ∈ items, i.InRange)
    (hCap : ∀ i ∈ items, weight i.block ≤ sseBufferCap) (D : Decoding) (c : Option Nat)
    {pieces : List (List UInt8)} (hPieces : pieces.flatten = wireBytes items) (e : StreamEnd) :
    (Reader.at (c.map toString)).connection D pieces e =
      ⟨(lastId c items).map toString, yieldedOf D (items.map Item.block), false⟩ := by
  have hFrames := frames_received h []
  rw [List.append_nil] at hFrames
  obtain ⟨hFrames, hFrame, hLine⟩ := hFrames
  have hBlocks : frames (wireBytes items) = items.map Item.block := by
    rw [hFrames]
    exact List.append_nil _
  have hFit : AllFit (frames (wireBytes items)) := by
    rw [hBlocks]
    exact List.forall_mem_map.mpr hCap
  have hGoesOn : ¬ GivenUp (wireBytes items) := by
    rintro (hNot | hHeld)
    · exact hNot hFit
    · rw [held, hFrame, hLine] at hHeld
      exact absurd hHeld (Nat.not_lt_zero _)
  have hSteady := steady_received h D (c.map toString) (List.prefix_refl (wireBytes items))
  rw [hSteady.connection_eq hPieces, Reader.connection, List.foldl_cons, List.foldl_nil]
  rcases (Reader.fed_connect D (Reader.at (c.map toString))).chunk (wireBytes items) with
    ⟨-, hFed⟩ | ⟨hUp, -⟩
  · rw [List.nil_append] at hFed
    obtain ⟨hGathered, hBuffer, -⟩ := hFed
    have hReads := reads_gatheredAt D (c.map toString) [] (wireBytes items)
    obtain ⟨hOverflow, hPending, -⟩ := hReads.inside hFit
    have hCursor := hReads.lastEventId
    have hYielded := hReads.yielded
    rw [kept_of_allFit hFit, hBlocks] at hCursor hYielded
    rw [cursorOf_items h] at hCursor
    rw [outcome_finish (by rw [hGathered]; exact hPending.trans hFrame) (hBuffer.trans hLine),
      Reader.outcome, hGathered, Outcome.mk.injEq]
    exact ⟨hCursor, hYielded, hOverflow⟩
  · exact absurd hUp hGoesOn

/-! ## Both clients -/

theorem eventsOf_append (as bs : List Handed) : eventsOf (as ++ bs) = eventsOf as ++ eventsOf bs :=
  List.filterMap_append

theorem eventsOf_items (items : List Item) :
    eventsOf (items.flatMap Item.handed) = items.flatMap Item.seen := by
  induction items with
  | nil => rfl
  | cons item items ih => rw [List.flatMap_cons, eventsOf_append, ih, List.flatMap_cons, Item.seen]

theorem yieldedOf_items (h : ∀ i ∈ items, i.InRange) (otherDigit : Char → Bool) :
    yieldedOf (decoding otherDigit) (items.map Item.block) =
      items.flatMap fun i => i.typed.toList := by
  induction items with
  | nil => rfl
  | cons item items ih =>
    rw [List.map_cons, List.flatMap_cons, ← yieldedOf_block (h item List.mem_cons_self) otherDigit,
      ← ih fun i hi => h i (List.mem_cons_of_mem _ hi), ← yieldedOf_append]
    rfl

/-- The cursors always agree, so the clients do where the events do. -/
theorem clientsAgree_iff_events (h : ∀ i ∈ items, i.InRange)
    (hCap : ∀ i ∈ items, weight i.block ≤ sseBufferCap) (otherDigit : Char → Bool)
    (c : Option Nat) :
    ClientsAgree otherDigit c items ↔
      ∀ front, front <+: items → front.flatMap Item.seen = front.flatMap fun i => i.typed.toList := by
  have hBoth : ∀ front, front <+: items → ∀ (pieces pieces' : List (List UInt8)) (e : StreamEnd),
      pieces.flatten = wireBytes front → pieces'.flatten = wireBytes front →
        (Reading.at c).connection decodeData pieces = (front.flatMap Item.handed, lastId c front) ∧
          (Reader.at (c.map toString)).connection (decoding otherDigit) pieces' e =
            ⟨(lastId c front).map toString, front.flatMap fun i => i.typed.toList, false⟩ := by
    intro front hFront pieces pieces' e hPieces hPieces'
    have hIn := fun i hi => h i (hFront.subset hi)
    refine ⟨connection_rust hIn c hPieces, ?_⟩
    rw [connection_python hIn (fun i hi => hCap i (hFront.subset hi)) _ c hPieces' e,
      yieldedOf_items hIn]
  constructor
  · intro hAgree front hFront
    obtain ⟨hRust, hPython⟩ := hBoth front hFront [wireBytes front] [wireBytes front] .eof
      (List.append_nil _) (List.append_nil _)
    have hEvents := (hAgree front hFront [wireBytes front] [wireBytes front] .eof
      (List.append_nil _) (List.append_nil _)).1
    rw [hRust, hPython, eventsOf_items] at hEvents
    exact hEvents
  · intro hEvents front hFront pieces pieces' e hPieces hPieces'
    obtain ⟨hRust, hPython⟩ := hBoth front hFront pieces pieces' e hPieces hPieces'
    rw [hRust, hPython, eventsOf_items]
    exact ⟨hEvents front hFront, rfl⟩

/-- The clients agree behind every item exactly where all items are shared. -/
theorem clients_agree_iff (otherDigit : Char → Bool) (c : Option Nat) (items : List Item)
    (hItems : ∀ i ∈ items, i.InRange ∧ weight i.block ≤ sseBufferCap) :
    ClientsAgree otherDigit c items ↔ ∀ i ∈ items, i.Shared := by
  have hRange := fun i hi => (hItems i hi).1
  rw [clientsAgree_iff_events hRange (fun i hi => (hItems i hi).2)]
  constructor
  · intro hEvents i hi
    -- the events agree before the item and behind it, so they do on it
    obtain ⟨before, behind, rfl⟩ := List.append_of_mem hi
    have hBefore := hEvents before (List.prefix_append _ _)
    have hBehind := hEvents (before ++ [i]) ⟨behind, by simp⟩
    rw [List.flatMap_append, List.flatMap_append, hBefore, List.flatMap_singleton,
      List.flatMap_singleton] at hBehind
    exact (shared_iff (hRange i hi)).mpr (List.append_cancel_left hBehind)
  · intro hShared front hFront
    refine List.flatMap_congr fun i hi => ?_
    exact (shared_iff (hRange i (hFront.subset hi))).mp (hShared i (hFront.subset hi))

end

def greeting : RevokeEvent where
  sessionId := "s"
  sessionType := "other"
  sourceName := "s"
  groupName := none
  content := "c"
  rawid := "1"
  timestamp := 1

theorem inRange_revoke {id : Nat} {r : RevokeEvent} (hId : id < 2 ^ 64) (hTime : InI64 r.timestamp) :
    (Item.frame (.replay id (.revoke r)) {}).InRange ∧
      (Item.frame (.live id (.revoke r)) {}).InRange := by
  have hIds : ∀ n ∈ some id, n < 2 ^ 64 := by
    rintro n ⟨⟩
    exact hId
  have hEvent : ∀ ev ∈ some (Event.revoke r), InRange {} ev := by
    rintro ev ⟨⟩
    exact hTime
  exact ⟨⟨hIds, hEvent⟩, hIds, hEvent⟩

theorem inRange_greeting : (Item.frame (.live 7 (.revoke greeting)) {}).InRange :=
  (inRange_revoke (by decide) (by decide)).2

theorem inRange_comment : Item.comment.InRange := trivial

theorem inRange_ready : (Item.frame .ready {}).InRange := by
  refine ⟨fun n hn => ?_, fun ev hev => ?_⟩
  · cases hn
  · cases hev

theorem clients_agree_greeting :
    ClientsAgree (fun _ => false) none [.comment, .frame (.live 7 (.revoke greeting)) {}] := by
  refine (clients_agree_iff _ _ _ ?_).mpr ?_
  · rw [List.forall_mem_cons, List.forall_mem_singleton]
    exact ⟨⟨inRange_comment, by decide +kernel⟩, inRange_greeting, by decide +kernel⟩
  · rw [List.forall_mem_cons, List.forall_mem_singleton]
    exact ⟨trivial, trivial⟩

/-- The frame with which every connection begins is an event for the Rust client only. -/
theorem ready_differs : ¬ ClientsAgree (fun _ => false) none [.frame .ready {}] := by
  have hCap : weight (Item.frame .ready {}).block ≤ sseBufferCap := by decide +kernel
  rw [clientsAgree_iff_events (List.forall_mem_singleton.mpr inRange_ready)
    (List.forall_mem_singleton.mpr hCap)]
  intro hEvents
  have hSeen := hEvents _ (List.prefix_refl _)
  rw [List.flatMap_singleton, List.flatMap_singleton, ← shared_iff inRange_ready] at hSeen
  exact hSeen

end Weflow.Client
