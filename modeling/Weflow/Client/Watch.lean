import Weflow.Client.Agree
import Weflow.Lib.Runs
import Weflow.Server.Following

/-!
# The Rust client over reconnects

`Client::watch` against the push stream of the server, over any number of connections, each of them
cut anywhere. `Watch` is the system of the server, the bytes under way and the client; everything
else that happens at the server, to the other connections too, is a step of its own.

* `Heard` is what the client has, and `Linked` what holds on a connection that is up.
* `watch_delivers` says that what was handed over with an id is the beginning of what was published,
  that the cursor is the last id of it, and that nothing is missing once all has been sent and read.

A connection that could not be made is no step, and an error of the transport is not counted among
what is handed over.
-/

namespace Weflow.Client

open Sse (Frame Conn Server Follows)
open Framing (splitLines)

/-! ## The system -/

/-- A connection of the client: its number at the server, what the server has written to it, and
the bytes of that which the client has received. -/
structure Link where
  conn : Nat
  items : List Item := []
  got : List UInt8 := []

structure Watch where
  server : Server
  reading : Reading
  link : Option Link := none

inductive Act
  /-- whatever happens at the server apart from the connection of the client -/
  | server (op : Sse.Op)
  | connect
  /-- the server sends the next frame, if one is due -/
  | send (wms : Sse.Watermarks) (at_ : Moment)
  | ping
  | receive (piece : List UInt8)
  /-- the connection is cut, and what was under way is lost -/
  | cut

/-- The operation is one on connection `i`. -/
def opOn (i : Nat) : Sse.Op → Bool
  | .next j _ => i = j
  | .close j => i = j
  | _ => false

/-- The frames that were sent on connection `i`. -/
def sentOn (s : Server) (i : Nat) : List Frame := (s.conns[i]?.map Conn.sent).getD []

namespace Watch

def step (w : Watch) : Act → Option Watch
  | .server op =>
    if w.link.any fun l => opOn l.conn op then none
    else some { w with server := w.server.step op }
  | .connect =>
    match w.link with
    | some _ => none
    | none => some {
        server := w.server.subscribe (w.reading.sse.lastEventId.getD 0)
        reading := w.reading.connect
        link := some { conn := w.server.conns.length } }
  | .send wms at_ => w.link.map fun l =>
    let server := w.server.next l.conn wms
    let frames := (sentOn server l.conn).drop (sentOn w.server l.conn).length
    { w with server, link := some { l with items := l.items ++ frames.map fun f => .frame f at_ } }
  | .ping => w.link.map fun l => { w with link := some { l with items := l.items ++ [.comment] } }
  | .receive piece => w.link.bind fun l =>
    if l.got ++ piece <+: wireBytes l.items then
      some { w with
        reading := w.reading.chunk decodeData piece
        link := some { l with got := l.got ++ piece } }
    else none
  | .cut => w.link.map fun _ => { w with link := none }

/-- Nothing that the client needs is lost by the server: the replay that it asks for is complete, and
its connection does not lag. The integers that are sent are values of their types. -/
def Calm (w : Watch) : Act → Prop
  | .connect => w.server.Keeps (w.reading.sse.lastEventId.getD 0)
  | .send wms at_ => ∀ l ∈ w.link, ∀ c, w.server.conns[l.conn]? = some c →
      c.Abreast w.server.bus.tx ∧
        ∀ f ∈ (sentOn (w.server.next l.conn wms) l.conn).drop (sentOn w.server l.conn).length,
          (Item.frame f at_).InRange
  | _ => True

/-- A client that begins with a cursor. -/
def start (s : Server) (c : Option Nat) : Watch where
  server := s
  reading := Reading.at c

/-- The connection is up, the server has nothing more to send on it, and all that it has sent was
received. -/
def UpToDate (w : Watch) : Prop :=
  ∃ l c, w.link = some l ∧ w.server.conns[l.conn]? = some c ∧ c.closed = false ∧ c.pc = .live ∧
    w.server.bus.tx.pos ≤ c.rx ∧ l.got = wireBytes l.items

end Watch

/-! ## What the client hears -/

/-- What was handed over with an id. -/
def identified (handed : List Handed) : List Handed := handed.filter fun h => h.1.isSome

/-- The event was handed over; in place of a sync event whose generation is no `i64`, an error. -/
def Delivers (a : Stamped) (h : Handed) : Prop :=
  h.1 = some a.id ∧ ∃ at_ : Moment, h.2 = .ok (typedEvent at_ a.event) ∨
    (∃ wms, a.event = .sync wms) ∧ 2 ^ 63 ≤ at_.generation ∧ h.2 = .error .shape

/-- The client has `told`, in this order, and its cursor is the last id of it. -/
structure Heard (log : List Stamped) (c : Option Nat) (told : List Stamped) (handed : List Handed)
    (cursor : Option Nat) : Prop where
  published : told <+: log.drop (c.getD 0)
  delivered : List.Forall₂ Delivers told (identified handed)
  cursor : cursor = (told.getLast?.map Stamped.id).or c

/-- The stream is exact: what was handed over with an id is the beginning of what was published
behind the first cursor, and all of it where the client is up to date. -/
structure Exact (c : Option Nat) (w : Watch) : Prop where
  heard : ∃ told, Heard w.server.log c told w.reading.handed w.reading.sse.lastEventId
  complete : w.UpToDate →
    List.Forall₂ Delivers (w.server.log.drop (c.getD 0)) (identified w.reading.handed)

/-- A frame of the server or a comment. -/
def Item.Own : Item → Prop
  | .foreign _ _ _ => False
  | _ => True

section

variable {item : Item} {items front : List Item} {c : Option Nat} {log told : List Stamped}
  {handed : List Handed} {cursor : Option Nat}

theorem stamped_frame (f : Frame) (at_ : Moment) : (Item.frame f at_).stamped? = f.stamped? := by
  cases f <;> rfl

theorem id_stamped (h : item.Own) : item.id? = item.stamped?.map Stamped.id := by
  cases item with
  | comment => rfl
  | foreign id kind fields => cases h
  | frame f at_ => cases f <;> rfl

/-- An event that was sent is delivered. -/
theorem delivers_said {at_ : Moment} {id : Nat} {ev : Event} (h : InRange at_ ev) :
    Delivers ⟨id, ev⟩ (some id, (saidEvent at_ (some id) ev).decoded) := by
  refine ⟨rfl, at_, ?_⟩
  have hDecoded : (saidEvent at_ (some id) ev).decoded =
      decodeEvent (serializeEvent at_ ev).1 (serializeEvent at_ ev).2 := by
    rw [Said.decoded, saidEvent, kindOf_event]
  rw [hDecoded]
  by_cases hSync : ∀ wms, ev = .sync wms → at_.generation < 2 ^ 63
  · exact .inl (decodeEvent_event (takes_rust h hSync))
  · simp only [not_forall, exists_prop] at hSync
    obtain ⟨wms, rfl, hBig⟩ := hSync
    exact .inr ⟨⟨wms, rfl⟩, by omega, @decodeEvent_sync at_ wms hBig⟩

theorem delivers_item (h : item.InRange) (hOwn : item.Own) :
    List.Forall₂ Delivers item.stamped?.toList (identified item.handed) := by
  cases item with
  | comment => exact .nil
  | foreign id kind fields => cases hOwn
  | frame f at_ =>
    cases f with
    | ready => exact .nil
    | baseline wms => exact .nil
    | rebase wms => exact .nil
    | replay id ev => exact .cons (delivers_said (h.2 ev rfl)) .nil
    | live id ev => exact .cons (delivers_said (h.2 ev rfl)) .nil

theorem identified_append (as bs : List Handed) :
    identified (as ++ bs) = identified as ++ identified bs := List.filter_append _ _

/-- What is delivered of some items. -/
theorem delivers_items (h : ∀ i ∈ items, i.InRange ∧ i.Own) :
    List.Forall₂ Delivers (items.filterMap Item.stamped?)
      (identified (items.flatMap Item.handed)) := by
  induction items with
  | nil => exact .nil
  | cons item items ih =>
    obtain ⟨hRange, hOwn⟩ := h item List.mem_cons_self
    have hRest := ih fun i hi => h i (List.mem_cons_of_mem _ hi)
    have hStamped : (item :: items).filterMap Item.stamped? =
        item.stamped?.toList ++ items.filterMap Item.stamped? := by
      rw [List.filterMap_cons]
      cases item.stamped? <;> rfl
    rw [hStamped, List.flatMap_cons, identified_append]
    exact List.rel_append (delivers_item hRange hOwn) hRest

/-- The cursor behind some items is the last id of them. -/
theorem lastId_items (h : ∀ i ∈ items, i.Own) (c : Option Nat) :
    lastId c items = ((items.filterMap Item.stamped?).getLast?.map Stamped.id).or c := by
  induction items using List.reverseRecOn with
  | nil => rfl
  | append_singleton items item ih =>
    have hItem := id_stamped (h item (by simp))
    have hLast : lastId c (items ++ [item]) = item.id?.or (lastId c items) :=
      List.foldl_concat _ _ _ _
    rw [hLast, hItem, ih fun i hi => h i (List.mem_append_left _ hi), List.filterMap_append]
    cases hStamped : item.stamped? with
    | none => simp [hStamped]
    | some a => simp [hStamped]

/-- What was heard before, and what some more items say. -/
theorem Heard.more (h : Heard log c told handed cursor) (hItems : ∀ i ∈ front, i.InRange ∧ i.Own)
    (hPublished : told ++ front.filterMap Item.stamped? <+: log.drop (c.getD 0)) :
    Heard log c (told ++ front.filterMap Item.stamped?) (handed ++ front.flatMap Item.handed)
      (lastId cursor front) where
  published := hPublished
  delivered := by
    rw [identified_append]
    exact List.rel_append h.delivered (delivers_items hItems)
  cursor := by
    rw [lastId_items fun i hi => (hItems i hi).2, h.cursor]
    rcases List.eq_nil_or_concat' (front.filterMap Item.stamped?) with hNil | ⟨init, a, hEq⟩
    · simp [hNil]
    · simp [hEq, ← List.append_assoc]

theorem Heard.mono (h : Heard log c told handed cursor) (hLog : c.getD 0 ≤ log.length)
    (more : List Stamped) : Heard (log ++ more) c told handed cursor where
  published := by
    rw [List.drop_append_of_le_length hLog]
    exact h.published.trans (List.prefix_append _ _)
  delivered := h.delivered
  cursor := h.cursor

/-- The cursor is the number of what was published up to it. -/
theorem Heard.cursor_eq (h : Heard log c told handed cursor)
    (hIds : log.map Stamped.id = List.range' 1 log.length) :
    cursor.getD 0 = c.getD 0 + told.length := by
  rw [h.cursor]
  rcases List.eq_nil_or_concat' told with rfl | ⟨init, a, rfl⟩
  · rfl
  · obtain ⟨rest, hRest⟩ := h.published
    have hAt : log[c.getD 0 + init.length]? = some a := by
      rw [← List.getElem?_drop, ← hRest]
      simp
    have hLt := (List.getElem?_eq_some_iff.mp hAt).1
    have hId : (log.map Stamped.id)[c.getD 0 + init.length]? = some a.id := by
      rw [List.getElem?_map, hAt, Option.map_some]
    rw [hIds, List.getElem?_range' hLt] at hId
    have := Option.some.inj hId
    simp only [List.getLast?_concat, Option.map_some, Option.some_or, Option.getD_some,
      List.length_append, List.length_singleton]
    omega

/-- What is behind the cursor is what was not heard. -/
theorem Heard.split (h : Heard log c told handed cursor)
    (hIds : log.map Stamped.id = List.range' 1 log.length) :
    told ++ log.drop (cursor.getD 0) = log.drop (c.getD 0) := by
  obtain ⟨rest, hRest⟩ := h.published
  rw [h.cursor_eq hIds, ← List.drop_drop, ← hRest, List.drop_left]

/-! ## A connection that is up -/

/-- On a connection that is up: what was heard before it, what of it was received, and what the
server still has to send. -/
structure Linked (c : Option Nat) (w : Watch) (l : Link) (told : List Stamped)
    (before : List Handed) (cursor : Option Nat) (conn : Conn) : Prop where
  heard : Heard w.server.log c told before cursor
  received : w.reading.Received decodeData cursor before l.got
  got : l.got <+: wireBytes l.items
  items : ∀ i ∈ l.items, i.InRange ∧ i.Own
  conn_eq : w.server.conns[l.conn]? = some conn
  isOpen : conn.closed = false
  sent : l.items.filterMap Item.stamped? = conn.told
  follows : Follows w.server.log (cursor.getD 0) conn

/-- The invariant of every run. -/
structure Inv (c : Option Nat) (w : Watch) : Prop where
  server : Sse.Inv w.server
  first_le : c.getD 0 ≤ w.server.log.length
  down : w.link = none →
    ∃ told, Heard w.server.log c told w.reading.handed w.reading.sse.lastEventId
  up : ∀ l, w.link = some l → ∃ told before cursor conn, Linked c w l told before cursor conn

variable {w : Watch} {l : Link} {before : List Handed} {conn : Conn}

/-- What was received of the connection was heard. -/
theorem Linked.reached (h : Linked c w l told before cursor conn) (hInv : Sse.Inv w.server) :
    ∃ front, front <+: l.items ∧
      Heard w.server.log c (told ++ front.filterMap Item.stamped?) w.reading.handed
        w.reading.sse.lastEventId ∧
      (l.got = wireBytes l.items → front = l.items) := by
  have hRange := fun i hi => (h.items i hi).1
  have hReceived := h.received
  have hSplit := h.heard.split hInv.log_ids
  have hAll : told ++ l.items.filterMap Item.stamped? <+: w.server.log.drop (c.getD 0) := by
    rw [← hSplit, List.prefix_append_right_inj, ← h.follows.log_eq, h.sent]
    exact List.prefix_append _ _
  have hFront : ∀ front, front <+: l.items →
      w.reading.sse.lastEventId = lastId cursor front →
      w.reading.handed = before ++ front.flatMap Item.handed →
      Heard w.server.log c (told ++ front.filterMap Item.stamped?) w.reading.handed
        w.reading.sse.lastEventId := by
    rintro front ⟨rest, hRest⟩ hCursor hHanded
    rw [hCursor, hHanded]
    refine h.heard.more (fun i hi => h.items i (hRest ▸ List.mem_append_left _ hi)) ?_
    refine List.IsPrefix.trans ?_ hAll
    rw [← hRest, List.filterMap_append, ← List.append_assoc]
    exact List.prefix_append _ _
  by_cases hWhole : l.got = wireBytes l.items
  · have hLines : (splitLines newline l.got).1.map Utf8.decodeLossy =
        l.items.flatMap Item.lines := by
      rw [hWhole, splitLines_wireBytes hRange]
      simp [Function.comp_def]
    have hSse := hReceived.sse
    have hHanded := hReceived.handed
    rw [hLines, feedAll_items hRange] at hSse hHanded
    exact ⟨l.items, List.prefix_refl _,
      hFront l.items (List.prefix_refl _) (by rw [hSse]) hHanded, fun _ => rfl⟩
  · obtain ⟨front, hPrefix, hCursor, hHanded⟩ := feedAll_prefix (c := cursor) hRange
      (lines_received hRange h.got)
    refine ⟨front, hPrefix, hFront front hPrefix ?_ ?_, fun hEq => absurd hEq hWhole⟩
    · rw [hReceived.sse, hCursor]
    · rw [hReceived.handed, hHanded]

theorem Inv.heard (h : Inv c w) :
    ∃ told, Heard w.server.log c told w.reading.handed w.reading.sse.lastEventId := by
  cases hLink : w.link with
  | none => exact h.down hLink
  | some l =>
    obtain ⟨told, before, cursor, conn, hLinked⟩ := h.up l hLink
    obtain ⟨front, -, hHeard, -⟩ := hLinked.reached h.server
    exact ⟨_, hHeard⟩

/-- The invariant gives what the stream promises. -/
theorem Inv.exact (h : Inv c w) : Exact c w where
  heard := h.heard
  complete := by
    rintro ⟨l, conn', hLink, hConn, hOpen, hPc, hEnd, hGot⟩
    obtain ⟨told, before, cursor, conn, hLinked⟩ := h.up l hLink
    obtain rfl : conn' = conn := Option.some.inj (hConn.symm.trans hLinked.conn_eq)
    obtain ⟨front, -, hHeard, hWhole⟩ := hLinked.reached h.server
    have hFollows := hLinked.follows.log_eq
    rw [h.server.todo_nil (List.mem_of_getElem? hConn) hOpen hPc hEnd, List.append_nil,
      ← hLinked.sent] at hFollows
    have hDelivered := hHeard.delivered
    rwa [hWhole hGot, hFollows, hLinked.heard.split h.server.log_ids] at hDelivered

/-! ## Steps -/

theorem inv_start {s : Server} (hServer : Sse.Inv s) (hFirst : c.getD 0 ≤ s.log.length) :
    Inv c (.start s c) where
  server := hServer
  first_le := hFirst
  down _ := ⟨[], List.nil_prefix, .nil, rfl⟩
  up l hLink := by cases hLink

theorem Heard.le (h : Heard log c told handed cursor)
    (hIds : log.map Stamped.id = List.range' 1 log.length) (hFirst : c.getD 0 ≤ log.length) :
    cursor.getD 0 ≤ log.length := by
  have hLength := h.published.length_le
  rw [List.length_drop] at hLength
  rw [h.cursor_eq hIds]
  omega

/-- An operation on another connection leaves this one as it is. -/
theorem conn_step {s : Server} {i : Nat} (hConn : s.conns[i]? = some conn) {op : Sse.Op}
    (hOther : opOn i op = false) : (s.step op).conns[i]? = some conn := by
  cases op with
  | publish ev =>
    rw [Server.step, Server.publish]
    exact hConn
  | subscribe since =>
    have hLt := (List.getElem?_eq_some_iff.mp hConn).1
    rw [Server.step, Server.subscribe]
    exact (List.getElem?_append_left hLt).trans hConn
  | next j wms =>
    have hNe : i ≠ j := by simpa [opOn] using hOther
    simp [Server.step, Server.next, Ne.symm hNe, hConn]
  | close j =>
    have hNe : i ≠ j := by simpa [opOn] using hOther
    rw [Server.step, Server.close]
    split
    · split
      · exact hConn
      · simp [List.getElem?_set_ne (Ne.symm hNe), hConn]
    · exact hConn
  | clear => exact hConn
  | tick d => exact hConn

theorem Linked.server (h : Linked c w l told before cursor conn) (hInv : Inv c w) {op : Sse.Op}
    (hOther : opOn l.conn op = false) :
    Linked c { w with server := w.server.step op } l told before cursor conn := by
  obtain ⟨more, hLog⟩ := Sse.log_step w.server op
  have hHeard := h.heard.mono hInv.first_le more
  rw [← hLog] at hHeard
  exact { h with
    heard := hHeard
    conn_eq := conn_step h.conn_eq hOther
    follows := h.follows.step hInv.server (List.mem_of_getElem? h.conn_eq) h.isOpen
      (h.heard.le hInv.server.log_ids hInv.first_le) op }

theorem Linked.send (h : Linked c w l told before cursor conn) (hInv : Sse.Inv w.server)
    {wms : Sse.Watermarks} {at_ : Moment} (hAbreast : conn.Abreast w.server.bus.tx)
    (hRange : ∀ f ∈ (sentOn (w.server.next l.conn wms) l.conn).drop
      (sentOn w.server l.conn).length, (Item.frame f at_).InRange) :
    Linked c { w with server := w.server.next l.conn wms }
      { l with items := l.items ++ ((sentOn (w.server.next l.conn wms) l.conn).drop
        (sentOn w.server l.conn).length).map fun f => .frame f at_ }
      told before cursor (conn.next w.server.bus.tx wms) := by
  have hMem := List.mem_of_getElem? h.conn_eq
  have hConn : (w.server.next l.conn wms).conns[l.conn]? =
      some (conn.next w.server.bus.tx wms) := by
    simp [Server.next, h.conn_eq, h.isOpen]
  obtain ⟨fs, hSent⟩ := h.follows.sent_next w.server.bus.tx wms
  have hNew : (sentOn (w.server.next l.conn wms) l.conn).drop
      (sentOn w.server l.conn).length = fs := by
    rw [sentOn, sentOn, hConn, h.conn_eq]
    simp [hSent]
  rw [hNew] at hRange ⊢
  have hMore : wireBytes l.items <+: wireBytes (l.items ++ fs.map fun f => .frame f at_) := by
    rw [wireBytes, wireBytes, bytesOf, bytesOf, List.flatMap_append, List.map_append,
      Framing.joinLines_append]
    exact List.prefix_append _ _
  refine ⟨h.heard, h.received, h.got.trans hMore, fun i hi => ?_, hConn, ?_, ?_, ?_⟩
  · rcases List.mem_append.mp hi with hi | hi
    · exact h.items i hi
    · obtain ⟨f, hf, rfl⟩ := List.mem_map.mp hi
      exact ⟨hRange f hf, trivial⟩
  · rw [Conn.closed_next, h.isOpen]
  · rw [List.filterMap_append, h.sent, Conn.told, Conn.told, hSent, List.filterMap_append,
      List.filterMap_map]
    simp only [Function.comp_def, stamped_frame]
  · exact h.follows.next (hInv.traced conn hMem) (hInv.attached conn hMem h.isOpen) hInv.log_ids
      hInv.ring hAbreast wms

/-- A connection that is made with a complete replay. -/
theorem linked_connect (h : Inv c w) (hLink : w.link = none)
    (hKeeps : w.server.Keeps (w.reading.sse.lastEventId.getD 0)) :
    ∃ told conn, Linked c { w with
      server := w.server.subscribe (w.reading.sse.lastEventId.getD 0)
      reading := w.reading.connect } { conn := w.server.conns.length } told w.reading.handed
        w.reading.sse.lastEventId conn := by
  obtain ⟨told, hHeard⟩ := h.down hLink
  refine ⟨told, _, hHeard, Reading.received_connect decodeData w.reading, List.nil_prefix,
    (fun i hi => by cases hi), ?_, rfl, rfl, h.server.follows_opened hKeeps⟩
  rw [Server.subscribe]
  exact List.getElem?_concat_length

theorem Linked.ping (h : Linked c w l told before cursor conn) :
    Linked c w { l with items := l.items ++ [.comment] } told before cursor conn := by
  have hMore : wireBytes l.items <+: wireBytes (l.items ++ [.comment]) := by
    rw [wireBytes, wireBytes, bytesOf, bytesOf, List.flatMap_append, List.map_append,
      Framing.joinLines_append]
    exact List.prefix_append _ _
  refine ⟨h.heard, h.received, h.got.trans hMore, fun i hi => ?_, h.conn_eq, h.isOpen, ?_,
    h.follows⟩
  · rcases List.mem_append.mp hi with hi | hi
    · exact h.items i hi
    · rw [List.mem_singleton.mp hi]
      exact ⟨trivial, trivial⟩
  · rw [List.filterMap_append, h.sent]
    exact List.append_nil _

theorem Linked.receive (h : Linked c w l told before cursor conn) {piece : List UInt8}
    (hGot : l.got ++ piece <+: wireBytes l.items) :
    Linked c { w with reading := w.reading.chunk decodeData piece }
      { l with got := l.got ++ piece } told before cursor conn :=
  ⟨h.heard, h.received.chunk piece, hGot, h.items, h.conn_eq, h.isOpen, h.sent, h.follows⟩

/-- Only what is known of the link counts for a watch with that link. -/
theorem Linked.of_eq {w' : Watch} (h : Linked c w l told before cursor conn)
    (hServer : w'.server = w.server) (hReading : w'.reading = w.reading) :
    Linked c w' l told before cursor conn := by
  obtain ⟨hHeard, hReceived, hGot, hItems, hConn, hOpen, hSent, hFollows⟩ := h
  rw [← hServer] at hHeard hConn hFollows
  rw [← hReading] at hReceived
  exact ⟨hHeard, hReceived, hGot, hItems, hConn, hOpen, hSent, hFollows⟩

/-- A step that ends with the link up. -/
theorem inv_up (hServer : Sse.Inv w.server) (hFirst : c.getD 0 ≤ w.server.log.length)
    (hLink : w.link = some l) (hLinked : Linked c w l told before cursor conn) : Inv c w where
  server := hServer
  first_le := hFirst
  down hNone := by
    rw [hLink] at hNone
    cases hNone
  up l' hl' := by
    obtain rfl : l = l' := Option.some.inj (hLink.symm.trans hl')
    exact ⟨told, before, cursor, conn, hLinked⟩

theorem Inv.step (h : Inv c w) {act : Act} (hCalm : w.Calm act) {w' : Watch}
    (hStep : w.step act = some w') : Inv c w' := by
  cases act with
  | server op =>
    rw [Watch.step] at hStep
    split at hStep
    · cases hStep
    · rename_i hOther
      cases hStep
      obtain ⟨more, hLog⟩ := Sse.log_step w.server op
      have hFirst : c.getD 0 ≤ (w.server.step op).log.length := by
        rw [hLog, List.length_append]
        exact h.first_le.trans (Nat.le_add_right _ _)
      cases hLink : w.link with
      | none =>
        obtain ⟨told, hHeard⟩ := h.down hLink
        refine ⟨h.server.step op, hFirst, fun _ => ⟨told, ?_⟩, fun l hl => by cases hl⟩
        have hMore := hHeard.mono h.first_le more
        rwa [← hLog] at hMore
      | some l =>
        obtain ⟨told, before, cursor, conn, hLinked⟩ := h.up l hLink
        have hElse : opOn l.conn op = false := by simpa [hLink] using hOther
        exact inv_up (h.server.step op) hFirst rfl ((hLinked.server h hElse).of_eq rfl rfl)
  | connect =>
    rw [Watch.step] at hStep
    split at hStep
    · cases hStep
    · rename_i hLink
      cases hStep
      obtain ⟨told, conn, hLinked⟩ := linked_connect h hLink hCalm
      exact inv_up (h.server.subscribe _) h.first_le rfl (hLinked.of_eq rfl rfl)
  | send wms at_ =>
    obtain ⟨l, hLink, rfl⟩ := Option.map_eq_some_iff.mp hStep
    obtain ⟨told, before, cursor, conn, hLinked⟩ := h.up l hLink
    obtain ⟨hAbreast, hRange⟩ := hCalm l hLink conn hLinked.conn_eq
    exact inv_up (h.server.next l.conn wms) h.first_le rfl
      ((hLinked.send h.server hAbreast hRange).of_eq rfl rfl)
  | ping =>
    obtain ⟨l, hLink, rfl⟩ := Option.map_eq_some_iff.mp hStep
    obtain ⟨told, before, cursor, conn, hLinked⟩ := h.up l hLink
    exact inv_up h.server h.first_le rfl (hLinked.ping.of_eq rfl rfl)
  | receive piece =>
    obtain ⟨l, hLink, hReceive⟩ := Option.bind_eq_some_iff.mp hStep
    split at hReceive
    · rename_i hGot
      cases hReceive
      obtain ⟨told, before, cursor, conn, hLinked⟩ := h.up l hLink
      exact inv_up h.server h.first_le rfl ((hLinked.receive hGot).of_eq rfl rfl)
    · cases hReceive
  | cut =>
    obtain ⟨l, -, rfl⟩ := Option.map_eq_some_iff.mp hStep
    exact ⟨h.server, h.first_le, fun _ => h.heard, fun l' hl' => by cases hl'⟩

end

/-- From any state of the server, over every run of the client in which the server loses nothing
that the client needs. -/
theorem watch_delivers {capacity : Nat} (hCapacity : 0 < capacity) (ops : List Sse.Op)
    (c : Option Nat) (hFirst : c.getD 0 ≤ ((Server.new capacity hCapacity).run ops).log.length)
    (w : Watch) (hRun : Runs.Run Watch.step Watch.Calm
      (.start ((Server.new capacity hCapacity).run ops) c) w) : Exact c w := by
  have hServer := (Sse.inv_new capacity hCapacity).run ops
  have hInv : Inv c w := hRun.invariant (inv_start hServer hFirst)
    fun w act w' hw hCalm hStep => hw.step hCalm hStep
  exact hInv.exact

/-- One event was published before the client begins. -/
def greeted : Server := (Server.new 4 (by decide)).run [.publish (.revoke greeting)]

theorem keeps_greeted : greeted.Keeps 0 := by
  rintro a ha -
  obtain rfl := List.mem_singleton.mp ha
  exact ⟨⟨1, 0, .revoke greeting⟩, List.mem_singleton.mpr rfl, rfl, by decide⟩

/-! ## A run with a cut -/

def farewell : RevokeEvent := { greeting with content := "d", rawid := "2", timestamp := 2 }

theorem inRange_baseline : (Item.frame (.baseline []) {}).InRange := by
  refine ⟨fun n hn => (by cases hn), fun ev hev => ?_⟩
  obtain rfl := Option.some.inj hev
  exact ⟨by decide, fun e he => (by cases he)⟩

section

variable {w : Watch} {s : Server} {r : Reading} {l : Link} {conn : Conn} {f : Frame}

/-- The server sends one frame. -/
theorem run_send (hRun : Runs.Run Watch.step Watch.Calm w ⟨s, r, some l⟩)
    (hConn : s.conns[l.conn]? = some conn) (hAbreast : conn.Abreast s.bus.tx)
    (hFrame : (sentOn (s.next l.conn []) l.conn).drop (sentOn s l.conn).length = [f])
    (hRange : (Item.frame f {}).InRange) : Runs.Run Watch.step Watch.Calm w
      ⟨s.next l.conn [], r, some { l with items := l.items ++ [.frame f {}] }⟩ := by
  refine hRun.tail (.send [] {}) (fun l' hl' conn' hConn' => ?_) ?_
  · obtain rfl : l = l' := Option.some.inj hl'
    obtain rfl : conn = conn' := Option.some.inj (hConn.symm.trans hConn')
    refine ⟨hAbreast, fun g hg => ?_⟩
    simp only [hFrame, List.mem_singleton] at hg
    rw [hg]
    exact hRange
  · simp only [Watch.step, Option.map_some, hFrame]
    rfl

/-- The client receives some of the bytes. -/
theorem run_receive (hRun : Runs.Run Watch.step Watch.Calm w ⟨s, r, some l⟩) {piece : List UInt8}
    (hGot : l.got ++ piece <+: wireBytes l.items) : Runs.Run Watch.step Watch.Calm w
      ⟨s, r.chunk decodeData piece, some { l with got := l.got ++ piece }⟩ :=
  hRun.tail (.receive piece) trivial (if_pos hGot)

/-- The connection is cut, and the client connects again with its cursor. -/
theorem run_reconnect (hRun : Runs.Run Watch.step Watch.Calm w ⟨s, r, some l⟩) {n : Nat}
    (hCursor : r.sse.lastEventId = some n) (hKeeps : s.Keeps n) :
    Runs.Run Watch.step Watch.Calm w
      ⟨s.subscribe n, r.connect, some { conn := s.conns.length }⟩ := by
  have hSince : r.sse.lastEventId.getD 0 = n := by rw [hCursor, Option.getD_some]
  refine (hRun.tail Act.cut trivial rfl).tail .connect ?_ ?_
  · simp only [Watch.Calm, hSince]
    exact hKeeps
  · simp only [Watch.step, hSince]

end

/-- The first connection, with what is written to it. -/
def firstLink : Link where
  conn := 0
  items := [.frame .ready {}, .frame (.replay 1 (.revoke greeting)) {}, .frame (.baseline []) {},
    .frame (.live 2 (.revoke farewell)) {}]

/-- An event is published while the connection is up. -/
def firstServer : Server :=
  (((((greeted.subscribe 0).next 0 []).next 0 []).publish (.revoke farewell)).next 0 []).next 0 []

theorem run_first : Runs.Run Watch.step Watch.Calm (.start greeted none)
    ⟨firstServer, (Reading.at none).connect, some firstLink⟩ := by
  have hConnect : Runs.Run Watch.step Watch.Calm (.start greeted none)
      ⟨greeted.subscribe 0, (Reading.at none).connect, some { conn := 0 }⟩ :=
    .tail .connect .refl keeps_greeted rfl
  have hReady := run_send hConnect rfl (fun hPc => by cases hPc) rfl inRange_ready
  have hReplay := run_send hReady rfl (fun hPc => by cases hPc) rfl
    (inRange_revoke (by decide) (by decide)).1
  have hPublish := hReplay.tail (Act.server (.publish (.revoke farewell))) trivial rfl
  have hBaseline := run_send hPublish rfl (fun hPc => by cases hPc) rfl inRange_baseline
  exact run_send hBaseline rfl (fun _ => by decide) rfl (inRange_revoke (by decide) (by decide)).2

/-- What the client receives of the first connection: it ends inside the data of the last frame. -/
def firstPieces : List UInt8 × List UInt8 :=
  ((wireBytes firstLink.items).take 100, ((wireBytes firstLink.items).drop 100).take 300)

def cutReading : Reading :=
  (((Reading.at none).connect.chunk decodeData firstPieces.1).chunk decodeData firstPieces.2)

/-- The second connection, with the event that was not received. -/
def secondLink : Link where
  conn := 1
  items := [.frame .ready {}, .frame (.replay 2 (.revoke farewell)) {}]

def secondServer : Server := ((firstServer.subscribe 1).next 1 []).next 1 []

def resumed : Watch where
  server := secondServer
  reading := cutReading.connect.chunk decodeData (wireBytes secondLink.items)
  link := some { secondLink with got := wireBytes secondLink.items }

theorem keeps_firstServer : firstServer.Keeps 1 := by
  intro a ha hId
  have hLog : firstServer.log = [⟨1, .revoke greeting⟩, ⟨2, .revoke farewell⟩] := rfl
  rw [hLog, List.mem_cons, List.mem_singleton] at ha
  rcases ha with rfl | rfl
  · exact absurd hId (by decide)
  · exact ⟨⟨2, 0, .revoke farewell⟩, by decide, rfl, by decide⟩

theorem read_resumed : cutReading.sse.lastEventId = some 1 ∧
    (identified cutReading.handed).map Prod.fst = [some 1] ∧
    (identified resumed.reading.handed).map Prod.fst = [some 1, some 2] ∧
    resumed.reading.sse.lastEventId = some 2 := by decide +kernel

theorem run_resumed : Runs.Run Watch.step Watch.Calm (.start greeted none) resumed := by
  have hFirst : Runs.Run Watch.step Watch.Calm (.start greeted none) ⟨firstServer,
      (Reading.at none).connect.chunk decodeData firstPieces.1,
      some { firstLink with got := [] ++ firstPieces.1 }⟩ :=
    run_receive run_first (List.take_prefix _ _)
  have hSecond : Runs.Run Watch.step Watch.Calm (.start greeted none) ⟨firstServer, cutReading,
      some { firstLink with got := [] ++ firstPieces.1 ++ firstPieces.2 }⟩ := by
    refine run_receive hFirst ?_
    change [] ++ firstPieces.1 ++ firstPieces.2 <+: wireBytes firstLink.items
    rw [List.nil_append, firstPieces, ← List.take_add]
    exact List.take_prefix _ _
  have hConnect := run_reconnect hSecond read_resumed.1 keeps_firstServer
  have hReady := run_send hConnect rfl (fun hPc => by cases hPc) rfl inRange_ready
  have hReplay := run_send hReady rfl (fun hPc => by cases hPc) rfl
    (inRange_revoke (by decide) (by decide)).1
  exact run_receive hReplay (List.prefix_refl _)

/-- The first connection is cut in the data of the second event, and the client resumes behind the
first: both events are handed over, each once. -/
theorem watch_delivers_resumed :
    (identified cutReading.handed).map Prod.fst = [some 1] ∧
      (identified resumed.reading.handed).map Prod.fst = [some 1, some 2] ∧
      resumed.reading.sse.lastEventId = some 2 ∧ Exact none resumed :=
  ⟨read_resumed.2.1, read_resumed.2.2.1, read_resumed.2.2.2,
    watch_delivers (by decide) [.publish (.revoke greeting)] none (by decide) _ run_resumed⟩

end Weflow.Client
