import Weflow.Store.Index

/-!
# The section loaders

Sessions, contacts, chatroom owners, rosters, group cards and the moments timeline: the loaders
of `store/index.rs` and `store/group_meta.rs`. Every loader writes into the store it is given;
none of them removes an entry that its database no longer has.
-/

namespace Weflow

/-- `get_opt_str`: trimmed. -/
def optStr (s : Option String) : Option String := s.map trim

/-- Keep a value only if its column group is there. -/
def ifCol {β : Type} (cols group : List String) (value none : β) : β :=
  if (pick cols group).isSome then value else none

/-! ## Sessions -/

/-- The table `load_sessions` reads. -/
def sessionTable (db : Db) : Option String :=
  if tableColumns db "SessionTable" = [] then
    let candidates := tableNames db 50
    (candidates.find? fun t => eqIgnoreAsciiCase t "SessionTable") <|>
      (candidates.find? fun t => eqIgnoreAsciiCase t "Session") <|>
      candidates.find? fun t => eqIgnoreAsciiCase t "session_table"
  else some "SessionTable"

/-- One session row, `none` if it has no username. -/
def sessionOfRow (cols : List String) (row : SessionRow) : Option Session :=
  let username := (optStr row.username).getD ""
  if username = "" then none
  else
    let typeRaw := ifCol cols (sessionColumns.getD 7 []) row.typeRaw 0
    some
      { username
        displayName := ifCol cols (sessionColumns.getD 1 []) ((optStr row.displayName).getD "") ""
        kind :=
          if typeRaw = 2 then .group else if typeRaw = 3 then .official
          else SessionKind.classify username
        lastTimestamp := ifCol cols (sessionColumns.getD 3 []) row.lastTimestamp 0
        lastMsgType := ifCol cols (sessionColumns.getD 5 []) (some row.lastMsgType) none
        summary := ifCol cols (sessionColumns.getD 4 []) (optStr row.summary) none
        unreadCount := ifCol cols (sessionColumns.getD 6 []) row.unreadCount 0
        messageCount := 0 }

/-- The sessions listed in a database, none if there is no usable table. -/
def listedSessions (db : Db) : List Session :=
  match sessionTable db with
  | none => []
  | some t =>
    let cols := tableColumns db t
    if (pick cols (sessionColumns.getD 0 [])).isSome then
      match (db.table? t).map Table.body with
      | some (.sessions rows) => rows.filterMap (sessionOfRow cols)
      | _ => []
    else []

/-- `load_sessions`. -/
def loadSessions (db : Db) (s : Store) : Store :=
  { s with sessions := (listedSessions db).foldl (fun m x => m.insert x.username x) s.sessions }

/-! ## Contacts -/

def nonEmpty (s : Option String) : Option String := s.filter (· ≠ "")

def contactOfRow (cols : List String) (row : ContactRow) : Option Contact :=
  let username := (optStr row.username).getD ""
  if username = "" then none
  else
    let typeRaw := ifCol cols (contactColumns.getD 5 []) row.typeRaw 0
    some
      { username
        remark := ifCol cols (contactColumns.getD 1 []) (nonEmpty (optStr row.remark)) none
        nickname := ifCol cols (contactColumns.getD 2 []) (nonEmpty (optStr row.nickname)) none
        aliasName := ifCol cols (contactColumns.getD 3 []) (nonEmpty (optStr row.aliasName)) none
        avatarUrl := ifCol cols (contactColumns.getD 4 []) (nonEmpty (optStr row.avatarUrl)) none
        kind :=
          if typeRaw = 1 then .privateChat else if typeRaw = 2 then .group
          else if typeRaw = 3 then .official else SessionKind.classify username }

def listedContacts (db : Db) : List Contact :=
  let cols := tableColumns db "contact"
  if (pick cols (contactColumns.getD 0 [])).isSome then
    match (db.table? "contact").map Table.body with
    | some (.contacts rows) => rows.filterMap (contactOfRow cols)
    | _ => []
  else []

/-- `load_contacts`. -/
def loadContacts (db : Db) (s : Store) : Store :=
  { s with contacts := (listedContacts db).foldl (fun m c => m.insert c.username c) s.contacts }

/-! ## Chatroom owners and rosters -/

/-- The columns a fixed query names are there. -/
def hasColumns (t : Table) (names : List String) : Bool :=
  names.all fun n => t.columns.any fun c => eqIgnoreAsciiCase c n

/-- The pairs `(room, owner)` of `chat_room`. -/
def listedOwners (db : Db) : List (String × String) :=
  match db.table? "chat_room" with
  | some t =>
    if hasColumns t ["username", "owner"] then
      match t.body with
      | .chatRoom rows => rows.filterMap fun r =>
        match nonEmpty r.1, nonEmpty r.2 with
        | some room, some owner => some (room, owner)
        | _, _ => none
      | _ => []
    else []
  | none => []

/-- The pairs `(room, member)` of `chatroom_member`, resolved by the database's own uid map. -/
def listedMembers (db : Db) : List (String × String) :=
  match db.table? "chatroom_member" with
  | some t =>
    if hasColumns t ["room_id", "member_id"] then
      match t.body with
      | .chatroomMember rows => rows.filterMap fun r =>
        match (uidMap db).lookup r.1, (uidMap db).lookup r.2 with
        | some room, some member => some (room, member)
        | _, _ => none
      | _ => []
    else []
  | none => []

/-- `roster.push` unless it is there. -/
def addMember (m : Map (List String)) (p : String × String) : Map (List String) :=
  let roster := (m.lookup p.1).getD []
  m.insert p.1 (if p.2 ∈ roster then roster else roster ++ [p.2])

/-- `load_chatroom_meta`; without a uid map the store stays as it is. -/
def loadChatroomMeta (db : Db) (s : Store) : Store :=
  if (uidMap db).entries = [] then s
  else
    { s with
      chatroomOwner := (listedOwners db).foldl (fun m p => m.insert p.1 p.2) s.chatroomOwner
      chatroomRoster := (listedMembers db).foldl addMember s.chatroomRoster }

/-! ## Group cards -/

/-- The triples `(room, member, card)` of the joined shadow tables. -/
def listedCards (db : Db) : List (String × String × String) :=
  match (db.table? "chatroom_member_fts_v3_aux").map Table.body with
  | some (.groupCards rows) => rows.filterMap fun r =>
    match nonEmpty r.2.2, (uidMap db).lookup r.1, (uidMap db).lookup r.2.1 with
    | some card, some room, some member => some (room, member, card)
    | _, _, _ => none
  | _ => []

def addCard (m : GroupCards) (p : String × String × String) : GroupCards :=
  m.insert p.1 (((m.lookup p.1).getD ∅).insert p.2.1 p.2.2)

/-- `load_group_cards`: the cards are replaced, but only by a map that is not empty. -/
def loadGroupCards (db : Db) (s : Store) : Store :=
  if (uidMap db).entries = [] then s
  else
    let cards := (listedCards db).foldl addCard (∅ : GroupCards)
    if cards.entries = [] then s else { s with groupCards := cards }

/-! ## Moments -/

/-- Newest first, then the larger feed id. -/
def snsBefore (a b : SnsFeed) : Prop :=
  b.createTime < a.createTime ∨ a.createTime = b.createTime ∧ b.feedId ≤ a.feedId

instance : DecidableRel snsBefore := fun _ _ => inferInstanceAs (Decidable (_ ∨ _))

/-- `load_sns`. -/
def loadSns (x : Codec) (db : Db) (s : Store) : Store :=
  match db.table? "SnsTimeLine" with
  | some t =>
    if hasColumns t ["tid", "user_name", "content"] then
      match t.body with
      | .snsTimeLine rows =>
        { s with snsFeeds := (rows.map fun r =>
            x.parseSnsFeed r.2.1 (toString r.1) r.2.2).insertionSort snsBefore }
      | _ => { s with snsFeeds := [] }
    else s
  | none => s

/-! ## What a loader leaves alone -/

section

variable (db : Db) (s : Store)

@[simp] theorem convs_loadSessions : (loadSessions db s).convs = s.convs := rfl

@[simp] theorem watermarks_loadSessions : (loadSessions db s).watermarks = s.watermarks := rfl

@[simp] theorem convs_loadContacts : (loadContacts db s).convs = s.convs := rfl

@[simp] theorem watermarks_loadContacts : (loadContacts db s).watermarks = s.watermarks := rfl

@[simp] theorem sessions_loadContacts : (loadContacts db s).sessions = s.sessions := rfl

theorem loadChatroomMeta_frame : (loadChatroomMeta db s).convs = s.convs ∧
    (loadChatroomMeta db s).watermarks = s.watermarks ∧
    (loadChatroomMeta db s).sessions = s.sessions ∧
    (loadChatroomMeta db s).contacts = s.contacts ∧
    (loadChatroomMeta db s).groupCards = s.groupCards := by
  unfold loadChatroomMeta
  split <;> exact ⟨rfl, rfl, rfl, rfl, rfl⟩

theorem loadGroupCards_frame : (loadGroupCards db s).convs = s.convs ∧
    (loadGroupCards db s).watermarks = s.watermarks ∧
    (loadGroupCards db s).sessions = s.sessions ∧
    (loadGroupCards db s).contacts = s.contacts ∧
    (loadGroupCards db s).chatroomOwner = s.chatroomOwner ∧
    (loadGroupCards db s).chatroomRoster = s.chatroomRoster := by
  unfold loadGroupCards
  split
  · exact ⟨rfl, rfl, rfl, rfl, rfl, rfl⟩
  · dsimp only
    split <;> exact ⟨rfl, rfl, rfl, rfl, rfl, rfl⟩

theorem loadSns_frame (x : Codec) : (loadSns x db s).convs = s.convs ∧
    (loadSns x db s).watermarks = s.watermarks ∧ (loadSns x db s).sessions = s.sessions := by
  unfold loadSns
  repeat' split
  all_goals exact ⟨rfl, rfl, rfl⟩

end

end Weflow
