import Weflow.Server.Chatlab
import Weflow.Store.Rebuilt

/-!
# Group members

The handler of `server/handlers/group_members.rs`. The members of a group are its roster and its
speakers; both come out of hash maps, whose order is a parameter (`HashOrder`). What makes the
answer a set without repetitions is that the loader of `contact.db` pushes nobody twice
(`Loaded.rosters`), and what makes it a list that every request repeats is the sort.
-/

namespace Weflow.Members

open Keyset (sortBy)
open Pull (ApiError)
open Chatlab (groupCard)

structure GroupMember where
  aliasName : String
  avatarUrl : String
  displayName : String
  groupNickname : String
  isFriend : Bool
  isOwner : Bool
  messageCount : Nat
  nickname : String
  remark : String
  wxid : String
  deriving DecidableEq

structure GroupMembers where
  chatroomId : String
  count : Nat
  fromCache : Bool
  members : List GroupMember
  success : Bool
  updatedAt : Int
  deriving DecidableEq

/-- An order in which a hash map lists its keys. -/
structure HashOrder where
  keys : Map Nat → List String
  perm : ∀ m, (keys m).Perm m.keys

/-- The order of insertion, backwards. -/
def HashOrder.reversed : HashOrder := ⟨fun m => m.keys.reverse, fun m => m.keys.reverse_perm⟩

/-- `Store::sender_display` -/
def senderDisplay (s : Store) (chatroom : Option String) (sender fallback : String) : String :=
  if groupCard s chatroom sender ≠ "" then groupCard s chatroom sender
  else
    match (s.contacts.lookup sender).map Contact.displayName with
    | some name => if name ≠ sender then name else fallback
    | none => fallback

/-- `counts.entry(sender).or_insert(0) += 1`, for a sender with a name. -/
def countSender (counts : Map Nat) (m : MessageRecord) : Map Nat :=
  if m.senderUsername ≠ "" then
    counts.insert m.senderUsername ((counts.lookup m.senderUsername).getD 0 + 1)
  else counts

def senderCounts (rows : List MessageRecord) : Map Nat := rows.foldl countSender ∅

/-- The speakers, then the others of the roster. -/
def memberIds (order : HashOrder) (counts : Map Nat) (roster : List String) : List String :=
  order.keys counts ++ roster.filter fun id => id ≠ "" && (counts.lookup id).isNone

def member (s : Store) (chatroom : String) (withCounts : Bool) (counts : Map Nat)
    (wxid : String) : GroupMember :=
  let c := s.contacts.lookup wxid
  { aliasName := (c.bind (·.aliasName)).getD ""
    avatarUrl := (c.bind (·.avatarUrl)).getD ""
    displayName := senderDisplay s (some chatroom) wxid wxid
    groupNickname := groupCard s (some chatroom) wxid
    isFriend := (c.map (·.kind == .privateChat)).getD false
    isOwner := s.chatroomOwner.lookup chatroom == some wxid
    messageCount := if withCounts then (counts.lookup wxid).getD 0 else 0
    nickname := (c.bind (·.nickname)).getD ""
    remark := (c.bind (·.remark)).getD ""
    wxid }

/-- The largest count first, then by id. -/
def rank (g : GroupMember) : Natᵒᵈ ×ₗ String := toLex (OrderDual.toDual g.messageCount, g.wxid)

def roster (s : Store) (chatroom : String) : List String :=
  (s.chatroomRoster.lookup chatroom).getD []

/-- The members of the answer, before the sort. -/
def listed (order : HashOrder) (s : Store) (chatroom : String) (withCounts : Bool) :
    List GroupMember :=
  let counts := senderCounts (s.conv chatroom)
  (memberIds order counts (roster s chatroom)).map (member s chatroom withCounts counts)

/-- The group of a request. -/
def requested (params : Map String) : Option String :=
  ((params.lookup "chatroomId").or (params.lookup "talker")).filter (· ≠ "")

def handler (order : HashOrder) (s : Store) (params : Map String) :
    Except ApiError GroupMembers :=
  match requested params with
  | none => .error ⟨400, "chatroomId (or talker) is required"⟩
  | some chatroom =>
    if s.conversationKnown chatroom = false then
      .error ⟨404, "chatroom '" ++ chatroom ++ "' not found"⟩
    else
      let members := sortBy rank
        (listed order s chatroom (flexBool params "includeMessageCounts"))
      .ok
        { chatroomId := chatroom
          count := members.length
          fromCache := false
          members
          success := true
          updatedAt := s.indexBuiltAtMs }

/-! ## The roster -/

/-- The stores that loads of `contact.db` and anything that leaves the rosters alone lead to. -/
inductive Loaded : Store → Prop
  | fresh : Loaded {}
  | contact {s : Store} (db : Db) : Loaded s → Loaded (loadChatroomMeta db s)
  | other {s s' : Store} : Loaded s → s'.chatroomRoster = s.chatroomRoster → Loaded s'

theorem nodup_insertNew {l : List String} {a : String} (h : l.Nodup) :
    (Overlay.insertNew l a).Nodup := by
  rw [Overlay.insertNew]
  split_ifs with hMem
  · exact h
  · refine List.nodup_append.mpr ⟨h, List.nodup_singleton a, ?_⟩
    rintro b hb c hc rfl
    exact hMem (List.mem_singleton.mp hc ▸ hb)

theorem nodup_union {l : List String} (ms : List String) (h : l.Nodup) :
    (Overlay.union l ms).Nodup := by
  induction ms using List.reverseRecOn with
  | nil => exact h
  | append_singleton ms a ih =>
    rw [Overlay.union_concat]
    exact nodup_insertNew ih

/-- Nobody is twice in a roster, however often it is loaded. -/
theorem Loaded.rosters {s : Store} (h : Loaded s) (chatroom : String) :
    (roster s chatroom).Nodup := by
  induction h with
  | fresh => exact List.nodup_nil
  | contact db _ ih =>
    rw [roster, lookup_roster_loadChatroomMeta]
    split_ifs
    · exact ih
    · exact nodup_union _ ih
  | other _ hSame ih =>
    rw [roster, hSame]
    exact ih

/-- The store of a build is one of them. -/
theorem loaded_rebuilt (c : Contents) (convs : Map (List MessageRecord)) :
    Loaded (rebuilt c convs) :=
  .other (.contact c.contact .fresh) (rebuilt_frame c convs).2.2.1

/-- So is every reload of the sections. -/
theorem loaded_loaded {s : Store} (c : Contents) (h : Loaded s) : Loaded (loaded c s) :=
  .other (.contact c.contact h) (loaded_frame c s).2.2.2.1

/-! ## The counts -/

/-- The rows of a sender. -/
def rowsOf (rows : List MessageRecord) (wxid : String) : Nat :=
  rows.countP fun m => m.senderUsername = wxid

theorem lookup_foldl_countSender {wxid : String} (hName : wxid ≠ "") (rows : List MessageRecord)
    (counts : Map Nat) : (rows.foldl countSender counts).lookup wxid =
      if rowsOf rows wxid = 0 then counts.lookup wxid
      else some ((counts.lookup wxid).getD 0 + rowsOf rows wxid) := by
  induction rows generalizing counts with
  | nil => rfl
  | cons m rows ih =>
    rw [List.foldl_cons, ih]
    by_cases hSender : m.senderUsername = wxid
    · have hOne : (countSender counts m).lookup wxid =
          some ((counts.lookup wxid).getD 0 + 1) := by
        rw [countSender, hSender, if_pos hName, AList.lookup_insert]
      have hRows : rowsOf (m :: rows) wxid = rowsOf rows wxid + 1 :=
        List.countP_cons_of_pos (by simpa using hSender)
      rw [hOne, hRows, if_neg (Nat.succ_ne_zero _), Option.getD_some]
      split_ifs with hNone
      · rw [hNone]
      · congr 1
        omega
    · have hSkip : (countSender counts m).lookup wxid = counts.lookup wxid := by
        rw [countSender]
        split_ifs
        · exact AList.lookup_insert_ne fun h => hSender h.symm
        · rfl
      have hRows : rowsOf (m :: rows) wxid = rowsOf rows wxid :=
        List.countP_cons_of_neg (by simpa using hSender)
      rw [hSkip, hRows]

theorem lookup_senderCounts {wxid : String} (hName : wxid ≠ "") (rows : List MessageRecord) :
    (senderCounts rows).lookup wxid =
      if rowsOf rows wxid = 0 then none else some (rowsOf rows wxid) := by
  rw [senderCounts, lookup_foldl_countSender hName, AList.lookup_empty, Option.getD_none,
    Nat.zero_add]

theorem nameless_foldl (rows : List MessageRecord) (counts : Map Nat) :
    (rows.foldl countSender counts).lookup "" = counts.lookup "" := by
  induction rows generalizing counts with
  | nil => rfl
  | cons m rows ih =>
    rw [List.foldl_cons, ih, countSender]
    split_ifs with hName
    · exact AList.lookup_insert_ne fun h => hName h.symm
    · rfl

/-- The keys of the counts are the speakers. -/
theorem mem_senderCounts {wxid : String} {rows : List MessageRecord} :
    wxid ∈ senderCounts rows ↔ wxid ≠ "" ∧ ∃ m ∈ rows, m.senderUsername = wxid := by
  rw [← AList.lookup_isSome]
  by_cases hName : wxid = ""
  · subst hName
    rw [senderCounts, nameless_foldl, AList.lookup_empty]
    simp
  · rw [lookup_senderCounts hName]
    have hRows : rowsOf rows wxid = 0 ↔ ¬ ∃ m ∈ rows, m.senderUsername = wxid := by
      simp [rowsOf, List.countP_eq_zero]
    split_ifs with hNone
    · simp only [Option.isSome_none, Bool.false_eq_true, false_iff, not_and]
      exact fun _ => hRows.mp hNone
    · simp only [Option.isSome_some, true_iff]
      exact ⟨hName, not_not.mp fun h => hNone (hRows.mpr h)⟩

/-! ## The list -/

section

variable (order : HashOrder) (s : Store) (chatroom : String) (withCounts : Bool)

/-- The ids of a group: its roster and its speakers, without the empty one. -/
def IsMember (id : String) : Prop :=
  id ≠ "" ∧ (id ∈ roster s chatroom ∨ ∃ m ∈ s.conv chatroom, m.senderUsername = id)

theorem mem_memberIds {id : String} :
    id ∈ memberIds order (senderCounts (s.conv chatroom)) (roster s chatroom) ↔
      IsMember s chatroom id := by
  have hKeys : id ∈ order.keys (senderCounts (s.conv chatroom)) ↔
      id ∈ senderCounts (s.conv chatroom) := (order.perm _).mem_iff
  rw [memberIds, List.mem_append, hKeys, List.mem_filter, IsMember]
  simp only [ne_eq, Bool.and_eq_true, decide_eq_true_eq, Option.isNone_iff_eq_none,
    AList.lookup_eq_none]
  rw [mem_senderCounts]
  generalize (∃ m ∈ s.conv chatroom, m.senderUsername = id) = speaks
  by_cases hName : id = ""
  · simp [hName]
  · by_cases hSpeaks : speaks <;> simp [hName, hSpeaks]

theorem nodup_memberIds (h : (roster s chatroom).Nodup) :
    (memberIds order (senderCounts (s.conv chatroom)) (roster s chatroom)).Nodup := by
  refine List.nodup_append.mpr ⟨?_, h.filter _, ?_⟩
  · exact (order.perm _).nodup_iff.mpr (AList.keys_nodup _)
  · rintro id hSpeaker other hOther rfl
    have hCounted : id ∈ senderCounts (s.conv chatroom) := (order.perm _).subset hSpeaker
    simp only [List.mem_filter, Bool.and_eq_true, Option.isNone_iff_eq_none,
      AList.lookup_eq_none] at hOther
    exact hOther.2.2 hCounted

theorem map_wxid_listed : (listed order s chatroom withCounts).map GroupMember.wxid =
    memberIds order (senderCounts (s.conv chatroom)) (roster s chatroom) := by
  rw [listed, List.map_map]
  exact List.map_id _

theorem memberIds_perm (other : HashOrder) (counts : Map Nat) (ids : List String) :
    (memberIds order counts ids).Perm (memberIds other counts ids) :=
  ((order.perm counts).trans (other.perm counts).symm).append_right _

end

/-- Members with different ids have one sorted list. -/
theorem sortBy_rank_unique {l l' : List GroupMember} (hPerm : l.Perm l')
    (hIds : (l.map GroupMember.wxid).Nodup) : sortBy rank l = sortBy rank l' := by
  have hSorted : (sortBy rank l).Perm (sortBy rank l') :=
    (Keyset.perm_sortBy rank l).trans (hPerm.trans (Keyset.perm_sortBy rank l').symm)
  refine hSorted.eq_of_pairwise ?_ (Keyset.pairwise_sortBy rank l) (Keyset.pairwise_sortBy rank l')
  intro a b ha hb hab hba
  have hKey : rank a = rank b := le_antisymm hab hba
  have hWxid : a.wxid = b.wxid := congrArg (fun k => (ofLex k).2) hKey
  have hA : a ∈ l := Keyset.mem_sortBy.mp ha
  have hB : b ∈ l := hPerm.mem_iff.mpr (Keyset.mem_sortBy.mp hb)
  exact List.inj_on_of_nodup_map hIds hA hB hWxid

/-- The members of an answer: the set that the store says, once each, with their rows where
counts are asked for, and in the order of the ranks alone. -/
structure Lists (s : Store) (chatroom : String) (withCounts : Bool)
    (members : List GroupMember) : Prop where
  nodup : (members.map GroupMember.wxid).Nodup
  ids : ∀ id, id ∈ members.map GroupMember.wxid ↔ IsMember s chatroom id
  counts : withCounts = true → ∀ g ∈ members, g.messageCount = rowsOf (s.conv chatroom) g.wxid
  order : ∀ l : List GroupMember, l.Perm members → sortBy rank l = members

theorem lists_listed (order : HashOrder) {s : Store} {chatroom : String} (withCounts : Bool)
    (h : (roster s chatroom).Nodup) :
    Lists s chatroom withCounts (sortBy rank (listed order s chatroom withCounts)) := by
  have hPerm := Keyset.perm_sortBy rank (listed order s chatroom withCounts)
  have hIds : ((listed order s chatroom withCounts).map GroupMember.wxid).Nodup := by
    rw [map_wxid_listed]
    exact nodup_memberIds order s chatroom h
  have hNodup := (hPerm.map GroupMember.wxid).nodup_iff.mpr hIds
  refine ⟨hNodup, fun id => ?_, ?_, fun l hl => ?_⟩
  · rw [(hPerm.map GroupMember.wxid).mem_iff, map_wxid_listed]
    exact mem_memberIds order s chatroom
  · rintro rfl g hg
    rw [Keyset.mem_sortBy, listed, List.mem_map] at hg
    obtain ⟨wxid, hWxid, rfl⟩ := hg
    have hName := ((mem_memberIds order s chatroom).mp hWxid).1
    simp only [member, if_true, lookup_senderCounts hName]
    split_ifs with hNone
    · exact hNone.symm
    · rfl
  · have hIdsL : (l.map GroupMember.wxid).Nodup := (hl.map GroupMember.wxid).nodup_iff.mpr hNodup
    rw [sortBy_rank_unique (hl.trans hPerm) hIdsL]

/-- For a group the store knows, the answer lists its roster and its speakers, and every order of
the hash maps gives the same answer. -/
theorem members_listed (s : Store) (hLoaded : Loaded s) (params : Map String) (chatroom : String)
    (hRequest : requested params = some chatroom)
    (hKnown : s.conversationKnown chatroom = true) (order : HashOrder) :
    ∃ answer, handler order s params = .ok answer ∧ answer.chatroomId = chatroom ∧
      answer.count = answer.members.length ∧
      Lists s chatroom (flexBool params "includeMessageCounts") answer.members ∧
      ∀ other, handler other s params = .ok answer := by
  have hRoster := hLoaded.rosters chatroom
  have hSame : ∀ other, sortBy rank (listed other s chatroom
        (flexBool params "includeMessageCounts")) =
      sortBy rank (listed order s chatroom (flexBool params "includeMessageCounts")) := by
    intro other
    refine sortBy_rank_unique ?_ ?_
    · exact (memberIds_perm other order _ _).map _
    · rw [map_wxid_listed]
      exact nodup_memberIds other s chatroom hRoster
  have hHandler : ∀ other, handler other s params = .ok
      { chatroomId := chatroom
        count := (sortBy rank (listed order s chatroom
          (flexBool params "includeMessageCounts"))).length
        fromCache := false
        members := sortBy rank (listed order s chatroom (flexBool params "includeMessageCounts"))
        success := true
        updatedAt := s.indexBuiltAtMs } := by
    intro other
    simp only [handler, hRequest, hKnown, hSame other, Bool.true_eq_false, if_false]
  exact ⟨_, hHandler order, rfl, rfl, lists_listed order _ hRoster, hHandler⟩

/-- A database with a room of two, one of them listed twice. -/
def roomDb : Db where
  tables := [⟨"Name2Id", ["username"], .uids [⟨1, none, some "r@chatroom"⟩, ⟨2, none, some "ann"⟩,
      ⟨3, none, some "ben"⟩]⟩,
    ⟨"chatroom_member", ["room_id", "member_id"], .chatroomMember [(1, 2), (1, 3), (1, 2)]⟩]
  names_nodup := by decide
  ids_nodup := by decide
  ids_pos := by decide
  rowids_nodup := by decide

/-- The store of that database and one row of somebody who has left. -/
def roomStore : Store :=
  { loadChatroomMeta roomDb {} with
    convs := (∅ : Map (List MessageRecord)).insert "r@chatroom"
      [⟨1, 1, 1, 5, 1, false, "cid", "cid", .text "bye", ⟨"message_0.db", "Msg_1"⟩⟩] }

theorem members_listed_room : ∃ answer, handler .reversed roomStore
      (AList.insert "talker" "r@chatroom" ∅) = .ok answer ∧
    answer.chatroomId = "r@chatroom" ∧ answer.count = answer.members.length ∧
    Lists roomStore "r@chatroom"
      (flexBool (AList.insert "talker" "r@chatroom" ∅) "includeMessageCounts") answer.members ∧
    ∀ other, handler other roomStore (AList.insert "talker" "r@chatroom" ∅) = .ok answer :=
  members_listed roomStore (.other (.contact roomDb .fresh) rfl) _ "r@chatroom" (by decide)
    (by decide) .reversed

example : (handler .reversed roomStore (AList.insert "talker" "r@chatroom" ∅)).toOption.map
    (·.members.map GroupMember.wxid) = some ["ann", "ben", "cid"] := by decide +kernel

end Weflow.Members
