import Weflow.Export.Names
import Weflow.Parser.Message
import Weflow.Server.ChatlabPull

/-!
# The ChatLab shape of a message

`server/chatlab.rs`, and the message of the pull face. A record is mapped to the same fields for
every face; the pull face adds the handle of its media, when the media directory of the conversation
has it. That directory is read once for a request, and is a parameter.
-/

namespace Weflow.Chatlab

open Weflow.Parser (subtypeOf)
open Sync (splitLocalType)

structure MediaBrief where
  fileName : String
  md5 : Option String
  type : String
  deriving DecidableEq

structure MessageFields where
  accountName : String
  content : String
  groupNickname : String
  media : Option MediaBrief
  platformMessageId : String
  replyToMessageId : Option String
  sender : String
  timestamp : Int
  type : Int
  deriving DecidableEq

/-- `Store::group_card` -/
def groupCard (s : Store) (chatroom : Option String) (sender : String) : String :=
  (((chatroom.bind s.groupCards.lookup).bind fun cards => cards.lookup sender).filter (· ≠ "")).getD
    ""

/-- The id of a group, none for a private conversation. -/
def chatroomOf (id : String) : Option String :=
  if "@chatroom".toList.isSuffixOf id.toList then some id else none

/-- The type code of a message. -/
def chatlabType (localType : Int) (parsed : ParsedMsg) : Int :=
  match (splitLocalType localType).1 with
  | 1 => 0
  | 3 => 1
  | 34 => 2
  | 43 => 3
  | 47 => 5
  | 42 => 27
  | 48 => 8
  | 50 => 24
  | 49 =>
    if parsed.replyTo.isSome then 25
    else if subtypeOf localType parsed.rawContent.toList = some 6 then 4
    else 7
  | 10000 => if parsed.revoke.isSome then 81 else 80
  | 10002 => if parsed.revoke.isSome then 81 else 80
  | _ => 99

def mediaBrief (m : MessageRecord) : Option MediaBrief :=
  m.parsed.media.map fun hint => ⟨hint.fileName, hint.md5, hint.kind.asStr⟩

def messageFields (s : Store) (chatroom : Option String) (m : MessageRecord) : MessageFields where
  accountName := m.senderName
  content := m.parsed.display
  groupNickname := groupCard s chatroom m.senderUsername
  media := mediaBrief m
  platformMessageId := toString m.serverId
  replyToMessageId := m.parsed.replyTo
  sender := m.senderUsername
  timestamp := m.createTime
  type := chatlabType m.localType m.parsed

/-- A message of the pull face: the fields, and the handle of its media. -/
structure PullMessage extends MessageFields where
  mediaId : Option String
  deriving DecidableEq

/-- The message of a record; `handles` is `digest_handles` of the conversation. -/
def pullMessage (s : Store) (id : String) (handles : String → Option String) (m : MessageRecord) :
    PullMessage where
  toMessageFields := messageFields s (chatroomOf id) m
  mediaId := m.parsed.media.bind fun hint =>
    let stem := Export.stemOfFile hint.fileName
    if (Utf8.encode stem.toList).length ≠ 32 then none
    else handles (String.ofList (asciiLower stem))

end Weflow.Chatlab
