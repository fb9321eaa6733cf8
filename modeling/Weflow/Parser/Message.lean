import Weflow.Parser.Xml
import Weflow.Server.Params
import Weflow.Sync.Account

/-!
# Parsing a message

`parse_message` of `parser/mod.rs` with the functions it calls: the display text, the media hint,
the quoted message and the withdrawal of a decoded body.

`quoted_hidden`: whatever is quoted, the media hint and the subtype of the quoting message are the
same, since its own fields are read from a text without the quoted one.
-/

namespace Weflow.Parser

open Search (splitOnce)
open Sync (splitLocalType)

/-- The `<appmsg>` subtype of a payload. -/
def appmsgType (xml : Text) : Option Int := do
  let own := stripElem xml "refermsg"
  let s ← (elemText own "type").or (attr own "type")
  parseI64 (trimChars s)

/-- The appmsg subtype for a row, preferring the packed high half. -/
def subtypeOf (localType : Int) (xml : Text) : Option Int :=
  (splitLocalType localType).2.or (appmsgType xml)

/-- The display placeholder of a type. -/
def placeholderFor (localType : Int) : Option String :=
  match (splitLocalType localType).1 with
  | 1 => none
  | 3 => some "[图片]"
  | 34 => some "[语音]"
  | 43 => some "[视频]"
  | 47 => some "[表情]"
  | 42 => some "[名片]"
  | 48 => some "[位置]"
  | 49 => some "[链接/文件]"
  | 50 => some "[视频号]"
  | 10000 => none
  | 10002 => none
  | _ => some "[消息]"

/-- `is_control` -/
def isControl (c : Char) : Bool := c.toNat < 0x20 || (0x7F ≤ c.toNat && c.toNat < 0xA0)

def sanitizeFileName (name : Text) : Text :=
  let cleaned := name.map fun c =>
    if ['<', '>', ':', '"', '/', '\\', '|', '?', '*'].contains c || isControl c then '_' else c
  let trimmed := (trimChars cleaned).rdropWhile (· == '.')
  if trimmed = [] then "file".toList else trimmed

def extractRevoke (xml : Text) : Option RevokeInfo :=
  if contains xml "revokemsg" || contains xml "replacemsg" || contains xml "revoke" ||
      contains xml "撤回" then
    let msgId := (elemText xml "msgid").or (attr xml "msgid")
    let newMsgId := (elemText xml "newmsgid").or (attr xml "newmsgid")
    let replaceMsg := (elemText xml "replacemsg").or (attr xml "replacemsg")
    if msgId.isNone && newMsgId.isNone && replaceMsg.isNone then none
    else some {
      msgId := msgId.map String.ofList
      newMsgId := newMsgId.map String.ofList
      replaceMsg := replaceMsg.map String.ofList }
  else none

def parseSystemText (xml : Text) : String :=
  match extractRevoke xml with
  | some r => r.replaceMsg.getD "撤回了一条消息"
  | none =>
    match (elemText xml "content_template").or (elemText xml "template") with
    | some t => String.ofList t
    | none =>
      let text := stripTags xml
      String.ofList (if text = [] then xml.take 64 else text)

def extractRefermsg (xml : Text) : Option QuoteInfo := do
  let (_, rest) ← splitOnce "<refermsg>".toList xml
  let (inner, _) ← splitOnce "</refermsg>".toList rest
  let platformMessageId := ((elemText inner "svrid").or (attr inner "svrid")).getD []
  let sender := ((elemText inner "chatusr").or (attr inner "chatusr")).getD []
  let content := (elemText inner "content").getD []
  let msgType := ((elemText inner "type").bind parseI64).getD 0
  return {
    platformMessageId := String.ofList platformMessageId
    sender := String.ofList sender
    content := String.ofList (stripTags content)
    msgType }

/-- The extension of a `type` attribute. -/
def extOf (type : Option Text) : String :=
  match type.map String.ofList with
  | some "2" => "png"
  | some "3" => "gif"
  | some "4" => "webp"
  | _ => "jpg"

/-- Image extension by cache type hints. -/
def imageExt (xml : Text) : String := extOf (attr xml "type")

/-- A file name of the md5, or of the row. -/
def mediaFileName (md5 : Option Text) (stem : String) (localId : Int) (ext : String) : String :=
  match md5 with
  | some m => s!"{String.ofList m}.{ext}"
  | none => s!"{stem}_{localId}.{ext}"

/-- The media hint of a payload. -/
def mediaHint (localType serverId localId : Int) (content : Text) : Option MediaHint :=
  match (splitLocalType localType).1 with
  | 3 =>
    let md5 := (attr content "md5").or (attr content "cdnthumbmd5")
    some {
      kind := .image
      fileName := mediaFileName md5 "img" localId (imageExt content)
      md5 := md5.map String.ofList
      aesKey := (attr content "aeskey").map String.ofList }
  | 34 =>
    some {
      kind := .voice
      fileName := s!"voice_{serverId}.silk"
      md5 := (attr content "md5").map String.ofList
      aesKey := (attr content "aeskey").map String.ofList }
  | 43 =>
    let md5 := (attr content "md5").or (attr content "cdnvideomd5")
    some {
      kind := .video
      fileName := mediaFileName md5 "video" localId "mp4"
      md5 := md5.map String.ofList
      aesKey := (attr content "aeskey").map String.ofList }
  | 47 =>
    let md5 := attr content "md5"
    some {
      kind := .emoji
      fileName := mediaFileName md5 "emoji" localId "gif"
      md5 := md5.map String.ofList
      aesKey := none }
  | 49 =>
    if subtypeOf localType content = some 6 then
      -- the file's own fields, not those of the quoted message
      let own := stripElem content "refermsg"
      let title := (elemTextUnwrapped own "title").or (attr own "title")
      some {
        kind := .file
        fileName := match title with
          | some t => String.ofList (sanitizeFileName t)
          | none => s!"file_{localId}"
        md5 := ((elemTextUnwrapped own "md5").or (attr own "md5")).map String.ofList
        aesKey := ((elemTextUnwrapped own "aeskey").or (attr own "aeskey")).map String.ofList }
    else none
  | _ => none

/-- Parse a message row into the API view. -/
def parseMessage (localType serverId localId : Int) (content : Text) : ParsedMsg :=
  let base := (splitLocalType localType).1
  let isSystem := base = 10000 || base = 10002
  let parsedText := String.ofList (if isXml content then stripTags content else content)
  let display := (placeholderFor localType).getD
    (if isSystem then parseSystemText content else parsedText)
  let quote := if isXml content && base = 49 then extractRefermsg content else none
  { display
    rawContent := String.ofList content
    parsedText := if isSystem then display else parsedText
    media := if isXml content then mediaHint localType serverId localId content else none
    replyTo := quote.map QuoteInfo.platformMessageId
    quote
    revoke := if isXml content && isSystem then extractRevoke content else none }

/-! ## What is quoted -/

/-- A payload with a quoted message in it. -/
def quoting (before quoted after : Text) : Text :=
  before ++ openTag "refermsg" ++ quoted ++ closeTag "refermsg" ++ after

section

variable {before quoted after : Text}

/-- The quoted message is taken out as a whole. -/
theorem stripElem_quoting (hBefore : ¬ openTag "refermsg" <:+: before)
    (hQuoted : ¬ closeTag "refermsg" <:+: quoted) :
    stripElem (quoting before quoted after) "refermsg" = before ++ after := by
  have hOpen : splitOnce (openTag "refermsg") (quoting before quoted after) =
      some (before, quoted ++ closeTag "refermsg" ++ after) := by
    have hTail : '<' ∉ "refermsg".toList ++ ['>'] := by decide
    have hFront := Search.splitOnce_front (b := quoted ++ closeTag "refermsg" ++ after) hTail hBefore
    rw [quoting]
    simpa [openTag] using hFront
  have hClose : splitOnce (closeTag "refermsg")
      (openTag "refermsg" ++ (quoted ++ closeTag "refermsg" ++ after)) =
        some (openTag "refermsg" ++ quoted, after) := by
    have hNot : ¬ closeTag "refermsg" <:+: openTag "refermsg" ++ quoted := by
      intro hIn
      rcases List.infix_cons_iff.mp hIn with hPrefix | hBehind
      · exact absurd (List.cons_prefix_cons.mp (List.cons_prefix_cons.mp hPrefix).2).1 (by decide)
      · exact hQuoted (Search.infix_behind (by decide) hBehind)
    have hTail : '<' ∉ '/' :: "refermsg".toList ++ ['>'] := by decide
    have hFront := Search.splitOnce_front (b := after) hTail hNot
    rw [← List.append_assoc, ← List.append_assoc]
    exact hFront
  unfold stripElem
  rw [hOpen]
  simp only
  rw [hClose]

theorem appmsgType_quoting (hBefore : ¬ openTag "refermsg" <:+: before)
    (hQuoted : ¬ closeTag "refermsg" <:+: quoted) :
    appmsgType (quoting before quoted after) =
      ((elemText (before ++ after) "type").or (attr (before ++ after) "type")).bind fun s =>
        parseI64 (trimChars s) := by
  unfold appmsgType
  rw [stripElem_quoting hBefore hQuoted]
  rfl

/-- Where the payload begins does not depend on what is quoted. -/
theorem isXml_quoting : isXml (quoting before quoted after) = isXml (before ++ ['<']) := by
  rw [quoting, List.append_assoc, List.append_assoc, List.append_assoc]
  exact isXml_tag before _

/-- A quoted message never leaks into the quoting one. -/
theorem quoted_hidden {x y : Text} {localType : Int} (serverId localId : Int)
    (hBase : (splitLocalType localType).1 = 49) (hBefore : ¬ openTag "refermsg" <:+: before)
    (hX : ¬ closeTag "refermsg" <:+: x) (hY : ¬ closeTag "refermsg" <:+: y) :
    (parseMessage localType serverId localId (quoting before x after)).media =
        (parseMessage localType serverId localId (quoting before y after)).media ∧
      appmsgType (quoting before x after) = appmsgType (quoting before y after) ∧
      subtypeOf localType (quoting before x after) =
        subtypeOf localType (quoting before y after) := by
  have hType : appmsgType (quoting before x after) = appmsgType (quoting before y after) := by
    rw [appmsgType_quoting hBefore hX, appmsgType_quoting hBefore hY]
  have hSubtype : subtypeOf localType (quoting before x after) =
      subtypeOf localType (quoting before y after) := by
    rw [subtypeOf, subtypeOf, hType]
  have hHint : mediaHint localType serverId localId (quoting before x after) =
      mediaHint localType serverId localId (quoting before y after) := by
    unfold mediaHint
    simp only [hBase, hSubtype, stripElem_quoting hBefore hX, stripElem_quoting hBefore hY]
  refine ⟨?_, hType, hSubtype⟩
  unfold parseMessage
  simp only [isXml_quoting, hHint]

end

/-- A reply that quotes a file, and one that quotes a picture. -/
theorem quoted_hidden_file :
    (parseMessage 49 1 2 (quoting "<m>".toList "<type>6</type>".toList "</m>".toList)).media =
        (parseMessage 49 1 2 (quoting "<m>".toList "<img/>".toList "</m>".toList)).media ∧
      appmsgType (quoting "<m>".toList "<type>6</type>".toList "</m>".toList) =
        appmsgType (quoting "<m>".toList "<img/>".toList "</m>".toList) ∧
      subtypeOf 49 (quoting "<m>".toList "<type>6</type>".toList "</m>".toList) =
        subtypeOf 49 (quoting "<m>".toList "<img/>".toList "</m>".toList) :=
  quoted_hidden 1 2 (by decide) (by decide) (by decide) (by decide)

end Weflow.Parser
