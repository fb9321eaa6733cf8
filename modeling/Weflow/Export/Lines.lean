import Mathlib.Data.List.Infix
import Mathlib.Data.List.Sort
import Weflow.Lib.Utf8
import Weflow.Export.Names

/-!
# Rows, lines and the search for the secret

What a session's file holds, as values: the header line, a message line, a member line, and the
document of the JSON format. Translated from `src/export.rs` and the constants of
`src/server/chatlab.rs`. `leaks` is `assert_no_secret`: the text of a line as it stands and
percent-decoded, searched for the secret as it stands, JSON-escaped and percent-encoded.
-/

namespace Weflow.Export

open Json (Value object)

/-- One message, bound neither to the wire nor to the server's own shape. -/
structure Row where
  platformMessageId : String
  sender : String
  accountName : String
  groupNickname : String
  timestamp : Int64
  msgType : Int64
  content : String
  replyToMessageId : Option String
  mediaFileName : Option String
  mediaType : Option String
  deriving DecidableEq

inductive Format
  | jsonl
  | json
  deriving DecidableEq

def Format.ext : Format → String
  | jsonl => "jsonl"
  | json => "json"

structure Options where
  outDir : Paths.Path
  format : Format
  resume : Bool
  secret : String
  withMedia : Bool

/-! ## Values -/

def formatVersion : String := "0.0.2"
def generator : String := "weflow-server"
def platformName : String := "wechat"
def toolVersion : String := "0.10.0"

def indexNote : String :=
  "本文件是本服务自造的编排清单，**不是 ChatLab 规范的一部分**；导入请用单个 <name>.jsonl/.json，整个目录不可导入。"

def sessionType (talker : String) : String :=
  if "@chatroom".toList.isSuffixOf talker.toList then "group" else "private"

/-- A field set unless its string is empty. -/
def setNonempty (key s : String) (v : Value) : Value :=
  if s = "" then v else v.set key (.str s)

/-- A field set if there is a value. -/
def setSome (key : String) (new : Option Value) (v : Value) : Value := new.elim v (v.set key)

def messageLine (r : Row) : Value :=
  let v := object [
    ("_type", .str "message"),
    ("platformMessageId", .str r.platformMessageId),
    ("sender", .str r.sender),
    ("accountName", .str r.accountName),
    ("timestamp", .int r.timestamp.toInt),
    ("type", .int r.msgType.toInt),
    ("content", .str r.content)]
  let v := setNonempty "groupNickname" r.groupNickname v
  let v := setSome "replyToMessageId" (r.replyToMessageId.map .str) v
  setSome "media" (r.mediaFileName.bind fun f => r.mediaType.map fun t =>
    object [("type", .str t), ("fileName", .str f)]) v

def memberLine (r : Row) : Value :=
  setNonempty "groupNickname" r.groupNickname
    (object [("platformId", .str r.sender), ("accountName", .str r.accountName)])

def headerLine (target : SessionTarget) (exportedAt : Int64) : Value :=
  object [
    ("_type", .str "header"),
    ("chatlab", object [("version", .str formatVersion), ("generator", .str generator),
      ("exportedAt", .int exportedAt.toInt)]),
    ("meta", object [("name", .str target.displayName), ("platform", .str platformName),
      ("type", .str (sessionType target.talker)), ("groupId", .str target.talker)])]

/-- The document of the JSON format, from the lines put so far: the header and the messages. -/
def document (lines members : List Value) : Value :=
  let header := lines.head?.getD (object [])
  object [
    ("chatlab", (header.get "chatlab").getD (object [])),
    ("meta", (header.get "meta").getD (object [])),
    ("members", .arr members),
    ("messages", .arr (lines.tail.map (·.remove "_type")))]

/-- The entry of a session that was written. -/
def indexRow (target : SessionTarget) (file : String) (messages : UInt64) (withMedia : Bool) :
    Value :=
  object [
    ("talker", .str target.talker),
    ("file", .str file),
    ("messages", .int messages.toNat),
    ("displayName", .str target.displayName),
    ("withMedia", .bool withMedia)]

def indexDocument (rows : List Value) (now : Int64) : Value :=
  object [
    ("generated", object [("tool", .str generator), ("version", .str toolVersion),
      ("at", .int now.toInt)]),
    ("note", .str indexNote),
    ("sessions", .arr rows)]

/-- The order of a page: time, then message id. -/
def rowLe (a b : Row) : Prop :=
  a.timestamp < b.timestamp ∨ a.timestamp = b.timestamp ∧ a.platformMessageId ≤ b.platformMessageId

instance : DecidableRel rowLe := fun _ _ => inferInstanceAs (Decidable (_ ∨ _))

/-- `sort_by_key`, which is stable. -/
def sortPage (rows : List Row) : List Row := rows.insertionSort rowLe

theorem sortPage_perm (rows : List Row) : (sortPage rows).Perm rows :=
  List.perm_insertionSort rowLe rows

/-! ## The secret -/

def unreserved (b : UInt8) : Bool :=
  let c := Char.ofNat b.toNat
  b.toNat < 128 && (c.isAlphanum || c == '-' || c == '_' || c == '.' || c == '~')

def hexUpper (n : Nat) : Char := (Json.hexDigit n).toUpper

def percentEncode (s : List Char) : List Char :=
  (Utf8.encode s).flatMap fun b =>
    if unreserved b then [Char.ofNat b.toNat]
    else ['%', hexUpper (b.toNat / 16), hexUpper (b.toNat % 16)]

/-- `%XX` as one byte, everything else as it stands. -/
def percentDecodeBytes : List UInt8 → List UInt8
  | [] => []
  | [a] => [a]
  | [a, b] => [a, b]
  | p :: a :: b :: rest =>
    match Json.hexValue (Char.ofNat a.toNat), Json.hexValue (Char.ofNat b.toNat) with
    | some high, some low =>
      if p = 37 then UInt8.ofNat (high * 16 + low) :: percentDecodeBytes rest
      else p :: percentDecodeBytes (a :: b :: rest)
    | _, _ => p :: percentDecodeBytes (a :: b :: rest)

def percentDecode (s : List Char) : List Char :=
  Utf8.decodeLossy (percentDecodeBytes (Utf8.encode s))

/-- `trim_matches('"')`. -/
def trimQuotes (s : List Char) : List Char := (s.dropWhile (· == '"')).rdropWhile (· == '"')

/-- `str::contains`. -/
def contains (hay needle : List Char) : Bool := decide (needle <:+: hay)

/-- `assert_no_secret` finds the secret. -/
def leaks (J : Json.Text) (line secret : String) : Bool :=
  if secret = "" then false
  else
    let jsonEscaped := trimQuotes (J.render (.str secret)).toList
    let encodedFolded := (percentEncode secret.toList).map Char.toLower
    let encodedIsSecret := encodedFolded == secret.toList.map Char.toLower
    [line.toList, percentDecode line.toList].any fun hay =>
      contains hay secret.toList ||
      (jsonEscaped != secret.toList && contains hay jsonEscaped) ||
      (!encodedIsSecret && contains (hay.map Char.toLower) encodedFolded)

@[simp] theorem leaks_empty (J : Json.Text) (line : String) : leaks J line "" = false := rfl

/-! ## The values are well formed -/

theorem wf_int64 (n : Int64) : (Value.int n.toInt).Wf := by
  have h1 := Int64.le_toInt n
  have h2 := Int64.toInt_lt n
  exact ⟨h1, by omega⟩

theorem wf_uint64 (n : UInt64) : (Value.int n.toNat).Wf := by
  have h := n.toNat_lt
  exact ⟨by omega, by omega⟩

theorem wf_setNonempty {v : Value} (key s : String) (h : v.Wf) : (setNonempty key s v).Wf := by
  rw [setNonempty]
  split
  · exact h
  · exact Json.wf_set key h (Json.wf_str s)

theorem wf_setSome {v : Value} {new : Option Value} (key : String) (h : v.Wf)
    (hNew : ∀ w ∈ new, w.Wf) : (setSome key new v).Wf := by
  cases new with
  | none => exact h
  | some w => exact Json.wf_set key h (hNew w rfl)

theorem wf_messageLine (r : Row) : (messageLine r).Wf := by
  refine wf_setSome _ (wf_setSome _ (wf_setNonempty _ _ (Json.wf_object ?_)) ?_) ?_
  · simp [wf_int64]
  · intro w hw
    obtain ⟨rep, -, rfl⟩ := Option.map_eq_some_iff.mp hw
    exact Json.wf_str rep
  · intro w hw
    obtain ⟨f, -, hw⟩ := Option.bind_eq_some_iff.mp hw
    obtain ⟨t, -, rfl⟩ := Option.map_eq_some_iff.mp hw
    exact Json.wf_object (by simp)

theorem wf_memberLine (r : Row) : (memberLine r).Wf :=
  wf_setNonempty _ _ (Json.wf_object (by simp))

theorem wf_headerLine (target : SessionTarget) (exportedAt : Int64) :
    (headerLine target exportedAt).Wf := by
  refine Json.wf_object ?_
  have hChatlab : (object [("version", .str formatVersion), ("generator", .str generator),
      ("exportedAt", .int exportedAt.toInt)]).Wf := Json.wf_object (by simp [wf_int64])
  have hMeta : (object [("name", .str target.displayName), ("platform", .str platformName),
      ("type", .str (sessionType target.talker)), ("groupId", .str target.talker)]).Wf :=
    Json.wf_object (by simp)
  simp [hChatlab, hMeta]

theorem wf_document {lines members : List Value} (hLines : ∀ v ∈ lines, v.Wf)
    (hMembers : ∀ v ∈ members, v.Wf) : (document lines members).Wf := by
  have hEmpty : (object []).Wf := Json.wf_object (by simp)
  have hHeader : (lines.head?.getD (object [])).Wf := by
    cases lines with
    | nil => exact hEmpty
    | cons v vs => exact hLines v List.mem_cons_self
  have hPart : ∀ key, (((lines.head?.getD (object [])).get key).getD (object [])).Wf := by
    intro key
    cases hGet : (lines.head?.getD (object [])).get key with
    | none => exact hEmpty
    | some w => exact Json.wf_get hHeader hGet
  have hMessages : (Value.arr (lines.map (·.remove "_type")).tail).Wf := by
    refine Json.wf_arr.mpr fun v hv => ?_
    obtain ⟨w, hw, rfl⟩ := List.mem_map.mp (List.mem_of_mem_tail hv)
    exact Json.wf_remove _ (hLines w hw)
  refine Json.wf_object ?_
  simp [hPart, hMessages, Json.wf_arr.mpr hMembers]

theorem wf_indexRow (target : SessionTarget) (file : String) (n : UInt64) (withMedia : Bool) :
    (indexRow target file n withMedia).Wf :=
  Json.wf_object (by simp [wf_uint64])

theorem wf_indexDocument {rows : List Value} (h : ∀ r ∈ rows, r.Wf) (now : Int64) :
    (indexDocument rows now).Wf := by
  have hGenerated : (object [("tool", .str generator), ("version", .str toolVersion),
      ("at", .int now.toInt)]).Wf := Json.wf_object (by simp [wf_int64])
  refine Json.wf_object ?_
  simp [hGenerated, Json.wf_arr.mpr h]

end Weflow.Export
