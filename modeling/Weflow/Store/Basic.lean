import Mathlib.Data.List.AList
import Mathlib.Data.Prod.Lex
import Mathlib.Order.Basic

/-!
# The in-memory store

The types of `store/mod.rs` and the message view of `parser/mod.rs`. A `HashMap` keyed by
names is an association list with pairwise different keys; its entry order stands for the
unspecified iteration order of the source's map. One field is not in the source: the `origin`
of a message record, the table the row was read from, which the statements about single source
rows need. Fields that no modelled function reads are left out.
-/

namespace Weflow

/-- A `HashMap<String, β>`. -/
abbrev Map (β : Type) := AList fun _ : String => β

namespace Map

variable {β : Type}

def entry (k : String) (v : β) : Sigma fun _ : String => β := ⟨k, v⟩

/-- Change every value, with its key in hand. -/
def mapVal (m : Map β) (f : String → β → β) : Map β where
  entries := m.entries.map fun e => entry e.1 (f e.1 e.2)
  nodupKeys := by
    have hKeys : (m.entries.map fun e => entry e.1 (f e.1 e.2)).map Sigma.fst =
        m.entries.map Sigma.fst := by
      rw [List.map_map]
      rfl
    change ((m.entries.map fun e => entry e.1 (f e.1 e.2)).map Sigma.fst).Nodup
    rw [hKeys]
    exact m.nodupKeys

theorem lookup_mapVal (m : Map β) (f : String → β → β) (k : String) :
    (m.mapVal f).lookup k = (m.lookup k).map (f k) := by
  cases h : m.lookup k with
  | none =>
    have hNot : k ∉ m.entries.map Sigma.fst := AList.lookup_eq_none.mp h
    refine AList.lookup_eq_none.mpr ?_
    change k ∉ (m.entries.map fun e => entry e.1 (f e.1 e.2)).map Sigma.fst
    rw [List.map_map]
    exact hNot
  | some v =>
    have hMem := AList.mem_lookup_iff.mp (show v ∈ m.lookup k from h)
    refine AList.mem_lookup_iff.mpr ?_
    exact List.mem_map.mpr ⟨_, hMem, rfl⟩

@[simp] theorem keys_mapVal (m : Map β) (f : String → β → β) : (m.mapVal f).keys = m.keys := by
  change (m.entries.map fun e => entry e.1 (f e.1 e.2)).map Sigma.fst = m.entries.map Sigma.fst
  rw [List.map_map]
  rfl

section

variable {α : Type} (key : α → String) (val : α → β) (l : List α) (m : Map β) (k : String)

/-- After a run of inserts the last one under a key counts. -/
theorem lookup_foldl_insert : (l.foldl (fun m y => m.insert (key y) (val y)) m).lookup k =
    ((l.reverse.find? fun y => key y = k).map val).or (m.lookup k) := by
  induction l generalizing m with
  | nil => rfl
  | cons a l ih =>
    rw [List.foldl_cons, ih, List.reverse_cons, List.find?_append, Option.map_or, Option.or_assoc]
    congr 1
    by_cases hKey : key a = k
    · subst hKey
      simp
    · have hNe : k ≠ key a := fun h => hKey h.symm
      simp [AList.lookup_insert_ne hNe, hKey]

/-- Inserts over a filled map: the entries they make over an empty one come first. -/
theorem lookup_foldl_insert_or : (l.foldl (fun m y => m.insert (key y) (val y)) m).lookup k =
    ((l.foldl (fun m y => m.insert (key y) (val y)) (∅ : Map β)).lookup k).or (m.lookup k) := by
  rw [lookup_foldl_insert, lookup_foldl_insert key val l ∅, AList.lookup_empty, Option.or_none]

theorem mem_foldl_insert : k ∈ l.foldl (fun m y => m.insert (key y) (val y)) m ↔
    k ∈ m ∨ ∃ y ∈ l, key y = k := by
  induction l generalizing m with
  | nil => simp
  | cons a l ih =>
    rw [List.foldl_cons, ih, AList.mem_insert]
    simp only [List.mem_cons, exists_eq_or_imp]
    constructor
    · rintro ((rfl | h) | h)
      · exact .inr (.inl rfl)
      · exact .inl h
      · exact .inr (.inr h)
    · rintro (h | rfl | h)
      · exact .inl (.inr h)
      · exact .inl (.inl rfl)
      · exact .inr h

end

end Map

/-- ASCII lower case, `to_ascii_lowercase`. -/
def asciiLower (s : String) : List Char := s.toList.map Char.toLower

/-- `eq_ignore_ascii_case`. -/
def eqIgnoreAsciiCase (s t : String) : Bool := asciiLower s == asciiLower t

/-- Unicode `White_Space`, the characters `str::trim` removes. -/
def isWhite (c : Char) : Bool :=
  let n := c.toNat
  (9 ≤ n && n ≤ 13) || n == 32 || n == 0x85 || n == 0xA0 || n == 0x1680 ||
    (0x2000 ≤ n && n ≤ 0x200A) || n == 0x2028 || n == 0x2029 || n == 0x202F || n == 0x205F ||
    n == 0x3000

/-- `str::trim` on the characters of a string. -/
def trimChars (s : List Char) : List Char :=
  ((s.dropWhile isWhite).reverse.dropWhile isWhite).reverse

/-- `str::trim`. -/
def trim (s : String) : String := String.ofList (trimChars s.toList)

/-- `wm_key`, the key `<rel>:<table>` of the watermark map, kept as a pair. -/
structure WmKey where
  rel : String
  table : String
deriving DecidableEq, Repr

/-- Session and contact kinds. -/
inductive SessionKind
  | privateChat
  | group
  | official
  | other
deriving DecidableEq, Repr

namespace SessionKind

def asStr : SessionKind → String
  | privateChat => "private"
  | group => "group"
  | official => "official"
  | other => "other"

/-- `@chatroom` suffix is a group, `gh_` prefix an official account. -/
def classify (username : String) : SessionKind :=
  if "@chatroom".toList.isSuffixOf username.toList then group
  else if "gh_".toList.isPrefixOf username.toList then official
  else privateChat

end SessionKind

structure Session where
  username : String
  displayName : String
  kind : SessionKind
  lastTimestamp : Int
  lastMsgType : Option Int
  summary : Option String
  unreadCount : Int
  messageCount : Nat
deriving DecidableEq, Repr

structure Contact where
  username : String
  remark : Option String
  nickname : Option String
  aliasName : Option String
  avatarUrl : Option String
  kind : SessionKind
deriving DecidableEq, Repr

/-- Display priority: remark, then nickname, then username. -/
def Contact.displayName (c : Contact) : String :=
  ((c.remark.filter (· ≠ "")).orElse fun _ => c.nickname.filter (· ≠ "")).getD c.username

inductive MediaKind
  | image
  | voice
  | video
  | emoji
  | file
deriving DecidableEq, Repr

namespace MediaKind

def asStr : MediaKind → String
  | image => "image"
  | voice => "voice"
  | video => "video"
  | emoji => "emoji"
  | file => "file"

/-- The export subdirectory; files take no part in the export. -/
def kindDirFor : MediaKind → Option String
  | image => some "images"
  | voice => some "voices"
  | video => some "videos"
  | emoji => some "emojis"
  | file => none

end MediaKind

structure MediaHint where
  kind : MediaKind
  fileName : String
  md5 : Option String
  aesKey : Option String
deriving DecidableEq, Repr

structure QuoteInfo where
  platformMessageId : String
  sender : String
  content : String
  msgType : Int
deriving DecidableEq, Repr

structure RevokeInfo where
  msgId : Option String
  newMsgId : Option String
  replaceMsg : Option String
deriving DecidableEq, Repr

structure ParsedMsg where
  display : String
  rawContent : String
  parsedText : String
  media : Option MediaHint
  replyTo : Option String
  quote : Option QuoteInfo
  revoke : Option RevokeInfo
deriving DecidableEq, Repr

/-- The view of a text row whose body is `s`. -/
def ParsedMsg.text (s : String) : ParsedMsg := ⟨s, s, s, none, none, none, none⟩

structure MessageRecord where
  localId : Int
  serverId : Int
  localType : Int
  createTime : Int
  sortSeq : Int
  isSend : Bool
  senderUsername : String
  senderName : String
  parsed : ParsedMsg
  origin : WmKey
deriving DecidableEq, Repr

/-! ## Watermarks -/

/-- The position `(create_time, sort_seq, local_id)` of a row in its table. -/
@[ext] structure Watermark where
  createTime : Int
  sortSeq : Int
  localId : Int
deriving DecidableEq, Repr

namespace Watermark

/-- The derived `Ord` is the lexicographic one. -/
def toTriple (w : Watermark) : Int ×ₗ Int ×ₗ Int :=
  toLex (w.createTime, toLex (w.sortSeq, w.localId))

theorem toTriple_injective : Function.Injective toTriple := by
  intro a b h
  simp only [toTriple, EmbeddingLike.apply_eq_iff_eq, Prod.mk.injEq] at h
  exact Watermark.ext h.1 h.2.1 h.2.2

instance : LinearOrder Watermark := LinearOrder.lift' toTriple toTriple_injective

theorem lt_iff {a b : Watermark} : a < b ↔ a.createTime < b.createTime ∨
    a.createTime = b.createTime ∧ (a.sortSeq < b.sortSeq ∨
      a.sortSeq = b.sortSeq ∧ a.localId < b.localId) := by
  change a.toTriple < b.toTriple ↔ _
  simp only [toTriple, Prod.Lex.toLex_lt_toLex]

theorem le_iff {a b : Watermark} : a ≤ b ↔ a.createTime < b.createTime ∨
    a.createTime = b.createTime ∧ (a.sortSeq < b.sortSeq ∨
      a.sortSeq = b.sortSeq ∧ a.localId ≤ b.localId) := by
  change a.toTriple ≤ b.toTriple ↔ _
  simp only [toTriple, Prod.Lex.toLex_le_toLex]

/-- `Watermark::default()`. -/
def zero : Watermark := ⟨0, 0, 0⟩

end Watermark

/-- The position of a record, as the sync engine writes it into the watermark map. -/
def MessageRecord.mark (r : MessageRecord) : Watermark := ⟨r.createTime, r.sortSeq, r.localId⟩

/-! ## The store -/

/-- A moment of the timeline, with the fields the reload orders by. -/
structure SnsFeed where
  feedId : String
  userName : String
  createTime : Int
  rawXml : String
deriving DecidableEq, Repr

/-- chatroom username -> sender username -> group card. -/
abbrev GroupCards := Map (Map String)

structure Store where
  myWxid : String := ""
  sessions : Map Session := ∅
  convs : Map (List MessageRecord) := ∅
  contacts : Map Contact := ∅
  groupCards : GroupCards := ∅
  chatroomOwner : Map String := ∅
  chatroomRoster : Map (List String) := ∅
  indexBuiltAtMs : Int := 0
  watermarks : AList (fun _ : WmKey => Watermark) := ∅
  snsFeeds : List SnsFeed := []

namespace Store

/-- `watermarks.get(&wm_key).copied().unwrap_or_default()`. -/
def watermark (s : Store) (k : WmKey) : Watermark := (s.watermarks.lookup k).getD .zero

/-- The records of one conversation, none if it is not indexed. -/
def conv (s : Store) (username : String) : List MessageRecord := (s.convs.lookup username).getD []

def convCount (s : Store) (username : String) : Nat := (s.conv username).length

/-- The session roster, the message index or the group roster knows the id. -/
def conversationKnown (s : Store) (id : String) : Bool :=
  (s.sessions.lookup id).isSome || (s.convs.lookup id).isSome ||
    (s.chatroomRoster.lookup id).isSome

def markIndexBuilt (s : Store) (nowMs : Int) : Store := { s with indexBuiltAtMs := nowMs }

/-- Session display name, else the contact's, `none` when no name is known. -/
def sessionDisplayOpt (s : Store) (username : String) : Option String :=
  match (s.sessions.lookup username).filter (fun x => x.displayName ≠ "") with
  | some x => some x.displayName
  | none => ((s.contacts.lookup username).map Contact.displayName).filter
      fun n => n ≠ "" ∧ n ≠ username

/-- `convs.entry(session).or_default()`, then `extend`. -/
def extendConv (s : Store) (session : String) (records : List MessageRecord) : Store :=
  { s with convs := s.convs.insert session (s.conv session ++ records) }

/-- `watermarks.insert`. -/
def setWatermark (s : Store) (k : WmKey) (wm : Watermark) : Store :=
  { s with watermarks := s.watermarks.insert k wm }

@[simp] theorem watermark_setWatermark (s : Store) (k : WmKey) (wm : Watermark) :
    (s.setWatermark k wm).watermark k = wm := by
  simp [watermark, setWatermark]

theorem watermark_setWatermark_ne (s : Store) {k k' : WmKey} (wm : Watermark) (h : k' ≠ k) :
    (s.setWatermark k wm).watermark k' = s.watermark k' := by
  simp [watermark, setWatermark, AList.lookup_insert_ne h]

@[simp] theorem convs_setWatermark (s : Store) (k : WmKey) (wm : Watermark) :
    (s.setWatermark k wm).convs = s.convs := rfl

@[simp] theorem watermark_extendConv (s : Store) (session : String) (rs : List MessageRecord) :
    (s.extendConv session rs).watermark = s.watermark := rfl

@[simp] theorem conv_extendConv (s : Store) (session : String) (rs : List MessageRecord) :
    (s.extendConv session rs).conv session = s.conv session ++ rs := by
  simp [conv, extendConv]

theorem conv_extendConv_ne (s : Store) {session u : String} (rs : List MessageRecord)
    (h : u ≠ session) : (s.extendConv session rs).conv u = s.conv u := by
  simp [conv, extendConv, AList.lookup_insert_ne h]

/-! ## The rows a store holds -/

/-- All records of all conversations. -/
def records (s : Store) : List MessageRecord :=
  s.convs.entries.flatMap fun e => e.2

theorem mem_records {s : Store} {r : MessageRecord} :
    r ∈ s.records ↔ ∃ u, r ∈ s.conv u := by
  simp only [records, List.mem_flatMap, conv]
  constructor
  · rintro ⟨⟨u, rs⟩, he, hr⟩
    refine ⟨u, ?_⟩
    rw [AList.mem_lookup_iff.mpr he]
    exact hr
  · rintro ⟨u, hr⟩
    cases h : s.convs.lookup u with
    | none => simp [h] at hr
    | some rs =>
      rw [h] at hr
      exact ⟨⟨u, rs⟩, AList.mem_lookup_iff.mp h, hr⟩

/-- Extending one conversation adds exactly the given records to the store. -/
theorem records_extendConv (s : Store) (session : String) (rs : List MessageRecord) :
    (s.extendConv session rs).records.Perm (s.records ++ rs) := by
  have hPerm : s.records.Perm
      (s.conv session ++ (s.convs.erase session).entries.flatMap fun e => e.2) := by
    cases h : s.convs.lookup session with
    | none =>
      have hNot : session ∉ s.convs := AList.lookup_eq_none.mp h
      have hErase : (s.convs.erase session).entries = s.convs.entries := by
        change List.kerase session s.convs.entries = _
        exact List.kerase_of_notMem_keys hNot
      rw [hErase, conv, h]
      rfl
    | some old =>
      have hKey : session ∈ s.convs.entries.keys :=
        List.mem_keys_of_mem (AList.mem_lookup_iff.mp h)
      obtain ⟨b, l₁, l₂, hNot, hEntries, hErase⟩ := List.exists_of_kerase hKey
      have hb : b = old := by
        have hMem : (⟨session, b⟩ : Sigma fun _ : String => List MessageRecord) ∈ s.convs.entries :=
          by rw [hEntries]; simp
        exact Option.some.inj ((AList.mem_lookup_iff.mpr hMem).symm.trans h)
      have hEq : (s.convs.erase session).entries = l₁ ++ l₂ := hErase
      rw [records, hEq, hEntries, conv, h, ← hb]
      simp only [List.flatMap_append, List.flatMap_cons, Option.getD_some]
      exact List.perm_append_comm_assoc _ _ _
  have hNew : (s.extendConv session rs).records =
      (s.conv session ++ rs) ++ (s.convs.erase session).entries.flatMap fun e => e.2 := rfl
  rw [hNew, List.append_assoc]
  refine (List.Perm.append_left _ List.perm_append_comm).trans ?_
  rw [← List.append_assoc]
  exact hPerm.symm.append_right rs

end Store

end Weflow
