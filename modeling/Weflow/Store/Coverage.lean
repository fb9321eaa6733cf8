import Weflow.Store.Increment
import Weflow.Store.Build

/-!
# Every message row, with its sender

Which rows of a message database a build stores, and with which sender. The catalogue query
behind `message_tables` and `name2id_table` is cut off after a number of names, and the columns of
the `Name2Id` table are probed with a name that is not quoted; a database of any size is read
completely if and only if neither of the two matters for it (`WithinCaps`, `indexed_iff`).
-/

namespace Weflow

/-- `msg_` in any case, then 16 or 32 hex digits. -/
def MessageName (name suffix : String) : Prop :=
  asciiLower name = "msg_".toList ++ suffix.toList ∧
    (suffix.toList.length = 32 ∨ suffix.toList.length = 16) ∧
      suffix.toList.all isHexDigit = true

theorem msgSuffix_eq_some {name suffix : String} :
    msgSuffix name = some suffix ↔ MessageName name suffix := by
  unfold msgSuffix MessageName
  split
  · rename_i rest hName
    rw [hName]
    split
    · rename_i hHex
      rw [Option.some.injEq]
      constructor
      · rintro rfl
        simpa using hHex
      · rintro ⟨hRest, -⟩
        have hEq : rest = suffix.toList := by simpa using hRest
        rw [hEq, String.ofList_toList]
    · rename_i hNot
      simp only [reduceCtorEq, false_iff]
      rintro ⟨hRest, hHex⟩
      have hEq : rest = suffix.toList := by simpa using hRest
      exact hNot (hEq ▸ hHex)
  · rename_i hName
    simp only [reduceCtorEq, false_iff]
    rintro ⟨hRest, -⟩
    exact hName suffix.toList (by simpa using hRest)

/-- The row has no sender of its own, and `t` has a name for its sender id. -/
def Source.Resolves (f : Source) (m : Table) (row : MsgRow) (t : Table) (name : String) : Prop :=
  ∃ c, f.cols m.name = some c ∧ (c.sender = none ∨ (row.senderUsername.map trim).getD "" = "") ∧
    c.real.isSome ∧ t.HasEntry row.realSenderId name

/-- The catalogue of a message file is read completely, and every row is stored with its
sender. -/
structure Indexed (f : Source) (s : Store) : Prop where
  tables : ∀ name suffix, (name, suffix) ∈ messageTables f.db ↔
    name ∈ f.db.tables.map Table.name ∧ MessageName name suffix
  name2id : (∃ t ∈ f.db.tables, isName2id t.name = true) →
    ∃ t ∈ f.db.tables, isName2id t.name = true ∧ name2idTable f.db = some t.name
  rows : ∀ m ∈ f.db.tables, (msgSuffix m.name).isSome → ∀ row ∈ m.msgRows,
    ∃ r ∈ s.records, r.origin = f.wmKey m.name ∧ r.localId = row.localId
  senders : ∀ m ∈ f.db.tables, (msgSuffix m.name).isSome → ∀ row ∈ m.msgRows,
    ∀ t ∈ f.db.tables, name2idTable f.db = some t.name → ∀ name, f.Resolves m row t name →
      ∀ r ∈ s.records, r.origin = f.wmKey m.name → r.localId = row.localId →
        r.senderUsername = name

/-- No message table is behind the first thousand names, one of the `Name2Id` tables is among the
first five hundred, and the last of those can be probed, if a row needs it. -/
structure WithinCaps (f : Source) : Prop where
  messages : ∀ m ∈ f.db.tables, (msgSuffix m.name).isSome →
    f.db.before m.name < messageTablesCap
  name2id : (∃ t ∈ f.db.tables, isName2id t.name = true) →
    ∃ t ∈ f.db.tables, isName2id t.name = true ∧ f.db.before t.name < name2idTableCap
  plain : ∀ t ∈ f.db.tables, isName2id t.name = true → f.db.before t.name < name2idTableCap →
    (∀ t' ∈ f.db.tables, isName2id t'.name = true → f.db.before t'.name < name2idTableCap →
      t'.name ≤ t.name) →
    isPlainIdent t.name = true ∨ ∀ m ∈ f.db.tables, (msgSuffix m.name).isSome →
      ∀ row ∈ m.msgRows, ∀ name, f.Resolves m row t name → name = ""

/-! ## The senders of a store -/

/-- Every record has the sender its row has in its own database. -/
def Senders (w : World) (s : Store) : Prop :=
  ∀ r ∈ s.records, ∃ f ∈ w.messageFiles, ∃ table c, r.origin = f.wmKey table ∧
    f.cols table = some c ∧ ∃ row ∈ f.db.msgRows table, r.localId = row.localId ∧
      r.senderUsername = (c.extract row (uidMap f.db)).senderUsername

section

variable {x : Codec} {me : String} {keys : KeyMap} {w : World} {io : BuildIo} {s : Store}

theorem Senders.scanTable (h : Senders w s) {f : Source} (hf : f ∈ w.messageFiles)
    (contacts : Map Contact) (loadFails : WmKey → Bool) (t : String × String) :
    Senders w (scanTable x me contacts loadFails f s t) := by
  rcases scanTable_cases x me contacts loadFails f s t with ⟨c, hCols, -, hEq⟩ | ⟨-, hEq⟩
  · rw [hEq]
    intro r hr
    have hr' := (s.records_extendConv _ _).mem_iff.mp hr
    rcases List.mem_append.mp hr' with hr' | hr'
    · exact h r hr'
    · obtain ⟨row, hRow, rfl⟩ := List.mem_map.mp hr'
      exact ⟨f, hf, t.1, c, rfl, hCols, row, Keyset.mem_sortBy.mp hRow, rfl, rfl⟩
  · rw [hEq]
    exact h

theorem senders_buildAllLive (x : Codec) (me : String) (keys : KeyMap) (w : World) (io : BuildIo)
    (pool : LivePool) (nowMs : Int) : Senders w (buildAllLive x me keys w io pool nowMs).2 := by
  refine store_buildAllLive (Q := fun s => s.convs = ∅) (P := Senders w)
    (fun s s' hs hConvs _ => hConvs.trans hs) (fun s s' hs hConvs _ => ?_) rfl
    (fun f _ _ s hs => hs) (fun s hs r hr => ?_)
    (fun f hf t _ contacts s hs => hs.scanTable hf contacts io.loadFails t) nowMs
  · intro r hr
    rw [Store.records, hConvs] at hr
    exact hs r hr
  · rw [Store.records, hs] at hr
    cases hr

/-- The sender of a record, from the one row it can be. -/
theorem Senders.senderUsername (h : Senders w s) {f : Source} (hf : f ∈ w.messageFiles)
    {m : Table} (hm : m ∈ f.db.tables) {row : MsgRow} (hRow : row ∈ m.msgRows) {c : MsgCols}
    (hCols : f.cols m.name = some c) {r : MessageRecord} (hr : r ∈ s.records)
    (hOrigin : r.origin = f.wmKey m.name) (hId : r.localId = row.localId) :
    r.senderUsername = (c.extract row (uidMap f.db)).senderUsername := by
  obtain ⟨g, hg, table, c', hOrigin', hCols', row', hRow', hId', hSender⟩ := h r hr
  rw [hOrigin] at hOrigin'
  obtain ⟨hRel, rfl⟩ := WmKey.mk.inj hOrigin'
  obtain rfl := eq_of_rel_eq (mem_files_of_messageFiles hf).1 (mem_files_of_messageFiles hg).1 hRel
  obtain rfl : c = c' := Option.some.inj (hCols.symm.trans hCols')
  rw [msgRows_of_mem hm] at hRow'
  have hSame : row = row' :=
    List.inj_on_of_nodup_map (f.db.ids_nodup m hm) hRow hRow' (hId.symm.trans hId')
  rw [hSender, hSame]

/-- Every row of a listed table is stored by a build without failures. -/
theorem exists_record (hKeys : ∀ f ∈ w.files, keys f.rel = some f.key) (nowMs : Int)
    {f : Source} (hf : f ∈ w.messageFiles) {m : Table} (hm : m ∈ f.db.tables) {suffix : String}
    (hListed : (m.name, suffix) ∈ messageTables f.db) {c : MsgCols}
    (hCols : f.cols m.name = some c) {row : MsgRow} (hRow : row ∈ m.msgRows) :
    ∃ r ∈ (buildAllLive x me keys w {} {} nowMs).2.records,
      r.origin = f.wmKey m.name ∧ r.localId = row.localId := by
  have hSource : c.sourceRow (f.wmKey m.name) row ∈ w.sources := by
    refine List.mem_flatMap.mpr ⟨f, hf, List.mem_flatMap.mpr ⟨_, hListed, ?_⟩⟩
    rw [Source.tableSources, hCols, msgRows_of_mem hm]
    exact List.mem_map_of_mem hRow
  have hPerm : ((buildAllLive x me keys w {} {} nowMs).2.records.map MessageRecord.sourceRow).Perm
      w.sources := records_quietBuild hKeys nowMs
  obtain ⟨r, hr, hEq⟩ := List.mem_map.mp (hPerm.mem_iff.mpr hSource)
  exact ⟨r, hr, congrArg SourceRow.origin hEq, congrArg SourceRow.localId hEq⟩

/-! ## The catalogue -/

/-- The listed `Name2Id` table in terms of the names before it. -/
theorem name2idTable_eq_name {db : Db} {t : Table} (ht : t ∈ db.tables) :
    name2idTable db = some t.name ↔ db.before t.name < name2idTableCap ∧
      isName2id t.name = true ∧ ∀ t' ∈ db.tables, isName2id t'.name = true →
        db.before t'.name < name2idTableCap → t'.name ≤ t.name := by
  rw [name2idTable_eq_some, mem_tableNames]
  constructor
  · rintro ⟨⟨-, hBefore⟩, hName, hMax⟩
    refine ⟨hBefore, hName, fun t' ht' hName' hBefore' => hMax t'.name ?_ hName'⟩
    exact mem_tableNames.mpr ⟨List.mem_map_of_mem ht', hBefore'⟩
  · rintro ⟨hBefore, hName, hMax⟩
    refine ⟨⟨List.mem_map_of_mem ht, hBefore⟩, hName, fun n hn hName' => ?_⟩
    obtain ⟨hMem, hBefore'⟩ := mem_tableNames.mp hn
    obtain ⟨t', ht', rfl⟩ := List.mem_map.mp hMem
    exact hMax t' ht' hName' hBefore'

/-- A `Name2Id` table is found if one of them is listed. -/
theorem exists_name2idTable {db : Db} {t : Table} (ht : t ∈ db.tables)
    (hName : isName2id t.name = true) (hBefore : db.before t.name < name2idTableCap) :
    ∃ t' ∈ db.tables, isName2id t'.name = true ∧ name2idTable db = some t'.name := by
  cases hTable : name2idTable db with
  | none =>
    have hListed := mem_tableNames.mpr ⟨List.mem_map_of_mem ht, hBefore⟩
    rw [name2idTable_eq_none.mp hTable _ hListed] at hName
    cases hName
  | some n =>
    obtain ⟨hMem, hName', -⟩ := name2idTable_eq_some.mp hTable
    obtain ⟨t', ht', rfl⟩ := List.mem_map.mp (mem_tableNames.mp hMem).1
    exact ⟨t', ht', hName', rfl⟩

variable {f : Source}

/-- The sender the build finds for a row, if the `Name2Id` table can be probed. -/
theorem senderUsername_of_plain {c : MsgCols} {m t : Table} {row : MsgRow} {name : String}
    (hCols : f.cols m.name = some c) (ht : t ∈ f.db.tables)
    (hTable : name2idTable f.db = some t.name) (hPlain : isPlainIdent t.name = true)
    (h : f.Resolves m row t name) :
    (c.extract row (uidMap f.db)).senderUsername = name := by
  obtain ⟨c', hCols', hEmpty, hReal, hEntry⟩ := h
  obtain rfl : c = c' := Option.some.inj (hCols.symm.trans hCols')
  refine senderUsername_extract c row _ name hEmpty hReal ?_
  rw [uidMap, hTable]
  exact (lookup_loadUidMap ht hPlain).mpr hEntry

/-- Without a probe the sender stays empty. -/
theorem senderUsername_of_quoted {c : MsgCols} {m t : Table} {row : MsgRow} {name : String}
    (hCols : f.cols m.name = some c) (hTable : name2idTable f.db = some t.name)
    (hQuoted : isPlainIdent t.name = false) (h : f.Resolves m row t name) :
    (c.extract row (uidMap f.db)).senderUsername = "" := by
  obtain ⟨c', hCols', hEmpty, hReal, -⟩ := h
  obtain rfl : c = c' := Option.some.inj (hCols.symm.trans hCols')
  rw [uidMap, hTable, loadUidMap_quoted hQuoted]
  rcases hEmpty with hNone | hEmpty
  · simp [MsgCols.extract, hNone]
  · simp [MsgCols.extract, hEmpty]

/-! ## When a database is indexed -/

section

variable (hf : f ∈ w.messageFiles)
  (hReadable : ∀ m ∈ f.db.tables, (msgSuffix m.name).isSome → f.cols m.name ≠ none)

include hf hReadable

theorem indexed_of_withinCaps (hKeys : ∀ f ∈ w.files, keys f.rel = some f.key)
    (h : WithinCaps f) (nowMs : Int) :
    Indexed f (buildAllLive x me keys w {} {} nowMs).2 where
  tables name suffix := by
    rw [mem_messageTables, ← msgSuffix_eq_some]
    constructor
    · rintro ⟨hMem, -, hSuffix⟩
      exact ⟨hMem, hSuffix⟩
    · rintro ⟨hMem, hSuffix⟩
      obtain ⟨m, hm, rfl⟩ := List.mem_map.mp hMem
      exact ⟨hMem, h.messages m hm (by rw [hSuffix]; rfl), hSuffix⟩
  name2id hSome := by
    obtain ⟨t, ht, hName, hBefore⟩ := h.name2id hSome
    exact exists_name2idTable ht hName hBefore
  rows m hm hMsg row hRow := by
    obtain ⟨suffix, hSuffix⟩ := Option.isSome_iff_exists.mp hMsg
    obtain ⟨c, hCols⟩ := Option.ne_none_iff_exists'.mp (hReadable m hm hMsg)
    have hListed := mem_messageTables.mpr
      ⟨List.mem_map_of_mem hm, h.messages m hm hMsg, hSuffix⟩
    exact exists_record hKeys nowMs hf hm hListed hCols hRow
  senders m hm hMsg row hRow t ht hTable name hResolves r hr hOrigin hId := by
    obtain ⟨hBefore, hName, hMax⟩ := (name2idTable_eq_name ht).mp hTable
    obtain ⟨c, hCols⟩ := Option.ne_none_iff_exists'.mp (hReadable m hm hMsg)
    rw [(senders_buildAllLive x me keys w {} {} nowMs).senderUsername hf hm hRow hCols hr hOrigin
      hId]
    cases hPlain : isPlainIdent t.name with
    | true => exact senderUsername_of_plain hCols ht hTable hPlain hResolves
    | false =>
      rw [senderUsername_of_quoted hCols hTable hPlain hResolves]
      rcases h.plain t ht hName hBefore hMax with hTrue | hNone
      · rw [hPlain] at hTrue
        cases hTrue
      · exact (hNone m hm hMsg row hRow name hResolves).symm

theorem withinCaps_of_indexed {nowMs : Int}
    (h : Indexed f (buildAllLive x me keys w {} {} nowMs).2) : WithinCaps f where
  messages m hm hMsg := by
    obtain ⟨suffix, hSuffix⟩ := Option.isSome_iff_exists.mp hMsg
    have hListed := (h.tables m.name suffix).mpr
      ⟨List.mem_map_of_mem hm, msgSuffix_eq_some.mp hSuffix⟩
    exact (mem_messageTables.mp hListed).2.1
  name2id hSome := by
    obtain ⟨t, ht, hName, hTable⟩ := h.name2id hSome
    exact ⟨t, ht, hName, ((name2idTable_eq_name ht).mp hTable).1⟩
  plain t ht hName hBefore hMax := by
    have hTable := (name2idTable_eq_name ht).mpr ⟨hBefore, hName, hMax⟩
    cases hPlain : isPlainIdent t.name with
    | true => exact .inl rfl
    | false =>
      right
      intro m hm hMsg row hRow name hResolves
      obtain ⟨c, hCols⟩ := Option.ne_none_iff_exists'.mp (hReadable m hm hMsg)
      obtain ⟨r, hr, hOrigin, hId⟩ := h.rows m hm hMsg row hRow
      have hSender := h.senders m hm hMsg row hRow t ht hTable name hResolves r hr hOrigin hId
      rw [← hSender, (senders_buildAllLive x me keys w {} {} nowMs).senderUsername hf hm hRow hCols
        hr hOrigin hId]
      exact senderUsername_of_quoted hCols hTable hPlain hResolves

end

/-- **Every row with its sender.** A build that can read everything indexes a message file
completely if and only if the file is within the caps. -/
theorem indexed_iff (x : Codec) (me : String) (keys : KeyMap) (w : World)
    (hKeys : ∀ f ∈ w.files, keys f.rel = some f.key) {f : Source} (hf : f ∈ w.messageFiles)
    (hReadable : ∀ m ∈ f.db.tables, (msgSuffix m.name).isSome → f.cols m.name ≠ none)
    (nowMs : Int) :
    Indexed f (buildAllLive x me keys w {} {} nowMs).2 ↔ WithinCaps f :=
  ⟨withinCaps_of_indexed hf hReadable, fun h => indexed_of_withinCaps hf hReadable hKeys h nowMs⟩

end

/-! ## Five hundred conversations -/

/-- A file with that content, which opens with the empty key. -/
def Source.message (db : Db) : Source := ⟨⟨"message_0.db", .message⟩, "", ⟨none, none⟩, 0, db⟩

def World.message (db : Db) : World where
  files := [.message db]
  rels_nodup := List.nodup_singleton _

/-- The names of senders by id. -/
def name2id0 : Table := ⟨"Name2Id0", ["user_name"], .uids [{ rowid := 1, userName := some "a" }]⟩

/-- A message table whose one row has its sender in `Name2Id0`. -/
def sentByA (name : String) : Table :=
  ⟨name, "real_sender_id" :: Increment.fullColumns, .messages [{ localId := 1, realSenderId := 1 }]⟩

@[simp] theorem name_sentByA (name : String) : (sentByA name).name = name := rfl

/-- One conversation. -/
def Db.oneChat : Db where
  tables := [sentByA "Msg_0123456789abcdef", name2id0]
  names_nodup := by decide
  ids_nodup := by decide
  ids_pos := by decide
  rowids_nodup := by decide

theorem withinCaps_oneChat : WithinCaps (.message .oneChat) where
  messages := by decide
  name2id _ := ⟨name2id0, by decide, by decide, by decide⟩
  plain t ht hName _ _ := by
    rcases List.mem_pair.mp ht with rfl | rfl
    · exact absurd hName (by decide)
    · exact .inl (by decide)

theorem indexed_oneChat :
    Indexed (.message .oneChat)
      (buildAllLive (.blank "") "" (fun _ => some "") (.message .oneChat) {} {} 0).2 :=
  (indexed_iff (.blank "") "" (fun _ => some "") (.message .oneChat)
    (fun f hf => by obtain rfl := List.mem_singleton.mp hf; rfl) (List.mem_singleton_self _)
    (by decide) 0).mpr withinCaps_oneChat

def digitOf (d : Nat) : Char := Char.ofNat (48 + d % 10)

def chatDigits (i : Nat) : List Char :=
  digitOf (i / 100) :: digitOf (i / 10) :: digitOf i :: List.replicate 13 '0'

/-- The name of the `i`-th message table. -/
def chatName (i : Nat) : String := String.ofList ('M' :: 's' :: 'g' :: '_' :: chatDigits i)

theorem toList_chatName (i : Nat) :
    (chatName i).toList = 'M' :: 's' :: 'g' :: '_' :: chatDigits i := String.toList_ofList

theorem toLower_digitOf (d : Nat) : (digitOf d).toLower = digitOf d := by
  have hAll : ∀ k < 10, (Char.ofNat (48 + k)).toLower = Char.ofNat (48 + k) := by decide
  exact hAll _ (Nat.mod_lt d (by decide))

theorem digitOf_inj {a b : Nat} (h : digitOf a = digitOf b) : a % 10 = b % 10 := by
  have hAll : ∀ k < 10, ∀ l < 10, Char.ofNat (48 + k) = Char.ofNat (48 + l) → k = l := by decide
  exact hAll _ (Nat.mod_lt a (by decide)) _ (Nat.mod_lt b (by decide)) h

theorem asciiLower_chatName (i : Nat) :
    asciiLower (chatName i) = 'm' :: 's' :: 'g' :: '_' :: chatDigits i := by
  have hDigits : (chatDigits i).map Char.toLower = chatDigits i := by
    simp only [chatDigits, List.map_cons, List.map_replicate, toLower_digitOf]
    rfl
  rw [asciiLower, toList_chatName]
  simp only [List.map_cons, hDigits]
  rfl

theorem chatName_inj {i j : Nat} (hi : i < 500) (hj : j < 500)
    (h : asciiLower (chatName i) = asciiLower (chatName j)) : i = j := by
  rw [asciiLower_chatName, asciiLower_chatName] at h
  simp only [chatDigits, List.cons.injEq, and_true, true_and] at h
  have h₁ := digitOf_inj h.1
  have h₂ := digitOf_inj h.2.1
  have h₃ := digitOf_inj h.2.2
  omega

theorem chatName_lt (i : Nat) : chatName i < "Name2Id0" := by
  rw [String.lt_iff_toList_lt, toList_chatName]
  exact List.cons_lt_cons_iff.mpr (.inl (by decide))

theorem isName2id_chatName (i : Nat) : isName2id (chatName i) = false := by
  rw [isName2id, asciiLower_chatName]
  rfl

/-- The first `n` conversations. -/
def chats (n : Nat) : List Table := (List.range n).map fun i => sentByA (chatName i)

theorem mem_chats {n : Nat} {t : Table} : t ∈ chats n ↔ ∃ i < n, sentByA (chatName i) = t := by
  simp [chats]

theorem chats_names_nodup {n : Nat} (hn : n ≤ 500) :
    ((chats n ++ [name2id0]).map fun t => asciiLower t.name).Nodup := by
  have hChats : (chats n).map (fun t => asciiLower t.name) =
      (List.range n).map fun i => asciiLower (chatName i) := by
    simp only [chats, List.map_map, Function.comp_def, name_sentByA]
  rw [List.map_append, hChats, List.nodup_append]
  refine ⟨List.nodup_range.map_on fun i hi j hj h => ?_, List.nodup_singleton _, ?_⟩
  · exact chatName_inj ((List.mem_range.mp hi).trans_le hn) ((List.mem_range.mp hj).trans_le hn) h
  · intro a ha b hb hEq
    obtain ⟨i, -, rfl⟩ := List.mem_map.mp ha
    obtain rfl := List.mem_singleton.mp hb
    rw [asciiLower_chatName] at hEq
    exact absurd (List.head_eq_of_cons_eq hEq) (by decide)

/-- All of them sort before `Name2Id0`. -/
theorem before_name2id0 (n : Nat) :
    ((chats n ++ [name2id0]).filter fun t => t.name < "Name2Id0").length = n := by
  have hChats : (chats n).filter (fun t => t.name < "Name2Id0") = chats n := by
    refine List.filter_eq_self.mpr fun t ht => ?_
    obtain ⟨i, -, rfl⟩ := mem_chats.mp ht
    exact decide_eq_true (chatName_lt i)
  have hSelf : [name2id0].filter (fun t => t.name < "Name2Id0") = [] := by decide
  rw [List.filter_append, hChats, hSelf, List.append_nil, chats, List.length_map,
    List.length_range]

/-- At most five hundred conversations. -/
def Db.crowded (n : Nat) (hn : n ≤ 500) : Db where
  tables := chats n ++ [name2id0]
  names_nodup := chats_names_nodup hn
  ids_nodup t ht := by
    rcases List.mem_append.mp ht with ht | ht
    · obtain ⟨i, -, rfl⟩ := mem_chats.mp ht
      exact List.nodup_singleton _
    · obtain rfl := List.mem_singleton.mp ht
      exact List.nodup_nil
  ids_pos t ht r hr := by
    rcases List.mem_append.mp ht with ht | ht
    · obtain ⟨i, -, rfl⟩ := mem_chats.mp ht
      obtain rfl := List.mem_singleton.mp hr
      exact Int.one_pos
    · obtain rfl := List.mem_singleton.mp ht
      cases hr
  rowids_nodup t ht := by
    rcases List.mem_append.mp ht with ht | ht
    · obtain ⟨i, -, rfl⟩ := mem_chats.mp ht
      exact List.nodup_nil
    · obtain rfl := List.mem_singleton.mp ht
      exact List.nodup_singleton _

/-- Behind five hundred conversations `Name2Id0` is not found. -/
theorem name2id_behind_conversations :
    ¬Indexed (.message (.crowded 500 le_rfl))
      (buildAllLive (.blank "") "" (fun _ => some "") (.message (.crowded 500 le_rfl)) {} {} 0).2 := by
  intro h
  have hMem : name2id0 ∈ chats 500 ++ [name2id0] :=
    List.mem_append_right _ (List.mem_singleton_self _)
  obtain ⟨t, ht, hName, hTable⟩ := h.name2id ⟨name2id0, hMem, by decide⟩
  obtain ⟨hListed, -⟩ := (name2idTable_eq_name ht).mp hTable
  rcases List.mem_append.mp ht with ht | ht
  · obtain ⟨i, -, rfl⟩ := mem_chats.mp ht
    have hNot : isName2id (chatName i) = true := hName
    rw [isName2id_chatName] at hNot
    cases hNot
  · obtain rfl := List.mem_singleton.mp ht
    have hBefore : (Source.message (.crowded 500 le_rfl)).db.before "Name2Id0" = 500 :=
      before_name2id0 500
    exact absurd (hBefore ▸ hListed) (lt_irrefl 500)

end Weflow
