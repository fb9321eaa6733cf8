import Mathlib.Data.Finset.Max
import Weflow.Export.History
import Weflow.Lib.Scan

/-!
# The handles of a reused conversation

`reused_dangling_handles` in `cli.rs`: the artifacts of the reused sessions are searched for
`"fileName":"`, and every name found is looked up in the media directory. The text that a writer
leaves is known (`exportSession_bytes`), so what the search finds is known too: the names of the
media, as they are written (`handlesIn_sessionBytes`). It reports the sessions whose media are not
there when no name is empty and none has a character that JSON escapes
(`reusedDanglingHandles_iff`).
-/

namespace Weflow.Export

open Effects
open Json (Value object scan scanned strings Unescaped)

/-! ## The text of an artifact -/

/-- The bytes of a session's file. -/
def sessionBytes (J : Json.Text) (format : Format) (target : SessionTarget) (now : Int64)
    (rows : List Row) : List UInt8 :=
  match format with
  | .jsonl => linesBytes J (sessionLines target now rows)
  | .json => Utf8.encode (J.render
      (document (sessionLines target now rows) (membersOf rows))).toList

theorem complete_sessionBytes (J : Json.Text) (format : Format) (target : SessionTarget)
    (now : Int64) (rows : List Row) :
    Complete J format target now rows (sessionBytes J format target now rows) := by
  cases format with
  | jsonl => exact complete_jsonl J target now rows
  | json => exact complete_json J target now rows

section

variable {K : Type} [DecidableEq K] {H : Host K} {target : SessionTarget} {opts : Options}
  {env : SessionEnv} {stem : String} {d : Files.Disk K}

open SessionWriter (new Live Progress)

/-- What stands in the `.part` file of a writer that can be finished. -/
theorem finishInner_bytes {w : SessionWriter} {rows : List Row} {n : UInt64}
    (hProgress : Progress H (new H target opts stem) target env.now rows w d)
    (hOk : (w.finishInner H env).result d = .ok n) :
    (w.finishInner H env).after d (H.key (opts.part H stem)) =
      some (.file (sessionBytes H.json opts.format target env.now rows)) := by
  have hPart : w.part = opts.part H stem := hProgress.same.part
  have hFormat : w.format = opts.format := hProgress.same.format
  rw [SessionWriter.finishInner] at hOk ⊢
  rcases hProgress.content with ⟨hLines, hSink, hContent⟩ | ⟨hJson, hSink, hMembers⟩
  · simp only [hSink] at hOk ⊢
    rw [Act.after_pure, ← hPart, hContent, ← hFormat, hLines]
    rfl
  · have hAll : w.members = membersOf rows := congrArg Prod.snd hMembers
    simp only [hSink, hAll] at hOk ⊢
    split at hOk
    · cases hOk
    · rename_i hClean
      rw [if_neg hClean]
      rw [Act.result_bind] at hOk
      rw [Act.after_bind]
      cases hDone : (Files.write H.key (some w.talker) env.writeFault w.part (Utf8.encode
          (H.json.render (document (sessionLines target env.now rows) (membersOf rows))).toList)
          ).result d with
      | false =>
        rw [hDone] at hOk
        cases hOk
      | true =>
        rw [if_pos rfl, Act.after_pure, Files.write_after hDone, hPart, Function.update_self,
          ← hFormat, hJson]
        rfl

/-- A session that is written leaves the text of the rows its fetch handed over. -/
theorem exportSession_bytes (hHonest : env.fetch.Honest) {n : UInt64}
    (h : ((exportSession H target opts env stem).result d).1 = .ok n) :
    (exportSession H target opts env stem).after d (H.key (opts.path H stem)) =
      some (.file (sessionBytes H.json opts.format target env.now
        (writtenRows ((exportSession H target opts env stem).result d).2))) := by
  have hBeginHolds := SessionWriter.begin_holds H target opts env stem d d rfl
  rw [exportSession, Act.result_bind] at h ⊢
  rw [Act.after_bind]
  cases hBegin : (SessionWriter.begin H target opts env stem).result d with
  | error e =>
    rw [hBegin] at h
    cases h
  | ok w =>
    obtain ⟨-, hProgress⟩ := hBeginHolds.2.2 w hBegin
    rw [hBegin] at h
    dsimp only at h ⊢
    generalize (SessionWriter.begin H target opts env stem).after d = s at h hProgress ⊢
    rw [Act.result_bind] at h ⊢
    rw [Act.after_bind]
    cases hDrive : ((w.drive H env.fetch).result s).1 with
    | error e =>
      rw [hDrive] at h
      cases h
    | ok u =>
      have hDriven := SessionWriter.drive_progress H hHonest hProgress hDrive
      rw [List.nil_append] at hDriven
      simp only [hDrive, Act.result_bind, Act.after_bind, Act.result_pure, Act.after_pure] at h ⊢
      generalize (w.drive H env.fetch).result s = driven at h hDriven ⊢
      generalize (w.drive H env.fetch).after s = s' at h hDriven ⊢
      have hPart : driven.2.1.part = opts.part H stem := hDriven.same.part
      have hPath : driven.2.1.path = opts.path H stem := hDriven.same.path
      rw [SessionWriter.finish, Act.result_bind] at h
      rw [SessionWriter.finish, Act.after_bind]
      cases hInner : (driven.2.1.finishInner H env).result s' with
      | error e =>
        rw [hInner] at h
        cases h
      | ok m =>
        have hBytes := finishInner_bytes hDriven hInner
        rw [hInner] at h
        dsimp only at h ⊢
        rw [Act.result_bind] at h
        rw [Act.after_bind]
        cases hRename : (Files.rename H.key (some driven.2.1.talker) env.renameFails
            driven.2.1.part driven.2.1.path).result
            ((driven.2.1.finishInner H env).after s') with
        | false =>
          rw [hRename] at h
          cases h
        | true =>
          rw [if_pos rfl, Act.after_pure, Files.rename_after hRename, hPath, Function.update_self,
            hPart, hBytes]

end

/-! ## The media names of an artifact -/

/-- `media.fileName` of a message. -/
def mediaFileName (message : Value) : Option String :=
  ((message.get "media").bind (·.get "fileName")).bind (·.asStr)

/-- The media names of an artifact, none if it cannot be read. -/
def mediaNames (J : Json.Text) (format : Format) (bytes : List UInt8) : Option (List String) :=
  match format with
  | .jsonl => (readLines J bytes).map fun lines => lines.filterMap mediaFileName
  | .json => (readDocument J bytes).map fun doc =>
      (((doc.get "messages").bind (·.asArray)).getD []).filterMap mediaFileName

/-- The media name of a row, which needs a media type as well. -/
def Row.mediaName (r : Row) : Option String :=
  r.mediaFileName.bind fun f => r.mediaType.map fun _ => f

theorem get_set_self {v w : Value} {k : String} (h : ∃ fs, v = .obj fs) :
    (v.set k w).get k = some w := by
  obtain ⟨fs, rfl⟩ := h
  rw [Value.set, Value.get, Json.find_insertField, if_pos rfl]
  rfl

theorem get_set_ne {v w : Value} {k key : String} (hNe : k ≠ key) :
    (v.set k w).get key = v.get key := by
  cases v with
  | obj fs => rw [Value.set, Value.get, Json.find_insertField, if_neg hNe, Value.get]
  | null => rfl
  | bool b => rfl
  | int i => rfl
  | float l => rfl
  | str s => rfl
  | arr vs => rfl

theorem get_remove_ne {v : Value} {k key : String} (hNe : k ≠ key) :
    (v.remove k).get key = v.get key := by
  cases v with
  | obj fs =>
    have hFind : ∀ f : String × Value,
        decide ((f.1 != k) = true ∧ (f.1 == key) = true) = (f.1 == key) := by
      intro f
      by_cases hf : f.1 = key
      · simp [hf, Ne.symm hNe]
      · simp [hf]
    rw [Value.remove, Value.get, Value.get, List.find?_filter]
    exact congrArg (fun p : String × Value → Bool => (fs.find? p).map (·.2)) (funext hFind)
  | null => rfl
  | bool b => rfl
  | int i => rfl
  | float l => rfl
  | str s => rfl
  | arr vs => rfl

theorem exists_obj_set {v w : Value} {k : String} (h : ∃ fs, v = .obj fs) :
    ∃ fs, v.set k w = .obj fs := by
  obtain ⟨fs, rfl⟩ := h
  exact ⟨_, rfl⟩

theorem exists_obj_setNonempty {v : Value} {k s : String} (h : ∃ fs, v = .obj fs) :
    ∃ fs, setNonempty k s v = .obj fs := by
  rw [setNonempty]
  split
  · exact h
  · exact exists_obj_set h

theorem exists_obj_setSome {v : Value} {k : String} {new : Option Value}
    (h : ∃ fs, v = .obj fs) : ∃ fs, setSome k new v = .obj fs := by
  cases new with
  | none => exact h
  | some w => exact exists_obj_set h

/-- The media object of a message. -/
def mediaObject (r : Row) : Option Value :=
  r.mediaFileName.bind fun f => r.mediaType.map fun t =>
    object [("type", .str t), ("fileName", .str f)]

theorem get_media (r : Row) : (messageLine r).get "media" = mediaObject r := by
  have hObj : ∃ fs, setSome "replyToMessageId" (r.replyToMessageId.map .str)
      (setNonempty "groupNickname" r.groupNickname (object [
        ("_type", .str "message"), ("platformMessageId", .str r.platformMessageId),
        ("sender", .str r.sender), ("accountName", .str r.accountName),
        ("timestamp", .int r.timestamp.toInt), ("type", .int r.msgType.toInt),
        ("content", .str r.content)])) = .obj fs :=
    exists_obj_setSome (exists_obj_setNonempty ⟨_, rfl⟩)
  rw [messageLine, ← mediaObject]
  cases hMedia : mediaObject r with
  | some w => exact get_set_self hObj
  | none =>
    rw [setSome, Option.elim_none, setSome]
    have hInner : (setNonempty "groupNickname" r.groupNickname (object [
        ("_type", .str "message"), ("platformMessageId", .str r.platformMessageId),
        ("sender", .str r.sender), ("accountName", .str r.accountName),
        ("timestamp", .int r.timestamp.toInt), ("type", .int r.msgType.toInt),
        ("content", .str r.content)])).get "media" = none := by
      rw [setNonempty]
      split
      · simp [Json.get_object]
      · rw [get_set_ne (by decide)]
        simp [Json.get_object]
    cases r.replyToMessageId with
    | none => exact hInner
    | some reply => exact (get_set_ne (by decide)).trans hInner

theorem mediaFileName_messageLine (r : Row) : mediaFileName (messageLine r) = r.mediaName := by
  rw [mediaFileName, get_media, mediaObject, Row.mediaName]
  cases r.mediaFileName with
  | none => rfl
  | some f =>
    cases r.mediaType with
    | none => rfl
    | some t => simp [Json.get_object, Value.asStr]

theorem mediaFileName_remove (r : Row) :
    mediaFileName ((messageLine r).remove "_type") = r.mediaName := by
  rw [← mediaFileName_messageLine, mediaFileName, mediaFileName, get_remove_ne (by decide)]

theorem mediaFileName_headerLine (target : SessionTarget) (now : Int64) :
    mediaFileName (headerLine target now) = none := by
  simp [mediaFileName, headerLine, Json.get_object]

/-- The media names of an artifact are those of its rows. -/
theorem mediaNames_of_complete {J : Json.Text} {format : Format} {target : SessionTarget}
    {now : Int64} {rows : List Row} {bytes : List UInt8}
    (h : Complete J format target now rows bytes) :
    mediaNames J format bytes = some (rows.filterMap Row.mediaName) := by
  cases format with
  | jsonl =>
    have hLines : readLines J bytes = some (sessionLines target now rows) := h
    rw [mediaNames, hLines, Option.map_some, sessionLines,
      List.filterMap_cons_none (mediaFileName_headerLine target now), List.filterMap_map]
    exact congrArg (fun f => some (rows.filterMap f)) (funext mediaFileName_messageLine)
  | json =>
    have hDoc : readDocument J bytes =
      some (document (sessionLines target now rows) (membersOf rows)) := h
    have hMessages : (document (sessionLines target now rows) (membersOf rows)).get "messages" =
        some (.arr ((rows.map messageLine).map (·.remove "_type"))) := by
      simp [document, Json.get_object, sessionLines]
    rw [mediaNames, hDoc, Option.map_some, hMessages, Option.bind_some, Value.asArray,
      Option.getD_some, List.map_map, List.filterMap_map]
    exact congrArg (fun f => some (rows.filterMap f)) (funext mediaFileName_remove)

/-! ## The strings of an artifact -/

/-- The key that the search looks for. -/
def handleKey : List Char := ['f', 'i', 'l', 'e', 'N', 'a', 'm', 'e']

theorem handleKey_alphanum : ∀ c ∈ handleKey, c.isAlphanum = true :=
  List.all_eq_true.mp (by decide)

theorem handleKey_ne_nil : handleKey ≠ [] := List.cons_ne_nil _ _

theorem fileName_key : "fileName".toList = handleKey := String.toList_ofList

/-- The other keys of an exported document. -/
def fieldKeys : List String :=
  ["_type", "platformMessageId", "sender", "accountName", "timestamp", "type", "content",
    "groupNickname", "replyToMessageId", "media", "platformId", "version", "generator",
    "exportedAt", "name", "platform", "groupId", "chatlab", "meta", "members", "messages"]

theorem fieldKeys_all :
    fieldKeys.all (fun k => Json.isPlainKey k && k.toList != handleKey) = true := by decide +kernel

theorem fieldKeys_spec {k : String} (h : k ∈ fieldKeys) :
    Json.isPlainKey k = true ∧ k.toList ≠ handleKey := by
  simpa using List.all_eq_true.mp fieldKeys_all k h

theorem isPlainKey_fileName : Json.isPlainKey "fileName" = true := by
  rw [Json.isPlainKey, fileName_key]
  decide

@[simp] theorem strings_str (s : String) : strings handleKey (.str s) = [] := rfl

@[simp] theorem strings_int (i : Int) : strings handleKey (.int i) = [] := rfl

section

variable {s : String} {v : Value} {key : String}

theorem of_mem_setNonempty {t : String} (hKey : key.toList ≠ handleKey)
    (h : s ∈ strings handleKey (setNonempty key t v)) : s ∈ strings handleKey v := by
  rw [setNonempty] at h
  split at h
  · exact h
  · rcases Json.of_mem_set h with (hOwn | hIn) | hOld
    · rw [Json.fieldStrings, if_neg hKey] at hOwn
      cases hOwn
    · rw [strings_str] at hIn
      cases hIn
    · exact hOld

theorem of_mem_setSome {new : Option Value} (hKey : key.toList ≠ handleKey)
    (h : s ∈ strings handleKey (setSome key new v)) :
    s ∈ strings handleKey v ∨ ∃ w, new = some w ∧ s ∈ strings handleKey w := by
  cases new with
  | none => exact .inl h
  | some w =>
    rcases Json.of_mem_set h with (hOwn | hIn) | hOld
    · rw [Json.fieldStrings, if_neg hKey] at hOwn
      cases hOwn
    · exact .inr ⟨w, rfl, hIn⟩
    · exact .inl hOld

theorem plainKeys_setNonempty {t : String} (hKey : Json.isPlainKey key = true) (h : v.PlainKeys) :
    (setNonempty key t v).PlainKeys := by
  rw [setNonempty]
  split
  · exact h
  · exact Json.plainKeys_set (Json.unescaped_key hKey) h (Json.plainKeys_str t)

theorem plainKeys_setSome {new : Option Value} (hKey : Json.isPlainKey key = true)
    (h : v.PlainKeys) (hNew : ∀ w, new = some w → w.PlainKeys) : (setSome key new v).PlainKeys := by
  cases new with
  | none => exact h
  | some w => exact Json.plainKeys_set (Json.unescaped_key hKey) h (hNew w rfl)

end

/-- An object with keys of the document. -/
theorem plainKeys_fields {fs : List (String × Value)}
    (hKeys : ∀ k ∈ fs.map (·.1), k ∈ "fileName" :: fieldKeys) (h : ∀ f ∈ fs, f.2.PlainKeys) :
    (object fs).PlainKeys := by
  refine Json.plainKeys_fields (List.all_eq_true.mpr fun k hk => ?_) h
  rcases List.mem_cons.mp (hKeys k hk) with rfl | hField
  · exact isPlainKey_fileName
  · exact (fieldKeys_spec hField).1

theorem not_mem_fields {fs : List (String × Value)} {s : String}
    (hKeys : ∀ k ∈ fs.map (·.1), k ∈ fieldKeys) (h : ∀ f ∈ fs, s ∉ strings handleKey f.2) :
    s ∉ strings handleKey (object fs) :=
  Json.not_mem_object (List.all_eq_true.mpr fun k hk =>
    bne_iff_ne.mpr (fieldKeys_spec (hKeys k hk)).2) h

theorem plainKeys_messageLine (r : Row) : (messageLine r).PlainKeys := by
  refine plainKeys_setSome (fieldKeys_spec (by simp [fieldKeys])).1
    (plainKeys_setSome (fieldKeys_spec (by simp [fieldKeys])).1
      (plainKeys_setNonempty (fieldKeys_spec (by simp [fieldKeys])).1
        (plainKeys_fields (by simp [fieldKeys]) (by simp))) ?_) ?_
  · intro w hw
    obtain ⟨rep, -, rfl⟩ := Option.map_eq_some_iff.mp hw
    exact Json.plainKeys_str rep
  · intro w hw
    obtain ⟨f, -, hw⟩ := Option.bind_eq_some_iff.mp hw
    obtain ⟨t, -, rfl⟩ := Option.map_eq_some_iff.mp hw
    exact plainKeys_fields (by simp [fieldKeys]) (by simp)

theorem plainKeys_memberLine (r : Row) : (memberLine r).PlainKeys :=
  plainKeys_setNonempty (fieldKeys_spec (by simp [fieldKeys])).1
    (plainKeys_fields (by simp [fieldKeys]) (by simp))

theorem plainKeys_headerLine (target : SessionTarget) (now : Int64) :
    (headerLine target now).PlainKeys := by
  have hChatlab : (object [("version", .str formatVersion), ("generator", .str generator),
      ("exportedAt", .int now.toInt)]).PlainKeys :=
    plainKeys_fields (by simp [fieldKeys]) (by simp)
  have hMeta : (object [("name", .str target.displayName), ("platform", .str platformName),
      ("type", .str (sessionType target.talker)), ("groupId", .str target.talker)]).PlainKeys :=
    plainKeys_fields (by simp [fieldKeys]) (by simp)
  exact plainKeys_fields (by simp [fieldKeys]) (by simp [hChatlab, hMeta])

/-- A message has the strings of its media. -/
theorem of_mem_messageLine {r : Row} {s : String} (h : s ∈ strings handleKey (messageLine r)) :
    r.mediaName = some s := by
  rw [messageLine] at h
  rcases of_mem_setSome (fieldKeys_spec (by simp [fieldKeys])).2 h with h | ⟨w, hw, hIn⟩
  · exfalso
    rcases of_mem_setSome (fieldKeys_spec (by simp [fieldKeys])).2 h with h | ⟨w, hw, hIn⟩
    · exact not_mem_fields (by simp [fieldKeys]) (by simp)
        (of_mem_setNonempty (fieldKeys_spec (by simp [fieldKeys])).2 h)
    · obtain ⟨rep, -, rfl⟩ := Option.map_eq_some_iff.mp hw
      rw [strings_str] at hIn
      cases hIn
  · obtain ⟨f, hf, hw⟩ := Option.bind_eq_some_iff.mp hw
    obtain ⟨t, ht, rfl⟩ := Option.map_eq_some_iff.mp hw
    obtain ⟨field, hField, hOwn | hIn⟩ := Json.of_mem_object hIn
    · have hType : "type".toList ≠ handleKey := (fieldKeys_spec (by simp [fieldKeys])).2
      simp only [List.mem_cons, List.not_mem_nil, or_false] at hField
      rcases hField with rfl | rfl
      · simp only [Json.fieldStrings, if_neg hType, List.not_mem_nil] at hOwn
      · simp only [Json.fieldStrings, if_pos fileName_key, Value.asStr, Option.mem_toList,
          Option.some.injEq] at hOwn
        rw [Row.mediaName, hf, Option.bind_some, ht, hOwn]
        rfl
    · simp only [List.mem_cons, List.not_mem_nil, or_false] at hField
      rcases hField with rfl | rfl <;> simp at hIn

/-- The media name of a message is one of its strings. -/
theorem mem_of_mediaFileName {v : Value} {s : String} (h : mediaFileName v = some s) :
    s ∈ strings handleKey v := by
  rw [mediaFileName, Option.bind_eq_some_iff] at h
  obtain ⟨w, hw, hs⟩ := h
  obtain ⟨media, hMedia, hw⟩ := Option.bind_eq_some_iff.mp hw
  refine Json.mem_of_get hMedia (.inr (Json.mem_of_get hw (.inl ?_)))
  rw [Json.fieldStrings, if_pos fileName_key, hs]
  exact List.mem_singleton_self s

theorem not_mem_memberLine (r : Row) (s : String) : s ∉ strings handleKey (memberLine r) := by
  intro h
  exact not_mem_fields (by simp [fieldKeys]) (by simp)
    (of_mem_setNonempty (fieldKeys_spec (by simp [fieldKeys])).2 h)

theorem not_mem_headerLine (target : SessionTarget) (now : Int64) (s : String) :
    s ∉ strings handleKey (headerLine target now) := by
  have hChatlab : s ∉ strings handleKey (object [("version", .str formatVersion),
      ("generator", .str generator), ("exportedAt", .int now.toInt)]) :=
    not_mem_fields (by simp [fieldKeys]) (by simp)
  have hMeta : s ∉ strings handleKey (object [("name", .str target.displayName),
      ("platform", .str platformName), ("type", .str (sessionType target.talker)),
      ("groupId", .str target.talker)]) :=
    not_mem_fields (by simp [fieldKeys]) (by simp)
  exact not_mem_fields (by simp [fieldKeys]) (by simp [hChatlab, hMeta])

theorem mem_membersOf {rows : List Row} {v : Value} (h : v ∈ membersOf rows) :
    ∃ r, v = memberLine r := by
  have hFold : ∀ (rows : List Row) (acc : List String × List Value),
      (∀ v ∈ acc.2, ∃ r, v = memberLine r) →
        ∀ v ∈ (rows.foldl meetRow acc).2, ∃ r, v = memberLine r := by
    intro rows
    induction rows with
    | nil => exact fun acc h => h
    | cons r rows ih =>
      intro acc h
      refine ih _ fun v hv => ?_
      rw [meetRow] at hv
      split at hv
      · exact h v hv
      · rcases List.mem_append.mp hv with hv | hv
        · exact h v hv
        · exact ⟨r, List.mem_singleton.mp hv⟩
  exact hFold rows ([], []) (by simp) v h

section

variable {target : SessionTarget} {now : Int64} {rows : List Row}

/-- The fields of the document. -/
theorem document_eq : document (sessionLines target now rows) (membersOf rows) = object [
    ("chatlab", ((headerLine target now).get "chatlab").getD (object [])),
    ("meta", ((headerLine target now).get "meta").getD (object [])),
    ("members", .arr (membersOf rows)),
    ("messages", .arr ((rows.map messageLine).map (·.remove "_type")))] := rfl

theorem header_field (k : String) :
    (((headerLine target now).get k).getD (object [])).PlainKeys ∧
      ∀ s, s ∉ strings handleKey (((headerLine target now).get k).getD (object [])) := by
  cases hGet : (headerLine target now).get k with
  | none =>
    exact ⟨Json.plainKeys_object (by simp), fun s h => by
      obtain ⟨f, hf, -⟩ := Json.of_mem_object h
      cases hf⟩
  | some v =>
    exact ⟨Json.plainKeys_get (plainKeys_headerLine target now) hGet, fun s h =>
      not_mem_headerLine target now s (Json.mem_of_get hGet (.inr h))⟩

theorem plainKeys_document :
    (document (sessionLines target now rows) (membersOf rows)).PlainKeys := by
  have hMembers : (Value.arr (membersOf rows)).PlainKeys := by
    refine Json.plainKeys_arr.mpr fun v hv => ?_
    obtain ⟨r, rfl⟩ := mem_membersOf hv
    exact plainKeys_memberLine r
  have hMessages : (Value.arr ((rows.map messageLine).map (·.remove "_type"))).PlainKeys := by
    refine Json.plainKeys_arr.mpr fun v hv => ?_
    obtain ⟨w, hw, rfl⟩ := List.mem_map.mp hv
    obtain ⟨r, -, rfl⟩ := List.mem_map.mp hw
    exact Json.plainKeys_remove (plainKeys_messageLine r)
  rw [document_eq]
  refine plainKeys_fields (by simp [fieldKeys]) ?_
  simp only [List.forall_mem_cons, List.not_mem_nil, false_implies, implies_true, and_true]
  exact ⟨(header_field _).1, (header_field _).1, hMembers, hMessages⟩

/-- The strings of the document are the names of the media. -/
theorem mem_strings_document {s : String} :
    s ∈ strings handleKey (document (sessionLines target now rows) (membersOf rows)) ↔
      s ∈ rows.filterMap Row.mediaName := by
  rw [List.mem_filterMap]
  constructor
  · intro h
    rw [document_eq] at h
    obtain ⟨f, hf, hOwn | hIn⟩ := Json.of_mem_object h
    · have hKeys : ∀ k ∈ ["chatlab", "meta", "members", "messages"], k.toList ≠ handleKey :=
        fun k hk => (fieldKeys_spec (List.mem_of_mem_drop (i := 17) hk)).2
      rw [Json.fieldStrings, if_neg (hKeys f.1 (List.mem_map_of_mem hf))] at hOwn
      cases hOwn
    · simp only [List.mem_cons, List.not_mem_nil, or_false] at hf
      rcases hf with rfl | rfl | rfl | rfl
      · exact absurd hIn ((header_field _).2 s)
      · exact absurd hIn ((header_field _).2 s)
      · obtain ⟨v, hv, hs⟩ := Json.mem_strings_arr.mp hIn
        obtain ⟨r, rfl⟩ := mem_membersOf hv
        exact absurd hs (not_mem_memberLine r s)
      · obtain ⟨v, hv, hs⟩ := Json.mem_strings_arr.mp hIn
        obtain ⟨w, hw, rfl⟩ := List.mem_map.mp hv
        obtain ⟨r, hr, rfl⟩ := List.mem_map.mp hw
        exact ⟨r, hr, of_mem_messageLine (Json.of_mem_remove hs)⟩
  · rintro ⟨r, hr, hs⟩
    have hMessages : (document (sessionLines target now rows) (membersOf rows)).get "messages" =
        some (.arr ((rows.map messageLine).map (·.remove "_type"))) := by
      simp [document_eq, Json.get_object]
    refine Json.mem_of_get hMessages (.inr (Json.mem_strings_arr.mpr ⟨_, ?_,
      mem_of_mediaFileName ((mediaFileName_remove r).trans hs)⟩))
    exact List.mem_map_of_mem (List.mem_map_of_mem hr)

theorem scan_lines {lines : List Value} (hWf : ∀ v ∈ lines, v.Wf)
    (hPlain : ∀ v ∈ lines, v.PlainKeys) :
    scan handleKey (lines.flatMap (lineText Json.text)) =
      (lines.flatMap (strings handleKey)).map (scanned ·.toList) := by
  induction lines with
  | nil => rfl
  | cons v lines ih =>
    have hText : lineText Json.text v = Json.chars v ++ ['\n'] := by
      rw [lineText]
      exact congrArg (· ++ ['\n']) String.toList_ofList
    rw [List.flatMap_cons, List.flatMap_cons, List.map_append, hText, List.append_assoc,
      List.singleton_append, Json.scan_chars handleKey_alphanum handleKey_ne_nil v
        (hWf v List.mem_cons_self) (hPlain v List.mem_cons_self)
        (Json.behind_cons (.inr (.inr (.inr rfl)))),
      Json.scan_skip (Json.not_mark (by decide)),
      ih (fun w hw => hWf w (List.mem_cons_of_mem v hw))
        fun w hw => hPlain w (List.mem_cons_of_mem v hw)]

variable (target now rows) in
/-- What the search finds in an artifact: the names of its media, as they are written. -/
theorem scan_sessionBytes (format : Format) : ∃ (text : List Char) (found : List String),
    Utf8.decode (sessionBytes Json.text format target now rows) = some text ∧
      scan handleKey text = found.map (fun s : String => scanned s.toList) ∧
      ∀ s, s ∈ found ↔ s ∈ rows.filterMap Row.mediaName := by
  cases format with
  | jsonl =>
    refine ⟨_, _, Utf8.decode_encode _, scan_lines (wf_sessionLines target now rows) ?_, ?_⟩
    · intro v hv
      rcases List.mem_cons.mp hv with rfl | hv
      · exact plainKeys_headerLine target now
      · obtain ⟨r, -, rfl⟩ := List.mem_map.mp hv
        exact plainKeys_messageLine r
    · intro s
      rw [List.mem_flatMap, List.mem_filterMap]
      constructor
      · rintro ⟨v, hv, hs⟩
        rcases List.mem_cons.mp hv with rfl | hv
        · exact absurd hs (not_mem_headerLine target now s)
        · obtain ⟨r, hr, rfl⟩ := List.mem_map.mp hv
          exact ⟨r, hr, of_mem_messageLine hs⟩
      · rintro ⟨r, hr, hs⟩
        exact ⟨messageLine r, List.mem_cons_of_mem _ (List.mem_map_of_mem hr),
          mem_of_mediaFileName ((mediaFileName_messageLine r).trans hs)⟩
  | json =>
    have hScan := Json.scan_chars handleKey_alphanum handleKey_ne_nil
      (document (sessionLines target now rows) (membersOf rows))
      (wf_document (wf_sessionLines target now rows) (wf_membersOf rows)) plainKeys_document
      Json.behind_nil
    rw [List.append_nil, Json.scan_nil, List.append_nil] at hScan
    refine ⟨_, strings handleKey (document (sessionLines target now rows) (membersOf rows)),
      Utf8.decode_encode _, ?_, fun s => mem_strings_document⟩
    rw [← hScan]
    exact congrArg (scan handleKey) String.toList_ofList

end

/-! ## The search for dangling handles -/

/-- `Path::with_file_name` -/
def withFileName (platform : Paths.Platform) (p : Paths.Path) (name : String) : Paths.Path :=
  Paths.join platform
    (if (Paths.fileName p).isSome then { p with parts := p.parts.dropLast } else p) name.toList

/-- `fs::read_to_string` -/
def readText (entry : Option Files.Entry) : Option (List Char) :=
  match entry with
  | some (.file bytes) => Utf8.decode bytes
  | _ => none

/-- The handles of a text that are not empty and name nothing in the media directory. -/
def danglesIn (present : String → Bool) (body : List Char) : Bool :=
  (scan handleKey body).any fun handle => handle ≠ [] && !present (String.ofList handle)

section

variable {K : Type} (H : Host K) (index : Paths.Path) (reused : List String)
  (present : String → Bool) (d : Files.Disk K)

/-- The loop over the entries; none if an artifact cannot be read. -/
def danglingRows : List Value → Option (List String)
  | [] => some []
  | row :: rest =>
    match talkerOf row with
    | none => danglingRows rest
    | some talker =>
      if talker ∉ reused then danglingRows rest
      else
        match fileOf row with
        | none => danglingRows rest
        | some file =>
          match readText (d (H.key (withFileName H.platform index file))) with
          | none => none
          | some body =>
            (danglingRows rest).map fun more =>
              if danglesIn present body then talker :: more else more

/-- `reused_dangling_handles`. `present` says which names `media_dir.join` finds something for. -/
def reusedDanglingHandles : Option (List String) :=
  (readText (d (H.key index))).bind fun text =>
    (H.json.parse (String.ofList text)).bind fun v =>
      danglingRows H index reused present d (((v.get "sessions").bind (·.asArray)).getD [])

end

/-! ## What it reports -/

/-- The artifact of a session: its format and what it holds. -/
structure Artifact where
  format : Format
  target : SessionTarget
  now : Int64
  rows : List Row

def Artifact.bytes (a : Artifact) : List UInt8 :=
  sessionBytes Json.text a.format a.target a.now a.rows

/-- The handles that stand for the media names of a session. -/
def Artifact.handles (a : Artifact) : List String :=
  (a.rows.filterMap Row.mediaName).map fun name => String.ofList (scanned name.toList)

theorem danglesIn_bytes (present : String → Bool) (a : Artifact) :
    ∃ body, Utf8.decode a.bytes = some body ∧
      (danglesIn present body = true ↔ ∃ h ∈ a.handles, h ≠ "" ∧ present h = false) := by
  obtain ⟨body, found, hText, hScan, hFound⟩ :=
    scan_sessionBytes a.target a.now a.rows a.format
  refine ⟨body, hText, ?_⟩
  have hEmpty : ∀ l : List Char, l ≠ [] ↔ String.ofList l ≠ "" := by
    intro l
    simp
  simp only [danglesIn, hScan, List.any_map, List.any_eq_true, Function.comp_apply,
    Bool.and_eq_true, decide_eq_true_eq, Bool.not_eq_true', Artifact.handles, List.mem_map,
    exists_exists_and_eq_and, hFound, hEmpty]

/-- Looking up what was taken for the names is looking up the names, for every directory, exactly
when no name is empty or has a character that is escaped. -/
theorem lookups_agree_iff {names : List String} :
    (∀ present : String → Bool,
      (∃ h ∈ names.map fun name => String.ofList (scanned name.toList),
        h ≠ "" ∧ present h = false) ↔ ∃ name ∈ names, present name = false) ↔
    ∀ name ∈ names, name ≠ "" ∧ Unescaped name.toList := by
  constructor
  · intro hAgree
    have hFound : ∀ name ∈ names,
        (∃ m ∈ names, String.ofList (scanned m.toList) = name) ∧ name ≠ "" := by
      have hAll := hAgree fun h =>
        decide ((∃ m ∈ names, String.ofList (scanned m.toList) = h) ∧ h ≠ "")
      intro name hName
      by_contra hNot
      obtain ⟨h, hMem, hNe, hPresent⟩ := hAll.mpr ⟨name, hName, decide_eq_false hNot⟩
      exact of_decide_eq_false hPresent ⟨List.mem_map.mp hMem, hNe⟩
    have hNamed : ∀ name ∈ names, scanned name.toList ≠ [] →
        String.ofList (scanned name.toList) ∈ names := by
      have hAll := hAgree fun h => decide (h ∈ names)
      intro name hName hNe
      by_contra hNot
      obtain ⟨other, hOther, hPresent⟩ := hAll.mp ⟨_, List.mem_map_of_mem hName,
        by simpa using hNe, decide_eq_false hNot⟩
      exact of_decide_eq_false hPresent hOther
    intro name hName
    refine ⟨(hFound name hName).2, fun c hc => ?_⟩
    obtain ⟨⟨m, -, hEq⟩, -⟩ := hFound name hName
    rw [← hEq, String.toList_ofList] at hc
    rcases Json.mem_scanned hc with rfl | hPlain
    · -- the name with the most backslashes would be found with more of them
      exfalso
      obtain ⟨most, hMost, hMax⟩ := names.toFinset.exists_max_image
        (fun n => n.toList.count '\\') ⟨name, List.mem_toFinset.mpr hName⟩
      rw [List.mem_toFinset] at hMost
      have hSlash : '\\' ∈ most.toList := by
        have hLe := hMax name (List.mem_toFinset.mpr hName)
        rw [← hEq, String.toList_ofList] at hLe
        have hPos := List.count_pos_iff.mpr hc
        exact List.count_pos_iff.mp (by omega)
      have hQuote : '"' ∉ most.toList := by
        obtain ⟨⟨m', -, hEq'⟩, -⟩ := hFound most hMost
        rw [← hEq', String.toList_ofList]
        exact Json.quote_notMem_scanned _
      have hMore := Json.count_scanned hQuote hSlash
      have hNe : scanned most.toList ≠ [] := by
        intro hNil
        rw [hNil] at hMore
        simp at hMore
      have hLess := hMax _ (List.mem_toFinset.mpr (hNamed most hMost hNe))
      rw [String.toList_ofList] at hLess
      omega
    · exact hPlain
  · intro hPlain present
    have hSame : names.map (fun name => String.ofList (scanned name.toList)) = names := by
      conv_rhs => rw [← List.map_id names]
      apply List.map_congr_left
      intro name hName
      rw [(hPlain name hName).2.scanned, String.ofList_toList, id]
    rw [hSame]
    constructor
    · rintro ⟨h, hMem, -, hAbsent⟩
      exact ⟨h, hMem, hAbsent⟩
    · rintro ⟨name, hName, hAbsent⟩
      exact ⟨name, hName, (hPlain name hName).1, hAbsent⟩

section

variable {K : Type} {H : Host K} {index : Paths.Path} {reused : List String}
  {present : String → Bool} {d : Files.Disk K} {rows : List Value} {artifact : String → Artifact}

/-- The index that a run has written, and the artifacts of the sessions it has reused. -/
structure Listed (H : Host K) (index : Paths.Path) (reused : List String) (d : Files.Disk K)
    (rows : List Value) (artifact : String → Artifact) : Prop where
  readable : ∃ text v, readText (d (H.key index)) = some text ∧
    H.json.parse (String.ofList text) = some v ∧ (v.get "sessions").bind (·.asArray) = some rows
  listed : ∀ talker ∈ reused, ∃ row ∈ rows, talkerOf row = some talker
  artifacts : ∀ row ∈ rows, ∀ talker ∈ reused, talkerOf row = some talker →
    ∃ file, fileOf row = some file ∧
      d (H.key (withFileName H.platform index file)) = some (.file (artifact talker).bytes)

variable (present) in
theorem danglingRows_reports (hArtifacts : ∀ row ∈ rows, ∀ talker ∈ reused,
    talkerOf row = some talker → ∃ file, fileOf row = some file ∧
      d (H.key (withFileName H.platform index file)) = some (.file (artifact talker).bytes)) :
    ∃ found, danglingRows H index reused present d rows = some found ∧
      ∀ talker, talker ∈ found ↔ talker ∈ reused ∧ (∃ row ∈ rows, talkerOf row = some talker) ∧
        ∃ h ∈ (artifact talker).handles, h ≠ "" ∧ present h = false := by
  induction rows with
  | nil => exact ⟨[], rfl, by simp⟩
  | cons row rows ih =>
    obtain ⟨found, hRest, hFound⟩ := ih fun r hr => hArtifacts r (List.mem_cons_of_mem row hr)
    rw [danglingRows]
    cases hTalker : talkerOf row with
    | none =>
      refine ⟨found, hRest, fun talker => ?_⟩
      rw [hFound, List.exists_mem_cons_iff]
      simp [hTalker]
    | some talker =>
      dsimp only
      by_cases hReused : talker ∈ reused
      · obtain ⟨file, hFile, hDisk⟩ :=
          hArtifacts row List.mem_cons_self talker hReused hTalker
        obtain ⟨body, hBody, hDangles⟩ := danglesIn_bytes present (artifact talker)
        rw [if_neg (not_not.mpr hReused), hFile]
        dsimp only
        rw [hDisk, readText, hBody, hRest]
        refine ⟨_, rfl, fun other => ?_⟩
        dsimp only
        by_cases hIt : danglesIn present body = true
        · rw [if_pos hIt, List.mem_cons, hFound, List.exists_mem_cons_iff, hTalker]
          by_cases hSame : other = talker
          · subst hSame
            simp [hReused, hDangles.mp hIt]
          · simp [hSame, Ne.symm hSame]
        · rw [if_neg hIt, hFound, List.exists_mem_cons_iff, hTalker]
          by_cases hSame : talker = other
          · subst hSame
            have hNone := mt hDangles.mpr hIt
            exact ⟨fun h => absurd h.2.2 hNone, fun h => absurd h.2.2 hNone⟩
          · simp [hSame]
      · rw [if_pos hReused]
        refine ⟨found, hRest, fun other => ?_⟩
        rw [hFound, List.exists_mem_cons_iff, hTalker]
        by_cases hSame : talker = other
        · subst hSame
          simp [hReused]
        · simp [hSame]

theorem Listed.reports (h : Listed H index reused d rows artifact) (present : String → Bool) :
    ∃ found, reusedDanglingHandles H index reused present d = some found ∧
      ∀ talker, talker ∈ found ↔ talker ∈ reused ∧
        ∃ h ∈ (artifact talker).handles, h ≠ "" ∧ present h = false := by
  obtain ⟨text, v, hText, hParse, hRows⟩ := h.readable
  obtain ⟨found, hLoop, hFound⟩ := danglingRows_reports present h.artifacts
  refine ⟨found, ?_, fun talker => ?_⟩
  · rw [reusedDanglingHandles, hText, Option.bind_some, hParse, Option.bind_some, hRows]
    exact hLoop
  · rw [hFound]
    constructor
    · rintro ⟨hReused, -, hDangles⟩
      exact ⟨hReused, hDangles⟩
    · rintro ⟨hReused, hDangles⟩
      exact ⟨hReused, h.listed talker hReused, hDangles⟩

theorem mediaNames_bytes (a : Artifact) : mediaNames Json.text a.format a.bytes =
    some (a.rows.filterMap Row.mediaName) :=
  mediaNames_of_complete (complete_sessionBytes Json.text a.format a.target a.now a.rows)

/-- The search reports the reused sessions with a media name that is not there, whatever is in the
media directory, exactly when no media name of a reused session is empty or has a character that
JSON escapes. -/
theorem reusedDanglingHandles_iff (h : Listed H index reused d rows artifact) :
    (∀ present, ∃ found, reusedDanglingHandles H index reused present d = some found ∧
      ∀ talker, talker ∈ found ↔ talker ∈ reused ∧
        ∃ names, mediaNames Json.text (artifact talker).format (artifact talker).bytes =
          some names ∧ ∃ name ∈ names, present name = false) ↔
    ∀ talker ∈ reused, ∀ names,
      mediaNames Json.text (artifact talker).format (artifact talker).bytes = some names →
        ∀ name ∈ names, name ≠ "" ∧ Unescaped name.toList := by
  simp only [mediaNames_bytes, Option.some.injEq, exists_eq_left', forall_eq']
  constructor
  · intro hReports talker hTalker
    refine lookups_agree_iff.mp fun present => ?_
    obtain ⟨found, hFound, hNames⟩ := hReports present
    obtain ⟨found', hFound', hHandles⟩ := h.reports present
    rw [hFound, Option.some.injEq] at hFound'
    subst hFound'
    have hSame := (hHandles talker).symm.trans (hNames talker)
    simpa [hTalker, Artifact.handles] using hSame
  · intro hPlain present
    obtain ⟨found, hFound, hHandles⟩ := h.reports present
    refine ⟨found, hFound, fun talker => ?_⟩
    rw [hHandles]
    exact and_congr_right fun hTalker => lookups_agree_iff.mpr (hPlain talker hTalker) present

end

/-! ## One reused conversation -/

/-- A message with a picture of this name. -/
def pictureRow (name : String) : Row :=
  ⟨"1", "u", "u", "", 1, 1, "", none, some name, some "image"⟩

def pictured (name : String) : Artifact := ⟨.jsonl, ⟨"u", "U"⟩, 100, [pictureRow name]⟩

def outIndex : Paths.Path := (plainOptions .jsonl true).join unixHost indexName

def picturedRows : List Value := [indexRow ⟨"u", "U"⟩ "U.jsonl" 1 true]

/-- The directory of a run that has exported one conversation with a picture. -/
def picturedDisk (name : String) : Files.Disk (List (List Char)) := fun k =>
  if k = unixHost.key outIndex then
    some (.file (Utf8.encode (Json.text.render (indexDocument picturedRows 100)).toList))
  else if k = unixHost.key (withFileName .unix outIndex "U.jsonl") then
    some (.file (pictured name).bytes)
  else none

theorem listed_pictured (name : String) : Listed unixHost outIndex ["u"] (picturedDisk name)
    picturedRows fun _ => pictured name := by
  have hWf : ∀ row ∈ picturedRows, row.Wf := by
    intro row hRow
    rw [List.mem_singleton.mp hRow]
    exact wf_indexRow _ _ _ _
  have hIndex : picturedDisk name (unixHost.key outIndex) = some (.file
      (Utf8.encode (Json.text.render (indexDocument picturedRows 100)).toList)) := if_pos rfl
  have hKeys : unixHost.key (withFileName .unix outIndex "U.jsonl") ≠ unixHost.key outIndex := by
    decide +kernel
  refine ⟨⟨(Json.text.render (indexDocument picturedRows 100)).toList,
    indexDocument picturedRows 100, ?_, ?_, ?_⟩, ?_, ?_⟩
  · rw [hIndex, readText, Utf8.decode_encode]
  · rw [String.ofList_toList]
    exact Json.text.parse_render (wf_indexDocument hWf 100)
  · simp [indexDocument, Json.get_object, Value.asArray]
  · intro talker hTalker
    rw [List.mem_singleton.mp hTalker]
    exact ⟨_, List.mem_cons_self, talkerOf_indexRow _ _ _ _⟩
  · intro row hRow talker _ _
    rw [List.mem_singleton.mp hRow]
    refine ⟨"U.jsonl", fileOf_indexRow _ _ _ _, ?_⟩
    exact (if_neg hKeys).trans (if_pos rfl)

theorem reusedDanglingHandles_iff_picture :
    (∀ present, ∃ found,
      reusedDanglingHandles unixHost outIndex ["u"] present (picturedDisk "a.jpg") = some found ∧
      ∀ talker, talker ∈ found ↔ talker ∈ ["u"] ∧
        ∃ names, mediaNames Json.text (pictured "a.jpg").format (pictured "a.jpg").bytes =
          some names ∧ ∃ name ∈ names, present name = false) ↔
    ∀ talker ∈ ["u"], ∀ names,
      mediaNames Json.text (pictured "a.jpg").format (pictured "a.jpg").bytes = some names →
        ∀ name ∈ names, name ≠ "" ∧ Unescaped name.toList :=
  reusedDanglingHandles_iff (listed_pictured "a.jpg")

/-- A picture with a quote in its name is there, and its conversation is reported. -/
theorem quoted_name_reported :
    mediaNames Json.text .jsonl (pictured "a\"b.jpg").bytes = some ["a\"b.jpg"] ∧
      ∃ found, reusedDanglingHandles unixHost outIndex ["u"] (fun name => name == "a\"b.jpg")
        (picturedDisk "a\"b.jpg") = some found ∧ "u" ∈ found := by
  obtain ⟨found, hFound, hReports⟩ :=
    (listed_pictured "a\"b.jpg").reports fun name => name == "a\"b.jpg"
  refine ⟨mediaNames_bytes (pictured "a\"b.jpg"), found, hFound, (hReports "u").mpr ?_⟩
  refine ⟨List.mem_cons_self, String.ofList (scanned "a\"b.jpg".toList),
    List.mem_cons_self, ?_, ?_⟩
  · decide +kernel
  · decide +kernel

end Weflow.Export
