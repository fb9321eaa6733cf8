import Weflow.Lib.Framing
import Weflow.Lib.Search
import Weflow.Lib.Utf8
import Weflow.Store.Basic

/-!
# The body of a message

`decode_content` of `parser/mod.rs`: the stored bytes become a text, and the sender's prefix of a
group chat is taken off. Two rules do that: the first line is the row's own sender, or what follows
a first line with a colon at its end looks like XML.

The second rule is for payloads, but it is tried on every body: `decodeContent_plain_iff` says for
which plain texts the outcome is still what the first rule alone would give.
-/

namespace Weflow.Parser

open Search (splitOnce)

/-- The characters of a text. -/
abbrev Text := List Char

/-- `trim_start` -/
def trimStart (s : Text) : Text := s.dropWhile isWhite

/-- `starts_with('<')` -/
def startsTag (s : Text) : Bool := s.head? == some '<'

/-- `strip_suffix` of one character. -/
def stripSuffix (c : Char) (s : Text) : Option Text :=
  if s.getLast? = some c then some s.dropLast else none

/-- Strip the group-chat sender prefix from a payload. -/
def stripSenderPrefix (body senderUsername : Text) : Text :=
  match splitOnce ['\n'] body with
  | none => body
  | some (first, rest) =>
    match stripSuffix ':' first with
    | none => body
    | some id =>
      if startsTag (trimStart rest) then trimStart rest
      else if senderUsername ≠ [] ∧ id = senderUsername then rest
      else body

/-- The magic number of a zstd frame. -/
def zstdMagic : List UInt8 := [0x28, 0xB5, 0x2F, 0xFD]

section

variable (decodeAll : List UInt8 → Option (List UInt8))

/-- The frame may begin at one of the first 16 bytes. -/
def zstdDecompress (data : List UInt8) : Option Text := do
  let start ← (List.range 16).find? fun i => zstdMagic <+: data.drop i
  let bytes ← decodeAll (data.drop start)
  Utf8.decode bytes

/-- Decode a message's content into XML or plain text. -/
def decodeContent (compressContent messageContent : Option (List UInt8)) (senderUsername : Text) :
    Option Text :=
  match compressContent.bind (zstdDecompress decodeAll) with
  | some xml => some (stripSenderPrefix xml senderUsername)
  | none => messageContent.map fun mc =>
    match zstdDecompress decodeAll mc with
    | some xml => stripSenderPrefix xml senderUsername
    | none => stripSenderPrefix (Utf8.decodeLossy mc) senderUsername

end

/-! ## Plain text -/

/-- The sender's own line in front of a group message. -/
def ownPrefix (sender : Text) : Text := sender ++ [':', '\n']

def HasOwnPrefix (sender body : Text) : Prop := sender ≠ [] ∧ ownPrefix sender <+: body

instance (sender body : Text) : Decidable (HasOwnPrefix sender body) :=
  inferInstanceAs (Decidable (_ ∧ _))

/-- The body without the sender's own line. -/
def withoutOwnPrefix (sender body : Text) : Text :=
  if HasOwnPrefix sender body then body.drop (ownPrefix sender).length else body

/-- A line with a colon at its end, and behind it a tag with blank space in front at most. -/
def LooksPrefixed (body : Text) : Prop :=
  ∃ id rest, '\n' ∉ id ∧ body = ownPrefix id ++ rest ∧ startsTag (trimStart rest)

/-- The plain bodies that the lenient rule leaves as they should be. -/
def Untouched (sender body : Text) : Prop :=
  if HasOwnPrefix sender body then
    '\n' ∉ sender ∧
      (startsTag (trimStart (withoutOwnPrefix sender body)) →
        startsTag (withoutOwnPrefix sender body))
  else ¬ LooksPrefixed body

section

variable {sender body id rest : Text}

theorem stripSuffix_eq {c : Char} {s t : Text} : stripSuffix c s = some t ↔ s = t ++ [c] := by
  unfold stripSuffix
  constructor
  · intro h
    split at h
    · rename_i hLast
      obtain ⟨init, rfl⟩ := List.getLast?_eq_some_iff.mp hLast
      rw [List.dropLast_concat] at h
      rw [Option.some.inj h]
    · cases h
  · rintro rfl
    rw [if_pos List.getLast?_concat, List.dropLast_concat]

/-- A first line with a colon at its end is split off. -/
theorem splitOnce_ownPrefix (h : '\n' ∉ id) (rest : Text) :
    splitOnce ['\n'] (ownPrefix id ++ rest) = some (id ++ [':'], rest) := by
  rw [Search.splitOnce_singleton]
  refine ⟨by simp [ownPrefix], ?_⟩
  rw [List.mem_append, not_or]
  exact ⟨h, by decide⟩

/-- What becomes of a body whose first line ends in a colon. -/
theorem stripSenderPrefix_line (h : '\n' ∉ id) (rest : Text) :
    stripSenderPrefix (ownPrefix id ++ rest) sender =
      if startsTag (trimStart rest) then trimStart rest
      else if sender ≠ [] ∧ id = sender then rest
      else ownPrefix id ++ rest := by
  unfold stripSenderPrefix
  rw [splitOnce_ownPrefix h]
  simp only
  rw [stripSuffix_eq.mpr rfl]

/-- Any other body is kept. -/
theorem stripSenderPrefix_other (h : ∀ id rest, '\n' ∉ id → body ≠ ownPrefix id ++ rest) :
    stripSenderPrefix body sender = body := by
  unfold stripSenderPrefix
  split
  · rfl
  · rename_i first rest hSplit
    split
    · rfl
    · rename_i id hId
      exfalso
      obtain ⟨hBody, hLine⟩ := Search.splitOnce_singleton.mp hSplit
      rw [stripSuffix_eq] at hId
      subst hId
      rw [List.mem_append, not_or] at hLine
      exact h id rest hLine.1 (by rw [hBody, ownPrefix]; simp)

theorem length_trimStart_le (s : Text) : (trimStart s).length ≤ s.length :=
  (List.dropWhile_sublist _).length_le

/-- Nothing is trimmed only when the text does not begin with blank space. -/
theorem trimStart_eq_self {s : Text} (h : startsTag (trimStart s)) :
    trimStart s = s ↔ startsTag s := by
  constructor
  · intro hEq
    rwa [hEq] at h
  · intro hTag
    cases s with
    | nil => rfl
    | cons c s =>
      obtain rfl : c = '<' := by simpa [startsTag] using hTag
      rfl

theorem ownPrefix_ne_self (id rest : Text) : rest ≠ ownPrefix id ++ rest := by
  intro hEq
  have hLength := congrArg List.length hEq
  rw [List.length_append, ownPrefix, List.length_append, List.length_cons] at hLength
  omega

/-- The body of a sender without a newline, behind the sender's own line. -/
theorem stripSenderPrefix_own (hSender : sender ≠ []) (h : '\n' ∉ sender) (rest : Text) :
    stripSenderPrefix (ownPrefix sender ++ rest) sender = rest ↔
      (startsTag (trimStart rest) → startsTag rest) := by
  rw [stripSenderPrefix_line h]
  split
  · rename_i hTag
    rw [trimStart_eq_self hTag]
    exact ⟨fun hRest _ => hRest, fun hRest => hRest hTag⟩
  · rename_i hTag
    rw [if_pos ⟨hSender, rfl⟩]
    exact ⟨fun _ hRest => absurd hRest hTag, fun _ => rfl⟩

/-- A sender with a newline in it never has its line taken off. -/
theorem stripSenderPrefix_split (h : '\n' ∈ sender) (rest : Text) :
    stripSenderPrefix (ownPrefix sender ++ rest) sender ≠ rest := by
  intro hEq
  by_cases hLine : ∃ id t, '\n' ∉ id ∧ ownPrefix sender ++ rest = ownPrefix id ++ t
  · obtain ⟨id, t, hId, hBody⟩ := hLine
    obtain ⟨front, back, hSender, hFront⟩ := List.eq_append_cons_of_mem h
    -- the first line of the body ends inside of the sender
    have hSplit : splitOnce ['\n'] (ownPrefix sender ++ rest) =
        some (front, back ++ [':', '\n'] ++ rest) := by
      rw [Search.splitOnce_singleton]
      exact ⟨by rw [hSender, ownPrefix]; simp, hFront⟩
    rw [hBody, splitOnce_ownPrefix hId, Option.some.injEq, Prod.mk.injEq] at hSplit
    rw [hBody, stripSenderPrefix_line hId] at hEq
    split at hEq
    · have hWhite : t = t.takeWhile isWhite ++ rest := by
        conv_lhs => rw [← List.takeWhile_append_dropWhile (p := isWhite) (l := t)]
        exact congrArg (t.takeWhile isWhite ++ ·) hEq
      have hCancel := List.append_cancel_right (hWhite.symm.trans hSplit.2)
      have hColon : ':' ∈ t.takeWhile isWhite := by
        rw [hCancel]
        simp
      exact absurd (List.all_eq_true.mp List.all_takeWhile _ hColon) (by decide)
    · split at hEq
      · rename_i hOwn
        exact hId (hOwn.2 ▸ h)
      · exact ownPrefix_ne_self sender rest (hEq.symm.trans hBody.symm)
  · rw [stripSenderPrefix_other fun id t hId hBody => hLine ⟨id, t, hId, hBody⟩] at hEq
    exact ownPrefix_ne_self sender rest hEq.symm

/-- For which plain texts the outcome is the one of the first rule alone. -/
theorem stripSenderPrefix_iff (sender body : Text) :
    stripSenderPrefix body sender = withoutOwnPrefix sender body ↔ Untouched sender body := by
  unfold Untouched
  by_cases hOwn : HasOwnPrefix sender body
  · obtain ⟨hSender, rest, rfl⟩ := hOwn
    have hRest : withoutOwnPrefix sender (ownPrefix sender ++ rest) = rest := by
      rw [withoutOwnPrefix, if_pos ⟨hSender, List.prefix_append _ _⟩, List.drop_left]
    rw [if_pos ⟨hSender, List.prefix_append _ _⟩, hRest]
    by_cases hNewline : '\n' ∈ sender
    · exact ⟨fun hEq => absurd hEq (stripSenderPrefix_split hNewline rest),
        fun h => absurd hNewline h.1⟩
    · rw [stripSenderPrefix_own hSender hNewline]
      exact ⟨fun h => ⟨hNewline, h⟩, And.right⟩
  · rw [if_neg hOwn, withoutOwnPrefix, if_neg hOwn]
    constructor
    · rintro hEq ⟨id, rest, hId, rfl, hTag⟩
      rw [stripSenderPrefix_line hId, if_pos hTag] at hEq
      have hLength := congrArg List.length hEq
      have hTrim := length_trimStart_le rest
      rw [List.length_append, ownPrefix, List.length_append, List.length_cons] at hLength
      omega
    · intro hNot
      by_cases hLine : ∃ id t, '\n' ∉ id ∧ body = ownPrefix id ++ t
      · obtain ⟨id, t, hId, rfl⟩ := hLine
        rw [stripSenderPrefix_line hId, if_neg fun hTag => hNot ⟨id, t, hId, rfl, hTag⟩]
        refine if_neg fun hSender => hOwn ?_
        rw [← hSender.2]
        exact ⟨hSender.2 ▸ hSender.1, List.prefix_append _ _⟩
      · exact stripSenderPrefix_other fun id t hId hBody => hLine ⟨id, t, hId, hBody⟩

/-- A plain text loses its sender's line and nothing else, just when the lenient rule does not get
at it. -/
theorem decodeContent_plain_iff (decodeAll : List UInt8 → Option (List UInt8))
    (body sender : Text)
    (hPlain : ∀ i < 16, ¬ zstdMagic <+: (Utf8.encode body).drop i) :
    decodeContent decodeAll none (some (Utf8.encode body)) sender =
      some (withoutOwnPrefix sender body) ↔ Untouched sender body := by
  have hNone : zstdDecompress decodeAll (Utf8.encode body) = none := by
    have hFind : (List.range 16).find? (fun i => zstdMagic <+: (Utf8.encode body).drop i) =
        none := by
      rw [List.find?_eq_none]
      intro i hi
      simpa using hPlain i (List.mem_range.mp hi)
    rw [zstdDecompress, hFind]
    rfl
  unfold decodeContent
  rw [Option.bind_none]
  simp only [Option.map_some, hNone, Utf8.decodeLossy_encode, Option.some.injEq]
  exact stripSenderPrefix_iff sender body

end

/-- Two lines in a private chat: the first ends in a colon, the second begins with a heart. -/
def heartBody : Text := ['o', 'k', ':', '\n', ' ', '<', '3']

theorem decodeContent_plain_iff_heart :
    decodeContent (fun _ => none) none (some (Utf8.encode heartBody)) ['a'] =
      some (withoutOwnPrefix ['a'] heartBody) ↔ Untouched ['a'] heartBody :=
  decodeContent_plain_iff (fun _ => none) heartBody ['a'] (by decide)

theorem first_line_lost :
    (∀ i < 16, ¬ zstdMagic <+: (Utf8.encode heartBody).drop i) ∧
      withoutOwnPrefix ['a'] heartBody = heartBody ∧
      decodeContent (fun _ => none) none (some (Utf8.encode heartBody)) ['a'] =
        some ['<', '3'] ∧
      decodeContent (fun _ => none) none (some (Utf8.encode heartBody)) ['a'] ≠
        some (withoutOwnPrefix ['a'] heartBody) := by
  decide

end Weflow.Parser
