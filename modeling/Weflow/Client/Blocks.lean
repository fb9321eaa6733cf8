import Weflow.Client.Chunks

/-!
# Frames of the server in the Python client

What the frames of the push stream are for the reader of the Python client. A frame is a block of
lines that end in nothing to be stripped, so it is gathered as it was written
(`blocksOf_items`), and the block is parsed back to the id, the name and the payload that it says
(`parse_block`).
-/

namespace Weflow.Client

open Json (Value)
open Framing (stripPrefix splitLines)

/-! ## Bytes of a text -/

section

variable {s : Said} {item : Item} {line : List Char}

theorem utf8EncodeChar_ne_nil (c : Char) : String.utf8EncodeChar c ≠ [] := by
  unfold String.utf8EncodeChar
  simp only
  split_ifs <;> exact List.cons_ne_nil _ _

/-- The last byte of a text below 128 is its last character. -/
theorem getLast_encode {b : UInt8} (hb : b.toNat < 128) (h : Utf8.encode line ≠ [])
    (hLast : (Utf8.encode line).getLast h = b) : ∃ c ∈ line.getLast?, c.toNat = b.toNat := by
  rcases List.eq_nil_or_concat' line with rfl | ⟨init, c, rfl⟩
  · exact absurd rfl h
  · refine ⟨c, List.getLast?_concat, (Utf8.mem_utf8EncodeChar hb).mp ?_⟩
    have hEncode : Utf8.encode (init ++ [c]) = Utf8.encode init ++ String.utf8EncodeChar c := by
      rw [Utf8.encode_append]
      exact congrArg (Utf8.encode init ++ ·) (List.flatMap_singleton _ _)
    rw [← hLast]
    simp only [hEncode, List.getLast_append_of_ne_nil _ (utf8EncodeChar_ne_nil c)]
    exact List.getLast_mem _

/-- The first byte of a text below 128 is its first character. -/
theorem head_encode {b : UInt8} (hb : b.toNat < 128) (h : Utf8.encode line ≠ [])
    (hHead : (Utf8.encode line).head h = b) : ∃ c ∈ line.head?, c.toNat = b.toNat := by
  cases line with
  | nil => exact absurd rfl h
  | cons c rest =>
    refine ⟨c, rfl, (Utf8.mem_utf8EncodeChar hb).mp ?_⟩
    have hEncode : Utf8.encode (c :: rest) = String.utf8EncodeChar c ++ Utf8.encode rest := rfl
    rw [← hHead]
    simp only [hEncode, List.head_append_of_ne_nil (utf8EncodeChar_ne_nil c)]
    exact List.head_mem _

theorem rstripCr_encode (h : ∀ c ∈ line.getLast?, c ≠ '\r') :
    rstripCr (Utf8.encode line) = Utf8.encode line := by
  rw [rstripCr, List.rdropWhile_eq_self_iff]
  intro hNil hLast
  obtain ⟨c, hMem, hc⟩ := getLast_encode (b := carriageReturn) (by decide) hNil
    (by simpa using hLast)
  exact h c hMem (Char.toNat_inj.mp hc)

theorem isSpaceByte_lt {b : UInt8} (h : isSpaceByte b) :
    b.toNat < 128 ∧ (b.toNat = 32 ∨ 9 ≤ b.toNat ∧ b.toNat ≤ 13) := by
  simp only [isSpaceByte, Bool.or_eq_true, beq_iff_eq, Bool.and_eq_true, decide_eq_true_eq,
    UInt8.le_iff_toNat_le] at h
  rcases h with rfl | ⟨hLow, hHigh⟩
  · decide
  · have h9 : (9 : UInt8).toNat = 9 := rfl
    have h13 : (13 : UInt8).toNat = 13 := rfl
    omega

/-- Not whitespace of ASCII. -/
def Solid (c : Char) : Prop := c.toNat ≠ 32 ∧ (c.toNat < 9 ∨ 13 < c.toNat)

instance (c : Char) : Decidable (Solid c) := inferInstanceAs (Decidable (_ ∧ _))

theorem not_isSpaceByte {c : Char} {b : UInt8} (hc : Solid c) (hEq : c.toNat = b.toNat) :
    ¬ isSpaceByte b := by
  intro hSpace
  have := (isSpaceByte_lt hSpace).2
  obtain ⟨hNe, hRange⟩ := hc
  omega

/-- The space behind the colon is stripped, and nothing else. -/
theorem stripBytes_encode (hHead : ∀ c ∈ line.head?, Solid c) (hLast : ∀ c ∈ line.getLast?, Solid c) :
    stripBytes (Utf8.encode (' ' :: line)) = Utf8.encode line := by
  have hSpace : Utf8.encode (' ' :: line) = 32 :: Utf8.encode line := rfl
  rw [stripBytes, hSpace, List.dropWhile_cons_of_pos (by decide)]
  have hDrop : (Utf8.encode line).dropWhile isSpaceByte = Utf8.encode line := by
    refine List.dropWhile_eq_self_iff.mpr fun hLt hMem => ?_
    have hNe : Utf8.encode line ≠ [] := List.ne_nil_of_length_pos hLt
    rw [← List.head_eq_getElem_zero hNe] at hMem
    obtain ⟨c, hc, hEq⟩ := head_encode (isSpaceByte_lt hMem).1 hNe rfl
    exact not_isSpaceByte (hHead c hc) hEq hMem
  rw [hDrop, List.rdropWhile_eq_self_iff]
  intro hNe hMem
  obtain ⟨c, hc, hEq⟩ := getLast_encode (isSpaceByte_lt hMem).1 hNe rfl
  exact not_isSpaceByte (hLast c hc) hEq hMem

theorem decodeReplace_encode (line : List Char) :
    decodeReplace (Utf8.encode line) = String.ofList line := by
  rw [decodeReplace, Utf8.decodeLossy_encode]

/-! ## The lines of a frame -/

/-- The `event` field as it is read. -/
def eventText (name : String) : String :=
  decodeReplace (stripBytes (Utf8.encode (' ' :: name.toList)))

/-- What a frame is parsed as. -/
def Said.frame (s : Said) : SseFrame where
  event := some (eventText s.name)
  data := Json.render s.payload
  id := s.id.map toString

theorem encode_idLine (id : String) :
    Utf8.encode (idLine id) = bytesLit "id:" ++ Utf8.encode (' ' :: id.toList) :=
  Utf8.encode_append "id:".toList (' ' :: id.toList)

theorem encode_eventLine (name : String) :
    Utf8.encode (eventLine name) = bytesLit "event:" ++ Utf8.encode (' ' :: name.toList) :=
  Utf8.encode_append "event:".toList (' ' :: name.toList)

theorem encode_dataLine (data : String) :
    Utf8.encode (dataLine data) = bytesLit "data:" ++ Utf8.encode (' ' :: data.toList) :=
  Utf8.encode_append "data:".toList (' ' :: data.toList)

theorem bytesLit_differs {p q : String} {rest : List UInt8}
    (h : ¬ bytesLit p <+: bytesLit q ∧ ¬ bytesLit q <+: bytesLit p) :
    ¬ bytesLit p <+: bytesLit q ++ rest :=
  Framing.not_prefix_append h.1 h.2

theorem getLast_append_cons {a b : List Char} (hb : b ≠ []) {P : Char → Prop}
    (h : ∀ c ∈ b.getLast?, P c) : ∀ c ∈ (a ++ b).getLast?, P c := by
  rw [List.getLast?_append_of_ne_nil a hb]
  exact h

theorem isDigit_of_mem_toString {n : Nat} {c : Char} (h : c ∈ (toString n).toList) :
    c.isDigit := by
  rw [Nat.toString_eq_repr, Nat.toList_repr] at h
  exact List.all_eq_true.mp (all_isDigit_toDigits n) c h

theorem solid_of_isDigit {c : Char} (h : c.isDigit) : Solid c := by
  have := isDigit_bounds h
  constructor <;> omega

theorem ne_cr_of_solid {c : Char} (h : Solid c) : c ≠ '\r' := by
  rintro rfl
  exact absurd h (by decide)

theorem rstripCr_idLine (n : Nat) :
    rstripCr (Utf8.encode (idLine (toString n))) = Utf8.encode (idLine (toString n)) := by
  refine rstripCr_encode (getLast_append_cons ?_ fun c hc => ?_)
  · rw [Nat.toString_eq_repr, Nat.toList_repr]
    exact Nat.toDigits_ne_nil
  · exact ne_cr_of_solid (solid_of_isDigit (isDigit_of_mem_toString (List.mem_of_mem_getLast? hc)))

theorem rstripCr_eventLine {name : String} (h : '\r' ∉ name.toList) :
    rstripCr (Utf8.encode (eventLine name)) = Utf8.encode (eventLine name) := by
  refine rstripCr_encode fun c hc hEq => ?_
  rw [hEq] at hc
  rcases List.mem_append.mp (List.mem_of_mem_getLast? hc) with hMem | hMem
  · exact absurd hMem (by decide)
  · exact h hMem

/-- The text of an object begins and ends with a brace. -/
theorem render_obj (fields : List (String × Value)) :
    ∃ mid, (Json.render (.obj fields)).toList = '\x7b' :: mid ++ ['\x7d'] := by
  have hFields : ∀ fs : List (String × Value),
      ∃ mid, Json.charsFields fs = mid ++ ['\x7d'] := by
    intro fs
    induction fs with
    | nil => exact ⟨[], by rw [Json.charsFields, List.nil_append]⟩
    | cons f fs ih =>
      obtain ⟨mid, hMid⟩ := ih
      refine ⟨',' :: (Json.quoted f.1 ++ ':' :: (Json.chars f.2 ++ mid)), ?_⟩
      simp [Json.charsFields, hMid]
  rw [Json.render, String.toList_ofList]
  cases fields with
  | nil => exact ⟨[], by rw [Json.chars]; rfl⟩
  | cons f fs =>
    obtain ⟨mid, hMid⟩ := hFields fs
    refine ⟨Json.quoted f.1 ++ ':' :: (Json.chars f.2 ++ mid), ?_⟩
    simp [Json.chars, hMid]

theorem Said.Fits.edges (h : s.Fits) :
    (∀ c ∈ (Json.render s.payload).toList.head?, Solid c) ∧
      (Json.render s.payload).toList ≠ [] ∧
      ∀ c ∈ (Json.render s.payload).toList.getLast?, Solid c := by
  obtain ⟨fields, hObj⟩ := h.obj
  obtain ⟨mid, hMid⟩ := render_obj fields
  rw [hObj, hMid]
  refine ⟨fun c hc => ?_, List.cons_ne_nil _ _, fun c hc => ?_⟩
  · obtain rfl : '\x7b' = c := Option.some.inj hc
    exact ⟨by decide, by decide⟩
  · rw [List.getLast?_concat] at hc
    obtain rfl : '\x7d' = c := Option.some.inj hc
    exact ⟨by decide, by decide⟩

theorem rstripCr_dataLine (h : s.Fits) :
    rstripCr (Utf8.encode (dataLine (Json.render s.payload))) =
      Utf8.encode (dataLine (Json.render s.payload)) :=
  rstripCr_encode (getLast_append_cons h.edges.2.1 fun c hc => ne_cr_of_solid (h.edges.2.2 c hc))

variable {b : BlockFields}

theorem take_idLine (n : Nat) :
    b.take (Utf8.encode (idLine (toString n))) = { b with id := some (toString n) } := by
  have hSolid : ∀ c ∈ (toString n).toList, Solid c := fun c hc =>
    solid_of_isDigit (isDigit_of_mem_toString hc)
  unfold BlockFields.take
  rw [rstripCr_idLine, encode_idLine]
  simp only
  rw [if_neg (bytesLit_differs (by decide)), Framing.stripPrefix_append]
  simp only
  rw [stripBytes_encode (fun c hc => hSolid c (List.mem_of_mem_head? hc)) fun c hc =>
    hSolid c (List.mem_of_mem_getLast? hc), decodeReplace_encode, String.ofList_toList]

theorem take_eventLine {name : String} (h : '\r' ∉ name.toList) :
    b.take (Utf8.encode (eventLine name)) = { b with event := some (eventText name) } := by
  unfold BlockFields.take
  rw [rstripCr_eventLine h, encode_eventLine]
  simp only
  rw [if_neg (bytesLit_differs (by decide)),
    Framing.stripPrefix_of_not (bytesLit_differs (by decide)), Framing.stripPrefix_append]
  rfl

theorem take_data {rest : List UInt8} (h : rstripCr (bytesLit "data:" ++ rest) =
    bytesLit "data:" ++ rest) :
    b.take (bytesLit "data:" ++ rest) = { b with dataLines := b.dataLines ++ [rest] } := by
  unfold BlockFields.take
  rw [h]
  simp only
  rw [if_neg (bytesLit_differs (by decide)),
    Framing.stripPrefix_of_not (bytesLit_differs (by decide)),
    Framing.stripPrefix_of_not (bytesLit_differs (by decide)), Framing.stripPrefix_append]

end

/-! ## Blocks -/

/-- The lines of an item as they are gathered. -/
def Item.block (item : Item) : Block := item.lines.dropLast.map Utf8.encode

section

variable {s : Said} {item : Item} {items : List Item}

theorem said_lines_split (s : Said) : s.lines =
    ((s.id.map fun n => idLine (toString n)).toList ++
      [eventLine s.name, dataLine (Json.render s.payload)]) ++ [[]] := by
  rw [Said.lines_eq, List.append_assoc, List.append_assoc]
  rfl

theorem Item.lines_split (item : Item) : item.lines = item.lines.dropLast ++ [[]] := by
  cases hSaid : item.said with
  | some s => rw [Item.lines_said hSaid, said_lines_split, List.dropLast_concat]
  | none =>
    cases item with
    | comment => rfl
    | frame f at_ => cases hSaid
    | foreign id kind fields => cases hSaid

theorem Item.block_said (h : item.said = some s) :
    item.block = (s.id.map fun n => Utf8.encode (idLine (toString n))).toList ++
      [Utf8.encode (eventLine s.name), Utf8.encode (dataLine (Json.render s.payload))] := by
  rw [Item.block, Item.lines_said h, said_lines_split, List.dropLast_concat]
  cases s.id <;> rfl

/-- A line of a block is not blank, and nothing is stripped from it. -/
theorem plain_of_mem_block (h : item.InRange) {line : List UInt8} (hLine : line ∈ item.block) :
    line ≠ [] ∧ rstripCr line = line := by
  cases hSaid : item.said with
  | some s =>
    have hFits := h.fits hSaid
    rw [Item.block_said hSaid, List.mem_append, Option.mem_toList, Option.map_eq_some_iff,
      List.mem_cons, List.mem_singleton] at hLine
    rcases hLine with ⟨n, -, rfl⟩ | rfl | rfl
    · exact ⟨by rw [encode_idLine]; exact List.cons_ne_nil _ _, rstripCr_idLine n⟩
    · exact ⟨by rw [encode_eventLine]; exact List.cons_ne_nil _ _, rstripCr_eventLine hFits.cr_name⟩
    · exact ⟨by rw [encode_dataLine]; exact List.cons_ne_nil _ _, rstripCr_dataLine hFits⟩
  | none =>
    cases item with
    | comment =>
      rw [Item.block, Item.lines_comment] at hLine
      obtain rfl := List.mem_singleton.mp hLine
      decide
    | frame f at_ => cases hSaid
    | foreign id kind fields => cases hSaid

theorem newline_not_mem_block (h : item.InRange) {line : List UInt8} (hLine : line ∈ item.block) :
    newline ∉ line := by
  obtain ⟨l, hl, rfl⟩ := List.mem_map.mp hLine
  exact newline_not_mem_encode (newline_not_mem_lines h (List.dropLast_subset _ hl))

theorem map_rstripCr_block (h : item.InRange) : item.block.map rstripCr = item.block := by
  have hSame : item.block.map rstripCr = item.block.map id :=
    List.map_congr_left fun line hLine => (plain_of_mem_block h hLine).2
  rwa [List.map_id] at hSame

/-- Items are gathered as their blocks. -/
theorem blocksOf_items (h : ∀ i ∈ items, i.InRange) (rest : List (List UInt8)) :
    blocksOf ((items.flatMap Item.lines).map Utf8.encode ++ rest) =
      (items.map Item.block ++ (blocksOf rest).1, (blocksOf rest).2) := by
  induction items with
  | nil => rfl
  | cons item items ih =>
    have hItem := h item List.mem_cons_self
    have hBlank : [] ∉ item.block := fun hMem => (plain_of_mem_block hItem hMem).1 rfl
    have hLines : ((item :: items).flatMap Item.lines).map Utf8.encode ++ rest =
        item.block ++ ([] :: ((items.flatMap Item.lines).map Utf8.encode ++ rest)) := by
      rw [List.flatMap_cons, Item.lines_split, List.map_append, List.map_append, Item.block]
      simp
    have hRest := ih fun i hi => h i (List.mem_cons_of_mem _ hi)
    rw [blocksOf] at hRest
    have hCr : rstripCr [] = [] := rfl
    rw [hLines, blocksOf, List.map_append, List.map_cons, hCr, map_rstripCr_block hItem,
      Framing.splitLines_line hBlank, hRest]
    rfl

/-- A block is parsed back to what the frame says. -/
theorem parse_block (h : item.InRange) :
    parseSseBlock ([newline].intercalate item.block) = item.said.map Said.frame := by
  have hSplit : item.block ≠ [] → ([newline].intercalate item.block).splitOn newline = item.block :=
    List.splitOn_intercalate newline fun line hLine => newline_not_mem_block h hLine
  cases hSaid : item.said with
  | some s =>
    have hFits := h.fits hSaid
    have hBlock := Item.block_said hSaid
    have hData : rstripCr (bytesLit "data:" ++ Utf8.encode (' ' :: (Json.render s.payload).toList)) =
        bytesLit "data:" ++ Utf8.encode (' ' :: (Json.render s.payload).toList) := by
      rw [← encode_dataLine]
      exact rstripCr_dataLine hFits
    have hFields : item.block.foldl BlockFields.take {} = {
        event := some (eventText s.name)
        id := s.id.map toString
        dataLines := [Utf8.encode (' ' :: (Json.render s.payload).toList)] } := by
      rw [hBlock, List.foldl_append]
      cases hId : s.id with
      | none =>
        rw [Option.map_none, Option.toList_none, List.foldl_nil, List.foldl_cons, List.foldl_cons,
          List.foldl_nil, take_eventLine hFits.cr_name, encode_dataLine, take_data hData]
        rfl
      | some n =>
        rw [Option.map_some, Option.toList_some, List.foldl_cons, List.foldl_cons, List.foldl_cons,
          List.foldl_nil, List.foldl_nil, take_idLine, take_eventLine hFits.cr_name,
          encode_dataLine, take_data hData]
        rfl
    have hNe : item.block ≠ [] := by
      rw [hBlock]
      exact List.append_ne_nil_of_right_ne_nil _ (List.cons_ne_nil _ _)
    unfold parseSseBlock
    simp only [hSplit hNe, hFields]
    rw [if_neg (List.cons_ne_nil _ _), List.intercalate_singleton,
      stripBytes_encode hFits.edges.1 hFits.edges.2.2, decodeReplace_encode, String.ofList_toList]
    rfl
  | none =>
    cases item with
    | comment => decide
    | frame f at_ => cases hSaid
    | foreign id kind fields => cases hSaid

/-- The id of a frame is read as a number. -/
theorem idOf_block (h : item.InRange) (D : Decoding) :
    idOf D item.block = item.id?.map toString := by
  have hDigits : ∀ n : Nat, isDigits D.otherDigit (toString n) = true := by
    intro n
    have hNe : toString n ≠ "" := by
      intro hEq
      have hNil := congrArg String.toList hEq
      rw [Nat.toString_eq_repr, Nat.toList_repr] at hNil
      exact Nat.toDigits_ne_nil hNil
    rw [isDigits, Bool.and_eq_true, decide_eq_true_eq, List.all_eq_true]
    refine ⟨hNe, fun c hc => ?_⟩
    rw [isDigit_of_mem_toString hc, Bool.true_or]
  rw [idOf, parse_block h, Item.id?]
  cases item.said with
  | none => rfl
  | some s =>
    rw [Option.map_some, Option.bind_some, Option.bind_some, Said.frame]
    cases s.id with
    | none => rfl
    | some n =>
      rw [Option.map_some, Option.filter_some, hDigits, if_pos rfl]

/-- The cursor behind some items. -/
theorem cursorOf_items (h : ∀ i ∈ items, i.InRange) (D : Decoding) (c : Option Nat) :
    cursorOf D (c.map toString) (items.map Item.block) = (lastId c items).map toString := by
  induction items generalizing c with
  | nil => rfl
  | cons item items ih =>
    have hStep : (idOf D item.block).or (c.map toString) = (item.id?.or c).map toString := by
      rw [idOf_block (h item List.mem_cons_self)]
      cases item.id? <;> rfl
    rw [List.map_cons, cursorOf, List.foldl_cons, hStep]
    exact ih (fun i hi => h i (List.mem_cons_of_mem _ hi)) _

/-! ## The bytes of some items -/

/-- The lines of what was written are such that nothing is stripped from them. -/
theorem plain_wireBytes (h : ∀ i ∈ items, i.InRange) :
    ∀ l ∈ (splitLines newline (wireBytes items)).1, rstripCr l = l := by
  rw [splitLines_wireBytes h]
  intro l hl
  obtain ⟨line, hLine, rfl⟩ := List.mem_map.mp hl
  obtain ⟨item, hItem, hLine⟩ := List.mem_flatMap.mp hLine
  rw [Item.lines_split, List.mem_append, List.mem_singleton] at hLine
  rcases hLine with hLine | rfl
  · exact (plain_of_mem_block (h item hItem) (List.mem_map_of_mem hLine)).2
  · rfl

/-- Every beginning of such a stream is steady. -/
theorem steady_received (h : ∀ i ∈ items, i.InRange) (D : Decoding) (c : Option String)
    {got : List UInt8} (hGot : got <+: wireBytes items) : Steady D c got :=
  steady_of_plain D c fun l hl => plain_wireBytes h l ((Framing.splitLines_prefix hGot).subset hl)

/-- What was received is some whole items and a part of the next one. -/
theorem frames_received (h : ∀ i ∈ items, i.InRange) (part : List UInt8) :
    frames (wireBytes items ++ part) = items.map Item.block ++ frames part ∧
      openFrame (wireBytes items ++ part) = openFrame part ∧
        openLine (wireBytes items ++ part) = openLine part := by
  have hSplit : splitLines newline (wireBytes items ++ part) =
      ((items.flatMap Item.lines).map Utf8.encode ++ (splitLines newline part).1,
        (splitLines newline part).2) :=
    Framing.splitLines_joinLines (newline_not_mem_encoded h) part
  refine ⟨?_, ?_, ?_⟩
  · rw [frames, hSplit, blocksOf_items h]
    rfl
  · rw [openFrame, hSplit, blocksOf_items h]
    rfl
  · rw [openLine, hSplit]
    rfl

end

end Weflow.Client
