import Weflow.Client.Agree

/-!
# What the Python client acknowledges

The cursor that the Python client carries to the next connection, for a stream that is cut anywhere.
Frames that came whole move it until one is over the cap. The frame that is open at the cut does not,
with one exception: at a clean end it is parsed as it is, and it moves the cursor if its data line
has begun.
-/

namespace Weflow.Client

open Framing (splitLines joinLines)

/-! ## The open frame -/

/-- `part` is what came of the item; its blank line did not. -/
structure Item.OpenAt (item : Item) (part : List UInt8) : Prop where
  came : part <+: bytesOf item.lines
  open_ : part ≠ bytesOf item.lines

/-- A data line of the open frame has begun. -/
def DataBegun (part : List UInt8) : Prop :=
  ∃ line ∈ (splitLines newline part).1 ++ [(splitLines newline part).2], bytesLit "data:" <+: line

/-- The frame is within the cap. -/
def Item.Within (item : Item) : Prop := weight item.block ≤ sseBufferCap

instance (item : Item) : Decidable item.Within := inferInstanceAs (Decidable (_ ≤ _))

/-- The items before the first one over the cap. -/
def within (items : List Item) : List Item := items.takeWhile fun i => decide i.Within

section

variable {item next : Item} {items front : List Item} {part : List UInt8} {D : Decoding}

theorem encoded_split (item : Item) : item.lines.map Utf8.encode = item.block ++ [[]] := by
  have hMap := congrArg (List.map Utf8.encode) item.lines_split
  rw [List.map_append] at hMap
  exact hMap

theorem bytesOf_item (item : Item) :
    bytesOf item.lines = joinLines newline item.block ++ [newline] := by
  rw [bytesOf, encoded_split, Framing.joinLines_append]
  rfl

theorem length_joinLines (b : Block) : (joinLines newline b).length = weight b := by
  induction b with
  | nil => rfl
  | cons line b ih =>
    rw [joinLines, List.flatMap_cons, List.length_append, List.length_append, weight, ← ih]
    rfl

theorem joinLines_part (part : List UInt8) :
    joinLines newline (splitLines newline part).1 ++ (splitLines newline part).2 = part :=
  Framing.joinLines_splitLines part

/-- The lines of an open frame are some of its lines, and the rest of them did not come. -/
theorem Item.OpenAt.lines_prefix (h : item.InRange) (hOpen : item.OpenAt part) :
    (splitLines newline part).1 <+: item.block := by
  have hSep : ∀ l ∈ item.block ++ [[]], newline ∉ l := by
    intro l hl
    rcases List.mem_append.mp hl with hl | hl
    · exact newline_not_mem_block h hl
    · rw [List.mem_singleton.mp hl]
      exact List.not_mem_nil
  have hAll : splitLines newline (bytesOf item.lines) = (item.block ++ [[]], []) := by
    have hSplit := Framing.splitLines_joinLines hSep []
    rw [List.append_nil] at hSplit
    rw [bytesOf, encoded_split, hSplit]
    simp [splitLines]
  have hPrefix : (splitLines newline part).1 <+: (splitLines newline (bytesOf item.lines)).1 :=
    Framing.splitLines_prefix hOpen.came
  rw [hAll] at hPrefix
  rcases List.prefix_concat_iff.mp hPrefix with hEq | hInit
  · -- all the lines came, so all the bytes did
    refine absurd ?_ hOpen.open_
    have hLength := hOpen.came.length_le
    refine hOpen.came.eq_of_length (le_antisymm hLength ?_)
    rw [← joinLines_part part, hEq, bytesOf, encoded_split, List.length_append]
    omega
  · exact hInit

/-- The open line is the beginning of the next line, or all of the lines came. -/
theorem Item.OpenAt.openLine_cases (h : item.InRange) (hOpen : item.OpenAt part) :
    (∃ line rest, item.block = (splitLines newline part).1 ++ line :: rest ∧
      openLine part <+: line) ∨
    item.block = (splitLines newline part).1 ∧ openLine part = [] := by
  obtain ⟨rest, hRest⟩ := hOpen.lines_prefix h
  have hSep : newline ∉ openLine part := (Framing.not_mem_splitLines newline part).2
  have hBytes : bytesOf item.lines = joinLines newline (splitLines newline part).1 ++
      (joinLines newline rest ++ [newline]) := by
    rw [bytesOf_item, ← hRest, Framing.joinLines_append, List.append_assoc]
  have hCame := hOpen.came
  rw [hBytes] at hCame
  have hLine : openLine part <+: joinLines newline rest ++ [newline] := by
    refine (List.prefix_append_right_inj (joinLines newline (splitLines newline part).1)).mp ?_
    rw [openLine, joinLines_part]
    exact hCame
  cases rest with
  | nil =>
    have hNil : openLine part <+: [] := Framing.prefix_line hLine hSep
    rw [List.append_nil] at hRest
    exact .inr ⟨hRest.symm, List.prefix_nil.mp hNil⟩
  | cons line rest =>
    have hJoin : joinLines newline (line :: rest) ++ [newline] =
        line ++ newline :: (joinLines newline rest ++ [newline]) := by simp [joinLines]
    rw [hJoin] at hLine
    exact .inl ⟨line, rest, hRest.symm, Framing.prefix_line hLine hSep⟩

/-- What is held of an open frame is what came of it. -/
theorem Item.OpenAt.held_eq (h : item.InRange) (hOpen : item.OpenAt part) :
    frames part = [] ∧ openFrame part = (splitLines newline part).1 ∧
      held part = part.length ∧ part.length ≤ weight item.block := by
  have hPrefix := hOpen.lines_prefix h
  have hPlain : (splitLines newline part).1.map rstripCr = (splitLines newline part).1 := by
    refine (List.map_congr_left fun line hLine => ?_).trans (List.map_id _)
    exact (plain_of_mem_block h (hPrefix.subset hLine)).2
  have hBlank : [] ∉ (splitLines newline part).1 := fun hMem =>
    (plain_of_mem_block h (hPrefix.subset hMem)).1 rfl
  have hBlocks : blocksOf (splitLines newline part).1 = ([], (splitLines newline part).1) := by
    rw [blocksOf, hPlain, Framing.splitLines_open hBlank]
  have hFrame : openFrame part = (splitLines newline part).1 := congrArg Prod.snd hBlocks
  have hLength : part.length < (bytesOf item.lines).length := by
    refine lt_of_le_of_ne hOpen.came.length_le fun hEq => ?_
    exact hOpen.open_ (hOpen.came.eq_of_length hEq)
  refine ⟨congrArg Prod.fst hBlocks, hFrame, ?_, ?_⟩
  · have hJoin := congrArg List.length (joinLines_part part)
    rw [List.length_append, length_joinLines] at hJoin
    rw [held, hFrame]
    exact hJoin
  · rw [bytesOf_item, List.length_append, length_joinLines, List.length_singleton] at hLength
    omega

/-! ## The end of the stream -/

theorem idOf_nil (D : Decoding) : idOf D [] = none := rfl

/-- The frame that is parsed at a clean end. -/
def flushed (r : Reader) : Block :=
  if rstripCr r.buffer ≠ [] then r.gathered.pending ++ [rstripCr r.buffer] else r.gathered.pending

/-- At a clean end the open frame moves the cursor, too. -/
theorem lastEventId_finish {r : Reader} (h : r.gathered.overflow = false) :
    (r.finish D .eof).outcome.lastEventId =
      (idOf D (flushed r)).or r.gathered.lastEventId := by
  unfold Reader.finish
  simp only [h, Bool.false_eq_true, if_false]
  rw [← flushed]
  split
  · rename_i hNil
    rw [hNil, idOf_nil]
    rfl
  · rw [Gathered.dispatch_eq]
    rfl

/-- A block without a data line is no frame. -/
theorem take_noData {b : BlockFields} {raw : List UInt8} (h : ¬ bytesLit "data:" <+: raw) :
    (b.take raw).dataLines = b.dataLines := by
  have hStripped : ¬ bytesLit "data:" <+: rstripCr raw := fun hPrefix =>
    h (hPrefix.trans (List.rdropWhile_prefix _ _))
  unfold BlockFields.take
  simp only
  split_ifs
  · rfl
  · split
    · rfl
    · split
      · rfl
      · rw [Framing.stripPrefix_of_not hStripped]

theorem foldl_take_noData {raws : List (List UInt8)}
    (h : ∀ raw ∈ raws, ¬ bytesLit "data:" <+: raw) (b : BlockFields) :
    (raws.foldl BlockFields.take b).dataLines = b.dataLines := by
  induction raws generalizing b with
  | nil => rfl
  | cons raw raws ih =>
    rw [List.foldl_cons, ih fun r hr => h r (List.mem_cons_of_mem _ hr),
      take_noData (h raw List.mem_cons_self)]

theorem idOf_noData {b : Block} (hLine : ∀ line ∈ b, newline ∉ line)
    (h : ∀ line ∈ b, ¬ bytesLit "data:" <+: line) (D : Decoding) : idOf D b = none := by
  by_cases hNil : b = []
  · rw [hNil, idOf_nil]
  · have hSplit : ([newline].intercalate b).splitOn newline = b :=
      List.splitOn_intercalate newline hLine hNil
    rw [idOf, parseSseBlock, hSplit]
    simp only [foldl_take_noData h, if_true]
    rfl

/-- All that came of an open frame, as the reader holds it. -/
structure Holds (part : List UInt8) (r : Reader) : Prop where
  pending : r.gathered.pending = openFrame part
  buffer : r.buffer = openLine part

/-- A frame whose data line has not begun does not move the cursor at a clean end. -/
theorem idOf_flushed_noData (h : item.InRange) (hOpen : item.OpenAt part) {r : Reader}
    (hHolds : Holds part r) (hData : ¬ DataBegun part) : idOf D (flushed r) = none := by
  have hFrame := (hOpen.held_eq h).2.1
  obtain ⟨hSep, hSepLine⟩ := Framing.not_mem_splitLines newline part
  have hPrefix : rstripCr (openLine part) <+: openLine part := List.rdropWhile_prefix _ _
  have hLines : ∀ line ∈ (splitLines newline part).1,
      newline ∉ line ∧ ¬ bytesLit "data:" <+: line := by
    intro line hLine
    exact ⟨hSep line hLine, fun hBegun => hData ⟨line, List.mem_append_left _ hLine, hBegun⟩⟩
  have hLast : newline ∉ rstripCr (openLine part) ∧
      ¬ bytesLit "data:" <+: rstripCr (openLine part) := by
    refine ⟨fun hMem => hSepLine (hPrefix.subset hMem), fun hBegun => hData ?_⟩
    exact ⟨openLine part, List.mem_append_right _ List.mem_cons_self, hBegun.trans hPrefix⟩
  have hBlock : ∀ line ∈ flushed r, newline ∉ line ∧ ¬ bytesLit "data:" <+: line := by
    intro line hLine
    rw [flushed, hHolds.buffer, hHolds.pending, hFrame] at hLine
    split at hLine
    · rcases List.mem_append.mp hLine with hLine | hLine
      · exact hLines line hLine
      · rw [List.mem_singleton.mp hLine]
        exact hLast
    · exact hLines line hLine
  exact idOf_noData (fun line hLine => (hBlock line hLine).1)
    (fun line hLine => (hBlock line hLine).2) D

theorem rstripCr_data {line : List UInt8} (h : bytesLit "data:" <+: line) :
    bytesLit "data:" <+: rstripCr line := by
  obtain ⟨rest, rfl⟩ := h
  induction rest using List.reverseRecOn with
  | nil => decide
  | append_singleton rest b ih =>
    rw [← List.append_assoc]
    by_cases hCr : b = carriageReturn
    · have hDrop : rstripCr (bytesLit "data:" ++ rest ++ [b]) = rstripCr (bytesLit "data:" ++ rest) :=
        List.rdropWhile_concat_pos _ _ _ (beq_iff_eq.mpr hCr)
      rw [hDrop]
      exact ih
    · have hKeep : rstripCr (bytesLit "data:" ++ rest ++ [b]) = bytesLit "data:" ++ rest ++ [b] :=
        List.rdropWhile_concat_neg _ _ _ fun hEq => hCr (beq_iff_eq.mp hEq)
      rw [hKeep, List.append_assoc]
      exact List.prefix_append _ _

/-- A data line says nothing about the id. -/
theorem take_dataLine {b : BlockFields} {raw : List UInt8} (h : bytesLit "data:" <+: raw) :
    (b.take raw).id = b.id ∧ (b.take raw).dataLines ≠ [] := by
  obtain ⟨rest, hRest⟩ := rstripCr_data h
  unfold BlockFields.take
  rw [← hRest]
  simp only
  rw [if_neg (bytesLit_differs (by decide)),
    Framing.stripPrefix_of_not (bytesLit_differs (by decide)),
    Framing.stripPrefix_of_not (bytesLit_differs (by decide)), Framing.stripPrefix_append]
  exact ⟨rfl, List.append_ne_nil_of_right_ne_nil _ (List.cons_ne_nil _ _)⟩

/-- The id of a block that ends in a data line is that of the lines before it. -/
theorem idOf_concat_data {init : Block} {line : List UInt8}
    (hSep : ∀ l ∈ init ++ [line], newline ∉ l) (hData : bytesLit "data:" <+: line)
    (D : Decoding) : idOf D (init ++ [line]) =
      (init.foldl BlockFields.take {}).id.filter (isDigits D.otherDigit) := by
  have hSplit : ([newline].intercalate (init ++ [line])).splitOn newline = init ++ [line] :=
    List.splitOn_intercalate newline hSep
      (List.append_ne_nil_of_right_ne_nil _ (List.cons_ne_nil _ _))
  obtain ⟨hId, hNe⟩ := take_dataLine (b := init.foldl BlockFields.take {}) hData
  rw [idOf, parseSseBlock, hSplit, List.foldl_concat]
  simp only [if_neg hNe, Option.bind_some, hId]

/-- The data line of a frame is its last. -/
theorem Item.block_data (item : Item) :
    (∃ init data, item.block = init ++ [data] ∧ bytesLit "data:" <+: data ∧
      ∀ l ∈ init, ¬ bytesLit "data:" <+: l) ∨
    ∀ l ∈ item.block, ¬ bytesLit "data:" <+: l := by
  cases hSaid : item.said with
  | some s =>
    left
    refine ⟨(s.id.map fun n => Utf8.encode (idLine (toString n))).toList ++
      [Utf8.encode (eventLine s.name)], Utf8.encode (dataLine (Json.render s.payload)), ?_, ?_,
      fun l hl => ?_⟩
    · rw [Item.block_said hSaid, List.append_assoc]
      rfl
    · rw [encode_dataLine]
      exact List.prefix_append _ _
    · rw [List.mem_append, Option.mem_toList, Option.map_eq_some_iff, List.mem_singleton] at hl
      rcases hl with ⟨n, -, rfl⟩ | rfl
      · rw [encode_idLine]
        exact bytesLit_differs (by decide)
      · rw [encode_eventLine]
        exact bytesLit_differs (by decide)
  | none =>
    right
    cases item with
    | comment => decide
    | frame f at_ => cases hSaid
    | foreign id kind fields => cases hSaid

/-- Where the data line has begun, the lines before it came whole. -/
theorem flushed_data (h : item.InRange) (hOpen : item.OpenAt part) {r : Reader}
    (hHolds : Holds part r) (hData : DataBegun part) : ∃ init data cut,
      item.block = init ++ [data] ∧ flushed r = init ++ [cut] ∧
      bytesLit "data:" <+: data ∧ bytesLit "data:" <+: cut ∧ newline ∉ cut := by
  obtain ⟨line, hLine, hBegun⟩ := hData
  have hSep : newline ∉ openLine part := (Framing.not_mem_splitLines newline part).2
  have hLines := hOpen.lines_prefix h
  rw [flushed, hHolds.buffer, hHolds.pending, (hOpen.held_eq h).2.1]
  rcases item.block_data with ⟨init, data, hBlock, hIsData, hInit⟩ | hNone
  · refine ⟨init, data, ?_⟩
    rcases List.mem_append.mp hLine with hWhole | hHere
    · -- the data line came, and it is the last
      have hAll : (splitLines newline part).1 = init ++ [data] := by
        rw [hBlock] at hLines
        rcases List.prefix_concat_iff.mp hLines with hEq | hFront
        · exact hEq
        · exact absurd hBegun (hInit line (hFront.subset hWhole))
      have hNil : openLine part = [] := by
        rcases hOpen.openLine_cases h with ⟨next, rest, hNext, -⟩ | ⟨-, hNil⟩
        · rw [hBlock, ← hAll] at hNext
          exact absurd (List.self_eq_append_right.mp hNext) (List.cons_ne_nil _ _)
        · exact hNil
      refine ⟨data, hBlock, ?_, hIsData, hIsData, ?_⟩
      · rw [hNil, hAll]
        rfl
      · refine newline_not_mem_block h ?_
        rw [hBlock]
        exact List.mem_append_right _ List.mem_cons_self
    · -- the data line is the open one
      obtain rfl : line = openLine part := List.mem_singleton.mp hHere
      have hFront : (splitLines newline part).1 = init := by
        rcases hOpen.openLine_cases h with ⟨next, rest, hNext, hBegins⟩ | ⟨-, hNil⟩
        · rw [hBlock] at hNext
          rcases List.append_eq_append_iff.mp hNext with ⟨more, hMore, hLast⟩ | ⟨more, hMore, hLast⟩
          · rcases more with - | ⟨m, more⟩
            · rw [hMore, List.append_nil]
            · have hLength := congrArg List.length hLast
              simp at hLength
          · rcases more with - | ⟨m, more⟩
            · rw [hMore, List.append_nil]
            · obtain rfl : next = m := (List.cons.inj hLast).1
              refine absurd (hBegun.trans hBegins) (hInit next ?_)
              rw [hMore]
              exact List.mem_append_right _ List.mem_cons_self
        · rw [hNil] at hBegun
          exact absurd hBegun (by decide)
      have hCut := rstripCr_data hBegun
      have hNe : rstripCr (openLine part) ≠ [] := by
        intro hNil
        rw [hNil] at hCut
        exact absurd hCut (by decide)
      refine ⟨rstripCr (openLine part), hBlock, ?_, hIsData, hCut, fun hMem => ?_⟩
      · rw [if_pos hNe, hFront]
      · exact hSep ((List.rdropWhile_prefix _ _).subset hMem)
  · -- a keep-alive comment has no data line
    rcases List.mem_append.mp hLine with hWhole | hHere
    · exact absurd hBegun (hNone line (hLines.subset hWhole))
    · obtain rfl : line = openLine part := List.mem_singleton.mp hHere
      rcases hOpen.openLine_cases h with ⟨next, rest, hNext, hBegins⟩ | ⟨-, hNil⟩
      · refine absurd (hBegun.trans hBegins) (hNone next ?_)
        rw [hNext]
        exact List.mem_append_right _ List.mem_cons_self
      · rw [hNil] at hBegun
        exact absurd hBegun (by decide)

/-- A frame whose data line has begun is acknowledged at a clean end. -/
theorem idOf_flushed_data (h : item.InRange) (hOpen : item.OpenAt part) {r : Reader}
    (hHolds : Holds part r) (hData : DataBegun part) (D : Decoding) :
    idOf D (flushed r) = item.id?.map toString := by
  obtain ⟨init, data, cut, hBlock, hFlushed, hIsData, hCut, hSepCut⟩ :=
    flushed_data h hOpen hHolds hData
  have hSep : ∀ l ∈ init ++ [data], newline ∉ l := by
    intro l hl
    rw [← hBlock] at hl
    exact newline_not_mem_block h hl
  have hSepInit : ∀ l ∈ init ++ [cut], newline ∉ l := by
    rw [List.forall_mem_append, List.forall_mem_singleton]
    exact ⟨fun l hl => hSep l (List.mem_append_left _ hl), hSepCut⟩
  rw [hFlushed, idOf_concat_data hSepInit hCut, ← idOf_block h D, hBlock,
    idOf_concat_data hSep hIsData]

/-! ## The cursor -/

theorem kept_blocks (items : List Item) :
    kept (items.map Item.block) = (within items).map Item.block := List.takeWhile_map

theorem within_begins (items : List Item) : within items <+: items := List.takeWhile_prefix _

theorem within_all (h : ∀ i ∈ items, i.Within) : within items = items :=
  List.takeWhile_eq_self_iff.mpr fun i hi => decide_eq_true (h i hi)

theorem lastId_concat (c : Option Nat) (front : List Item) (next : Item) :
    lastId c (front ++ [next]) = next.id?.or (lastId c front) := List.foldl_concat _ _ _ _

/-- The frame that is open at a clean end is parsed, and its data line has begun. -/
def Flushes (front : List Item) (part : List UInt8) : StreamEnd → Prop
  | .error => False
  | .eof => (∀ i ∈ front, i.Within) ∧ part.length ≤ sseBufferCap ∧ DataBegun part

/-- A stream is given up for a frame over the cap, or for an open one that is. -/
theorem givenUp_cut (hFront : ∀ i ∈ front, i.InRange) (hNext : next.InRange)
    (hOpen : next.OpenAt part) : GivenUp (wireBytes front ++ part) ↔
      ¬ ((∀ i ∈ front, i.Within) ∧ part.length ≤ sseBufferCap) := by
  obtain ⟨hNone, -, hHeld, -⟩ := hOpen.held_eq hNext
  obtain ⟨hFrames, hFrame, hLine⟩ := frames_received hFront part
  have hFit : AllFit (frames (wireBytes front ++ part)) ↔ ∀ i ∈ front, i.Within := by
    rw [hFrames, hNone, List.append_nil]
    exact List.forall_mem_map
  rw [GivenUp, hFit, held, hFrame, hLine, ← held, hHeld, not_and_or, not_le]

/-- The cursor behind a stream that was cut in the item `next`. -/
theorem cursor_carried (D : Decoding) (c : Option Nat) (hFront : ∀ i ∈ front, i.InRange)
    (hNext : next.InRange) (hOpen : next.OpenAt part) {pieces : List (List UInt8)}
    (hPieces : pieces.flatten = wireBytes front ++ part) (end_ : StreamEnd) :
    (Flushes front part end_ →
      ((Reader.at (c.map toString)).connection D pieces end_).lastEventId =
        (lastId c (front ++ [next])).map toString) ∧
    (¬ Flushes front part end_ →
      ((Reader.at (c.map toString)).connection D pieces end_).lastEventId =
        (lastId c (within front)).map toString) := by
  have hItems : ∀ i ∈ front ++ [next], i.InRange := by
    rw [List.forall_mem_append, List.forall_mem_singleton]
    exact ⟨hFront, hNext⟩
  have hGot : wireBytes front ++ part <+: wireBytes (front ++ [next]) := by
    have hBytes : wireBytes (front ++ [next]) = wireBytes front ++ bytesOf next.lines := by
      rw [wireBytes, wireBytes, bytesOf, bytesOf, bytesOf, List.flatMap_append, List.map_append,
        Framing.joinLines_append, List.flatMap_singleton]
    rw [hBytes]
    exact (List.prefix_append_right_inj _).mpr hOpen.came
  have hUp := givenUp_cut hFront hNext hOpen
  obtain ⟨hFrames, hFrame, hLine⟩ := frames_received hFront part
  rw [(hOpen.held_eq hNext).1, List.append_nil] at hFrames
  have hReads := reads_gatheredAt D (c.map toString) [] (wireBytes front ++ part)
  have hCursor : cursorOf D (c.map toString) (kept (frames (wireBytes front ++ part))) =
      (lastId c (within front)).map toString := by
    rw [hFrames, kept_blocks, cursorOf_items fun i hi => hFront i ((within_begins front).subset hi)]
  have hWhole : (Reader.at (c.map toString)).connection D pieces end_ =
      (((Reader.at (c.map toString)).connect.chunk D (wireBytes front ++ part)).finish D
        end_).outcome :=
    Steady.connection_eq (steady_received hItems D (c.map toString) hGot) hPieces end_
  rw [hWhole]
  rcases (Reader.fed_connect D (Reader.at (c.map toString))).chunk (wireBytes front ++ part) with
    ⟨-, hFed⟩ | ⟨hGivenUp, hGathered⟩
  · -- all of it was read, so only the end of the stream makes a difference
    rw [List.nil_append] at hFed
    obtain ⟨hGathered, hBuffer, hGoesOn⟩ := hFed
    obtain ⟨hOverflow, hPending, -⟩ := hReads.inside (fits_of_not_givenUp hGoesOn)
    obtain ⟨hWithin, hLength⟩ := not_not.mp (mt hUp.mpr hGoesOn)
    rw [← hReads.lastEventId] at hCursor
    have hHolds : Holds part ((Reader.at (c.map toString)).connect.chunk D
        (wireBytes front ++ part)) := by
      refine ⟨?_, hBuffer.trans hLine⟩
      rw [hGathered]
      exact hPending.trans hFrame
    cases end_ with
    | error =>
      refine ⟨False.elim, fun _ => ?_⟩
      rw [← hCursor]
      exact congrArg Gathered.lastEventId hGathered
    | eof =>
      have hLast : ((Reader.at (c.map toString)).connect.chunk D
          (wireBytes front ++ part)).gathered.lastEventId =
            (lastId c (within front)).map toString := by
        rw [← hCursor]
        exact congrArg Gathered.lastEventId hGathered
      rw [lastEventId_finish (by rw [hGathered]; exact hOverflow), hLast]
      refine ⟨fun hFlushes => ?_, fun hNot => ?_⟩
      · rw [idOf_flushed_data hNext hOpen hHolds hFlushes.2.2, lastId_concat, within_all hWithin]
        cases next.id? <;> rfl
      · have hData : ¬ DataBegun part := fun hData => hNot ⟨hWithin, hLength, hData⟩
        rw [idOf_flushed_noData hNext hOpen hHolds hData, Option.none_or]
  · rw [List.nil_append] at hGivenUp hGathered
    have hFlushes : ¬ Flushes front part end_ := by
      intro hFlushes
      cases end_ with
      | error => exact hFlushes
      | eof => exact hUp.mp hGivenUp ⟨hFlushes.1, hFlushes.2.1⟩
    refine ⟨fun h => absurd h hFlushes, fun _ => ?_⟩
    rw [Reader.outcome_givenUp hGathered, outcomeAt]
    exact hCursor

/-! ## What is acknowledged -/

theorem map_toString_inj {a b : Option Nat} : a.map toString = b.map toString ↔ a = b := by
  have hInj : ∀ m n : Nat, toString m = toString n → m = n := by
    intro m n hEq
    have hDigits := congrArg String.toList hEq
    rw [Nat.toString_eq_repr, Nat.toString_eq_repr, Nat.toList_repr, Nat.toList_repr] at hDigits
    rw [← Nat.ofDigitChars_ten_toDigits (n := m), hDigits, Nat.ofDigitChars_ten_toDigits]
  exact Option.map_inj_right hInj

/-- No other id came than those of the frames that count: at or behind a frame over the cap, and in
a frame that is parsed while it is open. -/
structure NoOtherId (c : Option Nat) (front : List Item) (next : Item) (part : List UInt8)
    (end_ : StreamEnd) : Prop where
  overCap : lastId c (within front) = lastId c front
  flushed : Flushes front part end_ → ∀ n ∈ next.id?, lastId c front = some n

/-- Wherever the stream is cut, in whatever pieces it came, and however it ends: the cursor is the
id of the last frame that was received whole, if no other id came in its way. -/
theorem acknowledged_iff (D : Decoding) (c : Option Nat) (front : List Item) (next : Item)
    (hFront : ∀ i ∈ front, i.InRange) (hNext : next.InRange) (part : List UInt8)
    (hOpen : next.OpenAt part) (pieces : List (List UInt8))
    (hPieces : pieces.flatten = wireBytes front ++ part) (end_ : StreamEnd) :
    ((Reader.at (c.map toString)).connection D pieces end_).lastEventId =
        (lastId c front).map toString ↔ NoOtherId c front next part end_ := by
  obtain ⟨hFlushed, hPlain⟩ := cursor_carried D c hFront hNext hOpen hPieces end_
  by_cases hFlushes : Flushes front part end_
  · have hWithin : within front = front := by
      cases end_ with
      | error => exact hFlushes.elim
      | eof => exact within_all hFlushes.1
    rw [hFlushed hFlushes, map_toString_inj, lastId_concat, or_eq_iff]
    exact ⟨fun h => ⟨congrArg (lastId c) hWithin, fun _ => h⟩, fun h => h.flushed hFlushes⟩
  · rw [hPlain hFlushes, map_toString_inj]
    exact ⟨fun h => ⟨h, fun hNow => absurd hNow hFlushes⟩, NoOtherId.overCap⟩

end

/-! ## A frame that is cut -/

def lastFrame : Item := .frame (.live 7 (.revoke greeting)) {}

def frameBefore : Item := .frame (.live 6 (.revoke greeting)) {}

def cutStream : List UInt8 := wireBytes [frameBefore] ++ (bytesOf lastFrame.lines).take 60

theorem openAt_take (item : Item) {n : Nat} (h : n < (bytesOf item.lines).length) :
    item.OpenAt ((bytesOf item.lines).take n) where
  came := List.take_prefix _ _
  open_ hEq := by
    have hLength := congrArg List.length hEq
    rw [List.length_take] at hLength
    omega

/-- A frame came whole, and the next one was cut in its data: the second is not acknowledged after an
error, and it is at a clean end. -/
theorem acknowledged_lastFrame :
    ((Reader.at none).connection (decoding fun _ => false) [cutStream] .error).lastEventId =
        some "6" ∧
      ((Reader.at none).connection (decoding fun _ => false) [cutStream] .eof).lastEventId ≠
        some "6" := by
  have hIff := fun end_ => acknowledged_iff (decoding fun _ => false) none [frameBefore] lastFrame
    (List.forall_mem_singleton.mpr (inRange_revoke (by decide) (by decide)).2) inRange_greeting
    ((bytesOf lastFrame.lines).take 60) (openAt_take _ (by decide +kernel)) [cutStream]
    (List.append_nil _) end_
  obtain ⟨hWithin, hLast, hBegun⟩ : frameBefore.Within ∧
      ((bytesOf lastFrame.lines).take 60).length ≤ sseBufferCap ∧
      DataBegun ((bytesOf lastFrame.lines).take 60) := by
    unfold DataBegun
    decide +kernel
  refine ⟨(hIff .error).mpr ⟨?_, False.elim⟩, fun hEq => ?_⟩
  · rw [within_all (List.forall_mem_singleton.mpr hWithin)]
  · have hOther := ((hIff .eof).mp hEq).flushed
      ⟨List.forall_mem_singleton.mpr hWithin, hLast, hBegun⟩ 7 rfl
    exact absurd hOther (by decide)

/-- At a clean end a frame without its blank line moves the cursor, and where its data line was cut
its event is lost. -/
theorem cut_frame_acknowledged :
    lastFrame.OpenAt ((bytesOf lastFrame.lines).take 60) ∧
      (Reader.at none).connection (decoding fun _ => false) [(bytesOf lastFrame.lines).take 60] .eof =
        ⟨some "7", [], false⟩ :=
  ⟨openAt_take _ (by decide +kernel), by decide +kernel⟩

end Weflow.Client
