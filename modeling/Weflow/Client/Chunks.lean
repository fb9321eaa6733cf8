import Weflow.Client.Python

/-!
# Streams in pieces

A stream comes in pieces, and the readers of the two clients should not care how it was cut. The
Rust reader does not: what it holds is a function of the bytes that came (`Reading.Received`). The
Python reader counts against its cap in two ways. A line that came whole is counted without its
CRs, and an unfinished line is counted at the end of every piece, with them. A cut in front of a
newline can therefore take a frame over the cap that would have fitted.

* `Reader.chunks_cases`: the stream is given up at the first cut where too much is held.
* `pieces_agree_iff`: the splits of a stream agree exactly if such a cut makes no difference, as a
  condition on the lines of the stream.
-/

namespace Weflow.Client

open Framing (splitLines)

/-! ## What is held at a cut -/

/-- What is counted where a piece ends: the lines of the open frame, and its unfinished line as it
came. -/
def held (got : List UInt8) : Nat := weight (openFrame got) + (openLine got).length

/-- The stream is given up where the piece ends with `got`. -/
def GivenUp (got : List UInt8) : Prop := ¬ AllFit (frames got) ∨ sseBufferCap < held got

/-- The loop behind the lines of `got`. -/
def gatheredAt (D : Decoding) (c : Option String) (y : List ServerEvent) (got : List UInt8) :
    Gathered := (Gathered.start c y).lines D (splitLines newline got).1

/-- All that came was read. -/
structure Reader.Fed (D : Decoding) (c : Option String) (y : List ServerEvent) (got : List UInt8)
    (r : Reader) : Prop where
  gathered : r.gathered = gatheredAt D c y got
  buffer : r.buffer = openLine got
  goesOn : ¬ GivenUp got

section

variable {D : Decoding} {c : Option String} {y : List ServerEvent} {got : List UInt8} {r : Reader}

theorem reads_gatheredAt (D : Decoding) (c : Option String) (y : List ServerEvent)
    (got : List UInt8) : (gatheredAt D c y got).Reads D c y (frames got) (openFrame got) :=
  reads_lines (splitLines newline got).1

/-- The test at the end of a piece. -/
theorem givenUp_iff : GivenUp got ↔
    sseBufferCap < (gatheredAt D c y got).pendingBytes + (openLine got).length := by
  have hReads := reads_gatheredAt D c y got
  by_cases hFit : AllFit (frames got)
  · rw [GivenUp, held, (hReads.inside hFit).2.2]
    exact ⟨fun h => h.resolve_left (not_not.mpr hFit), .inr⟩
  · have hBytes := (hReads.beyond hFit).2
    exact ⟨fun _ => by omega, fun _ => .inl hFit⟩

theorem not_givenUp_nil : ¬ GivenUp [] := by
  rintro (h | h)
  · exact h fun b hb => absurd hb List.not_mem_nil
  · exact absurd h (Nat.not_lt_zero _)

theorem fits_of_not_givenUp (h : ¬ GivenUp got) : AllFit (frames got) :=
  not_not.mp (not_or.mp h).1

theorem gatheredAt_append (a b : List UInt8) : gatheredAt D c y (a ++ b) =
    (gatheredAt D c y a).lines D (splitLines newline (openLine a ++ b)).1 := by
  rw [gatheredAt, Framing.splitLines_append, Gathered.lines_append]
  rfl

theorem openLine_append (a b : List UInt8) :
    openLine (a ++ b) = (splitLines newline (openLine a ++ b)).2 := by
  rw [openLine, Framing.splitLines_append]
  rfl

namespace Reader

theorem fed_connect (D : Decoding) (r : Reader) :
    r.connect.Fed D r.gathered.lastEventId r.gathered.yielded [] where
  gathered := rfl
  buffer := rfl
  goesOn := not_givenUp_nil

/-- A piece arrives: it is read, or the stream is given up behind it. -/
theorem Fed.chunk (h : r.Fed D c y got) (piece : List UInt8) :
    (¬ GivenUp (got ++ piece) ∧ (r.chunk D piece).Fed D c y (got ++ piece)) ∨
      (GivenUp (got ++ piece) ∧ (r.chunk D piece).gathered =
        { gatheredAt D c y (got ++ piece) with overflow := true }) := by
  obtain ⟨hGathered, hBuffer, hGoesOn⟩ := h
  have hFit := fits_of_not_givenUp hGoesOn
  have hOpen : r.gathered.overflow = false := by
    rw [hGathered]
    exact ((reads_gatheredAt D c y got).inside hFit).1
  have hChunk : r.chunk D piece =
      if sseBufferCap < (gatheredAt D c y (got ++ piece)).pendingBytes +
          (openLine (got ++ piece)).length then
        { gathered := { gatheredAt D c y (got ++ piece) with overflow := true }
          buffer := openLine (got ++ piece) }
      else { gathered := gatheredAt D c y (got ++ piece), buffer := openLine (got ++ piece) } := by
    rw [gatheredAt_append, openLine_append, ← hGathered, ← hBuffer]
    exact if_neg (by rw [hOpen]; exact Bool.false_ne_true)
  rw [hChunk]
  split
  · rename_i hTest
    exact .inr ⟨givenUp_iff.mpr hTest, rfl⟩
  · rename_i hTest
    have hUp : ¬ GivenUp (got ++ piece) := fun hUp => hTest (givenUp_iff.mp hUp)
    exact .inl ⟨hUp, rfl, rfl, hUp⟩

theorem chunks_overflow (h : r.gathered.overflow = true) (pieces : List (List UInt8)) :
    pieces.foldl (Reader.chunk D) r = r := by
  induction pieces with
  | nil => rfl
  | cons piece pieces ih =>
    have hSame : r.chunk D piece = r := if_pos h
    rw [List.foldl_cons, hSame, ih]

/-- Some pieces arrive: all of them are read, or the stream is given up behind one of them. -/
theorem chunks_cases (h : r.Fed D c y got) (pieces : List (List UInt8)) :
    (pieces.foldl (Reader.chunk D) r).Fed D c y (got ++ pieces.flatten) ∨
      ∃ upTo, upTo <+: got ++ pieces.flatten ∧ GivenUp upTo ∧
        (pieces.foldl (Reader.chunk D) r).gathered =
          { gatheredAt D c y upTo with overflow := true } := by
  induction pieces generalizing r got with
  | nil =>
    rw [List.flatten_nil, List.append_nil]
    exact .inl h
  | cons piece pieces ih =>
    rw [List.foldl_cons, List.flatten_cons, ← List.append_assoc]
    rcases h.chunk piece with ⟨-, hFed⟩ | ⟨hUp, hGathered⟩
    · exact ih hFed
    · right
      refine ⟨got ++ piece, List.prefix_append _ _, hUp, ?_⟩
      rw [chunks_overflow (by rw [hGathered])]
      exact hGathered

end Reader

end

/-! ## The end of a stream -/

/-- What a caller of the Python client can tell at the end of a stream. -/
structure Outcome where
  lastEventId : Option String
  yielded : List ServerEvent
  overflow : Bool
deriving DecidableEq, Repr

def Reader.outcome (r : Reader) : Outcome :=
  ⟨r.gathered.lastEventId, r.gathered.yielded, r.gathered.overflow⟩

/-- A connection of the Python client, from its begin to its end. -/
def Reader.connection (D : Decoding) (r : Reader) (pieces : List (List UInt8)) (e : StreamEnd) :
    Outcome := ((pieces.foldl (Reader.chunk D) r.connect).finish D e).outcome

/-- A connection of the Rust client: everything that was handed over, and the cursor. -/
def Reading.connection (decode : Decode) (s : Reading) (pieces : List (List UInt8)) :
    List Handed × Option Nat :=
  let t := pieces.foldl (Reading.chunk decode) s.connect
  (t.handed, t.sse.lastEventId)

/-- Any two ways in which a stream comes in pieces are the same for both clients. -/
def PiecesAgree (decode : Decode) (D : Decoding) (s : Reading) (r : Reader)
    (stream : List UInt8) : Prop :=
  ∀ pieces pieces' : List (List UInt8), pieces.flatten = stream → pieces'.flatten = stream →
    s.connection decode pieces = s.connection decode pieces' ∧
      ∀ e, r.connection D pieces e = r.connection D pieces' e

/-- The frames that are read of `stream` behind those of `upTo`, where the whole stream comes at
once. -/
def framesBehind (upTo stream : List UInt8) : List Block :=
  (kept (frames stream)).drop (frames upTo).length

/-- Where too much is held at a cut, the stream is given up when it comes in one piece, too, and
until then nothing is yielded and the cursor stays. -/
def Steady (D : Decoding) (c : Option String) (stream : List UInt8) : Prop :=
  ∀ upTo, upTo <+: stream → sseBufferCap < held upTo →
    GivenUp stream ∧ yieldedOf D (framesBehind upTo stream) = [] ∧
      cursorOf D (cursorOf D c (kept (frames upTo))) (framesBehind upTo stream) =
        cursorOf D c (kept (frames upTo))

section

variable {D : Decoding} {c : Option String} {y : List ServerEvent} {stream : List UInt8}
  {decode : Decode} {s : Reading} {r : Reader}

/-- The outcome for the frames that were read. -/
def outcomeAt (D : Decoding) (c : Option String) (y : List ServerEvent) (got : List UInt8) :
    Outcome := ⟨cursorOf D c (kept (frames got)), y ++ yieldedOf D (kept (frames got)), true⟩

theorem finish_overflow (h : r.gathered.overflow = true) (e : StreamEnd) : r.finish D e = r := by
  cases e with
  | eof => exact if_pos h
  | error => rfl

theorem Reader.outcome_givenUp {got : List UInt8}
    (h : r.gathered = { gatheredAt D c y got with overflow := true }) (e : StreamEnd) :
    (r.finish D e).outcome = outcomeAt D c y got := by
  have hReads := reads_gatheredAt D c y got
  rw [finish_overflow (by rw [h]), Reader.outcome, h, outcomeAt, ← hReads.lastEventId,
    ← hReads.yielded]

/-- A stream that was read to its end is not given up there. -/
theorem Reader.Fed.overflow_finish {got : List UInt8} (h : r.Fed D c y got) (e : StreamEnd) :
    (r.finish D e).outcome.overflow = false := by
  have hOpen : r.gathered.overflow = false := by
    rw [h.gathered]
    exact ((reads_gatheredAt D c y got).inside (fits_of_not_givenUp h.goesOn)).1
  cases e with
  | error => exact hOpen
  | eof =>
    unfold Reader.finish
    simp only [hOpen, Bool.false_eq_true, if_false, Gathered.dispatch_eq]
    split
    · split
      · exact hOpen
      · rfl
    · split
      · exact hOpen
      · rfl

theorem Reader.Fed.ext {t : Reader} (h : r.Fed D c y stream) (ht : t.Fed D c y stream) : r = t := by
  obtain ⟨g, b⟩ := r
  obtain ⟨g', b'⟩ := t
  rw [show g = g' from h.gathered.trans ht.gathered.symm,
    show b = b' from h.buffer.trans ht.buffer.symm]

theorem frames_prefix {upTo : List UInt8} (h : upTo <+: stream) :
    frames upTo <+: frames stream := by
  obtain ⟨rest, rfl⟩ := h
  rw [frames, frames, Framing.splitLines_append, blocksOf_append]
  exact List.prefix_append _ _

/-- The frames that are read of the stream: those of its beginning, and those behind. -/
theorem kept_frames {upTo : List UInt8} (h : upTo <+: stream) :
    kept (frames stream) = kept (frames upTo) ++ framesBehind upTo stream := by
  obtain ⟨more, hMore⟩ := frames_prefix h
  rw [framesBehind, ← hMore]
  by_cases hFit : AllFit (frames upTo)
  · rw [kept_append hFit, kept_of_allFit hFit, List.drop_left]
  · have hLength : (kept (frames upTo)).length ≤ (frames upTo).length :=
      (List.takeWhile_prefix _).length_le
    rw [kept_append_of_not hFit, List.drop_eq_nil_of_le hLength, List.append_nil]

/-- The first frame over the cap ends the reading wherever the stream is cut behind it. -/
theorem framesBehind_of_not {upTo : List UInt8} (h : upTo <+: stream)
    (hNot : ¬ AllFit (frames upTo)) :
    GivenUp stream ∧ framesBehind upTo stream = [] := by
  obtain ⟨more, hMore⟩ := frames_prefix h
  refine ⟨.inl ?_, ?_⟩
  · rw [← hMore, allFit_append]
    exact fun hAll => hNot hAll.1
  · have hLength : (kept (frames upTo)).length ≤ (frames upTo).length :=
      (List.takeWhile_prefix _).length_le
    rw [framesBehind, ← hMore, kept_append_of_not hNot, List.drop_eq_nil_of_le hLength]

/-- On a steady stream, giving up early and giving up late are the same. -/
theorem Steady.outcomeAt_eq (hSteady : Steady D c stream) {upTo : List UInt8}
    (h : upTo <+: stream) (hUp : GivenUp upTo) :
    GivenUp stream ∧ outcomeAt D c y upTo = outcomeAt D c y stream := by
  have hBehind : GivenUp stream ∧ yieldedOf D (framesBehind upTo stream) = [] ∧
      cursorOf D (cursorOf D c (kept (frames upTo))) (framesBehind upTo stream) =
        cursorOf D c (kept (frames upTo)) := by
    rcases hUp with hNot | hHeld
    · obtain ⟨hStream, hNil⟩ := framesBehind_of_not h hNot
      rw [hNil]
      exact ⟨hStream, rfl, rfl⟩
    · exact hSteady upTo h hHeld
  obtain ⟨hStream, hYielded, hCursor⟩ := hBehind
  refine ⟨hStream, ?_⟩
  rw [outcomeAt, outcomeAt, kept_frames h, cursorOf_append, yieldedOf_append, hYielded, hCursor,
    List.append_nil]

/-- The Rust client does not see the pieces. -/
theorem Reading.connection_eq (decode : Decode) (s : Reading) {pieces pieces' : List (List UInt8)}
    (h : pieces.flatten = pieces'.flatten) :
    s.connection decode pieces = s.connection decode pieces' := by
  have hOne := (Reading.received_connect decode s).chunks pieces
  have hTwo := (Reading.received_connect decode s).chunks pieces'
  rw [← h] at hTwo
  rw [Reading.connection, Reading.connection]
  simp only [hOne.handed, hTwo.handed, hOne.sse, hTwo.sse]

/-- On a steady stream every way to cut it leads to one outcome. -/
theorem Steady.connection_eq (hSteady : Steady D r.gathered.lastEventId stream)
    {pieces : List (List UInt8)} (hPieces : pieces.flatten = stream) (e : StreamEnd) :
    r.connection D pieces e = r.connection D [stream] e := by
  have hCases := Reader.chunks_cases (Reader.fed_connect D r) pieces
  have hWhole := Reader.chunks_cases (Reader.fed_connect D r) [stream]
  rw [List.nil_append, hPieces] at hCases
  rw [List.nil_append, List.flatten_singleton] at hWhole
  rw [Reader.connection, Reader.connection]
  rcases hCases with hFed | ⟨upTo, hPrefix, hUp, hGathered⟩
  · rcases hWhole with hFed' | ⟨upTo, hPrefix, hUp, -⟩
    · rw [hFed.ext hFed']
    · exact absurd (hSteady.outcomeAt_eq (y := []) hPrefix hUp).1 hFed.goesOn
  · obtain ⟨hStream, hEq⟩ := hSteady.outcomeAt_eq (y := r.gathered.yielded) hPrefix hUp
    rw [Reader.outcome_givenUp hGathered, hEq]
    rcases hWhole with hFed' | ⟨upTo', hPrefix', hUp', hGathered'⟩
    · exact absurd hStream hFed'.goesOn
    · rw [Reader.outcome_givenUp hGathered', (hSteady.outcomeAt_eq hPrefix' hUp').2]

/-- A cut behind `upTo`, where the stream is given up. -/
theorem Reader.connection_cut {upTo rest : List UInt8} (hUp : GivenUp upTo) (e : StreamEnd) :
    r.connection D [upTo, rest] e =
      outcomeAt D r.gathered.lastEventId r.gathered.yielded upTo := by
  rcases (Reader.fed_connect D r).chunk upTo with ⟨hNot, -⟩ | ⟨-, hGathered⟩
  · exact absurd hUp hNot
  · rw [Reader.connection, List.foldl_cons, Reader.chunks_overflow (by rw [hGathered])]
    exact Reader.outcome_givenUp hGathered e

/-- The ways in which a stream comes in pieces agree exactly for the steady streams. -/
theorem pieces_agree_iff_steady (decode : Decode) (D : Decoding) (s : Reading) (r : Reader)
    (stream : List UInt8) :
    PiecesAgree decode D s r stream ↔ Steady D r.gathered.lastEventId stream := by
  constructor
  · rintro hAgree upTo hPrefix hHeld
    obtain ⟨rest, hRest⟩ := id hPrefix
    have hTwo : [upTo, rest].flatten = stream := by simpa using hRest
    have hOne : [stream].flatten = stream := by simp
    have hEq := (hAgree [upTo, rest] [stream] hTwo hOne).2 .error
    rw [Reader.connection_cut (.inr hHeld)] at hEq
    have hWhole := (Reader.fed_connect D r).chunk stream
    rw [List.nil_append] at hWhole
    rcases hWhole with ⟨-, hFed⟩ | ⟨hUp, hGathered⟩
    · -- the whole stream is not given up, but the one with the cut is
      have hTrue := congrArg Outcome.overflow hEq
      rw [Reader.connection, List.foldl_cons, List.foldl_nil, hFed.overflow_finish] at hTrue
      cases hTrue
    · rw [Reader.connection, List.foldl_cons, List.foldl_nil, Reader.outcome_givenUp hGathered,
        outcomeAt, outcomeAt, kept_frames hPrefix, cursorOf_append, yieldedOf_append,
        Outcome.mk.injEq, ← List.append_assoc] at hEq
      exact ⟨hUp, List.self_eq_append_right.mp hEq.2.1, hEq.1.symm⟩
  · intro hSteady pieces pieces' hPieces hPieces'
    refine ⟨Reading.connection_eq decode s (hPieces.trans hPieces'.symm), fun e => ?_⟩
    rw [hSteady.connection_eq hPieces, hSteady.connection_eq hPieces']

/-! ## The lines of a stream -/

/-- The lines of a stream; the last one is unfinished. -/
def linesOf (stream : List UInt8) : List (List UInt8) :=
  (splitLines newline stream).1 ++ [openLine stream]

/-- The lines of the open frame, without their CRs, and one more line as it came are over the cap. -/
def Overfull (before : List (List UInt8)) (line : List UInt8) : Prop :=
  sseBufferCap < weight (blocksOf before).2 + line.length

/-- A frame for which nothing is yielded. -/
def Silent (D : Decoding) (b : Block) : Prop :=
  ∀ f ∈ parseSseBlock ([newline].intercalate b), D.yielded f = []

/-- The last id among some frames. -/
def lastIdOf (D : Decoding) (bs : List Block) : Option String := (bs.filterMap (idOf D)).getLast?

/-- The first of some frames is over the cap; without frames the open one at the end is. -/
def StartsOver (stream : List UInt8) : List Block → Prop
  | [] => sseBufferCap < held stream
  | b :: _ => sseBufferCap < weight b

/-- Behind the frames `seen` come frames within the cap, silent and without a new id, and then one
over the cap: a whole one, or the open one at the end. -/
structure Drains (D : Decoding) (c : Option String) (stream : List UInt8)
    (seen quiet beyond : List Block) : Prop where
  frames_eq : frames stream = seen ++ quiet ++ beyond
  fit : AllFit quiet
  starts : StartsOver stream beyond
  silent : ∀ b ∈ quiet, Silent D b
  ids : ∀ id ∈ lastIdOf D quiet, (lastIdOf D seen).or c = some id

/-- Behind every line that is over the cap as it came, with frames that fit before it, the stream is
over the cap as it is counted whole, and the frames until then tell nothing. -/
def CutsHarmless (D : Decoding) (c : Option String) (stream : List UInt8) : Prop :=
  ∀ before line after, linesOf stream = before ++ line :: after → AllFit (blocksOf before).1 →
    Overfull before line → ∃ quiet beyond, Drains D c stream (blocksOf before).1 quiet beyond

/-- A cut ends in a line. -/
theorem cut_line {upTo : List UInt8} (h : upTo <+: stream) : ∃ line after,
    linesOf stream = (splitLines newline upTo).1 ++ line :: after ∧ openLine upTo <+: line := by
  obtain ⟨rest, rfl⟩ := h
  have hOpenLine : newline ∉ openLine upTo := (Framing.not_mem_splitLines newline upTo).2
  have hLines : linesOf (upTo ++ rest) = (splitLines newline upTo).1 ++
      linesOf (openLine upTo ++ rest) := by
    rw [linesOf, linesOf, openLine_append, Framing.splitLines_append, ← List.append_assoc]
    rfl
  rw [hLines]
  rcases Framing.splitLines_begin hOpenLine rest with hNone | ⟨line, lines, hSome, hBegin⟩
  · refine ⟨openLine upTo ++ rest, [], ?_, List.prefix_append _ _⟩
    have hOne : linesOf (openLine upTo ++ rest) = [openLine upTo ++ rest] := by
      have hOpen : openLine (openLine upTo ++ rest) = openLine upTo ++ rest :=
        congrArg Prod.snd hNone
      rw [linesOf, hNone, hOpen, List.nil_append]
    rw [hOne]
  · refine ⟨line, lines ++ [openLine (openLine upTo ++ rest)], ?_, hBegin⟩
    rw [linesOf, hSome, List.cons_append]

/-- The stream can be cut at the end of every line. -/
theorem line_cut {before after : List (List UInt8)} {line : List UInt8}
    (h : linesOf stream = before ++ line :: after) : ∃ upTo, upTo <+: stream ∧
      (splitLines newline upTo).1 = before ∧ openLine upTo = line := by
  have hSep : ∀ l ∈ linesOf stream, newline ∉ l := by
    obtain ⟨hLines, hLast⟩ := Framing.not_mem_splitLines newline stream
    rw [linesOf, List.forall_mem_append, List.forall_mem_singleton]
    exact ⟨hLines, hLast⟩
  have hSplit : splitLines newline (Framing.joinLines newline before ++ line) = (before, line) := by
    rw [h] at hSep
    have hBefore : ∀ l ∈ before, newline ∉ l := fun l hl => hSep l (List.mem_append_left _ hl)
    have hLine : newline ∉ line := hSep line (List.mem_append_right _ List.mem_cons_self)
    rw [Framing.splitLines_joinLines hBefore, Framing.splitLines_open hLine, List.append_nil]
  refine ⟨Framing.joinLines newline before ++ line, ?_, congrArg Prod.fst hSplit,
    congrArg Prod.snd hSplit⟩
  have hStream : Framing.joinLines newline (splitLines newline stream).1 ++ openLine stream =
      stream := Framing.joinLines_splitLines stream
  rw [linesOf] at h
  rcases List.eq_nil_or_concat' after with rfl | ⟨front, last, rfl⟩
  · obtain ⟨hBefore, hLine⟩ := List.append_inj' h rfl
    refine ⟨[], ?_⟩
    rw [List.append_nil, ← hBefore, ← List.singleton_injective hLine, hStream]
  · rw [← List.cons_append, ← List.append_assoc] at h
    have hLines := (List.append_inj' h rfl).1
    rw [← hStream, hLines, Framing.joinLines_append, List.append_assoc]
    refine (List.prefix_append_right_inj _).mpr ?_
    rw [Framing.joinLines, List.flatMap_cons, List.append_assoc, List.append_assoc]
    exact List.prefix_append _ _

theorem yieldedOf_eq_nil {bs : List Block} : yieldedOf D bs = [] ↔ ∀ b ∈ bs, Silent D b := by
  rw [yieldedOf, List.flatMap_eq_nil_iff]
  refine forall₂_congr fun b _ => ?_
  rw [Silent, List.flatMap_eq_nil_iff]
  simp only [Option.mem_toList, Option.mem_def]

theorem cursorOf_eq (c : Option String) (bs : List Block) :
    cursorOf D c bs = (lastIdOf D bs).or c := by
  induction bs using List.reverseRecOn with
  | nil => rfl
  | append_singleton bs b ih =>
    rw [cursorOf_append, ih, lastIdOf, lastIdOf, List.filterMap_append]
    cases hId : idOf D b with
    | none => simp [cursorOf, hId]
    | some id => simp [cursorOf, hId]

theorem or_eq_iff {α : Type*} {a b : Option α} : a.or b = b ↔ ∀ n ∈ a, b = some n := by
  cases a with
  | none => simp
  | some n => simp [eq_comm]

/-- What is read of the stream behind some of its frames. -/
theorem Drains.framesBehind_eq {upTo : List UInt8} {quiet beyond : List Block}
    (hFit : AllFit (frames upTo)) (h : Drains D c stream (frames upTo) quiet beyond) :
    GivenUp stream ∧ framesBehind upTo stream = quiet := by
  have hSeen : AllFit (frames upTo ++ quiet) := allFit_append.mpr ⟨hFit, h.fit⟩
  have hOver := h.starts
  cases beyond with
  | nil =>
    refine ⟨.inr hOver, ?_⟩
    rw [framesBehind, h.frames_eq, List.append_nil, kept_of_allFit hSeen, List.drop_left]
  | cons b bs =>
    refine ⟨.inl fun hAll => ?_, ?_⟩
    · rw [h.frames_eq, allFit_append] at hAll
      have hSmall := hAll.2 b List.mem_cons_self
      exact absurd hSmall (not_le.mpr hOver)
    · rw [framesBehind, h.frames_eq, kept_append hSeen, kept_cons, if_neg (not_le.mpr hOver),
        List.append_nil, List.drop_left]

/-- A stream that is given up has a frame over the cap behind those that are read, or too much is
open at its end. -/
theorem over_of_givenUp (hUp : GivenUp stream) :
    ∃ beyond, frames stream = kept (frames stream) ++ beyond ∧ StartsOver stream beyond := by
  refine ⟨(frames stream).dropWhile fun b => weight b ≤ sseBufferCap,
    (List.takeWhile_append_dropWhile).symm, ?_⟩
  cases hOver : (frames stream).dropWhile fun b => decide (weight b ≤ sseBufferCap) with
  | nil =>
    refine hUp.resolve_left (not_not.mpr fun b hb => ?_)
    exact of_decide_eq_true (List.dropWhile_eq_nil_iff.mp hOver b hb)
  | cons b bs =>
    have hHead := List.head_dropWhile_not (fun b => decide (weight b ≤ sseBufferCap))
      (l := frames stream) (by rw [hOver]; exact List.cons_ne_nil _ _)
    simp only [hOver, List.head_cons, decide_eq_false_iff_not, not_le] at hHead
    exact hHead

theorem steady_iff : Steady D c stream ↔ CutsHarmless D c stream := by
  constructor
  · intro hSteady before line after hLines hFit hOver
    obtain ⟨upTo, hPrefix, rfl, rfl⟩ := line_cut hLines
    change AllFit (frames upTo) at hFit
    obtain ⟨hUp, hYielded, hCursor⟩ := hSteady upTo hPrefix hOver
    obtain ⟨beyond, hFrames, hBeyond⟩ := over_of_givenUp hUp
    rw [kept_frames hPrefix, kept_of_allFit hFit] at hFrames
    refine ⟨framesBehind upTo stream, beyond, hFrames, fun b hb => ?_, hBeyond,
      yieldedOf_eq_nil.mp hYielded, ?_⟩
    · have hKept : b ∈ kept (frames stream) := List.drop_subset _ _ hb
      have hSmall := List.mem_takeWhile_imp (p := fun b => decide (weight b ≤ sseBufferCap)) hKept
      exact of_decide_eq_true hSmall
    · rw [kept_of_allFit hFit, cursorOf_eq, cursorOf_eq, or_eq_iff] at hCursor
      exact hCursor
  · intro hHarmless upTo hPrefix hHeld
    by_cases hFit : AllFit (frames upTo)
    · obtain ⟨line, after, hLines, hLine⟩ := cut_line hPrefix
      have hLength := hLine.length_le
      obtain ⟨quiet, beyond, hDrains⟩ := hHarmless _ line after hLines hFit
        (lt_of_lt_of_le hHeld (Nat.add_le_add_left hLength _))
      obtain ⟨hUp, hBehind⟩ := Drains.framesBehind_eq hFit hDrains
      rw [hBehind, yieldedOf_eq_nil, kept_of_allFit hFit, cursorOf_eq, cursorOf_eq, or_eq_iff]
      exact ⟨hUp, hDrains.silent, hDrains.ids⟩
    · obtain ⟨hUp, hNil⟩ := framesBehind_of_not hPrefix hFit
      rw [hNil]
      exact ⟨hUp, rfl, rfl⟩

/-- The ways in which a stream comes in pieces agree exactly if every line that is over the cap as
it came is one of a frame that is over the cap anyway, or has nothing to tell before such a frame. -/
theorem pieces_agree_iff (decode : Decode) (D : Decoding) (s : Reading) (r : Reader)
    (stream : List UInt8) :
    PiecesAgree decode D s r stream ↔ CutsHarmless D r.gathered.lastEventId stream :=
  (pieces_agree_iff_steady decode D s r stream).trans steady_iff

/-! ## Streams without CRs -/

theorem weight_le {a b : Block} (h : a <+: b) : weight a ≤ weight b := by
  obtain ⟨more, rfl⟩ := h
  rw [weight_append]
  omega

theorem rstripCr_of_not_mem {line : List UInt8} (h : carriageReturn ∉ line) :
    rstripCr line = line := by
  rw [rstripCr, List.rdropWhile_eq_self_iff]
  intro hNil hLast
  rw [beq_iff_eq] at hLast
  exact h (hLast ▸ List.getLast_mem hNil)

/-- What is held at a cut weighs on the frame that is open there, if no line ends in a CR. -/
theorem heavy_of_held {upTo rest : List UInt8}
    (hPlain : ∀ l ∈ (splitLines newline (upTo ++ rest)).1, rstripCr l = l)
    (hHeld : sseBufferCap < held upTo) :
    ∃ more, frames (upTo ++ rest) = frames upTo ++ more ∧
      (more = [] ∧ sseBufferCap < held (upTo ++ rest) ∨
        ∃ b bs, more = b :: bs ∧ sseBufferCap < weight b) := by
  have hOpenLine : newline ∉ openLine upTo := (Framing.not_mem_splitLines newline upTo).2
  have hOpen : [] ∉ openFrame upTo := blank_not_mem_open (splitLines newline upTo).1
  have hRaws : (splitLines newline (upTo ++ rest)).1 = (splitLines newline upTo).1 ++
      (splitLines newline (openLine upTo ++ rest)).1 := by
    rw [Framing.splitLines_append]
    rfl
  have hBlocks : blocksOf (splitLines newline (upTo ++ rest)).1 =
      (frames upTo ++ (splitLines [] (openFrame upTo ++
        (splitLines newline (openLine upTo ++ rest)).1.map rstripCr)).1,
        (splitLines [] (openFrame upTo ++
          (splitLines newline (openLine upTo ++ rest)).1.map rstripCr)).2) := by
    rw [hRaws, blocksOf_append]
    rfl
  refine ⟨_, congrArg Prod.fst hBlocks, ?_⟩
  have hOpenAfter : openFrame (upTo ++ rest) = (splitLines [] (openFrame upTo ++
      (splitLines newline (openLine upTo ++ rest)).1.map rstripCr)).2 := by
    rw [openFrame, hBlocks]
  have hLineAfter := openLine_append upTo rest
  rcases Framing.splitLines_begin hOpenLine rest with hNone | ⟨raw, raws, hSome, hBegin⟩
  · -- the line goes on
    rw [hNone, List.map_nil, List.append_nil, Framing.splitLines_open hOpen] at hOpenAfter ⊢
    rw [hNone] at hLineAfter
    rw [held] at hHeld ⊢
    rw [hOpenAfter, hLineAfter, List.length_append]
    exact .inl ⟨rfl, by dsimp only; omega⟩
  · have hRaw : rstripCr raw = raw := by
      refine hPlain raw ?_
      rw [hRaws, hSome]
      exact List.mem_append_right _ List.mem_cons_self
    have hLength := hBegin.length_le
    rw [hSome, List.map_cons, hRaw] at hOpenAfter ⊢
    rw [held] at hHeld
    by_cases hBlank : raw = []
    · -- the line was blank and ends the frame
      rw [hBlank, Framing.splitLines_line hOpen]
      rw [hBlank, List.length_nil] at hLength
      exact .inr ⟨_, _, rfl, by omega⟩
    · have hLine : [] ∉ openFrame upTo ++ [raw] := by
        rw [List.mem_append, List.mem_singleton, not_or]
        exact ⟨hOpen, fun hEq => hBlank hEq.symm⟩
      have hWeight : sseBufferCap < weight (openFrame upTo ++ [raw]) := by
        rw [weight_append, weight]
        omega
      rw [← List.singleton_append, ← List.append_assoc] at hOpenAfter ⊢
      rcases Framing.splitLines_begin hLine (raws.map rstripCr) with hGoes | ⟨b, bs, hEnds, hIn⟩
      · left
        rw [hGoes] at hOpenAfter ⊢
        have hMore := weight_le (List.prefix_append (openFrame upTo ++ [raw]) (raws.map rstripCr))
        rw [held, hOpenAfter]
        exact ⟨rfl, by dsimp only; omega⟩
      · right
        have hMore := weight_le hIn
        exact ⟨b, bs, hEnds, by omega⟩

/-- A stream is steady if none of its lines ends in a CR. -/
theorem steady_of_plain (D : Decoding) (c : Option String)
    (hPlain : ∀ l ∈ (splitLines newline stream).1, rstripCr l = l) : Steady D c stream := by
  rintro upTo hPrefix hHeld
  have hBehind : GivenUp stream ∧ framesBehind upTo stream = [] := by
    by_cases hFit : AllFit (frames upTo)
    · obtain ⟨rest, rfl⟩ := hPrefix
      obtain ⟨more, hFrames, hHeavy⟩ := heavy_of_held hPlain hHeld
      rw [framesBehind, hFrames, kept_append hFit, List.drop_left]
      rcases hHeavy with ⟨rfl, hAfter⟩ | ⟨b, bs, rfl, hWeight⟩
      · exact ⟨.inr hAfter, rfl⟩
      · refine ⟨.inl fun hAll => ?_, ?_⟩
        · rw [hFrames, allFit_append] at hAll
          have hSmall := hAll.2 b List.mem_cons_self
          omega
        · rw [kept_cons, if_neg (by omega)]
    · exact framesBehind_of_not hPrefix hFit
  rw [hBehind.2]
  exact ⟨hBehind.1, rfl, rfl⟩

/-- The ways in which a stream without CRs comes in pieces agree. -/
theorem pieces_agree_of_lf (decode : Decode) (D : Decoding) (s : Reading) (r : Reader)
    (h : carriageReturn ∉ stream) : PiecesAgree decode D s r stream := by
  refine (pieces_agree_iff_steady decode D s r stream).mpr ?_
  refine steady_of_plain D _ fun l hl => rstripCr_of_not_mem fun hMem => h ?_
  exact Framing.mem_of_mem_splitLines newline (.inl hl) hMem

end

/-! ### A frame that just fits -/

/-- A line without line ends that fills the cap with its own. -/
structure Full (line : List UInt8) : Prop where
  plain : ∀ b ∈ line, b ≠ newline ∧ b ≠ carriageReturn
  weight_eq : weight [line] = sseBufferCap

/-- The line and a blank line behind it, with the line ends CR LF. -/
def crlf (line : List UInt8) : List UInt8 := line ++ [13, 10, 13, 10]

section

variable {line : List UInt8}

theorem Full.ne_nil (h : Full line) : [] ∉ [line] := by
  rw [List.mem_singleton]
  rintro rfl
  exact absurd h.weight_eq (by decide)

theorem Full.rstripCr_eq (h : Full line) : rstripCr (line ++ [13]) = line := by
  have hPlain : carriageReturn ∉ line := fun hMem => (h.plain _ hMem).2 rfl
  rw [rstripCr, List.rdropWhile_concat_pos _ _ _ (by decide)]
  exact rstripCr_of_not_mem hPlain

/-- The lines up to what is behind the first line end. -/
theorem Full.splitLines_eq (h : Full line) (rest : List UInt8) :
    splitLines newline ((line ++ [13]) ++ newline :: rest) =
      ((line ++ [13]) :: (splitLines newline rest).1, (splitLines newline rest).2) := by
  refine Framing.splitLines_line ?_ rest
  rw [List.mem_append, not_or]
  exact ⟨fun hMem => (h.plain _ hMem).1 rfl, by decide⟩

theorem Full.givenUp_cut (h : Full line) : GivenUp (line ++ [13, 10, 13]) := by
  have hLine : line ++ [13, 10, 13] = (line ++ [13]) ++ newline :: [13] := by simp [newline]
  have hTail : splitLines newline [13] = ([], [13]) := rfl
  have hOpen : blocksOf [line ++ [13]] = ([], [line]) := by
    rw [blocksOf, List.map_singleton, h.rstripCr_eq]
    exact Framing.splitLines_open h.ne_nil
  right
  rw [held, openFrame, openLine, hLine, h.splitLines_eq, hTail, hOpen, h.weight_eq,
    List.length_singleton]
  omega

theorem Full.not_givenUp_crlf (h : Full line) : ¬ GivenUp (crlf line) := by
  have hLine : crlf line = (line ++ [13]) ++ newline :: [13, 10] := by simp [crlf, newline]
  have hTail : splitLines newline [13, 10] = ([[13]], []) := rfl
  have hBlocks : blocksOf [line ++ [13], [13]] = ([[line]], []) := by
    have hCr : rstripCr [13] = [] := by decide
    rw [blocksOf, List.map_cons, List.map_singleton, h.rstripCr_eq, hCr]
    exact Framing.splitLines_line h.ne_nil []
  rw [GivenUp, held, frames, openFrame, openLine, hLine, h.splitLines_eq, hTail, hBlocks, not_or,
    not_not]
  refine ⟨allFit_singleton.mpr (Nat.le_of_eq h.weight_eq), ?_⟩
  rw [weight, List.length_nil]
  omega

/-- In one piece the frame fits; with a cut between the last CR and its LF it does not. -/
theorem Full.pieces_differ (h : Full line) (decode : Decode) (D : Decoding) (s : Reading)
    (r : Reader) : ¬ PiecesAgree decode D s r (crlf line) := by
  intro hAgree
  have hPieces : [line ++ [13, 10, 13], [10]].flatten = crlf line := by simp [crlf]
  have hEq := (hAgree _ [crlf line] hPieces List.flatten_singleton).2 .error
  have hOverflow := congrArg Outcome.overflow hEq
  rw [Reader.connection_cut h.givenUp_cut] at hOverflow
  have hWhole := (Reader.fed_connect D r).chunk (crlf line)
  rw [List.nil_append] at hWhole
  rcases hWhole with ⟨-, hFed⟩ | ⟨hUp, -⟩
  · rw [Reader.connection, List.foldl_cons, List.foldl_nil, hFed.overflow_finish] at hOverflow
    cases hOverflow
  · exact h.not_givenUp_crlf hUp

end

/-- A comment of the one length. -/
def fullLine : List UInt8 := 58 :: List.replicate (2 ^ 20 - 2) 120

theorem full_fullLine : Full fullLine where
  plain b hb := by
    rcases List.mem_cons.mp hb with rfl | hb
    · decide
    · rw [List.eq_of_mem_replicate hb]
      decide
  weight_eq := by
    rw [weight, weight, fullLine, List.length_cons, List.length_replicate]
    rfl

theorem cut_line_end_differs :
    ¬ PiecesAgree decodeData (decoding fun _ => false) {} {} (crlf fullLine) :=
  full_fullLine.pieces_differ _ _ _ _

end Weflow.Client
