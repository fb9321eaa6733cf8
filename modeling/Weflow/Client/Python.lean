import Mathlib.Data.List.DropRight
import Weflow.Client.Feed

/-!
# What the Python client reads

The reading loop of `watch` in the Python client: the lines of a frame are gathered until a blank
line comes, then the frame is parsed as a block. A stream that gathers too much is given up, and at
its end the frame that is still open is parsed as it is.
-/

namespace Weflow.Client

open Json (Value)
open Framing (stripPrefix splitLines)

/-- `_SSE_BUFFER_CAP`. -/
def sseBufferCap : Nat := 2 ^ 20

/-- A bytes literal. -/
def bytesLit (s : String) : List UInt8 := Utf8.encode s.toList

/-- CR. -/
def carriageReturn : UInt8 := 13

/-- `rstrip(b"\r")`. -/
def rstripCr (line : List UInt8) : List UInt8 := line.rdropWhile (· == carriageReturn)

/-- ASCII whitespace. -/
def isSpaceByte (b : UInt8) : Bool := b == 32 || (9 ≤ b && b ≤ 13)

/-- `strip()`. -/
def stripBytes (line : List UInt8) : List UInt8 :=
  (line.dropWhile isSpaceByte).rdropWhile isSpaceByte

/-- `decode("utf-8", "replace")`. -/
def decodeReplace (bytes : List UInt8) : String := String.ofList (Utf8.decodeLossy bytes)

/-- `isdigit`; `other` says which characters beyond ASCII are digits. -/
def isDigits (other : Char → Bool) (s : String) : Bool :=
  s ≠ "" && s.toList.all fun c => c.isDigit || (128 ≤ c.toNat && other c)

/-! ## A block -/

/-- `_SseFrame`. -/
structure SseFrame where
  event : Option String
  data : String
  id : Option String
deriving DecidableEq, Repr

/-- The variables of `_parse_sse_block`. -/
structure BlockFields where
  event : Option String := none
  id : Option String := none
  dataLines : List (List UInt8) := []

def BlockFields.take (b : BlockFields) (raw : List UInt8) : BlockFields :=
  let raw := rstripCr raw
  if bytesLit ":" <+: raw then b
  else
    match stripPrefix (bytesLit "id:") raw with
    | some rest => { b with id := some (decodeReplace (stripBytes rest)) }
    | none =>
      match stripPrefix (bytesLit "event:") raw with
      | some rest => { b with event := some (decodeReplace (stripBytes rest)) }
      | none =>
        match stripPrefix (bytesLit "data:") raw with
        | some rest => { b with dataLines := b.dataLines ++ [rest] }
        | none => b

/-- `_parse_sse_block`. -/
def parseSseBlock (block : List UInt8) : Option SseFrame :=
  let b := (block.splitOn newline).foldl BlockFields.take {}
  if b.dataLines = [] then none
  else some {
    event := b.event
    data := decodeReplace (stripBytes ([newline].intercalate b.dataLines))
    id := b.id }

/-- The exceptions for which a frame is skipped. -/
inductive Skipped
  | shapeError
  | validationError
  | attributeError
deriving DecidableEq, Repr

/-- `_validate`. -/
def validate (r : Option ServerEvent) : Except Skipped (Option ServerEvent) :=
  (r.map fun e => Except.ok (some e)).getD (.error .validationError)

/-- What an object is validated as, by its kind. -/
def decodeKind (payload : Value) : Option String → Except Skipped (Option ServerEvent)
  | some "message.new" => validate ((readNew .python payload).map .new)
  | some "message.revoke" => validate ((readRevoke .python payload).map .revoke)
  | some "sync" => validate ((readSync .python payload).map .sync)
  | _ => .ok none

/-- `_decode_event`. -/
def SseFrame.decodeEvent (f : SseFrame) : Except Skipped (Option ServerEvent) :=
  match Json.parse f.data with
  | none => .error .shapeError
  | some (.obj fields) =>
    let payload := Value.obj fields
    decodeKind payload ((payload.get "event").getD (.str (f.event.getD ""))).asStr
  | some _ => .error .attributeError

/-- What is yielded for a frame. -/
def SseFrame.yielded (f : SseFrame) : List ServerEvent :=
  match f.decodeEvent with
  | .ok e => e.toList
  | .error _ => []

/-- What the loop takes from elsewhere: what a frame is decoded as, and the digits of `isdigit`
beyond ASCII. -/
structure Decoding where
  yielded : SseFrame → List ServerEvent
  otherDigit : Char → Bool

/-- The frames decoded by `_decode_event`. -/
def decoding (otherDigit : Char → Bool) : Decoding := ⟨SseFrame.yielded, otherDigit⟩

/-! ## The loop -/

/-- The variables of the loop that do not depend on how the bytes are cut into pieces, and
everything that was yielded. -/
structure Gathered where
  pending : List (List UInt8) := []
  pendingBytes : Nat := 0
  lastEventId : Option String := none
  overflow : Bool := false
  yielded : List ServerEvent := []
deriving DecidableEq, Repr

namespace Gathered

variable (D : Decoding)

/-- A frame was parsed. -/
def deliver (g : Gathered) (f : SseFrame) : Gathered :=
  { g with
    lastEventId := (f.id.filter (isDigits D.otherDigit)).or g.lastEventId
    yielded := g.yielded ++ D.yielded f }

/-- The gathered lines are parsed. -/
def dispatch (g : Gathered) : Gathered :=
  match parseSseBlock ([newline].intercalate g.pending) with
  | none => g
  | some f => g.deliver D f

def line (g : Gathered) (raw : List UInt8) : Gathered :=
  let line := rstripCr raw
  if line ≠ [] then
    { g with pending := g.pending ++ [line], pendingBytes := g.pendingBytes + (line.length + 1) }
  else if sseBufferCap < g.pendingBytes then { g with overflow := true }
  else { g.dispatch D with pending := [], pendingBytes := 0 }

/-- The lines of a piece; nothing is read behind an overflow. -/
def lines (g : Gathered) : List (List UInt8) → Gathered
  | [] => g
  | raw :: rest => if g.overflow then g else (g.line D raw).lines rest

end Gathered

structure Reader where
  gathered : Gathered := {}
  buffer : List UInt8 := []
deriving DecidableEq, Repr

/-- How a stream ends. -/
inductive StreamEnd
  | eof
  | error

namespace Reader

variable (D : Decoding)

/-- A connection begins: the cursor is carried over. -/
def connect (r : Reader) : Reader where
  gathered := { lastEventId := r.gathered.lastEventId, yielded := r.gathered.yielded }

/-- A piece arrives; after an overflow the loop was left. -/
def chunk (r : Reader) (piece : List UInt8) : Reader :=
  if r.gathered.overflow then r
  else
    let (lines, rest) := splitLines newline (r.buffer ++ piece)
    let g := r.gathered.lines D lines
    if sseBufferCap < g.pendingBytes + rest.length then
      { gathered := { g with overflow := true }, buffer := rest }
    else { gathered := g, buffer := rest }

/-- The stream ends: at a clean end the open frame is parsed. -/
def finish (r : Reader) : StreamEnd → Reader
  | .error => r
  | .eof =>
    if r.gathered.overflow then r
    else
      let residual := rstripCr r.buffer
      let pending := if residual ≠ [] then r.gathered.pending ++ [residual] else r.gathered.pending
      if pending = [] then { r with buffer := [] }
      else { gathered := { r.gathered with pending }.dispatch D, buffer := [] }

end Reader

/-! ## The frames of a stream -/

/-- The lines of a frame, without their CRs. -/
abbrev Block := List (List UInt8)

/-- The bytes that the loop counts for a frame. -/
def weight : Block → Nat
  | [] => 0
  | line :: lines => line.length + 1 + weight lines

/-- The frames among some lines, and the lines of the frame that is still open. -/
def blocksOf (raws : List (List UInt8)) : List Block × Block := splitLines [] (raws.map rstripCr)

def frames (got : List UInt8) : List Block := (blocksOf (splitLines newline got).1).1

def openFrame (got : List UInt8) : Block := (blocksOf (splitLines newline got).1).2

def openLine (got : List UInt8) : List UInt8 := (splitLines newline got).2

def AllFit (bs : List Block) : Prop := ∀ b ∈ bs, weight b ≤ sseBufferCap

/-- The frames before the first one over the cap. -/
def kept (bs : List Block) : List Block := bs.takeWhile fun b => weight b ≤ sseBufferCap

/-- The id by which a frame moves the cursor. -/
def idOf (D : Decoding) (b : Block) : Option String :=
  (parseSseBlock ([newline].intercalate b)).bind fun f => f.id.filter (isDigits D.otherDigit)

/-- The cursor behind some frames. -/
def cursorOf (D : Decoding) (c : Option String) (bs : List Block) : Option String :=
  bs.foldl (fun c b => (idOf D b).or c) c

/-- What is yielded for some frames. -/
def yieldedOf (D : Decoding) (bs : List Block) : List ServerEvent :=
  bs.flatMap fun b => (parseSseBlock ([newline].intercalate b)).toList.flatMap D.yielded

/-- The frames `bs` were read and the lines `o` of the next one gathered, from the cursor `c` and
with `y` yielded before. -/
structure Gathered.Reads (D : Decoding) (c : Option String) (y : List ServerEvent)
    (bs : List Block) (o : Block) (g : Gathered) : Prop where
  lastEventId : g.lastEventId = cursorOf D c (kept bs)
  yielded : g.yielded = y ++ yieldedOf D (kept bs)
  inside : AllFit bs → g.overflow = false ∧ g.pending = o ∧ g.pendingBytes = weight o
  beyond : ¬ AllFit bs → g.overflow = true ∧ sseBufferCap < g.pendingBytes

section

variable {D : Decoding} {c : Option String} {y : List ServerEvent} {bs : List Block} {o : Block}
  {g : Gathered} {raw : List UInt8}

theorem weight_append (a b : Block) : weight (a ++ b) = weight a + weight b := by
  induction a with
  | nil => simp [weight]
  | cons line a ih =>
    rw [List.cons_append, weight, weight, ih]
    omega

theorem allFit_append {as : List Block} : AllFit (as ++ bs) ↔ AllFit as ∧ AllFit bs :=
  List.forall_mem_append

theorem allFit_singleton : AllFit [o] ↔ weight o ≤ sseBufferCap :=
  List.forall_mem_singleton

theorem kept_of_allFit (h : AllFit bs) : kept bs = bs :=
  List.takeWhile_eq_self_iff.mpr fun b hb => decide_eq_true (h b hb)

theorem kept_append (h : AllFit bs) (more : List Block) : kept (bs ++ more) = bs ++ kept more :=
  List.takeWhile_append_of_pos fun b hb => decide_eq_true (h b hb)

theorem kept_cons (b : Block) (bs : List Block) :
    kept (b :: bs) = if weight b ≤ sseBufferCap then b :: kept bs else [] := by
  rw [kept, List.takeWhile_cons]
  simp only [decide_eq_true_eq]
  rfl

/-- Behind a frame over the cap nothing counts. -/
theorem kept_append_of_not (h : ¬ AllFit bs) (more : List Block) : kept (bs ++ more) = kept bs := by
  induction bs with
  | nil => exact absurd (fun b hb => absurd hb List.not_mem_nil) h
  | cons b bs ih =>
    rw [List.cons_append, kept_cons, kept_cons]
    by_cases hb : weight b ≤ sseBufferCap
    · have hRest : ¬ AllFit bs := fun hAll => h (List.forall_mem_cons.mpr ⟨hb, hAll⟩)
      rw [if_pos hb, if_pos hb, ih hRest]
    · rw [if_neg hb, if_neg hb]

theorem cursorOf_append (c : Option String) (as bs : List Block) :
    cursorOf D c (as ++ bs) = cursorOf D (cursorOf D c as) bs := List.foldl_append

theorem yieldedOf_append (as bs : List Block) :
    yieldedOf D (as ++ bs) = yieldedOf D as ++ yieldedOf D bs := List.flatMap_append

theorem Gathered.dispatch_eq (g : Gathered) : g.dispatch D = { g with
    lastEventId := (idOf D g.pending).or g.lastEventId
    yielded := g.yielded ++ yieldedOf D [g.pending] } := by
  unfold Gathered.dispatch
  rw [idOf, yieldedOf, List.flatMap_singleton]
  cases parseSseBlock ([newline].intercalate g.pending) with
  | none => simp
  | some f => simp [Gathered.deliver]

namespace Gathered

theorem line_filled (h : rstripCr raw ≠ []) : g.line D raw = { g with
    pending := g.pending ++ [rstripCr raw]
    pendingBytes := g.pendingBytes + ((rstripCr raw).length + 1) } := if_pos h

theorem line_blank (h : rstripCr raw = []) : g.line D raw =
    if sseBufferCap < g.pendingBytes then { g with overflow := true }
    else { g.dispatch D with pending := [], pendingBytes := 0 } := if_neg (not_not.mpr h)

theorem lines_overflow (h : g.overflow = true) (raws : List (List UInt8)) :
    g.lines D raws = g := by
  cases raws with
  | nil => rfl
  | cons raw raws => exact if_pos h

theorem lines_append (g : Gathered) (as bs : List (List UInt8)) :
    g.lines D (as ++ bs) = (g.lines D as).lines D bs := by
  induction as generalizing g with
  | nil => rfl
  | cons raw as ih =>
    by_cases h : g.overflow = true
    · rw [lines_overflow h, lines_overflow h, lines_overflow h]
    · rw [List.cons_append, lines, lines, if_neg h, if_neg h, ih]

/-- A line that is not blank is gathered. -/
theorem Reads.filled (h : g.Reads D c y bs o) (hFit : AllFit bs) (hRaw : rstripCr raw ≠ []) :
    (g.line D raw).Reads D c y bs (o ++ [rstripCr raw]) := by
  obtain ⟨hOverflow, hPending, hBytes⟩ := h.inside hFit
  rw [line_filled hRaw]
  refine ⟨h.lastEventId, h.yielded, fun _ => ⟨hOverflow, ?_, ?_⟩, fun hNot => absurd hFit hNot⟩
  · rw [hPending]
  · rw [hBytes, weight_append, weight, weight]

/-- A blank line ends the frame. -/
theorem Reads.blank (h : g.Reads D c y bs o) (hFit : AllFit bs) (hRaw : rstripCr raw = []) :
    (g.line D raw).Reads D c y (bs ++ [o]) [] := by
  obtain ⟨hOverflow, hPending, hBytes⟩ := h.inside hFit
  have hId := h.lastEventId
  have hYielded := h.yielded
  rw [kept_of_allFit hFit] at hId hYielded
  rw [line_blank hRaw, hBytes]
  split
  · rename_i hOver
    have hNot : ¬ AllFit (bs ++ [o]) := by
      rw [allFit_append, allFit_singleton]
      exact fun hAll => absurd hAll.2 (by omega)
    have hKept : kept (bs ++ [o]) = bs := by
      rw [kept_append hFit, kept_cons, if_neg (by omega), List.append_nil]
    refine ⟨?_, ?_, fun hAll => absurd hAll hNot, fun _ => ⟨rfl, ?_⟩⟩
    · rw [hKept]
      exact hId
    · rw [hKept]
      exact hYielded
    · exact hOver
  · rename_i hSmall
    have hAll : AllFit (bs ++ [o]) := allFit_append.mpr ⟨hFit, allFit_singleton.mpr (by omega)⟩
    refine ⟨?_, ?_, fun _ => ⟨?_, rfl, rfl⟩, fun hNot => absurd hAll hNot⟩
    · rw [kept_of_allFit hAll, dispatch_eq, cursorOf_append, ← hId, hPending]
      rfl
    · rw [kept_of_allFit hAll, dispatch_eq, yieldedOf_append, hYielded, hPending,
        List.append_assoc]
    · rw [dispatch_eq]
      exact hOverflow

end Gathered

/-- What the loop holds at the beginning of a connection. -/
def Gathered.start (c : Option String) (y : List ServerEvent) : Gathered where
  lastEventId := c
  yielded := y

theorem blocksOf_append (as bs : List (List UInt8)) : blocksOf (as ++ bs) =
    ((blocksOf as).1 ++ (splitLines [] ((blocksOf as).2 ++ bs.map rstripCr)).1,
      (splitLines [] ((blocksOf as).2 ++ bs.map rstripCr)).2) := by
  rw [blocksOf, List.map_append, Framing.splitLines_append]
  rfl

theorem blank_not_mem_open (raws : List (List UInt8)) : [] ∉ (blocksOf raws).2 :=
  (Framing.not_mem_splitLines [] (raws.map rstripCr)).2

/-- The lines are read frame by frame. -/
theorem reads_lines (raws : List (List UInt8)) :
    ((Gathered.start c y).lines D raws).Reads D c y (blocksOf raws).1 (blocksOf raws).2 := by
  induction raws using List.reverseRecOn with
  | nil =>
    refine ⟨rfl, (List.append_nil y).symm, fun _ => ⟨rfl, rfl, rfl⟩, fun hNot => absurd ?_ hNot⟩
    exact fun b hb => absurd hb List.not_mem_nil
  | append_singleton raws raw ih =>
    have hOpen := blank_not_mem_open raws
    rw [Gathered.lines_append, blocksOf_append]
    by_cases hFit : AllFit (blocksOf raws).1
    · have hLine : ((Gathered.start c y).lines D raws).lines D [raw] =
          ((Gathered.start c y).lines D raws).line D raw := by
        rw [Gathered.lines, if_neg (by rw [(ih.inside hFit).1]; exact Bool.false_ne_true),
          Gathered.lines]
      rw [hLine]
      by_cases hRaw : rstripCr raw = []
      · have hSplit : splitLines [] ((blocksOf raws).2 ++ [raw].map rstripCr) =
            ([(blocksOf raws).2], []) := by
          rw [List.map_singleton, hRaw, Framing.splitLines_line hOpen]
          rfl
        rw [hSplit]
        exact ih.blank hFit hRaw
      · have hSplit : splitLines [] ((blocksOf raws).2 ++ [raw].map rstripCr) =
            ([], (blocksOf raws).2 ++ [rstripCr raw]) := by
          refine Framing.splitLines_open ?_
          rw [List.map_singleton, List.mem_append, List.mem_singleton, not_or]
          exact ⟨hOpen, fun hEq => hRaw hEq.symm⟩
        rw [hSplit, List.append_nil]
        exact ih.filled hFit hRaw
    · obtain ⟨hOverflow, hBytes⟩ := ih.beyond hFit
      have hNot : ∀ more, ¬ AllFit ((blocksOf raws).1 ++ more) :=
        fun more hAll => hFit (allFit_append.mp hAll).1
      rw [Gathered.lines_overflow hOverflow]
      refine ⟨?_, ?_, fun hAll => absurd hAll (hNot _), fun _ => ⟨hOverflow, hBytes⟩⟩
      · rw [kept_append_of_not hFit]
        exact ih.lastEventId
      · rw [kept_append_of_not hFit]
        exact ih.yielded

end

end Weflow.Client
