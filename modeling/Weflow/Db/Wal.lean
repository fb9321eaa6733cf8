import Mathlib.Data.List.GetD
import Mathlib.Order.Bounds.Basic
import Weflow.Db.Wcdb

/-!
# The write-ahead log

`decrypt_wal_frames` and `apply_wal_frames` of `db/wcdb.rs`: the frames of a log are scanned in
their order, those of an earlier cycle are skipped, and each of the others is written over its page
of a snapshot, which grows where it has to.

`wal_applied` says what the snapshot is afterwards: each page is that of the last frame for it.
-/

namespace Weflow.Wcdb

open Buffer (Fixed slice)

def walHeaderSize : Nat := 32

def walFrameHeaderSize : Nat := 24

def walFrameSize : Nat := walFrameHeaderSize + pageSize

/-- `u32::from_be_bytes` -/
def u32FromBe (bytes : List UInt8) : Nat := Blocks.ofLe bytes.reverse

/-- A decrypted frame. -/
structure WalFrame where
  pgno : Nat
  page : Page

section

variable (C : Crypto)

/-- The number in four bytes of a range. -/
def readU32 (bytes : List UInt8) (start : Nat) : Except Failure Nat := do
  return u32FromBe (← orPanic (slice bytes start (start + 4)))

/-- The loop of `decrypt_wal_frames`, from an offset on. -/
def walLoop (encKey : Key) (wal : List UInt8) (salt1 salt2 off : Nat) (frames : List WalFrame) :
    Except Failure (List WalFrame) := do
  if h : off + walFrameSize ≤ wal.length then
    let hdr ← orPanic (slice wal off (off + walFrameHeaderSize))
    let pgno ← readU32 hdr 0
    let frameSalt1 ← readU32 hdr 8
    let frameSalt2 ← readU32 hdr 12
    let next ←
      if pgno ≠ 0 ∧ pgno ≤ 1000000 ∧ frameSalt1 = salt1 ∧ frameSalt2 = salt2 then do
        let page ← orPanic (slice wal (off + 24) (off + walFrameSize))
        match decryptPage C encKey page pgno with
        | .ok page => pure (frames ++ [⟨pgno, page⟩])
        | .error .panic => throw .panic
        | .error (.bail _) => pure frames
      else pure frames
    walLoop encKey wal salt1 salt2 (off + walFrameSize) next
  else return frames
termination_by wal.length - off
decreasing_by
  simp only [walFrameSize, walFrameHeaderSize, pageSize] at *
  omega

/-- Parse and decrypt the currently-valid frames of an encrypted WAL file. -/
def decryptWalFrames (encKey : Key) (wal : List UInt8) : Except Failure (List WalFrame) := do
  if wal.length ≤ walHeaderSize then return []
  else
    let salt1 ← readU32 wal 16
    let salt2 ← readU32 wal 20
    walLoop C encKey wal salt1 salt2 walHeaderSize []

end

/-- `resize` with zeros, to no less than the length. -/
def growTo (snapshot : List UInt8) (n : Nat) : List UInt8 :=
  snapshot ++ List.replicate (n - snapshot.length) 0

/-- One round of `apply_wal_frames`. -/
def applyFrame (snapshot : List UInt8) (f : WalFrame) : Except Failure (List UInt8) := do
  if f.pgno = 0 then throw .panic
  else
    let off := (f.pgno - 1) * pageSize
    let snapshot := if snapshot.length < off + pageSize then growTo snapshot (off + pageSize)
      else snapshot
    if off + pageSize ≤ snapshot.length then
      return snapshot.take off ++ f.page.1 ++ snapshot.drop (off + pageSize)
    else throw .panic

/-- Apply valid frames onto a decrypted snapshot. -/
def applyWalFrames (snapshot : List UInt8) (frames : List WalFrame) :
    Except Failure (List UInt8) :=
  frames.foldlM applyFrame snapshot

/-! ## The frames of a log -/

/-- The bytes of frame `k`. -/
def frameBytes (wal : List UInt8) (k : Nat) : List UInt8 :=
  (wal.drop (walHeaderSize + k * walFrameSize)).take walFrameSize

def framePgno (wal : List UInt8) (k : Nat) : Nat := u32FromBe ((frameBytes wal k).take 4)

def framePage (wal : List UInt8) (k : Nat) : List UInt8 :=
  (frameBytes wal k).drop walFrameHeaderSize

/-- Frame `k` is complete, for page `p`, and of the cycle of the header. -/
structure FrameFor (wal : List UInt8) (p k : Nat) : Prop where
  complete : walHeaderSize + (k + 1) * walFrameSize ≤ wal.length
  pgno : framePgno wal k = p
  range : 1 ≤ p ∧ p ≤ 1000000
  salt1 : u32FromBe (((frameBytes wal k).drop 8).take 4) = u32FromBe ((wal.drop 16).take 4)
  salt2 : u32FromBe (((frameBytes wal k).drop 12).take 4) = u32FromBe ((wal.drop 20).take 4)

/-- The last frame for a page. -/
def LastFrameFor (wal : List UInt8) (p k : Nat) : Prop :=
  FrameFor wal p k ∧ ∀ l, FrameFor wal p l → l ≤ k

/-! ## The scan -/

section

variable {C : Crypto} {encKey : Key} {wal : List UInt8}

/-- What a scan from frame `k` on finds. -/
inductive Scanned (C : Crypto) (encKey : Key) (wal : List UInt8) : Nat → List WalFrame → Prop
  | done {k : Nat} (hEnd : wal.length < walHeaderSize + (k + 1) * walFrameSize) :
      Scanned C encKey wal k []
  | skip {k : Nat} {frames : List WalFrame} (hNone : ∀ p, ¬ FrameFor wal p k)
      (hRest : Scanned C encKey wal (k + 1) frames) : Scanned C encKey wal k frames
  | take {k p : Nat} {page : Page} {frames : List WalFrame} (hFrame : FrameFor wal p k)
      (hPage : decryptPage C encKey (framePage wal k) p = .ok page)
      (hRest : Scanned C encKey wal (k + 1) frames) :
      Scanned C encKey wal k (⟨p, page⟩ :: frames)

theorem readU32_eq {bytes : List UInt8} {start : Nat} (h : start + 4 ≤ bytes.length) :
    readU32 bytes start = .ok (u32FromBe ((bytes.drop start).take 4)) := by
  have hSlice : slice bytes start (start + 4) = some ((bytes.drop start).take 4) := by
    rw [slice, if_pos ⟨by omega, h⟩, List.drop_take, Nat.add_sub_cancel_left]
  rw [readU32, hSlice]
  rfl

theorem frame_offset (k : Nat) : walHeaderSize + (k + 1) * walFrameSize =
    walHeaderSize + k * walFrameSize + walFrameSize := by
  rw [Nat.succ_mul, Nat.add_assoc]

theorem length_frameBytes {k : Nat} (h : walHeaderSize + (k + 1) * walFrameSize ≤ wal.length) :
    (frameBytes wal k).length = walFrameSize := by
  rw [frame_offset] at h
  rw [frameBytes, List.length_take, List.length_drop]
  omega

theorem slice_frame {k : Nat} (start stop : Nat)
    (h : walHeaderSize + (k + 1) * walFrameSize ≤ wal.length) (hOrder : start ≤ stop)
    (hStop : stop ≤ walFrameSize) :
    slice wal (walHeaderSize + k * walFrameSize + start)
      (walHeaderSize + k * walFrameSize + stop) =
        some (((frameBytes wal k).drop start).take (stop - start)) := by
  rw [frame_offset] at h
  rw [slice, if_pos ⟨by omega, by omega⟩, frameBytes, List.drop_take, List.drop_take,
    List.take_take, List.drop_drop]
  congr 2
  omega

/-- The loop from a frame on finds what is there, and never leaves the log. -/
theorem walLoop_scanned (C : Crypto) (encKey : Key) (wal : List UInt8) (k : Nat) (frames : List WalFrame) :
    ∃ rest, walLoop C encKey wal (u32FromBe ((wal.drop 16).take 4))
        (u32FromBe ((wal.drop 20).take 4)) (walHeaderSize + k * walFrameSize) frames =
          .ok (frames ++ rest) ∧ Scanned C encKey wal k rest := by
  generalize hLeft : wal.length - (walHeaderSize + k * walFrameSize) = left
  induction left using Nat.strong_induction_on generalizing k frames with
  | _ left ih =>
    rw [walLoop]
    by_cases hMore : walHeaderSize + (k + 1) * walFrameSize ≤ wal.length
    · have hLength := length_frameBytes hMore
      have hNext : walHeaderSize + k * walFrameSize + walFrameSize =
          walHeaderSize + (k + 1) * walFrameSize := (frame_offset k).symm
      have hSize : walFrameSize = 4120 := rfl
      have ih' := ih (wal.length - (walHeaderSize + (k + 1) * walFrameSize))
        (by rw [frame_offset] at hMore ⊢; omega) (k + 1)
      have hHdr := slice_frame 0 walFrameHeaderSize hMore (Nat.zero_le _)
        (by decide)
      rw [Nat.add_zero, List.drop_zero, Nat.sub_zero] at hHdr
      have hPageBytes := slice_frame 24 walFrameSize hMore (by decide) le_rfl
      have hPageEq : ((frameBytes wal k).drop 24).take (walFrameSize - 24) = framePage wal k :=
        List.take_of_length_le (by rw [List.length_drop, hLength])
      rw [hPageEq, hNext] at hPageBytes
      have hHdrLength : ((frameBytes wal k).take walFrameHeaderSize).length = 24 := by
        rw [List.length_take, hLength]
        rfl
      have hField : ∀ start, start + 4 ≤ 24 →
          readU32 ((frameBytes wal k).take walFrameHeaderSize) start =
            .ok (u32FromBe (((frameBytes wal k).drop start).take 4)) := by
        intro start hStart
        rw [readU32_eq (by omega), List.drop_take, List.take_take]
        congr 3
        exact Nat.min_eq_left (by simp only [walFrameHeaderSize]; omega)
      rw [dif_pos (by rw [hNext]; exact hMore), hHdr, orPanic_some, ok_bind,
        hField 0 (by decide), ok_bind, hField 8 (by decide), ok_bind, hField 12 (by decide), ok_bind, List.drop_zero, hNext]
      split
      · rename_i hValid
        obtain ⟨hZero, hMax, hSalt1, hSalt2⟩ := hValid
        have hFrame : FrameFor wal (framePgno wal k) k :=
          ⟨hMore, rfl, ⟨Nat.pos_of_ne_zero hZero, hMax⟩, hSalt1, hSalt2⟩
        obtain ⟨page, hPage⟩ := decryptPage_page (C := C) encKey
          ⟨framePage wal k, by rw [framePage, List.length_drop, hLength]; rfl⟩ (framePgno wal k)
        obtain ⟨rest, hRest, hScanned⟩ := ih' (frames ++ [⟨framePgno wal k, page⟩]) rfl
        refine ⟨⟨framePgno wal k, page⟩ :: rest, ?_, .take hFrame hPage hScanned⟩
        rw [hPageBytes, orPanic_some, ok_bind]
        simp only at hPage
        rw [framePgno] at hPage hRest ⊢
        simp only [hPage, pure_bind, hRest, List.append_assoc]
        rfl
      · rename_i hInvalid
        obtain ⟨rest, hRest, hScanned⟩ := ih' frames rfl
        refine ⟨rest, ?_, .skip (fun p hFrame => hInvalid ?_) hScanned⟩
        · rw [pure_bind]
          exact hRest
        · obtain ⟨-, hPgno, ⟨hPos, hMax⟩, hSalt1, hSalt2⟩ := hFrame
          rw [framePgno] at hPgno
          exact ⟨by omega, by omega, hSalt1, hSalt2⟩
    · refine ⟨[], ?_, .done (Nat.not_le.mp hMore)⟩
      rw [dif_neg (by rw [← frame_offset]; exact hMore), List.append_nil]
      rfl

theorem decryptWalFrames_scanned (C : Crypto) (encKey : Key) (wal : List UInt8) :
    ∃ frames, decryptWalFrames C encKey wal = .ok frames ∧ Scanned C encKey wal 0 frames := by
  unfold decryptWalFrames
  by_cases hShort : wal.length ≤ walHeaderSize
  · rw [if_pos hShort]
    refine ⟨[], rfl, .done ?_⟩
    rw [frame_offset]
    have : walFrameSize = 4120 := rfl
    omega
  · have hHeader : walHeaderSize = 32 := rfl
    rw [if_neg hShort, readU32_eq (by omega), ok_bind, readU32_eq (by omega), ok_bind]
    obtain ⟨rest, hRest, hScanned⟩ := walLoop_scanned C encKey wal 0 []
    rw [Nat.zero_mul, Nat.add_zero, List.nil_append] at hRest
    exact ⟨rest, hRest, hScanned⟩

/-! ## Writing the frames -/

theorem getD_append (a b : List UInt8) (i : Nat) :
    (a ++ b).getD i 0 = if i < a.length then a.getD i 0 else b.getD (i - a.length) 0 := by
  split
  · exact List.getD_append _ _ _ _ ‹_›
  · exact List.getD_append_right _ _ _ _ (Nat.not_lt.mp ‹_›)

theorem getD_zeros (n i : Nat) : (List.replicate n (0 : UInt8)).getD i 0 = 0 := by
  rw [List.getD_eq_getElem?_getD, List.getElem?_replicate]
  split <;> rfl

theorem getD_growTo (snapshot : List UInt8) (n i : Nat) :
    (growTo snapshot n).getD i 0 = snapshot.getD i 0 := by
  rw [growTo, getD_append]
  split
  · rfl
  · rw [getD_zeros, List.getD_eq_default _ _ (Nat.not_lt.mp ‹_›)]

theorem getD_take_of_lt {a : List UInt8} {n i : Nat} (h : i < n) :
    (a.take n).getD i 0 = a.getD i 0 := by
  rw [List.getD_eq_getElem?_getD, List.getElem?_take_of_lt h, ← List.getD_eq_getElem?_getD]

theorem getD_drop (a : List UInt8) (n i : Nat) : (a.drop n).getD i 0 = a.getD (n + i) 0 := by
  rw [List.getD_eq_getElem?_getD, List.getElem?_drop, ← List.getD_eq_getElem?_getD]

/-- A frame is written over its page, and over nothing else. -/
theorem applyFrame_eq (snapshot : List UInt8) {f : WalFrame} {q : Nat} (h : f.pgno = q + 1) :
    ∃ out, applyFrame snapshot f = .ok out ∧
      out.length = max snapshot.length (f.pgno * pageSize) ∧
      (∀ i < pageSize, out.getD (q * pageSize + i) 0 = f.page.1.getD i 0) ∧
      ∀ i, i / pageSize ≠ q → out.getD i 0 = snapshot.getD i 0 := by
  set grown := if snapshot.length < q * pageSize + pageSize then
    growTo snapshot (q * pageSize + pageSize) else snapshot with hGrown
  have hGetD : ∀ i, grown.getD i 0 = snapshot.getD i 0 := by
    intro i
    rw [hGrown]
    split
    · exact getD_growTo _ _ _
    · rfl
  have hLength : grown.length = max snapshot.length (q * pageSize + pageSize) := by
    rw [hGrown]
    split
    · rw [growTo, List.length_append, List.length_replicate]
      omega
    · omega
  have hPage := f.page.2
  have hTake : (grown.take (q * pageSize)).length = q * pageSize := by
    rw [List.length_take]
    omega
  have hFront : (grown.take (q * pageSize) ++ f.page.1).length = q * pageSize + pageSize := by
    rw [List.length_append, hTake, hPage]
  refine ⟨grown.take (q * pageSize) ++ f.page.1 ++ grown.drop (q * pageSize + pageSize), ?_, ?_,
    fun i hi => ?_, fun i hi => ?_⟩
  · rw [applyFrame, if_neg (by omega), h, Nat.add_sub_cancel]
    simp only [← hGrown]
    rw [if_pos (by omega)]
    rfl
  · rw [List.length_append, hFront, List.length_drop, hLength, h, Nat.succ_mul]
    omega
  · rw [getD_append, if_pos (by omega), getD_append, if_neg (by omega), hTake,
      Nat.add_sub_cancel_left]
  · have hSize : 0 < pageSize := by decide
    have hSplit := Nat.div_add_mod i pageSize
    have hMod := Nat.mod_lt i hSize
    rw [getD_append, hFront]
    split
    · -- in front of the page
      rename_i hBefore
      have hLt : i < q * pageSize := by
        rw [← Nat.succ_mul] at hBefore
        have hDiv := (Nat.div_lt_iff_lt_mul hSize).mpr hBefore
        exact (Nat.div_lt_iff_lt_mul hSize).mp (by omega)
      rw [getD_append, if_pos (by omega), getD_take_of_lt hLt, hGetD]
    · rename_i hAfter
      rw [getD_drop, Nat.add_sub_cancel' (Nat.not_lt.mp hAfter), hGetD]

/-- What the frames from `k` on make of a snapshot. -/
structure Applied (C : Crypto) (encKey : Key) (wal : List UInt8) (k : Nat)
    (snapshot out : List UInt8) : Prop where
  long : snapshot.length ≤ out.length
  covers : ∀ p l, k ≤ l → FrameFor wal p l → p * pageSize ≤ out.length
  tight : out.length = snapshot.length ∨
    ∃ p l, k ≤ l ∧ FrameFor wal p l ∧ out.length = p * pageSize
  written : ∀ q l, k ≤ l → LastFrameFor wal (q + 1) l →
    ∃ page : Page, decryptPage C encKey (framePage wal l) (q + 1) = .ok page ∧
      ∀ i < pageSize, out.getD (q * pageSize + i) 0 = page.1.getD i 0
  kept : ∀ i, (∀ l, k ≤ l → ¬ FrameFor wal (i / pageSize + 1) l) →
    out.getD i 0 = snapshot.getD i 0

theorem FrameFor.page_eq {p q k : Nat} (h : FrameFor wal p k) (g : FrameFor wal q k) : p = q :=
  h.pgno.symm.trans g.pgno

/-- The frames of a scan are written in their order. -/
theorem Scanned.applied {k : Nat} {frames : List WalFrame} (h : Scanned C encKey wal k frames)
    (snapshot : List UInt8) :
    ∃ out, applyWalFrames snapshot frames = .ok out ∧
      Applied C encKey wal k snapshot out := by
  induction h generalizing snapshot with
  | @done k hEnd =>
    have hNone : ∀ p l, k ≤ l → ¬ FrameFor wal p l := by
      intro p l hl hFrame
      have hComplete := hFrame.complete
      have hMono : (k + 1) * walFrameSize ≤ (l + 1) * walFrameSize :=
        Nat.mul_le_mul_right _ (by omega)
      omega
    exact ⟨snapshot, rfl, le_rfl, fun p l hl hFrame => absurd hFrame (hNone p l hl), .inl rfl,
      fun q l hl hLast => absurd hLast.1 (hNone _ l hl), fun _ _ => rfl⟩
  | @skip k frames hNone hRest ih =>
    obtain ⟨out, hOut, hLong, hCovers, hTight, hWritten, hKept⟩ := ih snapshot
    have hLater : ∀ p l, k ≤ l → FrameFor wal p l → k + 1 ≤ l := by
      intro p l hl hFrame
      refine Nat.lt_of_le_of_ne hl fun hEq => ?_
      exact hNone p (hEq ▸ hFrame)
    refine ⟨out, hOut, hLong, fun p l hl hFrame => hCovers p l (hLater p l hl hFrame) hFrame, ?_,
      fun q l hl hLast => hWritten q l (hLater _ l hl hLast.1) hLast,
      fun i hi => hKept i fun l hl => hi l (by omega)⟩
    rcases hTight with hEq | ⟨p, l, hl, hFrame, hEq⟩
    · exact .inl hEq
    · exact .inr ⟨p, l, by omega, hFrame, hEq⟩
  | @take k p page frames hFrame hPage hRest ih =>
    obtain ⟨q, rfl⟩ : ∃ q, p = q + 1 := ⟨p - 1, by have := hFrame.range.1; omega⟩
    obtain ⟨next, hNext, hNextLength, hNextPage, hNextElse⟩ :=
      applyFrame_eq snapshot (f := ⟨q + 1, page⟩) rfl
    obtain ⟨out, hOut, hLong, hCovers, hTight, hWritten, hKept⟩ := ih next
    refine ⟨out, ?_, by omega, fun p l hl hl' => ?_, ?_, fun q' l hl hLast => ?_, fun i hi => ?_⟩
    · rw [applyWalFrames, List.foldlM_cons, hNext]
      exact hOut
    · rcases Nat.lt_or_eq_of_le hl with hl | rfl
      · exact hCovers p l hl hl'
      · rw [hl'.page_eq hFrame]
        exact (Nat.le_max_right _ _).trans (hNextLength ▸ hLong)
    · rcases hTight with hEq | ⟨p, l, hl, hl', hEq⟩
      · rcases Nat.le_total snapshot.length ((q + 1) * pageSize) with hGrew | hSame
        · exact .inr ⟨q + 1, k, le_rfl, hFrame, by
            simp only at hNextLength
            omega⟩
        · exact .inl (by
            simp only at hNextLength
            omega)
      · exact .inr ⟨p, l, by omega, hl', hEq⟩
    · rcases Nat.lt_or_eq_of_le hl with hl | rfl
      · exact hWritten q' l hl hLast
      · -- the last frame for the page is this one
        obtain rfl : q' = q := Nat.succ.inj (hLast.1.page_eq hFrame)
        refine ⟨page, hPage, fun i hi => ?_⟩
        have hDiv : (q' * pageSize + i) / pageSize = q' := by
          rw [Nat.add_comm, Nat.add_mul_div_right _ _ (by decide), Nat.div_eq_of_lt hi,
            Nat.zero_add]
        rw [hKept _ fun l hl hFor => ?_, hNextPage i hi]
        rw [hDiv] at hFor
        have := hLast.2 l hFor
        omega
    · have hNe : i / pageSize ≠ q := by
        intro hEq
        exact hi k le_rfl (hEq ▸ hFrame)
      rw [hKept i fun l hl => hi l (by omega), hNextElse i hNe]

end

/-- The frames of a log are applied so that the last one for a page wins. -/
theorem wal_applied (C : Crypto) (encKey : Key) (wal snapshot : List UInt8) :
    ∃ frames out, decryptWalFrames C encKey wal = .ok frames ∧
      applyWalFrames snapshot frames = .ok out ∧
      IsGreatest (insert snapshot.length {n | ∃ p k, FrameFor wal p k ∧ n = p * pageSize})
        out.length ∧
      (∀ p k, LastFrameFor wal p k →
        ∃ page : Page, decryptPage C encKey (framePage wal k) p = .ok page ∧
          (out.drop ((p - 1) * pageSize)).take pageSize = page.1) ∧
      ∀ i < out.length, (∀ k, ¬ FrameFor wal (i / pageSize + 1) k) →
        out[i]? = some (if i < snapshot.length then snapshot.getD i 0 else 0) := by
  obtain ⟨frames, hFrames, hScanned⟩ := decryptWalFrames_scanned C encKey wal
  obtain ⟨out, hOut, hLong, hCovers, hTight, hWritten, hKept⟩ := hScanned.applied snapshot
  refine ⟨frames, out, hFrames, hOut, ⟨?_, ?_⟩, fun p k hLast => ?_, fun i hi hNone => ?_⟩
  · rcases hTight with hEq | ⟨p, l, -, hFrame, hEq⟩
    · exact .inl hEq
    · exact .inr ⟨p, l, hFrame, hEq⟩
  · rintro n (rfl | ⟨p, k, hFrame, rfl⟩)
    · exact hLong
    · exact hCovers p k (Nat.zero_le _) hFrame
  · obtain ⟨q, rfl⟩ : ∃ q, p = q + 1 := ⟨p - 1, by have := hLast.1.range.1; omega⟩
    obtain ⟨page, hPage, hBytes⟩ := hWritten q k (Nat.zero_le _) hLast
    refine ⟨page, hPage, ?_⟩
    have hEnd := hCovers (q + 1) k (Nat.zero_le _) hLast.1
    rw [Nat.succ_mul] at hEnd
    rw [Nat.add_sub_cancel]
    have hLength : ((out.drop (q * pageSize)).take pageSize).length = pageSize := by
      rw [List.length_take, List.length_drop]
      omega
    refine List.ext_getElem (hLength.trans page.2.symm) fun i hi hi' => ?_
    rw [hLength] at hi
    have hByte := hBytes i hi
    rw [← getD_drop, ← getD_take_of_lt hi, List.getD_eq_getElem _ _ (by omega),
      List.getD_eq_getElem _ _ hi'] at hByte
    exact hByte
  · have hByte := hKept i fun k _ => hNone k
    rw [List.getD_eq_getElem _ _ hi] at hByte
    rw [List.getElem?_eq_getElem hi, hByte]
    split
    · rfl
    · rw [List.getD_eq_default _ _ (Nat.not_lt.mp ‹_›)]

end Weflow.Wcdb
