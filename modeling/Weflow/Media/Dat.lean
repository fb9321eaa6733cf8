import Mathlib.Logic.Equiv.Basic
import Weflow.Lib.Blocks

/-!
# The `.dat` image cache files

A `.dat` file of the V1 and V2 generations is a header of 15 bytes and a payload of three
segments: the head in AES blocks behind its padding, the middle in the clear, the tail under a
single byte. The header gives the length of the head and of the tail; the tail is measured from
the end of the payload. The older generation has no header and is one segment under the byte.

The block cipher is the AES of a library: both its directions are parameters here.
-/

namespace Weflow.Media

/-! ## Slices and sizes

A slice out of range and a subtraction below zero end the program. -/

/-- What ends the program instead of returning. -/
inductive Panic where
  | slice
  | subtract
  deriving DecidableEq, Repr

/-- `&bytes[from..to]` -/
def slice (bytes : List UInt8) (start stop : Nat) : Except Panic (List UInt8) :=
  if start ≤ stop ∧ stop ≤ bytes.length then .ok ((bytes.take stop).drop start)
  else .error .slice

def checkedSub (a b : Nat) : Except Panic Nat :=
  if b ≤ a then .ok (a - b) else .error .subtract

/-- `usize::checked_add` -/
def checkedAdd (a b : Nat) : Option Nat := if a + b < 2 ^ 64 then some (a + b) else none

theorem slice_ok {bytes : List UInt8} {start stop : Nat} (hOrder : start ≤ stop)
    (hEnd : stop ≤ bytes.length) : slice bytes start stop = .ok ((bytes.take stop).drop start) :=
  if_pos ⟨hOrder, hEnd⟩

theorem checkedSub_ok {a b : Nat} (hOrder : b ≤ a) : checkedSub a b = .ok (a - b) :=
  if_pos hOrder

theorem checkedAdd_ok {a b : Nat} (hFits : a + b < 2 ^ 64) : checkedAdd a b = some (a + b) :=
  if_pos hFits

/-! ## Formats -/

/-- The 16 bytes of an AES key, and a block of 16 bytes. -/
abbrev Block := Vector UInt8 16

def magicV1 : List UInt8 := [0x07, 0x08, 0x56, 0x31, 0x08, 0x07]

def magicV2 : List UInt8 := [0x07, 0x08, 0x56, 0x32, 0x08, 0x07]

/-- Fixed AES key for V1 images: `cfcd208495d565ef`. -/
def v1FixedAesKey : Block :=
  ⟨#[0x63, 0x66, 0x63, 0x64, 0x32, 0x30, 0x38, 0x34, 0x39, 0x35, 0x64, 0x35, 0x36, 0x35, 0x65,
    0x66], rfl⟩

inductive DatFormat where
  | v1
  | v2
  | legacyXor
  deriving DecidableEq, Repr

/-- Detect the format from the first bytes; without a header it is a guess. -/
def detectFormat (data : List UInt8) : Option DatFormat :=
  if data.length ≥ 6 ∧ data.take 6 = magicV1 then some .v1
  else if data.length ≥ 6 ∧ data.take 6 = magicV2 then some .v2
  else if data.length > 1 then some .legacyXor
  else none

/-! ## The decoder -/

/-- Ciphertext length of a PKCS7-padded plaintext. -/
def pkcs7CtLen (plainLen : Nat) : Option Nat := checkedAdd plainLen (16 - plainLen % 16)

/-- Decrypt a legacy single-byte XOR file. -/
def decryptDatLegacy (data : List UInt8) (xorKey : UInt8) : List UInt8 :=
  data.map (· ^^^ xorKey)

section Cipher

variable (encryptBlock decryptBlock : Block → Block → Block)

def aes128EcbDecrypt (key : Block) (ct : List UInt8) : List UInt8 :=
  Blocks.mapChunks (decryptBlock key) ct

def aes128EcbEncrypt (key : Block) (pt : List UInt8) : List UInt8 :=
  Blocks.mapChunks (encryptBlock key) pt

/-- The three segments of a payload whose head and tail fit in it. -/
def segments (payload : List UInt8) (aesSize ctLen xorSize : Nat) (aesKey : Block)
    (xorKey : UInt8) : Except Panic (Option (List UInt8)) := do
  -- the XOR segment is anchored at the end of the payload
  let xorStart ← checkedSub payload.length xorSize
  -- the capacity reserved for the output
  let _ ← checkedSub xorStart ctLen
  let ciphertext ← slice payload 0 ctLen
  let aesPt := aes128EcbDecrypt decryptBlock aesKey ciphertext
  let head ← slice aesPt 0 (min aesSize aesPt.length)
  let mid ← slice payload ctLen xorStart
  let tail ← slice payload xorStart payload.length
  return some (head ++ mid ++ tail.map (· ^^^ xorKey))

/-- Decrypt a V1/V2 payload (after the 15-byte header) into image bytes. -/
def decryptDatPayload (data : List UInt8) (aesKey : Block) (xorKey : UInt8) :
    Except Panic (Option (List UInt8)) := do
  if data.length < 15 then
    return none
  else
    let aesSize := Blocks.ofLe (← slice data 6 10)
    let xorSize := Blocks.ofLe (← slice data 10 14)
    let payload ← slice data 15 data.length
    match pkcs7CtLen aesSize with
    | none => return none
    | some ctLen =>
        match checkedAdd ctLen xorSize with
        | none => return none
        | some whole =>
            if whole > payload.length then return none
            else segments decryptBlock payload aesSize ctLen xorSize aesKey xorKey

/-- A file as it is laid out: the header, the head in padded AES blocks, the middle, and the
tail under the XOR byte. -/
def buildSample (magic : Vector UInt8 6) (aesKey : Block) (xorKey flag : UInt8)
    (head mid tail : List UInt8) : List UInt8 :=
  magic.toList ++ Blocks.leBytes 4 head.length ++ Blocks.leBytes 4 tail.length ++ [flag] ++
    aes128EcbEncrypt encryptBlock aesKey (Blocks.pad 16 head) ++ mid ++ tail.map (· ^^^ xorKey)

end Cipher

/-! ## What the header says -/

/-- The length of the head, bytes 6 to 10. -/
def aesSize (data : List UInt8) : Nat := Blocks.ofLe ((data.take 10).drop 6)

/-- The length of the tail, bytes 10 to 14. -/
def xorSize (data : List UInt8) : Nat := Blocks.ofLe ((data.take 14).drop 10)

/-- The file holds its header, and behind it the padded head and the tail. -/
def Fits (data : List UInt8) : Prop :=
  15 ≤ data.length ∧
    aesSize data + Blocks.padding 16 (aesSize data) + xorSize data ≤ data.length - 15

instance (data : List UInt8) : Decidable (Fits data) :=
  inferInstanceAs (Decidable (_ ∧ _))

theorem ofLe_window_lt (bytes : List UInt8) (start : Nat) :
    Blocks.ofLe ((bytes.take (start + 4)).drop start) < 2 ^ 32 := by
  have hBound := Blocks.ofLe_lt ((bytes.take (start + 4)).drop start)
  have hLength : ((bytes.take (start + 4)).drop start).length ≤ 4 := by
    simp only [List.length_drop, List.length_take]
    omega
  have hPower : (256 : Nat) ^ ((bytes.take (start + 4)).drop start).length ≤ 256 ^ 4 :=
    Nat.pow_le_pow_right (by decide) hLength
  have hWord : (256 : Nat) ^ 4 = 2 ^ 32 := by decide
  omega

theorem aesSize_lt (data : List UInt8) : aesSize data < 2 ^ 32 := ofLe_window_lt data 6

theorem xorSize_lt (data : List UInt8) : xorSize data < 2 ^ 32 := ofLe_window_lt data 10

/-- A length from the header never exhausts the machine word. -/
theorem pkcs7CtLen_eq {length : Nat} (hSmall : length < 2 ^ 32) :
    pkcs7CtLen length = some (length + Blocks.padding 16 length) := by
  have hPad := Blocks.padding_le 16 length
  exact checkedAdd_ok (by unfold Blocks.padding at hPad; omega)

/-! ## What the decoder returns -/

section Cipher

variable (encryptBlock decryptBlock : Block → Block → Block)

/-- The head, the middle and the tail that the decoder reads in a file that fits. -/
def plainBytes (data : List UInt8) (aesKey : Block) (xorKey : UInt8) : List UInt8 :=
  let payload := data.drop 15
  let ctLen := aesSize data + Blocks.padding 16 (aesSize data)
  (aes128EcbDecrypt decryptBlock aesKey (payload.take ctLen)).take (aesSize data) ++
    (payload.take (payload.length - xorSize data)).drop ctLen ++
    Blocks.xorAll xorKey (payload.drop (payload.length - xorSize data))

theorem segments_eq (payload : List UInt8) (aesSize ctLen xorSize : Nat) (aesKey : Block)
    (xorKey : UInt8) (hHead : aesSize ≤ ctLen) (hFits : ctLen + xorSize ≤ payload.length) :
    segments decryptBlock payload aesSize ctLen xorSize aesKey xorKey =
      .ok (some ((aes128EcbDecrypt decryptBlock aesKey (payload.take ctLen)).take aesSize ++
        (payload.take (payload.length - xorSize)).drop ctLen ++
        Blocks.xorAll xorKey (payload.drop (payload.length - xorSize)))) := by
  have hPlain : (aes128EcbDecrypt decryptBlock aesKey (payload.take ctLen)).length = ctLen := by
    rw [aes128EcbDecrypt, Blocks.length_mapChunks, List.length_take]
    omega
  have hMin : min aesSize ctLen = aesSize := by omega
  unfold segments
  rw [checkedSub_ok (by omega : xorSize ≤ payload.length)]
  dsimp only [Bind.bind, Except.bind, Pure.pure, Except.pure]
  rw [checkedSub_ok (by omega : ctLen ≤ payload.length - xorSize),
    slice_ok (Nat.zero_le _) (by omega : ctLen ≤ payload.length),
    slice_ok (by omega : ctLen ≤ payload.length - xorSize) (by omega),
    slice_ok (by omega : payload.length - xorSize ≤ payload.length) (Nat.le_refl _)]
  dsimp only
  rw [List.drop_zero, hPlain, hMin, slice_ok (Nat.zero_le _) (by omega)]
  dsimp only
  rw [List.drop_zero, List.take_length]
  rfl

/-- On every byte string the decoder returns: nothing when the file does not fit, the three
segments when it does. -/
theorem decryptDatPayload_eq (data : List UInt8) (aesKey : Block) (xorKey : UInt8) :
    decryptDatPayload decryptBlock data aesKey xorKey =
      .ok (if Fits data then some (plainBytes decryptBlock data aesKey xorKey) else none) := by
  have hAes := aesSize_lt data
  have hXor := xorSize_lt data
  have hPad := Blocks.padding_le 16 (aesSize data)
  unfold decryptDatPayload
  by_cases hShort : data.length < 15
  · rw [if_pos hShort, if_neg (fun hFits => by have := hFits.1; omega)]
    rfl
  · rw [if_neg hShort, slice_ok (by decide) (by omega : 10 ≤ data.length),
      slice_ok (by decide) (by omega : 14 ≤ data.length),
      slice_ok (by omega : 15 ≤ data.length) (Nat.le_refl _)]
    dsimp only [Bind.bind, Except.bind, Pure.pure, Except.pure]
    have hCt : pkcs7CtLen (Blocks.ofLe ((data.take 10).drop 6)) =
        some (aesSize data + Blocks.padding 16 (aesSize data)) := pkcs7CtLen_eq hAes
    have hWhole : checkedAdd (aesSize data + Blocks.padding 16 (aesSize data))
        (Blocks.ofLe ((data.take 14).drop 10)) =
        some (aesSize data + Blocks.padding 16 (aesSize data) + xorSize data) :=
      checkedAdd_ok (by change _ + xorSize data < _; omega)
    have hPayload : (data.drop 15).length = data.length - 15 := List.length_drop
    rw [hCt]
    dsimp only
    rw [hWhole]
    dsimp only
    rw [List.take_length]
    by_cases hFits : aesSize data + Blocks.padding 16 (aesSize data) + xorSize data ≤
        data.length - 15
    · rw [if_neg (by omega), if_pos ⟨by omega, hFits⟩]
      exact segments_eq decryptBlock (data.drop 15) (aesSize data)
        (aesSize data + Blocks.padding 16 (aesSize data)) (xorSize data) aesKey xorKey
        (Nat.le_add_right _ _) (by omega)
    · rw [if_pos (by omega), if_neg (fun hBoth => hFits hBoth.2)]

/-- What the decoder returns is as long as the payload without the padding. -/
theorem length_plainBytes {data : List UInt8} (hFits : Fits data) (aesKey : Block)
    (xorKey : UInt8) :
    (plainBytes decryptBlock data aesKey xorKey).length =
      data.length - 15 - Blocks.padding 16 (aesSize data) := by
  have hRoom := hFits.2
  simp only [plainBytes, aes128EcbDecrypt, List.length_append, List.length_take,
    List.length_drop, Blocks.length_mapChunks, Blocks.length_xorAll]
  omega

/-! ## The layout, decoded -/

/-- The 15 bytes before the payload. -/
def headerBytes (magic : Vector UInt8 6) (flag : UInt8) (head tail : List UInt8) : List UInt8 :=
  magic.toList ++ Blocks.leBytes 4 head.length ++ Blocks.leBytes 4 tail.length ++ [flag]

/-- The three segments as they are stored. -/
def payloadBytes (aesKey : Block) (xorKey : UInt8) (head mid tail : List UInt8) : List UInt8 :=
  aes128EcbEncrypt encryptBlock aesKey (Blocks.pad 16 head) ++ mid ++ Blocks.xorAll xorKey tail

theorem length_headerBytes (magic : Vector UInt8 6) (flag : UInt8) (head tail : List UInt8) :
    (headerBytes magic flag head tail).length = 15 := by
  simp [headerBytes]

theorem buildSample_eq (magic : Vector UInt8 6) (aesKey : Block) (xorKey flag : UInt8)
    (head mid tail : List UInt8) :
    buildSample encryptBlock magic aesKey xorKey flag head mid tail =
      headerBytes magic flag head tail ++ payloadBytes encryptBlock aesKey xorKey head mid tail := by
  simp only [buildSample, headerBytes, payloadBytes, Blocks.xorAll, List.append_assoc]

theorem drop_buildSample (magic : Vector UInt8 6) (aesKey : Block) (xorKey flag : UInt8)
    (head mid tail : List UInt8) :
    (buildSample encryptBlock magic aesKey xorKey flag head mid tail).drop 15 =
      payloadBytes encryptBlock aesKey xorKey head mid tail := by
  have hHeader := length_headerBytes magic flag head tail
  rw [buildSample_eq, List.drop_append_of_le_length (by omega), List.drop_of_length_le (by omega),
    List.nil_append]

/-- The piece of a list between two others. -/
theorem take_drop_middle {α : Type} {a b : Nat} (xs ys zs : List α) (hStart : xs.length = a)
    (hEnd : a + ys.length = b) : ((xs ++ ys ++ zs).take b).drop a = ys := by
  rw [List.take_append_of_le_length (by rw [List.length_append]; omega),
    List.take_of_length_le (by rw [List.length_append]; omega),
    List.drop_append_of_le_length (by omega), List.drop_of_length_le (by omega), List.nil_append]

theorem aesSize_buildSample (magic : Vector UInt8 6) (aesKey : Block) (xorKey flag : UInt8)
    (head mid tail : List UInt8) (hHead : head.length < 2 ^ 32) :
    aesSize (buildSample encryptBlock magic aesKey xorKey flag head mid tail) = head.length := by
  have hSplit : buildSample encryptBlock magic aesKey xorKey flag head mid tail =
      magic.toList ++ Blocks.leBytes 4 head.length ++ (Blocks.leBytes 4 tail.length ++ ([flag] ++
        payloadBytes encryptBlock aesKey xorKey head mid tail)) := by
    rw [buildSample_eq, headerBytes]
    simp only [List.append_assoc]
  rw [aesSize, hSplit, take_drop_middle _ _ _ (by simp) (by simp)]
  exact Blocks.ofLe_leBytes_of_lt hHead

theorem xorSize_buildSample (magic : Vector UInt8 6) (aesKey : Block) (xorKey flag : UInt8)
    (head mid tail : List UInt8) (hTail : tail.length < 2 ^ 32) :
    xorSize (buildSample encryptBlock magic aesKey xorKey flag head mid tail) = tail.length := by
  have hSplit : buildSample encryptBlock magic aesKey xorKey flag head mid tail =
      magic.toList ++ Blocks.leBytes 4 head.length ++ Blocks.leBytes 4 tail.length ++ ([flag] ++
        payloadBytes encryptBlock aesKey xorKey head mid tail) := by
    rw [buildSample_eq, headerBytes]
    simp only [List.append_assoc]
  rw [xorSize, hSplit, take_drop_middle _ _ _ (by simp) (by simp)]
  exact Blocks.ofLe_leBytes_of_lt hTail

theorem length_payloadBytes (aesKey : Block) (xorKey : UInt8) (head mid tail : List UInt8) :
    (payloadBytes encryptBlock aesKey xorKey head mid tail).length =
      head.length + Blocks.padding 16 head.length + mid.length + tail.length := by
  simp only [payloadBytes, aes128EcbEncrypt, List.length_append, Blocks.length_mapChunks,
    Blocks.length_pad, Blocks.length_xorAll]

theorem fits_buildSample (magic : Vector UInt8 6) (aesKey : Block) (xorKey flag : UInt8)
    (head mid tail : List UInt8) (hHead : head.length < 2 ^ 32) (hTail : tail.length < 2 ^ 32) :
    Fits (buildSample encryptBlock magic aesKey xorKey flag head mid tail) := by
  have hPayload := length_payloadBytes encryptBlock aesKey xorKey head mid tail
  have hLength : (buildSample encryptBlock magic aesKey xorKey flag head mid tail).length =
      15 + (payloadBytes encryptBlock aesKey xorKey head mid tail).length := by
    rw [buildSample_eq, List.length_append, length_headerBytes]
  refine ⟨by omega, ?_⟩
  rw [aesSize_buildSample encryptBlock magic aesKey xorKey flag head mid tail hHead,
    xorSize_buildSample encryptBlock magic aesKey xorKey flag head mid tail hTail]
  omega

variable {encryptBlock decryptBlock}

/-- The three segments of a laid out file are its head, its middle and its tail. -/
theorem plainBytes_buildSample
    (hInverse : ∀ key block, decryptBlock key (encryptBlock key block) = block)
    (magic : Vector UInt8 6) (aesKey : Block) (xorKey flag : UInt8) (head mid tail : List UInt8)
    (hHead : head.length < 2 ^ 32) (hTail : tail.length < 2 ^ 32) :
    plainBytes decryptBlock (buildSample encryptBlock magic aesKey xorKey flag head mid tail)
      aesKey xorKey = head ++ mid ++ tail := by
  have hPayload := length_payloadBytes encryptBlock aesKey xorKey head mid tail
  have hCipher : (aes128EcbEncrypt encryptBlock aesKey (Blocks.pad 16 head)).length =
      head.length + Blocks.padding 16 head.length := by
    rw [aes128EcbEncrypt, Blocks.length_mapChunks, Blocks.length_pad]
  have hFirst : (payloadBytes encryptBlock aesKey xorKey head mid tail).take
      (head.length + Blocks.padding 16 head.length) =
      aes128EcbEncrypt encryptBlock aesKey (Blocks.pad 16 head) := by
    rw [payloadBytes, List.append_assoc, ← hCipher, List.take_left]
  have hHeadBack : aes128EcbDecrypt decryptBlock aesKey
      (aes128EcbEncrypt encryptBlock aesKey (Blocks.pad 16 head)) = Blocks.pad 16 head :=
    Blocks.mapChunks_inverse (hInverse aesKey) _
  have hMid : ((payloadBytes encryptBlock aesKey xorKey head mid tail).take
      ((payloadBytes encryptBlock aesKey xorKey head mid tail).length - tail.length)).drop
      (head.length + Blocks.padding 16 head.length) = mid :=
    take_drop_middle _ _ _ hCipher (by omega)
  have hLast : (payloadBytes encryptBlock aesKey xorKey head mid tail).drop
      ((payloadBytes encryptBlock aesKey xorKey head mid tail).length - tail.length) =
      Blocks.xorAll xorKey tail := by
    have hFront : (aes128EcbEncrypt encryptBlock aesKey (Blocks.pad 16 head) ++ mid).length =
        (payloadBytes encryptBlock aesKey xorKey head mid tail).length - tail.length := by
      rw [List.length_append]
      omega
    rw [← hFront, payloadBytes, List.drop_left]
  rw [plainBytes, aesSize_buildSample encryptBlock magic aesKey xorKey flag head mid tail hHead,
    xorSize_buildSample encryptBlock magic aesKey xorKey flag head mid tail hTail,
    drop_buildSample, hFirst, hHeadBack, Blocks.take_pad, hMid, hLast, Blocks.xorAll_xorAll]

theorem decrypt_buildSample
    (hInverse : ∀ key block, decryptBlock key (encryptBlock key block) = block)
    (magic : Vector UInt8 6) (aesKey : Block) (xorKey flag : UInt8) (head mid tail : List UInt8)
    (hHead : head.length < 2 ^ 32) (hTail : tail.length < 2 ^ 32) :
    decryptDatPayload decryptBlock (buildSample encryptBlock magic aesKey xorKey flag head mid tail)
      aesKey xorKey = .ok (some (head ++ mid ++ tail)) := by
  rw [decryptDatPayload_eq,
    if_pos (fits_buildSample encryptBlock magic aesKey xorKey flag head mid tail hHead hTail),
    plainBytes_buildSample hInverse magic aesKey xorKey flag head mid tail hHead hTail]

/-- The decoder inverts the layout, refuses exactly the files that do not hold what their
header says, and never leaves its bounds. -/
theorem decryptDatPayload_inverts
    (hInverse : ∀ key block, decryptBlock key (encryptBlock key block) = block) :
    (∀ (magic : Vector UInt8 6) (aesKey : Block) (xorKey flag : UInt8)
      (head mid tail : List UInt8), head.length < 2 ^ 32 → tail.length < 2 ^ 32 →
      decryptDatPayload decryptBlock
        (buildSample encryptBlock magic aesKey xorKey flag head mid tail) aesKey xorKey =
        .ok (some (head ++ mid ++ tail))) ∧
    ∀ (data : List UInt8) (aesKey : Block) (xorKey : UInt8),
      (decryptDatPayload decryptBlock data aesKey xorKey = .ok none ↔
        data.length < 15 ∨
        data.length - 15 < aesSize data + Blocks.padding 16 (aesSize data) + xorSize data) ∧
      (¬ (data.length < 15 ∨
        data.length - 15 < aesSize data + Blocks.padding 16 (aesSize data) + xorSize data) →
        ∃ out, decryptDatPayload decryptBlock data aesKey xorKey = .ok (some out) ∧
          out.length = data.length - 15 - Blocks.padding 16 (aesSize data)) := by
  refine ⟨?_, ?_⟩
  · intro magic aesKey xorKey flag head mid tail hHead hTail
    exact decrypt_buildSample hInverse magic aesKey xorKey flag head mid tail hHead hTail
  · intro data aesKey xorKey
    rw [decryptDatPayload_eq]
    by_cases hFits : Fits data
    · rw [if_pos hFits]
      have hHeader := hFits.1
      have hRoom := hFits.2
      refine ⟨⟨fun hNone => (by cases hNone), fun hShort => (by omega)⟩, fun _ => ⟨_, rfl, ?_⟩⟩
      exact length_plainBytes decryptBlock hFits aesKey xorKey
    · rw [if_neg hFits]
      have hShort : data.length < 15 ∨
          data.length - 15 < aesSize data + Blocks.padding 16 (aesSize data) + xorSize data := by
        by_contra hBoth
        rw [not_or, Nat.not_lt, Nat.not_lt] at hBoth
        exact hFits hBoth
      exact ⟨⟨fun _ => hShort, fun _ => rfl⟩, fun hNot => absurd hShort hNot⟩

end Cipher

/-- `FF D8 FF E0` behind its padding. -/
def jpegBlock : Block :=
  ⟨#[0xFF, 0xD8, 0xFF, 0xE0, 12, 12, 12, 12, 12, 12, 12, 12, 12, 12, 12, 12], rfl⟩

/-- What AES makes of it under the fixed key. -/
def jpegCipher : Block :=
  ⟨#[0x56, 0x26, 0x3D, 0x39, 0x8B, 0x49, 0x7A, 0xCE, 0xD3, 0x17, 0xB6, 0xDD,
    0xE9, 0xC2, 0x19, 0xFF], rfl⟩

/-- AES under the fixed key on that block and its ciphertext, both ways. -/
def fixedKeyAes (key block : Block) : Block :=
  if key = v1FixedAesKey then Equiv.swap jpegBlock jpegCipher block else block

theorem fixedKeyAes_twice (key block : Block) : fixedKeyAes key (fixedKeyAes key block) = block := by
  unfold fixedKeyAes
  split
  · exact Equiv.swap_apply_self _ _ _
  · rfl

theorem decryptDatPayload_inverts_jpeg :
    decryptDatPayload fixedKeyAes (buildSample fixedKeyAes ⟨magicV1.toArray, rfl⟩ v1FixedAesKey 0 1
      [0xFF, 0xD8, 0xFF, 0xE0] [0x10] [0x4A, 0x46]) v1FixedAesKey 0 =
      .ok (some [0xFF, 0xD8, 0xFF, 0xE0, 0x10, 0x4A, 0x46]) :=
  (decryptDatPayload_inverts fixedKeyAes_twice).1 ⟨magicV1.toArray, rfl⟩ v1FixedAesKey 0 1
    [0xFF, 0xD8, 0xFF, 0xE0] [0x10] [0x4A, 0x46] (by decide) (by decide)

end Weflow.Media
