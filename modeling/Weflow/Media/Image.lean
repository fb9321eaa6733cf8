import Weflow.Media.Dat
import Weflow.Media.Export

/-!
# Exporting an image

`export_one` for an image: the located file is decoded as its first bytes tell, the plaintext must
have the md5 of the message, and it is written under that md5 and the extension of its own first
bytes. The md5 and the ffmpeg conversion are parameters beside the block cipher.

The code that would take an unencrypted file is never reached, since every file of two bytes or
more has a format (`decodeImage`); `image_export_exact` says which files go wrong.
-/

namespace Weflow.Media

open Effects

/-! ## Digests -/

def hexPair (b : UInt8) : List Char :=
  [Nat.digitChar (b.toNat / 16), Nat.digitChar (b.toNat % 16)]

/-- `to_ascii_lowercase` of one character. -/
def toAsciiLowercase (c : Char) : Char :=
  if 65 ≤ c.toNat ∧ c.toNat ≤ 90 then Char.ofNat (c.toNat + 32) else c

def eqIgnoreAsciiCase (a b : List Char) : Bool := a.map toAsciiLowercase == b.map toAsciiLowercase

/-! ## First bytes -/

def jpegMagic : List UInt8 := [0xFF, 0xD8, 0xFF]

def pngMagic : List UInt8 := [0x89, 0x50, 0x4E, 0x47]

/-- `GIF8` -/
def gifMagic : List UInt8 := [0x47, 0x49, 0x46, 0x38]

def wxgfMagic : List UInt8 := [0x77, 0x78, 0x67, 0x66]

def zstdMagic : List UInt8 := [0x28, 0xB5, 0x2F, 0xFD]

/-- What an unencrypted cache file begins with. -/
def isPlainImage (raw : List UInt8) : Bool :=
  jpegMagic.isPrefixOf raw || pngMagic.isPrefixOf raw || gifMagic.isPrefixOf raw

def sniffImageExt (bytes : List UInt8) : List Char :=
  if wxgfMagic.isPrefixOf bytes then ['w', 'x', 'g', 'f']
  else if jpegMagic.isPrefixOf bytes then ['j', 'p', 'g']
  else if pngMagic.isPrefixOf bytes then ['p', 'n', 'g']
  else if gifMagic.isPrefixOf bytes then ['g', 'i', 'f']
  else if bytes.length > 12 ∧ bytes.take 4 = [0x52, 0x49, 0x46, 0x46] ∧
      (bytes.take 12).drop 8 = [0x57, 0x45, 0x42, 0x50] then ['w', 'e', 'b', 'p']
  else if [0x42, 0x4D].isPrefixOf bytes then ['b', 'm', 'p']
  else ['b', 'i', 'n']

structure ImageKeys where
  aes : Block
  xor : UInt8

section Export

variable (decryptBlock : Block → Block → Block) (md5 : List UInt8 → Block)
  (ffmpeg : List UInt8 → Option (List UInt8))

/-- `format!("{:x}", digest)` -/
def md5Hex (bytes : List UInt8) : List Char := (md5 bytes).toList.flatMap hexPair

/-- The converted image, when it is a PNG. -/
def wxgfToPng (bytes : List UInt8) : Option (List UInt8) :=
  (ffmpeg bytes).filter pngMagic.isPrefixOf

/-- The bytes to write, and their extension. -/
def transcode (decoded : List UInt8) : List UInt8 × List Char :=
  if wxgfMagic.isPrefixOf decoded then
    match wxgfToPng ffmpeg decoded with
    | some png => (png, ['p', 'n', 'g'])
    | none => (decoded, ['w', 'x', 'g', 'f'])
  else (decoded, sniffImageExt decoded)

/-- The plaintext of a file, by its format. -/
def decodeImage (mediaKeys : Option ImageKeys) (raw : List UInt8) :
    Except Panic (Option (List UInt8)) :=
  match detectFormat raw with
  | some .v1 => decryptDatPayload decryptBlock raw v1FixedAesKey 0
  | some .v2 =>
      match mediaKeys with
      | none => .ok none
      | some keys => decryptDatPayload decryptBlock raw keys.aes keys.xor
  | some .legacyXor =>
      match mediaKeys with
      | none => .ok none
      | some keys => .ok (some (decryptDatLegacy raw keys.xor))
  | none => .ok (if isPlainImage raw then some raw else none)

variable {K : Type} [DecidableEq K] (key : DirPath → K)

/-- What is done with the plaintext. -/
def exportDecoded (io : Io) (exportDir : DirPath) (talker imgMd5 : List Char)
    (decoded : List UInt8) : Act (Files.effects Unit key) (Option ExportedMedia) :=
  if zstdMagic.isPrefixOf decoded then pure none
  else if !eqIgnoreAsciiCase (md5Hex md5 decoded) imgMd5 then pure none
  else
    writeOut key io exportDir talker ['i', 'm', 'a', 'g', 'e', 's']
      (imgMd5 ++ '.' :: (transcode ffmpeg decoded).2) (transcode ffmpeg decoded).1 true

/-- `export_one` for an image whose file is `raw`. -/
def exportImage (io : Io) (exportDir : DirPath) (mediaKeys : Option ImageKeys)
    (talker imgMd5 : List Char) (raw : List UInt8) :
    Act (Files.effects Unit key) (Except Panic (Option ExportedMedia)) :=
  match decodeImage decryptBlock mediaKeys raw with
  | .error panic => pure (.error panic)
  | .ok none => pure (.ok none)
  | .ok (some decoded) => do
      let media ← exportDecoded md5 ffmpeg key io exportDir talker imgMd5 decoded
      return .ok media

end Export

/-! ## The digest as a file name -/

theorem isHexDigit_digitChar {n : Nat} (h : n < 16) : isHexDigit (Nat.digitChar n) = true := by
  have hAll : ∀ n < 16, isHexDigit (Nat.digitChar n) = true := by decide
  exact hAll n h

theorem isHexDigit_of_mem_hexPair {b : UInt8} {c : Char} (h : c ∈ hexPair b) :
    isHexDigit c = true := by
  have hByte := b.toNat_lt
  simp only [hexPair, List.mem_cons, List.not_mem_nil, or_false] at h
  rcases h with rfl | rfl
  · exact isHexDigit_digitChar (by omega)
  · exact isHexDigit_digitChar (by omega)

theorem length_flatMap_hexPair (bytes : List UInt8) :
    (bytes.flatMap hexPair).length = 2 * bytes.length := by
  induction bytes with
  | nil => rfl
  | cons b bytes ih =>
      rw [List.flatMap_cons, List.length_append, ih, List.length_cons]
      have hPair : (hexPair b).length = 2 := rfl
      omega

theorem toNat_toAsciiLowercase (c : Char) : (toAsciiLowercase c).toNat =
    if 65 ≤ c.toNat ∧ c.toNat ≤ 90 then c.toNat + 32 else c.toNat := by
  unfold toAsciiLowercase
  split
  · have hValid : (c.toNat + 32).isValidChar := Or.inl (by omega)
    rw [Char.ofNat, dif_pos hValid]
    rfl
  · rfl

theorem isHexDigit_toAsciiLowercase (c : Char) :
    isHexDigit (toAsciiLowercase c) = isHexDigit c := by
  rw [Bool.eq_iff_iff]
  simp only [isHexDigit, toNat_toAsciiLowercase, Bool.or_eq_true, Bool.and_eq_true,
    decide_eq_true_eq]
  split <;> omega

variable {md5 : List UInt8 → Block}

/-- The text that matches a digest is one: 32 hexadecimal digits. -/
theorem digits_of_matches {bytes : List UInt8} {name : List Char}
    (h : eqIgnoreAsciiCase (md5Hex md5 bytes) name = true) :
    name.length = 32 ∧ ∀ c ∈ name, isHexDigit c = true := by
  have hMap : (md5Hex md5 bytes).map toAsciiLowercase = name.map toAsciiLowercase := by
    simpa [eqIgnoreAsciiCase] using h
  refine ⟨?_, ?_⟩
  · have hLength := congrArg List.length hMap
    rw [List.length_map, List.length_map, md5Hex, length_flatMap_hexPair,
      Vector.length_toList] at hLength
    omega
  · intro c hc
    have hMem : toAsciiLowercase c ∈ (md5Hex md5 bytes).map toAsciiLowercase := by
      rw [hMap]
      exact List.mem_map_of_mem hc
    obtain ⟨digit, hDigit, hSame⟩ := List.mem_map.mp hMem
    obtain ⟨b, -, hPair⟩ := List.mem_flatMap.mp hDigit
    rw [← isHexDigit_toAsciiLowercase, ← hSame, isHexDigit_toAsciiLowercase]
    exact isHexDigit_of_mem_hexPair hPair

theorem sniffImageExt_letters (bytes : List UInt8) :
    (sniffImageExt bytes).length ≤ 8 ∧ sniffImageExt bytes ≠ [] ∧
      ∀ c ∈ sniffImageExt bytes, 97 ≤ c.toNat ∧ c.toNat ≤ 122 := by
  unfold sniffImageExt
  split_ifs <;> simp

theorem transcode_letters (ffmpeg : List UInt8 → Option (List UInt8)) (decoded : List UInt8) :
    (transcode ffmpeg decoded).2.length ≤ 8 ∧ (transcode ffmpeg decoded).2 ≠ [] ∧
      ∀ c ∈ (transcode ffmpeg decoded).2, 97 ≤ c.toNat ∧ c.toNat ≤ 122 := by
  unfold transcode
  split
  · cases wxgfToPng ffmpeg decoded with
    | none => simp
    | some png => simp
  · exact sniffImageExt_letters decoded

/-- The name under which an image is written is a safe one. -/
theorem safeSegment_image {name : List Char} {decoded : List UInt8}
    (ffmpeg : List UInt8 → Option (List UInt8))
    (h : eqIgnoreAsciiCase (md5Hex md5 decoded) name = true) :
    safeSegment (name ++ '.' :: (transcode ffmpeg decoded).2) = true := by
  obtain ⟨hLength, hHex⟩ := digits_of_matches h
  obtain ⟨hShort, hSome, hLetters⟩ := transcode_letters ffmpeg decoded
  exact safeSegment_digest hLength hHex hShort hLetters hSome

/-! ## From the plaintext to the disk -/

section Disk

variable {decryptBlock : Block → Block → Block} {ffmpeg : List UInt8 → Option (List UInt8)}
  {K : Type} [DecidableEq K] {key : DirPath → K} {io : Io} {exportDir : DirPath}
  {mediaKeys : Option ImageKeys} {talker imgMd5 : List Char} {raw decoded : List UInt8}
  {d : Files.Disk K}

theorem exportImage_of_decode (hDecode : decodeImage decryptBlock mediaKeys raw = .ok (some decoded)) :
    exportImage decryptBlock md5 ffmpeg key io exportDir mediaKeys talker imgMd5 raw = (do
      let media ← exportDecoded md5 ffmpeg key io exportDir talker imgMd5 decoded
      return .ok media) := by
  rw [exportImage, hDecode]

/-- Nothing is touched and nothing is returned before the digest was compared. -/
theorem exportImage_gate
    (h : (exportImage decryptBlock md5 ffmpeg key io exportDir mediaKeys talker imgMd5 raw).ops d
        ≠ [] ∨
      ∃ media, (exportImage decryptBlock md5 ffmpeg key io exportDir mediaKeys talker imgMd5
        raw).result d = .ok (some media)) :
    ∃ decoded, decodeImage decryptBlock mediaKeys raw = .ok (some decoded) ∧
      zstdMagic.isPrefixOf decoded = false ∧
      eqIgnoreAsciiCase (md5Hex md5 decoded) imgMd5 = true := by
  unfold exportImage at h
  cases hDecode : decodeImage decryptBlock mediaKeys raw with
  | error panic =>
    rw [hDecode] at h
    rcases h with h | ⟨media, h⟩
    · exact absurd rfl h
    · cases h
  | ok found =>
    cases found with
    | none =>
      rw [hDecode] at h
      rcases h with h | ⟨media, h⟩
      · exact absurd rfl h
      · cases h
    | some decoded =>
      rw [hDecode] at h
      refine ⟨decoded, rfl, ?_⟩
      by_contra hClosed
      have hNothing : exportDecoded md5 ffmpeg key io exportDir talker imgMd5 decoded = pure none := by
        unfold exportDecoded
        by_cases hZstd : zstdMagic.isPrefixOf decoded = true
        · rw [if_pos hZstd]
        · rw [if_neg hZstd, if_pos]
          rw [Bool.not_eq_true', ← Bool.not_eq_true]
          exact fun hNamed => hClosed ⟨Bool.not_eq_true _ ▸ hZstd, hNamed⟩
      dsimp only at h
      rw [hNothing] at h
      rcases h with h | ⟨media, h⟩
      · exact h rfl
      · cases h

/-- What was returned stands on the disk with the bytes of the plaintext, converted or not. -/
theorem exportImage_stands {media : ExportedMedia}
    (h : (exportImage decryptBlock md5 ffmpeg key io exportDir mediaKeys talker imgMd5 raw).result d
      = .ok (some media)) :
    ∃ decoded, decodeImage decryptBlock mediaKeys raw = .ok (some decoded) ∧
      (exportImage decryptBlock md5 ffmpeg key io exportDir mediaKeys talker imgMd5 raw).after d
        (key media.localPath) = some (.file (transcode ffmpeg decoded).1) := by
  obtain ⟨decoded, hDecode, hZstd, hNamed⟩ := exportImage_gate (Or.inr ⟨media, h⟩)
  refine ⟨decoded, hDecode, ?_⟩
  rw [exportImage_of_decode hDecode] at h ⊢
  rw [exportDecoded, hZstd, hNamed, if_neg (by decide), if_neg (by decide), Act.result_bind,
    Act.result_pure, Except.ok.injEq] at h
  rw [exportDecoded, hZstd, hNamed, if_neg (by decide), if_neg (by decide), Act.after_bind,
    Act.after_pure]
  exact writeOut_stands h

/-- A plaintext with the digest of the message, neither compressed nor to be converted, is written
as it is. -/
theorem exportImage_writes
    (hClear : Clear key io exportDir talker ['i', 'm', 'a', 'g', 'e', 's'] d)
    (hTalker : safeSegment talker = true)
    (hDecode : decodeImage decryptBlock mediaKeys raw = .ok (some decoded))
    (hNamed : eqIgnoreAsciiCase (md5Hex md5 decoded) imgMd5 = true)
    (hZstd : zstdMagic.isPrefixOf decoded = false) (hWxgf : wxgfMagic.isPrefixOf decoded = false) :
    ∃ media, media.localPath = filePath exportDir talker ['i', 'm', 'a', 'g', 'e', 's']
        (imgMd5 ++ '.' :: sniffImageExt decoded) ∧
      (exportImage decryptBlock md5 ffmpeg key io exportDir mediaKeys talker imgMd5 raw).result d =
        .ok (some media) ∧
      (exportImage decryptBlock md5 ffmpeg key io exportDir mediaKeys talker imgMd5 raw).after d
        (key media.localPath) = some (.file decoded) := by
  have hName := safeSegment_image ffmpeg hNamed
  have hBytes : transcode ffmpeg decoded = (decoded, sniffImageExt decoded) := by
    rw [transcode, hWxgf, if_neg (by decide)]
  rw [hBytes] at hName
  have hResult : (exportImage decryptBlock md5 ffmpeg key io exportDir mediaKeys talker imgMd5
      raw).result d = .ok (some ⟨imgMd5 ++ '.' :: sniffImageExt decoded,
        ['i', 'm', 'a', 'g', 'e', 's'], filePath exportDir talker ['i', 'm', 'a', 'g', 'e', 's']
          (imgMd5 ++ '.' :: sniffImageExt decoded), none, true⟩) := by
    rw [exportImage_of_decode hDecode, exportDecoded, hZstd, hNamed, if_neg (by decide),
      if_neg (by decide), hBytes, Act.result_bind, Act.result_pure,
      writeOut_result hClear hTalker hName]
  obtain ⟨found, hFound, hStands⟩ := exportImage_stands hResult
  rw [hDecode] at hFound
  obtain rfl : decoded = found := by simpa using hFound
  refine ⟨_, rfl, hResult, ?_⟩
  rw [hStands, hBytes]

end Disk

/-! ## Formats and keys -/

/-- Too short for a format, or behind the header of one: what is not read as a file under the
single byte. -/
def Headed (raw : List UInt8) : Prop :=
  raw.length ≤ 1 ∨ raw.take 6 = magicV1 ∨ raw.take 6 = magicV2

instance (raw : List UInt8) : Decidable (Headed raw) :=
  inferInstanceAs (Decidable (_ ∨ _ ∨ _))

theorem detectFormat_legacy {raw : List UInt8} (h : ¬ Headed raw) :
    detectFormat raw = some .legacyXor := by
  have hV1 : ¬ (raw.length ≥ 6 ∧ raw.take 6 = magicV1) := fun hBoth => h (Or.inr (Or.inl hBoth.2))
  have hV2 : ¬ (raw.length ≥ 6 ∧ raw.take 6 = magicV2) := fun hBoth => h (Or.inr (Or.inr hBoth.2))
  have hLong : raw.length > 1 := by
    have hShort : ¬ raw.length ≤ 1 := fun hShort => h (Or.inl hShort)
    omega
  rw [detectFormat, if_neg hV1, if_neg hV2, if_pos hLong]

/-- What an unencrypted image begins with. -/
theorem plain_shapes {raw : List UInt8} (h : isPlainImage raw = true) :
    ∃ rest, raw = jpegMagic ++ rest ∨ raw = pngMagic ++ rest ∨ raw = gifMagic ++ rest := by
  simp only [isPlainImage, Bool.or_eq_true, List.isPrefixOf_iff_prefix] at h
  rcases h with (⟨rest, rfl⟩ | ⟨rest, rfl⟩) | ⟨rest, rfl⟩
  · exact ⟨rest, Or.inl rfl⟩
  · exact ⟨rest, Or.inr (Or.inl rfl)⟩
  · exact ⟨rest, Or.inr (Or.inr rfl)⟩

theorem not_headed_of_plain {raw : List UInt8} (h : isPlainImage raw = true) : ¬ Headed raw := by
  obtain ⟨rest, rfl | rfl | rfl⟩ := plain_shapes h
  all_goals simp [Headed, jpegMagic, pngMagic, gifMagic, magicV1, magicV2]

/-- One byte before and after tells the key. -/
theorem xor_key {a b k : UInt8} (h : a ^^^ k = b) : k = a ^^^ b := by
  rw [← h, ← UInt8.xor_assoc, UInt8.xor_self, UInt8.zero_xor]

/-- No key turns one pair of first bytes into another unless both bytes agree on it. -/
theorem no_key {a a' b b' k : UInt8} (h : a ^^^ k = b) (h' : a' ^^^ k = b')
    (hApart : a ^^^ b ≠ a' ^^^ b') : False :=
  hApart ((xor_key h).symm.trans (xor_key h'))

theorem zstd_of_plain {raw : List UInt8} (h : isPlainImage raw = true) :
    zstdMagic.isPrefixOf raw = false := by
  rw [← Bool.not_eq_true, List.isPrefixOf_iff_prefix]
  rintro ⟨tail, hTail⟩
  obtain ⟨rest, rfl | rfl | rfl⟩ := plain_shapes h
  all_goals exact absurd (List.cons.inj hTail).1 (by decide)

theorem wxgf_of_plain {raw : List UInt8} (h : isPlainImage raw = true) (k : UInt8) :
    wxgfMagic.isPrefixOf (Blocks.xorAll k raw) = false := by
  rw [← Bool.not_eq_true, List.isPrefixOf_iff_prefix]
  rintro ⟨tail, hTail⟩
  obtain ⟨rest, rfl | rfl | rfl⟩ := plain_shapes h
  all_goals
    have hFirst := (List.cons.inj hTail).1
    have hSecond := (List.cons.inj (List.cons.inj hTail).2).1
    exact no_key hFirst.symm hSecond.symm (by decide)

/-- No key makes a PNG of a file with a header. -/
theorem png_of_headed {raw : List UInt8} (h : raw.take 6 = magicV1 ∨ raw.take 6 = magicV2)
    (k : UInt8) : pngMagic.isPrefixOf (Blocks.xorAll k raw) = false := by
  rw [← Bool.not_eq_true, List.isPrefixOf_iff_prefix]
  rintro ⟨tail, hTail⟩
  have hSplit := List.take_append_drop 6 raw
  rcases h with h | h
  all_goals
    rw [h] at hSplit
    rw [← hSplit] at hTail
    have hFirst := (List.cons.inj hTail).1
    have hSecond := (List.cons.inj (List.cons.inj hTail).2).1
    exact no_key hFirst.symm hSecond.symm (by decide)

section Decode

variable {encryptBlock decryptBlock : Block → Block → Block} {mediaKeys : Option ImageKeys}
  {raw : List UInt8}

theorem decodeImage_legacy {keys : ImageKeys} (hRaw : ¬ Headed raw) (hKeys : mediaKeys = some keys) :
    decodeImage decryptBlock mediaKeys raw = .ok (some (Blocks.xorAll keys.xor raw)) := by
  unfold decodeImage
  rw [detectFormat_legacy hRaw, hKeys]
  rfl

theorem decodeImage_locked (hRaw : ¬ Headed raw) (hKeys : mediaKeys = none) :
    decodeImage decryptBlock mediaKeys raw = .ok none := by
  unfold decodeImage
  rw [detectFormat_legacy hRaw, hKeys]

/-- The decoder makes a file shorter. -/
theorem decryptDatPayload_lt {aesKey : Block} {xorKey : UInt8} {decoded : List UInt8}
    (h : decryptDatPayload decryptBlock raw aesKey xorKey = .ok (some decoded)) :
    decoded.length < raw.length := by
  rw [decryptDatPayload_eq] at h
  by_cases hFits : Fits raw
  · rw [if_pos hFits, Except.ok.injEq, Option.some.injEq] at h
    have hLength := length_plainBytes decryptBlock hFits aesKey xorKey
    have hHeader := hFits.1
    rw [h] at hLength
    omega
  · rw [if_neg hFits] at h
    cases h

/-- Behind a header the plaintext is shorter than the file; a file without room for a format has
none. -/
theorem decodeImage_headed {decoded : List UInt8} (hRaw : Headed raw)
    (h : decodeImage decryptBlock mediaKeys raw = .ok (some decoded)) :
    (raw.take 6 = magicV1 ∨ raw.take 6 = magicV2) ∧ decoded.length < raw.length := by
  have hPlain : isPlainImage raw = false := by
    rw [← Bool.not_eq_true]
    exact fun hIs => not_headed_of_plain hIs hRaw
  unfold decodeImage detectFormat at h
  by_cases hV1 : raw.length ≥ 6 ∧ raw.take 6 = magicV1
  · rw [if_pos hV1] at h
    exact ⟨Or.inl hV1.2, decryptDatPayload_lt h⟩
  rw [if_neg hV1] at h
  by_cases hV2 : raw.length ≥ 6 ∧ raw.take 6 = magicV2
  · rw [if_pos hV2] at h
    cases mediaKeys with
    | none => cases h
    | some keys => exact ⟨Or.inr hV2.2, decryptDatPayload_lt h⟩
  have hLong : ∀ magic, magic.length = 6 → raw.take 6 = magic → raw.length ≥ 6 := by
    rintro magic hMagic rfl
    rw [List.length_take] at hMagic
    omega
  have hShort : ¬ raw.length > 1 := by
    rcases hRaw with hShort | hMagic | hMagic
    · omega
    · exact absurd ⟨hLong _ rfl hMagic, hMagic⟩ hV1
    · exact absurd ⟨hLong _ rfl hMagic, hMagic⟩ hV2
  rw [if_neg hV2, if_neg hShort, hPlain] at h
  cases h

theorem take_buildSample (magic : Vector UInt8 6) (aesKey : Block) (xorKey flag : UInt8)
    (head mid tail : List UInt8) :
    (buildSample encryptBlock magic aesKey xorKey flag head mid tail).take 6 = magic.toList := by
  have hSplit : buildSample encryptBlock magic aesKey xorKey flag head mid tail =
      magic.toList ++ (Blocks.leBytes 4 head.length ++ (Blocks.leBytes 4 tail.length ++ ([flag] ++
        payloadBytes encryptBlock aesKey xorKey head mid tail))) := by
    rw [buildSample_eq, headerBytes]
    simp only [List.append_assoc]
  rw [hSplit, List.take_append_of_le_length (by simp), List.take_of_length_le (by simp)]

theorem length_buildSample (magic : Vector UInt8 6) (aesKey : Block) (xorKey flag : UInt8)
    (head mid tail : List UInt8) :
    6 ≤ (buildSample encryptBlock magic aesKey xorKey flag head mid tail).length := by
  rw [buildSample_eq, List.length_append, length_headerBytes]
  omega

end Decode

/-! ## Which files are exported -/

section Exact

variable (encryptBlock decryptBlock : Block → Block → Block) (md5 : List UInt8 → Block)
  (ffmpeg : List UInt8 → Option (List UInt8)) {K : Type} [DecidableEq K] (key : DirPath → K)
  (mediaKeys : Option ImageKeys)

/-- The file is an encoding of the image: laid out under the fixed key or under the registered
ones, the image under the registered byte, or an unencrypted image itself. -/
inductive Encodes : List UInt8 → List UInt8 → Prop
  | v1 (flag : UInt8) (head mid tail : List UInt8) (hHead : head.length < 2 ^ 32)
      (hTail : tail.length < 2 ^ 32) :
      Encodes (buildSample encryptBlock ⟨magicV1.toArray, rfl⟩ v1FixedAesKey 0 flag head mid tail)
        (head ++ mid ++ tail)
  | v2 (keys : ImageKeys) (hKeys : mediaKeys = some keys) (flag : UInt8)
      (head mid tail : List UInt8) (hHead : head.length < 2 ^ 32) (hTail : tail.length < 2 ^ 32) :
      Encodes (buildSample encryptBlock ⟨magicV2.toArray, rfl⟩ keys.aes keys.xor flag head mid tail)
        (head ++ mid ++ tail)
  | legacyXor (keys : ImageKeys) (hKeys : mediaKeys = some keys) (image : List UInt8) :
      Encodes (Blocks.xorAll keys.xor image) image
  | plain (image : List UInt8) (hPlain : isPlainImage image = true) : Encodes image image

/-- The bytes have the md5 of the message and are neither compressed nor to be converted. -/
structure Named (imgMd5 : List Char) (image : List UInt8) : Prop where
  digest : eqIgnoreAsciiCase (md5Hex md5 image) imgMd5 = true
  zstd : zstdMagic.isPrefixOf image = false
  wxgf : wxgfMagic.isPrefixOf image = false

/-- The export of `raw` for a message with this md5 is sound, and complete for what `raw`
encodes. -/
structure ExportsExactly (imgMd5 : List Char) (raw : List UInt8) : Prop where
  sound : ∀ (io : Io) (exportDir : DirPath) (talker : List Char) (d : Files.Disk K),
    (exportImage decryptBlock md5 ffmpeg key io exportDir mediaKeys talker imgMd5 raw).ops d ≠ [] ∨
      (∃ media, (exportImage decryptBlock md5 ffmpeg key io exportDir mediaKeys talker imgMd5
        raw).result d = .ok (some media)) →
    ∃ decoded, decodeImage decryptBlock mediaKeys raw = .ok (some decoded) ∧
      eqIgnoreAsciiCase (md5Hex md5 decoded) imgMd5 = true
  complete : ∀ image, Encodes encryptBlock mediaKeys raw image → Named md5 imgMd5 image →
    ∀ (io : Io) (exportDir : DirPath) (talker : List Char) (d : Files.Disk K),
    Clear key io exportDir talker ['i', 'm', 'a', 'g', 'e', 's'] d → safeSegment talker = true →
    ∃ media, media.localPath = filePath exportDir talker ['i', 'm', 'a', 'g', 'e', 's']
        (imgMd5 ++ '.' :: sniffImageExt image) ∧
      (exportImage decryptBlock md5 ffmpeg key io exportDir mediaKeys talker imgMd5 raw).result d =
        .ok (some media) ∧
      (exportImage decryptBlock md5 ffmpeg key io exportDir mediaKeys talker imgMd5 raw).after d
        (key media.localPath) = some (.file image)

/-- An unencrypted image where the registered byte is not zero, or no keys are registered. -/
def Missed (imgMd5 : List Char) (raw : List UInt8) : Prop :=
  isPlainImage raw = true ∧ eqIgnoreAsciiCase (md5Hex md5 raw) imgMd5 = true ∧
    ∀ keys, mediaKeys = some keys → keys.xor ≠ 0

/-- An image under the registered byte whose file is taken for another format or for none. -/
def Misread (imgMd5 : List Char) (raw : List UInt8) : Prop :=
  Headed raw ∧ ∃ keys, mediaKeys = some keys ∧ Named md5 imgMd5 (Blocks.xorAll keys.xor raw)

variable {encryptBlock decryptBlock md5 ffmpeg key mediaKeys} {imgMd5 : List Char}
  {raw image : List UInt8}

/-- Every image that is not missed and not misread comes out of the decoder. -/
theorem decodeImage_encodes
    (hInverse : ∀ key block, decryptBlock key (encryptBlock key block) = block)
    (hMissed : ¬ Missed md5 mediaKeys imgMd5 raw) (hMisread : ¬ Misread md5 mediaKeys imgMd5 raw)
    (hEncodes : Encodes encryptBlock mediaKeys raw image) (hNamed : Named md5 imgMd5 image) :
    decodeImage decryptBlock mediaKeys raw = .ok (some image) := by
  cases hEncodes with
  | v1 flag head mid tail hHead hTail =>
    unfold decodeImage detectFormat
    rw [if_pos ⟨length_buildSample _ _ _ _ _ _ _, take_buildSample _ _ _ _ _ _ _⟩]
    exact decrypt_buildSample hInverse _ v1FixedAesKey 0 flag head mid tail hHead hTail
  | v2 keys hKeys flag head mid tail hHead hTail =>
    have hTake : (buildSample encryptBlock ⟨magicV2.toArray, rfl⟩ keys.aes keys.xor flag head mid
        tail).take 6 = magicV2 := take_buildSample _ _ _ _ _ _ _
    unfold decodeImage detectFormat
    rw [hTake, if_neg fun hBoth => absurd hBoth.2 (by decide), if_pos ⟨length_buildSample _ _ _ _ _ _ _, by decide⟩, hKeys]
    exact decrypt_buildSample hInverse _ keys.aes keys.xor flag head mid tail hHead hTail
  | legacyXor keys hKeys image =>
    have hRaw : ¬ Headed (Blocks.xorAll keys.xor image) := by
      intro hHeaded
      refine hMisread ⟨hHeaded, keys, hKeys, ?_⟩
      rw [Blocks.xorAll_xorAll]
      exact hNamed
    rw [decodeImage_legacy hRaw hKeys, Blocks.xorAll_xorAll]
  | plain _ hPlain =>
    have hRaw := not_headed_of_plain hPlain
    have hZero : ∃ keys, mediaKeys = some keys ∧ keys.xor = 0 := by
      by_contra hNone
      exact hMissed ⟨hPlain, hNamed.digest, fun keys hKeys hZero => hNone ⟨keys, hKeys, hZero⟩⟩
    obtain ⟨keys, hKeys, hZero⟩ := hZero
    rw [decodeImage_legacy hRaw hKeys, hZero, Blocks.xorAll_zero]

/-- A system on which every call goes through. -/
def calmIo : Io := ⟨false, false, .none, false⟩

omit [DecidableEq K] in
theorem clear_empty (exportDir : DirPath) (talker kindDir : List Char) :
    Clear key calmIo exportDir talker kindDir (fun _ => none) :=
  ⟨rfl, rfl, rfl, fun _ => rfl⟩

/-- What a complete export writes is a plaintext of the file, or its conversion to PNG. -/
theorem ExportsExactly.decoded
    (h : ExportsExactly encryptBlock decryptBlock md5 ffmpeg key mediaKeys imgMd5 raw)
    (hEncodes : Encodes encryptBlock mediaKeys raw image) (hNamed : Named md5 imgMd5 image) :
    ∃ decoded, decodeImage decryptBlock mediaKeys raw = .ok (some decoded) ∧
      (transcode ffmpeg decoded).1 = image := by
  obtain ⟨media, -, hResult, hFile⟩ := h.complete image hEncodes hNamed calmIo [] ['a'] _
    (clear_empty _ _ _) (by decide)
  obtain ⟨decoded, hDecode, hStands⟩ := exportImage_stands hResult
  rw [hFile] at hStands
  refine ⟨decoded, hDecode, ?_⟩
  simpa using hStands.symm

theorem transcode_cases (ffmpeg : List UInt8 → Option (List UInt8)) (decoded : List UInt8) :
    (transcode ffmpeg decoded).1 = decoded ∨
      wxgfMagic.isPrefixOf decoded = true ∧ pngMagic.isPrefixOf (transcode ffmpeg decoded).1 = true := by
  by_cases hWxgf : wxgfMagic.isPrefixOf decoded = true
  · unfold transcode
    rw [if_pos hWxgf]
    cases hPng : wxgfToPng ffmpeg decoded with
    | none => exact Or.inl rfl
    | some png => exact Or.inr ⟨hWxgf, (Option.filter_eq_some_iff.mp hPng).2⟩
  · rw [transcode, if_neg hWxgf]
    exact Or.inl rfl

/-- The export is sound and complete exactly when the file is neither missed nor misread. -/
theorem image_export_exact
    (hInverse : ∀ key block, decryptBlock key (encryptBlock key block) = block) :
    ExportsExactly encryptBlock decryptBlock md5 ffmpeg key mediaKeys imgMd5 raw ↔
      ¬ Missed md5 mediaKeys imgMd5 raw ∧ ¬ Misread md5 mediaKeys imgMd5 raw := by
  constructor
  · intro hExact
    refine ⟨?_, ?_⟩
    · rintro ⟨hPlain, hDigest, hKeys⟩
      have hRaw := not_headed_of_plain hPlain
      have hSame := wxgf_of_plain hPlain 0
      rw [Blocks.xorAll_zero] at hSame
      obtain ⟨decoded, hDecode, hBytes⟩ := hExact.decoded (.plain raw hPlain)
        ⟨hDigest, zstd_of_plain hPlain, hSame⟩
      cases hMedia : mediaKeys with
      | none =>
        rw [decodeImage_locked hRaw hMedia] at hDecode
        cases hDecode
      | some keys =>
        rw [decodeImage_legacy hRaw hMedia, Except.ok.injEq, Option.some.injEq] at hDecode
        have hXor : Blocks.xorAll keys.xor raw = raw := by
          rcases transcode_cases ffmpeg decoded with hCase | ⟨hWxgf, -⟩
          · rw [hDecode, ← hCase, hBytes]
          · rw [← hDecode, wxgf_of_plain hPlain] at hWxgf
            cases hWxgf
        rcases (Blocks.xorAll_eq_self_iff _ _).mp hXor with rfl | hZero
        · cases hPlain
        · exact hKeys keys hMedia hZero
    · rintro ⟨hRaw, keys, hMedia, hNamed⟩
      have hEncodes : Encodes encryptBlock mediaKeys raw (Blocks.xorAll keys.xor raw) := by
        have hBack : Encodes encryptBlock mediaKeys
            (Blocks.xorAll keys.xor (Blocks.xorAll keys.xor raw)) (Blocks.xorAll keys.xor raw) :=
          .legacyXor keys hMedia _
        rwa [Blocks.xorAll_xorAll] at hBack
      obtain ⟨decoded, hDecode, hBytes⟩ := hExact.decoded hEncodes hNamed
      obtain ⟨hMagic, hShorter⟩ := decodeImage_headed hRaw hDecode
      rcases transcode_cases ffmpeg decoded with hCase | ⟨-, hPng⟩
      · have hLength := congrArg List.length (hCase.symm.trans hBytes)
        rw [Blocks.length_xorAll] at hLength
        omega
      · rw [hBytes, png_of_headed hMagic] at hPng
        cases hPng
  · rintro ⟨hMissed, hMisread⟩
    refine ⟨?_, ?_⟩
    · intro io exportDir talker d hDone
      obtain ⟨decoded, hDecode, -, hDigest⟩ := exportImage_gate hDone
      exact ⟨decoded, hDecode, hDigest⟩
    · intro image hEncodes hNamed io exportDir talker d hClear hTalker
      exact exportImage_writes hClear hTalker
        (decodeImage_encodes hInverse hMissed hMisread hEncodes hNamed) hNamed.digest hNamed.zstd
        hNamed.wxgf

end Exact

/-! ## A plain JPEG under a registered key -/

/-- `FF D8 FF E0` -/
def plainJpeg : List UInt8 := [0xFF, 0xD8, 0xFF, 0xE0]

/-- The md5 of that file, of it under the byte `5A`, and of the file of the other example. -/
def knownMd5 (bytes : List UInt8) : Block :=
  if bytes = plainJpeg then
    ⟨#[0xD0, 0x3D, 0x86, 0x4B, 0x7F, 0x43, 0xDB, 0x9C, 0xE3, 0x4D, 0xF5, 0xF7,
      0x20, 0x50, 0x9D, 0x0E], rfl⟩
  else if bytes = Blocks.xorAll 0x5A plainJpeg then
    ⟨#[0xA4, 0xA3, 0xAE, 0x74, 0x8A, 0x86, 0xA5, 0x06, 0x31, 0xAB, 0x35, 0x93,
      0xC7, 0x73, 0x52, 0x1A], rfl⟩
  else
    ⟨#[0x4C, 0xE8, 0xBD, 0x2A, 0x7A, 0x96, 0x17, 0x6A, 0xBE, 0x1B, 0x3F, 0xD8,
      0x4E, 0x64, 0x84, 0xAA], rfl⟩

/-- The name of the digest of `plainJpeg`. -/
def plainJpegMd5 : List Char := "d03d864b7f43db9ce34df5f720509d0e".toList

/-- The name of the digest of `FF D8 FF E0 10 4A 46`. -/
def datJpegMd5 : List Char := "4ce8bd2a7a96176abe1b3fd84e6484aa".toList

theorem plain_jpeg_missed : ¬ ExportsExactly fixedKeyAes fixedKeyAes knownMd5 (fun _ => none)
    (id : DirPath → DirPath) (some ⟨v1FixedAesKey, 0x5A⟩) plainJpegMd5 plainJpeg := by
  intro hExact
  obtain ⟨decoded, hDecode, hBytes⟩ := hExact.decoded (.plain plainJpeg (by decide))
    ⟨by decide, by decide, by decide⟩
  have hFound : decoded = Blocks.xorAll 0x5A plainJpeg := by
    rw [decodeImage_legacy (by decide) rfl] at hDecode
    simpa using hDecode.symm
  rw [hFound] at hBytes
  exact absurd hBytes (by decide)

theorem image_export_exact_v1 : ExportsExactly fixedKeyAes fixedKeyAes knownMd5 (fun _ => none)
    (id : DirPath → DirPath) none datJpegMd5
    (buildSample fixedKeyAes ⟨magicV1.toArray, rfl⟩ v1FixedAesKey 0 1 plainJpeg [0x10]
      [0x4A, 0x46]) := by
  refine (image_export_exact fixedKeyAes_twice).mpr ⟨?_, ?_⟩
  · rintro ⟨hPlain, -, -⟩
    exact absurd hPlain (by decide)
  · rintro ⟨-, keys, hKeys, -⟩
    cases hKeys

end Weflow.Media
