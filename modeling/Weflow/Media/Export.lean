import Mathlib.Data.UInt
import Weflow.Lib.Utf8
import Weflow.Lib.Files
import Weflow.Export.Names

/-!
# Writing exported media

The name rules of a path component, and `write_out`: the bytes of one media item go to a file of
their conversation, under a name that was checked, by way of a temporary file.
-/

namespace Weflow.Media

open Effects

/-! ## Path components -/

/-- `char::is_control` -/
def isControl (c : Char) : Bool := c.toNat < 0x20 || (0x7F ≤ c.toNat && c.toNat < 0xA0)

/-- Longest single path component accepted. -/
def maxSegment : Nat := 128

/-- True when `s` is safe to use as exactly one path component. -/
def safeSegment (s : List Char) : Bool :=
  s != [] && (Utf8.encode s).length ≤ maxSegment && s != ['.'] && s != ['.', '.'] &&
    !s.contains '/' && !s.contains '\\' && !s.contains ':' && !s.any isControl &&
    s.getLast? != some '.' && s.getLast? != some ' ' && !Export.isReservedDevice s

/-- `is_ascii_hexdigit` -/
def isHexDigit (c : Char) : Bool :=
  (48 ≤ c.toNat && c.toNat ≤ 57) || (65 ≤ c.toNat && c.toNat ≤ 70) ||
    (97 ≤ c.toNat && c.toNat ≤ 102)

theorem isHexDigit_range {c : Char} (h : isHexDigit c = true) :
    48 ≤ c.toNat ∧ c.toNat ≤ 102 ∧ c.toNat ≠ 58 ∧ c.toNat ≠ 92 := by
  simp only [isHexDigit, Bool.or_eq_true, Bool.and_eq_true, decide_eq_true_eq] at h
  omega

theorem slugChar_of_isHexDigit {c : Char} (h : isHexDigit c = true) :
    Export.slugChar c = true := by
  have hAll : ∀ n < 103, isHexDigit (Char.ofNat n) = true → Export.slugChar (Char.ofNat n) = true := by
    decide
  have hRange := isHexDigit_range h
  have hSame := hAll c.toNat (by omega)
  rw [Char.ofNat_toNat] at hSame
  exact hSame h

/-- A text of ASCII is as long in bytes as in characters. -/
theorem length_encode_ascii {s : List Char} (hAscii : ∀ c ∈ s, c.toNat < 128) :
    (Utf8.encode s).length = s.length := by
  induction s with
  | nil => rfl
  | cons c s ih =>
      have hOne : c.utf8Size = 1 := by
        have hSmall := hAscii c List.mem_cons_self
        rw [Char.utf8Size_eq_one_iff, UInt32.le_iff_toNat_le]
        change c.toNat ≤ 127
        omega
      rw [Utf8.encode_cons, List.length_append, String.length_utf8EncodeChar, hOne,
        ih fun c' hc' => hAscii c' (List.mem_cons_of_mem _ hc'), List.length_cons]
      omega

/-- The names of 32 hexadecimal digits and an extension are safe. -/
theorem safeSegment_digest {name ext : List Char} (hName : name.length = 32)
    (hHex : ∀ c ∈ name, isHexDigit c = true) (hExt : ext.length ≤ 8)
    (hLetters : ∀ c ∈ ext, 97 ≤ c.toNat ∧ c.toNat ≤ 122) (hSome : ext ≠ []) :
    safeSegment (name ++ '.' :: ext) = true := by
  have hChars : ∀ c ∈ name ++ '.' :: ext, 46 ≤ c.toNat ∧ c.toNat ≤ 122 ∧ c.toNat ≠ 47 ∧
      c.toNat ≠ 58 ∧ c.toNat ≠ 92 := by
    intro c hc
    rcases List.mem_append.mp hc with hc | hc
    · have hRange := isHexDigit_range (hHex c hc)
      omega
    · rcases List.mem_cons.mp hc with rfl | hc
      · decide
      · have hRange := hLetters c hc
        omega
  have hAbsent : ∀ c, c.toNat < 46 ∨ c.toNat = 47 ∨ c.toNat = 58 ∨ c.toNat = 92 →
      (name ++ '.' :: ext).contains c = false := by
    intro c hc
    rw [List.contains_eq_mem, decide_eq_false_iff_not]
    intro hMem
    have hRange := hChars c hMem
    omega
  have hControl : (name ++ '.' :: ext).any isControl = false := by
    rw [List.any_eq_false]
    intro c hc hIs
    have hRange := hChars c hc
    simp only [isControl, Bool.or_eq_true, Bool.and_eq_true, decide_eq_true_eq] at hIs
    omega
  have hBytes : (Utf8.encode (name ++ '.' :: ext)).length ≤ maxSegment := by
    rw [length_encode_ascii fun c hc => by have hRange := hChars c hc; omega]
    simp only [List.length_append, List.length_cons, hName, maxSegment]
    omega
  have hLong : 32 < (name ++ '.' :: ext).length := by
    rw [List.length_append, List.length_cons, hName]
    omega
  have hLast : ∀ c, (name ++ '.' :: ext).getLast? = some c → 97 ≤ c.toNat := by
    intro c hc
    have hTail : (name ++ '.' :: ext).getLast? = ext.getLast? := by
      rw [List.append_cons, List.getLast?_append_of_ne_nil _ hSome]
    rw [hTail] at hc
    exact (hLetters c (List.mem_of_getLast? hc)).1
  have hDevice : Export.isReservedDevice (name ++ '.' :: ext) = false := by
    rw [Export.isReservedDevice_extension fun c hc => slugChar_of_isHexDigit (hHex c hc)]
    exact Export.not_device_of_length (fun c hc => slugChar_of_isHexDigit (hHex c hc))
      (by omega)
  have hNone : ∀ short : List Char, short.length ≤ 32 → name ++ '.' :: ext ≠ short := by
    rintro short hShort rfl
    omega
  have hEnd : ∀ c, c.toNat < 97 → (name ++ '.' :: ext).getLast? ≠ some c := by
    intro c hc hLastIs
    have hLetter := hLast c hLastIs
    omega
  simp only [safeSegment, hAbsent '/' (by decide), hAbsent '\\' (by decide),
    hAbsent ':' (by decide), hControl, hDevice, Bool.not_false, Bool.and_true, Bool.and_eq_true,
    bne_iff_ne, decide_eq_true_eq]
  exact ⟨⟨⟨⟨⟨hNone [] (by decide), hBytes⟩, hNone ['.'] (by decide)⟩, hNone ['.', '.'] (by decide)⟩,
    hEnd '.' (by decide)⟩, hEnd ' ' (by decide)⟩

/-! ## One file -/

/-- A path, component by component. -/
abbrev DirPath := List (List Char)

structure ExportedMedia where
  fileName : List Char
  kindDir : List Char
  localPath : DirPath
  externalUrl : Option (List Char)
  digestNamed : Bool
  deriving DecidableEq

/-- How the system answers the calls of one export. -/
structure Io where
  directoryFails : Bool
  readFails : Bool
  fault : Files.WriteFault
  renameFails : Bool

def contentOf : Option Files.Entry → Option (List UInt8)
  | some (.file bytes) => some bytes
  | _ => none

section WriteOut

variable {K : Type} [DecidableEq K] (key : DirPath → K)

/-- Where a file of the conversation stands. -/
def filePath (exportDir : DirPath) (talker kindDir fileName : List Char) : DirPath :=
  exportDir ++ [talker, kindDir, fileName]

def tmpName (fileName : List Char) : List Char := '.' :: (fileName ++ ['.', 't', 'm', 'p'])

/-- The bytes go to the temporary file, and the temporary file to its place. -/
def replaceFile (io : Io) (tmp path : DirPath) (bytes : List UInt8) :
    Act (Files.effects Unit key) Bool := do
  if ← Files.write key () io.fault tmp bytes then
    Files.rename key () io.renameFails tmp path
  else return false

def writeOut (io : Io) (exportDir : DirPath) (talker kindDir fileName : List Char)
    (bytes : List UInt8) (digestNamed : Bool) :
    Act (Files.effects Unit key) (Option ExportedMedia) :=
  if !safeSegment talker || !safeSegment fileName then pure none
  else if io.directoryFails then pure none
  else do
    let path := filePath exportDir talker kindDir fileName
    let media : ExportedMedia := ⟨fileName, kindDir, path, none, digestNamed⟩
    -- identical content already exported
    let existing ← Act.look fun d => if io.readFails then none else contentOf (d (key path))
    if existing = some bytes then return some media
    else
      let tmp := filePath exportDir talker kindDir (tmpName fileName)
      if ← replaceFile key io tmp path bytes then return some media
      else return none

variable {key}

theorem contentOf_eq {e : Option Files.Entry} {bytes : List UInt8}
    (h : contentOf e = some bytes) : e = some (.file bytes) := by
  rcases e with _ | (old | _)
  · cases h
  · rw [contentOf, Option.some.injEq] at h
    rw [h]
  · cases h

variable {io : Io} {d : Files.Disk K}

theorem replaceFile_after {tmp path : DirPath} {bytes : List UInt8}
    (h : (replaceFile key io tmp path bytes).result d = true) :
    (replaceFile key io tmp path bytes).after d (key path) = some (.file bytes) := by
  rw [replaceFile, Act.result_bind] at h
  rw [replaceFile, Act.after_bind]
  cases hWrite : (Files.write key () io.fault tmp bytes).result d with
  | false =>
    rw [hWrite] at h
    cases h
  | true =>
    rw [hWrite, if_pos rfl, Files.write_after hWrite] at h
    rw [if_pos rfl, Files.write_after hWrite, Files.rename_after h, Function.update_self,
      Function.update_self]

/-- The file is replaced unless a call fails or a directory is in the way. -/
theorem replaceFile_result {tmp path : DirPath} {bytes : List UInt8}
    (hFault : io.fault.fails = false) (hRename : io.renameFails = false)
    (hTmp : Files.isDirectory (d (key tmp)) = false)
    (hPath : Files.isDirectory (d (key path)) = false) :
    (replaceFile key io tmp path bytes).result d = true := by
  have hWrite : (Files.write key () io.fault tmp bytes).result d = true := by
    rw [Files.write_result, hFault, hTmp]
    rfl
  have hPathAfter : Files.isDirectory (Function.update d (key tmp) (some (.file bytes)) (key path)) =
      false := by
    by_cases hSame : key path = key tmp
    · rw [hSame, Function.update_self]
      rfl
    · rw [Function.update_of_ne hSame]
      exact hPath
  rw [replaceFile, Act.result_bind, hWrite, if_pos rfl, Files.write_after hWrite,
    Files.rename_result, hRename, hPathAfter, Function.update_self]
  rfl

variable {exportDir : DirPath} {talker kindDir fileName : List Char} {bytes : List UInt8}
  {digestNamed : Bool}

/-- What is returned stands on the disk, with the bytes that were to be written. -/
theorem writeOut_stands {media : ExportedMedia}
    (h : (writeOut key io exportDir talker kindDir fileName bytes digestNamed).result d =
      some media) :
    (writeOut key io exportDir talker kindDir fileName bytes digestNamed).after d
      (key media.localPath) = some (.file bytes) := by
  unfold writeOut at h ⊢
  by_cases hNames : (!safeSegment talker || !safeSegment fileName) = true
  · rw [if_pos hNames] at h
    cases h
  rw [if_neg hNames] at h ⊢
  by_cases hDirectory : io.directoryFails = true
  · rw [if_pos hDirectory] at h
    cases h
  rw [if_neg hDirectory] at h ⊢
  rw [Act.result_look_bind] at h
  rw [Act.after_bind, Act.result_look, Act.after_look]
  by_cases hSame : (if io.readFails then none
      else contentOf (d (key (filePath exportDir talker kindDir fileName)))) = some bytes
  · rw [if_pos hSame] at h ⊢
    cases h
    rw [Act.after_pure]
    split at hSame
    · cases hSame
    · exact contentOf_eq hSame
  · rw [if_neg hSame] at h ⊢
    rw [Act.result_bind] at h
    rw [Act.after_bind]
    cases hReplace : (replaceFile key io (filePath exportDir talker kindDir (tmpName fileName))
        (filePath exportDir talker kindDir fileName) bytes).result d with
    | false =>
      rw [hReplace] at h
      cases h
    | true =>
      rw [hReplace] at h
      cases h
      exact replaceFile_after hReplace

/-- Calls that go through, and no directory where a file is to stand. -/
structure Clear (key : DirPath → K) (io : Io) (exportDir : DirPath) (talker kindDir : List Char)
    (d : Files.Disk K) : Prop where
  directory : io.directoryFails = false
  fault : io.fault.fails = false
  rename : io.renameFails = false
  free : ∀ fileName, Files.isDirectory (d (key (filePath exportDir talker kindDir fileName))) = false

theorem writeOut_result (hClear : Clear key io exportDir talker kindDir d)
    (hTalker : safeSegment talker = true) (hName : safeSegment fileName = true) :
    (writeOut key io exportDir talker kindDir fileName bytes digestNamed).result d =
      some ⟨fileName, kindDir, filePath exportDir talker kindDir fileName, none, digestNamed⟩ := by
  unfold writeOut
  rw [hTalker, hName, if_neg (by decide), if_neg (by rw [hClear.directory]; decide),
    Act.result_look_bind]
  by_cases hSame : (if io.readFails then none
      else contentOf (d (key (filePath exportDir talker kindDir fileName)))) = some bytes
  · rw [if_pos hSame]
    rfl
  · rw [if_neg hSame, Act.result_bind, replaceFile_result hClear.fault hClear.rename (hClear.free _)
      (hClear.free _)]
    rfl

end WriteOut

end Weflow.Media
