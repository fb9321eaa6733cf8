import Mathlib.Data.List.Basic
import Mathlib.Data.List.DropRight

/-!
# Paths as their components

A path is its volume, whether it starts at a root, and its parts. `.` and empty parts are gone,
`..` is kept: nothing is resolved. `join` is `PathBuf::push`: a name that is absolute replaces
the path, and a name may have several parts. A direct child of a directory is the directory with
one more part that is not `..`; `join_plain` says which names yield one.
-/

namespace Paths

inductive Platform
  | unix
  | windows
  deriving DecidableEq

/-- What stands before the root of a Windows path: a drive, a share or a device. In a verbatim
one (`\\?\`) the parts of a pushed path are resolved. -/
structure Volume where
  name : List Char
  verbatim : Bool
  deriving DecidableEq

structure Path where
  volume : Option Volume
  rooted : Bool
  parts : List (List Char)
  deriving DecidableEq

def isSeparator : Platform → Char → Bool
  | .unix, c => c == '/'
  | .windows, c => c == '/' || c == '\\'

def parent : List Char := ['.', '.']

/-- The text between separators. -/
def pieces (platform : Platform) (name : List Char) : List (List Char) :=
  name.splitOnP (isSeparator platform)

/-- The parts of a text: empty pieces and `.` say nothing. -/
def partsOf (platform : Platform) (name : List Char) : List (List Char) :=
  (pieces platform name).filter fun p => p != [] && p != ['.']

def isSeparatorAt (platform : Platform) (name : List Char) (i : Nat) : Bool :=
  match name[i]? with
  | some c => isSeparator platform c
  | none => false

/-- A drive letter with its colon. -/
def hasDrive (name : List Char) : Bool :=
  match name[0]?, name[1]? with
  | some c, some d => c.isAlpha && d == ':'
  | _, _ => false

/-- Two separators start a share, a device or a verbatim path, whose first two pieces name the
volume. -/
def parseShare (name : List Char) : Path :=
  let ps := (pieces .windows name).filter (· != [])
  { volume := some ⟨(ps.take 2).flatten, ps.head? == some ['?']⟩
    rooted := true
    parts := (ps.drop 2).filter (· != ['.']) }

def parse : Platform → List Char → Path
  | .unix, name => ⟨none, isSeparatorAt .unix name 0, partsOf .unix name⟩
  | .windows, name =>
    if isSeparatorAt .windows name 0 && isSeparatorAt .windows name 1 then parseShare name
    else if hasDrive name then
      ⟨some ⟨name.take 2, false⟩, isSeparatorAt .windows name 2, partsOf .windows (name.drop 2)⟩
    else ⟨none, isSeparatorAt .windows name 0, partsOf .windows name⟩

/-- A part pushed onto a verbatim path. -/
def resolve (acc : List (List Char)) (part : List Char) : List (List Char) :=
  if part = parent then acc.dropLast else acc ++ [part]

/-- `PathBuf::push` of a name. -/
def join (platform : Platform) (dir : Path) (name : List Char) : Path :=
  let p := parse platform name
  if p.volume.isSome then p
  else if p.rooted then { p with volume := dir.volume }
  else if dir.volume.any (·.verbatim) then { dir with parts := p.parts.foldl resolve dir.parts }
  else { dir with parts := dir.parts ++ p.parts }

/-- `Path::file_name`: the last part, unless it is `..`. -/
def fileName (p : Path) : Option (List Char) := p.parts.getLast?.filter (· != parent)

/-- The path one part below a directory. -/
def child (dir : Path) (name : List Char) : Path := { dir with parts := dir.parts ++ [name] }

def DirectChild (dir p : Path) : Prop := ∃ name, name ≠ parent ∧ p = child dir name

/-- `p` is a direct child exactly when its last part is one and the rest is the directory. -/
theorem directChild_iff {dir p : Path} : DirectChild dir p ↔
    p.parts ≠ [] ∧ p.parts.getLast? ≠ some parent ∧ { p with parts := p.parts.dropLast } = dir := by
  constructor
  · rintro ⟨name, hName, rfl⟩
    refine ⟨by simp [child], by simpa [child] using hName, ?_⟩
    simp [child]
  · rintro ⟨hParts, hLast, rfl⟩
    obtain ⟨init, last, hEq⟩ := (List.eq_nil_or_concat' p.parts).resolve_left hParts
    refine ⟨last, ?_, ?_⟩
    · intro h
      rw [hEq, List.getLast?_concat, h] at hLast
      exact hLast rfl
    · cases p
      simp only at hEq
      simp [child, hEq]

instance (dir p : Path) : Decidable (DirectChild dir p) := decidable_of_iff _ directChild_iff.symm

/-! ## Plain names -/

/-- A name without separators and colons that is neither empty nor one of the dots. -/
structure Plain (name : List Char) : Prop where
  chars : ∀ c ∈ name, c ≠ '/' ∧ c ≠ '\\' ∧ c ≠ ':'
  ne_nil : name ≠ []
  ne_dot : name ≠ ['.']
  ne_parent : name ≠ parent

namespace Plain

variable {name : List Char} {platform : Platform}

theorem not_separator (h : Plain name) : ∀ c ∈ name, isSeparator platform c = false := by
  intro c hc
  obtain ⟨h1, h2, -⟩ := h.chars c hc
  cases platform <;> simp [isSeparator, h1, h2]

theorem not_separatorAt (h : Plain name) (i : Nat) : isSeparatorAt platform name i = false := by
  rw [isSeparatorAt]
  cases hGet : name[i]? with
  | none => rfl
  | some c => exact h.not_separator c (List.mem_of_getElem? hGet)

theorem not_hasDrive (h : Plain name) : hasDrive name = false := by
  rw [hasDrive]
  cases h0 : name[0]? with
  | none => rfl
  | some c =>
    cases h1 : name[1]? with
    | none => rfl
    | some d =>
      have hColon := (h.chars d (List.mem_of_getElem? h1)).2.2
      simp [hColon]

theorem partsOf_eq (h : Plain name) : partsOf platform name = [name] := by
  have hSplit : pieces platform name = [name] :=
    List.splitOnP_eq_singleton h.not_separator
  simp [partsOf, hSplit, h.ne_nil, h.ne_dot]

theorem parse_eq (h : Plain name) : parse platform name = ⟨none, false, [name]⟩ := by
  cases platform with
  | unix => rw [parse, h.not_separatorAt, h.partsOf_eq]
  | windows =>
    rw [parse, h.not_separatorAt, if_neg (by simp), h.not_hasDrive, if_neg (by simp),
      h.partsOf_eq]

end Plain

/-- A plain name is pushed as one part. -/
theorem join_plain {platform : Platform} {dir : Path} {name : List Char} (h : Plain name) :
    join platform dir name = child dir name := by
  rw [join, h.parse_eq]
  dsimp only
  rw [if_neg (by simp), if_neg (by simp)]
  split
  · simp [resolve, h.ne_parent, child]
  · rfl

theorem directChild_join {platform : Platform} {dir : Path} {name : List Char}
    (h : Plain name) : DirectChild dir (join platform dir name) :=
  ⟨name, h.ne_parent, join_plain h⟩

theorem fileName_child {dir : Path} {name : List Char} (h : Plain name) :
    fileName (child dir name) = some name := by
  have hParent : (name != parent) = true := by simpa using h.ne_parent
  simp [fileName, child, hParent]

/-! ## What a path names

Win32 drops the dots and spaces at the end of a part, takes a device name for the device in every
directory and with every extension, and reads a colon in the last part as a stream. A path on
Unix and a verbatim path name what they spell. -/

/-- The device names of Win32, in upper case. -/
def devices : List (List Char) :=
  ["CON", "PRN", "AUX", "NUL", "CONIN$", "CONOUT$"].map String.toList ++
    ["COM", "LPT"].flatMap fun port => "123456789".toList.map fun n => port.toList ++ [n]

/-- A part whose text up to the first dot or colon, without the spaces at its end, is the name of
a device in any case. -/
def isDevice (part : List Char) : Bool :=
  let base := (part.takeWhile fun c => c != '.' && c != ':').rdropWhile (· == ' ')
  devices.contains (base.map Char.toUpper)

/-- A part without the dots and spaces at its end. -/
def trimEnd (part : List Char) : List Char := part.rdropWhile fun c => c == '.' || c == ' '

def settlePart (acc : List (List Char)) (part : List Char) : List (List Char) :=
  if part = parent then acc.dropLast
  else if trimEnd part = [] then acc
  else acc ++ [trimEnd part]

inductive Named
  | entry (path : Path)
  | stream
  | device
  deriving DecidableEq

def isVerbatim (p : Path) : Bool := p.volume.any (·.verbatim)

/-- A path with its parts as the platform reads them. -/
def settled (platform : Platform) (p : Path) : Path :=
  if platform = .windows ∧ isVerbatim p = false then
    { p with parts := p.parts.foldl settlePart [] }
  else p

def named (platform : Platform) (p : Path) : Named :=
  let last := p.parts.getLast?.getD []
  if ¬ (platform = .windows ∧ isVerbatim p = false) then .entry p
  else if isDevice last then .device
  else if last.contains ':' then .stream
  else .entry (settled .windows p)

example : named .windows ⟨none, true, ["a".toList, "Nul .txt".toList]⟩ = .device := by decide

theorem isVerbatim_child (dir : Path) (name : List Char) :
    isVerbatim (child dir name) = isVerbatim dir := rfl

/-- A plain name that no rule of Win32 touches names a direct child of the directory. -/
theorem named_child (platform : Platform) (dir : Path) {name : List Char} (h : Plain name)
    (hEnd : trimEnd name = name) (hDevice : isDevice name = false) :
    named platform (child dir name) = .entry (child (settled platform dir) name) := by
  rw [named, isVerbatim_child]
  split_ifs with hWindows hIs hColon
  · simp [child, hDevice] at hIs
  · simp only [child, List.getLast?_concat, Option.getD_some, List.contains_iff_mem] at hColon
    exact absurd rfl (h.chars _ hColon).2.2
  · rw [settled, settled, isVerbatim_child, if_pos ⟨rfl, hWindows.2⟩, if_pos hWindows]
    simp [child, settlePart, h.ne_parent, hEnd, h.ne_nil]
  · rw [settled, if_neg hWindows]

end Paths
