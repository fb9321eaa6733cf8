import Weflow.Media.Export

/-!
# Derived path components

`safe_segment` of `pathsafe.rs` against the rules of the platforms, and the two places that make
a component of arbitrary text: `slugify`, and `file_name_for` with the suffixes of an export's
files. What they make is accepted, and what is accepted names an entry of its directory.
-/

namespace Weflow.Media

open Paths Export

variable {s name fallback : List Char} {platform : Platform}

/-! ## What is accepted -/

theorem safeSegment_iff : safeSegment s = true ↔
    s ≠ [] ∧ (Utf8.encode s).length ≤ maxSegment ∧ s ≠ ['.'] ∧ s ≠ ['.', '.'] ∧ '/' ∉ s ∧
      '\\' ∉ s ∧ ':' ∉ s ∧ (∀ c ∈ s, isControl c = false) ∧ s.getLast? ≠ some '.' ∧
      s.getLast? ≠ some ' ' ∧ isReservedDevice s = false := by
  simp only [safeSegment, Bool.and_eq_true, bne_iff_ne, decide_eq_true_eq, Bool.not_eq_true',
    List.contains_eq_mem, decide_eq_false_iff_not, List.any_eq_false, Bool.not_eq_true, and_assoc]

theorem plain_of_safe (h : safeSegment s = true) : Plain s := by
  obtain ⟨hNil, -, hDot, hParent, hSlash, hBack, hColon, -⟩ := safeSegment_iff.mp h
  refine ⟨fun c hc => ⟨?_, ?_, ?_⟩, hNil, hDot, hParent⟩ <;> rintro rfl <;> contradiction

theorem trimEnd_of_safe (h : safeSegment s = true) : trimEnd s = s := by
  obtain ⟨hNil, -, -, -, -, -, -, -, hDot, hSpace, -⟩ := safeSegment_iff.mp h
  rw [trimEnd, List.rdropWhile_eq_self_iff]
  intro hSome hLast
  rw [List.getLast?_eq_some_getLast hSome] at hDot hSpace
  simp only [Bool.or_eq_true, beq_iff_eq] at hLast
  exact hLast.elim (fun hEq => hDot (congrArg some hEq)) fun hEq => hSpace (congrArg some hEq)

theorem isDeviceName_of_mem {u : List Char} (h : u ∈ devices) : isDeviceName u = true := by
  have hAll : ∀ u ∈ devices, isDeviceName u = true := by decide
  exact hAll u h

theorem takeWhile_congr {p q : Char → Bool} (h : ∀ c ∈ s, p c = q c) :
    s.takeWhile p = s.takeWhile q := by
  induction s with
  | nil => rfl
  | cons c s ih =>
    rw [List.takeWhile_cons, List.takeWhile_cons, h c List.mem_cons_self,
      ih fun d hd => h d (List.mem_cons_of_mem _ hd)]

theorem rdropWhile_congr {p q : Char → Bool} (h : ∀ c ∈ s, p c = q c) :
    s.rdropWhile p = s.rdropWhile q := by
  induction s using List.reverseRecOn with
  | nil => rfl
  | append_singleton s c ih =>
    rw [List.rdropWhile_concat, List.rdropWhile_concat, h c (by simp),
      ih fun d hd => h d (List.mem_append_left _ hd)]

/-- Without a colon the device test is the one of Win32. -/
theorem isDevice_of_safe (h : safeSegment s = true) : isDevice s = false := by
  obtain ⟨-, -, -, -, -, -, hColon, -, -, -, hDevice⟩ := safeSegment_iff.mp h
  have hBase : (s.takeWhile fun c => c != '.' && c != ':') = s.takeWhile (· != '.') := by
    refine takeWhile_congr fun c hc => ?_
    have hNot : (c != ':') = true := by simpa using fun hEq : c = ':' => hColon (hEq ▸ hc)
    rw [hNot, Bool.and_true]
  have hEnd : (s.takeWhile (· != '.')).rdropWhile (· == ' ') =
      (s.takeWhile (· != '.')).rdropWhile fun c => c == ' ' || c == '.' := by
    refine rdropWhile_congr fun c hc => ?_
    have hNot : (c == '.') = false := by simpa using List.mem_takeWhile_imp hc
    rw [hNot, Bool.or_false]
  rw [← Bool.not_eq_true, isDevice]
  intro hIs
  have hName := isDeviceName_of_mem (List.contains_iff_mem.mp hIs)
  rw [hBase, hEnd] at hName
  rw [isReservedDevice, hName] at hDevice
  cases hDevice

/-- What is accepted names an entry of its directory, on every platform. -/
theorem named_of_safe (platform : Platform) (dir : Path) (h : safeSegment name = true) :
    named platform (join platform dir name) = .entry (child (settled platform dir) name) := by
  rw [join_plain (plain_of_safe h)]
  exact named_child platform dir (plain_of_safe h) (trimEnd_of_safe h) (isDevice_of_safe h)

/-! ## Slugs -/

theorem not_control_of_slug {c : Char} (h : slugChar c = true ∨ c = '.') :
    isControl c = false := by
  rcases h with h | rfl
  · have hAll : ∀ n < 128, slugChar (Char.ofNat n) = true → isControl (Char.ofNat n) = false := by
      decide
    have hSame := hAll c.toNat (slugChar_ascii h)
    rw [Char.ofNat_toNat] at hSame
    exact hSame h
  · decide

/-- A name of slug characters, with an extension or without, is accepted if it is short, no
device, and does not end in a dot. -/
theorem safeSegment_of_chars (hNil : s ≠ []) (hChars : ∀ c ∈ s, slugChar c = true ∨ c = '.')
    (hLength : s.length ≤ maxSegment) (hLast : s.getLast? ≠ some '.')
    (hDevice : isReservedDevice s = false) : safeSegment s = true := by
  have hAscii : ∀ c ∈ s, c.toNat < 128 := by
    intro c hc
    rcases hChars c hc with hSlug | rfl
    · exact slugChar_ascii hSlug
    · decide
  have hAbsent : ∀ d, slugChar d = false → d ≠ '.' → d ∉ s := by
    intro d hSlug hDot hd
    rcases hChars d hd with hYes | hEq
    · exact slugChar_ne hYes hSlug rfl
    · exact hDot hEq
  refine safeSegment_iff.mpr ⟨hNil, ?_, ?_, ?_, hAbsent '/' (by decide) (by decide),
    hAbsent '\\' (by decide) (by decide), hAbsent ':' (by decide) (by decide), ?_, hLast, ?_,
    hDevice⟩
  · rwa [length_encode_ascii hAscii]
  · rintro rfl
    exact hLast rfl
  · rintro rfl
    exact hLast rfl
  · intro c hc
    exact not_control_of_slug (hChars c hc)
  · intro hSpace
    exact hAbsent ' ' (by decide) (by decide) (List.mem_of_getLast? hSpace)

theorem length_slugify (s fallback : List Char) :
    slugify s fallback = fallback ∨ (slugify s fallback).length ≤ 64 := by
  rw [slugify]
  split_ifs
  · exact .inl rfl
  · right
    rw [List.length_cons, List.length_take]
    omega
  · right
    rw [List.length_take]
    omega

/-- A slug is accepted where its fallback is. -/
theorem safeSegment_slugify (s : List Char) (h : safeSegment fallback = true) :
    safeSegment (slugify s fallback) = true := by
  rcases slugify_cases s fallback with hEq | ⟨hNil, hChars, hDevice⟩
  · rw [hEq]
    exact h
  · rcases length_slugify s fallback with hEq | hLength
    · rw [hEq]
      exact h
    · refine safeSegment_of_chars hNil (fun c hc => .inl (hChars c hc)) ?_ ?_ hDevice
      · exact hLength.trans (by decide)
      · intro hLast
        exact slugChar_ne (hChars '.' (List.mem_of_getLast? hLast)) (by decide) rfl

/-! ## Files of an export -/

/-- What stands behind the stem of a session: nothing, the extension of a format, and the mark of
an unfinished file. -/
def fileSuffixes : List (List Char) :=
  ["", ".jsonl", ".json", ".jsonl.part", ".json.part"].map String.toList

theorem suffix_cases {suffix : List Char} (h : suffix ∈ fileSuffixes) :
    suffix = [] ∨ ∃ rest, suffix = '.' :: rest ∧ suffix.length ≤ 11 ∧
      (∀ c ∈ suffix, slugChar c = true ∨ c = '.') ∧ suffix.getLast? ≠ some '.' := by
  have hAll : ∀ suffix ∈ fileSuffixes, suffix = [] ∨ suffix.head? = some '.' ∧
      suffix.length ≤ 11 ∧ (suffix.all fun c => slugChar c || c == '.') = true ∧
      suffix.getLast? ≠ some '.' := by decide
  rcases hAll suffix h with hNil | ⟨hHead, hLength, hChars, hLast⟩
  · exact .inl hNil
  · obtain ⟨rest, hRest⟩ := List.head?_eq_some_iff.mp hHead
    refine .inr ⟨rest, hRest, hLength, ?_, hLast⟩
    simpa [List.all_eq_true] using hChars

/-- A stem of at most 117 characters is accepted with every suffix. -/
theorem safeSegment_stem {stem : String} {suffix : List Char} (h : Stem stem)
    (hLength : stem.toList.length ≤ 117) (hSuffix : suffix ∈ fileSuffixes) :
    safeSegment (stem.toList ++ suffix) = true := by
  have hSlug : ∀ c ∈ stem.toList, slugChar c = true ∨ c = '.' := fun c hc => .inl (h.chars c hc)
  rcases suffix_cases hSuffix with rfl | ⟨rest, rfl, hShort, hChars, hLast⟩
  · rw [List.append_nil]
    refine safeSegment_of_chars h.ne_nil hSlug (hLength.trans (by decide)) ?_ h.not_device
    intro hLast
    exact slugChar_ne (h.chars '.' (List.mem_of_getLast? hLast)) (by decide) rfl
  · refine safeSegment_of_chars (by simp) ?_ ?_ ?_ ?_
    · intro c hc
      exact (List.mem_append.mp hc).elim (hSlug c) (hChars c)
    · rw [List.length_append, maxSegment]
      omega
    · rwa [List.getLast?_append_of_ne_nil _ (List.cons_ne_nil _ _)]
    · rw [isReservedDevice_extension h.chars]
      exact h.not_device

theorem length_baseStem (target : SessionTarget) : (baseStem target).toList.length ≤ 56 := by
  have hCut : ∀ base : List Char,
      (if base.take 56 = [] then "session" else String.ofList (base.take 56)).toList.length ≤ 56 := by
    intro base
    split_ifs
    · decide
    · rw [String.toList_ofList, List.length_take]
      omega
  exact hCut _

theorem length_candidate {stem : String} {i : Nat} (hStem : stem.toList.length ≤ 56)
    (hIndex : i ≤ 10 ^ 9) : (candidate stem i).toList.length ≤ 117 := by
  cases i with
  | zero => exact hStem.trans (by decide)
  | succ i =>
    have hDigits : (toString (i + 2)).toList.length ≤ 10 := by
      rw [toString_toList, Nat.length_toDigits_le_iff (by decide) (by decide)]
      omega
    have hDash : "-".toList.length = 1 := rfl
    simp only [candidate, String.toList_append, List.length_append]
    omega

variable {lower : String → String}

/-- The name of a session is accepted with every suffix while fewer than a billion names are
taken. -/
theorem safeSegment_fileNameFor (hLower : LowersAscii lower) (target : SessionTarget)
    (taken : List String) (hTaken : taken.toFinset.card < 10 ^ 9) {suffix : List Char}
    (hSuffix : suffix ∈ fileSuffixes) :
    safeSegment ((fileNameFor lower target taken).1.toList ++ suffix) = true := by
  obtain ⟨i, hIndex, hEq⟩ := fileNameFor_index hLower target taken
  rw [hEq]
  exact safeSegment_stem (candidate_stem (baseStem_stem target) i)
    (length_candidate (length_baseStem target) (by omega)) hSuffix

/-- Slugs and file names are accepted, and an accepted name is an entry of its directory and no
device on every platform. -/
theorem components_safe (lower : String → String) (hLower : LowersAscii lower) :
    (∀ s fallback, safeSegment fallback = true → safeSegment (slugify s fallback) = true) ∧
      (∀ (target : SessionTarget) (taken : List String), taken.toFinset.card < 10 ^ 9 →
        ∀ suffix ∈ fileSuffixes,
          safeSegment ((fileNameFor lower target taken).1.toList ++ suffix) = true) ∧
      ∀ (platform : Platform) (dir : Path) (name : List Char), safeSegment name = true →
        named platform (join platform dir name) = .entry (child (settled platform dir) name) :=
  ⟨fun s _ h => safeSegment_slugify s h,
    fun target taken hTaken _ hSuffix => safeSegment_fileNameFor hLower target taken hTaken hSuffix,
    fun platform dir _ h => named_of_safe platform dir h⟩

/-- The slug of a device, a second session of one name, and a file of the export directory. -/
theorem components_safe_team :
    safeSegment (slugify "con".toList "scope".toList) = true ∧
      safeSegment ((fileNameFor foldCase ⟨"a", "Team"⟩ ["team"]).1.toList ++ ".json.part".toList) =
        true ∧
      named .windows (join .windows ⟨none, true, ["out".toList]⟩ "Team-2.json".toList) =
        .entry ⟨none, true, ["out".toList, "Team-2.json".toList]⟩ := by
  obtain ⟨hSlug, hFile, hEntry⟩ := components_safe foldCase fun _ _ => rfl
  refine ⟨hSlug _ _ (by decide), hFile _ _ (by simp) _ (by decide), ?_⟩
  exact hEntry .windows ⟨none, true, ["out".toList]⟩ "Team-2.json".toList (by decide)

end Weflow.Media
