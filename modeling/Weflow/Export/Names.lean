import Mathlib.Data.Finset.Card
import Mathlib.Data.List.DropRight
import Mathlib.Data.List.Nodup
import Mathlib.Data.List.Perm.Subperm
import Weflow.Lib.Paths
import Weflow.Lib.Json

/-!
# File names of an export

The name of a session's file: the slug of its display name, or of its talker when nothing is
left of the display name, with a suffix until its folded form is free. Translated from
`is_reserved_device` and `slugify` of `src/pathsafe.rs` and from `file_name_for` and the choice
of the stem in `run` of `src/export.rs`.

`str::to_lowercase` is the parameter `lower`; all that is asked of it is what it does to ASCII.
-/

namespace Weflow.Export

/-! ## Path components -/

/-- `to_ascii_lowercase`. -/
def foldCase (s : String) : String := String.ofList (s.toList.map Char.toLower)

def deviceNames : List (List Char) :=
  ["CON", "PRN", "AUX", "NUL", "CONIN$", "CONOUT$"].map String.toList

/-- The device names, in upper case. -/
def isDeviceName (upper : List Char) : Bool :=
  deviceNames.contains upper ||
    (upper.length == 4 && (upper.take 3 == ['C', 'O', 'M'] || upper.take 3 == ['L', 'P', 'T']) &&
      (upper.drop 3).all fun c => '1' ≤ c && c ≤ '9')

/-- True when `s` names a Win32 device rather than a file. -/
def isReservedDevice (s : List Char) : Bool :=
  let base := (s.takeWhile (· != '.')).rdropWhile fun c => c == ' ' || c == '.'
  isDeviceName (base.map Char.toUpper)

/-- The characters a slug keeps. -/
def slugChar (c : Char) : Bool := c.isAlphanum || c == '-' || c == '_'

def slugify (s fallback : List Char) : List Char :=
  let out := (s.map fun c => if slugChar c then c else '_').take 64
  if out = [] then fallback
  else if isReservedDevice out then '_' :: out.take 63
  else out

/-! ## Sessions -/

structure SessionTarget where
  talker : String
  displayName : String
  deriving DecidableEq

/-- The stem of a session before the search for a free name: 56 characters, so that a suffix
stays within the 64 of a slug. -/
def baseStem (target : SessionTarget) : String :=
  let display := slugify target.displayName.toList []
  let base := if display.any Char.isAlphanum then display
    else slugify target.talker.toList ['s', 'e', 's', 's', 'i', 'o', 'n']
  let stem := base.take 56
  if stem = [] then "session" else String.ofList stem

/-- The loop of `file_name_for`: `stem-2`, `stem-3` and so on while the folded name is taken. -/
def freeName (lower : String → String) (stem : String) (taken : List String) :
    Nat → String → Nat → Option String
  | 0, _, _ => none
  | fuel + 1, name, n =>
    if lower name ∈ taken then
      freeName lower stem taken fuel (stem ++ "-" ++ toString n) (n + 1)
    else some name

/-- The name of a session and the set of folded names with it. `index` belongs to the index. -/
def fileNameFor (lower : String → String) (target : SessionTarget) (taken : List String) :
    String × List String :=
  let taken := "index" :: taken
  let stem := baseStem target
  let name := (freeName lower stem taken (taken.length + 1) stem 2).getD stem
  (name, lower name :: taken)

/-- A file name without its extension: `rsplit_once('.')`, the whole name if it has no dot. -/
def stemOfFile (file : String) : String :=
  match file.toList.reverse.dropWhile (· != '.') with
  | [] => file
  | _ :: rest => String.ofList rest.reverse

/-! ## The index of a run

`previous_index` maps a talker to its entry: `Json.ordered`, the last entry of a talker counts. -/

abbrev Index := List (String × Json.Value)

/-- The entry of a talker. -/
def Index.row (index : Index) (talker : String) : Option Json.Value :=
  (index.find? (·.1 == talker)).map (·.2)

/-- The file name an entry records. -/
def fileOf (row : Json.Value) : Option String := (row.get "file").bind (·.asStr)

def Index.file (index : Index) (talker : String) : Option String := (index.row talker).bind fileOf

/-- The stem of a session in `run`: the recorded one, unless it is the name of the index. -/
def stemFor (lower : String → String) (previous : Index) (target : SessionTarget)
    (taken : List String) : String × List String :=
  match previous.file target.talker with
  | some file =>
    let stem := stemOfFile file
    if foldCase stem = "index" then fileNameFor lower target taken
    else (stem, lower stem :: taken)
  | none => fileNameFor lower target taken

/-- The folded stems of the previous index, taken before the first session is named. -/
def seedTaken (lower : String → String) (previous : Index) : List String :=
  previous.filterMap fun entry => (fileOf entry.2).map fun file => lower (stemOfFile file)

/-! ## Device names -/

theorem isDeviceName_chars {u : List Char} (h : isDeviceName u = true) :
    u.length ≤ 7 ∧ '-' ∉ u ∧ '_' ∉ u := by
  rw [isDeviceName, Bool.or_eq_true] at h
  rcases h with h | h
  · have hAll : ∀ u ∈ deviceNames, u.length ≤ 7 ∧ '-' ∉ u ∧ '_' ∉ u := by decide
    exact hAll u (List.contains_iff_mem.mp h)
  · simp only [Bool.and_eq_true, Bool.or_eq_true, beq_iff_eq, List.all_eq_true,
      decide_eq_true_eq] at h
    obtain ⟨⟨hLength, hStart⟩, hDigit⟩ := h
    have hTail : ∀ c ∈ u.drop 3, c ≠ '-' ∧ c ≠ '_' := by
      intro c hc
      have h1 := (hDigit c hc).1
      have h2 := (hDigit c hc).2
      constructor <;> intro hEq <;> subst hEq <;> revert h1 h2 <;> decide
    have hHead : ∀ c ∈ u.take 3, c ≠ '-' ∧ c ≠ '_' := by
      rcases hStart with h | h <;> rw [h] <;> simp
    have hAll : ∀ c ∈ u, c ≠ '-' ∧ c ≠ '_' := by
      intro c hc
      rw [← List.take_append_drop 3 u, List.mem_append] at hc
      exact hc.elim (hHead c) (hTail c)
    exact ⟨by omega, fun hc => (hAll _ hc).1 rfl, fun hc => (hAll _ hc).2 rfl⟩

theorem slugChar_ne {c d : Char} (hc : slugChar c = true) (hd : slugChar d = false) : c ≠ d := by
  intro hEq
  rw [hEq, hd] at hc
  cases hc

/-- The device test of a name that starts with a slug: what stands behind the first dot does not
matter. -/
theorem isReservedDevice_slug {s : List Char} (h : ∀ c ∈ s, slugChar c = true) :
    isReservedDevice s = isDeviceName (s.map Char.toUpper) := by
  have hTake : s.takeWhile (· != '.') = s := by
    rw [List.takeWhile_eq_self_iff]
    intro c hc
    simpa using slugChar_ne (h c hc) (by decide)
  have hDrop : s.rdropWhile (fun c => c == ' ' || c == '.') = s := by
    rw [List.rdropWhile_eq_self_iff]
    intro hNil hLast
    have hc := h _ (List.getLast_mem hNil)
    simp only [Bool.or_eq_true, beq_iff_eq] at hLast
    exact hLast.elim (slugChar_ne hc (by decide)) (slugChar_ne hc (by decide))
  rw [isReservedDevice, hTake, hDrop]

theorem isReservedDevice_extension {s rest : List Char} (h : ∀ c ∈ s, slugChar c = true) :
    isReservedDevice (s ++ '.' :: rest) = isReservedDevice s := by
  have hTake : (s ++ '.' :: rest).takeWhile (· != '.') = s.takeWhile (· != '.') := by
    have hAll : ∀ c ∈ s, (c != '.') = true := by
      intro c hc
      simpa using slugChar_ne (h c hc) (by decide)
    rw [List.takeWhile_append_of_pos hAll, List.takeWhile_cons_of_neg (by decide),
      List.append_nil, List.takeWhile_eq_self_iff.mpr hAll]
  rw [isReservedDevice, isReservedDevice, hTake]

theorem not_device_of_mem {s : List Char} (h : ∀ c ∈ s, slugChar c = true)
    (hMem : '-' ∈ s ∨ '_' ∈ s) : isReservedDevice s = false := by
  rw [isReservedDevice_slug h, ← Bool.not_eq_true]
  intro hDevice
  obtain ⟨-, h1, h2⟩ := isDeviceName_chars hDevice
  rcases hMem with hMem | hMem
  · exact h1 (List.mem_map.mpr ⟨_, hMem, by decide⟩)
  · exact h2 (List.mem_map.mpr ⟨_, hMem, by decide⟩)

theorem not_device_of_length {s : List Char} (h : ∀ c ∈ s, slugChar c = true)
    (hLength : 7 < s.length) : isReservedDevice s = false := by
  rw [isReservedDevice_slug h, ← Bool.not_eq_true]
  intro hDevice
  have := (isDeviceName_chars hDevice).1
  rw [List.length_map] at this
  omega

/-! ## Stems -/

/-- A stem as the slugger makes them: one component of a path on every platform. -/
structure Stem (stem : String) : Prop where
  chars : ∀ c ∈ stem.toList, slugChar c = true
  ne_nil : stem.toList ≠ []
  not_device : isReservedDevice stem.toList = false

/-- A slug is the fallback, or a nonempty name that is no device. -/
theorem slugify_cases (s fallback : List Char) :
    slugify s fallback = fallback ∨ slugify s fallback ≠ [] ∧
      (∀ c ∈ slugify s fallback, slugChar c = true) ∧
      isReservedDevice (slugify s fallback) = false := by
  have hOut : ∀ c ∈ (s.map fun c => if slugChar c then c else '_').take 64,
      slugChar c = true := by
    intro c hc
    obtain ⟨d, -, rfl⟩ := List.mem_map.mp (List.mem_of_mem_take hc)
    split
    · assumption
    · decide
  rw [slugify]
  split_ifs with h1 h2
  · exact .inl rfl
  · have hChars : ∀ c ∈ '_' :: ((s.map fun c => if slugChar c then c else '_').take 64).take 63,
        slugChar c = true := by
      intro c hc
      rcases List.mem_cons.mp hc with rfl | hc
      · decide
      · exact hOut c (List.mem_of_mem_take hc)
    exact .inr ⟨List.cons_ne_nil _ _, hChars, not_device_of_mem hChars (.inr List.mem_cons_self)⟩
  · exact .inr ⟨h1, hOut, by simpa using h2⟩

/-- A nonempty slug of at most 64 characters, cut to 56, is a stem. -/
theorem stem_take {base : List Char} (hNil : base ≠ []) (h : ∀ c ∈ base, slugChar c = true)
    (hDevice : isReservedDevice base = false) : Stem (String.ofList (base.take 56)) := by
  have hTake : ∀ c ∈ base.take 56, slugChar c = true := fun c hc => h c (List.mem_of_mem_take hc)
  refine ⟨by simpa using hTake, ?_, ?_⟩
  · rw [String.toList_ofList]
    simpa using hNil
  · rw [String.toList_ofList]
    by_cases hLength : base.length ≤ 56
    · rw [List.take_of_length_le hLength]
      exact hDevice
    · exact not_device_of_length hTake (by rw [List.length_take]; omega)

theorem baseStem_stem (target : SessionTarget) : Stem (baseStem target) := by
  have hSession : Stem "session" := ⟨List.all_eq_true.mp (by decide), by decide, by decide⟩
  have hBase : ∀ base : List Char, (base ≠ [] ∧ (∀ c ∈ base, slugChar c = true) ∧
      isReservedDevice base = false) →
      Stem (if base.take 56 = [] then "session" else String.ofList (base.take 56)) := by
    intro base ⟨hNil, hChars, hDevice⟩
    split_ifs
    · exact hSession
    · exact stem_take hNil hChars hDevice
  rw [baseStem]
  apply hBase
  split_ifs with h
  · rcases slugify_cases target.displayName.toList [] with hEq | hOut
    · rw [hEq] at h
      cases h
    · exact hOut
  · rcases slugify_cases target.talker.toList ['s', 'e', 's', 's', 'i', 'o', 'n'] with hEq | hOut
    · rw [hEq]
      exact ⟨by decide, List.all_eq_true.mp (by decide), by decide⟩
    · exact hOut

/-! ## The search for a free name -/

/-- The names the search tries, in order. -/
def candidate (stem : String) : Nat → String
  | 0 => stem
  | i + 1 => stem ++ "-" ++ toString (i + 2)

theorem digit_slugChar {c : Char} (h : c.isDigit = true) : slugChar c = true := by
  simp [slugChar, Char.isAlphanum, h]

theorem toString_toList (n : Nat) : (toString n).toList = Nat.toDigits 10 n := Nat.toList_repr

theorem digits_slugChar (n : Nat) : ∀ c ∈ (toString n).toList, slugChar c = true := by
  intro c hc
  rw [toString_toList] at hc
  exact digit_slugChar (Nat.isDigit_of_mem_toDigits (by omega) (by omega) hc)

theorem candidate_stem {stem : String} (h : Stem stem) (i : Nat) : Stem (candidate stem i) := by
  cases i with
  | zero => exact h
  | succ i =>
    have hChars : ∀ c ∈ (candidate stem (i + 1)).toList, slugChar c = true := by
      intro c hc
      simp only [candidate, String.toList_append, List.mem_append] at hc
      rcases hc with (hc | hc) | hc
      · exact h.chars c hc
      · rw [List.mem_singleton.mp hc]
        decide
      · exact digits_slugChar _ c hc
    have hDash : '-' ∈ (candidate stem (i + 1)).toList := by simp [candidate]
    exact ⟨hChars, List.ne_nil_of_mem hDash, not_device_of_mem hChars (.inl hDash)⟩

/-- What is asked of `to_lowercase`: on ASCII it is `to_ascii_lowercase`. -/
def LowersAscii (lower : String → String) : Prop :=
  ∀ s : String, (∀ c ∈ s.toList, c.toNat < 128) → lower s = foldCase s

theorem slugChar_ascii {c : Char} (h : slugChar c = true) : c.toNat < 128 := by
  have hAlphanum : c.isAlphanum = ((decide (c.val ≥ 'A'.val ∧ c.val ≤ 'Z'.val) ||
      (decide (c.val ≥ 'a'.val) && decide (c.val ≤ 'z'.val))) ||
      (decide (c.val ≥ '0'.val) && decide (c.val ≤ '9'.val))) := rfl
  simp only [slugChar, hAlphanum, Bool.or_eq_true, Bool.and_eq_true, decide_eq_true_eq,
    beq_iff_eq] at h
  rcases h with ((((⟨-, h⟩ | ⟨-, h⟩) | ⟨-, h⟩)) | rfl) | rfl
  · have : c.toNat ≤ 90 := h
    omega
  · have : c.toNat ≤ 122 := h
    omega
  · have : c.toNat ≤ 57 := h
    omega
  · decide
  · decide

theorem lower_stem {lower : String → String} (hLower : LowersAscii lower) {stem : String}
    (h : Stem stem) : lower stem = foldCase stem :=
  hLower stem fun c hc => slugChar_ascii (h.chars c hc)

@[simp] theorem foldCase_toList (s : String) : (foldCase s).toList = s.toList.map Char.toLower :=
  String.toList_ofList

theorem foldCase_append (s t : String) : foldCase (s ++ t) = foldCase s ++ foldCase t := by
  rw [← String.toList_inj]
  simp

theorem toLower_digit {c : Char} (h : c.isDigit = true) : c.toLower = c := by
  have hUpper : ¬(c.val ≥ 'A'.val ∧ c.val ≤ 'Z'.val) := by
    rintro ⟨hLow, -⟩
    simp only [Char.isDigit, Bool.and_eq_true, decide_eq_true_eq] at h
    have h1 : c.toNat ≤ 57 := h.2
    have h2 : 65 ≤ c.toNat := hLow
    omega
  exact dif_neg hUpper

theorem foldCase_toString (n : Nat) : foldCase (toString n) = toString n := by
  rw [← String.toList_inj, foldCase_toList, toString_toList]
  conv_rhs => rw [← List.map_id (Nat.toDigits 10 n)]
  refine List.map_congr_left fun c hc => ?_
  exact toLower_digit (Nat.isDigit_of_mem_toDigits (by omega) (by omega) hc)

theorem toString_injective {m n : Nat} (h : (toString m : String) = toString n) : m = n := by
  rw [← Nat.ofDigitChars_ten_toDigits (n := m), ← toString_toList, h, toString_toList,
    Nat.ofDigitChars_ten_toDigits]

/-- No two names of the search fold to one. -/
theorem foldCase_candidate {stem : String} {i j : Nat}
    (h : foldCase (candidate stem i) = foldCase (candidate stem j)) : i = j := by
  have hLength := congrArg (fun s : String => s.toList.length) h
  cases i with
  | zero =>
    cases j with
    | zero => rfl
    | succ j =>
      simp only [candidate, foldCase_toList, List.length_map, String.toList_append,
        List.length_append] at hLength
      have hDash : "-".toList.length = 1 := rfl
      omega
  | succ i =>
    cases j with
    | zero =>
      simp only [candidate, foldCase_toList, List.length_map, String.toList_append,
        List.length_append] at hLength
      have hDash : "-".toList.length = 1 := rfl
      omega
    | succ j =>
      simp only [candidate, foldCase_append, foldCase_toString, ← String.toList_inj,
        String.toList_append] at h
      have hDigits := List.append_cancel_left h
      rw [String.toList_inj] at hDigits
      have := toString_injective hDigits
      omega

/-- The loop, started at the `i`-th name, ends at the first free one or has found as many taken
ones as it has tried. -/
theorem freeName_cases (lower : String → String) (stem : String) (taken : List String)
    (fuel i : Nat) :
    (∃ j, i ≤ j ∧ j < i + fuel ∧ lower (candidate stem j) ∉ taken ∧
      (∀ k, i ≤ k → k < j → lower (candidate stem k) ∈ taken) ∧
      freeName lower stem taken fuel (candidate stem i) (i + 2) = some (candidate stem j)) ∨
    ∀ j, i ≤ j → j < i + fuel → lower (candidate stem j) ∈ taken := by
  induction fuel generalizing i with
  | zero =>
    right
    intro j h1 h2
    omega
  | succ fuel ih =>
    by_cases h : lower (candidate stem i) ∈ taken
    · rcases ih (i + 1) with ⟨j, h1, h2, h3, hBefore, h4⟩ | hAll
      · refine .inl ⟨j, by omega, by omega, h3, ?_, ?_⟩
        · intro k hk hkj
          rcases Nat.eq_or_lt_of_le hk with rfl | hk
          · exact h
          · exact hBefore k hk hkj
        · rw [freeName, if_pos h]
          exact h4
      · right
        intro j h1 h2
        rcases Nat.eq_or_lt_of_le h1 with rfl | h1
        · exact h
        · exact hAll j h1 (by omega)
    · refine .inl ⟨i, le_refl i, by omega, h, fun k hk hki => ?_, by rw [freeName, if_neg h]⟩
      omega

/-- One try more than there are taken names is enough: the search terminates, with a free
name. -/
theorem freeName_terminates {lower : String → String} (hLower : LowersAscii lower)
    {stem : String} (hStem : Stem stem) (taken : List String) :
    ∃ i ≤ taken.length, lower (candidate stem i) ∉ taken ∧
      (∀ k < i, lower (candidate stem k) ∈ taken) ∧
      freeName lower stem taken (taken.length + 1) stem 2 = some (candidate stem i) := by
  rcases freeName_cases lower stem taken (taken.length + 1) 0 with
    ⟨j, -, hj, hFree, hBefore, hEq⟩ | hAll
  · exact ⟨j, by omega, hFree, fun k hk => hBefore k (Nat.zero_le k) hk, hEq⟩
  · let tried := (List.range (taken.length + 1)).map fun i => lower (candidate stem i)
    have hNodup : tried.Nodup := by
      refine List.Nodup.map_on ?_ List.nodup_range
      intro i _ j _ hEq
      rw [lower_stem hLower (candidate_stem hStem i), lower_stem hLower (candidate_stem hStem j)]
        at hEq
      exact foldCase_candidate hEq
    have hSub : tried ⊆ taken := by
      intro x hx
      obtain ⟨i, hi, rfl⟩ := List.mem_map.mp hx
      exact hAll i (Nat.zero_le i) (by have := List.mem_range.mp hi; omega)
    have hLength := (List.subperm_of_subset hNodup hSub).length_le
    simp only [tried, List.length_map, List.length_range] at hLength
    omega

/-- What `file_name_for` gives: a stem whose folded form was free and now is taken. -/
theorem fileNameFor_spec {lower : String → String} (hLower : LowersAscii lower)
    (target : SessionTarget) (taken : List String) :
    ∃ name, fileNameFor lower target taken = (name, foldCase name :: "index" :: taken) ∧
      Stem name ∧ foldCase name ≠ "index" ∧ foldCase name ∉ taken := by
  have hStem := baseStem_stem target
  obtain ⟨i, -, hFree, -, hEq⟩ := freeName_terminates hLower hStem ("index" :: taken)
  have hName := candidate_stem hStem i
  rw [lower_stem hLower hName, List.mem_cons, not_or] at hFree
  refine ⟨candidate (baseStem target) i, ?_, hName, hFree.1, hFree.2⟩
  rw [fileNameFor, hEq, Option.getD_some, lower_stem hLower hName]

/-- The name of a session is found after as many tries as there are taken names, at most. -/
theorem fileNameFor_index {lower : String → String} (hLower : LowersAscii lower)
    (target : SessionTarget) (taken : List String) :
    ∃ i ≤ taken.toFinset.card + 1,
      (fileNameFor lower target taken).1 = candidate (baseStem target) i := by
  have hStem := baseStem_stem target
  obtain ⟨i, -, -, hBefore, hEq⟩ := freeName_terminates hLower hStem ("index" :: taken)
  refine ⟨i, ?_, by rw [fileNameFor, hEq, Option.getD_some]⟩
  have hImage : (Finset.range i).image (fun k => lower (candidate (baseStem target) k)) ⊆
      ("index" :: taken).toFinset := by
    intro name hName
    obtain ⟨k, hk, rfl⟩ := Finset.mem_image.mp hName
    exact List.mem_toFinset.mpr (hBefore k (Finset.mem_range.mp hk))
  have hCard := Finset.card_le_card hImage
  rw [Finset.card_image_of_injOn, Finset.card_range, List.toFinset_cons] at hCard
  · exact hCard.trans (Finset.card_insert_le _ _)
  · intro k _ l _ hSame
    dsimp only at hSame
    rw [lower_stem hLower (candidate_stem hStem k), lower_stem hLower (candidate_stem hStem l)]
      at hSame
    exact foldCase_candidate hSame

/-! ## File names -/

theorem dropWhile_reverse_concat {stem ext : List Char} (h : '.' ∉ ext) :
    (stem ++ '.' :: ext).reverse.dropWhile (· != '.') = '.' :: stem.reverse := by
  rw [List.reverse_append, List.reverse_cons, List.append_assoc, List.dropWhile_append_of_pos]
  · rfl
  · intro c hc
    have hMem := List.mem_reverse.mp hc
    simpa using fun hEq : c = '.' => h (hEq ▸ hMem)

/-- The stem of a name with an extension. -/
theorem stemOfFile_extension {stem ext : String} (h : '.' ∉ ext.toList) :
    stemOfFile (stem ++ "." ++ ext) = stem := by
  have hList : (stem ++ "." ++ ext).toList = stem.toList ++ '.' :: ext.toList := by simp
  rw [stemOfFile, hList, dropWhile_reverse_concat h]
  simp

end Weflow.Export
