import Mathlib.Order.Bounds.Basic
import Weflow.Lib.Groups
import Weflow.Media.Export
import Weflow.Server.Chatlab

/-!
# Advertised names

`digest_handles` of `media/export.rs`: for every digest in the export directories of a talker the
name of its file, as the pull face gives it. The first name of a stem that the system lists stays,
and the system lists a directory in any order. `handles_settled_iff` says for which trees the
order does not matter.
-/

namespace Weflow.Media

open Groups

/-- An entry of a directory; a name that is not UTF-8 is none. -/
structure DirEntry where
  name : Option String
  isFile : Bool
  deriving DecidableEq

/-- The type directories of a talker, none where one cannot be read. -/
abbrev Tree := String → Option (List DirEntry)

def exportTypeDirs : List String := ["images", "voices", "videos", "emojis"]

/-- A name of 32 hexadecimal digits and an extension. -/
def nameIsContentDigest (name : String) : Bool :=
  let stem := (Export.stemOfFile name).toList
  (Utf8.encode stem).length == 32 && stem.all isHexDigit

/-- The case-folded stem of a name. -/
def digestStem (name : String) : String := String.ofList (asciiLower (Export.stemOfFile name))

/-- The name an entry can advertise. -/
def DirEntry.digestName (e : DirEntry) : Option String :=
  e.name.filter fun name => e.isFile && nameIsContentDigest name

/-- `entry(stem).or_insert(name)` -/
def orInsert (out : Map String) (name : String) : Map String :=
  match out.lookup (digestStem name) with
  | some _ => out
  | none => out.insert (digestStem name) name

def collectEntry (out : Map String) (e : DirEntry) : Map String :=
  match e.digestName with
  | none => out
  | some name => orInsert out name

def collectDir (tree : Tree) (out : Map String) (dir : String) : Map String :=
  match tree dir with
  | none => out
  | some entries => entries.foldl collectEntry out

/-- The handles of a talker, with the type directories as the system lists them. -/
def digestHandles (tree : Tree) (talker : String) : Map String :=
  if safeSegment talker.toList then exportTypeDirs.foldl (collectDir tree) ∅ else ∅

/-! ## Orders -/

/-- The tree with every directory listed in some order. -/
def Lists (listed tree : Tree) : Prop :=
  ∀ dir, Option.Rel List.Perm (listed dir) (tree dir)

/-- The names of a type directory that can be advertised. -/
def digestNames (tree : Tree) (dir : String) : List String :=
  ((tree dir).getD []).filterMap DirEntry.digestName

/-- The names of a stem in all type directories. -/
def namesOf (tree : Tree) (stem : String) : Set String :=
  {name | ∃ dir ∈ exportTypeDirs, name ∈ digestNames tree dir ∧ digestStem name = stem}

/-- The names of a stem in the first type directory that has one. -/
def firstNames (tree : Tree) (stem : String) : List String :=
  firstHits (digestStem · = stem) (exportTypeDirs.map (digestNames tree))

/-- The least name of a stem, if there is one and the talker has a directory. -/
def LeastName (tree : Tree) (talker stem name : String) : Prop :=
  safeSegment talker.toList = true ∧ IsLeast (namesOf tree stem) name

/-- In every order the handles are the least names, and two orders give the same handles and the
same messages on the pull face. -/
def Settled (tree : Tree) (talker : String) : Prop :=
  ∀ a b, Lists a tree → Lists b tree →
    (∀ stem name, (digestHandles a talker).lookup stem = some name ↔
      LeastName tree talker stem name) ∧
    (∀ stem, (digestHandles a talker).lookup stem = (digestHandles b talker).lookup stem) ∧
    ∀ s m, Chatlab.pullMessage s talker ((digestHandles a talker).lookup ·) m =
      Chatlab.pullMessage s talker ((digestHandles b talker).lookup ·) m

variable {tree listed : Tree} {talker stem name : String}

/-! ## The walk -/

theorem lookup_orInsert (out : Map String) :
    (orInsert out name).lookup stem =
      (out.lookup stem).or (if digestStem name = stem then some name else none) := by
  rw [orInsert]
  split
  · rename_i other hOther
    split_ifs with hStem
    · rw [← hStem, hOther]
      rfl
    · rw [Option.or_none]
  · rename_i hNone
    split_ifs with hStem
    · rw [← hStem, hNone, AList.lookup_insert]
      rfl
    · rw [AList.lookup_insert_ne fun h => hStem h.symm, Option.or_none]

theorem lookup_foldl_orInsert (names : List String) (out : Map String) :
    (names.foldl orInsert out).lookup stem =
      (out.lookup stem).or (names.find? (digestStem · = stem)) := by
  induction names generalizing out with
  | nil => rw [List.foldl_nil, List.find?_nil, Option.or_none]
  | cons name names ih =>
    rw [List.foldl_cons, ih, lookup_orInsert, Option.or_assoc, List.find?_cons]
    split_ifs with hStem <;> simp [hStem]

theorem foldl_collectEntry (entries : List DirEntry) (out : Map String) :
    entries.foldl collectEntry out =
      (entries.filterMap DirEntry.digestName).foldl orInsert out := by
  induction entries generalizing out with
  | nil => rfl
  | cons e entries ih =>
    rw [List.foldl_cons, ih, collectEntry]
    cases hName : e.digestName with
    | none => rw [List.filterMap_cons_none hName]
    | some name =>
      rw [List.filterMap_cons_some hName]
      rfl

theorem collectDir_eq (out : Map String) (dir : String) :
    collectDir tree out dir = (digestNames tree dir).foldl orInsert out := by
  rw [collectDir, digestNames]
  cases tree dir with
  | none => rfl
  | some entries => exact foldl_collectEntry entries out

theorem foldl_collectDir (dirs : List String) (out : Map String) :
    dirs.foldl (collectDir tree) out =
      (dirs.map (digestNames tree)).flatten.foldl orInsert out := by
  induction dirs generalizing out with
  | nil => rfl
  | cons dir dirs ih =>
    rw [List.foldl_cons, ih, collectDir_eq, List.map_cons, List.flatten_cons, List.foldl_append]

/-- The handle of a stem is the first name listed in the first directory that has one. -/
theorem lookup_digestHandles : (digestHandles tree talker).lookup stem =
    if safeSegment talker.toList then (firstNames tree stem).head? else none := by
  rw [digestHandles]
  split_ifs
  · rw [foldl_collectDir, lookup_foldl_orInsert, AList.lookup_empty, Option.none_or, find?_flatten]
    rfl
  · exact AList.lookup_empty _

theorem mem_namesOf : name ∈ namesOf tree stem ↔
    name ∈ (exportTypeDirs.map (digestNames tree)).flatten ∧ digestStem name = stem := by
  simp only [namesOf, Set.mem_ofPred_eq, List.mem_flatten, List.mem_map, exists_exists_and_eq_and]
  constructor
  · rintro ⟨dir, hDir, hName, hStem⟩
    exact ⟨⟨dir, hDir, hName⟩, hStem⟩
  · rintro ⟨⟨dir, hDir, hName⟩, hStem⟩
    exact ⟨dir, hDir, hName, hStem⟩

/-! ## Two orders -/

theorem Lists.digestNames (h : Lists listed tree) (dir : String) :
    (digestNames listed dir).Perm (digestNames tree dir) := by
  have hDir := h dir
  rw [Media.digestNames, Media.digestNames]
  revert hDir
  generalize listed dir = a, tree dir = b
  intro hDir
  cases hDir with
  | some hPerm => exact hPerm.filterMap _
  | none => exact .refl _

theorem Lists.firstNames (h : Lists listed tree) (stem : String) :
    (firstNames listed stem).Perm (firstNames tree stem) := by
  refine firstHits_perm ?_
  rw [List.forall₂_map_left_iff, List.forall₂_map_right_iff]
  exact List.forall₂_same.mpr fun dir _ => h.digestNames dir

theorem lists_refl (tree : Tree) : Lists tree tree := by
  intro dir
  cases tree dir with
  | none => exact .none
  | some entries => exact .some (.refl _)

/-- The order that lists the files of a name first. -/
def listedFirst (tree : Tree) (name : String) : Tree := fun dir =>
  (tree dir).map fun entries => entries.filter (·.digestName = some name) ++
    entries.filter (·.digestName ≠ some name)

theorem lists_listedFirst (tree : Tree) (name : String) : Lists (listedFirst tree name) tree := by
  intro dir
  rw [listedFirst]
  cases tree dir with
  | none => exact .none
  | some entries =>
    refine .some ?_
    simpa using List.filter_append_perm (fun e => decide (e.digestName = some name)) entries

theorem filterMap_filter_name (q : Option String → Bool) (entries : List DirEntry) :
    (entries.filter fun e => q e.digestName).filterMap DirEntry.digestName =
      (entries.filterMap DirEntry.digestName).filter fun name => q (some name) := by
  induction entries with
  | nil => rfl
  | cons e entries ih =>
    cases hName : e.digestName with
    | none =>
      cases hq : q none <;> simp [hName, hq, ih]
    | some name =>
      cases hq : q (some name) <;> simp [hName, hq, ih]

theorem digestNames_listedFirst (dir : String) :
    digestNames (listedFirst tree name) dir = toFront name (digestNames tree dir) := by
  rw [digestNames, digestNames, listedFirst, toFront]
  cases tree dir with
  | none => rfl
  | some entries =>
    rw [Option.map_some, Option.getD_some, Option.getD_some, List.filterMap_append,
      filterMap_filter_name fun n => decide (n = some name),
      filterMap_filter_name fun n => decide (n ≠ some name)]
    simp

theorem head?_listedFirst (h : name ∈ firstNames tree stem) :
    (firstNames (listedFirst tree name) stem).head? = some name := by
  have hEq : firstNames (listedFirst tree name) stem =
      firstHits (digestStem · = stem) ((exportTypeDirs.map (digestNames tree)).map (toFront name)) := by
    rw [firstNames, List.map_map]
    congr 1
    exact List.map_congr_left fun dir _ => digestNames_listedFirst dir
  rw [hEq]
  exact head?_firstHits_toFront h

/-! ## When the order does not matter -/

/-- The names of every stem in the first directory that has one are the least of all. -/
def FirstLeast (tree : Tree) : Prop :=
  ∀ stem, ∀ name ∈ firstNames tree stem, name ∈ lowerBounds (namesOf tree stem)

theorem isLeast_of_mem (hLeast : FirstLeast tree) (h : name ∈ firstNames tree stem) :
    IsLeast (namesOf tree stem) name :=
  ⟨mem_namesOf.mpr (by simpa using mem_firstHits h), hLeast stem name h⟩

theorem lookup_iff_least (hLeast : FirstLeast tree) (h : Lists listed tree) :
    (digestHandles listed talker).lookup stem = some name ↔ LeastName tree talker stem name := by
  rw [lookup_digestHandles, LeastName]
  split_ifs with hTalker
  · rw [and_iff_right hTalker]
    constructor
    · intro hHead
      exact isLeast_of_mem hLeast ((h.firstNames stem).subset (List.mem_of_head? hHead))
    · intro hName
      have hSome : firstNames tree stem ≠ [] :=
        exists_firstHits (mem_namesOf.mp hName.1).1 (by simpa using (mem_namesOf.mp hName.1).2)
      have hListed : firstNames listed stem ≠ [] := fun hNil =>
        hSome ((hNil ▸ h.firstNames stem).nil_eq.symm)
      obtain ⟨other, others, hEq⟩ := List.exists_cons_of_ne_nil hListed
      have hMem : other ∈ firstNames tree stem :=
        (h.firstNames stem).subset (hEq ▸ List.mem_cons_self)
      rw [hEq, List.head?_cons, IsLeast.unique (isLeast_of_mem hLeast hMem) hName]
  · simp [hTalker]

/-- The handles are the least names in every order exactly when the talker has no directory, or
every stem has nothing but its least name in the first type directory that has one. -/
theorem handles_settled_iff (tree : Tree) (talker : String) :
    Settled tree talker ↔ (safeSegment talker.toList = true → FirstLeast tree) := by
  constructor
  · intro hSettled hTalker stem name hName
    have hFirst := (hSettled _ _ (lists_listedFirst tree name) (lists_refl tree)).1 stem name
    rw [lookup_digestHandles, if_pos hTalker, head?_listedFirst hName] at hFirst
    exact (hFirst.mp rfl).2.2
  · intro hLeast a b ha hb
    have hSame : ∀ stem,
        (digestHandles a talker).lookup stem = (digestHandles b talker).lookup stem := by
      intro stem
      by_cases hTalker : safeSegment talker.toList = true
      · refine Option.ext fun name => ?_
        exact (lookup_iff_least (hLeast hTalker) ha).trans (lookup_iff_least (hLeast hTalker) hb).symm
      · rw [lookup_digestHandles, lookup_digestHandles, if_neg hTalker, if_neg hTalker]
    refine ⟨fun stem name => ?_, hSame, fun s m => ?_⟩
    · by_cases hTalker : safeSegment talker.toList = true
      · exact lookup_iff_least (hLeast hTalker) ha
      · rw [lookup_digestHandles, if_neg hTalker]
        simp [LeastName, hTalker]
    · have hLookup : ((digestHandles a talker).lookup ·) = ((digestHandles b talker).lookup ·) :=
        funext hSame
      rw [hLookup]

/-- A digest in two formats, one listed before the other. -/
def twoFormats (first second : String) : Tree := fun dir =>
  if dir = "images" then
    some [⟨some ("00112233445566778899aabbccddeeff." ++ first), true⟩,
      ⟨some ("00112233445566778899aabbccddeeff." ++ second), true⟩]
  else none

theorem lists_twoFormats (first second : String) :
    Lists (twoFormats second first) (twoFormats first second) := by
  intro dir
  rw [twoFormats, twoFormats]
  split_ifs
  · exact .some (.swap _ _ _)
  · exact .none

/-- The listing with the later name first advertises that name. -/
theorem listed_order_counts : ¬ Settled (twoFormats "jpg" "png") "u" := by
  intro hSettled
  have hSame := (hSettled _ _ (lists_refl _) (lists_twoFormats "jpg" "png")).2.1
    "00112233445566778899aabbccddeeff"
  have hFirst : (digestHandles (twoFormats "jpg" "png") "u").lookup
      "00112233445566778899aabbccddeeff" = some "00112233445566778899aabbccddeeff.jpg" := by
    decide +kernel
  have hSecond : (digestHandles (twoFormats "png" "jpg") "u").lookup
      "00112233445566778899aabbccddeeff" = some "00112233445566778899aabbccddeeff.png" := by
    decide +kernel
  rw [hFirst, hSecond] at hSame
  revert hSame
  decide

end Weflow.Media
