import Mathlib.Data.List.DropRight

/-!
# Where a link leads

The start of a URL parser, as far as it decides between a scheme, another host and a path: controls
and spaces at both ends and every tab and newline are dropped, and in a URL that is resolved against
a web page a backslash is a slash.
-/

namespace Url

inductive Target
  | scheme (name : List Char)
  | otherHost
  | path
  | relative
  deriving DecidableEq

def isControlOrSpace (c : Char) : Bool := c.toNat ≤ 0x20

def isTabOrNewline (c : Char) : Bool := c == '\t' || c == '\n' || c == '\r'

def isSlash (c : Char) : Bool := c == '/' || c == '\\'

/-- What the parser reads of an input. -/
def cleaned (cs : List Char) : List Char :=
  ((cs.dropWhile isControlOrSpace).rdropWhile isControlOrSpace).filter fun c => !isTabOrNewline c

def isSchemeChar (c : Char) : Bool := c.isAlphanum || c == '+' || c == '-' || c == '.'

/-- The scheme in front of the first colon, in lower case. -/
def schemeOf (cs : List Char) : Option (List Char) :=
  let name := cs.takeWhile isSchemeChar
  if (name.head?.any Char.isAlpha) && (cs.drop name.length).head? == some ':' then
    some (name.map Char.toLower)
  else none

/-- Where a URL leads from a web page. A URL whose host does not parse (`http://`, `http://[`) leads
nowhere; it is put with the others of its scheme. -/
def target (cs : List Char) : Target :=
  match schemeOf (cleaned cs) with
  | some name => .scheme name
  | none =>
    match cleaned cs with
    | [] => .relative
    | c :: rest =>
      if isSlash c then
        if rest.head?.any isSlash then .otherHost else .path
      else .relative

/-! ## What the start decides -/

theorem not_control_of_slash {c : Char} (h : isSlash c = true) :
    isControlOrSpace c = false ∧ isTabOrNewline c = false ∧ isSchemeChar c = false := by
  simp only [isSlash, Bool.or_eq_true, beq_iff_eq] at h
  rcases h with rfl | rfl <;> decide

/-- The ends that are dropped are no slashes. -/
theorem exists_rdropWhile (cs : List Char) : ∃ tail, cs = cs.rdropWhile isControlOrSpace ++ tail ∧
    ∀ c ∈ tail, isControlOrSpace c = true := by
  induction cs using List.reverseRecOn with
  | nil => exact ⟨[], rfl, by simp⟩
  | append_singleton cs c ih =>
    obtain ⟨tail, hEq, hTail⟩ := ih
    by_cases hc : isControlOrSpace c = true
    · refine ⟨tail ++ [c], ?_, ?_⟩
      · rw [List.rdropWhile_concat_pos _ _ _ hc, ← List.append_assoc, ← hEq]
      · intro d hd
        rcases List.mem_append.mp hd with hd | hd
        · exact hTail d hd
        · rw [List.mem_singleton.mp hd]
          exact hc
    · refine ⟨[], ?_, by simp⟩
      rw [List.rdropWhile_concat_neg _ _ _ hc, List.append_nil]

/-- A start that ends in a visible character stays. -/
theorem rdropWhile_start (start : List Char) {c : Char} (hc : isControlOrSpace c = false)
    (rest : List Char) : ∃ kept, (start ++ c :: rest).rdropWhile isControlOrSpace =
      start ++ c :: kept := by
  induction rest using List.reverseRecOn with
  | nil => exact ⟨[], List.rdropWhile_concat_neg _ _ _ (by simp [hc])⟩
  | append_singleton rest d ih =>
    obtain ⟨kept, hKept⟩ := ih
    have hSplit : start ++ c :: (rest ++ [d]) = (start ++ c :: rest) ++ [d] := by simp
    rw [hSplit]
    by_cases hd : isControlOrSpace d = true
    · exact ⟨kept, by rw [List.rdropWhile_concat_pos _ _ _ hd, hKept]⟩
    · exact ⟨rest ++ [d], by rw [List.rdropWhile_concat_neg _ _ _ hd, hSplit]⟩

/-- Behind a slash the first character that counts decides between a path and a host. -/
theorem target_slash {c : Char} (hc : isSlash c = true) (rest : List Char) :
    target (c :: rest) =
      if (rest.filter fun d => !isTabOrNewline d).head?.any isSlash then .otherHost else .path := by
  obtain ⟨hControl, hTab, hScheme⟩ := not_control_of_slash hc
  obtain ⟨kept, hKept⟩ := rdropWhile_start [] hControl rest
  obtain ⟨tail, hTail, hEnds⟩ := exists_rdropWhile (c :: rest)
  rw [List.nil_append, List.nil_append] at hKept
  have hClean : cleaned (c :: rest) = c :: kept.filter fun d => !isTabOrNewline d := by
    rw [cleaned, List.dropWhile_cons_of_neg (by simp [hControl]), hKept,
      List.filter_cons_of_pos (by simp [hTab])]
  have hRest : rest = kept ++ tail := by
    rw [hKept] at hTail
    exact (List.cons.inj hTail).2
  have hNone : schemeOf (c :: kept.filter fun d => !isTabOrNewline d) = none := by
    rw [schemeOf, List.takeWhile_cons_of_neg (by simp [hScheme])]
    rfl
  have hSame : (rest.filter fun d => !isTabOrNewline d).head?.any isSlash =
      (kept.filter fun d => !isTabOrNewline d).head?.any isSlash := by
    rw [hRest, List.filter_append, List.head?_append]
    cases (kept.filter fun d => !isTabOrNewline d).head? with
    | some d => rfl
    | none =>
      rw [Option.none_or]
      cases hHead : (tail.filter fun d => !isTabOrNewline d).head? with
      | none => rfl
      | some d =>
        have hMem := (List.mem_filter.mp (List.mem_of_head? hHead)).1
        rw [Option.any_some, Option.any_none, ← Bool.not_eq_true]
        intro hSlash
        have hControl := hEnds d hMem
        rw [(not_control_of_slash hSlash).1] at hControl
        cases hControl
  simp only [target, hClean, hNone, hc, if_true, hSame]

theorem not_control_of_scheme {c : Char} (h : isSchemeChar c = true) :
    isControlOrSpace c = false ∧ isTabOrNewline c = false := by
  have hAll : ∀ n < 33, isSchemeChar (Char.ofNat n) = false := by decide
  have hLarge : 33 ≤ c.toNat := by
    by_contra hSmall
    have hSame := hAll c.toNat (by omega)
    rw [Char.ofNat_toNat, h] at hSame
    cases hSame
  refine ⟨?_, ?_⟩
  · rw [isControlOrSpace, decide_eq_false_iff_not]
    omega
  · rw [← Bool.not_eq_true]
    intro hTab
    simp only [isTabOrNewline, Bool.or_eq_true, beq_iff_eq] at hTab
    rcases hTab with (rfl | rfl) | rfl <;> revert hLarge <;> decide

/-- A name in front of a colon is the scheme. -/
theorem target_scheme {c : Char} {name : List Char} (hFirst : c.isAlpha = true)
    (hName : ∀ d ∈ c :: name, isSchemeChar d = true) (rest : List Char) :
    target ((c :: name) ++ ':' :: rest) = .scheme ((c :: name).map Char.toLower) := by
  have hColon : isControlOrSpace ':' = false := by decide
  obtain ⟨kept, hKept⟩ := rdropWhile_start (c :: name) hColon rest
  have hHead := not_control_of_scheme (hName c List.mem_cons_self)
  have hClean : cleaned ((c :: name) ++ ':' :: rest) =
      (c :: name) ++ ':' :: kept.filter fun d => !isTabOrNewline d := by
    have hAll : (c :: name).filter (fun d => !isTabOrNewline d) = c :: name := by
      refine List.filter_eq_self.mpr fun d hd => ?_
      rw [(not_control_of_scheme (hName d hd)).2]
      rfl
    have hDrop : ((c :: name) ++ ':' :: rest).dropWhile isControlOrSpace =
        (c :: name) ++ ':' :: rest :=
      List.dropWhile_cons_of_neg (by simp [hHead.1])
    rw [cleaned, hDrop, hKept, List.filter_append, hAll, List.filter_cons_of_pos (by decide)]
  have hTake : ((c :: name) ++ ':' :: kept.filter fun d => !isTabOrNewline d).takeWhile
      isSchemeChar = c :: name := by
    rw [List.takeWhile_append_of_pos hName, List.takeWhile_cons_of_neg (by decide),
      List.append_nil]
  have hScheme : schemeOf ((c :: name) ++ ':' :: kept.filter fun d => !isTabOrNewline d) =
      some ((c :: name).map Char.toLower) := by
    rw [schemeOf, hTake, List.drop_left]
    simp [hFirst]
  simp only [target, hClean, hScheme]

end Url
