import Mathlib.Data.List.TakeWhile
import Weflow.Lib.Json
import Weflow.Lib.Search

/-!
# Searching the text of a value for the strings of a key

The compact text of a JSON value is not parsed but searched for `"key":"`, and what stands up to
the next quote is taken for the string. A quote inside a string has a backslash in front of it, so
the mark is found at the fields of the key and nowhere else (`scan_chars`), whatever the strings
hold. What is taken is the string as it is written, up to the first quote in it (`scanned`): the
string itself exactly when no character of it is written with a backslash.
-/

namespace Json

/-- The text at which a string under the key begins. -/
def fieldMark (key : List Char) : List Char := '"' :: (key ++ ['"', ':', '"'])

/-- What stands behind the marks of a text, each up to the next quote. -/
def scan (key text : List Char) : List (List Char) :=
  (Search.splitAll (fieldMark key) text).tail.map fun piece => piece.takeWhile (· ≠ '"')

/-- What is taken for a string: its text up to the first quote in it. -/
def scanned (s : List Char) : List Char := (s.flatMap escape).takeWhile (· ≠ '"')

mutual

/-- The strings under a key, in the order of the text. -/
def strings (key : List Char) : Value → List String
  | .arr vs => stringsItems key vs
  | .obj fs => stringsFields key fs
  | _ => []

def stringsItems (key : List Char) : List Value → List String
  | [] => []
  | v :: vs => strings key v ++ stringsItems key vs

def stringsFields (key : List Char) : List (String × Value) → List String
  | [] => []
  | (k, v) :: fs =>
    (if k.toList = key then v.asStr.toList else []) ++ (strings key v ++ stringsFields key fs)

end

/-- No character of a text is written with a backslash. -/
def Unescaped (s : List Char) : Prop := ∀ c ∈ s, escape c = [c]

mutual

/-- No key of the value is written with a backslash. -/
def Value.PlainKeys : Value → Prop
  | .arr vs => PlainItems vs
  | .obj fs => PlainFields fs
  | _ => True

def PlainItems : List Value → Prop
  | [] => True
  | v :: vs => v.PlainKeys ∧ PlainItems vs

def PlainFields : List (String × Value) → Prop
  | [] => True
  | (k, v) :: fs => Unescaped k.toList ∧ v.PlainKeys ∧ PlainFields fs

end

/-- What may stand behind a value in a text: nothing, a mark that ends it, or the end of a line. -/
def Behind (rest : List Char) : Prop :=
  ∀ c ∈ rest.head?, c = ',' ∨ c = ']' ∨ c = '\x7d' ∨ c = '\n'

/-- What a field adds to the strings under the key. -/
def fieldStrings (key : List Char) (k : String) (v : Value) : List String :=
  if k.toList = key then v.asStr.toList else []

/-! ## Where the strings are -/

section

variable {key : List Char} {s : String} {v w : Value} {k : String}

theorem stringsItems_cons (v : Value) (vs : List Value) :
    stringsItems key (v :: vs) = strings key v ++ stringsItems key vs := rfl

theorem stringsFields_cons (f : String × Value) (fs : List (String × Value)) :
    stringsFields key (f :: fs) =
      fieldStrings key f.1 f.2 ++ (strings key f.2 ++ stringsFields key fs) := rfl

theorem mem_strings_arr {vs : List Value} :
    s ∈ strings key (.arr vs) ↔ ∃ v ∈ vs, s ∈ strings key v := by
  show s ∈ stringsItems key vs ↔ _
  induction vs with
  | nil =>
    constructor
    · intro h
      cases h
    · rintro ⟨_, h, -⟩
      cases h
  | cons v vs ih => simp [stringsItems_cons, ih]

theorem mem_strings_obj {fs : List (String × Value)} :
    s ∈ strings key (.obj fs) ↔
      ∃ f ∈ fs, s ∈ fieldStrings key f.1 f.2 ∨ s ∈ strings key f.2 := by
  show s ∈ stringsFields key fs ↔ _
  induction fs with
  | nil =>
    constructor
    · intro h
      cases h
    · rintro ⟨_, h, -⟩
      cases h
  | cons f fs ih => simp [stringsFields_cons, ih, or_assoc]

theorem of_mem_object {fs : List (String × Value)} (h : s ∈ strings key (object fs)) :
    ∃ f ∈ fs, s ∈ fieldStrings key f.1 f.2 ∨ s ∈ strings key f.2 := by
  obtain ⟨f, hf, hs⟩ := mem_strings_obj.mp h
  exact ⟨f, mem_of_mem_ordered hf, hs⟩

/-- An object without the key whose fields hold no strings under it. -/
theorem not_mem_object {fs : List (String × Value)}
    (hKeys : (fs.map (·.1)).all (fun k => k.toList != key) = true)
    (h : ∀ f ∈ fs, s ∉ strings key f.2) : s ∉ strings key (object fs) := by
  intro hMem
  obtain ⟨f, hf, hOwn | hIn⟩ := of_mem_object hMem
  · have hNe := List.all_eq_true.mp hKeys f.1 (List.mem_map_of_mem hf)
    rw [fieldStrings, if_neg (by simpa using hNe)] at hOwn
    cases hOwn
  · exact h f hf hIn

theorem of_mem_set (h : s ∈ strings key (v.set k w)) :
    (s ∈ fieldStrings key k w ∨ s ∈ strings key w) ∨ s ∈ strings key v := by
  cases v with
  | obj fs =>
    obtain ⟨f, hf, hs⟩ := mem_strings_obj.mp h
    rcases mem_insertField hf with rfl | hf
    · exact .inl hs
    · exact .inr (mem_strings_obj.mpr ⟨f, hf, hs⟩)
  | null => exact .inr h
  | bool b => exact .inr h
  | int i => exact .inr h
  | float l => exact .inr h
  | str s => exact .inr h
  | arr vs => exact .inr h

theorem of_mem_remove (h : s ∈ strings key (v.remove k)) : s ∈ strings key v := by
  cases v with
  | obj fs =>
    obtain ⟨f, hf, hs⟩ := mem_strings_obj.mp h
    exact mem_strings_obj.mpr ⟨f, (List.mem_filter.mp hf).1, hs⟩
  | null => exact h
  | bool b => exact h
  | int i => exact h
  | float l => exact h
  | str s => exact h
  | arr vs => exact h

/-- The strings of a field are strings of the object. -/
theorem mem_of_get (hGet : v.get k = some w)
    (h : s ∈ fieldStrings key k w ∨ s ∈ strings key w) : s ∈ strings key v := by
  cases v with
  | obj fs =>
    rw [Value.get, Option.map_eq_some_iff] at hGet
    obtain ⟨f, hFind, rfl⟩ := hGet
    have hKey : f.1 = k := by simpa using List.find?_some hFind
    rw [← hKey] at h
    exact mem_strings_obj.mpr ⟨f, List.mem_of_find?_eq_some hFind, h⟩
  | null => cases hGet
  | bool b => cases hGet
  | int i => cases hGet
  | float l => cases hGet
  | str s => cases hGet
  | arr vs => cases hGet

end

/-! ## Plain keys -/

section

variable {v w : Value} {k : String}

theorem plainItems_cons (v : Value) (vs : List Value) :
    PlainItems (v :: vs) = (v.PlainKeys ∧ PlainItems vs) := rfl

theorem plainFields_cons (f : String × Value) (fs : List (String × Value)) :
    PlainFields (f :: fs) = (Unescaped f.1.toList ∧ f.2.PlainKeys ∧ PlainFields fs) := rfl

theorem plainKeys_arr {vs : List Value} : (Value.arr vs).PlainKeys ↔ ∀ v ∈ vs, v.PlainKeys := by
  show PlainItems vs ↔ _
  induction vs with
  | nil => exact ⟨fun _ v hv => absurd hv List.not_mem_nil, fun _ => trivial⟩
  | cons v vs ih => simp [plainItems_cons, ih]

theorem plainKeys_obj {fs : List (String × Value)} :
    (Value.obj fs).PlainKeys ↔ ∀ f ∈ fs, Unescaped f.1.toList ∧ f.2.PlainKeys := by
  show PlainFields fs ↔ _
  induction fs with
  | nil => exact ⟨fun _ f hf => absurd hf List.not_mem_nil, fun _ => trivial⟩
  | cons f fs ih => simp [plainFields_cons, ih, and_assoc]

theorem plainKeys_object {fs : List (String × Value)}
    (h : ∀ f ∈ fs, Unescaped f.1.toList ∧ f.2.PlainKeys) : (object fs).PlainKeys :=
  plainKeys_obj.mpr fun f hf => h f (mem_of_mem_ordered hf)

/-- Whether a key is written as it is. -/
def isPlainKey (k : String) : Bool := k.toList.all fun c => escape c == [c]

theorem unescaped_key (h : isPlainKey k = true) : Unescaped k.toList :=
  fun c hc => beq_iff_eq.mp (List.all_eq_true.mp h c hc)

theorem plainKeys_fields {fs : List (String × Value)}
    (hKeys : (fs.map (·.1)).all isPlainKey = true) (h : ∀ f ∈ fs, f.2.PlainKeys) :
    (object fs).PlainKeys :=
  plainKeys_object fun f hf =>
    ⟨unescaped_key (List.all_eq_true.mp hKeys f.1 (List.mem_map_of_mem hf)), h f hf⟩

@[simp] theorem plainKeys_str (s : String) : (Value.str s).PlainKeys := trivial

@[simp] theorem plainKeys_int (i : Int) : (Value.int i).PlainKeys := trivial

theorem plainKeys_set (hKey : Unescaped k.toList) (hv : v.PlainKeys) (hw : w.PlainKeys) :
    (v.set k w).PlainKeys := by
  cases v with
  | obj fs =>
    refine plainKeys_obj.mpr fun f hf => ?_
    rcases mem_insertField hf with rfl | hf
    · exact ⟨hKey, hw⟩
    · exact plainKeys_obj.mp hv f hf
  | null => exact hv
  | bool b => exact hv
  | int i => exact hv
  | float l => exact hv
  | str s => exact hv
  | arr vs => exact hv

theorem plainKeys_remove (h : v.PlainKeys) : (v.remove k).PlainKeys := by
  cases v with
  | obj fs => exact plainKeys_obj.mpr fun f hf => plainKeys_obj.mp h f (List.mem_filter.mp hf).1
  | null => exact h
  | bool b => exact h
  | int i => exact h
  | float l => exact h
  | str s => exact h
  | arr vs => exact h

theorem plainKeys_get (h : v.PlainKeys) (hGet : v.get k = some w) : w.PlainKeys := by
  cases v with
  | obj fs =>
    rw [Value.get, Option.map_eq_some_iff] at hGet
    obtain ⟨f, hFind, rfl⟩ := hGet
    exact (plainKeys_obj.mp h f (List.mem_of_find?_eq_some hFind)).2
  | null => cases hGet
  | bool b => cases hGet
  | int i => cases hGet
  | float l => cases hGet
  | str s => cases hGet
  | arr vs => cases hGet

end

/-! ## Escaped characters -/

theorem escape_cases (c : Char) :
    escape c = [c] ∧ c ≠ '"' ∧ c ≠ '\\' ∨ ∃ d t, escape c = '\\' :: d :: t := by
  rw [escape]
  split_ifs with h1 h2
  all_goals first
    | exact .inr ⟨_, _, rfl⟩
    | exact .inl ⟨rfl, h1, h2⟩

theorem Unescaped.not_mem {s : List Char} (h : Unescaped s) : '"' ∉ s := by
  intro hMem
  have hEscape := h _ hMem
  rw [escape, if_pos rfl] at hEscape
  cases hEscape

theorem Unescaped.flatMap {s : List Char} (h : Unescaped s) : s.flatMap escape = s := by
  induction s with
  | nil => rfl
  | cons c s ih =>
    rw [List.flatMap_cons, h c List.mem_cons_self,
      ih fun d hd => h d (List.mem_cons_of_mem _ hd)]
    rfl

/-- A string without a backslash in its text is taken as it is. -/
theorem Unescaped.scanned {s : List Char} (h : Unescaped s) : scanned s = s := by
  rw [Json.scanned, h.flatMap, List.takeWhile_eq_self_iff]
  intro c hc
  have hNe : c ≠ '"' := fun hEq => h.not_mem (hEq ▸ hc)
  simpa using hNe

/-- The characters of an escaped text are written as they are, but for quotes and backslashes. -/
theorem mem_escape {c d : Char} (h : d ∈ escape c) : d = '\\' ∨ d = '"' ∨ escape d = [d] := by
  rcases escape_cases c with ⟨hPlain, -⟩ | -
  · rw [hPlain, List.mem_singleton] at h
    rw [h]
    exact .inr (.inr hPlain)
  · have hPair : ∀ e, escape e = [e] → d ∈ ['\\', e] → d = '\\' ∨ d = '"' ∨ escape d = [d] := by
      intro e he hd
      rcases List.mem_pair.mp hd with rfl | rfl
      · exact .inl rfl
      · exact .inr (.inr he)
    rw [escape] at h
    split_ifs at h with h1 h2 h3 h4 h5 h6 h7 h8
    · rcases List.mem_pair.mp h with rfl | rfl
      · exact .inl rfl
      · exact .inr (.inl rfl)
    · rcases List.mem_pair.mp h with rfl | rfl <;> exact .inl rfl
    · exact hPair 'b' (by decide) h
    · exact hPair 'f' (by decide) h
    · exact hPair 'n' (by decide) h
    · exact hPair 'r' (by decide) h
    · exact hPair 't' (by decide) h
    · have hHex : ∀ m < 16, escape (hexDigit m) = [hexDigit m] := by decide
      simp only [List.mem_cons, List.not_mem_nil, or_false] at h
      rcases h with rfl | rfl | rfl | rfl | rfl | rfl
      · exact .inl rfl
      · exact .inr (.inr (by decide))
      · exact .inr (.inr (by decide))
      · exact .inr (.inr (by decide))
      · exact .inr (.inr (hHex _ (by omega)))
      · exact .inr (.inr (hHex _ (by omega)))
    · rw [List.mem_singleton] at h
      rw [h, escape, if_neg h1, if_neg h2, if_neg h3, if_neg h4, if_neg h5, if_neg h6, if_neg h7,
        if_neg h8]
      exact .inr (.inr rfl)

theorem quote_notMem_scanned (s : List Char) : '"' ∉ scanned s := by
  intro h
  have := List.mem_takeWhile_imp h
  simp at this

theorem mem_scanned {d : Char} {s : List Char} (h : d ∈ scanned s) :
    d = '\\' ∨ escape d = [d] := by
  obtain ⟨c, -, hc⟩ := List.mem_flatMap.mp ((List.takeWhile_sublist _).subset h)
  rcases mem_escape hc with hSlash | rfl | hPlain
  · exact .inl hSlash
  · exact absurd h (quote_notMem_scanned s)
  · exact .inr hPlain

theorem quote_notMem_flatMap {s : List Char} (h : '"' ∉ s) : '"' ∉ s.flatMap escape := by
  intro hMem
  obtain ⟨c, hc, hQuote⟩ := List.mem_flatMap.mp hMem
  have hNe : c ≠ '"' := fun hEq => h (hEq ▸ hc)
  rw [escape, if_neg hNe] at hQuote
  have hHex : ∀ m < 16, '"' ≠ hexDigit m := by decide
  split_ifs at hQuote
  all_goals simp [hNe.symm] at hQuote
  exact hQuote.elim (hHex _ (by omega)) (hHex _ (by omega))

/-- Backslashes are doubled. -/
theorem count_scanned {s : List Char} (hQuote : '"' ∉ s) (hSlash : '\\' ∈ s) :
    s.count '\\' < (scanned s).count '\\' := by
  have hWhole : scanned s = s.flatMap escape := by
    rw [scanned, List.takeWhile_eq_self_iff]
    intro c hc
    have hNe : c ≠ '"' := fun hEq => quote_notMem_flatMap hQuote (hEq ▸ hc)
    simpa using hNe
  have hCount : ∀ t : List Char, t.count '\\' ≤ (t.flatMap escape).count '\\' := by
    intro t
    induction t with
    | nil => simp
    | cons c t ih =>
      rw [List.flatMap_cons, List.count_append, List.count_cons]
      split
      · rename_i hEq
        rw [beq_iff_eq] at hEq
        have hTwo : (escape c).count '\\' = 2 := by rw [hEq]; decide
        omega
      · omega
  obtain ⟨a, b, rfl⟩ := List.append_of_mem hSlash
  have hTwo : (escape '\\').count '\\' = 2 := by decide
  have hFront := hCount a
  have hBack := hCount b
  rw [hWhole, List.flatMap_append, List.flatMap_cons]
  simp only [List.count_append, List.count_cons_self, hTwo]
  omega

/-! ## The pieces of a text -/

section

variable {key : List Char} {c : Char} {text : List Char}

theorem fieldMark_ne_nil : fieldMark key ≠ [] := List.cons_ne_nil _ _

theorem scan_nil : scan key [] = [] := by
  rw [scan, Search.splitAll, List.length_nil, Search.splitFuel]
  rfl

theorem scan_skip (h : ¬ fieldMark key <+: c :: text) : scan key (c :: text) = scan key text := by
  have hSome : Search.splitAll (fieldMark key) text ≠ [] := Search.splitAll_ne_nil fieldMark_ne_nil
  obtain ⟨first, rest, hPieces⟩ := List.exists_cons_of_ne_nil hSome
  rw [scan, scan, Search.splitAll_cons h hPieces, hPieces]
  rfl

/-- A mark begins with a quote. -/
theorem not_mark (h : c ≠ '"') : ¬ fieldMark key <+: c :: text :=
  fun hPrefix => h (List.cons_prefix_cons.mp hPrefix).1.symm

/-- No mark begins in a text without quotes. -/
theorem scan_free {front : List Char} (h : '"' ∉ front) :
    scan key (front ++ text) = scan key text := by
  induction front with
  | nil => rfl
  | cons c front ih =>
    rw [List.mem_cons, not_or] at h
    rw [List.cons_append, scan_skip (not_mark (Ne.symm h.1)), ih h.2]

theorem takeWhile_quote (a t : List Char) :
    (a ++ '"' :: t).takeWhile (· ≠ '"') = a.takeWhile (· ≠ '"') := by
  induction a with
  | nil => rfl
  | cons c a ih => rw [List.cons_append, List.takeWhile_cons, List.takeWhile_cons, ih]

/-- What stands behind a mark is taken up to the next quote. -/
theorem scan_mark : scan key (fieldMark key ++ text) =
    text.takeWhile (· ≠ '"') :: scan key text := by
  have hSplit : Search.splitOnce (fieldMark key) (fieldMark key ++ text) = some ([], text) := by
    have hPrefix := List.prefix_append (fieldMark key) text
    have hDrop : (fieldMark key ++ text).drop (fieldMark key).length = text := List.drop_left
    rw [fieldMark, List.cons_append] at hPrefix hDrop ⊢
    rw [Search.splitOnce, if_pos hPrefix, hDrop]
  rw [scan, scan, Search.splitAll_some fieldMark_ne_nil hSplit, List.tail_cons]
  cases hNext : Search.splitOnce (fieldMark key) text with
  | none =>
    rw [Search.splitAll_none hNext]
    rfl
  | some p =>
    have hText := Search.eq_of_splitOnce hNext
    rw [Search.splitAll_some fieldMark_ne_nil hNext, List.map_cons, List.tail_cons]
    rw [hText, fieldMark, List.append_assoc, List.cons_append, takeWhile_quote]

end

/-! ## Strings -/

section

variable {key : List Char} (hKey : ∀ c ∈ key, c.isAlphanum = true)

include hKey in
theorem quote_notMem : '"' ∉ key := fun h => absurd (hKey _ h) (by decide)

include hKey in
/-- The rest of a mark does not begin in a string that is no key. -/
theorem not_mark_string (s : List Char) {rest : List Char} (hRest : Behind rest) :
    ¬ (key ++ ['"', ':', '"']) <+: s.flatMap escape ++ '"' :: rest := by
  induction key generalizing s with
  | nil =>
    intro hPrefix
    cases s with
    | nil =>
      obtain ⟨t, hEq⟩ := (List.cons_prefix_cons.mp hPrefix).2
      have hHead : rest.head? = some ':' := by rw [← hEq]; rfl
      rcases hRest ':' hHead with h | h | h | h <;> exact absurd h (by decide)
    | cons c s =>
      rw [List.flatMap_cons, List.append_assoc] at hPrefix
      rcases escape_cases c with ⟨hPlain, hQuote, -⟩ | ⟨d, t, hEscape⟩
      · rw [hPlain] at hPrefix
        exact hQuote (List.cons_prefix_cons.mp hPrefix).1.symm
      · rw [hEscape] at hPrefix
        exact absurd (List.cons_prefix_cons.mp hPrefix).1 (by decide)
  | cons k key ih =>
    intro hPrefix
    have hAlphanum := hKey k List.mem_cons_self
    rw [List.cons_append] at hPrefix
    cases s with
    | nil =>
      have hEq : k = '"' := (List.cons_prefix_cons.mp hPrefix).1
      rw [hEq] at hAlphanum
      exact absurd hAlphanum (by decide)
    | cons c s =>
      rw [List.flatMap_cons, List.append_assoc] at hPrefix
      rcases escape_cases c with ⟨hPlain, -, -⟩ | ⟨d, t, hEscape⟩
      · rw [hPlain] at hPrefix
        exact ih (fun c hc => hKey c (List.mem_cons_of_mem _ hc)) s
          (List.cons_prefix_cons.mp hPrefix).2
      · rw [hEscape] at hPrefix
        have hEq : k = '\\' := (List.cons_prefix_cons.mp hPrefix).1
        rw [hEq] at hAlphanum
        exact absurd hAlphanum (by decide)

include hKey in
/-- No mark begins behind the last character of a string. -/
theorem not_mark_behind (hNil : key ≠ []) {rest : List Char} (hRest : Behind rest) :
    ¬ fieldMark key <+: '"' :: rest := by
  intro hPrefix
  obtain ⟨k, key, rfl⟩ := List.exists_cons_of_ne_nil hNil
  obtain ⟨t, hEq⟩ := (List.cons_prefix_cons.mp hPrefix).2
  have hHead : rest.head? = some k := by rw [← hEq]; rfl
  have hAlphanum := hKey k List.mem_cons_self
  rcases hRest k hHead with rfl | rfl | rfl | rfl <;> exact absurd hAlphanum (by decide)

include hKey in
/-- No mark begins in a string, up to its closing quote. -/
theorem scan_body (hNil : key ≠ []) (s : List Char) {rest : List Char} (hRest : Behind rest) :
    scan key (s.flatMap escape ++ '"' :: rest) = scan key rest := by
  induction s with
  | nil => exact scan_skip (not_mark_behind hKey hNil hRest)
  | cons c s ih =>
    rw [List.flatMap_cons, List.append_assoc, ← ih]
    by_cases hQuote : c = '"'
    · have hEscape : escape c = ['\\', '"'] := by rw [hQuote]; rfl
      have hSkip : ¬ fieldMark key <+: '"' :: (s.flatMap escape ++ '"' :: rest) := fun hPrefix =>
        not_mark_string hKey s hRest (List.cons_prefix_cons.mp hPrefix).2
      rw [hEscape]
      exact (scan_skip (not_mark (by decide))).trans (scan_skip hSkip)
    · refine scan_free ?_
      rw [escape, if_neg hQuote]
      split_ifs
      · decide
      · decide
      · decide
      · decide
      · decide
      · decide
      · have hHex : ∀ m < 16, hexDigit m ≠ '"' := by decide
        have hHigh := hHex (c.toNat / 16) (by omega)
        have hLow := hHex (c.toNat % 16) (by omega)
        simp [hHigh.symm, hLow.symm]
      · simpa using Ne.symm hQuote

include hKey in
/-- No mark begins in a string that is no key. -/
theorem scan_string (hNil : key ≠ []) (s : String) {rest : List Char} (hRest : Behind rest) :
    scan key (quoted s ++ rest) = scan key rest := by
  have hText : quoted s ++ rest = '"' :: (s.toList.flatMap escape ++ '"' :: rest) := by
    simp [quoted]
  have hSkip : ¬ fieldMark key <+: '"' :: (s.toList.flatMap escape ++ '"' :: rest) :=
    fun hPrefix => not_mark_string hKey s.toList hRest (List.cons_prefix_cons.mp hPrefix).2
  rw [hText, scan_skip hSkip, scan_body hKey hNil s.toList hRest]

end

/-! ## Values -/

section

variable {key : List Char} (hKey : ∀ c ∈ key, c.isAlphanum = true) (hNil : key ≠ [])

theorem behind_nil : Behind [] := by simp [Behind]

theorem behind_cons {c : Char} {rest : List Char}
    (h : c = ',' ∨ c = ']' ∨ c = '\x7d' ∨ c = '\n') : Behind (c :: rest) := by
  intro d hd
  rw [List.head?_cons, Option.mem_some_iff] at hd
  exact hd ▸ h

theorem behind_items (vs : List Value) (rest : List Char) : Behind (charsItems vs ++ rest) := by
  cases vs with
  | nil => exact behind_cons (.inr (.inl rfl))
  | cons v vs => exact behind_cons (.inl rfl)

theorem behind_fields (fs : List (String × Value)) (rest : List Char) :
    Behind (charsFields fs ++ rest) := by
  cases fs with
  | nil => exact behind_cons (.inr (.inr (.inl rfl)))
  | cons f fs => exact behind_cons (.inl rfl)

theorem integer_free (i : Int) : '"' ∉ integer i := by
  have hDigits : ∀ n : Nat, '"' ∉ Nat.toDigits 10 n :=
    fun n hMem => absurd (isDigit_toDigits _ hMem) (by decide)
  rw [integer]
  split_ifs
  · rw [List.mem_cons, not_or]
    exact ⟨by decide, hDigits _⟩
  · exact hDigits _

/-- Only a string begins with a quote. -/
theorem quote_chars {v : Value} (h : v.Wf) {tail rest : List Char}
    (hText : chars v ++ rest = '"' :: tail) : ∃ s, v = .str s := by
  cases v with
  | null => cases hText
  | bool b => cases b <;> cases hText
  | int i =>
    obtain ⟨c, cs, hcs, -, hMarks⟩ := integer_cons i
    rw [chars, hcs, List.cons_append, List.cons.injEq] at hText
    exact absurd hText.1 (hMarks '"' (by simp))
  | float _ => exact h.elim
  | str s => exact ⟨s, rfl⟩
  | arr vs => cases vs <;> cases hText
  | obj fs => rcases fs with _ | ⟨⟨k, v⟩, fs⟩ <;> cases hText

include hKey hNil in
/-- A field, when what is behind its colon is known. -/
theorem scan_field {k : String} {v : Value} (hPlain : Unescaped k.toList) (hWf : v.Wf)
    {rest : List Char} {found : List (List Char)} (hRest : Behind rest)
    (hValue : scan key (chars v ++ rest) = found ++ scan key rest)
    (hOwn : ∀ s, v = .str s → found = []) :
    scan key (quoted k ++ ':' :: (chars v ++ rest)) =
      (fieldStrings key k v).map (scanned ·.toList) ++ found ++ scan key rest := by
  have hQuoted : quoted k = '"' :: (k.toList ++ ['"']) := by
    rw [quoted, hPlain.flatMap]
    rfl
  by_cases hString : k.toList = key ∧ ∃ s, v = .str s
  · obtain ⟨hSame, s, rfl⟩ := hString
    have hText : quoted k ++ ':' :: (chars (.str s) ++ rest) =
        fieldMark key ++ (s.toList.flatMap escape ++ '"' :: rest) := by
      rw [hQuoted, chars, quoted, hSame]
      simp [fieldMark]
    rw [hText, scan_mark, takeWhile_quote, scan_body hKey hNil s.toList hRest, hOwn s rfl,
      fieldStrings, if_pos hSame]
    rfl
  · have hNone : fieldStrings key k v = [] := by
      rw [fieldStrings]
      split
      · rename_i hSame
        cases v with
        | str s => exact absurd ⟨hSame, s, rfl⟩ hString
        | null => rfl
        | bool b => rfl
        | int i => rfl
        | float l => rfl
        | arr vs => rfl
        | obj fs => rfl
      · rfl
    have hOpen : ¬ fieldMark key <+: '"' :: (k.toList ++ '"' :: ':' :: (chars v ++ rest)) := by
      intro hPrefix
      have hRest := (List.cons_prefix_cons.mp hPrefix).2
      have hShort : key ++ ['"'] <+: k.toList ++ '"' :: ':' :: (chars v ++ rest) := by
        refine List.IsPrefix.trans ?_ hRest
        exact ⟨[':', '"'], by simp⟩
      have hSame := (Search.segment_prefix _ (quote_notMem hKey) hPlain.not_mem).mp hShort
      rw [hSame, List.prefix_append_right_inj] at hRest
      obtain ⟨t, hEq⟩ := hRest
      have hText : chars v ++ rest = '"' :: t := by simpa using hEq.symm
      exact hString ⟨hSame.symm, quote_chars hWf hText⟩
    have hClose : ¬ fieldMark key <+: '"' :: ':' :: (chars v ++ rest) := by
      intro hPrefix
      obtain ⟨c, key', rfl⟩ := List.exists_cons_of_ne_nil hNil
      have hColon := (List.cons_prefix_cons.mp (List.cons_prefix_cons.mp hPrefix).2).1
      have hAlphanum := hKey c List.mem_cons_self
      rw [hColon] at hAlphanum
      exact absurd hAlphanum (by decide)
    have hText : quoted k ++ ':' :: (chars v ++ rest) =
        '"' :: (k.toList ++ '"' :: ':' :: (chars v ++ rest)) := by
      simp [hQuoted]
    rw [hText, scan_skip hOpen, scan_free hPlain.not_mem, scan_skip hClose,
      scan_skip (not_mark (by decide)), hValue, hNone]
    rfl

mutual

/-- A search finds the strings under the key and nothing else. -/
theorem scan_chars (hKey : ∀ c ∈ key, c.isAlphanum = true) (hNil : key ≠ []) (v : Value)
    (h : v.Wf) (hPlain : v.PlainKeys) {rest : List Char} (hRest : Behind rest) :
    scan key (chars v ++ rest) = (strings key v).map (scanned ·.toList) ++ scan key rest := by
  cases v with
  | null => exact scan_free (by rw [chars]; decide)
  | bool b => cases b <;> exact scan_free (by rw [chars]; decide)
  | int i => exact scan_free (by rw [chars]; exact integer_free i)
  | float _ => exact h.elim
  | str s =>
    rw [chars, scan_string hKey hNil s hRest]
    rfl
  | arr vs =>
    cases vs with
    | nil => exact scan_free (by rw [chars]; decide)
    | cons v vs =>
      rw [chars, List.cons_append, scan_skip (not_mark (by decide)), List.append_assoc,
        scan_chars hKey hNil v h.1 hPlain.1 (behind_items vs rest),
        scan_items hKey hNil vs h.2 hPlain.2 hRest, strings, stringsItems, List.map_append, List.append_assoc]
  | obj fs =>
    rw [Value.Wf] at h
    cases fs with
    | nil => exact scan_free (by rw [chars]; decide)
    | cons p fs =>
      obtain ⟨k, v⟩ := p
      have hField := scan_field hKey hNil (k := k) hPlain.1 h.2.1 (behind_fields fs rest)
        (scan_chars hKey hNil v h.2.1 hPlain.2.1 (behind_fields fs rest)) fun s hs => by
          rw [hs]
          rfl
      rw [chars, List.cons_append, scan_skip (not_mark (by decide)), List.append_assoc,
        List.cons_append, List.append_assoc, hField,
        scan_fields hKey hNil fs h.2.2 hPlain.2.2 hRest, strings, stringsFields, List.map_append, List.map_append, fieldStrings]
      simp only [List.append_assoc]

theorem scan_items (hKey : ∀ c ∈ key, c.isAlphanum = true) (hNil : key ≠ [])
    (vs : List Value) (h : WfItems vs) (hPlain : PlainItems vs) {rest : List Char}
    (hRest : Behind rest) :
    scan key (charsItems vs ++ rest) =
      (stringsItems key vs).map (scanned ·.toList) ++ scan key rest := by
  cases vs with
  | nil => exact scan_free (by rw [charsItems]; decide)
  | cons v vs =>
    rw [charsItems, List.cons_append, scan_skip (not_mark (by decide)), List.append_assoc,
      scan_chars hKey hNil v h.1 hPlain.1 (behind_items vs rest),
      scan_items hKey hNil vs h.2 hPlain.2 hRest, stringsItems, List.map_append, List.append_assoc]

theorem scan_fields (hKey : ∀ c ∈ key, c.isAlphanum = true) (hNil : key ≠ [])
    (fs : List (String × Value)) (h : WfFields fs) (hPlain : PlainFields fs) {rest : List Char}
    (hRest : Behind rest) :
    scan key (charsFields fs ++ rest) =
      (stringsFields key fs).map (scanned ·.toList) ++ scan key rest := by
  cases fs with
  | nil => exact scan_free (by rw [charsFields]; decide)
  | cons p fs =>
    obtain ⟨k, v⟩ := p
    have hField := scan_field hKey hNil (k := k) hPlain.1 h.1 (behind_fields fs rest)
      (scan_chars hKey hNil v h.1 hPlain.2.1 (behind_fields fs rest)) fun s hs => by
        rw [hs]
        rfl
    rw [charsFields, List.cons_append, scan_skip (not_mark (by decide)), List.append_assoc,
      List.cons_append, List.append_assoc, hField, scan_fields hKey hNil fs h.2 hPlain.2.2 hRest,
      stringsFields, List.map_append, List.map_append, fieldStrings]
    simp only [List.append_assoc]

end

end

end Json
