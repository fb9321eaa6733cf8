import Mathlib.Algebra.Group.Int.Defs
import Mathlib.Data.List.Basic
import Mathlib.Data.List.Induction
import Mathlib.Data.String.Basic

/-!
# JSON values and their text

A value is a tree; an object is the list of its fields. `object` builds one as an ordered map
does: fields in key order, a later field in the place of an earlier one of the same key.
`Value.Wf` are the values such a library holds: every object in strict key order, every integer
of 64 bits.

`Text` is what a library for JSON promises: a well-formed value that is written is read back, on
one line. `text` is such a library, with the compact output and the grammar of RFC 8259.
-/

namespace Json

/-- A value. A number that is not an integer is known by its text only. -/
inductive Value
  | null
  | bool (b : Bool)
  | int (i : Int)
  | float (literal : String)
  | str (s : String)
  | arr (items : List Value)
  | obj (fields : List (String × Value))

/-- A field put into an object in key order. -/
def insertField (k : String) (v : Value) : List (String × Value) → List (String × Value)
  | [] => [(k, v)]
  | (k', v') :: rest =>
    if k < k' then (k, v) :: (k', v') :: rest
    else if k = k' then (k, v) :: rest
    else (k', v') :: insertField k v rest

/-- The fields of an ordered map filled in the order given. -/
def ordered (fields : List (String × Value)) : List (String × Value) :=
  fields.foldl (fun acc f => insertField f.1 f.2 acc) []

def object (fields : List (String × Value)) : Value := .obj (ordered fields)

namespace Value

/-- The value under a key, none for a value that is no object. -/
def get (key : String) : Value → Option Value
  | .obj fields => (fields.find? (·.1 == key)).map (·.2)
  | _ => none

def asStr : Value → Option String
  | .str s => some s
  | _ => none

def asArray : Value → Option (List Value)
  | .arr items => some items
  | _ => none

def asBool : Value → Option Bool
  | .bool b => some b
  | _ => none

/-- An object without a key, any other value as it is. -/
def remove (key : String) : Value → Value
  | .obj fields => .obj (fields.filter (·.1 != key))
  | v => v

/-- An object with a field set, any other value as it is. -/
def set (v : Value) (key : String) (new : Value) : Value :=
  match v with
  | .obj fields => .obj (insertField key new fields)
  | v => v

end Value

/-! ## Well-formed values -/

mutual

def Value.Wf : Value → Prop
  | .null => True
  | .bool _ => True
  | .int i => -2 ^ 63 ≤ i ∧ i < 2 ^ 64
  | .float _ => False
  | .str _ => True
  | .arr items => WfItems items
  | .obj fields => (fields.map (·.1)).Pairwise (· < ·) ∧ WfFields fields

def WfItems : List Value → Prop
  | [] => True
  | v :: vs => v.Wf ∧ WfItems vs

def WfFields : List (String × Value) → Prop
  | [] => True
  | (_, v) :: fs => v.Wf ∧ WfFields fs

end

theorem wfItems_iff {vs : List Value} : WfItems vs ↔ ∀ v ∈ vs, v.Wf := by
  induction vs with
  | nil => simp [WfItems]
  | cons v vs ih => simp [WfItems, ih]

theorem wfFields_iff {fs : List (String × Value)} : WfFields fs ↔ ∀ f ∈ fs, f.2.Wf := by
  induction fs with
  | nil => simp [WfFields]
  | cons f fs ih => simp [WfFields, ih]

@[simp] theorem wf_str (s : String) : (Value.str s).Wf := by simp [Value.Wf]

@[simp] theorem wf_bool (b : Bool) : (Value.bool b).Wf := by simp [Value.Wf]

theorem wf_arr {vs : List Value} : (Value.arr vs).Wf ↔ ∀ v ∈ vs, v.Wf := by
  rw [Value.Wf, wfItems_iff]

theorem wf_obj {fs : List (String × Value)} :
    (Value.obj fs).Wf ↔ (fs.map (·.1)).Pairwise (· < ·) ∧ ∀ f ∈ fs, f.2.Wf := by
  rw [Value.Wf, wfFields_iff]

/-! ## Ordered fields -/

theorem mem_insertField {k : String} {v : Value} {fs : List (String × Value)}
    {f : String × Value} (h : f ∈ insertField k v fs) : f = (k, v) ∨ f ∈ fs := by
  induction fs with
  | nil => simpa [insertField] using h
  | cons g fs ih =>
    rw [insertField] at h
    split_ifs at h with h1 h2
    · simpa using h
    · rcases List.mem_cons.mp h with h | h
      · exact .inl h
      · exact .inr (List.mem_cons_of_mem _ h)
    · rcases List.mem_cons.mp h with h | h
      · exact .inr (h ▸ List.mem_cons_self)
      · exact (ih h).imp_right (List.mem_cons_of_mem _)

theorem sorted_insertField {k : String} {v : Value} {fs : List (String × Value)}
    (h : (fs.map (·.1)).Pairwise (· < ·)) :
    ((insertField k v fs).map (·.1)).Pairwise (· < ·) := by
  induction fs with
  | nil => simp [insertField]
  | cons g fs ih =>
    obtain ⟨k', v'⟩ := g
    rw [List.map_cons, List.pairwise_cons] at h
    rw [insertField]
    split_ifs with h1 h2
    · simp only [List.map_cons]
      refine List.pairwise_cons.mpr ⟨?_, List.pairwise_cons.mpr h⟩
      intro a ha
      rcases List.mem_cons.mp ha with rfl | ha
      · exact h1
      · exact lt_trans h1 (h.1 a ha)
    · subst h2
      rw [List.map_cons, List.pairwise_cons]
      exact h
    · rw [List.map_cons, List.pairwise_cons]
      refine ⟨?_, ih h.2⟩
      intro a ha
      obtain ⟨f, hf, rfl⟩ := List.mem_map.mp ha
      rcases mem_insertField hf with rfl | hf
      · exact lt_of_le_of_ne (not_lt.mp h1) (Ne.symm h2)
      · exact h.1 _ (List.mem_map_of_mem hf)

theorem foldl_insertField_sorted {fs acc : List (String × Value)}
    (h : (acc.map (·.1)).Pairwise (· < ·)) :
    ((fs.foldl (fun acc f => insertField f.1 f.2 acc) acc).map (·.1)).Pairwise (· < ·) := by
  induction fs generalizing acc with
  | nil => exact h
  | cons f fs ih => exact ih (sorted_insertField h)

theorem foldl_insertField_mem {fs acc : List (String × Value)} {f : String × Value}
    (h : f ∈ fs.foldl (fun acc f => insertField f.1 f.2 acc) acc) : f ∈ fs ∨ f ∈ acc := by
  induction fs generalizing acc with
  | nil => exact .inr h
  | cons g fs ih =>
    rcases ih h with h | h
    · exact .inl (List.mem_cons_of_mem _ h)
    · rcases mem_insertField h with rfl | h
      · exact .inl List.mem_cons_self
      · exact .inr h

theorem ordered_sorted (fs : List (String × Value)) :
    ((ordered fs).map (·.1)).Pairwise (· < ·) :=
  foldl_insertField_sorted List.Pairwise.nil

theorem mem_of_mem_ordered {fs : List (String × Value)} {f : String × Value}
    (h : f ∈ ordered fs) : f ∈ fs := by
  rcases foldl_insertField_mem h with h | h
  · exact h
  · cases h

theorem wf_object {fs : List (String × Value)} (h : ∀ f ∈ fs, f.2.Wf) : (object fs).Wf :=
  wf_obj.mpr ⟨ordered_sorted fs, fun f hf => h f (mem_of_mem_ordered hf)⟩

theorem wf_set {v new : Value} (key : String) (h : v.Wf) (hNew : new.Wf) : (v.set key new).Wf := by
  cases v with
  | obj fs =>
    obtain ⟨hSorted, hFields⟩ := wf_obj.mp h
    refine wf_obj.mpr ⟨sorted_insertField hSorted, fun f hf => ?_⟩
    rcases mem_insertField hf with rfl | hf
    · exact hNew
    · exact hFields f hf
  | null => exact h
  | bool b => exact h
  | int i => exact h
  | float l => exact h
  | str s => exact h
  | arr vs => exact h

theorem wf_remove {v : Value} (key : String) (h : v.Wf) : (v.remove key).Wf := by
  cases v with
  | obj fs =>
    obtain ⟨hSorted, hFields⟩ := wf_obj.mp h
    refine wf_obj.mpr ⟨?_, fun f hf => hFields f (List.mem_filter.mp hf).1⟩
    exact hSorted.sublist (List.filter_sublist.map _)
  | null => exact h
  | bool b => exact h
  | int i => exact h
  | float l => exact h
  | str s => exact h
  | arr vs => exact h

theorem wf_get {v w : Value} {key : String} (h : v.Wf) (hGet : v.get key = some w) : w.Wf := by
  cases v with
  | obj fs =>
    rw [Value.get, Option.map_eq_some_iff] at hGet
    obtain ⟨f, hFind, rfl⟩ := hGet
    exact (wf_obj.mp h).2 f (List.mem_of_find?_eq_some hFind)
  | null => cases hGet
  | bool b => cases hGet
  | int i => cases hGet
  | float l => cases hGet
  | str s => cases hGet
  | arr vs => cases hGet

/-- A field behind all others goes to the end. -/
theorem insertField_last {k : String} {v : Value} {fs : List (String × Value)}
    (h : ∀ f ∈ fs, f.1 < k) : insertField k v fs = fs ++ [(k, v)] := by
  induction fs with
  | nil => rfl
  | cons g fs ih =>
    obtain ⟨k', v'⟩ := g
    have hg : k' < k := h _ List.mem_cons_self
    rw [insertField, if_neg (not_lt.mpr hg.le), if_neg hg.ne', ih fun f hf =>
      h f (List.mem_cons_of_mem _ hf)]
    rfl

theorem foldl_insertField_eq {fs acc : List (String × Value)}
    (h : ((acc ++ fs).map (·.1)).Pairwise (· < ·)) :
    fs.foldl (fun acc f => insertField f.1 f.2 acc) acc = acc ++ fs := by
  induction fs generalizing acc with
  | nil => exact (List.append_nil acc).symm
  | cons f fs ih =>
    have hLast : ∀ g ∈ acc, g.1 < f.1 := by
      intro g hg
      rw [List.map_append, List.pairwise_append] at h
      exact h.2.2 _ (List.mem_map_of_mem hg) _ (by simp)
    rw [List.foldl_cons, insertField_last hLast, ih (by simpa using h), List.append_assoc]
    rfl

/-- Fields in key order are kept as they are. -/
theorem ordered_eq {fs : List (String × Value)} (h : (fs.map (·.1)).Pairwise (· < ·)) :
    ordered fs = fs :=
  foldl_insertField_eq (by simpa using h)

theorem find_insertField (k : String) (v : Value) (fs : List (String × Value)) (key : String) :
    (insertField k v fs).find? (·.1 == key) =
      if k = key then some (k, v) else fs.find? (·.1 == key) := by
  induction fs with
  | nil => by_cases h : k = key <;> simp [insertField, h]
  | cons g fs ih =>
    obtain ⟨k', v'⟩ := g
    rw [insertField]
    split_ifs with h1 h2 h3 h4 h5
    · simp [h2]
    · simp [h2]
    · simp [h4]
    · subst h3
      simp [h4]
    · subst h5
      have hNe : (k' == k) = false := by simpa using Ne.symm h3
      rw [List.find?_cons, hNe, ih, if_pos rfl]
    · rw [List.find?_cons, List.find?_cons, ih, if_neg h5]

/-- The last field under a key is the one an ordered map holds. -/
theorem find_ordered (fs : List (String × Value)) (key : String) :
    (ordered fs).find? (·.1 == key) = fs.reverse.find? (·.1 == key) := by
  induction fs using List.reverseRecOn with
  | nil => rfl
  | append_singleton fs f ih =>
    rw [ordered, List.foldl_concat, ← ordered, find_insertField, List.reverse_concat,
      List.find?_cons, ih]
    by_cases h : f.1 = key
    · subst h
      simp
    · have hNe : (f.1 == key) = false := by simpa using h
      rw [if_neg h, hNe]

/-- A field of an object is the last one given under its key. -/
theorem get_object (fs : List (String × Value)) (key : String) :
    (object fs).get key = (fs.reverse.find? (·.1 == key)).map (·.2) := by
  rw [object, Value.get, find_ordered]

/-! ## The text of a value -/

def hexDigit (n : Nat) : Char := if n < 10 then Char.ofNat (48 + n) else Char.ofNat (87 + n)

def escape (c : Char) : List Char :=
  if c = '"' then ['\\', '"']
  else if c = '\\' then ['\\', '\\']
  else if c.toNat = 0x08 then ['\\', 'b']
  else if c.toNat = 0x0C then ['\\', 'f']
  else if c = '\n' then ['\\', 'n']
  else if c = '\r' then ['\\', 'r']
  else if c = '\t' then ['\\', 't']
  else if c.toNat < 0x20 then
    ['\\', 'u', '0', '0', hexDigit (c.toNat / 16), hexDigit (c.toNat % 16)]
  else [c]

def quoted (s : String) : List Char := '"' :: s.toList.flatMap escape ++ ['"']

def integer (i : Int) : List Char :=
  if i < 0 then '-' :: Nat.toDigits 10 i.natAbs else Nat.toDigits 10 i.natAbs

mutual

def chars : Value → List Char
  | .null => ['n', 'u', 'l', 'l']
  | .bool true => ['t', 'r', 'u', 'e']
  | .bool false => ['f', 'a', 'l', 's', 'e']
  | .int i => integer i
  | .float literal => literal.toList
  | .str s => quoted s
  | .arr [] => ['[', ']']
  | .arr (v :: vs) => '[' :: (chars v ++ charsItems vs)
  | .obj [] => ['\x7b', '\x7d']
  | .obj ((k, v) :: fs) => '\x7b' :: (quoted k ++ ':' :: (chars v ++ charsFields fs))

/-- What follows the first item of an array. -/
def charsItems : List Value → List Char
  | [] => [']']
  | v :: vs => ',' :: (chars v ++ charsItems vs)

/-- What follows the first field of an object. -/
def charsFields : List (String × Value) → List Char
  | [] => ['\x7d']
  | (k, v) :: fs => ',' :: (quoted k ++ ':' :: (chars v ++ charsFields fs))

end

/-! ## Reading -/

def isSpace (c : Char) : Bool := c == ' ' || c == '\t' || c == '\n' || c == '\r'

def skip (cs : List Char) : List Char := cs.dropWhile isSpace

def hexValue (c : Char) : Option Nat :=
  if '0' ≤ c ∧ c ≤ '9' then some (c.toNat - 48)
  else if 'a' ≤ c ∧ c ≤ 'f' then some (c.toNat - 87)
  else if 'A' ≤ c ∧ c ≤ 'F' then some (c.toNat - 55)
  else none

def codeUnit (a b c d : Char) : Option Nat := do
  let a ← hexValue a
  let b ← hexValue b
  let c ← hexValue c
  let d ← hexValue d
  return ((a * 16 + b) * 16 + c) * 16 + d

/-- The second half of a pair of surrogates. -/
def lowUnit (high : Nat) : List Char → Option (Char × List Char)
  | '\\' :: 'u' :: a :: b :: c :: d :: rest => (codeUnit a b c d).bind fun low =>
    if high ≤ 0xDBFF ∧ 0xDC00 ≤ low ∧ low ≤ 0xDFFF then
      some (Char.ofNat (0x10000 + (high - 0xD800) * 0x400 + (low - 0xDC00)), rest)
    else none
  | _ => none

/-- A one-letter escape. -/
def unescape (c : Char) : Option Char :=
  if c = '"' ∨ c = '\\' ∨ c = '/' then some c
  else if c = 'b' then some (Char.ofNat 0x08)
  else if c = 'f' then some (Char.ofNat 0x0C)
  else if c = 'n' then some '\n'
  else if c = 'r' then some '\r'
  else if c = 't' then some '\t'
  else none

/-- What stands after a backslash. -/
def escaped : List Char → Option (Char × List Char)
  | 'u' :: a :: b :: c :: d :: rest => (codeUnit a b c d).bind fun unit =>
    if 0xD800 ≤ unit ∧ unit ≤ 0xDFFF then lowUnit unit rest else some (Char.ofNat unit, rest)
  | c :: rest => (unescape c).map fun ch => (ch, rest)
  | [] => none

/-- The characters of a string up to its closing quote, and what follows. -/
def stringBody : Nat → List Char → Option (List Char × List Char)
  | 0, _ => none
  | _ + 1, [] => none
  | fuel + 1, c :: rest =>
    if c = '"' then some ([], rest)
    else if c = '\\' then
      (escaped rest).bind fun p => (stringBody fuel p.2).map fun q => (p.1 :: q.1, q.2)
    else if c.toNat < 0x20 then none
    else (stringBody fuel rest).map fun q => (c :: q.1, q.2)

/-- A run of digits, `none` if there is none. -/
def digits (cs : List Char) : Option (List Char × List Char) :=
  if cs.takeWhile Char.isDigit = [] then none
  else some (cs.takeWhile Char.isDigit, cs.dropWhile Char.isDigit)

/-- The fraction of a number, empty if there is none. -/
def fraction : List Char → Option (List Char × List Char)
  | '.' :: rest => (digits rest).map fun p => ('.' :: p.1, p.2)
  | rest => some ([], rest)

def exponentSign : List Char → List Char × List Char
  | '+' :: rest => (['+'], rest)
  | '-' :: rest => (['-'], rest)
  | rest => ([], rest)

/-- The exponent of a number, empty if there is none. -/
def exponent : List Char → Option (List Char × List Char)
  | c :: rest =>
    if c = 'e' ∨ c = 'E' then
      (digits (exponentSign rest).2).map fun p => (c :: (exponentSign rest).1 ++ p.1, p.2)
    else some ([], c :: rest)
  | [] => some ([], [])

/-- A number without its sign. An integer of more than 64 bits, and minus zero, are no integers
of the library. -/
def unsigned (negative : Bool) (cs : List Char) : Option (Value × List Char) :=
  (digits cs).bind fun whole =>
    if 1 < whole.1.length ∧ whole.1.head? = some '0' then none
    else (fraction whole.2).bind fun frac => (exponent frac.2).map fun exp =>
      let n := Nat.ofDigitChars 10 whole.1 0
      let i : Int := if negative then -n else n
      if frac.1 = [] ∧ exp.1 = [] ∧ -2 ^ 63 ≤ i ∧ i < 2 ^ 64 ∧ ¬(negative ∧ n = 0) then
        (.int i, exp.2)
      else
        (.float (String.ofList ((if negative then ['-'] else []) ++ whole.1 ++ frac.1 ++ exp.1)),
          exp.2)

def number : List Char → Option (Value × List Char)
  | c :: rest => if c = '-' then unsigned true rest else unsigned false (c :: rest)
  | [] => none

/-- A fixed word. -/
def word (w : List Char) (v : Value) (cs : List Char) : Option (Value × List Char) :=
  if w.isPrefixOf cs then some (v, cs.drop w.length) else none

mutual

def value : Nat → List Char → Option (Value × List Char)
  | 0, _ => none
  | fuel + 1, cs =>
    match skip cs with
    | [] => none
    | c :: rest =>
      if c = 'n' then word ['n', 'u', 'l', 'l'] .null (c :: rest)
      else if c = 't' then word ['t', 'r', 'u', 'e'] (.bool true) (c :: rest)
      else if c = 'f' then word ['f', 'a', 'l', 's', 'e'] (.bool false) (c :: rest)
      else if c = '"' then
        (stringBody rest.length rest).map fun p => (.str (String.ofList p.1), p.2)
      else if c = '[' then
        if (skip rest).head? = some ']' then some (.arr [], (skip rest).drop 1)
        else (value fuel rest).bind fun p =>
          (items fuel p.2).map fun q => (.arr (p.1 :: q.1), q.2)
      else if c = '\x7b' then
        if (skip rest).head? = some '\x7d' then some (object [], (skip rest).drop 1)
        else (field fuel rest).bind fun p =>
          (fields fuel p.2).map fun q => (object (p.1 :: q.1), q.2)
      else number (c :: rest)

/-- The items behind the first one. -/
def items : Nat → List Char → Option (List Value × List Char)
  | 0, _ => none
  | fuel + 1, cs =>
    match skip cs with
    | [] => none
    | c :: rest =>
      if c = ']' then some ([], rest)
      else if c = ',' then (value fuel rest).bind fun p =>
        (items fuel p.2).map fun q => (p.1 :: q.1, q.2)
      else none

def field : Nat → List Char → Option ((String × Value) × List Char)
  | 0, _ => none
  | fuel + 1, cs =>
    match skip cs with
    | [] => none
    | c :: rest =>
      if c = '"' then (stringBody rest.length rest).bind fun k =>
        if (skip k.2).head? = some ':' then
          (value fuel ((skip k.2).drop 1)).map fun p => ((String.ofList k.1, p.1), p.2)
        else none
      else none

/-- The fields behind the first one. -/
def fields : Nat → List Char → Option (List (String × Value) × List Char)
  | 0, _ => none
  | fuel + 1, cs =>
    match skip cs with
    | [] => none
    | c :: rest =>
      if c = '\x7d' then some ([], rest)
      else if c = ',' then (field fuel rest).bind fun p =>
        (fields fuel p.2).map fun q => (p.1 :: q.1, q.2)
      else none

end

/-- A text that is one value, with space around it at most. -/
def parse (s : String) : Option Value :=
  (value (s.toList.length + 1) s.toList).bind fun p =>
    if skip p.2 = [] then some p.1 else none

def render (v : Value) : String := String.ofList (chars v)

/-! ## Strings are read back -/

theorem hexValue_hexDigit {n : Nat} (h : n < 16) : hexValue (hexDigit n) = some n := by
  have hAll : ∀ m < 16, hexValue (hexDigit m) = some m := by decide
  exact hAll n h

theorem escaped_control {c : Char} (h : c.toNat < 0x20) (rest : List Char) :
    escaped ('u' :: '0' :: '0' :: hexDigit (c.toNat / 16) :: hexDigit (c.toNat % 16) :: rest) =
      some (c, rest) := by
  have hUnit : codeUnit '0' '0' (hexDigit (c.toNat / 16)) (hexDigit (c.toNat % 16)) =
      some c.toNat := by
    have hZero : hexValue '0' = some 0 := by decide
    simp only [codeUnit, hZero, hexValue_hexDigit (show c.toNat / 16 < 16 by omega),
      hexValue_hexDigit (show c.toNat % 16 < 16 by omega), Option.bind_eq_bind, Option.bind_some,
      Option.pure_def, Option.some.injEq]
    omega
  rw [escaped, hUnit, Option.bind_some, if_neg (by omega), Char.ofNat_toNat]

/-- A character that is written with a backslash. -/
theorem stringBody_backslash {fuel : Nat} {cs rest : List Char} {c : Char}
    (h : escaped cs = some (c, rest)) :
    stringBody (fuel + 1) ('\\' :: cs) =
      (stringBody fuel rest).map fun q => (c :: q.1, q.2) := by
  rw [stringBody, if_neg (by decide), if_pos rfl, h]
  rfl

theorem stringBody_escape (fuel : Nat) (c : Char) (rest : List Char) :
    stringBody (fuel + 1) (escape c ++ rest) =
      (stringBody fuel rest).map fun q => (c :: q.1, q.2) := by
  rw [escape]
  split_ifs with h1 h2 h3 h4 h5 h6 h7 h8
  · subst h1
    exact stringBody_backslash rfl
  · subst h2
    exact stringBody_backslash rfl
  · exact stringBody_backslash (by rw [← Char.ofNat_toNat c, h3]; rfl)
  · exact stringBody_backslash (by rw [← Char.ofNat_toNat c, h4]; rfl)
  · subst h5
    exact stringBody_backslash rfl
  · subst h6
    exact stringBody_backslash rfl
  · subst h7
    exact stringBody_backslash rfl
  · exact stringBody_backslash (escaped_control h8 rest)
  · rw [List.singleton_append, stringBody, if_neg h1, if_neg h2, if_neg h8]

theorem stringBody_flatMap {fuel : Nat} {cs : List Char} (h : cs.length < fuel)
    (rest : List Char) :
    stringBody fuel (cs.flatMap escape ++ '"' :: rest) = some (cs, rest) := by
  induction cs generalizing fuel with
  | nil =>
    obtain ⟨f, rfl⟩ : ∃ f, fuel = f + 1 := ⟨fuel - 1, by simp at h; omega⟩
    rfl
  | cons c cs ih =>
    obtain ⟨f, rfl⟩ : ∃ f, fuel = f + 1 := ⟨fuel - 1, by simp at h; omega⟩
    rw [List.flatMap_cons, List.append_assoc, stringBody_escape,
      ih (by simpa using h)]
    rfl

theorem escape_ne_nil (c : Char) : 1 ≤ (escape c).length := by
  rw [escape]
  split_ifs <;> simp

theorem length_flatMap_escape (cs : List Char) : cs.length ≤ (cs.flatMap escape).length := by
  induction cs with
  | nil => simp
  | cons c cs ih =>
    have := escape_ne_nil c
    simp only [List.flatMap_cons, List.length_cons, List.length_append]
    omega

/-- A quoted string, read after its opening quote. -/
theorem stringBody_quoted (s : String) (rest : List Char) :
    ∃ tail, quoted s ++ rest = '"' :: tail ∧
      stringBody tail.length tail = some (s.toList, rest) := by
  refine ⟨s.toList.flatMap escape ++ '"' :: rest, by simp [quoted], stringBody_flatMap ?_ rest⟩
  have := length_flatMap_escape s.toList
  simp only [List.length_append, List.length_cons]
  omega

/-! ## Integers are read back -/

/-- What may stand behind a value: nothing, or a mark that ends it. -/
def Ends (rest : List Char) : Prop :=
  ∀ c ∈ rest.head?, c = ',' ∨ c = ']' ∨ c = '\x7d'

theorem ends_nil : Ends [] := by simp [Ends]

theorem ends_cons {c : Char} {rest : List Char} (h : c = ',' ∨ c = ']' ∨ c = '\x7d') :
    Ends (c :: rest) := by
  intro d hd
  rw [List.head?_cons, Option.mem_some_iff] at hd
  exact hd ▸ h

theorem ends_charsItems (vs : List Value) (rest : List Char) : Ends (charsItems vs ++ rest) := by
  cases vs with
  | nil => exact ends_cons (.inr (.inl rfl))
  | cons v vs => exact ends_cons (.inl rfl)

theorem ends_charsFields (fs : List (String × Value)) (rest : List Char) :
    Ends (charsFields fs ++ rest) := by
  cases fs with
  | nil => exact ends_cons (.inr (.inr rfl))
  | cons f fs => exact ends_cons (.inl rfl)

theorem Ends.not_digit {rest : List Char} (h : Ends rest) : rest.takeWhile Char.isDigit = [] := by
  cases rest with
  | nil => rfl
  | cons c cs => rcases h c rfl with rfl | rfl | rfl <;> rfl

theorem Ends.dropWhile {rest : List Char} (h : Ends rest) :
    rest.dropWhile Char.isDigit = rest := by
  cases rest with
  | nil => rfl
  | cons c cs => rcases h c rfl with rfl | rfl | rfl <;> rfl

theorem Ends.fraction {rest : List Char} (h : Ends rest) : fraction rest = some ([], rest) := by
  cases rest with
  | nil => rfl
  | cons c cs => rcases h c rfl with rfl | rfl | rfl <;> rfl

theorem Ends.exponent {rest : List Char} (h : Ends rest) : exponent rest = some ([], rest) := by
  cases rest with
  | nil => rfl
  | cons c cs => rcases h c rfl with rfl | rfl | rfl <;> rfl

theorem isDigit_toDigits {n : Nat} : ∀ c ∈ Nat.toDigits 10 n, c.isDigit = true :=
  fun _ hc => Nat.isDigit_of_mem_toDigits (by omega) (by omega) hc

theorem digits_toDigits (n : Nat) {rest : List Char} (h : Ends rest) :
    digits (Nat.toDigits 10 n ++ rest) = some (Nat.toDigits 10 n, rest) := by
  have hTake : (Nat.toDigits 10 n ++ rest).takeWhile Char.isDigit = Nat.toDigits 10 n := by
    rw [List.takeWhile_append_of_pos isDigit_toDigits, h.not_digit, List.append_nil]
  have hDrop : (Nat.toDigits 10 n ++ rest).dropWhile Char.isDigit = rest := by
    rw [List.dropWhile_append_of_pos isDigit_toDigits, h.dropWhile]
  rw [digits, hTake, hDrop, if_neg Nat.toDigits_ne_nil]

/-- No number of two or more digits starts with zero. -/
theorem head_toDigits (n : Nat) :
    ¬(1 < (Nat.toDigits 10 n).length ∧ (Nat.toDigits 10 n).head? = some '0') := by
  induction n using Nat.strongRecOn with
  | ind n ih =>
    by_cases h : n < 10
    · rw [Nat.toDigits_of_lt_base h]
      simp
    rw [Nat.toDigits_of_base_le (by omega) (by omega), List.head?_append_of_ne_nil _
      Nat.toDigits_ne_nil]
    intro hHead
    by_cases hq : n / 10 < 10
    · rw [Nat.toDigits_of_lt_base hq] at hHead
      have hAll : ∀ m < 10, m ≠ 0 → Nat.digitChar m ≠ '0' := by decide
      have hZero := hHead.2
      simp only [List.head?_cons, Option.some.injEq] at hZero
      exact hAll _ hq (by omega) hZero
    · refine ih (n / 10) (by omega) ⟨?_, hHead.2⟩
      rw [Nat.toDigits_of_base_le (by omega) (by omega), List.length_append]
      have := List.length_pos_iff.mpr (Nat.toDigits_ne_nil (n := n / 10 / 10) (b := 10))
      simp only [List.length_cons, List.length_nil]
      omega

theorem unsigned_toDigits {negative : Bool} {n : Nat} {rest : List Char} (h : Ends rest)
    (hLow : -2 ^ 63 ≤ (if negative then -(n : Int) else n))
    (hHigh : (if negative then -(n : Int) else n) < 2 ^ 64)
    (hZero : ¬(negative = true ∧ n = 0)) :
    unsigned negative (Nat.toDigits 10 n ++ rest) =
      some (.int (if negative then -(n : Int) else n), rest) := by
  rw [unsigned, digits_toDigits n h, Option.bind_some, if_neg (head_toDigits n), h.fraction,
    Option.bind_some, h.exponent, Option.map_some]
  simp only [Nat.ofDigitChars_ten_toDigits]
  rw [if_pos ⟨trivial, trivial, hLow, hHigh, hZero⟩]

theorem number_integer {i : Int} {rest : List Char} (h : Ends rest) (hLow : -2 ^ 63 ≤ i)
    (hHigh : i < 2 ^ 64) : number (integer i ++ rest) = some (.int i, rest) := by
  rw [integer]
  split_ifs with hNeg
  · have hi : (if true then -(i.natAbs : Int) else i.natAbs) = i := by
      rw [if_pos rfl]
      omega
    rw [List.cons_append, number, if_pos rfl, unsigned_toDigits h (by rw [hi]; exact hLow)
      (by rw [hi]; exact hHigh) (by omega), hi]
  · have hi : (if false then -(i.natAbs : Int) else i.natAbs) = i := by simp; omega
    obtain ⟨c, cs, hcs⟩ : ∃ c cs, Nat.toDigits 10 i.natAbs = c :: cs :=
      List.exists_cons_of_ne_nil Nat.toDigits_ne_nil
    have hc : c ≠ '-' := by
      intro hEq
      have hDigit : c.isDigit = true := isDigit_toDigits c (hcs ▸ List.mem_cons_self)
      rw [hEq] at hDigit
      exact absurd hDigit (by decide)
    rw [hcs, List.cons_append, number, if_neg hc, ← List.cons_append, ← hcs,
      unsigned_toDigits h (by rw [hi]; exact hLow) (by rw [hi]; exact hHigh) (by simp), hi]

/-! ## Values are read back -/

theorem isDigit_ne {c d : Char} (hc : c.isDigit = true) (hd : d.isDigit = false) : c ≠ d := by
  intro hEq
  rw [hEq, hd] at hc
  cases hc

/-- The first character of an integer is none of the marks a value is told by. -/
theorem integer_cons (i : Int) : ∃ c cs, integer i = c :: cs ∧ isSpace c = false ∧
    ∀ d ∈ [']', 'n', 't', 'f', '"', '[', '\x7b'], c ≠ d := by
  rw [integer]
  split_ifs
  · exact ⟨_, _, rfl, by decide, by simp⟩
  · obtain ⟨c, cs, hcs⟩ : ∃ c cs, Nat.toDigits 10 i.natAbs = c :: cs :=
      List.exists_cons_of_ne_nil Nat.toDigits_ne_nil
    have hDigit : c.isDigit = true := isDigit_toDigits c (hcs ▸ List.mem_cons_self)
    have hMarks : ∀ d ∈ [']', 'n', 't', 'f', '"', '[', '\x7b', ' ', '\t', '\n', '\r'],
        d.isDigit = false := by simp [Char.isDigit]
    refine ⟨c, cs, hcs, ?_, ?_⟩
    · simp only [isSpace, Bool.or_eq_false_iff, beq_eq_false_iff_ne]
      exact ⟨⟨⟨isDigit_ne hDigit (hMarks _ (by simp)), isDigit_ne hDigit (hMarks _ (by simp))⟩,
        isDigit_ne hDigit (hMarks _ (by simp))⟩, isDigit_ne hDigit (hMarks _ (by simp))⟩
    · intro d hd
      exact isDigit_ne hDigit (hMarks d (List.mem_append_left [' ', '\t', '\n', '\r'] hd))

theorem chars_cons (v : Value) (h : v.Wf) :
    ∃ c cs, chars v = c :: cs ∧ isSpace c = false ∧ c ≠ ']' := by
  cases v with
  | null => exact ⟨_, _, by rw [chars], by decide, by decide⟩
  | bool b => cases b <;> exact ⟨_, _, by rw [chars], by decide, by decide⟩
  | int i =>
    obtain ⟨c, cs, hcs, hSpace, hMarks⟩ := integer_cons i
    exact ⟨c, cs, by rw [chars, hcs], hSpace, hMarks _ (by simp)⟩
  | float _ => exact h.elim
  | str s => exact ⟨'"', _, by rw [chars, quoted, List.cons_append], by decide, by decide⟩
  | arr vs => cases vs <;> exact ⟨'[', _, by rw [chars], by decide, by decide⟩
  | obj fs =>
    rcases fs with _ | ⟨⟨k, v⟩, fs⟩ <;> exact ⟨'\x7b', _, by rw [chars], by decide, by decide⟩

theorem skip_cons {c : Char} {cs : List Char} (h : isSpace c = false) : skip (c :: cs) = c :: cs := by
  rw [skip, List.dropWhile_cons_of_neg (by simp [h])]

/-- The value at the head of an array that is not empty. -/
theorem skip_chars {v : Value} (h : v.Wf) (rest : List Char) :
    skip (chars v ++ rest) = chars v ++ rest ∧ (chars v ++ rest).head? ≠ some ']' := by
  obtain ⟨c, cs, hcs, hSpace, hMark⟩ := chars_cons v h
  rw [hcs, List.cons_append, skip_cons hSpace]
  exact ⟨rfl, by simpa using hMark⟩

/-- A field is read back when its value is. -/
theorem field_chars {fuel : Nat} {k : String} {v : Value} {rest : List Char}
    (hv : value fuel (chars v ++ rest) = some (v, rest)) :
    field (fuel + 1) (quoted k ++ ':' :: (chars v ++ rest)) = some ((k, v), rest) := by
  obtain ⟨tail, hTail, hBody⟩ := stringBody_quoted k (':' :: (chars v ++ rest))
  rw [field, hTail, skip_cons (by decide)]
  dsimp only
  rw [if_pos rfl, hBody, Option.bind_some]
  dsimp only
  rw [skip_cons (by decide), List.head?_cons, if_pos rfl, List.drop_one, List.tail_cons, hv,
    Option.map_some, String.ofList_toList]

mutual

theorem value_chars (v : Value) (h : v.Wf) (fuel : Nat) {rest : List Char}
    (hFuel : (chars v).length ≤ fuel) (hRest : Ends rest) :
    value fuel (chars v ++ rest) = some (v, rest) := by
  obtain ⟨f, rfl⟩ : ∃ f, fuel = f + 1 := by
    obtain ⟨c, cs, hcs, -⟩ := chars_cons v h
    rw [hcs, List.length_cons] at hFuel
    exact ⟨fuel - 1, by omega⟩
  cases v with
  | null => rfl
  | bool b => cases b <;> rfl
  | int i =>
    obtain ⟨c, cs, hcs, hSpace, hMarks⟩ := integer_cons i
    rw [chars, value, hcs, List.cons_append, skip_cons hSpace]
    dsimp only
    rw [if_neg (hMarks _ (by simp)), if_neg (hMarks _ (by simp)), if_neg (hMarks _ (by simp)),
      if_neg (hMarks _ (by simp)), if_neg (hMarks _ (by simp)), if_neg (hMarks _ (by simp)),
      ← List.cons_append, ← hcs, number_integer hRest h.1 h.2]
  | float _ => exact h.elim
  | str s =>
    obtain ⟨tail, hTail, hBody⟩ := stringBody_quoted s rest
    rw [chars, value, hTail, skip_cons (by decide)]
    simp [hBody]
  | arr vs =>
    cases vs with
    | nil => rfl
    | cons v vs =>
      rw [chars, List.length_cons, List.length_append] at hFuel
      obtain ⟨hSkip, hHead⟩ := skip_chars h.1 (charsItems vs ++ rest)
      have hv := value_chars v h.1 f (by omega) (ends_charsItems vs rest)
      have hvs := items_chars vs h.2 f rest (by omega)
      rw [chars, value, List.cons_append, List.append_assoc, skip_cons (by decide)]
      dsimp only
      rw [if_neg (by decide), if_neg (by decide), if_neg (by decide), if_neg (by decide),
        if_pos rfl, hSkip, if_neg hHead, hv, Option.bind_some, hvs]
      rfl
  | obj fs =>
    rw [Value.Wf] at h
    have hSorted := ordered_eq h.1
    cases fs with
    | nil => rfl
    | cons p fs =>
      obtain ⟨k, v⟩ := p
      rw [chars, List.length_cons, List.length_append, List.length_cons, List.length_append]
        at hFuel
      obtain ⟨tail, hTail, -⟩ := stringBody_quoted k (':' :: (chars v ++ charsFields fs) ++ rest)
      have hHead : (skip (quoted k ++ (':' :: (chars v ++ charsFields fs) ++ rest))).head? ≠
          some '\x7d' := by
        rw [hTail, skip_cons (by decide), List.head?_cons, Ne, Option.some.injEq]
        decide
      have hQuoted : 1 ≤ (quoted k).length := by simp [quoted]
      obtain ⟨g, rfl⟩ : ∃ g, f = g + 1 := ⟨f - 1, by omega⟩
      have hp := field_chars (k := k)
        (value_chars v h.2.1 g (by omega) (ends_charsFields fs rest))
      have hfs := fields_chars fs h.2.2 (g + 1) rest (by omega)
      rw [chars, value, List.cons_append, List.append_assoc, skip_cons (by decide)]
      dsimp only
      rw [if_neg (by decide), if_neg (by decide), if_neg (by decide), if_neg (by decide),
        if_neg (by decide), if_pos rfl, if_neg hHead, List.cons_append, List.append_assoc, hp,
        Option.bind_some, hfs]
      simp only [Option.map_some, object, hSorted]

theorem items_chars (vs : List Value) (h : WfItems vs) (fuel : Nat) (rest : List Char)
    (hFuel : (charsItems vs).length ≤ fuel) :
    items fuel (charsItems vs ++ rest) = some (vs, rest) := by
  cases vs with
  | nil =>
    obtain ⟨f, rfl⟩ : ∃ f, fuel = f + 1 := ⟨fuel - 1, by simp [charsItems] at hFuel; omega⟩
    rfl
  | cons v vs =>
    rw [charsItems, List.length_cons, List.length_append] at hFuel
    obtain ⟨f, rfl⟩ : ∃ f, fuel = f + 1 := ⟨fuel - 1, by omega⟩
    have hv := value_chars v h.1 f (by omega) (ends_charsItems vs rest)
    have hvs := items_chars vs h.2 f rest (by omega)
    rw [charsItems, items, List.cons_append, List.append_assoc, skip_cons (by decide)]
    dsimp only
    rw [if_neg (by decide), if_pos rfl, hv, Option.bind_some, hvs]
    rfl

theorem fields_chars (fs : List (String × Value)) (h : WfFields fs) (fuel : Nat)
    (rest : List Char) (hFuel : (charsFields fs).length ≤ fuel) :
    fields fuel (charsFields fs ++ rest) = some (fs, rest) := by
  cases fs with
  | nil =>
    obtain ⟨f, rfl⟩ : ∃ f, fuel = f + 1 := ⟨fuel - 1, by simp [charsFields] at hFuel; omega⟩
    rfl
  | cons p fs =>
    obtain ⟨k, v⟩ := p
    rw [charsFields, List.length_cons, List.length_append, List.length_cons, List.length_append]
      at hFuel
    obtain ⟨f, rfl⟩ : ∃ f, fuel = f + 1 := ⟨fuel - 1, by omega⟩
    have hQuoted : 1 ≤ (quoted k).length := by simp [quoted]
    obtain ⟨g, rfl⟩ : ∃ g, f = g + 1 := ⟨f - 1, by omega⟩
    have hp := field_chars (k := k)
      (value_chars v h.1 g (by omega) (ends_charsFields fs rest))
    have hfs := fields_chars fs h.2 (g + 1) rest (by omega)
    rw [charsFields, fields, List.cons_append, List.append_assoc, skip_cons (by decide)]
    dsimp only
    rw [if_neg (by decide), if_pos rfl, List.cons_append, List.append_assoc, hp,
      Option.bind_some, hfs]
    rfl

end

theorem parse_render {v : Value} (h : v.Wf) : parse (render v) = some v := by
  have hv := value_chars v h ((chars v).length + 1) (by omega) ends_nil
  rw [List.append_nil] at hv
  rw [parse, render, String.toList_ofList, hv]
  rfl

/-! ## A value is written on one line -/

theorem newline_hexDigit {n : Nat} (h : n < 16) : hexDigit n ≠ '\n' := by
  have hAll : ∀ m < 16, hexDigit m ≠ '\n' := by decide
  exact hAll n h

theorem newline_escape (c : Char) : '\n' ∉ escape c := by
  rw [escape]
  split_ifs with h1 h2 h3 h4 h5 h6 h7 h8
  · decide
  · decide
  · decide
  · decide
  · decide
  · decide
  · decide
  · have hHigh := newline_hexDigit (show c.toNat / 16 < 16 by omega)
    have hLow := newline_hexDigit (show c.toNat % 16 < 16 by omega)
    simp [hHigh.symm, hLow.symm]
  · simpa using Ne.symm h5

theorem newline_quoted (s : String) : '\n' ∉ quoted s := by
  simp [quoted, newline_escape]

theorem newline_toDigits (n : Nat) : '\n' ∉ Nat.toDigits 10 n := by
  intro h
  exact absurd (isDigit_toDigits _ h) (by decide)

mutual

theorem newline_chars (v : Value) (h : v.Wf) : '\n' ∉ chars v := by
  cases v with
  | null => rw [chars]; decide
  | bool b => cases b <;> rw [chars] <;> decide
  | int i =>
    rw [chars, integer]
    split_ifs <;> simp [newline_toDigits]
  | float _ => exact h.elim
  | str s =>
    rw [chars]
    exact newline_quoted s
  | arr vs =>
    cases vs with
    | nil => rw [chars]; decide
    | cons v vs => simp [chars, newline_chars v h.1, newline_charsItems vs h.2]
  | obj fs =>
    rw [Value.Wf] at h
    cases fs with
    | nil => rw [chars]; decide
    | cons p fs =>
      simp [chars, newline_quoted, newline_chars p.2 h.2.1, newline_charsFields fs h.2.2]

theorem newline_charsItems (vs : List Value) (h : WfItems vs) : '\n' ∉ charsItems vs := by
  cases vs with
  | nil => rw [charsItems]; decide
  | cons v vs => simp [charsItems, newline_chars v h.1, newline_charsItems vs h.2]

theorem newline_charsFields (fs : List (String × Value)) (h : WfFields fs) :
    '\n' ∉ charsFields fs := by
  cases fs with
  | nil => rw [charsFields]; decide
  | cons p fs =>
    simp [charsFields, newline_quoted, newline_chars p.2 h.1, newline_charsFields fs h.2]

end

/-! ## What a library promises -/

/-- A library that writes and reads values. -/
structure Text where
  render : Value → String
  parse : String → Option Value
  parse_render : ∀ {v}, v.Wf → parse (render v) = some v
  newline_render : ∀ {v}, v.Wf → '\n' ∉ (render v).toList

def text : Text where
  render := render
  parse := parse
  parse_render := parse_render
  newline_render := by
    intro v h
    rw [render, String.toList_ofList]
    exact newline_chars v h

/-- Two fields of one key, an escape, and space around the marks. -/
example : (parse "\x7b \"b\" : [1, -2.5], \"a\":\"\\u00e9\\n\", \"b\":null\x7d ").map render =
    some "\x7b\"a\":\"é\\n\",\"b\":null\x7d" := by decide +kernel

end Json
