import Mathlib.Data.List.Basic

/-!
# Reading HTML

The tokenizer of HTML for the states that text and tags reach: data, tags with their attributes,
and character references in text and in attribute values. Comments and declarations are read to
their first `>`. The table of character references is a parameter (`Refs`). Newlines are
normalized before the tokenizer reads (`newlines`).

A text whose special characters are written as references reads as itself, in the data state
(`read_text`) and in a quoted attribute value (`read_value`).
-/

namespace Html

inductive Token
  | open_ (name : List Char) (attrs : List (List Char × List Char))
  | close (name : List Char)
  | char (c : Char)
  | markup
  deriving DecidableEq

/-- The tag that is being read. -/
structure Tag where
  closing : Bool
  name : List Char
  attrs : List (List Char × List Char) := []
  deriving DecidableEq

inductive State
  | data
  | tagOpen
  | endTagOpen
  | tagName (tag : Tag)
  | beforeName (tag : Tag)
  | attrName (tag : Tag) (name : List Char)
  | afterName (tag : Tag) (name : List Char)
  | beforeValue (tag : Tag) (name : List Char)
  | doubleQuoted (tag : Tag) (name value : List Char)
  | singleQuoted (tag : Tag) (name value : List Char)
  | unquoted (tag : Tag) (name value : List Char)
  | afterValue (tag : Tag)
  | selfClosing (tag : Tag)
  | markup
  deriving DecidableEq

/-- The character references: what a text behind `&` stands for, and what follows it. The last
fields are those of the standard's table that an escaped text needs. -/
structure Refs where
  resolve : List Char → Option (Char × List Char)
  shorter : ∀ {cs rest : List Char} {c : Char}, resolve cs = some (c, rest) →
    rest.length < cs.length
  amp : ∀ rest, resolve ('a' :: 'm' :: 'p' :: ';' :: rest) = some ('&', rest)
  lt : ∀ rest, resolve ('l' :: 't' :: ';' :: rest) = some ('<', rest)
  gt : ∀ rest, resolve ('g' :: 't' :: ';' :: rest) = some ('>', rest)
  quot : ∀ rest, resolve ('q' :: 'u' :: 'o' :: 't' :: ';' :: rest) = some ('"', rest)
  apos : ∀ rest, resolve ('#' :: '3' :: '9' :: ';' :: rest) = some ('\'', rest)

def isSpace (c : Char) : Bool := c == ' ' || c == '\t' || c == '\n' || c == '\x0c'

/-- A tag is finished: its token, and the data behind it. -/
def Tag.token (t : Tag) : Token := if t.closing then .close t.name else .open_ t.name t.attrs

def Tag.withAttr (t : Tag) (name value : List Char) : Tag :=
  { t with attrs := t.attrs ++ [(name, value)] }

/-- A character of a value; U+0000 is replaced. -/
def valueChar (c : Char) : Char := if c = '\x00' then '\uFFFD' else c

/-- The character that `c` and what follows it stand for. -/
def reference (refs : Refs) (c : Char) (rest : List Char) : Char × List Char :=
  if c = '&' then (refs.resolve rest).getD (c, rest) else (valueChar c, rest)

/-- One step: what is emitted, the state after it, and the rest of the input. -/
def step (refs : Refs) (s : State) (c : Char) (rest : List Char) :
    List Token × State × List Char :=
  match s with
  | .data =>
    if c = '<' then ([], .tagOpen, rest)
    else if c = '&' then
      let r := (refs.resolve rest).getD ('&', rest)
      ([.char r.1], .data, r.2)
    else ([.char c], .data, rest)
  | .tagOpen =>
    if c = '/' then ([], .endTagOpen, rest)
    else if c.isAlpha then ([], .tagName ⟨false, [c.toLower], []⟩, rest)
    else if c = '!' ∨ c = '?' then ([], .markup, rest)
    else if c = '<' then ([.char '<'], .tagOpen, rest)
    else if c = '&' then
      let r := (refs.resolve rest).getD ('&', rest)
      ([.char '<', .char r.1], .data, r.2)
    else ([.char '<', .char c], .data, rest)
  | .endTagOpen =>
    if c.isAlpha then ([], .tagName ⟨true, [c.toLower], []⟩, rest)
    else if c = '>' then ([], .data, rest)
    else ([], .markup, rest)
  | .tagName t =>
    if isSpace c then ([], .beforeName t, rest)
    else if c = '/' then ([], .selfClosing t, rest)
    else if c = '>' then ([t.token], .data, rest)
    else ([], .tagName { t with name := t.name ++ [valueChar c.toLower] }, rest)
  | .beforeName t =>
    if isSpace c then ([], .beforeName t, rest)
    else if c = '/' then ([], .selfClosing t, rest)
    else if c = '>' then ([t.token], .data, rest)
    else ([], .attrName t [valueChar c.toLower], rest)
  | .attrName t name =>
    if isSpace c then ([], .afterName t name, rest)
    else if c = '/' then ([], .selfClosing (t.withAttr name []), rest)
    else if c = '>' then ([(t.withAttr name []).token], .data, rest)
    else if c = '=' then ([], .beforeValue t name, rest)
    else ([], .attrName t (name ++ [valueChar c.toLower]), rest)
  | .afterName t name =>
    if isSpace c then ([], .afterName t name, rest)
    else if c = '/' then ([], .selfClosing (t.withAttr name []), rest)
    else if c = '>' then ([(t.withAttr name []).token], .data, rest)
    else if c = '=' then ([], .beforeValue t name, rest)
    else ([], .attrName (t.withAttr name []) [valueChar c.toLower], rest)
  | .beforeValue t name =>
    if isSpace c then ([], .beforeValue t name, rest)
    else if c = '"' then ([], .doubleQuoted t name [], rest)
    else if c = '\'' then ([], .singleQuoted t name [], rest)
    else if c = '>' then ([(t.withAttr name []).token], .data, rest)
    else
      let r := reference refs c rest
      ([], .unquoted t name [r.1], r.2)
  | .doubleQuoted t name value =>
    if c = '"' then ([], .afterValue (t.withAttr name value), rest)
    else
      let r := reference refs c rest
      ([], .doubleQuoted t name (value ++ [r.1]), r.2)
  | .singleQuoted t name value =>
    if c = '\'' then ([], .afterValue (t.withAttr name value), rest)
    else
      let r := reference refs c rest
      ([], .singleQuoted t name (value ++ [r.1]), r.2)
  | .unquoted t name value =>
    if isSpace c then ([], .beforeName (t.withAttr name value), rest)
    else if c = '>' then ([(t.withAttr name value).token], .data, rest)
    else
      let r := reference refs c rest
      ([], .unquoted t name (value ++ [r.1]), r.2)
  | .afterValue t =>
    if isSpace c then ([], .beforeName t, rest)
    else if c = '/' then ([], .selfClosing t, rest)
    else if c = '>' then ([t.token], .data, rest)
    else ([], .attrName t [valueChar c.toLower], rest)
  | .selfClosing t =>
    if c = '>' then ([t.token], .data, rest)
    else if isSpace c then ([], .beforeName t, rest)
    else if c = '/' then ([], .selfClosing t, rest)
    else ([], .attrName t [valueChar c.toLower], rest)
  | .markup => if c = '>' then ([.markup], .data, rest) else ([], .markup, rest)

/-- The tokens of an input, with fuel for as many steps. -/
def readFuel (refs : Refs) : Nat → State → List Char → List Token
  | fuel + 1, s, c :: rest =>
    let r := step refs s c rest
    r.1 ++ readFuel refs fuel r.2.1 r.2.2
  | _, _, _ => []

/-- The tokens of an input that starts in a state. -/
def read (refs : Refs) (s : State) (cs : List Char) : List Token := readFuel refs cs.length s cs

def tokens (refs : Refs) (cs : List Char) : List Token := read refs .data cs

/-- Every newline as one line feed. -/
def newlines : List Char → List Char
  | [] => []
  | '\r' :: '\n' :: cs => '\n' :: newlines cs
  | '\r' :: cs => '\n' :: newlines cs
  | c :: cs => c :: newlines cs

/-! ## Fuel -/

section

variable (refs : Refs)

theorem resolve_length (rest : List Char) (c : Char) :
    ((refs.resolve rest).getD (c, rest)).2.length ≤ rest.length := by
  cases h : refs.resolve rest with
  | none => exact Nat.le_refl _
  | some r => exact Nat.le_of_lt (refs.shorter h)

theorem reference_length (c : Char) (rest : List Char) :
    (reference refs c rest).2.length ≤ rest.length := by
  rw [reference]
  split_ifs
  · exact resolve_length refs rest c
  · exact Nat.le_refl _

/-- Every step takes a character. -/
theorem step_length (s : State) (c : Char) (rest : List Char) :
    (step refs s c rest).2.2.length ≤ rest.length := by
  have hResolve := resolve_length refs rest
  have hReference := reference_length refs c rest
  cases s <;> simp only [step] <;> split_ifs <;>
    first | exact Nat.le_refl _ | exact hResolve _ | exact hReference

theorem readFuel_eq {n m : Nat} (s : State) (cs : List Char) (hn : cs.length ≤ n)
    (hm : cs.length ≤ m) : readFuel refs n s cs = readFuel refs m s cs := by
  induction n generalizing m s cs with
  | zero =>
    obtain rfl := List.length_eq_zero_iff.mp (Nat.le_zero.mp hn)
    cases m <;> rfl
  | succ n ih =>
    cases cs with
    | nil => cases m <;> rfl
    | cons c rest =>
      cases m with
      | zero => exact absurd hm (by simp)
      | succ m =>
        have hRest := step_length refs s c rest
        rw [List.length_cons] at hn hm
        rw [readFuel, readFuel]
        rw [ih _ _ (m := m) (by omega) (by omega)]

theorem read_cons (s : State) (c : Char) (rest : List Char) : read refs s (c :: rest) =
    (step refs s c rest).1 ++ read refs (step refs s c rest).2.1 (step refs s c rest).2.2 := by
  rw [read, List.length_cons, readFuel]
  rw [read, readFuel_eq refs _ _ (step_length refs s c rest) (Nat.le_refl _)]

/-! ## Escaped text -/

end

/-- The reference for a character that a text must not hold. -/
def escapeChar (c : Char) : List Char :=
  if c = '&' then ['&', 'a', 'm', 'p', ';']
  else if c = '<' then ['&', 'l', 't', ';']
  else if c = '>' then ['&', 'g', 't', ';']
  else if c = '"' then ['&', 'q', 'u', 'o', 't', ';']
  else if c = '\'' then ['&', '#', '3', '9', ';']
  else [c]

def escape (s : List Char) : List Char := s.flatMap escapeChar

section

variable (refs : Refs)

/-- An escaped character is a reference that resolves to it, or stands for itself. -/
theorem escapeChar_cases (c : Char) :
    (∃ text, escapeChar c = '&' :: text ∧ valueChar c = c ∧
      ∀ rest, refs.resolve (text ++ rest) = some (c, rest)) ∨
    escapeChar c = [c] ∧ c ≠ '&' ∧ c ≠ '<' ∧ c ≠ '"' := by
  rw [escapeChar]
  split_ifs with hAmp hLt hGt hQuot hApos
  · subst hAmp
    exact .inl ⟨_, rfl, rfl, refs.amp⟩
  · subst hLt
    exact .inl ⟨_, rfl, rfl, refs.lt⟩
  · subst hGt
    exact .inl ⟨_, rfl, rfl, refs.gt⟩
  · subst hQuot
    exact .inl ⟨_, rfl, rfl, refs.quot⟩
  · subst hApos
    exact .inl ⟨_, rfl, rfl, refs.apos⟩
  · exact .inr ⟨rfl, hAmp, hLt, hQuot⟩

theorem read_char (c : Char) (rest : List Char) :
    read refs .data (escapeChar c ++ rest) = .char c :: read refs .data rest := by
  rcases escapeChar_cases refs c with ⟨text, hText, -, hResolve⟩ | ⟨hSelf, hAmp, hLt, -⟩
  · rw [hText, List.cons_append, read_cons]
    simp only [step, hResolve, Option.getD_some]
    rfl
  · rw [hSelf, List.singleton_append, read_cons]
    simp only [step, if_neg hLt, if_neg hAmp]
    rfl

/-- An escaped text is read as its characters. -/
theorem read_text (s rest : List Char) :
    read refs .data (escape s ++ rest) = s.map Token.char ++ read refs .data rest := by
  induction s with
  | nil => rfl
  | cons c s ih =>
    rw [escape, List.flatMap_cons, List.append_assoc, read_char]
    exact congrArg (Token.char c :: ·) ih

theorem read_valueChar (t : Tag) (name value : List Char) (c : Char) (rest : List Char) :
    read refs (.doubleQuoted t name value) (escapeChar c ++ rest) =
      read refs (.doubleQuoted t name (value ++ [valueChar c])) rest := by
  rcases escapeChar_cases refs c with ⟨text, hText, hSame, hResolve⟩ | ⟨hSelf, hAmp, -, hQuot⟩
  · rw [hText, List.cons_append, read_cons, hSame]
    simp only [step, reference, hResolve, Option.getD_some]
    rfl
  · rw [hSelf, List.singleton_append, read_cons]
    simp only [step, reference, if_neg hQuot, if_neg hAmp]
    rfl

/-- An escaped value is read as its characters, up to the quotation mark that follows it. -/
theorem read_value (t : Tag) (name value s rest : List Char) :
    read refs (.doubleQuoted t name value) (escape s ++ rest) =
      read refs (.doubleQuoted t name (value ++ s.map valueChar)) rest := by
  induction s generalizing value with
  | nil =>
    rw [List.map_nil, List.append_nil]
    rfl
  | cons c s ih =>
    rw [escape, List.flatMap_cons, List.append_assoc, read_valueChar]
    refine (ih _).trans ?_
    rw [List.append_assoc]
    rfl

/-! ## Tags -/

/-- A name of small letters. -/
structure IsName (name : List Char) : Prop where
  ne_nil : name ≠ []
  letters : ∀ c ∈ name, c.isLower = true

instance (name : List Char) : Decidable (IsName name) :=
  decidable_of_iff (name ≠ [] ∧ name.all Char.isLower = true)
    ⟨fun h => ⟨h.1, List.all_eq_true.mp h.2⟩, fun h => ⟨h.ne_nil, List.all_eq_true.mpr h.letters⟩⟩

/-- What a small letter is not. -/
theorem lower_spec {c : Char} (h : c.isLower = true) : isSpace c = false ∧ c ≠ '/' ∧ c ≠ '>' ∧
    c ≠ '=' ∧ c.isAlpha = true ∧ valueChar c.toLower = c ∧ c.toLower = c := by
  have hBounds : 97 ≤ c.toNat ∧ c.toNat ≤ 122 := by
    have hBoth : (c.val ≥ 'a'.val && c.val ≤ 'z'.val) = true := h
    simpa [UInt32.le_iff_toNat_le] using hBoth
  have hAll : ∀ n < 123, 97 ≤ n → isSpace (Char.ofNat n) = false ∧ Char.ofNat n ≠ '/' ∧
      Char.ofNat n ≠ '>' ∧ Char.ofNat n ≠ '=' ∧ (Char.ofNat n).isAlpha = true ∧
      valueChar (Char.ofNat n).toLower = Char.ofNat n ∧
      (Char.ofNat n).toLower = Char.ofNat n := by
    decide
  have hSame := hAll c.toNat (by omega) hBounds.1
  rwa [Char.ofNat_toNat] at hSame

theorem read_tagName {name : List Char} (h : ∀ c ∈ name, c.isLower = true) (t : Tag)
    (rest : List Char) : read refs (.tagName t) (name ++ rest) =
      read refs (.tagName { t with name := t.name ++ name }) rest := by
  induction name generalizing t with
  | nil =>
    rw [List.append_nil]
    rfl
  | cons c name ih =>
    obtain ⟨hSpace, hSlash, hEnd, -, -, hChar, -⟩ := lower_spec (h c List.mem_cons_self)
    rw [List.cons_append, read_cons]
    simp only [step, hSpace, if_neg hSlash, if_neg hEnd, hChar, Bool.false_eq_true, if_false,
      List.nil_append]
    rw [ih fun d hd => h d (List.mem_cons_of_mem _ hd)]
    simp only [List.append_assoc, List.singleton_append]

/-- A tag opens or closes with its name. -/
theorem read_name {name : List Char} (h : IsName name) (closing : Bool) (rest : List Char) :
    read refs .data ((if closing then ['<', '/'] else ['<']) ++ (name ++ rest)) =
      read refs (.tagName ⟨closing, name, []⟩) rest := by
  obtain ⟨c, name, rfl⟩ := List.exists_cons_of_ne_nil h.ne_nil
  obtain ⟨-, hSlash, -, -, hAlpha, -, hLower⟩ := lower_spec (h.letters c List.mem_cons_self)
  have hRest := read_tagName refs (fun d hd => h.letters d (List.mem_cons_of_mem _ hd))
    ⟨closing, [c], []⟩ rest
  cases closing
  · simp only [Bool.false_eq_true, if_false, List.cons_append, List.nil_append]
    rw [read_cons]
    simp only [step, if_true, List.nil_append]
    rw [read_cons]
    simp only [step, if_neg hSlash, hAlpha, if_true, hLower, List.nil_append]
    exact hRest
  · simp only [if_true, List.cons_append, List.nil_append]
    rw [read_cons]
    simp only [step, if_true, List.nil_append]
    rw [read_cons]
    simp only [step, if_true, List.nil_append]
    rw [read_cons]
    simp only [step, hAlpha, if_true, hLower, List.nil_append]
    exact hRest

/-- `<name>` -/
def opening (name : List Char) : List Char := '<' :: (name ++ ['>'])

/-- `</name>` -/
def closing (name : List Char) : List Char := '<' :: '/' :: (name ++ ['>'])

/-- `<name attr="value">`, with the value escaped. -/
def openingWith (name attr value : List Char) : List Char :=
  '<' :: (name ++ ' ' :: (attr ++ '=' :: '"' :: (escape value ++ ['"', '>'])))

theorem read_opening {name : List Char} (h : IsName name) (rest : List Char) :
    read refs .data (opening name ++ rest) = .open_ name [] :: read refs .data rest := by
  have hName := read_name refs h false ('>' :: rest)
  simp only [opening, List.cons_append, List.append_assoc, List.nil_append, Bool.false_eq_true,
    if_false] at hName ⊢
  rw [hName, read_cons]
  rfl

theorem read_closing {name : List Char} (h : IsName name) (rest : List Char) :
    read refs .data (closing name ++ rest) = .close name :: read refs .data rest := by
  have hName := read_name refs h true ('>' :: rest)
  simp only [closing, List.cons_append, List.append_assoc, List.nil_append, if_true] at hName ⊢
  rw [hName, read_cons]
  rfl

theorem read_attrName {attr : List Char} (h : ∀ c ∈ attr, c.isLower = true) (t : Tag)
    (name rest : List Char) : read refs (.attrName t name) (attr ++ rest) =
      read refs (.attrName t (name ++ attr)) rest := by
  induction attr generalizing name with
  | nil =>
    rw [List.append_nil]
    rfl
  | cons c attr ih =>
    obtain ⟨hSpace, hSlash, hEnd, hEq, -, hChar, -⟩ := lower_spec (h c List.mem_cons_self)
    rw [List.cons_append, read_cons]
    simp only [step, hSpace, if_neg hSlash, if_neg hEnd, if_neg hEq, hChar, Bool.false_eq_true,
      if_false, List.nil_append]
    rw [ih fun d hd => h d (List.mem_cons_of_mem _ hd)]
    simp only [List.append_assoc, List.singleton_append]

theorem read_equals (t : Tag) (name rest : List Char) :
    read refs (.attrName t name) ('=' :: rest) = read refs (.beforeValue t name) rest := by
  rw [read_cons]
  rfl

theorem read_quote (t : Tag) (name rest : List Char) :
    read refs (.beforeValue t name) ('"' :: rest) = read refs (.doubleQuoted t name []) rest := by
  rw [read_cons]
  rfl

/-- The attribute of a tag, up to its quotation mark. -/
theorem read_attr {attr : List Char} (h : IsName attr) (t : Tag) (rest : List Char) :
    read refs (.tagName t) (' ' :: (attr ++ '=' :: '"' :: rest)) =
      read refs (.doubleQuoted t attr []) rest := by
  obtain ⟨c, attr, rfl⟩ := List.exists_cons_of_ne_nil h.ne_nil
  obtain ⟨hSpace, hSlash, hEnd, -, -, hChar, -⟩ := lower_spec (h.letters c List.mem_cons_self)
  rw [read_cons, List.cons_append]
  simp only [step, isSpace, beq_self_eq_true, Bool.true_or, if_true, List.nil_append]
  rw [read_cons]
  simp only [step, hSpace, if_neg hSlash, if_neg hEnd, hChar, Bool.false_eq_true, if_false,
    List.nil_append]
  rw [read_attrName refs fun d hd => h.letters d (List.mem_cons_of_mem _ hd), read_equals,
    read_quote]
  rfl

theorem read_openingWith {name attr : List Char} (hName : IsName name) (hAttr : IsName attr)
    (value rest : List Char) : read refs .data (openingWith name attr value ++ rest) =
      .open_ name [(attr, value.map valueChar)] :: read refs .data rest := by
  have hStart := read_name refs hName false
    (' ' :: (attr ++ '=' :: '"' :: (escape value ++ '"' :: '>' :: rest)))
  simp only [openingWith, List.cons_append, List.append_assoc, List.nil_append,
    Bool.false_eq_true, if_false] at hStart ⊢
  rw [hStart, read_attr refs hAttr, read_value, read_cons]
  simp only [step, if_true, List.nil_append]
  rw [read_cons]
  rfl

end

/-! ## Newlines -/

theorem newlines_cons {c : Char} (h : c ≠ '\r') (cs : List Char) :
    newlines (c :: cs) = c :: newlines cs := by
  rw [newlines]
  · rintro rest rfl
    exact absurd rfl h
  · exact h

/-- A carriage return before anything but a line feed. -/
theorem newlines_return {cs : List Char} (h : cs.head? ≠ some '\n') :
    newlines ('\r' :: cs) = '\n' :: newlines cs := by
  cases cs with
  | nil => rfl
  | cons c cs =>
    rw [newlines]
    rintro rest hEq
    cases hEq
    exact h rfl

/-- A text without carriage returns stays as it is. -/
theorem newlines_prefix {t : List Char} (h : '\r' ∉ t) (cs : List Char) :
    newlines (t ++ cs) = t ++ newlines cs := by
  induction t with
  | nil => rfl
  | cons c t ih =>
    rw [List.mem_cons, not_or] at h
    rw [List.cons_append, newlines_cons (fun hc => h.1 hc.symm), ih h.2]
    rfl

theorem newlines_append (a : List Char) {b : List Char} (h : b.head? ≠ some '\n') :
    newlines (a ++ b) = newlines a ++ newlines b := by
  induction a using newlines.induct with
  | case1 => rfl
  | case2 cs ih =>
    simp only [List.cons_append, newlines, ih]
  | case3 cs hNot ih =>
    have hHead : ∀ c : List Char, c.head? ≠ some '\n' → (c ++ b).head? ≠ some '\n' := by
      intro c hc
      cases c with
      | nil => exact h
      | cons d c => exact hc
    have hCs : cs.head? ≠ some '\n' := by
      intro hSome
      obtain ⟨rest, rfl⟩ := List.head?_eq_some_iff.mp hSome
      exact hNot rest rfl
    rw [List.cons_append, newlines_return (hHead cs hCs), newlines_return hCs, ih]
    rfl
  | case4 c cs hTwo hOne ih =>
    rw [List.cons_append, newlines_cons hOne, newlines_cons hOne, ih]
    rfl

/-- What a character is written as starts with a line feed only if it is one, and holds a carriage
return only if it is one. -/
theorem escapeChar_newline (c : Char) : ∃ d rest, escapeChar c = d :: rest ∧
    (d = '\n' → c = '\n') ∧ ('\r' ∈ escapeChar c → c = '\r') := by
  rw [escapeChar]
  split_ifs
  · exact ⟨_, _, rfl, fun h => absurd h (by decide), fun h => absurd h (by decide)⟩
  · exact ⟨_, _, rfl, fun h => absurd h (by decide), fun h => absurd h (by decide)⟩
  · exact ⟨_, _, rfl, fun h => absurd h (by decide), fun h => absurd h (by decide)⟩
  · exact ⟨_, _, rfl, fun h => absurd h (by decide), fun h => absurd h (by decide)⟩
  · exact ⟨_, _, rfl, fun h => absurd h (by decide), fun h => absurd h (by decide)⟩
  · exact ⟨c, [], rfl, id, fun h => (List.mem_singleton.mp h).symm⟩

/-- Newlines may be normalized before a text is escaped. -/
theorem newlines_escape (s : List Char) : newlines (escape s) = escape (newlines s) := by
  induction s using newlines.induct with
  | case1 => rfl
  | case2 cs ih =>
    have hLine : escape ('\r' :: '\n' :: cs) = '\r' :: '\n' :: escape cs := rfl
    rw [hLine, newlines, newlines, ih]
    rfl
  | case3 cs hNot ih =>
    have hLine : escape ('\r' :: cs) = '\r' :: escape cs := rfl
    have hHead : (escape cs).head? ≠ some '\n' := by
      cases cs with
      | nil => simp [escape]
      | cons c cs =>
        have hc : c ≠ '\n' := by
          rintro rfl
          exact hNot cs rfl
        obtain ⟨d, rest, hEq, hLine, -⟩ := escapeChar_newline c
        rw [escape, List.flatMap_cons, hEq, List.cons_append, List.head?_cons]
        exact fun hSome => hc (hLine (Option.some.inj hSome))
    have hCs : cs.head? ≠ some '\n' := by
      intro hSome
      obtain ⟨rest, rfl⟩ := List.head?_eq_some_iff.mp hSome
      exact hNot rest rfl
    rw [hLine, newlines_return hHead, newlines_return hCs, ih]
    rfl
  | case4 c cs hTwo hOne ih =>
    have hAbsent : '\r' ∉ escapeChar c := by
      obtain ⟨-, -, -, -, hReturn⟩ := escapeChar_newline c
      exact fun h => hOne (hReturn h)
    have hLine : escape (c :: cs) = escapeChar c ++ escape cs := rfl
    rw [hLine, newlines_prefix hAbsent, newlines_cons hOne, ih]
    rfl

theorem openingWith_eq (name attr value : List Char) : openingWith name attr value =
    ('<' :: (name ++ ' ' :: (attr ++ ['=', '"']))) ++ (escape value ++ ['"', '>']) := by
  simp [openingWith]

/-- In a tag with a value only the value can hold newlines. -/
theorem newlines_openingWith {name attr : List Char} (hName : '\r' ∉ name) (hAttr : '\r' ∉ attr)
    (value rest : List Char) : newlines (openingWith name attr value ++ rest) =
      openingWith name attr (newlines value) ++ newlines rest := by
  have hSplit : ∀ v r, openingWith name attr v ++ r =
      ('<' :: (name ++ ' ' :: (attr ++ ['=', '"']))) ++ (escape v ++ (['"', '>'] ++ r)) := by
    intro v r
    rw [openingWith_eq, List.append_assoc, List.append_assoc]
  have hStart : '\r' ∉ '<' :: (name ++ ' ' :: (attr ++ ['=', '"'])) := by
    simp [hName, hAttr]
  rw [hSplit, hSplit, newlines_prefix hStart, newlines_append _ (by simp), newlines_escape,
    newlines_prefix (by decide)]

/-- The references of an escaped text, and no others. -/
def Refs.basic : Refs where
  resolve
    | 'a' :: 'm' :: 'p' :: ';' :: rest => some ('&', rest)
    | 'l' :: 't' :: ';' :: rest => some ('<', rest)
    | 'g' :: 't' :: ';' :: rest => some ('>', rest)
    | 'q' :: 'u' :: 'o' :: 't' :: ';' :: rest => some ('"', rest)
    | '#' :: '3' :: '9' :: ';' :: rest => some ('\'', rest)
    | _ => none
  shorter := by
    intro cs rest c h
    split at h <;> simp_all <;> omega
  amp _ := rfl
  lt _ := rfl
  gt _ := rfl
  quot _ := rfl
  apos _ := rfl

end Html
