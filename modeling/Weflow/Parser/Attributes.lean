import Weflow.Parser.Message

/-!
# The attributes of a media payload

The payload of a picture, a video or an emoji is one element with attributes, each in double or in
single quotes and perhaps with blank space around the equals sign. `attr` searches the text for a
name with an equals sign and a double quote right behind it, so it stops at the first attribute in
double quotes whose name ends in what it looks for, or whose value ends in that and an equals sign
(`attr_payload`).

`mediaHint_exact_iff` says for which payloads the media hint is nevertheless what the attributes of
exactly these names say.
-/

namespace Weflow.Parser

open Search (splitOnce)
open Sync (splitLocalType)

/-- What a name is not made of. -/
def isNameChar (c : Char) : Bool := !isWhite c && !(['"', '\'', '=', '<', '>', '/'].contains c)

/-- An attribute with the blank space in front of it and around its equals sign, in double or in
single quotes. -/
structure Attribute where
  space : Text
  name : Text
  before : Text := []
  after : Text := []
  quote : Char := '"'
  value : Text
  space_ne : space ≠ []
  space_white : space.all isWhite
  name_chars : name.all isNameChar
  before_white : before.all isWhite := by rfl
  after_white : after.all isWhite := by rfl
  quote_eq : quote = '"' ∨ quote = '\'' := by simp
  value_chars : value.all fun c => !(['"', '\'', '<', '>'].contains c)

/-- What stands in front of the opening quote. -/
def Attribute.head (a : Attribute) : Text := a.space ++ a.name ++ a.before ++ '=' :: a.after

def Attribute.text (a : Attribute) : Text := a.head ++ a.quote :: a.value ++ [a.quote]

/-- An element with attributes; what is around it has none. -/
structure Element where
  front : Text
  tag : Text
  attrs : List Attribute
  ending : Text
  front_xml : isXml (front ++ ['<'])
  front_quote : '"' ∉ front
  tag_chars : tag.all isNameChar
  ending_quote : '"' ∉ ending
  names_nodup : (attrs.map Attribute.name).Nodup

def Element.payload (e : Element) : Text :=
  e.front ++ '<' :: e.tag ++ e.attrs.flatMap Attribute.text ++ e.ending

/-- The value of the attribute of exactly this name. -/
def lookup (name : String) (attrs : List Attribute) : Option Text :=
  (attrs.find? fun a => a.name = name.toList).map Attribute.value

/-! ## Where a search ends -/

/-- The name ends in `name`, and the equals sign and a double quote follow at once. -/
def Attribute.Catches (name : String) (a : Attribute) : Prop :=
  a.quote = '"' ∧ a.before = [] ∧ a.after = [] ∧ name.toList <:+ a.name

/-- The value ends in `name` and an equals sign, and a double quote closes it. -/
def Attribute.Trails (name : String) (a : Attribute) : Prop :=
  a.quote = '"' ∧ name.toList ++ ['='] <:+ a.value

instance (name : String) (a : Attribute) : Decidable (a.Catches name) :=
  inferInstanceAs (Decidable (_ ∧ _))

instance (name : String) (a : Attribute) : Decidable (a.Trails name) :=
  inferInstanceAs (Decidable (_ ∧ _))

/-- What stands in front of the next double quote, if there is one. -/
def opening : List Attribute → Option Text
  | [] => none
  | b :: rest => if b.quote = '"' then some b.head else (opening rest).map (b.text ++ ·)

/-- The search for `name` ends at `a`, with `rest` behind it. -/
def EndsAt (name : String) (attrs : List Attribute) (a : Attribute) (rest : List Attribute) : Prop :=
  (∃ front, attrs = front ++ a :: rest ∧ ∀ b ∈ front, ¬ b.Catches name ∧ ¬ b.Trails name) ∧
    (a.Catches name ∨ a.Trails name)

/-- The search ends at an attribute with the value `v`; or it ends at the closing quote of one, and
`v` is what stands in front of the next double quote. -/
def Hits (name : String) (attrs : List Attribute) (v : Text) : Prop :=
  ∃ a rest, EndsAt name attrs a rest ∧
    (a.Catches name ∧ a.value = v ∨ ¬ a.Catches name ∧ opening rest = some v)

/-- The search ends nowhere, or at a closing quote with no double quote behind it. -/
def Misses (name : String) (attrs : List Attribute) : Prop :=
  ∀ a rest, EndsAt name attrs a rest → ¬ a.Catches name ∧ ∀ b ∈ rest, b.quote ≠ '"'

/-- What the search gives. -/
def reads (name : String) : List Attribute → Option Text
  | [] => none
  | a :: rest =>
    if a.Catches name then some a.value
    else if a.Trails name then opening rest
    else reads name rest

section

variable {a : Attribute} {name : String} {rest seg : Text} {attrs : List Attribute} {v : Text}

theorem Attribute.quote_not_mem (a : Attribute) : '"' ∉ a.head ∧ '"' ∉ a.value := by
  refine ⟨fun h => ?_, fun h => ?_⟩
  · simp only [Attribute.head, List.mem_append, List.mem_cons] at h
    rcases h with ((h | h) | h) | h | h
    · exact absurd (List.all_eq_true.mp a.space_white _ h) (by decide)
    · exact absurd (List.all_eq_true.mp a.name_chars _ h) (by decide)
    · exact absurd (List.all_eq_true.mp a.before_white _ h) (by decide)
    · exact absurd h (by decide)
    · exact absurd (List.all_eq_true.mp a.after_white _ h) (by decide)
  · exact absurd (List.all_eq_true.mp a.value_chars _ h) (by decide)

/-- An attribute in single quotes has no double quote in it. -/
theorem Attribute.quote_not_mem_text (a : Attribute) (h : a.quote ≠ '"') : '"' ∉ a.text := by
  obtain ⟨hHead, hValue⟩ := a.quote_not_mem
  simp [Attribute.text, hHead, hValue, Ne.symm h]

/-- The names that are looked up. -/
structure Plain (name : String) : Prop where
  ne_nil : name.toList ≠ []
  quote : '"' ∉ name.toList
  white : name.toList.all fun c => !isWhite c

/-- Nothing without blank space ends in blank space. -/
theorem not_suffix_white {n t blank : Text} (hNe : n ≠ []) (hPlain : n.all fun c => !isWhite c)
    (hBlank : blank ≠ []) (hWhite : blank.all isWhite) : ¬ n <:+ t ++ blank := by
  rintro ⟨u, hu⟩
  obtain ⟨n', c, rfl⟩ := (List.eq_nil_or_concat' n).resolve_left hNe
  have hLast := congrArg List.getLast? hu
  rw [← List.append_assoc, List.getLast?_concat, List.getLast?_append_of_ne_nil _ hBlank] at hLast
  have hIs := List.all_eq_true.mp hWhite c (List.mem_of_mem_getLast? hLast.symm)
  have hNot := List.all_eq_true.mp hPlain c (by simp)
  rw [hIs] at hNot
  cases hNot

/-- A name without blank space ends in the name of the attribute, and nowhere further in front. -/
theorem suffix_name (h : Plain name) (seg : Text) :
    name.toList <:+ seg ++ a.space ++ a.name ↔ name.toList <:+ a.name := by
  refine ⟨fun hSuffix => ?_, fun hSuffix => hSuffix.trans (List.suffix_append _ _)⟩
  rcases List.suffix_or_suffix_of_suffix hSuffix (List.suffix_append _ a.name) with hIn | ⟨t, hEq⟩
  · exact hIn
  · rcases List.eq_nil_or_concat' t with rfl | ⟨t, c, rfl⟩
    · rw [List.nil_append] at hEq
      exact hEq ▸ List.suffix_rfl
    · -- the name would begin in the blank space
      rw [← hEq, List.suffix_append_self_iff] at hSuffix
      have hFront : (t ++ [c]).all fun c => !isWhite c := by
        refine List.all_eq_true.mpr fun d hd => List.all_eq_true.mp h.white d ?_
        rw [← hEq]
        exact List.mem_append_left _ hd
      exact absurd hSuffix (not_suffix_white (by simp) hFront a.space_ne a.space_white)

/-- Where the search ends in front of an opening quote. -/
theorem suffix_head (h : Plain name) (seg : Text) : name.toList ++ ['='] <:+ seg ++ a.head ↔
    a.before = [] ∧ a.after = [] ∧ name.toList <:+ a.name := by
  by_cases hAfter : a.after = []
  · have hHead : seg ++ a.head = seg ++ a.space ++ a.name ++ a.before ++ ['='] := by
      simp [Attribute.head, hAfter]
    rw [hHead, List.suffix_append_self_iff]
    by_cases hBefore : a.before = []
    · rw [hBefore, List.append_nil, suffix_name h]
      simp [hAfter]
    · refine ⟨fun hSuffix => ?_, fun hAll => absurd hAll.1 hBefore⟩
      exact absurd hSuffix (not_suffix_white h.ne_nil h.white hBefore a.before_white)
  · refine ⟨fun hSuffix => ?_, fun hAll => absurd hAll.2.1 hAfter⟩
    have hHead : seg ++ a.head = seg ++ a.space ++ a.name ++ a.before ++ ['='] ++ a.after := by
      simp [Attribute.head]
    rw [hHead] at hSuffix
    have hPlain : (name.toList ++ ['=']).all fun c => !isWhite c := by
      rw [List.all_append, h.white]
      decide
    exact absurd hSuffix (not_suffix_white (by simp) hPlain hAfter a.after_white)

/-- One attribute of a payload. -/
theorem attr_attribute (h : Plain name) (hQuote : a.quote = '"') (hSeg : '"' ∉ seg) :
    attr (seg ++ a.text ++ rest) name =
      if a.Catches name then some a.value
      else if a.Trails name then (splitOnce ['"'] rest).map Prod.fst
      else attr rest name := by
  obtain ⟨hHead, hValue⟩ := a.quote_not_mem
  have hInit : '"' ∉ name.toList ++ ['='] := by
    rw [List.mem_append, not_or]
    exact ⟨h.quote, by decide⟩
  have hFront : '"' ∉ seg ++ a.head := by
    rw [List.mem_append, not_or]
    exact ⟨hSeg, hHead⟩
  have hText : seg ++ a.text ++ rest = (seg ++ a.head) ++ '"' :: (a.value ++ '"' :: rest) := by
    simp [Attribute.text, hQuote]
  have hNeedle : name.toList ++ ['=', '"'] = name.toList ++ ['='] ++ ['"'] := by simp
  unfold attr
  rw [hText, hNeedle, Search.splitOnce_segment hInit hFront]
  simp only [suffix_head h, Attribute.Catches, Attribute.Trails, hQuote, true_and]
  split
  · have hEnd : splitOnce ['"'] (a.value ++ '"' :: rest) = some (a.value, rest) :=
      Search.splitOnce_singleton.mpr ⟨rfl, hValue⟩
    simp only [Option.bind_eq_bind, Option.bind_some, hEnd]
    rfl
  · rw [Search.splitOnce_segment hInit hValue]
    split
    · simp only [Option.bind_eq_bind, Option.map_some, Option.bind_some]
      cases splitOnce ['"'] rest <;> rfl
    · cases splitOnce (name.toList ++ ['='] ++ ['"']) rest <;> rfl

theorem attr_open (hSeg : '"' ∉ seg) : attr seg name = none := by
  have hNeedle : name.toList ++ ['=', '"'] = name.toList ++ ['='] ++ ['"'] := by simp
  rw [attr, hNeedle, Search.splitOnce_open hSeg]
  rfl

/-- What stands in front of the next double quote. -/
theorem splitOnce_attrs (hSeg : '"' ∉ seg) (attrs : List Attribute) {ending : Text}
    (hEnding : '"' ∉ ending) :
    (splitOnce ['"'] (seg ++ (attrs.flatMap Attribute.text ++ ending))).map Prod.fst =
      (opening attrs).map (seg ++ ·) := by
  induction attrs generalizing seg with
  | nil =>
    have hNone : splitOnce ([] ++ ['"']) (seg ++ ending) = none :=
      Search.splitOnce_open (by simp [hSeg, hEnding])
    rw [List.nil_append] at hNone
    rw [List.flatMap_nil, List.nil_append, hNone]
    rfl
  | cons b attrs ih =>
    rw [opening]
    split
    · rename_i hQuote
      have hSplit : splitOnce ['"'] (seg ++ ((b :: attrs).flatMap Attribute.text ++ ending)) =
          some (seg ++ b.head, b.value ++ '"' :: (attrs.flatMap Attribute.text ++ ending)) := by
        rw [Search.splitOnce_singleton]
        exact ⟨by simp [Attribute.text, hQuote], by simp [hSeg, b.quote_not_mem.1]⟩
      rw [hSplit]
      rfl
    · rename_i hQuote
      have hText : seg ++ ((b :: attrs).flatMap Attribute.text ++ ending) =
          (seg ++ b.text) ++ (attrs.flatMap Attribute.text ++ ending) := by simp
      have hMore : '"' ∉ seg ++ b.text := by
        rw [List.mem_append, not_or]
        exact ⟨hSeg, b.quote_not_mem_text hQuote⟩
      rw [hText, ih hMore]
      cases opening attrs <;> simp

theorem attr_attrs (h : Plain name) (hSeg : '"' ∉ seg) (attrs : List Attribute) {ending : Text}
    (hEnding : '"' ∉ ending) :
    attr (seg ++ (attrs.flatMap Attribute.text ++ ending)) name = reads name attrs := by
  induction attrs generalizing seg with
  | nil =>
    refine attr_open ?_
    simp [hSeg, hEnding]
  | cons a attrs ih =>
    have hText : seg ++ ((a :: attrs).flatMap Attribute.text ++ ending) =
        seg ++ a.text ++ (attrs.flatMap Attribute.text ++ ending) := by simp
    have hNil : '"' ∉ ([] : Text) := List.not_mem_nil
    rw [hText, reads]
    by_cases hQuote : a.quote = '"'
    · have hOpening := splitOnce_attrs hNil attrs hEnding
      simp only [List.nil_append, Option.map_id'] at hOpening
      rw [attr_attribute h hQuote hSeg, hOpening]
      congr 2
      exact ih hNil
    · have hMore : '"' ∉ seg ++ a.text := by
        rw [List.mem_append, not_or]
        exact ⟨hSeg, a.quote_not_mem_text hQuote⟩
      rw [ih hMore, if_neg fun hCatches => hQuote hCatches.1,
        if_neg fun hTrails => hQuote hTrails.1]

/-- What is looked up in a payload is read off its attributes. -/
theorem attr_payload (h : Plain name) (e : Element) : attr e.payload name = reads name e.attrs := by
  have hHead : '"' ∉ e.front ++ '<' :: e.tag := by
    have hTag : '"' ∉ e.tag := fun hMem =>
      absurd (List.all_eq_true.mp e.tag_chars _ hMem) (by decide)
    simp [e.front_quote, hTag]
  rw [Element.payload, List.append_assoc]
  exact attr_attrs h hHead e.attrs e.ending_quote

/-! ## What a search gives -/

theorem opening_eq_none : opening attrs = none ↔ ∀ b ∈ attrs, b.quote ≠ '"' := by
  induction attrs with
  | nil => simp [opening]
  | cons b attrs ih =>
    rw [opening, List.forall_mem_cons]
    split
    · rename_i hQuote
      simp [hQuote]
    · rename_i hQuote
      rw [Option.map_eq_none_iff, ih]
      exact ⟨fun h => ⟨hQuote, h⟩, And.right⟩

theorem not_endsAt_nil {b : Attribute} {behind : List Attribute} : ¬ EndsAt name [] b behind := by
  rintro ⟨⟨front, hEq, -⟩, -⟩
  exact absurd hEq.symm (List.append_ne_nil_of_right_ne_nil _ (List.cons_ne_nil _ _))

/-- The search ends at the first attribute at which it can. -/
theorem endsAt_here (h : a.Catches name ∨ a.Trails name) {b : Attribute}
    {behind : List Attribute} : EndsAt name (a :: attrs) b behind ↔ b = a ∧ behind = attrs := by
  constructor
  · rintro ⟨⟨front, hEq, hFront⟩, -⟩
    cases front with
    | nil =>
      obtain ⟨rfl, rfl⟩ := List.cons.inj hEq
      exact ⟨rfl, rfl⟩
    | cons c front =>
      obtain ⟨rfl, -⟩ := List.cons.inj hEq
      obtain ⟨hCatches, hTrails⟩ := hFront a List.mem_cons_self
      exact (h.elim hCatches hTrails).elim
  · rintro ⟨rfl, rfl⟩
    exact ⟨⟨[], rfl, fun b hb => absurd hb List.not_mem_nil⟩, h⟩

theorem endsAt_behind (h : ¬ a.Catches name ∧ ¬ a.Trails name) {b : Attribute}
    {behind : List Attribute} :
    EndsAt name (a :: attrs) b behind ↔ EndsAt name attrs b behind := by
  constructor
  · rintro ⟨⟨front, hEq, hFront⟩, hEnds⟩
    cases front with
    | nil =>
      obtain ⟨rfl, -⟩ := List.cons.inj hEq
      exact (hEnds.elim h.1 h.2).elim
    | cons c front =>
      obtain ⟨-, rfl⟩ := List.cons.inj hEq
      exact ⟨⟨front, rfl, (List.forall_mem_cons.mp hFront).2⟩, hEnds⟩
  · rintro ⟨⟨front, rfl, hFront⟩, hEnds⟩
    exact ⟨⟨a :: front, rfl, List.forall_mem_cons.mpr ⟨h, hFront⟩⟩, hEnds⟩

theorem reads_spec (name : String) (attrs : List Attribute) :
    (∀ v, reads name attrs = some v ↔ Hits name attrs v) ∧
      (reads name attrs = none ↔ Misses name attrs) := by
  induction attrs with
  | nil =>
    refine ⟨fun v => ⟨fun h => (by cases h), ?_⟩, ⟨fun _ b behind h => ?_, fun _ => rfl⟩⟩
    · rintro ⟨b, behind, hEnds, -⟩
      exact absurd hEnds not_endsAt_nil
    · exact absurd h not_endsAt_nil
  | cons a attrs ih =>
    rw [reads]
    by_cases hCatches : a.Catches name
    · simp only [if_pos hCatches, Hits, Misses, endsAt_here (.inl hCatches)]
      refine ⟨fun v => ⟨fun h => ?_, ?_⟩, ⟨fun h => (by cases h), fun h => ?_⟩⟩
      · exact ⟨a, attrs, ⟨rfl, rfl⟩, .inl ⟨hCatches, Option.some.inj h⟩⟩
      · rintro ⟨b, behind, ⟨rfl, rfl⟩, ⟨-, rfl⟩ | ⟨hNot, -⟩⟩
        · rfl
        · exact absurd hCatches hNot
      · exact absurd hCatches (h a attrs ⟨rfl, rfl⟩).1
    · by_cases hTrails : a.Trails name
      · simp only [if_neg hCatches, if_pos hTrails, Hits, Misses, endsAt_here (.inr hTrails)]
        refine ⟨fun v => ⟨fun h => ?_, ?_⟩, ⟨fun h => ?_, fun h => ?_⟩⟩
        · exact ⟨a, attrs, ⟨rfl, rfl⟩, .inr ⟨hCatches, h⟩⟩
        · rintro ⟨b, behind, ⟨rfl, rfl⟩, ⟨hIs, -⟩ | ⟨-, hOpening⟩⟩
          · exact absurd hIs hCatches
          · exact hOpening
        · rintro b behind ⟨rfl, rfl⟩
          exact ⟨hCatches, opening_eq_none.mp h⟩
        · exact opening_eq_none.mpr (h a attrs ⟨rfl, rfl⟩).2
      · simp only [if_neg hCatches, if_neg hTrails, Hits, Misses,
          endsAt_behind ⟨hCatches, hTrails⟩]
        exact ih

end

/-! ## The hint -/

/-- The names under which the md5 is looked up: the second one when there is no attribute `md5`. -/
def md5Names (base : Int) : List String :=
  if base = 3 then ["md5", "cdnthumbmd5"] else if base = 43 then ["md5", "cdnvideomd5"] else ["md5"]

/-- The md5 by the attributes of exactly its names. -/
def md5Of (base : Int) (attrs : List Attribute) : Option Text :=
  (md5Names base).findSome? (lookup · attrs)

/-- The hint says what the attributes of exactly its names say. -/
structure HintExact (base localId : Int) (attrs : List Attribute) (hint : MediaHint) : Prop where
  md5 : hint.md5 = (md5Of base attrs).map String.ofList
  aesKey : base ≠ 47 → hint.aesKey = (lookup "aeskey" attrs).map String.ofList
  ext : base = 3 → hint.fileName =
    mediaFileName (md5Of base attrs) "img" localId (extOf (lookup "type" attrs))

/-- The attribute that is asked for: the one of the first name that is there. -/
def Asked : List String → List Attribute → Attribute → Prop
  | [], _, _ => False
  | name :: names, attrs, b =>
    b ∈ attrs ∧ b.name = name.toList ∨ (∀ a ∈ attrs, a.name ≠ name.toList) ∧ Asked names attrs b

/-- Of the searches for some names, the first that does not miss hits `v`. -/
def HitsFirst : List String → List Attribute → Text → Prop
  | [], _, _ => False
  | name :: names, attrs, v => Hits name attrs v ∨ Misses name attrs ∧ HitsFirst names attrs v

/-- The search hits the value of the attribute that is asked for, and nothing if there is none. -/
structure Reached (names : List String) (attrs : List Attribute) : Prop where
  present : ∀ b, Asked names attrs b → HitsFirst names attrs b.value
  absent : (∀ b, ¬ Asked names attrs b) → ∀ name ∈ names, Misses name attrs

/-- No other attribute and no spelling gets between a search and the attribute it is for. Of `type`
only three values matter. -/
structure Unshadowed (base : Int) (attrs : List Attribute) : Prop where
  md5 : Reached (md5Names base) attrs
  aesKey : base ≠ 47 → Reached ["aeskey"] attrs
  ext : base = 3 → ∀ v ∈ ["2", "3", "4"], Hits "type" attrs v.toList ↔
    ∃ b ∈ attrs, b.name = "type".toList ∧ b.value = v.toList

theorem ofList_map_inj {a b : Option Text} : a.map String.ofList = b.map String.ofList ↔ a = b := by
  refine ⟨fun h => Option.map_injective (fun s t hst => ?_) h, congrArg _⟩
  rw [← String.toList_ofList (l := s), hst, String.toList_ofList]

section

variable {attrs : List Attribute} {names : List String} {name : String} {v : Text}

theorem lookup_some (hNodup : (attrs.map Attribute.name).Nodup) :
    lookup name attrs = some v ↔ ∃ b ∈ attrs, b.name = name.toList ∧ b.value = v := by
  rw [lookup, Option.map_eq_some_iff]
  constructor
  · rintro ⟨b, hFind, rfl⟩
    exact ⟨b, List.mem_of_find?_eq_some hFind, by simpa using List.find?_some hFind, rfl⟩
  · rintro ⟨b, hb, hName, rfl⟩
    cases hFind : attrs.find? fun a => a.name = name.toList with
    | none => exact absurd hName (by simpa using List.find?_eq_none.mp hFind b hb)
    | some a =>
      have hSame : a.name = b.name := by
        rw [hName]
        simpa using List.find?_some hFind
      rw [List.inj_on_of_nodup_map hNodup (List.mem_of_find?_eq_some hFind) hb hSame]
      exact ⟨b, rfl, rfl⟩

theorem lookup_none : lookup name attrs = none ↔ ∀ b ∈ attrs, b.name ≠ name.toList := by
  rw [lookup, Option.map_eq_none_iff, List.find?_eq_none]
  simp

theorem findSome?_lookup (hNodup : (attrs.map Attribute.name).Nodup) (v : Text) :
    names.findSome? (lookup · attrs) = some v ↔ ∃ b, Asked names attrs b ∧ b.value = v := by
  induction names with
  | nil => simp [Asked]
  | cons name names ih =>
    rw [List.findSome?_cons]
    cases hLookup : lookup name attrs with
    | none =>
      have hNone := lookup_none.mp hLookup
      have hAsked : ∀ b, Asked (name :: names) attrs b ↔ Asked names attrs b := fun b =>
        ⟨fun h => (h.resolve_left fun hIs => hNone b hIs.1 hIs.2).2, fun h => .inr ⟨hNone, h⟩⟩
      simp only [hAsked]
      exact ih
    | some u =>
      obtain ⟨b, hb, hName, rfl⟩ := (lookup_some hNodup).mp hLookup
      constructor
      · rintro ⟨⟩
        exact ⟨b, .inl ⟨hb, hName⟩, rfl⟩
      · rintro ⟨b', ⟨hb', hName'⟩ | ⟨hNone, -⟩, rfl⟩
        · rw [List.inj_on_of_nodup_map hNodup hb' hb (hName'.trans hName.symm)]
        · exact absurd hName (hNone b hb)

theorem findSome?_reads (v : Text) :
    names.findSome? (reads · attrs) = some v ↔ HitsFirst names attrs v := by
  induction names with
  | nil => simp [HitsFirst]
  | cons name names ih =>
    obtain ⟨hSome, hNone⟩ := reads_spec name attrs
    rw [List.findSome?_cons, HitsFirst, ← hSome, ← hNone]
    cases reads name attrs with
    | none => simp [ih]
    | some u => simp

theorem findSome?_reads_none :
    names.findSome? (reads · attrs) = none ↔ ∀ name ∈ names, Misses name attrs := by
  rw [List.findSome?_eq_none_iff]
  exact forall₂_congr fun name _ => (reads_spec name attrs).2

/-- The searches give what is asked for exactly if they reach it. -/
theorem reached_iff (hNodup : (attrs.map Attribute.name).Nodup) :
    names.findSome? (reads · attrs) = names.findSome? (lookup · attrs) ↔ Reached names attrs := by
  constructor
  · intro hSame
    refine ⟨fun b hb => ?_, fun hNone => ?_⟩
    · rw [← findSome?_reads, hSame, findSome?_lookup hNodup]
      exact ⟨b, hb, rfl⟩
    · rw [← findSome?_reads_none, hSame, Option.eq_none_iff_forall_ne_some]
      intro v hSome
      obtain ⟨b, hb, -⟩ := (findSome?_lookup hNodup v).mp hSome
      exact hNone b hb
  · rintro ⟨hPresent, hAbsent⟩
    cases hLookup : names.findSome? (lookup · attrs) with
    | none =>
      refine findSome?_reads_none.mpr (hAbsent fun b hb => ?_)
      have hSome := (findSome?_lookup hNodup b.value).mpr ⟨b, hb, rfl⟩
      rw [hLookup] at hSome
      cases hSome
    | some v =>
      obtain ⟨b, hb, rfl⟩ := (findSome?_lookup hNodup v).mp hLookup
      exact (findSome?_reads _).mpr (hPresent b hb)

/-- Three values of `type` have an extension of their own. -/
theorem extOf_eq (a : Option Text) : extOf a = if a = some "2".toList then "png" else
    if a = some "3".toList then "gif" else if a = some "4".toList then "webp" else "jpg" := by
  have hText : ∀ s : String, a.map String.ofList = some s ↔ a = some s.toList := by
    intro s
    rw [← ofList_map_inj, Option.map_some, String.ofList_toList]
  unfold extOf
  split
  · rename_i hTwo
    rw [if_pos ((hText "2").mp hTwo)]
  · rename_i hThree
    rw [(hText "3").mp hThree]
    rfl
  · rename_i hFour
    rw [(hText "4").mp hFour]
    rfl
  · rename_i hTwo hThree hFour
    rw [if_neg fun h => hTwo ((hText "2").mpr h), if_neg fun h => hThree ((hText "3").mpr h),
      if_neg fun h => hFour ((hText "4").mpr h)]

/-- The extension tells which of the three it is. -/
theorem extOf_tells (a : Option Text) : (a = some "2".toList ↔ extOf a = "png") ∧
    (a = some "3".toList ↔ extOf a = "gif") ∧ (a = some "4".toList ↔ extOf a = "webp") := by
  rw [extOf_eq]
  refine ⟨⟨fun h => if_pos h, fun h => ?_⟩, ⟨fun h => (by rw [h]; rfl), fun h => ?_⟩,
    fun h => (by rw [h]; rfl), fun h => ?_⟩
  all_goals
    by_contra hNot
    rw [if_neg hNot] at h
    split_ifs at h <;> exact absurd h (by decide)

theorem extOf_eq_iff {a b : Option Text} : extOf a = extOf b ↔
    ∀ v ∈ ["2", "3", "4"], a = some v.toList ↔ b = some v.toList := by
  constructor
  · intro hSame
    simp only [List.forall_mem_cons]
    refine ⟨?_, ?_, ?_, fun v hv => absurd hv List.not_mem_nil⟩
    · rw [(extOf_tells a).1, (extOf_tells b).1, hSame]
    · rw [(extOf_tells a).2.1, (extOf_tells b).2.1, hSame]
    · rw [(extOf_tells a).2.2, (extOf_tells b).2.2, hSame]
  · intro h
    rw [extOf_eq, extOf_eq]
    simp only [h "2" (by simp), h "3" (by simp), h "4" (by simp)]

end

theorem payload_isXml (e : Element) : isXml e.payload := by
  rw [Element.payload, List.append_assoc, List.append_assoc, List.cons_append, isXml_tag]
  exact e.front_xml

theorem mediaFileName_inj {md5 : Option Text} {stem ext ext' : String} {localId : Int} :
    mediaFileName md5 stem localId ext = mediaFileName md5 stem localId ext' ↔ ext = ext' := by
  refine ⟨fun h => ?_, congrArg _⟩
  cases md5 with
  | none => exact String.append_right_inj _ |>.mp h
  | some m => exact String.append_right_inj _ |>.mp h

theorem plain_names (name : String)
    (h : name ∈ ["md5", "cdnthumbmd5", "cdnvideomd5", "aeskey", "type"]) : Plain name := by
  simp only [List.mem_cons, List.not_mem_nil, or_false] at h
  rcases h with rfl | rfl | rfl | rfl | rfl <;> exact ⟨by decide, by decide, by decide⟩

/-- A hint that is read off the attributes says what those of exactly its names say, when these are
unshadowed. -/
theorem hintExact_iff {base localId : Int} {attrs : List Attribute} {hint : MediaHint}
    (hNodup : (attrs.map Attribute.name).Nodup)
    (hMd5 : hint.md5 = ((md5Names base).findSome? (reads · attrs)).map String.ofList)
    (hAes : base ≠ 47 → hint.aesKey = (reads "aeskey" attrs).map String.ofList)
    (hExt : base = 3 → hint.fileName = mediaFileName ((md5Names base).findSome? (reads · attrs))
      "img" localId (extOf (reads "type" attrs))) :
    HintExact base localId attrs hint ↔ Unshadowed base attrs := by
  have hKey : Reached ["aeskey"] attrs ↔ reads "aeskey" attrs = lookup "aeskey" attrs := by
    rw [← reached_iff hNodup, List.findSome?_singleton, List.findSome?_singleton]
  have hType : (∀ v ∈ ["2", "3", "4"], Hits "type" attrs v.toList ↔
      ∃ b ∈ attrs, b.name = "type".toList ∧ b.value = v.toList) ↔
        extOf (reads "type" attrs) = extOf (lookup "type" attrs) := by
    rw [extOf_eq_iff]
    refine forall₂_congr fun v _ => ?_
    rw [(reads_spec "type" attrs).1, lookup_some hNodup]
  have hUnshadowed : Unshadowed base attrs ↔
      (md5Names base).findSome? (reads · attrs) = md5Of base attrs ∧
        (base ≠ 47 → reads "aeskey" attrs = lookup "aeskey" attrs) ∧
        (base = 3 → extOf (reads "type" attrs) = extOf (lookup "type" attrs)) := by
    rw [md5Of, reached_iff hNodup, ← hKey, ← hType]
    exact ⟨fun h => ⟨h.md5, h.aesKey, h.ext⟩, fun h => ⟨h.1, h.2.1, h.2.2⟩⟩
  rw [hUnshadowed]
  constructor
  · rintro ⟨hSame, hKeySame, hName⟩
    rw [hMd5, ofList_map_inj] at hSame
    refine ⟨hSame, fun hNe => ?_, fun hEq => ?_⟩
    · have hIt := hKeySame hNe
      rwa [hAes hNe, ofList_map_inj] at hIt
    · have hIt := hName hEq
      rwa [hExt hEq, hSame, mediaFileName_inj] at hIt
  · rintro ⟨hSame, hKeySame, hTypeSame⟩
    refine ⟨hMd5.trans (ofList_map_inj.mpr hSame),
      fun hNe => (hAes hNe).trans (ofList_map_inj.mpr (hKeySame hNe)), fun hEq => ?_⟩
    rw [hExt hEq, hSame, hTypeSame hEq]

/-- Exactly for unshadowed payloads the hint is what the attributes say. -/
theorem mediaHint_exact_iff (localType serverId localId : Int) (e : Element)
    (hBase : (splitLocalType localType).1 ∈ ([3, 43, 47] : List Int)) :
    ∃ hint, (parseMessage localType serverId localId e.payload).media = some hint ∧
      (HintExact (splitLocalType localType).1 localId e.attrs hint ↔
        Unshadowed (splitLocalType localType).1 e.attrs) := by
  have hMedia : (parseMessage localType serverId localId e.payload).media =
      mediaHint localType serverId localId e.payload := by
    unfold parseMessage
    simp only [payload_isXml, if_true]
  have hMd5 := attr_payload (plain_names "md5" (by simp)) e
  have hThumb := attr_payload (plain_names "cdnthumbmd5" (by simp)) e
  have hVideo := attr_payload (plain_names "cdnvideomd5" (by simp)) e
  have hKey := attr_payload (plain_names "aeskey" (by simp)) e
  have hType := attr_payload (plain_names "type" (by simp)) e
  rw [hMedia]
  simp only [List.mem_cons, List.not_mem_nil, or_false] at hBase
  rcases hBase with hBase | hBase | hBase
  · -- a picture
    have hRead : (md5Names 3).findSome? (reads · e.attrs) =
        (reads "md5" e.attrs).or (reads "cdnthumbmd5" e.attrs) := by
      change ["md5", "cdnthumbmd5"].findSome? (reads · e.attrs) = _
      rw [List.findSome?_cons, List.findSome?_singleton]
      cases reads "md5" e.attrs <;> rfl
    rw [hBase]
    refine ⟨⟨.image, mediaFileName ((md5Names 3).findSome? (reads · e.attrs)) "img" localId
      (extOf (reads "type" e.attrs)),
      ((md5Names 3).findSome? (reads · e.attrs)).map String.ofList,
      (reads "aeskey" e.attrs).map String.ofList⟩, ?_,
      hintExact_iff e.names_nodup rfl (fun _ => rfl) fun _ => rfl⟩
    unfold mediaHint
    simp only [hBase, hMd5, hThumb, hKey, imageExt, hType, hRead]
  · -- a video
    have hRead : (md5Names 43).findSome? (reads · e.attrs) =
        (reads "md5" e.attrs).or (reads "cdnvideomd5" e.attrs) := by
      change ["md5", "cdnvideomd5"].findSome? (reads · e.attrs) = _
      rw [List.findSome?_cons, List.findSome?_singleton]
      cases reads "md5" e.attrs <;> rfl
    rw [hBase]
    refine ⟨⟨.video, mediaFileName ((md5Names 43).findSome? (reads · e.attrs)) "video" localId
      "mp4", ((md5Names 43).findSome? (reads · e.attrs)).map String.ofList,
      (reads "aeskey" e.attrs).map String.ofList⟩, ?_,
      hintExact_iff e.names_nodup rfl (fun _ => rfl) fun hEq => absurd hEq (by decide)⟩
    unfold mediaHint
    simp only [hBase, hMd5, hVideo, hKey, hRead]
  · -- an emoji, which has no fallback
    have hRead : (md5Names 47).findSome? (reads · e.attrs) = reads "md5" e.attrs :=
      List.findSome?_singleton
    rw [hBase]
    refine ⟨⟨.emoji, mediaFileName ((md5Names 47).findSome? (reads · e.attrs)) "emoji" localId
      "gif", ((md5Names 47).findSome? (reads · e.attrs)).map String.ofList, none⟩, ?_,
      hintExact_iff e.names_nodup rfl (fun hNe => absurd rfl hNe) fun hEq => absurd hEq (by decide)⟩
    unfold mediaHint
    simp only [hBase, hMd5, hRead]

def attributeOf (name value : Text) (hName : name.all isNameChar)
    (hValue : value.all fun c => !(['"', '\'', '<', '>'].contains c)) : Attribute :=
  { space := [' ']
    name
    value
    space_ne := by decide
    space_white := by decide
    name_chars := hName
    value_chars := hValue }

/-- A picture whose thumbnail is named in front of it. -/
def thumbFirst : Element where
  front := []
  tag := ['i', 'm', 'g']
  attrs := [attributeOf "cdnthumbmd5".toList ['a'] (by decide) (by decide),
    attributeOf "md5".toList ['b'] (by decide) (by decide)]
  ending := ['/', '>']
  front_xml := by decide
  front_quote := by decide
  tag_chars := by decide
  ending_quote := by decide
  names_nodup := by decide

theorem mediaHint_exact_iff_thumbFirst :
    ∃ hint, (parseMessage 3 1 2 thumbFirst.payload).media = some hint ∧
      (HintExact (splitLocalType 3).1 2 thumbFirst.attrs hint ↔
        Unshadowed (splitLocalType 3).1 thumbFirst.attrs) :=
  mediaHint_exact_iff 3 1 2 thumbFirst (by decide)

/-- The picture gets the md5 of its thumbnail. -/
theorem thumbnail_taken :
    (parseMessage 3 1 2 thumbFirst.payload).media = some ⟨.image, "a.jpg", some "a", none⟩ ∧
      ¬ HintExact 3 2 thumbFirst.attrs ⟨.image, "a.jpg", some "a", none⟩ := by
  refine ⟨by decide +kernel, fun hExact => ?_⟩
  have hMd5 : md5Of 3 thumbFirst.attrs = some ['b'] := by decide
  have hEq := hExact.md5
  rw [hMd5] at hEq
  exact absurd hEq (by decide)

end Weflow.Parser
