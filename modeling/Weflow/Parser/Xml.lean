import Mathlib.Data.List.DropRight
import Weflow.Parser.Content

/-!
# Looking into a payload

The accessors of `parser/mod.rs` and of its feed parser. They search the whole text for the
first match and know nothing of nesting.
-/

namespace Weflow.Parser

open Search (splitOnce)

/-- `format!("<{name}>")` -/
def openTag (name : String) : Text := '<' :: name.toList ++ ['>']

/-- `format!("</{name}>")` -/
def closeTag (name : String) : Text := '<' :: '/' :: name.toList ++ ['>']

/-- Find an attribute value inside an XML-ish string: `name="value"`. -/
def attr (xml : Text) (name : String) : Option Text := do
  let (_, rest) ← splitOnce (name.toList ++ ['=', '"']) xml
  let (value, _) ← splitOnce ['"'] rest
  return value

/-- Extract the text of the first element with `name`. -/
def elemText (xml : Text) (name : String) : Option Text := do
  let (_, rest) ← splitOnce (openTag name) xml
  let (text, _) ← splitOnce (closeTag name) rest
  return text

/-- Remove the first `<name>…</name>` span, or nothing when it is absent or unterminated. -/
def stripElem (xml : Text) (name : String) : Text :=
  match splitOnce (openTag name) xml with
  | none => xml
  | some (before, rest) =>
    match splitOnce (closeTag name) (openTag name ++ rest) with
    | none => xml
    | some (_, after) => before ++ after

/-- `elemText` with the CDATA wrapper removed; none for an empty result. -/
def elemTextUnwrapped (xml : Text) (name : String) : Option Text := do
  let raw ← elemText xml name
  let t := trimChars raw
  let unwrapped := do
    let r ← Framing.stripPrefix "<![CDATA[".toList t
    let inner ← Framing.stripPrefix "]]>".toList.reverse r.reverse
    return inner.reverse
  let inner := trimChars (unwrapped.getD t)
  if inner = [] then none else some inner

/-- The variables of `strip_tags`. -/
structure TagState where
  out : Text := []
  inTag : Bool := false
  seg : Text := []

def TagState.push (s : TagState) (c : Char) : TagState :=
  if c = '<' then
    { out := if trimChars s.seg ≠ [] then s.out ++ trimChars s.seg ++ [' '] else s.out
      inTag := true
      seg := [] }
  else if c = '>' then { s with inTag := false }
  else if s.inTag then s
  else { s with seg := s.seg ++ [c] }

/-- Strip all XML tags, keeping inner text segments joined by a space. -/
def stripTags (xml : Text) : Text :=
  let s := xml.foldl TagState.push {}
  trimChars (if trimChars s.seg ≠ [] then s.out ++ trimChars s.seg else s.out)

def isXml (s : Text) : Bool := startsTag (trimStart s)

/-- Whether a text is XML is decided in front of its first tag. -/
theorem isXml_tag (before rest : Text) :
    isXml (before ++ '<' :: rest) = isXml (before ++ ['<']) := by
  unfold isXml trimStart
  induction before with
  | nil => rfl
  | cons c before ih =>
    rw [List.cons_append, List.cons_append, List.dropWhile_cons, List.dropWhile_cons]
    split
    · exact ih
    · rfl

/-- `contains` -/
def contains (s : Text) (needle : String) : Bool := (splitOnce needle.toList s).isSome

end Weflow.Parser
