import Weflow.Lib.Html
import Weflow.Lib.Json
import Weflow.Lib.Url
import Weflow.Server.Params

/-!
# The HTML export of moments

`article_html` of `server/handlers/sns.rs`: one entry of the feed as a fragment, with the escaping
of its data and the rule for links. What a tokenizer reads of the fragment is the template with the
data as text and as one attribute value (`read_article`), whatever the entry holds. The rule for
links looks at the raw text of the URL; `injection_free_iff` says which URLs pass it and still
lead to another host.
-/

namespace Weflow.Sns

open Html (Token Refs)

/-! ## Rendering -/

/-- `str::replace` of one character. -/
def replaceChar (c : Char) (by_ : String) (s : List Char) : List Char :=
  s.flatMap fun d => if d = c then by_.toList else [d]

def htmlEscape (s : List Char) : List Char :=
  replaceChar '\'' "&#39;" (replaceChar '"' "&quot;" (replaceChar '>' "&gt;"
    (replaceChar '<' "&lt;" (replaceChar '&' "&amp;" s))))

def startsWith (s : List Char) (start : String) : Bool := start.toList.isPrefixOf s

/-- A path that looks like one of this server. -/
def sameOrigin (u : List Char) : Bool :=
  startsWith u "/" && !startsWith u "//" && !u.contains '\\'

def web (u : List Char) : Bool :=
  let lower := u.map Char.toLower
  startsWith lower "http://" || startsWith lower "https://"

def linked (u : List Char) : Bool := sameOrigin u || web u

def mediaLinkHtml (u : List Char) : List Char :=
  let esc := htmlEscape u
  if linked u then
    "<div class=\"media\"><a href=\"".toList ++ esc ++ "\">".toList ++ esc ++ "</a></div>".toList
  else "<div class=\"media\">".toList ++ esc ++ "</div>".toList

/-- `e[key]`, null where there is none. -/
def index (e : Json.Value) (key : String) : Json.Value := (e.get key).getD .null

/-- `as_i64` -/
def asI64 : Json.Value → Option Int
  | .int i => if InI64 i then some i else none
  | _ => none

def text (e : Json.Value) (key : String) : List Char := ((index e key).asStr.getD "").toList

/-- The URL of a media entry. -/
def mediaUrl (m : Json.Value) : List Char :=
  ((((index m "thumb").asStr.filter (· ≠ "")).or (index m "url").asStr).getD "").toList

def mediaUrls (e : Json.Value) : List (List Char) :=
  ((index e "media").asArray.getD []).map mediaUrl

/-- The time of an entry: a number as it is, a text escaped. -/
def whenHtml (e : Json.Value) : List Char :=
  match asI64 (index e "createTime") with
  | some n => (toString n).toList
  | none => htmlEscape (text e "createTime")

def articleHtml (e : Json.Value) : List Char :=
  "<article><header><b>".toList ++ htmlEscape (text e "displayName") ++ "</b> <time>".toList ++
    whenHtml e ++ "</time></header><p>".toList ++ htmlEscape (text e "contentDesc") ++
    "</p>".toList ++ (mediaUrls e).flatMap mediaLinkHtml ++ "</article>\n".toList

/-! ## The template -/

/-- An entry as the fragment shows it: what stands for its name, time and text, and its media, with
a link or without. -/
structure Shown where
  name : List Char
  time : List Char
  desc : List Char
  media : List (Bool × List Char)

def media (m : Bool × List Char) : List Char :=
  Html.openingWith "div".toList "class".toList "media".toList ++
    ((if m.1 then Html.openingWith "a".toList "href".toList m.2 ++
        (Html.escape m.2 ++ Html.closing "a".toList)
      else Html.escape m.2) ++ Html.closing "div".toList)

/-- The fragment of an entry. -/
def fragment (s : Shown) : List Char :=
  Html.opening "article".toList ++ (Html.opening "header".toList ++ (Html.opening "b".toList ++
    (Html.escape s.name ++ (Html.closing "b".toList ++ (Html.escape [' '] ++
      (Html.opening "time".toList ++ (Html.escape s.time ++ (Html.closing "time".toList ++
        (Html.closing "header".toList ++ (Html.opening "p".toList ++ (Html.escape s.desc ++
          (Html.closing "p".toList ++ (s.media.flatMap media ++ (Html.closing "article".toList ++
            Html.escape ['\n']))))))))))))))

def chars (s : List Char) : List Token := s.map Token.char

def mediaTokens (m : Bool × List Char) : List Token :=
  .open_ "div".toList [("class".toList, "media".toList)] ::
    ((if m.1 then .open_ "a".toList [("href".toList, m.2.map Html.valueChar)] ::
        (chars m.2 ++ [.close "a".toList])
      else chars m.2) ++ [.close "div".toList])

/-- The tags of the template, with the data as text and as the value of `href`. -/
def template (s : Shown) : List Token :=
  [.open_ "article".toList [], .open_ "header".toList [], .open_ "b".toList []] ++
    (chars s.name ++ (.close "b".toList :: .char ' ' :: .open_ "time".toList [] ::
      (chars s.time ++ (.close "time".toList :: .close "header".toList ::
        .open_ "p".toList [] :: (chars s.desc ++ (.close "p".toList ::
          (s.media.flatMap mediaTokens ++ [.close "article".toList, .char '\n'])))))))

/-- The names of the template's tags and attributes. -/
def tagNames : List String := ["article", "header", "b", "time", "p", "div", "a", "class", "href"]

theorem tagNames_all : tagNames.all (fun n => Html.IsName n.toList) = true := by decide +kernel

theorem isName {n : String} (h : n ∈ tagNames) : Html.IsName n.toList :=
  of_decide_eq_true (List.all_eq_true.mp tagNames_all n h)

theorem read_media (refs : Refs) (m : Bool × List Char) (rest : List Char) :
    Html.read refs .data (media m ++ rest) = mediaTokens m ++ Html.read refs .data rest := by
  obtain ⟨isLink, u⟩ := m
  have hDiv : Html.IsName "div".toList := isName (by simp [tagNames])
  have hA : Html.IsName "a".toList := isName (by simp [tagNames])
  rw [media, List.append_assoc, Html.read_openingWith refs hDiv (isName (by simp [tagNames]))]
  cases isLink
  · simp only [Bool.false_eq_true, if_false, List.append_assoc]
    rw [Html.read_text, Html.read_closing refs hDiv]
    simp only [mediaTokens, Bool.false_eq_true, if_false, chars, List.cons_append,
      List.append_assoc, List.nil_append]
    rfl
  · simp only [if_true, List.append_assoc]
    rw [Html.read_openingWith refs hA (isName (by simp [tagNames])), Html.read_text,
      Html.read_closing refs hA, Html.read_closing refs hDiv]
    simp only [mediaTokens, if_true, chars, List.cons_append, List.append_assoc, List.nil_append]
    rfl

theorem read_medias (refs : Refs) (ms : List (Bool × List Char)) (rest : List Char) :
    Html.read refs .data (ms.flatMap media ++ rest) =
      ms.flatMap mediaTokens ++ Html.read refs .data rest := by
  induction ms with
  | nil => rfl
  | cons m ms ih =>
    rw [List.flatMap_cons, List.append_assoc, read_media, ih, List.flatMap_cons, List.append_assoc]

/-- A fragment is read as its template. -/
theorem read_fragment (refs : Refs) (s : Shown) :
    Html.tokens refs (fragment s) = template s := by
  have hArticle : Html.IsName "article".toList := isName (by simp [tagNames])
  have hHeader : Html.IsName "header".toList := isName (by simp [tagNames])
  have hB : Html.IsName "b".toList := isName (by simp [tagNames])
  have hTime : Html.IsName "time".toList := isName (by simp [tagNames])
  have hP : Html.IsName "p".toList := isName (by simp [tagNames])
  rw [Html.tokens, fragment, Html.read_opening refs hArticle, Html.read_opening refs hHeader,
    Html.read_opening refs hB, Html.read_text, Html.read_closing refs hB, Html.read_text,
    Html.read_opening refs hTime, Html.read_text, Html.read_closing refs hTime,
    Html.read_closing refs hHeader, Html.read_opening refs hP, Html.read_text,
    Html.read_closing refs hP, read_medias, Html.read_closing refs hArticle]
  have hEnd : Html.read refs .data (Html.escape ['\n']) = [.char '\n'] := by
    have hText := Html.read_text refs ['\n'] []
    rwa [List.append_nil] at hText
  rw [hEnd]
  rfl

/-! ## The fragment of an entry -/

/-- The text that stands for the time of an entry. -/
def whenText (e : Json.Value) : List Char :=
  match asI64 (index e "createTime") with
  | some n => (toString n).toList
  | none => text e "createTime"

def shown (e : Json.Value) : Shown where
  name := text e "displayName"
  time := whenText e
  desc := text e "contentDesc"
  media := (mediaUrls e).map fun u => (linked u, u)

/-- The same with normalized newlines. -/
def Shown.normal (s : Shown) : Shown where
  name := Html.newlines s.name
  time := Html.newlines s.time
  desc := Html.newlines s.desc
  media := s.media.map fun m => (m.1, Html.newlines m.2)

theorem replaceChar_append (c : Char) (r : String) (s t : List Char) :
    replaceChar c r (s ++ t) = replaceChar c r s ++ replaceChar c r t := List.flatMap_append

theorem replaceChar_other {c d : Char} (r : String) (h : d ≠ c) : replaceChar c r [d] = [d] := by
  rw [replaceChar, List.flatMap_singleton, if_neg h]

theorem htmlEscape_append (s t : List Char) : htmlEscape (s ++ t) = htmlEscape s ++ htmlEscape t := by
  simp only [htmlEscape, replaceChar_append]

theorem htmlEscape_single (c : Char) : htmlEscape [c] = Html.escapeChar c := by
  rw [Html.escapeChar]
  split_ifs with hAmp hLt hGt hQuot hApos
  · subst hAmp
    decide
  · subst hLt
    decide
  · subst hGt
    decide
  · subst hQuot
    decide
  · subst hApos
    decide
  · rw [htmlEscape, replaceChar_other _ hAmp, replaceChar_other _ hLt, replaceChar_other _ hGt,
      replaceChar_other _ hQuot, replaceChar_other _ hApos]

/-- The replacements, one after the other, are the references of the characters. -/
theorem htmlEscape_eq (s : List Char) : htmlEscape s = Html.escape s := by
  induction s with
  | nil => rfl
  | cons c s ih =>
    rw [← List.singleton_append, htmlEscape_append, htmlEscape_single, ih]
    rfl

theorem escape_intChars (n : Int) : Html.escape (toString n).toList = (toString n).toList := by
  have hPlain : ∀ s : List Char, (∀ c ∈ s, 45 ≤ c.toNat ∧ c.toNat ≤ 57) → Html.escape s = s := by
    intro s
    induction s with
    | nil => exact fun _ => rfl
    | cons c s ih =>
      intro h
      have hBounds := h c List.mem_cons_self
      have hNe : ∀ d : Char, d.toNat < 45 ∨ 57 < d.toNat → c ≠ d := by
        rintro d hd rfl
        omega
      have hSelf : Html.escapeChar c = [c] := by
        rw [Html.escapeChar, if_neg (hNe _ (by decide)), if_neg (hNe _ (by decide)),
          if_neg (hNe _ (by decide)), if_neg (hNe _ (by decide)), if_neg (hNe _ (by decide))]
      rw [Html.escape, List.flatMap_cons, hSelf]
      exact congrArg (c :: ·) (ih fun d hd => h d (List.mem_cons_of_mem _ hd))
  have hDigits : ∀ m : Nat, ∀ c ∈ Nat.toDigits 10 m, 45 ≤ c.toNat ∧ c.toNat ≤ 57 := by
    intro m c hc
    have hBounds := isDigit_bounds (List.all_eq_true.mp (all_isDigit_toDigits m) c hc)
    omega
  apply hPlain
  rw [toList_toString, intChars]
  split
  · exact hDigits _
  · intro c hc
    rcases List.mem_cons.mp hc with rfl | hc
    · decide
    · exact hDigits _ c hc

theorem whenHtml_eq (e : Json.Value) : whenHtml e = Html.escape (whenText e) := by
  rw [whenHtml, whenText]
  split
  · exact (escape_intChars _).symm
  · exact htmlEscape_eq _

theorem mediaLinkHtml_eq (u : List Char) : mediaLinkHtml u = media (linked u, u) := by
  have hDiv : "<div class=\"media\">".toList =
      Html.openingWith "div".toList "class".toList "media".toList := by decide +kernel
  have hLink : "<div class=\"media\"><a href=\"".toList =
      Html.openingWith "div".toList "class".toList "media".toList ++
        ('<' :: ("a".toList ++ ' ' :: ("href".toList ++ ['=', '"']))) := by decide +kernel
  have hMark : "\">".toList = ['"', '>'] := by decide +kernel
  have hClose : "</a></div>".toList = Html.closing "a".toList ++ Html.closing "div".toList := by
    decide +kernel
  have hEnd : "</div>".toList = Html.closing "div".toList := by decide +kernel
  have hAssoc : ∀ a b c d f g h : List Char,
      a ++ b ++ c ++ d ++ f ++ (g ++ h) = a ++ (b ++ (c ++ d) ++ (f ++ g) ++ h) := by
    intros
    simp only [List.append_assoc]
  rw [mediaLinkHtml, media, htmlEscape_eq, hDiv, hLink, hMark, hClose, hEnd, Html.openingWith_eq "a".toList]
  dsimp only
  cases linked u
  · exact List.append_assoc _ _ _
  · exact hAssoc _ _ _ _ _ _ _

/-- The pieces of the format string are the tags of the template. -/
theorem articleHtml_pieces :
    "<article><header><b>".toList = Html.opening "article".toList ++
        (Html.opening "header".toList ++ Html.opening "b".toList) ∧
      "</b> <time>".toList = Html.closing "b".toList ++ (Html.escape [' '] ++
        Html.opening "time".toList) ∧
      "</time></header><p>".toList = Html.closing "time".toList ++
        (Html.closing "header".toList ++ Html.opening "p".toList) ∧
      "</p>".toList = Html.closing "p".toList ∧
      "</article>\n".toList = Html.closing "article".toList ++ Html.escape ['\n'] := by
  decide +kernel

/-- An entry is rendered as its fragment. -/
theorem articleHtml_eq (e : Json.Value) : articleHtml e = fragment (shown e) := by
  have hMedia : (mediaUrls e).flatMap mediaLinkHtml = (shown e).media.flatMap media := by
    rw [shown, List.flatMap_map]
    exact List.flatMap_congr fun u _ => mediaLinkHtml_eq u
  obtain ⟨hOpen, hTime, hText, hP, hEnd⟩ := articleHtml_pieces
  have hJoin : ∀ a b c d f n w t m : List Char,
      a = Html.opening "article".toList ++
        (Html.opening "header".toList ++ Html.opening "b".toList) →
      b = Html.closing "b".toList ++ (Html.escape [' '] ++ Html.opening "time".toList) →
      c = Html.closing "time".toList ++
        (Html.closing "header".toList ++ Html.opening "p".toList) →
      d = Html.closing "p".toList →
      f = Html.closing "article".toList ++ Html.escape ['\n'] →
      n = Html.escape (shown e).name → w = Html.escape (shown e).time →
      t = Html.escape (shown e).desc → m = (shown e).media.flatMap media →
      a ++ n ++ b ++ w ++ c ++ t ++ d ++ m ++ f = fragment (shown e) := by
    rintro a b c d f n w t m rfl rfl rfl rfl rfl rfl rfl rfl rfl
    simp only [fragment, List.append_assoc]
  exact hJoin _ _ _ _ _ _ _ _ _ hOpen hTime hText hP hEnd (htmlEscape_eq _) (whenHtml_eq e)
    (htmlEscape_eq _) hMedia

theorem newlines_media (m : Bool × List Char) (rest : List Char) :
    Html.newlines (media m ++ rest) = media (m.1, Html.newlines m.2) ++ Html.newlines rest := by
  obtain ⟨isLink, u⟩ := m
  have hText : ∀ t : List Char, '\r' ∉ t → t.head? = some '<' → ∀ r,
      Html.newlines (Html.escape u ++ (t ++ r)) =
        Html.escape (Html.newlines u) ++ (t ++ Html.newlines r) := by
    intro t hReturn hHead r
    rw [Html.newlines_append, Html.newlines_escape, Html.newlines_prefix hReturn]
    rw [List.head?_append, hHead, Option.some_or]
    decide
  rw [media, List.append_assoc, Html.newlines_openingWith (by decide) (by decide), media,
    List.append_assoc]
  cases isLink
  · simp only [Bool.false_eq_true, if_false, List.append_assoc]
    rw [hText _ (by decide) (by decide)]
    rfl
  · simp only [if_true, List.append_assoc]
    rw [Html.newlines_openingWith (by decide) (by decide), hText _ (by decide) (by decide),
      Html.newlines_prefix (by decide)]
    rfl

theorem newlines_medias (ms : List (Bool × List Char)) (rest : List Char) :
    Html.newlines (ms.flatMap media ++ rest) =
      (ms.map fun m => (m.1, Html.newlines m.2)).flatMap media ++ Html.newlines rest := by
  induction ms with
  | nil => rfl
  | cons m ms ih =>
    rw [List.flatMap_cons, List.append_assoc, newlines_media, ih, List.map_cons, List.flatMap_cons,
      List.append_assoc]

theorem newlines_fragment (s : Shown) : Html.newlines (fragment s) = fragment s.normal := by
  have hData : ∀ (d t r : List Char), t.head? = some '<' →
      Html.newlines (Html.escape d ++ (t ++ r)) =
        Html.escape (Html.newlines d) ++ Html.newlines (t ++ r) := by
    intro d t r hHead
    rw [Html.newlines_append, Html.newlines_escape]
    rw [List.head?_append, hHead, Option.some_or]
    decide
  rw [fragment, Html.newlines_prefix (by decide), Html.newlines_prefix (by decide),
    Html.newlines_prefix (by decide), hData _ _ _ (by decide), Html.newlines_prefix (by decide),
    Html.newlines_prefix (by decide), Html.newlines_prefix (by decide), hData _ _ _ (by decide),
    Html.newlines_prefix (by decide), Html.newlines_prefix (by decide),
    Html.newlines_prefix (by decide), hData _ _ _ (by decide), Html.newlines_prefix (by decide),
    newlines_medias, Html.newlines_prefix (by decide), Html.newlines_escape]
  rfl

/-- What a browser reads of an entry is the template with the data of the entry. -/
theorem read_article (refs : Refs) (e : Json.Value) :
    Html.tokens refs (Html.newlines (articleHtml e)) = template (shown e).normal := by
  rw [articleHtml_eq, newlines_fragment, read_fragment]

/-! ## Links -/

/-- The value of `href` as a browser reads it. -/
def hrefOf (u : List Char) : List Char := (Html.newlines u).map Html.valueChar

/-- The link leads to the scheme it is written with, or to a path of the same origin. -/
def LeadsAsWritten (u : List Char) : Prop :=
  (web u = true ∧ (Url.target (hrefOf u) = .scheme "http".toList ∨
    Url.target (hrefOf u) = .scheme "https".toList)) ∨ Url.target (hrefOf u) = .path

/-- The URL looks like a path, and starts with two slashes once its tabs and newlines are gone. -/
def HidesHost (u : List Char) : Prop :=
  sameOrigin u = true ∧ ∃ rest, (u.filter fun c => !Url.isTabOrNewline c) = '/' :: '/' :: rest

/-- The fragment of an entry is the template, and its links lead where they say. -/
def InjectionFree (refs : Refs) (e : Json.Value) : Prop :=
  Html.tokens refs (Html.newlines (articleHtml e)) = template (shown e).normal ∧
    ∀ u ∈ mediaUrls e, linked u = true → LeadsAsWritten u

theorem filter_newlines (s : List Char) : (Html.newlines s).filter (fun c => !Url.isTabOrNewline c) =
    s.filter fun c => !Url.isTabOrNewline c := by
  have hLine : Url.isTabOrNewline '\n' = true := by decide
  have hReturn : Url.isTabOrNewline '\r' = true := by decide
  induction s using Html.newlines.induct with
  | case1 => rfl
  | case2 cs ih => simp [Html.newlines, hLine, hReturn, ih]
  | case3 cs hNot ih =>
    have hCs : cs.head? ≠ some '\n' := by
      intro hSome
      obtain ⟨rest, rfl⟩ := List.head?_eq_some_iff.mp hSome
      exact hNot rest rfl
    simp [Html.newlines_return hCs, hLine, hReturn, ih]
  | case4 c cs hTwo hOne ih =>
    rw [Html.newlines_cons hOne, List.filter_cons, List.filter_cons, ih]

theorem filter_valueChar (s : List Char) :
    (s.map Html.valueChar).filter (fun c => !Url.isTabOrNewline c) =
      (s.filter fun c => !Url.isTabOrNewline c).map Html.valueChar := by
  rw [List.filter_map]
  congr 1
  refine List.filter_congr fun c _ => ?_
  rw [Function.comp_apply, Html.valueChar]
  split_ifs with hNul
  · subst hNul
    decide
  · rfl

/-! ### URLs with a scheme -/

theorem toLower_cases (c : Char) :
    c.toLower = c ∨ 65 ≤ c.toNat ∧ c.toNat ≤ 90 ∧ c.toLower.toNat = c.toNat + 32 := by
  by_cases hUpper : 65 ≤ c.toNat ∧ c.toNat ≤ 90
  · have hAll : ∀ n < 91, 65 ≤ n → (Char.ofNat n).toLower.toNat = n + 32 := by decide
    have hSame := hAll c.toNat (by omega) hUpper.1
    rw [Char.ofNat_toNat] at hSame
    exact .inr ⟨hUpper.1, hUpper.2, hSame⟩
  · exact .inl (dif_neg fun h => hUpper ⟨h.1, h.2⟩)

/-- A letter, in any case. -/
theorem letter_of_toLower {c : Char} (h : 97 ≤ c.toLower.toNat ∧ c.toLower.toNat ≤ 122) :
    c.isAlpha = true ∧ Url.isSchemeChar c = true ∧ Html.valueChar c = c ∧ c ≠ '\r' := by
  have hRange : c.toNat < 123 ∧ (65 ≤ c.toNat ∧ c.toNat ≤ 90 ∨ 97 ≤ c.toNat) := by
    rcases toLower_cases c with hSame | hUpper
    · rw [hSame] at h
      omega
    · omega
  have hAll : ∀ n < 123, (65 ≤ n ∧ n ≤ 90 ∨ 97 ≤ n) → (Char.ofNat n).isAlpha = true ∧
      Url.isSchemeChar (Char.ofNat n) = true ∧ Html.valueChar (Char.ofNat n) = Char.ofNat n ∧
      Char.ofNat n ≠ '\r' := by decide
  have hSame := hAll c.toNat hRange.1 hRange.2
  rwa [Char.ofNat_toNat] at hSame

/-- A text that starts, in any case, with letters and a colon. -/
theorem target_of_lower {u : List Char} {name : List Char} (hNil : name ≠ [])
    (hLetters : ∀ d ∈ name, 97 ≤ d.toNat ∧ d.toNat ≤ 122) {rest : List Char}
    (h : u.map Char.toLower = name ++ ':' :: rest) :
    Url.target (hrefOf u) = .scheme name := by
  obtain ⟨start, tail, rfl, hStart, hTail⟩ := List.map_eq_append_iff.mp h
  obtain ⟨d, more, rfl, hColon, -⟩ := List.map_eq_cons_iff.mp hTail
  have hD : d = ':' := by
    rcases toLower_cases d with hSame | ⟨hLow, -, hNat⟩
    · rw [← hSame, hColon]
    · rw [hColon] at hNat
      exact absurd hNat (by have : (':' : Char).toNat = 58 := rfl; omega)
  subst hD
  have hAll : ∀ c ∈ start, c.isAlpha = true ∧ Url.isSchemeChar c = true ∧ Html.valueChar c = c ∧
      c ≠ '\r' := by
    intro c hc
    have hMem : c.toLower ∈ name := hStart ▸ List.mem_map_of_mem hc
    exact letter_of_toLower (hLetters _ hMem)
  have hReturn : '\r' ∉ start := fun hc => (hAll _ hc).2.2.2 rfl
  have hValue : start.map Html.valueChar = start := by
    conv_rhs => rw [← List.map_id start]
    exact List.map_congr_left fun c hc => (hAll c hc).2.2.1
  have hHref : hrefOf (start ++ ':' :: more) =
      start ++ ':' :: (Html.newlines more).map Html.valueChar := by
    rw [hrefOf, Html.newlines_prefix hReturn, Html.newlines_cons (by decide), List.map_append,
      hValue]
    rfl
  have hSome : start ≠ [] := by
    rintro rfl
    exact hNil hStart.symm
  obtain ⟨c, start, rfl⟩ := List.exists_cons_of_ne_nil hSome
  rw [hHref, Url.target_scheme (hAll c List.mem_cons_self).1 fun e he => (hAll e he).2.1, hStart]

theorem startsWith_iff {s : List Char} {t : String} :
    startsWith s t = true ↔ ∃ rest, s = t.toList ++ rest := by
  rw [startsWith, List.isPrefixOf_iff_prefix]
  constructor
  · rintro ⟨rest, hEq⟩
    exact ⟨rest, hEq.symm⟩
  · rintro ⟨rest, hEq⟩
    exact ⟨rest, hEq.symm⟩

theorem http_colon (rest : List Char) :
    "http://".toList ++ rest = "http".toList ++ ':' :: ('/' :: '/' :: rest) := rfl

theorem https_colon (rest : List Char) :
    "https://".toList ++ rest = "https".toList ++ ':' :: ('/' :: '/' :: rest) := rfl

theorem http_toList : "http".toList = ['h', 't', 't', 'p'] := String.toList_ofList

theorem https_toList : "https".toList = ['h', 't', 't', 'p', 's'] := String.toList_ofList

/-- A text of small letters. -/
theorem letters_of_all {name : List Char}
    (h : name.all (fun d => 97 ≤ d.toNat ∧ d.toNat ≤ 122) = true) :
    ∀ d ∈ name, 97 ≤ d.toNat ∧ d.toNat ≤ 122 :=
  fun d hd => of_decide_eq_true (List.all_eq_true.mp h d hd)

/-- What starts with `http://` or `https://` leads there. -/
theorem leads_of_web {u : List Char} (h : web u = true) : LeadsAsWritten u := by
  refine .inl ⟨h, ?_⟩
  simp only [web, Bool.or_eq_true, startsWith_iff] at h
  rcases h with ⟨rest, hEq⟩ | ⟨rest, hEq⟩
  · left
    rw [http_colon, http_toList] at hEq
    rw [http_toList]
    exact target_of_lower (List.cons_ne_nil _ _) (letters_of_all (by decide)) hEq
  · right
    rw [https_colon, https_toList] at hEq
    rw [https_toList]
    exact target_of_lower (List.cons_ne_nil _ _) (letters_of_all (by decide)) hEq

/-! ### Paths -/

/-- What looks like a path is a slash and then neither a slash nor, anywhere, a backslash. -/
theorem sameOrigin_spec {u : List Char} (h : sameOrigin u = true) :
    ∃ rest, u = '/' :: rest ∧ '\\' ∉ rest := by
  simp only [sameOrigin, Bool.and_eq_true, Bool.not_eq_true'] at h
  obtain ⟨⟨hStart, -⟩, hBack⟩ := h
  obtain ⟨rest, hEq⟩ := startsWith_iff.mp hStart
  refine ⟨rest, hEq, fun hMem => ?_⟩
  have hNot : '\\' ∉ u := by simpa using hBack
  rw [hEq] at hNot
  exact hNot (List.mem_append_right _ hMem)

/-- Without backslashes the first character that counts is a slash or none of the two. -/
theorem any_isSlash {cs : List Char} (h : '\\' ∉ cs) :
    (cs.map Html.valueChar).head?.any Url.isSlash = true ↔ ∃ rest, cs = '/' :: rest := by
  cases cs with
  | nil => simp
  | cons c cs =>
    have hBack : c ≠ '\\' := fun hc => h (hc ▸ List.mem_cons_self)
    have hSlash : Url.isSlash (Html.valueChar c) = true ↔ c = '/' := by
      rw [Html.valueChar, Url.isSlash]
      split_ifs with hNul
      · subst hNul
        decide
      · simp [hBack]
    simpa using hSlash

theorem leads_iff_of_sameOrigin {u : List Char} (h : sameOrigin u = true) :
    LeadsAsWritten u ↔ ¬ HidesHost u := by
  obtain ⟨rest, rfl, hBack⟩ := sameOrigin_spec h
  have hWeb : web ('/' :: rest) = false := by
    have hHead : ∀ t : String, t.toList.head? = some 'h' →
        startsWith (('/' :: rest).map Char.toLower) t = false := by
      intro t ht
      rw [← Bool.not_eq_true, startsWith_iff]
      rintro ⟨more, hEq⟩
      obtain ⟨tail, hTail⟩ := List.head?_eq_some_iff.mp ht
      rw [hTail, List.map_cons, List.cons_append] at hEq
      exact absurd (List.cons.inj hEq).1 (by decide)
    simp only [web, hHead _ (by decide : "http://".toList.head? = some 'h'),
      hHead _ (by decide : "https://".toList.head? = some 'h'), Bool.or_self]
  have hHref : hrefOf ('/' :: rest) = '/' :: (Html.newlines rest).map Html.valueChar := by
    rw [hrefOf, Html.newlines_cons (by decide)]
    rfl
  have hKept : '\\' ∉ rest.filter fun c => !Url.isTabOrNewline c :=
    fun hMem => hBack (List.mem_filter.mp hMem).1
  have hTarget : Url.target (hrefOf ('/' :: rest)) =
      if ((rest.filter fun c => !Url.isTabOrNewline c).map Html.valueChar).head?.any Url.isSlash
        then .otherHost else .path := by
    rw [hHref, Url.target_slash (by decide), filter_valueChar, filter_newlines]
  have hHides : HidesHost ('/' :: rest) ↔
      ∃ more, (rest.filter fun c => !Url.isTabOrNewline c) = '/' :: more := by
    rw [HidesHost, and_iff_right h, List.filter_cons_of_pos (by decide)]
    simp
  rw [hHides, ← any_isSlash hKept, LeadsAsWritten, hWeb, hTarget]
  split_ifs with hAny
  · exact iff_of_false (by simp) (not_not.mpr hAny)
  · exact iff_of_true (.inr rfl) hAny

theorem leads_iff {u : List Char} (h : linked u = true) : LeadsAsWritten u ↔ ¬ HidesHost u := by
  by_cases hSame : sameOrigin u = true
  · exact leads_iff_of_sameOrigin hSame
  · rw [linked, Bool.or_eq_true] at h
    exact iff_of_true (leads_of_web (h.resolve_left hSame)) fun hHides => hSame hHides.1

/-- A fragment is the template for every entry; its links lead where they say exactly when no
media URL looks like a path and hides a host behind tabs or newlines. -/
theorem injection_free_iff (refs : Refs) (e : Json.Value) :
    InjectionFree refs e ↔ ∀ u ∈ mediaUrls e, ¬ HidesHost u := by
  constructor
  · rintro ⟨-, hLinks⟩ u hu hHides
    have hLinked : linked u = true := by rw [linked, hHides.1, Bool.true_or]
    exact (leads_iff hLinked).mp (hLinks u hu hLinked) hHides
  · intro h
    exact ⟨read_article refs e, fun u hu hLinked => (leads_iff hLinked).mpr (h u hu)⟩

/-- An entry whose URL hides its host behind a tab. -/
def tabEntry : Json.Value := .obj [("media", .arr [.obj [("url", .str "/\t/evil.example")]])]

/-- The entry has a link, and the link leads to another host. -/
theorem tab_hides_host : ¬ InjectionFree .basic tabEntry := by
  rintro ⟨-, hLinks⟩
  have hUrls : mediaUrls tabEntry = ["/\t/evil.example".toList] := by decide +kernel
  have hLinked : linked "/\t/evil.example".toList = true := by decide +kernel
  have hTarget : Url.target (hrefOf "/\t/evil.example".toList) = .otherHost := by decide +kernel
  have hWeb : web "/\t/evil.example".toList = false := by decide +kernel
  have hLeads := hLinks _ (hUrls ▸ List.mem_cons_self) hLinked
  rw [LeadsAsWritten, hTarget, hWeb] at hLeads
  simp at hLeads

end Weflow.Sns
