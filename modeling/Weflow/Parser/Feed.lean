import Weflow.Parser.Xml
import Weflow.Server.Params

/-!
# Parsing a feed

`parse_sns_feed` of `parser/mod.rs`. The people of a feed are the `user_comment` blocks of the whole
text, and the parser means those inside `like_user_list` to be the likes. It finds the list but does
not use where it is: a block is a like when its content is empty.

`parseSnsFeed_placed_iff` says for which feeds the likes and the comments are nevertheless the blocks
inside and outside the list.
-/

namespace Weflow.Parser

open Search (splitOnce splitAll between closedFrom)

/-- `parse::<f64>()` and the zero it is replaced by. -/
structure Floats (F : Type*) where
  parse : Text → Option F
  zero : F

structure SnsMedia where
  kind : String
  md5 : Option Text
  url : Text
  thumb : Option Text
  width : Int
  height : Int
  token : Option Text
  key : Option Text
  encIdx : Option Text
  deriving DecidableEq

structure SnsPerson where
  username : Text
  nickname : Text
  createTime : Int
  deriving DecidableEq

structure SnsComment extends SnsPerson where
  content : Text
  deriving DecidableEq

structure SnsFeed (F : Type*) where
  feedId : Text
  userName : Text
  objectId : Text
  nickname : Text
  createTime : Int
  contentDesc : Text
  kind : String
  contentType : Text
  media : List SnsMedia
  commentCount : Nat
  likes : List SnsPerson
  comments : List SnsComment
  latitude : F
  longitude : F
  rawXml : Text

/-- Element text where the opening tag may carry attributes. -/
def xmlElemText (xml : Text) (tagName : String) : Option Text := do
  let (_, rest) ← splitOnce ('<' :: tagName.toList) xml
  let (_, inner) ← splitOnce ['>'] rest
  let (text, _) ← splitOnce (closeTag tagName) inner
  return text

def xmlTextBetween (xml opened closed : Text) : Option Text := do
  let (_, rest) ← splitOnce opened xml
  let (text, _) ← splitOnce closed rest
  return text

/-- One `user_comment` block; none for a block without a username. -/
def parseUserComment (block : Text) : Option SnsComment :=
  let username := (elemText block "username").getD []
  if username = [] then none
  else
    some
      { username
        nickname := (elemText block "nickname").getD []
        createTime := ((elemText block "create_time").bind parseI64).getD 0
        content := (elemText block "content").getD [] }

/-- One `<media>` block; none when there is nothing to show. -/
def parseSnsMedia (block : Text) : Option SnsMedia :=
  let url := (xmlElemText block "url").getD []
  let thumb := xmlElemText block "thumb"
  if url = [] ∧ thumb = none then none
  else
    some
      { kind := if (elemText block "type").getD [] = ['6'] then "video" else "image"
        md5 := attr block "md5"
        url
        thumb
        width := ((attr block "width").bind parseI64).getD 0
        height := ((attr block "height").bind parseI64).getD 0
        token := attr block "token"
        key := attr block "key"
        encIdx := attr block "enc_idx" }

/-- The two lists of the loop over the people. -/
structure People where
  likes : List SnsPerson := []
  comments : List SnsComment := []

def People.add (p : People) (person : SnsComment) : People :=
  if person.content ≠ [] then { p with comments := p.comments ++ [person] }
  else { p with likes := p.likes ++ [person.toSnsPerson] }

/-- `<user_comment`, which may carry attributes. -/
def commentOpen : Text := '<' :: "user_comment".toList

def commentClose : Text := closeTag "user_comment"

/-- The people of a text in document order. -/
def people (xml : Text) : List SnsComment :=
  (between commentOpen commentClose xml).filterMap parseUserComment

/-- Parse one `SnsTimeLine` row into a feed view. -/
def parseSnsFeed {F : Type*} (x : Floats F) (userName tid xml : Text) : SnsFeed F :=
  let contentDesc := (elemText xml "contentDesc").getD []
  let media :=
    (between (openTag "media") (closeTag "media") xml).filterMap parseSnsMedia
  let p := (people xml).foldl People.add {}
  { feedId := tid
    userName
    objectId := (elemText xml "id").getD []
    nickname := (elemText xml "nickname").getD []
    createTime := ((elemText xml "createTime").bind parseI64).getD 0
    contentDesc := trimChars contentDesc
    kind :=
      if media ≠ [] then if media.any (·.kind = "video") then "video" else "image"
      else if trimChars contentDesc ≠ [] then "text"
      else "other"
    contentType :=
      (xmlTextBetween xml (openTag "ContentObject" ++ openTag "type") (closeTag "type")).getD []
    media
    commentCount := p.comments.length
    likes := p.likes
    comments := p.comments
    latitude := ((attr xml "latitude").bind x.parse).getD x.zero
    longitude := ((attr xml "longitude").bind x.parse).getD x.zero
    rawXml := xml }

/-- The loop sorts the people by their content. -/
theorem foldl_add (persons : List SnsComment) (p : People) :
    persons.foldl People.add p =
      { likes := p.likes ++ (persons.filter (·.content = [])).map SnsComment.toSnsPerson
        comments := p.comments ++ persons.filter (·.content ≠ []) } := by
  induction persons generalizing p with
  | nil => simp
  | cons person persons ih =>
    rw [List.foldl_cons, ih, People.add]
    by_cases hContent : person.content = []
    · simp [hContent]
    · simp [hContent]

/-! ## Feeds -/

/-- A block of a feed: it closes where it is closed first, and names somebody. -/
structure PersonBlock where
  inner : Text
  person : SnsComment
  open_free : ¬ commentOpen <:+: inner
  close_free : ¬ commentClose <:+: inner
  reads : parseUserComment inner = some person

def PersonBlock.text (b : PersonBlock) : Text := commentOpen ++ b.inner ++ commentClose

/-- What stands between the blocks. It closes none. -/
structure Filler where
  text : Text
  close_free : ¬ commentClose <:+: text

/-- A part of a feed with any number of blocks, each with what follows it. -/
structure Region where
  head : Filler
  blocks : List (PersonBlock × Filler)

def Region.text (r : Region) : Text :=
  r.head.text ++ r.blocks.flatMap fun b => b.1.text ++ b.2.text

def Region.persons (r : Region) : List SnsComment := r.blocks.map fun b => b.1.person

/-- A feed with its list of likes. -/
structure FeedXml where
  before : Region
  inside : Region
  behind : Region

def FeedXml.xml (d : FeedXml) : Text :=
  d.before.text ++ openTag "like_user_list" ++ d.inside.text ++ closeTag "like_user_list" ++
    d.behind.text

/-! ## The blocks of a feed -/

theorem commentOpen_eq : commentOpen = '<' :: "user_comment".toList := rfl

theorem commentOpen_tail : '<' ∉ "user_comment".toList := by decide

theorem commentClose_tail : '<' ∉ "/user_comment>".toList := by decide

theorem commentOpen_differs (t : Text) :
    ¬ '<' :: "user_comment".toList <+: '<' :: ("/user_comment>".toList ++ t) := by
  intro hPrefix
  have hSecond := (List.cons_prefix_cons.mp (List.cons_prefix_cons.mp hPrefix).2).1
  exact absurd hSecond (by decide)

/-- The blocks of a text that begins behind an opening. -/
theorem closedFrom_block (b : PersonBlock) (f : Filler) :
    closedFrom commentOpen commentClose (b.inner ++ commentClose ++ f.text) = [b.inner] :=
  Search.closedFrom_closed commentOpen_tail commentClose_tail commentOpen_differs b.open_free
    b.close_free f.close_free

theorem closedFrom_blocks (b : PersonBlock) (f : Filler) (blocks : List (PersonBlock × Filler)) :
    closedFrom commentOpen commentClose (b.inner ++ commentClose ++ f.text ++
        blocks.flatMap fun b => b.1.text ++ b.2.text) =
      b.inner :: blocks.map fun b => b.1.inner := by
  induction blocks generalizing b f with
  | nil =>
    rw [List.flatMap_nil, List.append_nil, closedFrom_block]
    rfl
  | cons next blocks ih =>
    have hOpen := Search.closedFrom_open (c := commentClose)
      (a := b.inner ++ commentClose ++ f.text)
      (b := next.1.inner ++ commentClose ++ next.2.text ++
        blocks.flatMap fun b => b.1.text ++ b.2.text) commentOpen_tail
    rw [← commentOpen_eq, closedFrom_block, ih] at hOpen
    simpa [PersonBlock.text] using hOpen

/-- The blocks of a region are those it is made of. -/
theorem between_region (r : Region) :
    between commentOpen commentClose r.text = r.blocks.map fun b => b.1.inner := by
  obtain ⟨head, blocks⟩ := r
  cases blocks with
  | nil =>
    rw [Region.text, List.flatMap_nil, List.append_nil]
    exact Search.between_none head.close_free
  | cons b blocks =>
    have hOpen := Search.between_open (b := b.1.inner ++ commentClose ++ b.2.text ++
      blocks.flatMap fun b => b.1.text ++ b.2.text) commentOpen_tail head.close_free
    rw [← commentOpen_eq, closedFrom_blocks] at hOpen
    simpa [Region.text, PersonBlock.text] using hOpen

theorem people_region (r : Region) : people r.text = r.persons := by
  rw [people, between_region, List.filterMap_map, Region.persons, ← List.filterMap_eq_map]
  apply List.filterMap_congr
  intro b _
  exact b.1.reads

/-! ## Regions side by side -/

/-- A tag that neither opens nor closes a block. -/
structure Tag where
  name : Text
  name_chars : '<' ∉ name
  differs : ∀ t, ¬ commentClose <+: '<' :: (name ++ t)

def Tag.text (tag : Tag) : Text := '<' :: tag.name

theorem Tag.close_free (tag : Tag) (f : Filler) : ¬ commentClose <:+: tag.text ++ f.text := by
  rw [Tag.text, List.cons_append, List.infix_cons_iff, not_or]
  exact ⟨tag.differs f.text, fun hIn =>
    f.close_free (Search.infix_behind tag.name_chars hIn)⟩

/-- What stands around a tag closes no block either. -/
def Filler.around (f : Filler) (tag : Tag) (g : Filler) : Filler where
  text := f.text ++ (tag.text ++ g.text)
  close_free :=
    Search.not_infix_append commentClose_tail f.close_free (tag.close_free g)

/-- Blocks, a tag and blocks. -/
def joinBlocks (tag : Tag) (s : Region) :
    List (PersonBlock × Filler) → List (PersonBlock × Filler)
  | [] => s.blocks
  | [b] => (b.1, b.2.around tag s.head) :: s.blocks
  | b :: c :: blocks => b :: joinBlocks tag s (c :: blocks)

/-- Two regions with a tag between them are one. -/
def Region.join (r : Region) (tag : Tag) (s : Region) : Region where
  head := if r.blocks = [] then r.head.around tag s.head else r.head
  blocks := joinBlocks tag s r.blocks

theorem joinBlocks_text (tag : Tag) (s : Region) (b : PersonBlock × Filler)
    (blocks : List (PersonBlock × Filler)) :
    ((joinBlocks tag s (b :: blocks)).flatMap fun b => b.1.text ++ b.2.text) =
      ((b :: blocks).flatMap fun b => b.1.text ++ b.2.text) ++ tag.text ++ s.text := by
  induction blocks generalizing b with
  | nil => simp [joinBlocks, Filler.around, Region.text]
  | cons c blocks ih =>
    have hFirst : ((b :: c :: blocks).flatMap fun b => b.1.text ++ b.2.text) =
        b.1.text ++ b.2.text ++ (c :: blocks).flatMap fun b => b.1.text ++ b.2.text :=
      List.flatMap_cons
    rw [joinBlocks, List.flatMap_cons, ih c, hFirst]
    simp only [List.append_assoc]

theorem Region.join_text (r : Region) (tag : Tag) (s : Region) :
    (r.join tag s).text = r.text ++ tag.text ++ s.text := by
  obtain ⟨head, blocks⟩ := r
  cases blocks with
  | nil => simp [Region.join, joinBlocks, Filler.around, Region.text]
  | cons b blocks =>
    have hText := joinBlocks_text tag s b blocks
    rw [Region.text, Region.join, if_neg (List.cons_ne_nil b blocks), hText]
    simp only [Region.text, List.append_assoc]

theorem Region.join_persons (r : Region) (tag : Tag) (s : Region) :
    (r.join tag s).persons = r.persons ++ s.persons := by
  obtain ⟨head, blocks⟩ := r
  rw [Region.persons, Region.persons, Region.persons, Region.join]
  induction blocks with
  | nil => rfl
  | cons b blocks ih =>
    cases blocks with
    | nil => rfl
    | cons c blocks => exact congrArg (b.1.person :: ·) ih

/-- `<like_user_list>` -/
def likesOpen : Tag where
  name := "like_user_list>".toList
  name_chars := by decide
  differs t hPrefix := by
    have hSecond := (List.cons_prefix_cons.mp (List.cons_prefix_cons.mp hPrefix).2).1
    exact absurd hSecond (by decide)

/-- `</like_user_list>` -/
def likesClose : Tag where
  name := "/like_user_list>".toList
  name_chars := by decide
  differs t hPrefix := by
    have hThird := (List.cons_prefix_cons.mp
      (List.cons_prefix_cons.mp (List.cons_prefix_cons.mp hPrefix).2).2).1
    exact absurd hThird (by decide)

/-- The people of a feed are those of its blocks, in document order. -/
theorem people_xml (d : FeedXml) :
    people d.xml = d.before.persons ++ d.inside.persons ++ d.behind.persons := by
  have hXml : d.xml = ((d.before.join likesOpen d.inside).join likesClose d.behind).text := by
    rw [Region.join_text, Region.join_text]
    rfl
  rw [hXml, people_region, Region.join_persons, Region.join_persons]

/-! ## Likes and comments -/

section

variable {persons : List SnsComment}

theorem filter_liked (hAll : ∀ person ∈ persons, person.content = []) :
    persons.filter (·.content = []) = persons :=
  List.filter_eq_self.mpr fun person hPerson => by simpa using hAll person hPerson

theorem filter_uncommented (hAll : ∀ person ∈ persons, person.content = []) :
    persons.filter (·.content ≠ []) = [] :=
  List.filter_eq_nil_iff.mpr fun person hPerson => by simpa using hAll person hPerson

theorem filter_commented (hAll : ∀ person ∈ persons, person.content ≠ []) :
    persons.filter (·.content ≠ []) = persons :=
  List.filter_eq_self.mpr fun person hPerson => by simpa using hAll person hPerson

theorem filter_unliked (hAll : ∀ person ∈ persons, person.content ≠ []) :
    persons.filter (·.content = []) = [] :=
  List.filter_eq_nil_iff.mpr fun person hPerson => by simpa using hAll person hPerson

end

/-- The likes are the blocks inside the list and the comments those outside, exactly when no block
inside has a content and every block outside has one. -/
theorem parseSnsFeed_placed_iff {F : Type*} (x : Floats F) (userName tid : Text) (d : FeedXml) :
    ((parseSnsFeed x userName tid d.xml).likes =
          d.inside.persons.map SnsComment.toSnsPerson ∧
        (parseSnsFeed x userName tid d.xml).comments = d.before.persons ++ d.behind.persons ∧
        (parseSnsFeed x userName tid d.xml).commentCount =
          (d.before.persons ++ d.behind.persons).length) ↔
      (∀ person ∈ d.inside.persons, person.content = []) ∧
        ∀ person ∈ d.before.persons ++ d.behind.persons, person.content ≠ [] := by
  have hLikes : (parseSnsFeed x userName tid d.xml).likes =
      ((d.before.persons ++ d.inside.persons ++ d.behind.persons).filter (·.content = [])).map
        SnsComment.toSnsPerson := by
    rw [← people_xml, parseSnsFeed, foldl_add]
    rfl
  have hComments : (parseSnsFeed x userName tid d.xml).comments =
      (d.before.persons ++ d.inside.persons ++ d.behind.persons).filter (·.content ≠ []) := by
    rw [← people_xml, parseSnsFeed, foldl_add]
    rfl
  have hCount : (parseSnsFeed x userName tid d.xml).commentCount =
      (parseSnsFeed x userName tid d.xml).comments.length := rfl
  rw [hCount, hLikes, hComments, List.filter_append, List.filter_append, List.filter_append,
    List.filter_append]
  constructor
  · rintro ⟨-, hOutside, -⟩
    have hContent : ∀ person ∈ d.before.persons ++ d.behind.persons, person.content ≠ [] := by
      intro person hPerson
      rw [← hOutside, List.mem_append, List.mem_append, List.mem_filter, List.mem_filter,
        List.mem_filter] at hPerson
      rcases hPerson with (⟨-, hIt⟩ | ⟨-, hIt⟩) | ⟨-, hIt⟩ <;> simpa using hIt
    refine ⟨?_, hContent⟩
    -- the comments are the blocks outside and those inside that have a content
    have hLength := congrArg List.length hOutside
    have hBefore := filter_commented fun p hp => hContent p (List.mem_append_left _ hp)
    have hBehind := filter_commented fun p hp => hContent p (List.mem_append_right _ hp)
    rw [hBefore, hBehind] at hLength
    simp only [List.length_append] at hLength
    have hNone : d.inside.persons.filter (·.content ≠ []) = [] :=
      List.eq_nil_of_length_eq_zero (by omega)
    intro person hPerson
    simpa using List.filter_eq_nil_iff.mp hNone person hPerson
  · rintro ⟨hInside, hOutside⟩
    have hBefore := fun p hp => hOutside p (List.mem_append_left d.behind.persons hp)
    have hBehind := fun p hp => hOutside p (List.mem_append_right d.before.persons hp)
    rw [filter_liked hInside, filter_commented hBefore, filter_commented hBehind,
      filter_uncommented hInside, filter_unliked hBefore, filter_unliked hBehind]
    simp

/-- `<username>a</username><content></content>`, a comment with nothing in it. -/
def silent : PersonBlock where
  inner := '>' :: (openTag "username" ++ ['a'] ++ closeTag "username" ++ openTag "content" ++
    closeTag "content")
  person := { username := ['a'], nickname := [], createTime := 0, content := [] }
  open_free := Search.splitOnce_none.mp (by decide)
  close_free := Search.splitOnce_none.mp (by decide)
  reads := by decide

def noFiller : Filler where
  text := []
  close_free := by decide

/-- A feed that nobody likes and on which somebody comments. -/
def silentFeed : FeedXml where
  before := ⟨noFiller, []⟩
  inside := ⟨noFiller, []⟩
  behind := ⟨noFiller, [(silent, noFiller)]⟩

/-- A comment with an empty content is counted among the likes. -/
theorem silent_comment_likes :
    (parseSnsFeed (⟨fun _ => none, 0⟩ : Floats Nat) ['p'] ['1'] silentFeed.xml).likes ≠
      silentFeed.inside.persons.map SnsComment.toSnsPerson := by
  decide

end Weflow.Parser
