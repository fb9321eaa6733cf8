import Weflow.Lib.Overlay
import Weflow.Store.Build

/-!
# Reloading a section and rebuilding it

The loaders write into the store they are given. Over an empty store this is what a build does
(`rebuilt`); over a filled one nothing that the database has lost is taken out, the message counts
start again at zero, and a roster keeps its departed members. For each loader the condition is
given under which the reload and the rebuild agree: `fresh_loadSessions_iff`,
`fresh_loadContacts_iff` and `fresh_loadGroupCards_iff`.
-/

namespace Weflow

/-- The contents of `session.db`, `contact.db` and `contact_fts.db`. -/
structure Contents where
  session : Db := .empty
  contact : Db := .empty
  contactFts : Db := .empty

/-- The section loaders of a build, in their order. -/
def loaded (c : Contents) (s : Store) : Store :=
  loadGroupCards c.contactFts
    (loadChatroomMeta c.contact (loadContacts c.contact (loadSessions c.session s)))

/-- The sections of a build of these contents, over the given conversations. -/
def rebuilt (c : Contents) (convs : Map (List MessageRecord)) : Store :=
  fillMessageCounts { loaded c {} with convs }

/-- The five maps that the section loaders fill have the same entries. -/
structure SameSections (a b : Store) : Prop where
  sessions : ∀ u, a.sessions.lookup u = b.sessions.lookup u
  contacts : ∀ u, a.contacts.lookup u = b.contacts.lookup u
  owners : ∀ room, a.chatroomOwner.lookup room = b.chatroomOwner.lookup room
  rosters : ∀ room, a.chatroomRoster.lookup room = b.chatroomRoster.lookup room
  cards : ∀ room, a.groupCards.lookup room = b.groupCards.lookup room

/-- None of the five maps has been written. -/
structure Unchanged (a b : Store) : Prop where
  sessions : b.sessions = a.sessions
  contacts : b.contacts = a.contacts
  owners : b.chatroomOwner = a.chatroomOwner
  rosters : b.chatroomRoster = a.chatroomRoster
  cards : b.groupCards = a.groupCards

/-- The sections are those of a build of these contents, message counts included. -/
def Fresh (c : Contents) (s : Store) : Prop := SameSections s (rebuilt c s.convs)

/-! ## Loaders over a filled store -/

/-- The pairs `(room, owner)` that `load_chatroom_meta` reads. -/
def readOwners (db : Db) : List (String × String) :=
  if (uidMap db).entries = [] then [] else listedOwners db

/-- The members of a room in the order they are read. -/
def membersOf (db : Db) (room : String) : List String :=
  ((listedMembers db).filter fun p => p.1 = room).map Prod.snd

section

variable (db : Db) (s : Store)

theorem lookup_loadSessions (u : String) : (loadSessions db s).sessions.lookup u =
    ((loadSessions db {}).sessions.lookup u).or (s.sessions.lookup u) :=
  Map.lookup_foldl_insert_or Session.username id _ _ u

theorem lookup_loadContacts (u : String) : (loadContacts db s).contacts.lookup u =
    ((loadContacts db {}).contacts.lookup u).or (s.contacts.lookup u) :=
  Map.lookup_foldl_insert_or Contact.username id _ _ u

theorem chatroomOwner_loadChatroomMeta : (loadChatroomMeta db s).chatroomOwner =
    (readOwners db).foldl (fun m p => m.insert p.1 p.2) s.chatroomOwner := by
  unfold loadChatroomMeta readOwners
  split <;> rfl

theorem lookup_owner_loadChatroomMeta (room : String) :
    (loadChatroomMeta db s).chatroomOwner.lookup room =
      ((loadChatroomMeta db {}).chatroomOwner.lookup room).or (s.chatroomOwner.lookup room) := by
  rw [chatroomOwner_loadChatroomMeta, chatroomOwner_loadChatroomMeta]
  exact Map.lookup_foldl_insert_or Prod.fst Prod.snd _ _ room

/-- Without a uid map no member can be resolved. -/
theorem listedMembers_of_empty (h : (uidMap db).entries = []) : listedMembers db = [] := by
  have hLookup : ∀ id, (uidMap db).lookup id = none := by
    intro id
    rw [show uidMap db = ∅ from AList.ext h, AList.lookup_empty]
  unfold listedMembers
  split
  · split
    · split
      · simp [hLookup]
      · rfl
    · rfl
  · rfl

theorem chatroomRoster_loadChatroomMeta : (loadChatroomMeta db s).chatroomRoster =
    (listedMembers db).foldl addMember s.chatroomRoster := by
  unfold loadChatroomMeta
  split
  · rename_i hEmpty
    rw [listedMembers_of_empty db hEmpty]
    rfl
  · rfl

theorem lookup_foldl_addMember (ps : List (String × String)) (m : Map (List String))
    (room : String) : (ps.foldl addMember m).lookup room =
      if (ps.filter fun p => p.1 = room) = [] then m.lookup room
      else some (Overlay.union ((m.lookup room).getD [])
        ((ps.filter fun p => p.1 = room).map Prod.snd)) := by
  induction ps generalizing m with
  | nil => rfl
  | cons p ps ih =>
    rw [List.foldl_cons, ih]
    by_cases hRoom : p.1 = room
    · subst hRoom
      have hHead : (addMember m p).lookup p.1 =
          some (Overlay.insertNew ((m.lookup p.1).getD []) p.2) := AList.lookup_insert _
      rw [hHead, List.filter_cons_of_pos (by simp), if_neg (List.cons_ne_nil _ _), List.map_cons]
      split
      · rename_i hNone
        rw [hNone]
        rfl
      · rfl
    · have hSkip : (addMember m p).lookup room = m.lookup room :=
        AList.lookup_insert_ne fun h => hRoom h.symm
      rw [hSkip, List.filter_cons_of_neg (by simpa using hRoom)]

/-- The members a room has are kept, new ones are appended. -/
theorem lookup_roster_loadChatroomMeta (room : String) :
    (loadChatroomMeta db s).chatroomRoster.lookup room =
      if membersOf db room = [] then s.chatroomRoster.lookup room
      else some (Overlay.union ((s.chatroomRoster.lookup room).getD []) (membersOf db room)) := by
  rw [chatroomRoster_loadChatroomMeta, lookup_foldl_addMember]
  simp only [membersOf, List.map_eq_nil_iff]

theorem listedCards_of_empty (h : (uidMap db).entries = []) : listedCards db = [] := by
  have hLookup : ∀ id, (uidMap db).lookup id = none := by
    intro id
    rw [show uidMap db = ∅ from AList.ext h, AList.lookup_empty]
  unfold listedCards
  split
  · simp [hLookup]
  · rfl

theorem foldl_addCard_eq_empty {ps : List (String × String × String)} {m : GroupCards} :
    (ps.foldl addCard m).entries = [] ↔ ps = [] ∧ m.entries = [] := by
  induction ps generalizing m with
  | nil => simp
  | cons p ps ih =>
    rw [List.foldl_cons, ih]
    simp [addCard]

/-- The cards are replaced as a whole, unless there are none. -/
theorem groupCards_loadGroupCards : (loadGroupCards db s).groupCards =
    if listedCards db = [] then s.groupCards else (listedCards db).foldl addCard ∅ := by
  unfold loadGroupCards
  split
  · rename_i hEmpty
    rw [if_pos (listedCards_of_empty db hEmpty)]
  · have hIff : ((listedCards db).foldl addCard (∅ : GroupCards)).entries = [] ↔
        listedCards db = [] := by
      rw [foldl_addCard_eq_empty]
      simp
    dsimp only
    by_cases hNone : listedCards db = []
    · rw [if_pos (hIff.mpr hNone), if_pos hNone]
    · rw [if_neg fun h => hNone (hIff.mp h), if_neg hNone]

end

/-! ## The sections of a build -/

section

variable (c : Contents) (convs : Map (List MessageRecord))

/-- Each loader fills its own maps. -/
theorem loaded_frame (s : Store) : (loaded c s).sessions = (loadSessions c.session s).sessions ∧
    (loaded c s).contacts = (loadContacts c.contact s).contacts ∧
    (loaded c s).chatroomOwner = (loadChatroomMeta c.contact s).chatroomOwner ∧
    (loaded c s).chatroomRoster = (loadChatroomMeta c.contact s).chatroomRoster ∧
    (loaded c s).groupCards = (loadGroupCards c.contactFts s).groupCards := by
  have hMeta := loadChatroomMeta_frame c.contact (loadContacts c.contact (loadSessions c.session s))
  have hCards := loadGroupCards_frame c.contactFts
    (loadChatroomMeta c.contact (loadContacts c.contact (loadSessions c.session s)))
  refine ⟨hCards.2.2.1.trans hMeta.2.2.1, hCards.2.2.2.1.trans hMeta.2.2.2.1, ?_, ?_, ?_⟩
  · refine hCards.2.2.2.2.1.trans ?_
    rw [chatroomOwner_loadChatroomMeta, chatroomOwner_loadChatroomMeta]
    rfl
  · refine hCards.2.2.2.2.2.trans ?_
    rw [chatroomRoster_loadChatroomMeta, chatroomRoster_loadChatroomMeta]
    rfl
  · rw [loaded, groupCards_loadGroupCards, groupCards_loadGroupCards, hMeta.2.2.2.2]
    rfl

theorem rebuilt_frame : (rebuilt c convs).contacts = (loadContacts c.contact {}).contacts ∧
    (rebuilt c convs).chatroomOwner = (loadChatroomMeta c.contact {}).chatroomOwner ∧
    (rebuilt c convs).chatroomRoster = (loadChatroomMeta c.contact {}).chatroomRoster ∧
    (rebuilt c convs).groupCards = (loadGroupCards c.contactFts {}).groupCards :=
  (loaded_frame c {}).2

theorem lookup_sessions_rebuilt (u : String) : (rebuilt c convs).sessions.lookup u =
    ((loadSessions c.session {}).sessions.lookup u).map fun x =>
      { x with messageCount := ((convs.lookup u).getD []).length } := by
  unfold rebuilt fillMessageCounts
  rw [Map.lookup_mapVal]
  exact congrArg (fun m => (AList.lookup u m).map _) (loaded_frame c {}).1

end

/-! ## One reload -/

/-- The session file lists every session that is held, and none that has messages. -/
def SessionsKept (db : Db) (s : Store) : Prop :=
  (∀ u ∈ s.sessions, ∃ y ∈ listedSessions db, y.username = u) ∧
    ∀ y ∈ listedSessions db, s.convCount y.username = 0

/-- Every contact and every chatroom owner is still there, and no roster has lost or moved a
member. -/
structure ContactsKept (db : Db) (s : Store) : Prop where
  contacts : ∀ u ∈ s.contacts, ∃ y ∈ listedContacts db, y.username = u
  owners : ∀ room ∈ s.chatroomOwner, ∃ p ∈ readOwners db, p.1 = room
  rosters : ∀ room roster, s.chatroomRoster.lookup room = some roster →
    membersOf db room ≠ [] ∧ roster <+: Overlay.union [] (membersOf db room)

/-- Some card is left, or there was none. -/
def CardsKept (db : Db) (s : Store) : Prop := listedCards db = [] → s.groupCards = ∅

section

variable {c : Contents} {s s' : Store} {db : Db}

/-- With the same sections, only the counts of the listed sessions matter. -/
theorem Fresh.iff_counts (h : Fresh c s) (hSame : Unchanged s s') :
    Fresh c s' ↔ ∀ u ∈ s.sessions, s'.convCount u = s.convCount u := by
  obtain ⟨hSessions, hContacts, hOwners, hRosters, hCards⟩ := hSame
  obtain ⟨hRC, hRO, hRR, hRG⟩ := rebuilt_frame c s.convs
  obtain ⟨hRC', hRO', hRR', hRG'⟩ := rebuilt_frame c s'.convs
  have hOld := h.sessions
  simp only [lookup_sessions_rebuilt] at hOld
  have hListed : ∀ u, u ∈ s.sessions ↔ ((loadSessions c.session {}).sessions.lookup u).isSome := by
    intro u
    rw [← AList.lookup_isSome, hOld u, Option.isSome_map]
  constructor
  · intro h' u hu
    have hNew := h'.sessions u
    rw [hSessions, hOld u, lookup_sessions_rebuilt] at hNew
    obtain ⟨y, hy⟩ := Option.isSome_iff_exists.mp ((hListed u).mp hu)
    rw [hy, Option.map_some, Option.map_some, Option.some.injEq] at hNew
    exact (congrArg Session.messageCount hNew).symm
  · intro hCounts
    refine ⟨fun u => ?_, fun u => ?_, fun u => ?_, fun u => ?_, fun u => ?_⟩
    · rw [hSessions, hOld u, lookup_sessions_rebuilt]
      cases hy : (loadSessions c.session {}).sessions.lookup u with
      | none => rfl
      | some y =>
        have hu : u ∈ s.sessions := (hListed u).mpr (by rw [hy]; rfl)
        have hCount : ((s'.convs.lookup u).getD []).length =
            ((s.convs.lookup u).getD []).length := hCounts u hu
        rw [Option.map_some, Option.map_some, hCount]
    · rw [hContacts, h.contacts u, hRC, hRC']
    · rw [hOwners, h.owners u, hRO, hRO']
    · rw [hRosters, h.rosters u, hRR, hRR']
    · rw [hCards, h.cards u, hRG, hRG']

/-- Listed sessions have no count of their own. -/
theorem messageCount_loadSessions {u : String} {y : Session}
    (h : (loadSessions db {}).sessions.lookup u = some y) :
    y.messageCount = 0 ∧ ∃ z ∈ listedSessions db, z.username = u := by
  have hLookup : (loadSessions db {}).sessions.lookup u =
      (((listedSessions db).reverse.find? fun y => y.username = u).map id).or none :=
    Map.lookup_foldl_insert Session.username id (listedSessions db) ∅ u
  rw [hLookup, Option.or_none, Option.map_id_fun, id] at h
  have hMem : y ∈ listedSessions db := List.mem_reverse.mp (List.mem_of_find?_eq_some h)
  refine ⟨?_, y, hMem, by simpa using List.find?_some h⟩
  unfold listedSessions at hMem
  split at hMem
  · cases hMem
  · dsimp only at hMem
    split at hMem
    · split at hMem
      · obtain ⟨row, -, hRow⟩ := List.mem_filterMap.mp hMem
        unfold sessionOfRow at hRow
        dsimp only at hRow
        split at hRow
        · cases hRow
        · obtain rfl := Option.some.inj hRow
          rfl
      · cases hMem
    · cases hMem

theorem mem_loadSessions {u : String} : u ∈ (loadSessions db {}).sessions ↔
    ∃ y ∈ listedSessions db, y.username = u := by
  have h := Map.mem_foldl_insert Session.username id (listedSessions db) ∅ u
  exact h.trans (by simp [AList.notMem_empty])

/-- **Sessions.** The reload agrees with a build if nothing is deleted and no listed session has a
message. -/
theorem fresh_loadSessions_iff (h : Fresh c s) :
    Fresh { c with session := db } (loadSessions db s) ↔ SessionsKept db s := by
  obtain ⟨hRC, hRO, hRR, hRG⟩ := rebuilt_frame c s.convs
  obtain ⟨hRC', hRO', hRR', hRG'⟩ := rebuilt_frame { c with session := db } s.convs
  have hIff : Fresh { c with session := db } (loadSessions db s) ↔
      ∀ u, (loadSessions db s).sessions.lookup u =
        (rebuilt { c with session := db } s.convs).sessions.lookup u := by
    refine ⟨fun h' => h'.sessions, fun hSessions => ⟨hSessions, fun u => ?_, fun u => ?_,
      fun u => ?_, fun u => ?_⟩⟩
    · exact (h.contacts u).trans (by rw [convs_loadSessions, hRC, hRC'])
    · exact (h.owners u).trans (by rw [convs_loadSessions, hRO, hRO'])
    · exact (h.rosters u).trans (by rw [convs_loadSessions, hRR, hRR'])
    · exact (h.cards u).trans (by rw [convs_loadSessions, hRG, hRG'])
  rw [hIff]
  simp only [lookup_sessions_rebuilt, lookup_loadSessions db s]
  constructor
  · intro hEq
    constructor
    · intro u hu
      have hSome : (s.sessions.lookup u).isSome := AList.lookup_isSome.mpr hu
      have hu' := hEq u
      cases hy : (loadSessions db {}).sessions.lookup u with
      | none => simp [hy] at hu'; simp [hu'] at hSome
      | some y => exact (messageCount_loadSessions hy).2
    · intro y hy
      obtain ⟨z, hz⟩ := Option.isSome_iff_exists.mp
        (AList.lookup_isSome.mpr (mem_loadSessions.mpr ⟨y, hy, rfl⟩))
      have hu' := hEq y.username
      rw [hz, Option.some_or, Option.map_some, Option.some.injEq] at hu'
      have hCount := congrArg Session.messageCount hu'
      rw [(messageCount_loadSessions hz).1] at hCount
      exact hCount.symm
  · rintro ⟨hHeld, hCounts⟩ u
    cases hy : (loadSessions db {}).sessions.lookup u with
    | none =>
      have hNot : ¬∃ y ∈ listedSessions db, y.username = u := fun hSome =>
        AList.lookup_eq_none.mp hy (mem_loadSessions.mpr hSome)
      have hOld : s.sessions.lookup u = none :=
        AList.lookup_eq_none.mpr fun hu => hNot (hHeld u hu)
      simp [hOld]
    | some y =>
      obtain ⟨hZero, z, hz, rfl⟩ := messageCount_loadSessions hy
      have hCount : ((s.convs.lookup z.username).getD []).length = 0 := hCounts z hz
      rw [Option.some_or, Option.map_some, hCount, ← hZero]

theorem mem_loadContacts {u : String} : u ∈ (loadContacts db {}).contacts ↔
    ∃ y ∈ listedContacts db, y.username = u := by
  have h := Map.mem_foldl_insert Contact.username id (listedContacts db) ∅ u
  exact h.trans (by simp [AList.notMem_empty])

theorem mem_owner_loadChatroomMeta {room : String} :
    room ∈ (loadChatroomMeta db {}).chatroomOwner ↔ ∃ p ∈ readOwners db, p.1 = room := by
  rw [chatroomOwner_loadChatroomMeta]
  have h := Map.mem_foldl_insert Prod.fst Prod.snd (readOwners db) ∅ room
  exact h.trans (by simp [AList.notMem_empty])

/-- One room: the refreshed roster is the new one if the held one is the start of it. -/
theorem roster_eq_iff {held : Option (List String)} {ms : List String} :
    (if ms = [] then held else some (Overlay.union (held.getD []) ms)) =
        (if ms = [] then none else some (Overlay.union [] ms)) ↔
      ∀ roster, held = some roster → ms ≠ [] ∧ roster <+: Overlay.union [] ms := by
  by_cases hms : ms = []
  · rw [if_pos hms, if_pos hms, Option.eq_none_iff_forall_ne_some]
    exact forall_congr' fun roster => by simp [hms]
  · rw [if_neg hms, if_neg hms, Option.some.injEq, Overlay.union_eq_iff]
    cases held with
    | none => simp
    | some roster => simp [hms]

/-- **Contacts, owners and rosters.** The reload agrees with a build if no contact and no owner is
deleted and every roster only gains members at its end. -/
theorem fresh_loadContacts_iff (h : Fresh c s) :
    Fresh { c with contact := db } (loadChatroomMeta db (loadContacts db s)) ↔
      ContactsKept db s := by
  obtain ⟨-, -, -, hRG⟩ := rebuilt_frame c s.convs
  obtain ⟨hRC', hRO', hRR', hRG'⟩ := rebuilt_frame { c with contact := db } s.convs
  obtain ⟨hConvs, -, hSessions, hContacts, hCards⟩ := loadChatroomMeta_frame db (loadContacts db s)
  have hConvs' : (loadChatroomMeta db (loadContacts db s)).convs = s.convs := hConvs
  have hOld := h.sessions
  have hIff : Fresh { c with contact := db } (loadChatroomMeta db (loadContacts db s)) ↔
      (∀ u, (loadContacts db s).contacts.lookup u = (loadContacts db {}).contacts.lookup u) ∧
      (∀ room, (loadChatroomMeta db (loadContacts db s)).chatroomOwner.lookup room =
        (loadChatroomMeta db {}).chatroomOwner.lookup room) ∧
      ∀ room, (loadChatroomMeta db (loadContacts db s)).chatroomRoster.lookup room =
        (loadChatroomMeta db {}).chatroomRoster.lookup room := by
    unfold Fresh
    rw [hConvs']
    constructor
    · intro h'
      refine ⟨fun u => ?_, fun room => ?_, fun room => ?_⟩
      · rw [← hContacts, h'.contacts u, hRC']
      · rw [h'.owners room, hRO']
      · rw [h'.rosters room, hRR']
    · rintro ⟨hC, hO, hR⟩
      refine ⟨fun u => ?_, fun u => ?_, fun room => ?_, fun room => ?_, fun room => ?_⟩
      · rw [hSessions]
        refine (hOld u).trans ?_
        rw [lookup_sessions_rebuilt, lookup_sessions_rebuilt]
      · rw [hContacts, hC u, hRC']
      · rw [hO room, hRO']
      · rw [hR room, hRR']
      · rw [hCards]
        exact (h.cards room).trans (by rw [hRG, hRG'])
  rw [hIff, Overlay.eq_fresh_iff (lookup_loadContacts db s),
    Overlay.eq_fresh_iff (lookup_owner_loadChatroomMeta db (loadContacts db s))]
  have hHeld : (loadContacts db s).chatroomOwner = s.chatroomOwner := rfl
  simp only [lookup_roster_loadChatroomMeta, AList.lookup_isSome, mem_loadContacts,
    mem_owner_loadChatroomMeta, hHeld]
  constructor
  · rintro ⟨hC, hO, hR⟩
    exact ⟨hC, hO, fun room => roster_eq_iff.mp (hR room)⟩
  · rintro ⟨hC, hO, hR⟩
    exact ⟨hC, hO, fun room => roster_eq_iff.mpr (hR room)⟩

theorem eq_empty_iff_lookup {β : Type} {m : Map β} : m = ∅ ↔ ∀ k, m.lookup k = none := by
  constructor
  · rintro rfl k
    exact AList.lookup_empty k
  · intro h
    refine AList.ext (List.eq_nil_iff_forall_not_mem.mpr fun e he => ?_)
    have hSome : m.lookup e.1 = some e.2 := AList.mem_lookup_iff.mpr he
    rw [h e.1] at hSome
    cases hSome

/-- **Group cards.** The reload agrees with a build unless the last card is deleted. -/
theorem fresh_loadGroupCards_iff (h : Fresh c s) :
    Fresh { c with contactFts := db } (loadGroupCards db s) ↔ CardsKept db s := by
  obtain ⟨hRC, hRO, hRR, -⟩ := rebuilt_frame c s.convs
  obtain ⟨hRC', hRO', hRR', hRG'⟩ := rebuilt_frame { c with contactFts := db } s.convs
  obtain ⟨hConvs, -, hSessions, hContacts, hOwners, hRosters⟩ := loadGroupCards_frame db s
  have hOld := h.sessions
  have hIff : Fresh { c with contactFts := db } (loadGroupCards db s) ↔
      ∀ room, (loadGroupCards db s).groupCards.lookup room =
        (loadGroupCards db {}).groupCards.lookup room := by
    unfold Fresh
    rw [hConvs]
    constructor
    · intro h' room
      rw [h'.cards room, hRG']
    · intro hG
      refine ⟨fun u => ?_, fun u => ?_, fun room => ?_, fun room => ?_, fun room => ?_⟩
      · rw [hSessions]
        refine (hOld u).trans ?_
        rw [lookup_sessions_rebuilt, lookup_sessions_rebuilt]
      · rw [hContacts]
        exact (h.contacts u).trans (by rw [hRC, hRC'])
      · rw [hOwners]
        exact (h.owners room).trans (by rw [hRO, hRO'])
      · rw [hRosters]
        exact (h.rosters room).trans (by rw [hRR, hRR'])
      · rw [hG room, hRG']
  rw [hIff]
  unfold CardsKept
  rw [groupCards_loadGroupCards, groupCards_loadGroupCards]
  by_cases hNone : listedCards db = []
  · rw [if_pos hNone, if_pos hNone]
    simp only [hNone, true_implies]
    exact (forall_congr' fun room => by rw [AList.lookup_empty]).trans eq_empty_iff_lookup.symm
  · rw [if_neg hNone, if_neg hNone]
    simp [hNone]

end

/-! ## The build yields them -/

namespace Unchanged

variable {a b d : Store}

theorem refl (a : Store) : Unchanged a a := ⟨rfl, rfl, rfl, rfl, rfl⟩

theorem trans (h : Unchanged a b) (g : Unchanged b d) : Unchanged a d :=
  ⟨g.sessions.trans h.sessions, g.contacts.trans h.contacts, g.owners.trans h.owners,
    g.rosters.trans h.rosters, g.cards.trans h.cards⟩

theorem scanTable (x : Codec) (me : String) (contacts : Map Contact) (loadFails : WmKey → Bool)
    (f : Source) (s : Store) (t : String × String) :
    Unchanged s (scanTable x me contacts loadFails f s t) := by
  rcases scanTable_cases x me contacts loadFails f s t with ⟨c, -, -, hEq⟩ | ⟨-, hEq⟩
  · rw [hEq]
    exact ⟨rfl, rfl, rfl, rfl, rfl⟩
  · rw [hEq]
    exact refl s

theorem messageStage (x : Codec) (me : String) (keys : KeyMap) (w : World) (io : BuildIo)
    (ps : LivePool × Store) : Unchanged ps.2 (messageStage x me keys w io ps).2 := by
  have hFile : ∀ contacts s f, Unchanged s (scanFile x me contacts io.loadFails s f) := by
    intro contacts s f
    exact List.foldlRecOn _ _ (refl s) fun s' h t _ => h.trans (scanTable _ _ _ _ _ _ _)
  exact List.foldlRecOn _ _ (refl ps.2) fun s h f _ => h.trans (hFile _ _ _)

theorem loadSns (x : Codec) (db : Db) (s : Store) : Unchanged s (loadSns x db s) := by
  unfold Weflow.loadSns
  repeat' split
  all_goals exact ⟨rfl, rfl, rfl, rfl, rfl⟩

theorem fillMessageCounts (h : Unchanged a b) (hConvs : b.convs = a.convs) :
    SameSections (fillMessageCounts b) (fillMessageCounts a) := by
  obtain ⟨hSessions, hContacts, hOwners, hRosters, hCards⟩ := h
  refine ⟨fun u => ?_, fun u => ?_, fun room => ?_, fun room => ?_, fun room => ?_⟩
  · unfold Weflow.fillMessageCounts
    rw [Map.lookup_mapVal, Map.lookup_mapVal, hSessions]
    simp only [Store.convCount, Store.conv, hConvs]
  · exact congrArg (AList.lookup u) hContacts
  · exact congrArg (AList.lookup room) hOwners
  · exact congrArg (AList.lookup room) hRosters
  · exact congrArg (AList.lookup room) hCards

end Unchanged

/-- The loaders read nothing of the account. -/
theorem unchanged_loaded (c : Contents) (me : String) :
    Unchanged (loaded c {}) (loaded c { myWxid := me }) := by
  obtain ⟨hS, hC, hO, hR, hG⟩ := loaded_frame c {}
  obtain ⟨hS', hC', hO', hR', hG'⟩ := loaded_frame c { myWxid := me }
  refine ⟨hS'.trans hS.symm, hC'.trans hC.symm, ?_, ?_, ?_⟩
  · rw [hO', hO, chatroomOwner_loadChatroomMeta, chatroomOwner_loadChatroomMeta]
  · rw [hR', hR, chatroomRoster_loadChatroomMeta, chatroomRoster_loadChatroomMeta]
  · rw [hG', hG, groupCards_loadGroupCards, groupCards_loadGroupCards]

/-- The content of the first file of a kind. -/
def World.section (w : World) (kind : DbKind) : Db :=
  ((w.files.find? fun f => f.kind = kind).map fun f => f.db).getD .empty

def World.contents (w : World) : Contents :=
  ⟨w.section .session, w.section .contact, w.section .contactFts⟩

/-- With its key and without failures a section is loaded. -/
theorem sectionStage_loads {keys : KeyMap} {w : World}
    (hKeys : ∀ f ∈ w.files, keys f.rel = some f.key) (kind : DbKind) (required : Bool)
    (load : Db → Store → Store) (hEmpty : ∀ s, load .empty s = s) (s : Store) (pool : LivePool)
    (hMarks : pool.keyless = []) :
    ∃ pool', pool'.keyless = [] ∧ sectionStage kind required load keys w {} (pool, s) =
      .ok (pool', load (w.section kind) s) := by
  unfold sectionStage World.section
  cases hFind : w.files.find? fun f => f.kind = kind with
  | none => exact ⟨pool, hMarks, by rw [Option.map_none, Option.getD_none, hEmpty]⟩
  | some f =>
    have hOk : (pool.getOrOpen f f.key {}).2 = none :=
      LivePool.getOrOpen_ok (by simp [LivePool.isKeyless, hMarks]) rfl rfl
    have hKeyless : (pool.getOrOpen f f.key {}).1.keyless = [] :=
      List.sublist_nil.mp (hMarks ▸ pool.keyless_getOrOpen f f.key {})
    refine ⟨(pool.getOrOpen f f.key {}).1, hKeyless, ?_⟩
    simp only [hKeys f (List.mem_of_find?_eq_some hFind), hOk, if_true, Option.map_some,
      Option.getD_some]

/-- A build without failures yields the sections of its contents. -/
theorem fresh_quietBuild {x : Codec} {me : String} {keys : KeyMap} {w : World}
    (hKeys : ∀ f ∈ w.files, keys f.rel = some f.key) (nowMs : Int) :
    Fresh w.contents (buildAllLive x me keys w {} {} nowMs).2 := by
  obtain ⟨p₁, hMarks₁, h₁⟩ := sectionStage_loads hKeys .session true loadSessions
    (fun _ => rfl) { myWxid := me } {} rfl
  obtain ⟨p₂, hMarks₂, h₂⟩ := sectionStage_loads hKeys .contact true
    (fun db s => loadChatroomMeta db (loadContacts db s)) (fun _ => rfl)
    (loadSessions (w.section .session) { myWxid := me }) p₁ hMarks₁
  obtain ⟨p₃, hMarks₃, h₃⟩ := sectionStage_loads hKeys .contactFts false loadGroupCards
    (fun _ => rfl) (loadChatroomMeta (w.section .contact) (loadContacts (w.section .contact)
      (loadSessions (w.section .session) { myWxid := me }))) p₂ hMarks₂
  let scanned := messageStage x me keys w {} (p₃, loaded w.contents { myWxid := me })
  obtain ⟨p₅, h₅, -⟩ := sectionStage_quiet hKeys .sns true (loadSns x) {} scanned
  have hSns : Ends (sectionStage .sns true (loadSns x) keys w {} scanned)
      (fun ps => Unchanged scanned.2 ps.2) fun ps => Unchanged scanned.2 ps.2 :=
    ends_sectionStage_store (P := Unchanged scanned.2)
      (fun f _ _ s hs => hs.trans (.loadSns x f.db s)) (.refl _)
  rw [h₅] at hSns
  have hAll : Unchanged (loaded w.contents {}) p₅.2 :=
    (unchanged_loaded w.contents me).trans ((Unchanged.messageStage x me keys w {} _).trans hSns)
  have hInner : buildAllLiveInner x me keys w {} {} = .ok (p₅.1, fillMessageCounts p₅.2) := by
    have h₃' : sectionStage .contactFts false loadGroupCards keys w {} (p₂, _) =
      .ok (p₃, loaded w.contents { myWxid := me }) := h₃
    unfold buildAllLiveInner
    simp only [h₁, h₂, h₃', bind, Except.bind]
    rw [h₅]
  have hFilled : SameSections (fillMessageCounts p₅.2) (rebuilt w.contents p₅.2.convs) :=
    Unchanged.fillMessageCounts (a := { loaded w.contents {} with convs := p₅.2.convs })
      ⟨hAll.sessions, hAll.contacts, hAll.owners, hAll.rosters, hAll.cards⟩ rfl
  unfold buildAllLive
  rw [hInner]
  exact ⟨hFilled.sessions, hFilled.contacts, hFilled.owners, hFilled.rosters, hFilled.cards⟩

end Weflow
