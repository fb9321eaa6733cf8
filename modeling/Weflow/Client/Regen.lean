import Weflow.Lib.Json

/-!
# The description normalizer

`normalize` of `clients/regen/src/main.rs`: an OpenAPI 3.1 description is rewritten for a generator
that reads 3.0. A type array with null becomes its other entry, the null arms of a union are
dropped, and a union with one arm becomes that arm. An object is settled before its values are, so
the keys of an arm come into an object whose own keys have been settled already.

`normal_iff` says when nothing is left to rewrite, which is also when a second pass changes nothing
(`normalize_normal`).
-/

namespace Weflow.Regen

open Json (Value insertField mem_insertField)

/-! ## The code -/

abbrev Fields := List (String × Value)

def field (fs : Fields) (key : String) : Option Value := (Value.obj fs).get key

/-- The name of the null type. -/
def isNull : Value → Bool
  | .str s => s == "null"
  | _ => false

def isNullArm (arm : Value) : Bool := (arm.get "type").any isNull

/-- A type array of two entries with null. -/
def isNullable (types : List Value) : Bool := types.length == 2 && types.any isNull

/-- What is left of a type array. -/
def typesLeft (types : List Value) : List Value :=
  if isNullable types then types.eraseP isNull else types

/-- The type array of an object. -/
def settleType (fs : Fields) : Fields :=
  match field fs "type" with
  | some (.arr types) =>
    let fs := match typesLeft types with
      | [only] => insertField "type" only fs
      | left => insertField "type" (.arr left) fs
    if isNullable types then insertField "nullable" (.bool true) fs else fs
  | _ => fs

/-- The union of an object. -/
def settleUnion (fs : Fields) : Fields :=
  match field fs "oneOf" with
  | some (.arr arms) =>
    match arms.filter fun arm => !isNullArm arm with
    | [only] =>
      let fs := fs.filter (·.1 != "oneOf")
      match only with
      | .obj inner => inner.foldl (fun fs f => insertField f.1 f.2 fs) fs
      | _ => fs
    | arms => insertField "oneOf" (.arr arms) fs
  | _ => fs

theorem sizeOf_field {fs : Fields} {k : String} {v : Value} (h : field fs k = some v) :
    sizeOf v < sizeOf (Value.obj fs) := by
  obtain ⟨f, hFind, rfl⟩ := Option.map_eq_some_iff.mp h
  have hMem := List.sizeOf_lt_of_mem (List.mem_of_find?_eq_some hFind)
  have hPair : sizeOf f = 1 + sizeOf f.1 + sizeOf f.2 := by
    cases f
    rfl
  rw [Value.obj.sizeOf_spec]
  omega

theorem sizeOf_mem {fs : Fields} {f : String × Value} (h : f ∈ fs) :
    sizeOf f.2 < sizeOf (Value.obj fs) := by
  have hMem := List.sizeOf_lt_of_mem h
  have hPair : sizeOf f = 1 + sizeOf f.1 + sizeOf f.2 := by
    cases f
    rfl
  rw [Value.obj.sizeOf_spec]
  omega

theorem sizeOf_item {vs : List Value} {v : Value} (h : v ∈ vs) : sizeOf v < sizeOf (Value.arr vs) := by
  have hMem := List.sizeOf_lt_of_mem h
  rw [Value.arr.sizeOf_spec]
  omega

theorem sizeOf_sublist {vs ws : List Value} (h : vs.Sublist ws) : sizeOf vs ≤ sizeOf ws := by
  induction h with
  | slnil => exact le_rfl
  | cons v _ ih =>
    rw [List.cons.sizeOf_spec]
    omega
  | cons_cons v _ ih =>
    rw [List.cons.sizeOf_spec, List.cons.sizeOf_spec]
    omega

theorem typesLeft_sublist (types : List Value) : (typesLeft types).Sublist types := by
  rw [typesLeft]
  split
  · exact List.eraseP_sublist
  · exact List.Sublist.refl types

theorem sizeOf_settleType {fs : Fields} {f : String × Value} (h : f ∈ settleType fs) :
    sizeOf f.2 < sizeOf (Value.obj fs) := by
  rw [settleType] at h
  split at h
  · rename_i types hType
    have hSize := sizeOf_field hType
    have hLess := sizeOf_sublist (typesLeft_sublist types)
    have hTrue : sizeOf (Value.bool true) = 2 := rfl
    have hPos : 0 < sizeOf types := by
      cases types with
      | nil => exact Nat.one_pos
      | cons t types =>
        rw [List.cons.sizeOf_spec]
        omega
    rw [Value.arr.sizeOf_spec] at hSize
    have hInner : ∀ g, g ∈ (match typesLeft types with
        | [only] => insertField "type" only fs
        | left => insertField "type" (.arr left) fs) → sizeOf g.2 < sizeOf (Value.obj fs) := by
      intro g hg
      split at hg
      · rename_i only hOnly
        rw [hOnly, List.cons.sizeOf_spec] at hLess
        rcases mem_insertField hg with rfl | hg
        · dsimp only
          omega
        · exact sizeOf_mem hg
      · rcases mem_insertField hg with rfl | hg
        · rw [Value.arr.sizeOf_spec]
          omega
        · exact sizeOf_mem hg
    dsimp only at h
    split at h
    · rcases mem_insertField h with rfl | hg
      · dsimp only
        omega
      · exact hInner f hg
    · exact hInner f h
  · exact sizeOf_mem h

theorem sizeOf_settleUnion {fs : Fields} {f : String × Value} (h : f ∈ settleUnion fs) :
    f ∈ fs ∨ ∃ arms, field fs "oneOf" = some (.arr arms) ∧ sizeOf f.2 ≤ sizeOf (Value.arr arms) := by
  rw [settleUnion] at h
  split at h
  · rename_i arms hUnion
    have hArms := sizeOf_sublist (List.filter_sublist (l := arms) (p := fun arm => !isNullArm arm))
    split at h
    · rename_i only hOnly
      rw [hOnly, List.cons.sizeOf_spec] at hArms
      dsimp only at h
      split at h
      · rename_i inner
        rcases Json.foldl_insertField_mem h with hg | hg
        · have hInner := sizeOf_mem hg
          refine .inr ⟨arms, hUnion, ?_⟩
          rw [Value.arr.sizeOf_spec]
          omega
        · exact .inl (List.mem_filter.mp hg).1
      · exact .inl (List.mem_filter.mp h).1
    · rcases mem_insertField h with rfl | hg
      · refine .inr ⟨arms, hUnion, ?_⟩
        rw [Value.arr.sizeOf_spec, Value.arr.sizeOf_spec]
        omega
      · exact .inl hg
  · exact .inl h

theorem field_insertField (k : String) (v : Value) (fs : Fields) (key : String) :
    field (insertField k v fs) key = if k = key then some v else field fs key := by
  rw [field, Value.get, Json.find_insertField]
  split
  · rfl
  · rfl

/-- Only the keys `type` and `nullable` are written. -/
theorem field_settleType {fs : Fields} {key : String} (hType : key ≠ "type")
    (hNullable : key ≠ "nullable") : field (settleType fs) key = field fs key := by
  rw [settleType]
  split
  · rename_i types _
    have hInner : field (match typesLeft types with
        | [only] => insertField "type" only fs
        | left => insertField "type" (.arr left) fs) key = field fs key := by
      split
      · rw [field_insertField, if_neg hType.symm]
      · rw [field_insertField, if_neg hType.symm]
    dsimp only
    split
    · rw [field_insertField, if_neg hNullable.symm, hInner]
    · exact hInner
  · rfl

def settle (fs : Fields) : Fields := settleUnion (settleType fs)

theorem sizeOf_settle {fs : Fields} {f : String × Value} (h : f ∈ settle fs) :
    sizeOf f.2 < sizeOf (Value.obj fs) := by
  rcases sizeOf_settleUnion h with h | ⟨arms, hUnion, hSize⟩
  · exact sizeOf_settleType h
  · rw [field_settleType (by decide) (by decide)] at hUnion
    exact lt_of_le_of_lt hSize (sizeOf_field hUnion)

/-- `normalize` -/
def normalize : Value → Value
  | .arr items => .arr (items.map normalize)
  | .obj fs => .obj ((settle fs).attach.map fun f => (f.1.1, normalize f.1.2))
  | v => v
termination_by v => sizeOf v
decreasing_by
  · exact sizeOf_item (by assumption)
  · exact sizeOf_settle f.2

@[simp] theorem normalize_null : normalize .null = .null := by simp [normalize]

@[simp] theorem normalize_bool (b : Bool) : normalize (.bool b) = .bool b := by simp [normalize]

@[simp] theorem normalize_int (i : Int) : normalize (.int i) = .int i := by simp [normalize]

@[simp] theorem normalize_float (l : String) : normalize (.float l) = .float l := by
  simp [normalize]

@[simp] theorem normalize_str (s : String) : normalize (.str s) = .str s := by simp [normalize]

theorem normalize_obj (fs : Fields) :
    normalize (.obj fs) = .obj ((settle fs).map fun f => (f.1, normalize f.2)) := by
  rw [normalize]
  exact congrArg Value.obj (List.attach_map_val (f := fun f : String × Value =>
    (f.1, normalize f.2)))

/-! ## Normal forms -/

/-- The condition of all objects in a value. -/
inductive Everywhere (P : Fields → Prop) : Value → Prop
  | null : Everywhere P .null
  | bool (b : Bool) : Everywhere P (.bool b)
  | int (i : Int) : Everywhere P (.int i)
  | float (literal : String) : Everywhere P (.float literal)
  | str (s : String) : Everywhere P (.str s)
  | arr (items : List Value) (hItems : ∀ v ∈ items, Everywhere P v) : Everywhere P (.arr items)
  | obj (fs : Fields) (hHere : P fs) (hFields : ∀ f ∈ fs, Everywhere P f.2) :
      Everywhere P (.obj fs)

/-- The objects of a JSON library: every key once, in order. -/
def Keyed : Value → Prop := Everywhere fun fs => (fs.map (·.1)).Pairwise (· < ·)

/-- Not a type array with null or with a single entry, among those of at most two entries. -/
def PlainType : Value → Prop
  | .arr types => types.length ≤ 2 → types.any isNull = false ∧ types.length ≠ 1
  | _ => True

/-- Not a union with one arm or with a null arm. -/
def PlainUnion : Value → Prop
  | .arr arms => arms.length ≠ 1 ∧ ∀ arm ∈ arms, isNullArm arm = false
  | _ => True

/-- An object with nothing left to rewrite. -/
structure NormalObject (fs : Fields) : Prop where
  type : ∀ t, field fs "type" = some t → PlainType t
  union : ∀ u, field fs "oneOf" = some u → PlainUnion u

def Normal : Value → Prop := Everywhere NormalObject

variable {P : Fields → Prop}

theorem everywhere_arr {items : List Value} :
    Everywhere P (.arr items) ↔ ∀ v ∈ items, Everywhere P v := by
  constructor
  · intro h
    cases h with
    | arr _ hItems => exact hItems
  · exact .arr items

theorem everywhere_obj {fs : Fields} :
    Everywhere P (.obj fs) ↔ P fs ∧ ∀ f ∈ fs, Everywhere P f.2 := by
  constructor
  · intro h
    cases h with
    | obj _ hHere hFields => exact ⟨hHere, hFields⟩
  · exact fun h => .obj fs h.1 h.2

theorem Everywhere.field {fs : Fields} {k : String} {v : Value} (h : Everywhere P (.obj fs))
    (hField : field fs k = some v) : Everywhere P v := by
  obtain ⟨f, hFind, rfl⟩ := Option.map_eq_some_iff.mp hField
  exact (everywhere_obj.mp h).2 f (List.mem_of_find?_eq_some hFind)

/-! ## A second pass -/

theorem insertField_same {fs : Fields} {k : String} {v : Value}
    (hKeys : (fs.map (·.1)).Pairwise (· < ·)) (hField : field fs k = some v) :
    insertField k v fs = fs := by
  induction fs with
  | nil => cases hField
  | cons f fs ih =>
    obtain ⟨k', v'⟩ := f
    obtain ⟨hFirst, hRest⟩ := List.pairwise_cons.mp hKeys
    by_cases hk : k' = k
    · subst hk
      have hv : v' = v := by simpa [field, Value.get] using hField
      rw [insertField, if_neg (lt_irrefl _), if_pos rfl, hv]
    · have hField' : field fs k = some v := by simpa [field, Value.get, hk] using hField
      obtain ⟨g, hFind, -⟩ := Option.map_eq_some_iff.mp hField'
      have hMem := List.mem_of_find?_eq_some hFind
      have hKey : g.1 = k := by simpa using List.find?_some hFind
      have hLess : k' < k := by
        rw [← hKey]
        exact hFirst g.1 (List.mem_map_of_mem hMem)
      rw [insertField, if_neg (not_lt.mpr hLess.le), if_neg (Ne.symm hk), ih hRest hField']

theorem typesLeft_plain {types : List Value} (h : PlainType (.arr types)) :
    isNullable types = false ∧ typesLeft types = types := by
  have hNullable : isNullable types = false := by
    rw [isNullable, Bool.and_eq_false_iff]
    by_cases hTwo : types.length = 2
    · exact .inr (h hTwo.le).1
    · exact .inl (by simpa using hTwo)
  exact ⟨hNullable, by rw [typesLeft, hNullable, if_neg (by simp)]⟩

theorem settle_normal {fs : Fields} (hKeys : (fs.map (·.1)).Pairwise (· < ·))
    (h : NormalObject fs) : settle fs = fs := by
  have hType : settleType fs = fs := by
    rw [settleType]
    split
    · rename_i types hField
      have hPlain := h.type _ hField
      obtain ⟨hNullable, hLeft⟩ := typesLeft_plain hPlain
      rw [hNullable, hLeft, if_neg (by simp)]
      split
      · exact absurd rfl (hPlain (by simp)).2
      · exact insertField_same hKeys hField
    · rfl
  rw [settle, hType, settleUnion]
  split
  · rename_i arms hField
    obtain ⟨hOne, hNull⟩ := h.union _ hField
    have hAll : arms.filter (fun arm => !isNullArm arm) = arms :=
      List.filter_eq_self.mpr fun arm hArm => by rw [hNull arm hArm, Bool.not_false]
    rw [hAll]
    split
    · exact absurd rfl hOne
    · exact insertField_same hKeys hField
  · rfl

/-- A value with nothing left to rewrite is left alone. -/
theorem normalize_normal {v : Value} (hKeyed : Keyed v) (h : Normal v) : normalize v = v := by
  induction h with
  | null => simp
  | bool b => simp
  | int i => simp
  | float l => simp
  | str s => simp
  | arr items _ ih =>
    rw [normalize, List.map_congr_left fun v hv => ih v hv (everywhere_arr.mp hKeyed v hv)]
    exact congrArg Value.arr (List.map_id items)
  | obj fs hHere _ ih =>
    obtain ⟨hKeys, hFields⟩ := everywhere_obj.mp hKeyed
    rw [normalize_obj, settle_normal hKeys hHere, List.map_congr_left fun f hf =>
      congrArg (Prod.mk f.1) (ih f hf (hFields f hf))]
    exact congrArg Value.obj (List.map_id fs)

/-! ## What settling leaves -/

/-- The arm of a union that is left with one. -/
def lone (fs : Fields) : Option Value :=
  match field fs "oneOf" with
  | some (.arr arms) =>
    match arms.filter fun arm => !isNullArm arm with
    | [only] => some only
    | _ => none
  | _ => none

section

variable {fs : Fields} {k : String} {v : Value}

theorem field_mem (hKeys : (fs.map (·.1)).Pairwise (· < ·)) {f : String × Value} (h : f ∈ fs) :
    field fs f.1 = some f.2 := by
  induction fs with
  | nil => cases h
  | cons g fs ih =>
    obtain ⟨hFirst, hRest⟩ := List.pairwise_cons.mp hKeys
    rcases List.mem_cons.mp h with rfl | h
    · simp [field, Value.get]
    · have hNe : g.1 ≠ f.1 := (hFirst f.1 (List.mem_map_of_mem h)).ne
      have hField := ih hRest h
      rw [field, Value.get, List.find?_cons_of_neg (by simpa using hNe)]
      exact hField

theorem mem_of_field (h : field fs k = some v) : (k, v) ∈ fs := by
  obtain ⟨f, hFind, rfl⟩ := Option.map_eq_some_iff.mp h
  have hKey : f.1 = k := by simpa using List.find?_some hFind
  rw [← hKey]
  exact List.mem_of_find?_eq_some hFind

theorem field_filter (fs : Fields) (key : String) :
    field (fs.filter (·.1 != "oneOf")) key = if key = "oneOf" then none else field fs key := by
  induction fs with
  | nil => simp [field, Value.get]
  | cons f fs ih =>
    by_cases hUnion : f.1 = "oneOf"
    · rw [List.filter_cons_of_neg (by simp [hUnion]), ih]
      split
      · rfl
      · rename_i hKey
        have hNe : f.1 ≠ key := fun h => hKey (h.symm.trans hUnion)
        simp [field, Value.get, hNe]
    · rw [List.filter_cons_of_pos (by simp [hUnion])]
      by_cases hKey : f.1 = key
      · subst hKey
        simp [field, Value.get, hUnion]
      · have hRest : ∀ gs : Fields, field (f :: gs) key = field gs key := fun gs => by
          simp [field, Value.get, hKey]
        rw [hRest, hRest, ih]

theorem field_foldl {inner : Fields} (hKeys : (inner.map (·.1)).Pairwise (· < ·)) (fs : Fields)
    (key : String) : field (inner.foldl (fun fs f => insertField f.1 f.2 fs) fs) key =
      (field inner key).or (field fs key) := by
  induction inner generalizing fs with
  | nil => rfl
  | cons f inner ih =>
    obtain ⟨hFirst, hRest⟩ := List.pairwise_cons.mp hKeys
    rw [List.foldl_cons, ih hRest, field_insertField]
    by_cases hKey : f.1 = key
    · have hNone : field inner key = none := by
        rw [Option.eq_none_iff_forall_ne_some]
        intro v hv
        have hLess := hFirst key (List.mem_map_of_mem (mem_of_field hv))
        exact hLess.ne hKey
      rw [hNone, if_pos hKey]
      simp [field, Value.get, hKey]
    · rw [if_neg hKey]
      simp [field, Value.get, hKey]

theorem lone_settleType (fs : Fields) : lone (settleType fs) = lone fs := by
  rw [lone, field_settleType (by decide) (by decide), lone]

/-- The union of one arm: the keys of the arm come before those of the object. -/
theorem field_settleUnion_lone {arm : Value} (hLone : lone fs = some arm) (hKeyed : Keyed arm)
    (key : String) : field (settleUnion fs) key =
      (arm.get key).or (if key = "oneOf" then none else field fs key) := by
  rw [lone] at hLone
  rw [settleUnion]
  split at hLone
  · rename_i arms hUnion
    split at hLone
    · rename_i only hOnly
      cases hLone
      dsimp only
      cases arm with
      | obj inner =>
        rw [field_foldl (everywhere_obj.mp hKeyed).1, field_filter]
        rfl
      | null => exact field_filter fs key
      | bool b => exact field_filter fs key
      | int i => exact field_filter fs key
      | float l => exact field_filter fs key
      | str s => exact field_filter fs key
      | arr items => exact field_filter fs key
    · cases hLone
  · cases hLone

theorem field_settleUnion_arms {arms : List Value} (hLone : lone fs = none)
    (hUnion : field fs "oneOf" = some (.arr arms)) (key : String) :
    field (settleUnion fs) key = if key = "oneOf" then
      some (.arr (arms.filter fun arm => !isNullArm arm)) else field fs key := by
  rw [lone] at hLone
  rw [settleUnion]
  simp only [hUnion] at hLone ⊢
  split at hLone
  · cases hLone
  · rw [field_insertField]
    by_cases hKey : key = "oneOf"
    · rw [if_pos hKey, if_pos hKey.symm]
    · rw [if_neg hKey, if_neg (Ne.symm hKey)]

theorem settleUnion_none (hUnion : ∀ arms, field fs "oneOf" ≠ some (.arr arms)) :
    settleUnion fs = fs := by
  rw [settleUnion]
  split
  · rename_i arms h
    exact absurd h (hUnion arms)
  · rfl

/-- An object whose union is left with one arm. -/
theorem field_settle_lone {arm : Value} (hLone : lone fs = some arm) (hKeyed : Keyed arm)
    (key : String) : field (settle fs) key =
      (arm.get key).or (if key = "oneOf" then none else field (settleType fs) key) :=
  field_settleUnion_lone ((lone_settleType fs).trans hLone) hKeyed key

/-- An object whose union keeps none or several arms. -/
theorem field_settle_arms {arms : List Value} (hLone : lone fs = none)
    (hUnion : field fs "oneOf" = some (.arr arms)) (key : String) :
    field (settle fs) key = if key = "oneOf" then
      some (.arr (arms.filter fun arm => !isNullArm arm)) else field (settleType fs) key :=
  field_settleUnion_arms ((lone_settleType fs).trans hLone)
    ((field_settleType (by decide) (by decide)).trans hUnion) key

/-- An object without a union. -/
theorem settle_none (hUnion : ∀ arms, field fs "oneOf" ≠ some (.arr arms)) :
    settle fs = settleType fs := by
  refine settleUnion_none fun arms h => hUnion arms ?_
  rwa [field_settleType (by decide) (by decide)] at h

theorem length_typesLeft {types : List Value} (h : isNullable types = true) :
    ∃ only, typesLeft types = [only] := by
  rw [typesLeft, if_pos h]
  rw [isNullable, Bool.and_eq_true, beq_iff_eq] at h
  obtain ⟨t, hMem, hNull⟩ := List.any_eq_true.mp h.2
  exact List.length_eq_one_iff.mp (by rw [List.length_eraseP_of_mem hMem hNull, h.1])

/-- The type after settling. -/
theorem field_settleType_type (fs : Fields) : field (settleType fs) "type" =
    match field fs "type" with
    | some (.arr types) =>
      match typesLeft types with
      | [only] => some only
      | left => some (.arr left)
    | t => t := by
  rw [settleType]
  split
  · rename_i types hType
    have hInner : ∀ gs, field (if isNullable types then insertField "nullable" (.bool true) gs
        else gs) "type" = field gs "type" := by
      intro gs
      split
      · rw [field_insertField, if_neg (by decide)]
      · rfl
    dsimp only
    rw [hInner]
    split
    · rw [field_insertField, if_pos rfl]
    · rw [field_insertField, if_pos rfl]
  · rfl

theorem field_settleType_nullable {types : List Value} (hType : field fs "type" = some (.arr types)) :
    field (settleType fs) "nullable" =
      if isNullable types then some (.bool true) else field fs "nullable" := by
  rw [settleType]
  simp only [hType]
  split
  · rw [field_insertField, if_pos rfl]
  · split
    · rw [field_insertField, if_neg (by decide)]
    · rw [field_insertField, if_neg (by decide)]

theorem settleType_none (hType : ∀ types, field fs "type" ≠ some (.arr types)) :
    settleType fs = fs := by
  rw [settleType]
  split
  · rename_i types h
    exact absurd h (hType types)
  · rfl

/-- The type array is settled, and the mark of a nullable one is set. -/
theorem field_settleType_eq (hType : k ≠ "type") (hNullable : k = "nullable" →
    ∀ types, field fs "type" = some (.arr types) → isNullable types = false) :
    field (settleType fs) k = field fs k := by
  by_cases hNull : k = "nullable"
  · subst hNull
    by_cases hTypes : ∃ types, field fs "type" = some (.arr types)
    · obtain ⟨types, hTypes⟩ := hTypes
      rw [field_settleType_nullable hTypes, hNullable rfl types hTypes, if_neg (by simp)]
    · rw [settleType_none fun types h => hTypes ⟨types, h⟩]
  · exact field_settleType hType hNull

end

/-! ## The values that are reached -/

/-- The values of an object that the rewriting goes on with: the fields that no key of a lone arm
replaces, the arms that are left, and the fields of a lone arm. -/
inductive Kept (fs : Fields) : Value → Prop
  | field (k : String) (v : Value) (hField : field fs k = some v)
      (hUnion : k = "oneOf" → ∀ arms, v ≠ .arr arms)
      (hLone : ∀ arm, lone fs = some arm → arm.get k = none)
      (hNullable : k = "nullable" →
        ∀ types, field fs "type" = some (.arr types) → isNullable types = false) : Kept fs v
  | arm (arms : List Value) (arm : Value) (hUnion : field fs "oneOf" = some (.arr arms))
      (hLone : lone fs = none) (hArm : arm ∈ arms) (hNull : isNullArm arm = false) : Kept fs arm
  | merged (arm : Value) (k : String) (v : Value) (hLone : lone fs = some arm)
      (hField : arm.get k = some v) : Kept fs v

section

variable {fs : Fields} {arm v : Value}

theorem lone_mem (h : lone fs = some arm) : ∃ arms, field fs "oneOf" = some (.arr arms) ∧
    arm ∈ arms ∧ isNullArm arm = false := by
  rw [lone] at h
  split at h
  · rename_i arms hUnion
    split at h
    · rename_i only hOnly
      cases h
      have hMem : arm ∈ arms.filter fun arm => !isNullArm arm := by
        rw [hOnly]
        exact List.mem_cons_self
      obtain ⟨hMem, hNull⟩ := List.mem_filter.mp hMem
      exact ⟨arms, hUnion, hMem, by simpa using hNull⟩
    · cases h
  · cases h

theorem sizeOf_lone (h : lone fs = some arm) : sizeOf arm < sizeOf (Value.obj fs) := by
  obtain ⟨arms, hUnion, hMem, -⟩ := lone_mem h
  exact (sizeOf_item hMem).trans (sizeOf_field hUnion)

theorem sizeOf_get {k : String} (h : arm.get k = some v) : sizeOf v < sizeOf arm := by
  cases arm with
  | obj inner => exact sizeOf_field h
  | null => cases h
  | bool b => cases h
  | int i => cases h
  | float l => cases h
  | str s => cases h
  | arr items => cases h

theorem Kept.sizeOf (h : Kept fs v) : sizeOf v < sizeOf (Value.obj fs) := by
  cases h with
  | field k _ hField => exact sizeOf_field hField
  | arm arms _ hUnion _ hArm => exact (sizeOf_item hArm).trans (sizeOf_field hUnion)
  | merged arm k _ hLone hField => exact (sizeOf_get hField).trans (sizeOf_lone hLone)

theorem Everywhere.get {P : Fields → Prop} {k : String} (h : Everywhere P arm)
    (hGet : arm.get k = some v) : Everywhere P v := by
  cases arm with
  | obj inner => exact h.field hGet
  | null => cases hGet
  | bool b => cases hGet
  | int i => cases hGet
  | float l => cases hGet
  | str s => cases hGet
  | arr items => cases hGet

theorem Everywhere.lone {P : Fields → Prop} (h : Everywhere P (.obj fs)) (hLone : lone fs = some arm) :
    Everywhere P arm := by
  obtain ⟨arms, hUnion, hMem, -⟩ := lone_mem hLone
  exact everywhere_arr.mp (h.field hUnion) arm hMem

theorem Everywhere.kept {P : Fields → Prop} (h : Everywhere P (.obj fs)) (hKept : Kept fs v) :
    Everywhere P v := by
  cases hKept with
  | field k _ hField => exact h.field hField
  | arm arms _ hUnion _ hArm => exact everywhere_arr.mp (h.field hUnion) _ hArm
  | merged arm k _ hLone hField => exact (h.lone hLone).get hField

/-- A condition on values that goes through arrays and holds of `true` and of `"null"`. -/
structure Through (Q : Value → Prop) : Prop where
  yes : Q (.bool true)
  null : ∀ v, isNull v = true → Q v
  arr : ∀ items, Q (.arr items) ↔ ∀ v ∈ items, Q v

variable {Q : Value → Prop}

/-- What is left of a type array stands for the array. -/
theorem Through.type (hQ : Through Q) :
    (∀ v, field (settleType fs) "type" = some v → Q v) ↔ ∀ v, field fs "type" = some v → Q v := by
  rw [field_settleType_type]
  split
  · rename_i types hType
    have hLeft : Q (.arr (typesLeft types)) ↔ Q (.arr types) := by
      rw [hQ.arr, hQ.arr]
      refine ⟨fun h v hv => ?_, fun h v hv => h v ((typesLeft_sublist types).subset hv)⟩
      by_cases hNull : isNull v = true
      · exact hQ.null v hNull
      · refine h v ?_
        rw [typesLeft]
        split
        · exact (List.mem_eraseP_of_neg hNull).mpr hv
        · exact hv
    have hOld : (∀ v, field fs "type" = some v → Q v) ↔ Q (.arr types) := by
      rw [hType]
      exact ⟨fun h => h _ rfl, fun h v hv => by cases hv; exact h⟩
    rw [hOld, ← hLeft]
    split
    · rename_i only hOnly
      rw [hOnly, hQ.arr]
      exact ⟨fun h v hv => (List.mem_singleton.mp hv) ▸ h only rfl,
        fun h v hv => by cases hv; exact h only List.mem_cons_self⟩
    · exact ⟨fun h => h _ rfl, fun h v hv => by cases hv; exact h⟩
  · rfl

/-- A key that neither the union nor its lone arm has is left alone by the union. -/
theorem field_settle_own {k : String} (hKeyed : Keyed (.obj fs))
    (hUnion : k = "oneOf" → ∀ arms, field fs "oneOf" ≠ some (.arr arms))
    (hLone : ∀ arm, lone fs = some arm → arm.get k = none) :
    field (settle fs) k = field (settleType fs) k := by
  by_cases hArms : ∃ arms, field fs "oneOf" = some (.arr arms)
  · obtain ⟨arms, hArms⟩ := hArms
    have hNe : k ≠ "oneOf" := fun h => hUnion h arms hArms
    cases hOne : lone fs with
    | some arm =>
      rw [field_settle_lone hOne (hKeyed.lone hOne), hLone arm hOne, Option.none_or, if_neg hNe]
    | none => rw [field_settle_arms hOne hArms, if_neg hNe]
  · rw [settle_none fun arms h => hArms ⟨arms, h⟩]

/-- A value that is reached is one of the settled object, or an entry of one. -/
theorem Through.of_settled (hQ : Through Q) (hKeyed : Keyed (.obj fs))
    (h : ∀ k v, field (settle fs) k = some v → Q v) (hKept : Kept fs v) : Q v := by
  cases hKept with
  | arm arms arm hUnion hLone hArm hNull =>
    have hSettled := field_settle_arms hLone hUnion "oneOf"
    rw [if_pos rfl] at hSettled
    refine (hQ.arr _).mp (h "oneOf" _ hSettled) v (List.mem_filter.mpr ⟨hArm, ?_⟩)
    rw [hNull, Bool.not_false]
  | merged arm k _ hLone hField =>
    have hSettled := field_settle_lone hLone (hKeyed.lone hLone) k
    rw [hField, Option.some_or] at hSettled
    exact h k v hSettled
  | field k _ hField hUnion hLone hNullable =>
    have hOwn : field (settle fs) k = field (settleType fs) k := by
      refine field_settle_own hKeyed (fun hKey arms hArms => ?_) hLone
      rw [hKey, hArms, Option.some.injEq] at hField
      exact hUnion hKey arms hField.symm
    by_cases hType : k = "type"
    · subst hType
      exact hQ.type.mp (fun w hw => h "type" w (hOwn.trans hw)) v hField
    · exact h k v ((hOwn.trans (field_settleType_eq hType hNullable)).trans hField)

/-- A key of the object's own, if the lone arm does not have it, comes from a value that is
reached. -/
theorem Through.of_own (hQ : Through Q) (h : ∀ v, Kept fs v → Q v) {k : String}
    (hField : field (settleType fs) k = some v) (hUnion : k = "oneOf" → ∀ arms, v ≠ .arr arms)
    (hLone : ∀ arm, lone fs = some arm → arm.get k = none) : Q v := by
  by_cases hType : k = "type"
  · subst hType
    exact hQ.type.mpr (fun w hw => h w (.field "type" w hw (fun h' => absurd h' (by decide))
      hLone fun h' => absurd h' (by decide))) v hField
  by_cases hMarked : k = "nullable" ∧
      ∃ types, field fs "type" = some (.arr types) ∧ isNullable types = true
  · -- the mark that settling has set
    obtain ⟨rfl, types, hTypes, hNullable⟩ := hMarked
    rw [field_settleType_nullable hTypes, hNullable, if_pos rfl, Option.some.injEq] at hField
    exact hField ▸ hQ.yes
  · have hNullable : k = "nullable" →
        ∀ types, field fs "type" = some (.arr types) → isNullable types = false := by
      intro hKey types hTypes
      rw [← Bool.not_eq_true]
      exact fun hTrue => hMarked ⟨hKey, types, hTypes, hTrue⟩
    rw [field_settleType_eq hType hNullable] at hField
    exact h v (.field k v hField hUnion hLone hNullable)

/-- What holds of the values of a settled object holds of the values that are reached. -/
theorem Through.kept_iff (hQ : Through Q) (hKeyed : Keyed (.obj fs)) :
    (∀ k v, field (settle fs) k = some v → Q v) ↔ ∀ v, Kept fs v → Q v := by
  refine ⟨fun h v hKept => hQ.of_settled hKeyed h hKept, fun h k v hField => ?_⟩
  cases hOne : lone fs with
  | some arm =>
    rw [field_settle_lone hOne (hKeyed.lone hOne)] at hField
    cases hArm : arm.get k with
    | some w =>
      rw [hArm, Option.some_or] at hField
      cases hField
      exact h v (.merged arm k v hOne hArm)
    | none =>
      rw [hArm, Option.none_or] at hField
      split at hField
      · cases hField
      · rename_i hNe
        refine hQ.of_own h hField (fun h' => absurd h' hNe) fun arm' h' => ?_
        rw [hOne, Option.some.injEq] at h'
        rw [← h', hArm]
  | none =>
    have hLone : ∀ arm, lone fs = some arm → arm.get k = none := by
      intro arm h'
      rw [hOne] at h'
      cases h'
    by_cases hArms : ∃ arms, field fs "oneOf" = some (.arr arms)
    · obtain ⟨arms, hArms⟩ := hArms
      rw [field_settle_arms hOne hArms] at hField
      split at hField
      · cases hField
        refine (hQ.arr _).mpr fun arm hArm => ?_
        obtain ⟨hMem, hNull⟩ := List.mem_filter.mp hArm
        exact h arm (.arm arms arm hArms hOne hMem (by simpa using hNull))
      · rename_i hNe
        exact hQ.of_own h hField (fun h' => absurd h' hNe) hLone
    · rw [settle_none fun arms h' => hArms ⟨arms, h'⟩] at hField
      refine hQ.of_own h hField ?_ hLone
      rintro rfl arms rfl
      rw [field_settleType (by decide) (by decide)] at hField
      exact hArms ⟨arms, hField⟩

end

/-! ## When nothing is left to rewrite -/

/-- A type that comes down to null: the name, or an array of one or two entries that are all the
name. -/
def NullType (t : Value) : Prop :=
  t = .str "null" ∨ t = .arr [.str "null"] ∨ t = .arr [.str "null", .str "null"]

/-- An arm that comes down to the null type: its type does, and it is no union that is left with
one arm which brings a type. -/
def BecomesNull (arm : Value) : Prop :=
  (∃ t, arm.get "type" = some t ∧ NullType t) ∧
    ∀ fs only, arm = .obj fs → lone fs = some only → only.get "type" = none

/-- An object that settles: its type array has no such array in it; of a lone arm, the type and the
union need no rewriting; and no arm that stays comes down to null. -/
structure Settles (fs : Fields) : Prop where
  type : (∀ arm, lone fs = some arm → arm.get "type" = none) → ∀ types only,
    field fs "type" = some (.arr types) → typesLeft types = [only] → PlainType only
  loneType : ∀ arm t, lone fs = some arm → arm.get "type" = some t → PlainType t
  arms : lone fs = none → ∀ arms, field fs "oneOf" = some (.arr arms) → ∀ arm ∈ arms,
    isNullArm arm = false → ¬ BecomesNull arm
  loneArms : ∀ arm arms, lone fs = some arm → arm.get "oneOf" = some (.arr arms) →
    arms.length ≠ 1 ∧ ∀ arm ∈ arms, ¬ BecomesNull arm

/-- The values whose objects all settle, as far as the rewriting goes. -/
inductive Clean : Value → Prop
  | null : Clean .null
  | bool (b : Bool) : Clean (.bool b)
  | int (i : Int) : Clean (.int i)
  | float (literal : String) : Clean (.float literal)
  | str (s : String) : Clean (.str s)
  | arr (items : List Value) (hItems : ∀ v ∈ items, Clean v) : Clean (.arr items)
  | obj (fs : Fields) (hSettles : Settles fs) (hKept : ∀ v, Kept fs v → Clean v) :
      Clean (.obj fs)

section

variable {fs : Fields}

theorem isNull_iff {v : Value} : isNull v = true ↔ v = .str "null" := by
  cases v <;> simp [isNull]

theorem isNull_normalize (v : Value) : isNull (normalize v) = isNull v := by
  cases v with
  | arr items => simp [normalize, isNull]
  | obj fs => simp [normalize_obj, isNull]
  | null => simp
  | bool b => simp
  | int i => simp
  | float l => simp
  | str s => simp

theorem plainType_normalize (t : Value) : PlainType (normalize t) ↔ PlainType t := by
  cases t with
  | arr types =>
    have hAny : (types.map normalize).any isNull = types.any isNull := by
      rw [List.any_map]
      exact congrArg types.any (funext isNull_normalize)
    rw [normalize, PlainType, PlainType, List.length_map, hAny]
  | obj fs => simp [normalize_obj, PlainType]
  | null => simp
  | bool b => simp
  | int i => simp
  | float l => simp
  | str s => simp

theorem field_normalize (fs : Fields) (k : String) :
    (normalize (.obj fs)).get k = (field (settle fs) k).map normalize := by
  rw [normalize_obj, Value.get, List.find?_map, field, Value.get, Option.map_map, Option.map_map]
  rfl

/-- The type that is settled on. -/
theorem field_settle_type (hKeyed : Keyed (.obj fs)) : field (settle fs) "type" =
    ((lone fs).bind (·.get "type")).or (field (settleType fs) "type") := by
  cases hOne : lone fs with
  | some arm =>
    rw [field_settle_lone hOne (hKeyed.lone hOne), if_neg (by decide)]
    rfl
  | none =>
    refine field_settle_own hKeyed (fun h => absurd h (by decide)) fun arm hArm => ?_
    rw [hOne] at hArm
    cases hArm

theorem typesLeft_null {types : List Value} :
    typesLeft types = [.str "null"] ↔
      types = [.str "null"] ∨ types = [.str "null", .str "null"] := by
  rw [typesLeft, isNullable]
  rcases types with _ | ⟨a, _ | ⟨b, _ | ⟨c, rest⟩⟩⟩
  · simp
  · simp
  · by_cases ha : isNull a = true
    · have hNull : isNull (.str "null") = true := isNull_iff.mpr rfl
      rw [isNull_iff.mp ha]
      simp [hNull]
    · have hNe : a ≠ .str "null" := fun h => ha (isNull_iff.mpr h)
      by_cases hb : isNull b = true
      · simp [ha, hb, hNe]
      · simp [ha, hb, hNe]
  · simp

theorem isNull_settled : (field (settleType fs) "type").any isNull = true ↔
    ∃ t, field fs "type" = some t ∧ NullType t := by
  rw [field_settleType_type]
  split
  · rename_i types hType
    have hNullType : (∃ t, field fs "type" = some t ∧ NullType t) ↔
        typesLeft types = [.str "null"] := by
      rw [hType, typesLeft_null]
      simp [NullType]
    rw [hNullType]
    split
    · rename_i only hOnly
      rw [hOnly]
      simp [isNull_iff]
    · rename_i hOnly
      constructor
      · intro h
        simp [isNull] at h
      · exact fun h => absurd h (hOnly _)
  · rename_i hType
    cases hField : field fs "type" with
    | none => simp
    | some t =>
      have hArr : ∀ items, t ≠ .arr items := fun items h => hType items (hField.trans (congrArg _ h))
      simp [isNull_iff, NullType, hArr]

theorem isNullArm_normalize {arm : Value} (hKeyed : Keyed arm) :
    isNullArm (normalize arm) = true ↔ BecomesNull arm := by
  cases arm with
  | obj fs =>
    have hAny : ∀ t : Option Value, (t.map normalize).any isNull = t.any isNull := by
      intro t
      cases t with
      | none => rfl
      | some t => exact isNull_normalize t
    rw [isNullArm, field_normalize, hAny, field_settle_type hKeyed]
    cases hType : (lone fs).bind (·.get "type") with
    | none =>
      have hNone : ∀ gs only, Value.obj fs = .obj gs → lone gs = some only →
          only.get "type" = none := by
        intro gs only hEq hOnly
        cases hEq
        rw [hOnly] at hType
        exact hType
      rw [Option.none_or, isNull_settled]
      exact ⟨fun h => ⟨h, hNone⟩, fun h => h.1⟩
    | some t =>
      obtain ⟨only, hOnly, hGet⟩ := Option.bind_eq_some_iff.mp hType
      obtain ⟨-, -, -, hNotNull⟩ := lone_mem hOnly
      rw [isNullArm, hGet] at hNotNull
      rw [Option.some_or]
      constructor
      · intro h
        rw [hNotNull] at h
        cases h
      · intro h
        have hNone := h.2 fs only rfl hOnly
        rw [hGet] at hNone
        cases hNone
  | arr items => simp [normalize, isNullArm, BecomesNull, Value.get]
  | null => simp [isNullArm, BecomesNull, Value.get]
  | bool b => simp [isNullArm, BecomesNull, Value.get]
  | int i => simp [isNullArm, BecomesNull, Value.get]
  | float l => simp [isNullArm, BecomesNull, Value.get]
  | str s => simp [isNullArm, BecomesNull, Value.get]

theorem plainUnion_normalize {arms : List Value} :
    PlainUnion (normalize (.arr arms)) ↔
      arms.length ≠ 1 ∧ ∀ arm ∈ arms, isNullArm (normalize arm) = false := by
  rw [normalize, PlainUnion, List.length_map, List.forall_mem_map]

theorem plainUnion_of_not_arr {v : Value} (h : ∀ arms, v ≠ .arr arms) :
    PlainUnion (normalize v) := by
  cases v with
  | arr arms => exact absurd rfl (h arms)
  | obj fs => simp [normalize_obj, PlainUnion]
  | null => simp [PlainUnion]
  | bool b => simp [PlainUnion]
  | int i => simp [PlainUnion]
  | float l => simp [PlainUnion]
  | str s => simp [PlainUnion]

/-- The type arrays that are no array of two entries with null. -/
theorem plainType_left {types : List Value} (h : ∀ only, typesLeft types ≠ [only]) :
    PlainType (.arr (typesLeft types)) := by
  have hNullable : isNullable types = false := by
    rw [← Bool.not_eq_true]
    intro hNullable
    obtain ⟨only, hOnly⟩ := length_typesLeft hNullable
    exact h only hOnly
  rw [typesLeft, hNullable, if_neg (by simp)] at h ⊢
  intro hTwo
  have hOne : types.length ≠ 1 := by
    intro hOne
    obtain ⟨only, rfl⟩ := List.length_eq_one_iff.mp hOne
    exact h only rfl
  refine ⟨?_, hOne⟩
  rw [isNullable, Bool.and_eq_false_iff] at hNullable
  rcases hNullable with hLength | hAny
  · have hZero : types.length = 0 := by
      have hNot : types.length ≠ 2 := by simpa using hLength
      omega
    rw [List.length_eq_zero_iff.mp hZero]
    rfl
  · exact hAny

theorem settled_type_iff : (∀ t, field (settleType fs) "type" = some t → PlainType t) ↔
    ∀ types only, field fs "type" = some (.arr types) → typesLeft types = [only] →
      PlainType only := by
  rw [field_settleType_type]
  split
  · rename_i types hType
    split
    · rename_i only hOnly
      constructor
      · intro h types' only' hType' hOnly'
        rw [hType, Option.some.injEq, Value.arr.injEq] at hType'
        rw [← hType', hOnly, List.singleton_inj] at hOnly'
        exact hOnly' ▸ h only rfl
      · intro h t ht
        cases ht
        exact h types only hType hOnly
    · rename_i hOnly
      constructor
      · intro h types' only' hType' hOnly'
        rw [hType, Option.some.injEq, Value.arr.injEq] at hType'
        rw [← hType'] at hOnly'
        exact absurd hOnly' (hOnly only')
      · intro h t ht
        cases ht
        exact plainType_left hOnly
  · rename_i hType
    constructor
    · intro h types only hType'
      exact absurd hType' (hType types)
    · intro h t ht
      cases t with
      | arr types => exact absurd ht (hType types)
      | obj fs => trivial
      | null => trivial
      | bool b => trivial
      | int i => trivial
      | float l => trivial
      | str s => trivial

/-- A rewritten object is judged by the type and the union it settles on. -/
theorem normalObject_settled :
    NormalObject ((settle fs).map fun f => (f.1, normalize f.2)) ↔
      (∀ t, field (settle fs) "type" = some t → PlainType t) ∧
      ∀ arms, field (settle fs) "oneOf" = some (.arr arms) →
        arms.length ≠ 1 ∧ ∀ arm ∈ arms, isNullArm (normalize arm) = false := by
  have hField : ∀ k, field ((settle fs).map fun f => (f.1, normalize f.2)) k =
      (field (settle fs) k).map normalize := by
    intro k
    rw [← field_normalize, normalize_obj]
    rfl
  refine ⟨fun h => ⟨fun t ht => ?_, fun arms hArms => ?_⟩, fun h => ⟨fun t ht => ?_, fun u hu => ?_⟩⟩
  · exact (plainType_normalize t).mp (h.type _ (by rw [hField, ht, Option.map_some]))
  · exact plainUnion_normalize.mp (h.union _ (by rw [hField, hArms, Option.map_some]))
  · rw [hField] at ht
    obtain ⟨t', ht', rfl⟩ := Option.map_eq_some_iff.mp ht
    exact (plainType_normalize t').mpr (h.1 t' ht')
  · rw [hField] at hu
    obtain ⟨v, hv, rfl⟩ := Option.map_eq_some_iff.mp hu
    by_cases hArr : ∃ arms, v = .arr arms
    · obtain ⟨arms, rfl⟩ := hArr
      exact plainUnion_normalize.mpr (h.2 arms hv)
    · exact plainUnion_of_not_arr fun arms hEq => hArr ⟨arms, hEq⟩

theorem isNullArm_normalize_false {arm : Value} (hKeyed : Keyed arm) :
    isNullArm (normalize arm) = false ↔ ¬ BecomesNull arm := by
  rw [← isNullArm_normalize hKeyed, Bool.not_eq_true]

/-- Without a lone arm the object keeps its own type, and the arms that stay are rewritten. -/
theorem settles_of_none (hOne : lone fs = none) : Settles fs ↔
    (∀ types only, field fs "type" = some (.arr types) → typesLeft types = [only] →
      PlainType only) ∧
    ∀ arms, field fs "oneOf" = some (.arr arms) → ∀ arm ∈ arms, isNullArm arm = false →
      ¬ BecomesNull arm := by
  have hNot : ∀ arm, lone fs ≠ some arm := by
    intro arm h
    rw [hOne] at h
    cases h
  exact ⟨fun h => ⟨h.type fun arm hArm => absurd hArm (hNot arm), h.arms hOne⟩,
    fun h => ⟨fun _ => h.1, fun arm t hArm => absurd hArm (hNot arm), fun _ => h.2,
      fun arm arms hArm => absurd hArm (hNot arm)⟩⟩

/-- A lone arm brings its type and its union. -/
theorem settles_of_lone {arm : Value} (hOne : lone fs = some arm) : Settles fs ↔
    ((arm.get "type" = none → ∀ types only, field fs "type" = some (.arr types) →
      typesLeft types = [only] → PlainType only) ∧ ∀ t, arm.get "type" = some t → PlainType t) ∧
    ∀ arms, arm.get "oneOf" = some (.arr arms) →
      arms.length ≠ 1 ∧ ∀ arm ∈ arms, ¬ BecomesNull arm := by
  have hArmIs : ∀ other, lone fs = some other → other = arm := by
    intro other h
    rw [hOne, Option.some.injEq] at h
    exact h.symm
  constructor
  · intro h
    refine ⟨⟨fun hNone => h.type fun other hOther => ?_, fun t => h.loneType arm t hOne⟩,
      fun arms => h.loneArms arm arms hOne⟩
    rw [hArmIs other hOther, hNone]
  · rintro ⟨⟨hType, hLoneType⟩, hLoneArms⟩
    refine ⟨fun hNone => hType (hNone arm hOne), fun other t h ht => ?_, fun h => ?_,
      fun other arms h hArms => ?_⟩
    · exact hLoneType t (hArmIs other h ▸ ht)
    · rw [hOne] at h
      cases h
    · exact hLoneArms arms (hArmIs other h ▸ hArms)

theorem normalObject_iff (hKeyed : Keyed (.obj fs)) :
    NormalObject ((settle fs).map fun f => (f.1, normalize f.2)) ↔ Settles fs := by
  rw [normalObject_settled, field_settle_type hKeyed]
  cases hOne : lone fs with
  | none =>
    rw [settles_of_none hOne, Option.bind_none, Option.none_or, settled_type_iff]
    refine and_congr_right fun _ => ?_
    by_cases hArms : ∃ arms, field fs "oneOf" = some (.arr arms)
    · obtain ⟨arms, hArms⟩ := hArms
      have hKeyedArms := everywhere_arr.mp (hKeyed.field hArms)
      have hLength : (arms.filter fun arm => !isNullArm arm).length ≠ 1 := by
        intro hLength
        obtain ⟨only, hOnly⟩ := List.length_eq_one_iff.mp hLength
        rw [lone] at hOne
        simp only [hArms, hOnly] at hOne
        cases hOne
      rw [field_settle_arms hOne hArms, if_pos rfl, hArms]
      constructor
      · rintro hUnion _ ⟨⟩ arm hArm hNotNull
        refine (isNullArm_normalize_false (hKeyedArms arm hArm)).mp ((hUnion _ rfl).2 arm ?_)
        exact List.mem_filter.mpr ⟨hArm, by rw [hNotNull, Bool.not_false]⟩
      · rintro h _ ⟨⟩
        refine ⟨hLength, fun arm hArm => ?_⟩
        obtain ⟨hMem, hNotNull⟩ := List.mem_filter.mp hArm
        exact (isNullArm_normalize_false (hKeyedArms arm hMem)).mpr
          (h arms rfl arm hMem (by simpa using hNotNull))
    · have hNone : ∀ arms, field fs "oneOf" ≠ some (.arr arms) := fun arms h => hArms ⟨arms, h⟩
      rw [settle_none hNone, field_settleType (by decide) (by decide)]
      exact ⟨fun _ arms h => absurd h (hNone arms), fun _ arms h => absurd h (hNone arms)⟩
  | some arm =>
    have hKeyedArm : Keyed arm := hKeyed.lone hOne
    rw [settles_of_lone hOne, Option.bind_some, field_settle_lone hOne hKeyedArm, if_pos rfl,
      Option.or_none]
    refine and_congr ?_ (forall₂_congr fun arms hArms => and_congr_right fun _ => ?_)
    · cases hGet : arm.get "type" with
      | some t => simp
      | none =>
        rw [Option.none_or, settled_type_iff]
        simp
    · have hKeyedArms := everywhere_arr.mp (hKeyedArm.get hArms)
      exact forall₂_congr fun a ha => isNullArm_normalize_false (hKeyedArms a ha)

theorem keyed_settleType (hKeys : (fs.map (·.1)).Pairwise (· < ·)) :
    ((settleType fs).map (·.1)).Pairwise (· < ·) := by
  rw [settleType]
  split
  · rename_i types _
    have hInner : ((match typesLeft types with
        | [only] => insertField "type" only fs
        | left => insertField "type" (.arr left) fs : Fields).map (·.1)).Pairwise (· < ·) := by
      split
      · exact Json.sorted_insertField hKeys
      · exact Json.sorted_insertField hKeys
    dsimp only
    split
    · exact Json.sorted_insertField hInner
    · exact hInner
  · exact hKeys

theorem keyed_settleUnion (hKeys : (fs.map (·.1)).Pairwise (· < ·)) :
    ((settleUnion fs).map (·.1)).Pairwise (· < ·) := by
  have hFilter : ((fs.filter (·.1 != "oneOf")).map (·.1)).Pairwise (· < ·) :=
    hKeys.sublist (List.filter_sublist.map _)
  rw [settleUnion]
  split
  · split
    · dsimp only
      split
      · exact Json.foldl_insertField_sorted hFilter
      · exact hFilter
    · exact Json.sorted_insertField hKeys
  · exact hKeys

/-- A condition of all objects holds of a rewritten object if it holds of its rewritten values. -/
theorem everywhere_normalize {P : Fields → Prop}
    (hQ : Through fun v => Everywhere P (normalize v)) (hKeyed : Keyed (.obj fs)) :
    Everywhere P (normalize (.obj fs)) ↔
      P ((settle fs).map fun f => (f.1, normalize f.2)) ∧
        ∀ v, Kept fs v → Everywhere P (normalize v) := by
  have hKeys : ((settle fs).map (·.1)).Pairwise (· < ·) :=
    keyed_settleUnion (keyed_settleType (everywhere_obj.mp hKeyed).1)
  rw [normalize_obj, everywhere_obj, List.forall_mem_map, ← hQ.kept_iff hKeyed]
  refine and_congr_right fun _ => ⟨fun h k v hv => h _ (mem_of_field hv), fun h f hf => ?_⟩
  exact h f.1 f.2 (field_mem hKeys hf)

theorem through_everywhere (P : Fields → Prop) : Through fun v => Everywhere P (normalize v) where
  yes := by
    rw [normalize_bool]
    exact .bool true
  null v h := by
    rw [isNull_iff.mp h, normalize_str]
    exact .str "null"
  arr items := by
    rw [normalize, everywhere_arr, List.forall_mem_map]

end

theorem keyed_normalize {v : Value} (hKeyed : Keyed v) : Keyed (normalize v) := by
  induction hSize : sizeOf v using Nat.strong_induction_on generalizing v with
  | _ n ih =>
    subst hSize
    cases v with
    | obj fs =>
      refine (everywhere_normalize (through_everywhere _) hKeyed).mpr ⟨?_, fun v hv => ?_⟩
      · have hKeys := keyed_settleUnion (keyed_settleType (everywhere_obj.mp hKeyed).1)
        rw [List.map_map]
        exact hKeys
      · exact ih (sizeOf v) hv.sizeOf (hKeyed.kept hv) rfl
    | arr items =>
      rw [normalize, Keyed, everywhere_arr, List.forall_mem_map]
      exact fun v hv => ih (sizeOf v) (sizeOf_item hv) (everywhere_arr.mp hKeyed v hv) rfl
    | null => simpa using hKeyed
    | bool b => simpa using hKeyed
    | int i => simpa using hKeyed
    | float l => simpa using hKeyed
    | str s => simpa using hKeyed

theorem normal_normalize_iff {v : Value} (hKeyed : Keyed v) : Normal (normalize v) ↔ Clean v := by
  constructor
  · induction hSize : sizeOf v using Nat.strong_induction_on generalizing v with
    | _ n ih =>
      subst hSize
      intro hNormal
      cases v with
      | obj fs =>
        obtain ⟨hObject, hValues⟩ :=
          (everywhere_normalize (through_everywhere _) hKeyed).mp hNormal
        refine .obj fs ((normalObject_iff hKeyed).mp hObject) fun v hv => ?_
        exact ih (sizeOf v) hv.sizeOf (hKeyed.kept hv) rfl (hValues v hv)
      | arr items =>
        rw [normalize, Normal, everywhere_arr, List.forall_mem_map] at hNormal
        exact .arr items fun v hv =>
          ih (sizeOf v) (sizeOf_item hv) (everywhere_arr.mp hKeyed v hv) rfl (hNormal v hv)
      | null => exact .null
      | bool b => exact .bool b
      | int i => exact .int i
      | float l => exact .float l
      | str s => exact .str s
  · intro hClean
    induction hClean with
    | obj fs hSettles _ ih =>
      refine (everywhere_normalize (through_everywhere _) hKeyed).mpr
        ⟨(normalObject_iff hKeyed).mpr hSettles, fun v hv => ih v hv (hKeyed.kept hv)⟩
    | arr items _ ih =>
      rw [normalize, Normal, everywhere_arr, List.forall_mem_map]
      exact fun v hv => ih v hv (everywhere_arr.mp hKeyed v hv)
    | null =>
      rw [normalize_null]
      exact .null
    | bool b =>
      rw [normalize_bool]
      exact .bool b
    | int i =>
      rw [normalize_int]
      exact .int i
    | float l =>
      rw [normalize_float]
      exact .float l
    | str s =>
      rw [normalize_str]
      exact .str s

/-- After one pass nothing is left to rewrite, and a second pass changes nothing, exactly when all
objects settle. -/
theorem normal_iff {v : Value} (hKeyed : Keyed v) :
    (Normal (normalize v) ∧ normalize (normalize v) = normalize v) ↔ Clean v := by
  rw [← normal_normalize_iff hKeyed]
  exact ⟨fun h => h.1, fun h => ⟨h, normalize_normal (keyed_normalize hKeyed) h⟩⟩

/-! ## Small descriptions -/

/-- An optional text. -/
def optionalText : Value := .obj [("type", .arr [.str "string", .str "null"])]

theorem keyed_optionalText : Keyed optionalText := by
  refine everywhere_obj.mpr ⟨List.pairwise_singleton _ _, fun f hf => ?_⟩
  rw [List.mem_singleton.mp hf]
  refine everywhere_arr.mpr fun v hv => ?_
  rcases List.mem_pair.mp hv with rfl | rfl
  · exact .str "string"
  · exact .str "null"

theorem normal_iff_optionalText :
    (Normal (normalize optionalText) ∧
      normalize (normalize optionalText) = normalize optionalText) ↔ Clean optionalText :=
  normal_iff keyed_optionalText

/-- An optional text in a nullable union. -/
def nullableText : Value := .obj [("oneOf", .arr [optionalText, .obj [("type", .str "null")]])]

/-- The keys of a lone arm are not settled, and a second pass settles them. -/
theorem lone_arm_left : Keyed nullableText ∧ normalize nullableText = optionalText ∧
    ¬ Normal (normalize nullableText) ∧
    normalize (normalize nullableText) ≠ normalize nullableText := by
  have hArm : Keyed (.obj [("type", .str "null")]) := by
    refine everywhere_obj.mpr ⟨List.pairwise_singleton _ _, fun f hf => ?_⟩
    rw [List.mem_singleton.mp hf]
    exact .str "null"
  have hKeyed : Keyed nullableText := by
    refine everywhere_obj.mpr ⟨List.pairwise_singleton _ _, fun f hf => ?_⟩
    rw [List.mem_singleton.mp hf]
    refine everywhere_arr.mpr fun v hv => ?_
    rcases List.mem_pair.mp hv with rfl | rfl
    · exact keyed_optionalText
    · exact hArm
  have hFirst : normalize nullableText = optionalText := by
    rw [nullableText, normalize_obj]
    simp [settle, settleType, settleUnion, field, Value.get, isNullArm, isNull, optionalText,
      insertField, normalize]
  have hSecond : normalize optionalText =
      .obj [("nullable", .bool true), ("type", .str "string")] := by
    have hLess : "nullable" < "type" := by decide
    rw [optionalText, normalize_obj]
    simp [settle, settleType, settleUnion, field, Value.get, isNull, isNullable, typesLeft,
      insertField, hLess]
  refine ⟨hKeyed, hFirst, ?_, ?_⟩
  · rw [hFirst]
    intro hNormal
    have hType := (everywhere_obj.mp hNormal).1.type (.arr [.str "string", .str "null"]) rfl
    have hNull := (hType le_rfl).1
    cases hNull
  · rw [hFirst, hSecond, optionalText]
    simp

end Weflow.Regen
