import Mathlib.Algebra.GroupWithZero.Nat
import Weflow.Store.Basic

/-!
# Query parameters

The parsing helpers of `server/mod.rs`: limits, offsets and time bounds. A time bound of eight
ASCII digits is read as a date, everything else as unix seconds, so printing a number of
seconds and reading it back is the identity outside that range (`parseTimeBound_toString`).
-/

namespace Weflow

def i64Min : Int := -9223372036854775808

def i64Max : Int := 9223372036854775807

/-- The values of an `i64`. -/
def InI64 (n : Int) : Prop := i64Min ≤ n ∧ n ≤ i64Max

instance (n : Int) : Decidable (InI64 n) := inferInstanceAs (Decidable (_ ∧ _))

/-! ## Numbers -/

/-- The value of a nonempty string of ASCII digits. -/
def parseDigits (cs : List Char) : Option Nat :=
  if cs ≠ [] ∧ cs.all Char.isDigit then some (Nat.ofDigitChars 10 cs 0) else none

/-- An optional sign, then digits. -/
def parseSigned : List Char → Option Int
  | '-' :: ds => (parseDigits ds).map fun n : Nat => -(n : Int)
  | '+' :: ds => (parseDigits ds).map fun n : Nat => (n : Int)
  | ds => (parseDigits ds).map fun n : Nat => (n : Int)

/-- `parse::<i64>`. -/
def parseI64 (cs : List Char) : Option Int := (parseSigned cs).filter fun n => InI64 n

/-- `parse::<usize>`, on a 64-bit target. -/
def parseUsize (s : String) : Option Nat :=
  (match s.toList with
    | '+' :: ds => parseDigits ds
    | ds => parseDigits ds).filter fun n => n < 2 ^ 64

def parseLimit (params : Map String) (key : String) (default max : Nat) : Nat :=
  (1 ⊔ (((params.lookup key).bind parseUsize).getD default) ⊓ max)

def parseOffset (params : Map String) (key : String) : Nat :=
  ((params.lookup key).bind parseUsize).getD 0

/-- `1`, `true`, `yes` or `on`, in any case. -/
def flexBool (params : Map String) (key : String) : Bool :=
  (params.lookup key).any fun v =>
    ["1", "true", "yes", "on"].any fun word => asciiLower v == word.toList

/-! ## Dates -/

def isLeap (y : Nat) : Bool := y % 4 = 0 && (y % 100 ≠ 0 || y % 400 = 0)

def daysInMonth (y m : Nat) : Nat :=
  if m = 2 then if isLeap y then 29 else 28
  else if m = 4 ∨ m = 6 ∨ m = 9 ∨ m = 11 then 30 else 31

/-- Days from the first day of year 0 to the first day of year `y`. -/
def daysBeforeYear (y : Nat) : Nat :=
  if y = 0 then 0 else 365 * y + (y - 1) / 4 - (y - 1) / 100 + (y - 1) / 400 + 1

/-- `NaiveDate::from_ymd_opt`, as days from 1970-01-01. -/
def fromYmdOpt (y m d : Nat) : Option Int :=
  if 1 ≤ m ∧ m ≤ 12 ∧ 1 ≤ d ∧ d ≤ daysInMonth y m then
    some (daysBeforeYear y + ((List.range' 1 (m - 1)).map (daysInMonth y)).sum + d - 1 - 719528)
  else none

/-- `parse_time_bound_inner`. -/
def parseTimeBoundInner (s : String) (endOfDay : Bool) : Option Int :=
  let cs := trimChars s.toList
  if cs.length = 8 ∧ cs.all Char.isDigit then do
    let y ← parseDigits (cs.take 4)
    let m ← parseDigits ((cs.drop 4).take 2)
    let d ← parseDigits (cs.drop 6)
    let days ← fromYmdOpt y m d
    some (days * 86400 + if endOfDay then 86399 else 0)
  else parseI64 cs

def parseTimeBound (s : String) : Option Int := parseTimeBoundInner s false

def parseTimeBoundEnd (s : String) : Option Int := parseTimeBoundInner s true

example : parseTimeBoundEnd "19700102" = some (2 * 86400 - 1) := by decide

/-- The seconds that print with eight digits. -/
def EightDigits (n : Int) : Prop := 10000000 ≤ n ∧ n < 100000000

instance (n : Int) : Decidable (EightDigits n) := inferInstanceAs (Decidable (_ ∧ _))

/-! ## Reading a printed number back -/

theorem all_isDigit_toDigits (n : Nat) : (Nat.toDigits 10 n).all Char.isDigit := by
  rw [List.all_eq_true]
  exact fun c hc => Nat.isDigit_of_mem_toDigits (by decide) (by decide) hc

theorem parseDigits_toDigits (n : Nat) : parseDigits (Nat.toDigits 10 n) = some n := by
  rw [parseDigits, if_pos ⟨Nat.toDigits_ne_nil, all_isDigit_toDigits n⟩,
    Nat.ofDigitChars_ten_toDigits]

/-- The characters of a printed integer. -/
def intChars (n : Int) : List Char :=
  if 0 ≤ n then Nat.toDigits 10 n.toNat else '-' :: Nat.toDigits 10 (-n).toNat

theorem toList_toString (n : Int) : (toString n).toList = intChars n := by
  rw [Int.toString_eq_repr, Int.repr_eq_if, intChars]
  split
  · rw [Nat.toList_repr]
  · simp

theorem isDigit_bounds {c : Char} (h : c.isDigit) : 48 ≤ c.toNat ∧ c.toNat ≤ 57 := by
  simp only [Char.isDigit, Bool.and_eq_true, decide_eq_true_eq] at h
  exact ⟨h.1, h.2⟩

theorem isWhite_of_bounds {c : Char} (h : 45 ≤ c.toNat ∧ c.toNat ≤ 57) : isWhite c = false := by
  simp only [isWhite, Bool.or_eq_false_iff, Bool.and_eq_false_iff, decide_eq_false_iff_not,
    beq_eq_false_iff_ne]
  omega

theorem trimChars_of_not_white {cs : List Char} (h : ∀ c ∈ cs, isWhite c = false) :
    trimChars cs = cs := by
  have hDrop : ∀ ds : List Char, (∀ c ∈ ds, isWhite c = false) → ds.dropWhile isWhite = ds := by
    intro ds hds
    cases ds with
    | nil => rfl
    | cons c ds => rw [List.dropWhile_cons_of_neg (by simp [hds c List.mem_cons_self])]
  rw [trimChars, hDrop cs h, hDrop cs.reverse (by simpa using h), List.reverse_reverse]

theorem trimChars_intChars (n : Int) : trimChars (intChars n) = intChars n := by
  have hDigits : ∀ m : Nat, ∀ c ∈ Nat.toDigits 10 m, isWhite c = false := by
    intro m c hc
    have := isDigit_bounds (List.all_eq_true.mp (all_isDigit_toDigits m) c hc)
    exact isWhite_of_bounds ⟨by omega, this.2⟩
  apply trimChars_of_not_white
  intro c hc
  unfold intChars at hc
  split at hc
  · exact hDigits _ c hc
  · rcases List.mem_cons.mp hc with rfl | hc
    · decide
    · exact hDigits _ c hc

theorem parseSigned_toDigits (n : Nat) : parseSigned (Nat.toDigits 10 n) = some (n : Int) := by
  have hParse := parseDigits_toDigits n
  have hAll := all_isDigit_toDigits n
  unfold parseSigned
  split
  · rename_i ds hEq
    rw [hEq] at hAll
    simp [Char.isDigit] at hAll
  · rename_i ds hEq
    rw [hEq] at hAll
    simp [Char.isDigit] at hAll
  · rw [hParse]
    rfl

theorem parseSigned_intChars (n : Int) : parseSigned (intChars n) = some n := by
  unfold intChars
  split
  · rename_i h
    rw [parseSigned_toDigits, Int.toNat_of_nonneg h]
  · rename_i h
    rw [parseSigned, parseDigits_toDigits, Option.map_some, Int.toNat_of_nonneg (by omega),
      Int.neg_neg]

/-- A printed number has eight digits only in the range that is read as a date. -/
theorem eightDigits_of_intChars {n : Int}
    (h : (intChars n).length = 8 ∧ (intChars n).all Char.isDigit) : EightDigits n := by
  unfold intChars at h
  split at h
  · rename_i hn
    have hLe : n.toNat < 10 ^ 8 :=
      (Nat.length_toDigits_le_iff (by decide) (by decide)).mp h.1.le
    have hGt : ¬ n.toNat < 10 ^ 7 := by
      intro hLt
      have := (Nat.length_toDigits_le_iff (b := 10) (k := 7) (by decide) (by decide)).mpr hLt
      omega
    exact ⟨by omega, by omega⟩
  · simp [Char.isDigit] at h

/-- Printing a number of seconds and reading it back. -/
theorem parseTimeBoundInner_toString {n : Int} (hRange : InI64 n) (hDate : ¬ EightDigits n)
    (endOfDay : Bool) : parseTimeBoundInner (toString n) endOfDay = some n := by
  unfold parseTimeBoundInner
  rw [toList_toString, trimChars_intChars,
    if_neg fun h => hDate (eightDigits_of_intChars h), parseI64, parseSigned_intChars]
  simp [hRange]

end Weflow
