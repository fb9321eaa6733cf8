import Weflow.Server.Params

/-!
# Time arguments

`parse_since` of `mcp.rs` and `to_unix` of `cli.rs`, and the bound that `run_export` makes of a
`--since`. Multiplication and subtraction of `i64` are the built-in ones: out of range they panic
or wrap, by the build, which is `none` here. `time_arguments_iff` says for which arguments that
does not happen.
-/

namespace Weflow.Since

/-- A product of two `i64`, none out of range. -/
def mulI64 (a b : Int) : Option Int := if InI64 (a * b) then some (a * b) else none

/-- A difference of two `i64`, none out of range. -/
def subI64 (a b : Int) : Option Int := if InI64 (a - b) then some (a - b) else none

/-- `strip_suffix` -/
def stripSuffix (suffix : Char) (cs : List Char) : Option (List Char) :=
  if cs.getLast? = some suffix then some cs.dropLast else none

/-- A number of units back from now. -/
def unitsBack (message : String) (rest : List Char) (unit now : Int) :
    Option (Except String Int) :=
  match parseI64 rest with
  | none => some (.error message)
  | some n => ((mulI64 n unit).bind (subI64 now)).map .ok

/-- The first second of a day. -/
def dayOf (cs : List Char) : Option Int := do
  let y ← parseDigits (cs.take 4)
  let m ← parseDigits ((cs.drop 4).take 2)
  let d ← parseDigits (cs.drop 6)
  let days ← fromYmdOpt y m d
  some (days * 86400)

def isDate (cs : List Char) : Bool := cs.length = 8 && cs.all Char.isDigit

/-- `parse_since`, none when the arithmetic goes out of range. -/
def parseSince (spec : String) (now : Int) : Option (Except String Int) :=
  let s := trimChars spec.toList
  match stripSuffix 'd' s with
  | some rest => unitsBack (spec ++ " 不是合法的天数（形如 7d）") rest 86400 now
  | none =>
    match stripSuffix 'h' s with
    | some rest => unitsBack (spec ++ " 不是合法的小时数（形如 24h）") rest 3600 now
    | none =>
      if isDate s then
        match dayOf s with
        | some v => some (.ok v)
        | none => some (.error (spec ++ " 不是合法日期"))
      else
        match parseI64 s with
        | some v => some (.ok v)
        | none => some (.error (spec ++ " 需为 unix 秒、YYYYMMDD、7d 或 24h"))

/-- `to_unix` -/
def toUnix (spec : String) : Except String Int :=
  let s := trimChars spec.toList
  if isDate s then
    match dayOf s with
    | some v => .ok v
    | none => .error ("--since 不是合法日期: " ++ String.ofList s)
  else
    match parseI64 s with
    | some v => .ok v
    | none => .error ("--since 需为 unix 秒或 YYYYMMDD: " ++ String.ofList s)

/-- The exclusive bound of `run_export` for an accepted `--since`. -/
def sincePull (since : Int) : Option Int := subI64 since 1

/-! ## Ranges -/

/-- A number of days or hours, with the seconds of one. -/
def Relative (spec : String) (n unit : Int) : Prop :=
  ∃ rest, parseI64 rest = some n ∧
    ((trimChars spec.toList = rest ++ ['d'] ∧ unit = 86400) ∨
      (trimChars spec.toList = rest ++ ['h'] ∧ unit = 3600))

/-- A result without an overflow: an error, or an `i64` that is exact for a number of units. -/
def Exact (spec : String) (now : Int) : Prop :=
  ∃ result, parseSince spec now = some result ∧
    ∀ v, result = .ok v → InI64 v ∧ ∀ n unit, Relative spec n unit → v = now - n * unit

/-- The exact bound of every accepted `--since`. -/
def ExactBound (since : String) : Prop :=
  ∀ v, toUnix since = .ok v → sincePull v = some (v - 1) ∧ InI64 (v - 1)

variable {spec : String} {now n unit : Int} {cs rest : List Char} {c : Char}

theorem stripSuffix_iff : stripSuffix c cs = some rest ↔ cs = rest ++ [c] := by
  rw [stripSuffix]
  constructor
  · intro h
    split at h
    · rename_i hLast
      cases h
      exact (List.dropLast_append_getLast? c hLast).symm
    · cases h
  · rintro rfl
    simp

theorem ofDigitChars_lt : ∀ (cs : List Char) (n : Nat), (∀ c ∈ cs, c.isDigit) →
    Nat.ofDigitChars 10 cs n < (n + 1) * 10 ^ cs.length := by
  intro cs
  induction cs with
  | nil => simp
  | cons c cs ih =>
    intro n h
    have hDigit := isDigit_bounds (h c List.mem_cons_self)
    have hZero : '0'.toNat = 48 := rfl
    rw [Nat.ofDigitChars_cons, List.length_cons, Nat.pow_succ]
    calc Nat.ofDigitChars 10 cs (10 * n + (c.toNat - '0'.toNat))
        < (10 * n + (c.toNat - '0'.toNat) + 1) * 10 ^ cs.length :=
          ih _ fun d hd => h d (List.mem_cons_of_mem _ hd)
      _ ≤ (n + 1) * 10 * 10 ^ cs.length := Nat.mul_le_mul_right _ (by omega)
      _ = (n + 1) * (10 ^ cs.length * 10) := by rw [Nat.mul_assoc, Nat.mul_comm 10]

theorem parseDigits_lt {m k : Nat} (h : parseDigits cs = some m) (hLength : cs.length ≤ k) :
    m < 10 ^ k := by
  rw [parseDigits] at h
  split at h
  · rename_i hCs
    cases h
    have hLt := ofDigitChars_lt cs 0 (List.all_eq_true.mp hCs.2)
    have hPow : 10 ^ cs.length ≤ 10 ^ k := Nat.pow_le_pow_right (by decide) hLength
    omega
  · cases h

theorem daysInMonth_le (y m : Nat) : daysInMonth y m ≤ 31 := by
  rw [daysInMonth]
  split_ifs <;> omega

theorem sum_daysInMonth_le (y : Nat) (months : List Nat) :
    (months.map (daysInMonth y)).sum ≤ months.length * 31 := by
  induction months with
  | nil => simp
  | cons m months ih =>
    have hMonth := daysInMonth_le y m
    simp only [List.map_cons, List.sum_cons, List.length_cons]
    omega

theorem daysBeforeYear_le {y : Nat} (hYear : y < 10000) : daysBeforeYear y ≤ 3652425 := by
  rw [daysBeforeYear]
  split_ifs <;> omega

theorem fromYmdOpt_bounds {y m d : Nat} (hYear : y < 10000) {days : Int}
    (h : fromYmdOpt y m d = some days) : -719528 ≤ days ∧ days < 4000000 := by
  rw [fromYmdOpt] at h
  split at h
  · rename_i hDate
    have hMonths := sum_daysInMonth_le y (List.range' 1 (m - 1))
    rw [List.length_range'] at hMonths
    have hYears := daysBeforeYear_le hYear
    have hDays := daysInMonth_le y m
    simp only [Option.some.injEq] at h
    omega
  · cases h

theorem dayOf_bounds {v : Int} (h : dayOf cs = some v) :
    -719528 * 86400 ≤ v ∧ v < 4000000 * 86400 := by
  simp only [dayOf, Option.bind_eq_bind, Option.bind_eq_some_iff] at h
  obtain ⟨y, hYear, m, -, d, -, days, hDays, hV⟩ := h
  have hBounds := fromYmdOpt_bounds (parseDigits_lt hYear (k := 4) (by simp)) hDays
  cases hV
  omega

theorem parseI64_range {v : Int} (h : parseI64 cs = some v) : InI64 v := by
  rw [parseI64, Option.filter_eq_some_iff] at h
  exact of_decide_eq_true h.2

/-! ## Relative arguments -/

/-- The interval of the products a subtraction from now can take. -/
def Fits (now v : Int) : Prop :=
  max i64Min (now - i64Max) ≤ v ∧ v ≤ min i64Max (now - i64Min)

theorem fits_iff {v : Int} : Fits now v ↔ InI64 v ∧ InI64 (now - v) := by
  simp only [Fits, InI64, i64Min, i64Max]
  omega

theorem subI64_eq_some {a b v : Int} : subI64 a b = some v ↔ v = a - b ∧ InI64 v := by
  rw [subI64]
  split_ifs with h
  · simp only [Option.some.injEq]
    exact ⟨fun hV => ⟨hV.symm, hV ▸ h⟩, fun hV => hV.1.symm⟩
  · simp only [false_iff]
    exact fun hV => h (hV.1 ▸ hV.2)

/-- An accepted number of units has a result where the product and the difference fit. -/
theorem unitsBack_eq_some {message : String} {result : Except String Int}
    (hRest : parseI64 rest = some n) :
    unitsBack message rest unit now = some result ↔
      Fits now (n * unit) ∧ result = .ok (now - n * unit) := by
  simp only [unitsBack, hRest, mulI64, Option.map_eq_some_iff, fits_iff]
  split_ifs with hProduct
  · simp only [Option.bind_some, subI64_eq_some]
    constructor
    · rintro ⟨v, ⟨rfl, hV⟩, rfl⟩
      exact ⟨⟨hProduct, hV⟩, rfl⟩
    · rintro ⟨⟨-, hV⟩, rfl⟩
      exact ⟨_, ⟨rfl, hV⟩, rfl⟩
  · simp [hProduct]

theorem unitsBack_error {message : String} (hRest : parseI64 rest = none) :
    unitsBack message rest unit now = some (.error message) := by
  simp only [unitsBack, hRest]

/-- The suffix and the digits of a relative argument are determined. -/
theorem relative_iff {suffix : Char}
    (hSpec : trimChars spec.toList = rest ++ [suffix]) :
    Relative spec n unit ↔ parseI64 rest = some n ∧
      (suffix = 'd' ∧ unit = 86400 ∨ suffix = 'h' ∧ unit = 3600) := by
  simp only [Relative, hSpec]
  constructor
  · rintro ⟨other, hOther, ⟨hEq, hUnit⟩ | ⟨hEq, hUnit⟩⟩
    · obtain ⟨rfl, hSuffix⟩ := List.append_inj' hEq rfl
      exact ⟨hOther, .inl ⟨List.singleton_inj.mp hSuffix, hUnit⟩⟩
    · obtain ⟨rfl, hSuffix⟩ := List.append_inj' hEq rfl
      exact ⟨hOther, .inr ⟨List.singleton_inj.mp hSuffix, hUnit⟩⟩
  · rintro ⟨hRest, ⟨rfl, hUnit⟩ | ⟨rfl, hUnit⟩⟩
    · exact ⟨rest, hRest, .inl ⟨rfl, hUnit⟩⟩
    · exact ⟨rest, hRest, .inr ⟨rfl, hUnit⟩⟩

/-- The products of a relative argument fit. -/
def UnitsFit (spec : String) (now : Int) : Prop :=
  ∀ n unit, Relative spec n unit → Fits now (n * unit)

/-- With one suffix, the argument is exact where its product fits. -/
theorem exact_of_suffix {message : String} {suffix : Char} (unit : Int)
    (hSpec : trimChars spec.toList = rest ++ [suffix])
    (hParse : parseSince spec now = unitsBack message rest unit now)
    (hUnit : ∀ v, (suffix = 'd' ∧ v = 86400 ∨ suffix = 'h' ∧ v = 3600) ↔ v = unit) :
    Exact spec now ↔ UnitsFit spec now := by
  simp only [Exact, UnitsFit, hParse, relative_iff hSpec, hUnit]
  cases hRest : parseI64 rest with
  | none => simp [unitsBack_error hRest]
  | some n =>
    simp only [unitsBack_eq_some hRest, Option.some.injEq]
    constructor
    · rintro ⟨-, ⟨hFits, -⟩, -⟩ m v ⟨rfl, rfl⟩
      exact hFits
    · intro h
      have hFits := h n unit ⟨rfl, rfl⟩
      refine ⟨_, ⟨hFits, rfl⟩, ?_⟩
      rintro v hV
      cases hV
      refine ⟨(fits_iff.mp hFits).2, ?_⟩
      rintro m v ⟨rfl, rfl⟩
      rfl

theorem no_relative (hDays : stripSuffix 'd' (trimChars spec.toList) = none)
    (hHours : stripSuffix 'h' (trimChars spec.toList) = none) : ¬ Relative spec n unit := by
  rintro ⟨rest, -, ⟨hEq, -⟩ | ⟨hEq, -⟩⟩
  · rw [stripSuffix_iff.mpr hEq] at hDays
    cases hDays
  · rw [stripSuffix_iff.mpr hEq] at hHours
    cases hHours

/-- Dates and seconds are read without arithmetic that could overflow. -/
theorem exact_of_absolute (hDays : stripSuffix 'd' (trimChars spec.toList) = none)
    (hHours : stripSuffix 'h' (trimChars spec.toList) = none) : Exact spec now := by
  have hNone : ∀ n unit, ¬ Relative spec n unit := fun n unit => no_relative hDays hHours
  simp only [Exact, parseSince, hDays, hHours]
  split
  · cases hDay : dayOf (trimChars spec.toList) with
    | none => exact ⟨_, rfl, by simp⟩
    | some v =>
      refine ⟨_, rfl, ?_⟩
      rintro w hW
      cases hW
      have hBounds := dayOf_bounds hDay
      exact ⟨by simp only [InI64, i64Min, i64Max]; omega, fun n unit h => absurd h (hNone n unit)⟩
  · cases hNumber : parseI64 (trimChars spec.toList) with
    | none => exact ⟨_, rfl, by simp⟩
    | some v =>
      refine ⟨_, rfl, ?_⟩
      rintro w hW
      cases hW
      exact ⟨parseI64_range hNumber, fun n unit h => absurd h (hNone n unit)⟩

theorem parseSince_days (h : stripSuffix 'd' (trimChars spec.toList) = some rest) :
    parseSince spec now = unitsBack (spec ++ " 不是合法的天数（形如 7d）") rest 86400 now := by
  simp only [parseSince, h]

theorem parseSince_hours (hDays : stripSuffix 'd' (trimChars spec.toList) = none)
    (h : stripSuffix 'h' (trimChars spec.toList) = some rest) :
    parseSince spec now = unitsBack (spec ++ " 不是合法的小时数（形如 24h）") rest 3600 now := by
  simp only [parseSince, hDays, h]

theorem exact_iff : Exact spec now ↔ UnitsFit spec now := by
  cases hDays : stripSuffix 'd' (trimChars spec.toList) with
  | some rest =>
    exact exact_of_suffix 86400 (stripSuffix_iff.mp hDays) (parseSince_days hDays) (by simp)
  | none =>
    cases hHours : stripSuffix 'h' (trimChars spec.toList) with
    | some rest =>
      exact exact_of_suffix 3600 (stripSuffix_iff.mp hHours) (parseSince_hours hDays hHours)
        (by simp)
    | none =>
      exact iff_of_true (exact_of_absolute hDays hHours)
        fun n unit h => absurd h (no_relative hDays hHours)

/-! ## The bound of an export -/

theorem isDate_of_parse_min (h : parseI64 cs = some i64Min) : isDate cs = false := by
  by_contra hDate
  simp only [isDate, Bool.not_eq_false, Bool.and_eq_true, decide_eq_true_eq] at hDate
  rw [parseI64, Option.filter_eq_some_iff] at h
  have hSigned := h.1
  have hDigits := List.all_eq_true.mp hDate.2
  unfold parseSigned at hSigned
  split at hSigned
  · exact absurd (hDigits '-' List.mem_cons_self) (by decide)
  · exact absurd (hDigits '+' List.mem_cons_self) (by decide)
  · obtain ⟨m, -, hM⟩ := Option.map_eq_some_iff.mp hSigned
    simp only [i64Min] at hM
    omega

theorem sincePull_iff {v : Int} (hV : InI64 v) :
    (sincePull v = some (v - 1) ∧ InI64 (v - 1)) ↔ v ≠ i64Min := by
  simp only [sincePull, subI64_eq_some, true_and, and_self, ne_eq]
  simp only [InI64, i64Min, i64Max] at hV ⊢
  omega

/-- Of the accepted arguments only the least `i64` has no exact exclusive bound. -/
theorem exactBound_iff {since : String} :
    ExactBound since ↔ parseI64 (trimChars since.toList) ≠ some i64Min := by
  cases hDate : isDate (trimChars since.toList) with
  | true =>
    have hMin : parseI64 (trimChars since.toList) ≠ some i64Min := by
      intro h
      rw [isDate_of_parse_min h] at hDate
      cases hDate
    refine iff_of_true ?_ hMin
    intro v hV
    simp only [toUnix, hDate, if_true] at hV
    split at hV
    · rename_i w hDay
      cases hV
      have hBounds := dayOf_bounds hDay
      have hRange : InI64 v := by
        simp only [InI64, i64Min, i64Max]
        omega
      apply (sincePull_iff hRange).mpr
      simp only [i64Min]
      omega
    · cases hV
  | false =>
    simp only [ExactBound, toUnix, hDate, Bool.false_eq_true, if_false]
    cases hNumber : parseI64 (trimChars since.toList) with
    | none => simp
    | some v =>
      simp only [Except.ok.injEq, forall_eq', sincePull_iff (parseI64_range hNumber), ne_eq,
        Option.some.injEq]

/-- The arithmetic of the time arguments is exact for a relative argument whose product and
difference fit, and for every `--since` but the least `i64`. -/
theorem time_arguments_iff (spec : String) (now : Int) (since : String) :
    Exact spec now ∧ ExactBound since ↔
      UnitsFit spec now ∧ parseI64 (trimChars since.toList) ≠ some i64Min := by
  rw [exact_iff, exactBound_iff]

/-- Far back in days overflows the product, and the least `i64` has no bound below it. -/
theorem days_overflow :
    ¬ Exact "200000000000000d" 1700000000 ∧ ¬ ExactBound "-9223372036854775808" := by
  have hDays : parseSince "200000000000000d" 1700000000 = none := by decide +kernel
  have hLeast : parseI64 (trimChars "-9223372036854775808".toList) = some i64Min := by
    decide +kernel
  constructor
  · rintro ⟨result, hResult, -⟩
    rw [hDays] at hResult
    cases hResult
  · exact fun h => exactBound_iff.mp h hLeast

end Weflow.Since
