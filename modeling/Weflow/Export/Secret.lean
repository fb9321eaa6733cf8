import Weflow.Export.Lines
import Weflow.Lib.Search

/-!
# The search for the secret

`assert_no_secret` of `export.rs` is to find a secret that stands in a line in any form from which
it can be read again. It decodes the line from the left, so a percent sign in front of an encoded
secret, with what it needs to make an escape, takes the first character of the secret with it.

`leaks_in_every_line_iff` says which forms are nevertheless found in every line.
-/

namespace Weflow.Export

/-! ## Percent decoding -/

/-- A byte read as a hexadecimal digit. -/
def hexByte (b : UInt8) : Option Nat := Json.hexValue (Char.ofNat b.toNat)

/-- The escape that a text begins with: its byte, and what is behind it. -/
def escapeOf : List UInt8 → Option (UInt8 × List UInt8)
  | p :: a :: b :: rest =>
    match hexByte a, hexByte b with
    | some high, some low => if p = 37 then some (UInt8.ofNat (high * 16 + low), rest) else none
    | _, _ => none
  | _ => none

section

variable {p a b : UInt8} {t : List UInt8}

theorem percentDecodeBytes_hex {high low : Nat} (hHigh : hexByte a = some high)
    (hLow : hexByte b = some low) :
    percentDecodeBytes (p :: a :: b :: t) =
      if p = 37 then UInt8.ofNat (high * 16 + low) :: percentDecodeBytes t
      else p :: percentDecodeBytes (a :: b :: t) := by
  rw [hexByte] at hHigh hLow
  simp only [percentDecodeBytes, hHigh, hLow]

theorem percentDecodeBytes_not (h : hexByte a = none ∨ hexByte b = none) :
    percentDecodeBytes (p :: a :: b :: t) = p :: percentDecodeBytes (a :: b :: t) := by
  rw [hexByte, hexByte] at h
  rcases h with hHigh | hLow
  · simp only [percentDecodeBytes, hHigh]
  · cases hHigh : Json.hexValue (Char.ofNat a.toNat) with
    | none => simp only [percentDecodeBytes, hHigh]
    | some high => simp only [percentDecodeBytes, hHigh, hLow]

end

theorem percentDecodeBytes_some {l rest : List UInt8} {v : UInt8}
    (h : escapeOf l = some (v, rest)) :
    percentDecodeBytes l = v :: percentDecodeBytes rest := by
  rcases l with _ | ⟨p, _ | ⟨a, _ | ⟨b, t⟩⟩⟩
  · cases h
  · cases h
  · cases h
  · rw [escapeOf] at h
    cases hHigh : hexByte a with
    | none =>
      simp only [hHigh] at h
      cases h
    | some high =>
      cases hLow : hexByte b with
      | none =>
        simp only [hHigh, hLow] at h
        cases h
      | some low =>
        simp only [hHigh, hLow] at h
        rw [percentDecodeBytes_hex hHigh hLow]
        split at h
        · rename_i hPercent
          cases h
          exact if_pos hPercent
        · cases h

theorem percentDecodeBytes_none {p : UInt8} {l : List UInt8} (h : escapeOf (p :: l) = none) :
    percentDecodeBytes (p :: l) = p :: percentDecodeBytes l := by
  rcases l with _ | ⟨a, _ | ⟨b, t⟩⟩
  · rfl
  · rfl
  · rw [escapeOf] at h
    cases hHigh : hexByte a with
    | none => exact percentDecodeBytes_not (.inl hHigh)
    | some high =>
      cases hLow : hexByte b with
      | none => exact percentDecodeBytes_not (.inr hLow)
      | some low =>
        simp only [hHigh, hLow] at h
        rw [percentDecodeBytes_hex hHigh hLow]
        split at h
        · cases h
        · rename_i hPercent
          exact if_neg hPercent

theorem escapeOf_plain {p : UInt8} (hp : p ≠ 37) (l : List UInt8) : escapeOf (p :: l) = none := by
  rcases l with _ | ⟨a, _ | ⟨b, t⟩⟩
  · rfl
  · rfl
  · rw [escapeOf]
    split
    · exact if_neg hp
    · rfl

theorem escapeOf_inv {l rest : List UInt8} {v : UInt8} (h : escapeOf l = some (v, rest)) :
    ∃ a b, l = 37 :: a :: b :: rest ∧ hexByte a ≠ none ∧ hexByte b ≠ none := by
  rcases l with _ | ⟨p, _ | ⟨a, _ | ⟨b, t⟩⟩⟩
  · cases h
  · cases h
  · cases h
  · rw [escapeOf] at h
    split at h
    · rename_i hHigh hLow
      split at h
      · rename_i hPercent
        cases h
        exact ⟨a, b, by rw [hPercent], by rw [hHigh]; simp, by rw [hLow]; simp⟩
      · cases h
    · cases h

/-- A percent sign at the end of the front, by itself or with a digit, makes an escape with what
follows. -/
def Straddles (front rest : List UInt8) : Prop :=
  [37] <:+ front ∧ (∃ a b t, rest = a :: b :: t ∧ hexByte a ≠ none ∧ hexByte b ≠ none) ∨
    ∃ a, [37, a] <:+ front ∧ hexByte a ≠ none ∧ ∃ b t, rest = b :: t ∧ hexByte b ≠ none

theorem Straddles.mono {front front' rest : List UInt8} (hSuffix : front <:+ front')
    (h : Straddles front rest) : Straddles front' rest :=
  h.imp (fun h => ⟨h.1.trans hSuffix, h.2⟩) fun ⟨a, h⟩ => ⟨a, h.1.trans hSuffix, h.2⟩

/-- No other escape reaches over the end of the front. -/
theorem escapeOf_append {p : UInt8} {l rest : List UInt8} (h : ¬ Straddles (p :: l) rest) :
    escapeOf (p :: l ++ rest) = (escapeOf (p :: l)).map fun e => (e.1, e.2 ++ rest) := by
  rcases l with _ | ⟨x, _ | ⟨y, t⟩⟩
  · cases hEscape : escapeOf ([p] ++ rest) with
    | none => rfl
    | some e =>
      obtain ⟨a, b, hEq, hA, hB⟩ := escapeOf_inv hEscape
      rw [List.singleton_append, List.cons.injEq] at hEq
      exact absurd (.inl ⟨by rw [hEq.1], a, b, _, hEq.2, hA, hB⟩) h
  · cases hEscape : escapeOf ([p, x] ++ rest) with
    | none => rfl
    | some e =>
      obtain ⟨a, b, hEq, hA, hB⟩ := escapeOf_inv hEscape
      simp only [List.cons_append, List.nil_append, List.cons.injEq] at hEq
      obtain ⟨rfl, rfl, hRest⟩ := hEq
      exact absurd (.inr ⟨x, List.suffix_rfl, hA, b, _, hRest, hB⟩) h
  · simp only [List.cons_append, escapeOf]
    split
    · split <;> rfl
    · rfl

/-- Decoding goes on behind a front as from a new beginning, unless an escape straddles its end. -/
theorem percentDecodeBytes_append {a rest : List UInt8} (h : ¬ Straddles a rest) :
    percentDecodeBytes (a ++ rest) = percentDecodeBytes a ++ percentDecodeBytes rest := by
  induction hLength : a.length using Nat.strong_induction_on generalizing a with
  | _ n ih =>
    cases a with
    | nil => rfl
    | cons p l =>
      have hEscape := escapeOf_append h
      have hTail : ∀ l', l' <:+ p :: l → ¬ Straddles l' rest := fun l' hSuffix hTail =>
        h (hTail.mono hSuffix)
      cases hFirst : escapeOf (p :: l) with
      | none =>
        rw [hFirst] at hEscape
        rw [List.cons_append] at hEscape ⊢
        rw [percentDecodeBytes_none hEscape, percentDecodeBytes_none hFirst,
          ih l.length (by rw [← hLength, List.length_cons]; omega)
            (hTail l (List.suffix_cons _ _)) rfl]
        rfl
      | some e =>
        rw [hFirst] at hEscape
        obtain ⟨x, y, hEq, -⟩ := escapeOf_inv hFirst
        rw [percentDecodeBytes_some hEscape, percentDecodeBytes_some hFirst,
          ih e.2.length (by rw [← hLength, hEq]; simp only [List.length_cons]; omega)
            (hTail e.2 (by rw [hEq]; exact ⟨[37, x, y], rfl⟩)) rfl]
        rfl

/-! ## Encoded texts -/

/-- Bytes written with some of them percent-encoded: every one that is not ASCII and every percent
sign, each digit in either case. -/
inductive Encoded : List UInt8 → List Char → Prop
  | nil : Encoded [] []
  | plain {b : UInt8} {bytes : List UInt8} {e : List Char} : b.toNat < 128 → b ≠ 37 →
      Encoded bytes e → Encoded (b :: bytes) (Char.ofNat b.toNat :: e)
  | escaped {x y : Char} {high low : Nat} {bytes : List UInt8} {e : List Char} :
      Json.hexValue x = some high → Json.hexValue y = some low →
      Encoded bytes e → Encoded (UInt8.ofNat (high * 16 + low) :: bytes) ('%' :: x :: y :: e)

theorem toNat_ofNat_byte (b : UInt8) : (Char.ofNat b.toNat).toNat = b.toNat := by
  have hValid : b.toNat.isValidChar := Or.inl (by have := b.toNat_lt; omega)
  rw [Char.ofNat, dif_pos hValid]
  rfl

theorem encode_byte {b : UInt8} (hb : b.toNat < 128) (e : List Char) :
    Utf8.encode (Char.ofNat b.toNat :: e) = b :: Utf8.encode e := by
  have hChar := toNat_ofNat_byte b
  rw [Utf8.encode_cons, Utf8.utf8EncodeChar_ascii (by omega), hChar, UInt8.ofNat_toNat]
  rfl

/-- What is known of a hexadecimal digit. -/
structure Digit (c : Char) : Prop where
  ascii : c.toNat < 128
  escape : Json.escape c = [c]
  kept : unreserved (UInt8.ofNat c.toNat) = true
  percent : c ≠ '%'
  lower_percent : c.toLower ≠ '%'
  lower_zero : c.toLower = '0' → c = '0'
  lower_one : c.toLower = '1' → c = '1'
  control : 32 ≤ c.toNat
  lower_control : 32 ≤ c.toLower.toNat

theorem toNat_of_hexValue {c : Char} {v : Nat} (h : Json.hexValue c = some v) :
    c.toNat < 128 ∧ v < 16 := by
  have hLe : ∀ a b : Char, a ≤ b ↔ a.toNat ≤ b.toNat := fun a b => UInt32.le_iff_toNat_le
  unfold Json.hexValue at h
  simp only [hLe] at h
  split_ifs at h with h1 h2 h3
  all_goals
    cases h
    simp only [Char.reduceToNat] at *
    omega

theorem digit_of_hexValue {c : Char} {v : Nat} (h : Json.hexValue c = some v) : Digit c := by
  have hAll : ∀ n < 128, (Json.hexValue (Char.ofNat n)).isSome →
      Json.escape (Char.ofNat n) = [Char.ofNat n] ∧
        unreserved (UInt8.ofNat (Char.ofNat n).toNat) = true ∧ Char.ofNat n ≠ '%' ∧
        (Char.ofNat n).toLower ≠ '%' ∧
        ((Char.ofNat n).toLower = '0' → Char.ofNat n = '0') ∧
        ((Char.ofNat n).toLower = '1' → Char.ofNat n = '1') ∧
        32 ≤ (Char.ofNat n).toNat ∧ 32 ≤ (Char.ofNat n).toLower.toNat := by
    decide +kernel
  have hAscii := (toNat_of_hexValue h).1
  have hIt := hAll c.toNat hAscii
  rw [Char.ofNat_toNat, h] at hIt
  obtain ⟨h1, h2, h3, h4, h5, h6, h7, h8⟩ := hIt rfl
  exact ⟨hAscii, h1, h2, h3, h4, h5, h6, h7, h8⟩

theorem encode_ascii {c : Char} (hc : c.toNat < 128) (e : List Char) :
    Utf8.encode (c :: e) = UInt8.ofNat c.toNat :: Utf8.encode e := by
  rw [Utf8.encode_cons, Utf8.utf8EncodeChar_ascii hc]
  rfl

theorem hexByte_ascii {c : Char} (hc : c.toNat < 128) :
    hexByte (UInt8.ofNat c.toNat) = Json.hexValue c := by
  rw [hexByte, Utf8.byte_toNat (by omega), Char.ofNat_toNat]

theorem escapeOf_digits {x y : Char} {high low : Nat} (hx : Json.hexValue x = some high)
    (hy : Json.hexValue y = some low) (e : List Char) (rest : List UInt8) :
    escapeOf (Utf8.encode ('%' :: x :: y :: e) ++ rest) =
      some (UInt8.ofNat (high * 16 + low), Utf8.encode e ++ rest) := by
  have hxAscii := (toNat_of_hexValue hx).1
  have hyAscii := (toNat_of_hexValue hy).1
  rw [encode_ascii (by decide), encode_ascii hxAscii, encode_ascii hyAscii]
  simp only [List.cons_append, escapeOf, hexByte_ascii hxAscii, hexByte_ascii hyAscii, hx, hy]
  rfl

/-- An encoded text is decoded, when the decoding begins where it begins. -/
theorem Encoded.decode {bytes : List UInt8} {e : List Char} (h : Encoded bytes e)
    (rest : List UInt8) :
    percentDecodeBytes (Utf8.encode e ++ rest) = bytes ++ percentDecodeBytes rest := by
  induction h with
  | nil => rfl
  | plain hAscii hPercent _ ih =>
    rw [encode_byte hAscii, List.cons_append,
      percentDecodeBytes_none (escapeOf_plain hPercent _), ih]
    rfl
  | escaped hx hy _ ih =>
    rw [percentDecodeBytes_some (escapeOf_digits hx hy _ rest), ih]
    rfl

/-- The first character of an encoded text is ASCII. -/
theorem Encoded.ascii {bytes : List UInt8} {c : Char} {e : List Char} (h : Encoded bytes (c :: e)) :
    c.toNat < 128 := by
  cases h with
  | plain hAscii _ _ => rwa [toNat_ofNat_byte]
  | escaped _ _ _ => decide

/-! ## Looking for the secret -/

/-- What `assert_no_secret` looks for in one text. -/
def foundIn (secret : String) (hay : List Char) : Bool :=
  let jsonEscaped := trimQuotes (Json.quoted secret)
  let encodedFolded := (percentEncode secret.toList).map Char.toLower
  contains hay secret.toList ||
    (jsonEscaped != secret.toList && contains hay jsonEscaped) ||
    (!(encodedFolded == secret.toList.map Char.toLower) &&
      contains (hay.map Char.toLower) encodedFolded)

theorem leaks_eq {line secret : String} (hSecret : secret ≠ "") :
    leaks Json.text line secret =
      (foundIn secret line.toList || foundIn secret (percentDecode line.toList)) := by
  have hRender : (Json.text.render (.str secret)).toList = Json.quoted secret :=
    String.toList_ofList
  rw [leaks, if_neg hSecret]
  simp only [hRender, List.any_cons, List.any_nil, Bool.or_false]
  rfl

theorem contains_iff {hay needle : List Char} : contains hay needle = true ↔ needle <:+: hay :=
  decide_eq_true_iff

/-- What is found in a text is found in every text around it. -/
theorem foundIn_mono {secret : String} {hay hay' : List Char} (hIn : hay <:+: hay')
    (hFound : foundIn secret hay = true) : foundIn secret hay' = true := by
  unfold foundIn at *
  simp only [Bool.or_eq_true, Bool.and_eq_true, contains_iff] at *
  rcases hFound with (hPlain | ⟨hNe, hJson⟩) | ⟨hNe, hEncoded⟩
  · exact .inl (.inl (hPlain.trans hIn))
  · exact .inl (.inr ⟨hNe, hJson.trans hIn⟩)
  · exact .inr ⟨hNe, hEncoded.trans (hIn.map Char.toLower)⟩

/-- The forms of a secret from which it can be read again. -/
def Recoverable (secret : String) (e : List Char) : Prop :=
  e = secret.toList ∨ e = secret.toList.flatMap Json.escape ∨
    Encoded (Utf8.encode secret.toList) e

/-! ## What is looked for is at least as long as the secret -/

theorem escape_head (c : Char) : ∃ x xs, Json.escape c = x :: xs ∧ x ≠ '"' := by
  unfold Json.escape
  split_ifs with hQuote
  all_goals exact ⟨_, _, rfl, by first | decide | exact hQuote⟩

theorem escape_last {c : Char} (hc : c ≠ '"') : ∃ xs y, Json.escape c = xs ++ [y] ∧ y ≠ '"' := by
  have hHex : ∀ n, n < 16 → Json.hexDigit n ≠ '"' := by decide
  unfold Json.escape
  rw [if_neg hc]
  split_ifs
  · exact ⟨['\\'], _, rfl, by decide⟩
  · exact ⟨['\\'], _, rfl, by decide⟩
  · exact ⟨['\\'], _, rfl, by decide⟩
  · exact ⟨['\\'], _, rfl, by decide⟩
  · exact ⟨['\\'], _, rfl, by decide⟩
  · exact ⟨['\\'], _, rfl, by decide⟩
  · exact ⟨['\\', 'u', '0', '0', _], _, rfl, hHex _ (Nat.mod_lt _ (by decide))⟩
  · exact ⟨[], c, rfl, hc⟩

/-- The JSON string without its quotes, and without those it ends in. -/
theorem trimQuotes_quoted {secret : String} (hSecret : secret ≠ "") :
    trimQuotes (Json.quoted secret) =
      (secret.toList.flatMap Json.escape).rdropWhile (· == '"') := by
  obtain ⟨c, cs, hChars⟩ := List.exists_cons_of_ne_nil
    fun hNil : secret.toList = [] => hSecret (String.toList_eq_nil_iff.mp hNil)
  obtain ⟨x, xs, hEscape, hx⟩ := escape_head c
  have hHead : (secret.toList.flatMap Json.escape) = x :: (xs ++ cs.flatMap Json.escape) := by
    rw [hChars, List.flatMap_cons, hEscape]
    rfl
  have hNot : ¬ ((x == '"') = true) := by simpa using hx
  rw [trimQuotes, Json.quoted, List.cons_append, List.dropWhile_cons_of_pos (by decide), hHead,
    List.cons_append, List.dropWhile_cons_of_neg (p := (· == '"')) hNot, ← List.cons_append,
    List.rdropWhile_concat_pos _ _ _ (by decide)]

theorem length_le_rdropWhile (cs : List Char) :
    cs.length ≤ ((cs.flatMap Json.escape).rdropWhile (· == '"')).length := by
  induction cs using List.reverseRecOn with
  | nil => exact Nat.le_refl 0
  | append_singleton cs c _ =>
    have hCs := Json.length_flatMap_escape cs
    rw [List.flatMap_append, List.flatMap_singleton, List.length_append, List.length_singleton]
    by_cases hc : c = '"'
    · have hEscape : Json.escape c = ['\\'] ++ ['"'] := by
        rw [hc]
        rfl
      rw [hEscape, ← List.append_assoc, List.rdropWhile_concat_pos _ _ _ (by decide),
        List.rdropWhile_concat_neg _ _ _ (by decide), List.length_append, List.length_singleton]
      omega
    · obtain ⟨xs, y, hEscape, hy⟩ := escape_last hc
      have hNot : ¬ ((y == '"') = true) := by simpa using hy
      rw [hEscape, ← List.append_assoc, List.rdropWhile_concat_neg (· == '"') _ _ hNot,
        List.length_append, List.length_append, List.length_singleton]
      omega

theorem length_le_percentEncode (cs : List Char) : cs.length ≤ (percentEncode cs).length := by
  have hBytes : ∀ bytes : List UInt8, bytes.length ≤ (bytes.flatMap fun b =>
      if unreserved b then [Char.ofNat b.toNat]
      else ['%', hexUpper (b.toNat / 16), hexUpper (b.toNat % 16)]).length := by
    intro bytes
    induction bytes with
    | nil => exact Nat.le_refl 0
    | cons b bytes ih =>
      rw [List.flatMap_cons, List.length_append, List.length_cons]
      split
      · rw [List.length_singleton]
        omega
      · simp only [List.length_cons, List.length_nil]
        omega
  exact (Utf8.length_le_encode cs).trans (hBytes _)

theorem length_of_foundIn {secret : String} {hay : List Char} (hSecret : secret ≠ "")
    (hFound : foundIn secret hay = true) : secret.toList.length ≤ hay.length := by
  unfold foundIn at hFound
  simp only [Bool.or_eq_true, Bool.and_eq_true, contains_iff] at hFound
  rcases hFound with (hPlain | ⟨-, hJson⟩) | ⟨-, hEncoded⟩
  · exact hPlain.length_le
  · rw [trimQuotes_quoted hSecret] at hJson
    exact (length_le_rdropWhile _).trans hJson.length_le
  · have hLength := hEncoded.length_le
    rw [List.length_map, List.length_map] at hLength
    exact (length_le_percentEncode _).trans hLength

/-! ## Where the decoding begins -/

section

variable {secret : String} {c : Char} {cs : List Char}

/-- A secret that begins with a digit is not looked for where that digit is not. -/
theorem foundIn_behind (hChars : secret.toList = c :: cs) (hDigit : Digit c)
    {front hay : List Char} (hFront : c ∉ front) (hLower : c.toLower ∉ front.map Char.toLower)
    (hFound : foundIn secret (front ++ hay) = true) : foundIn secret hay = true := by
  have hSecret : secret ≠ "" := by
    rintro rfl
    cases hChars
  obtain ⟨t, hJson⟩ : ∃ t, trimQuotes (Json.quoted secret) = c :: t := by
    rw [trimQuotes_quoted hSecret, hChars]
    have hPrefix := List.rdropWhile_prefix (· == '"') ((c :: cs).flatMap Json.escape)
    have hLength := length_le_rdropWhile (c :: cs)
    rw [List.flatMap_cons, hDigit.escape] at hPrefix hLength ⊢
    cases hTrim : ([c] ++ cs.flatMap Json.escape).rdropWhile (· == '"') with
    | nil => rw [hTrim] at hLength; cases hLength
    | cons x t =>
      rw [hTrim] at hPrefix
      exact ⟨t, by rw [(List.cons_prefix_cons.mp hPrefix).1]⟩
  obtain ⟨u, hEncoded⟩ : ∃ u, (percentEncode secret.toList).map Char.toLower = c.toLower :: u := by
    have hKept : Char.ofNat (UInt8.ofNat c.toNat).toNat = c := by
      have := hDigit.ascii
      rw [Utf8.byte_toNat (by omega), Char.ofNat_toNat]
    rw [hChars, percentEncode, encode_ascii hDigit.ascii, List.flatMap_cons, if_pos hDigit.kept,
      hKept]
    exact ⟨_, rfl⟩
  unfold foundIn at *
  simp only [Bool.or_eq_true, Bool.and_eq_true, contains_iff] at *
  rcases hFound with (hPlain | ⟨hNe, hIn⟩) | ⟨hNe, hIn⟩
  · rw [hChars] at hPlain ⊢
    exact .inl (.inl (Search.infix_behind hFront hPlain))
  · refine .inl (.inr ⟨hNe, ?_⟩)
    rw [hJson] at hIn ⊢
    exact Search.infix_behind hFront hIn
  · refine .inr ⟨hNe, ?_⟩
    rw [hEncoded] at hIn ⊢
    rw [List.map_append] at hIn
    exact Search.infix_behind hLower hIn

/-- An encoded secret that begins with a character of its own. -/
theorem Encoded.cons_inv {e : List Char} (hDigit : c ≠ '%')
    (h : Encoded (Utf8.encode secret.toList) (c :: e)) :
    ∃ cs, secret.toList = c :: cs ∧ Encoded (Utf8.encode cs) e := by
  cases hChars : secret.toList with
  | nil =>
    rw [hChars] at h
    cases h
  | cons d cs =>
    rw [hChars, Utf8.encode_cons] at h
    obtain ⟨b, bs, hEncode, -⟩ := Utf8.exists_utf8EncodeChar d
    rw [hEncode, List.cons_append] at h
    generalize hc : c = c' at h
    cases h with
    | plain hAscii hPercent hRest =>
      have hMem : b ∈ String.utf8EncodeChar d := hEncode ▸ List.mem_cons_self
      have hVal := (Utf8.mem_utf8EncodeChar hAscii).mp hMem
      have hEq : d = c := by rw [hc, ← hVal, Char.ofNat_toNat]
      rw [Utf8.utf8EncodeChar_ascii (by omega), List.cons.injEq] at hEncode
      rw [← hEncode.2, List.nil_append] at hRest
      exact ⟨cs, by rw [hEq, hc], hRest⟩
    | escaped _ _ _ => exact absurd hc hDigit

/-- The digit that makes an escape with what is not the secret's own first digit. -/
def swallowing (c : Char) : Char := if c = '0' then '1' else '0'

/-- A percent sign and a digit in front take the first character of the secret with them. -/
theorem not_leaks_swallowed {e : List Char} {v : Nat} (hHex : Json.hexValue c = some v)
    (hForm : Encoded (Utf8.encode secret.toList) (c :: e))
    (hNot : foundIn secret (c :: e) = false) :
    leaks Json.text (String.ofList ('%' :: swallowing c :: c :: e)) secret = false := by
  have hDigit := digit_of_hexValue hHex
  obtain ⟨cs, hChars, hRest⟩ := hForm.cons_inv hDigit.percent
  have hSecret : secret ≠ "" := by
    rintro rfl
    cases hChars
  obtain ⟨high, hHigh, hLow, hOther, hLower⟩ : ∃ high, Json.hexValue (swallowing c) = some high ∧
      high < 2 ∧ c ≠ swallowing c ∧ c.toLower ≠ (swallowing c).toLower := by
    unfold swallowing
    split
    · rename_i hZero
      exact ⟨1, by decide, by decide, by rw [hZero]; decide, by rw [hZero]; decide⟩
    · rename_i hZero
      exact ⟨0, by decide, by decide, hZero, fun hEq => hZero (hDigit.lower_zero hEq)⟩
  have hValue := (toNat_of_hexValue hHex).2
  -- the decoded line begins with a control character, and the first character is gone
  have hDecoded : percentDecode ('%' :: swallowing c :: c :: e) =
      Char.ofNat (high * 16 + v) :: cs := by
    have hDecode := hRest.decode []
    have hEscape := escapeOf_digits hHigh hHex e []
    rw [List.append_nil, List.append_nil] at hEscape
    have hNil : percentDecodeBytes [] = [] := rfl
    rw [List.append_nil, hNil, List.append_nil] at hDecode
    have hByte : (UInt8.ofNat (high * 16 + v)).toNat = high * 16 + v := Utf8.byte_toNat (by omega)
    have hEncode := encode_byte (b := UInt8.ofNat (high * 16 + v)) (by omega) cs
    rw [percentDecode, percentDecodeBytes_some hEscape, hDecode, ← hEncode,
      Utf8.decodeLossy_encode, hByte]
  rw [leaks_eq hSecret, String.toList_ofList, hDecoded, Bool.or_eq_false_iff]
  constructor
  · rw [Bool.eq_false_iff]
    intro hFound
    have hFront : c ∉ ['%', swallowing c] := by simp [hDigit.percent, hOther]
    have hFolded : c.toLower ∉ ['%', swallowing c].map Char.toLower := by
      have hPercent : Char.toLower '%' = '%' := by decide
      simp [hPercent, hDigit.lower_percent, hLower]
    rw [foundIn_behind hChars hDigit hFront hFolded hFound] at hNot
    cases hNot
  · rw [Bool.eq_false_iff]
    intro hFound
    have hAll : ∀ n < 32, (Char.ofNat n).toNat < 32 ∧ (Char.ofNat n).toLower.toNat < 32 := by
      decide
    have hSmall := hAll (high * 16 + v) (by omega)
    have hFront : c ∉ [Char.ofNat (high * 16 + v)] := by
      intro hMem
      have hControl := hDigit.control
      rw [List.mem_singleton.mp hMem] at hControl
      omega
    have hFolded : c.toLower ∉ [Char.ofNat (high * 16 + v)].map Char.toLower := by
      intro hMem
      have hControl := hDigit.lower_control
      rw [List.mem_singleton.mp hMem] at hControl
      omega
    have hBehind := foundIn_behind hChars hDigit hFront hFolded hFound
    have hLength := length_of_foundIn hSecret hBehind
    rw [hChars, List.length_cons] at hLength
    omega

end

/-! ## Where an encoded secret is found -/

/-- A percent sign at the end of the front, by itself or with a digit, makes an escape with what
follows. -/
def Swallowed (front rest : List Char) : Prop :=
  ['%'] <:+ front ∧ (∃ a b t, rest = a :: b :: t ∧ Json.hexValue a ≠ none ∧
      Json.hexValue b ≠ none) ∨
    ∃ a, ['%', a] <:+ front ∧ Json.hexValue a ≠ none ∧
      ∃ b t, rest = b :: t ∧ Json.hexValue b ≠ none

theorem ascii_of_hexByte {b : UInt8} (h : hexByte b ≠ none) : b.toNat < 128 := by
  obtain ⟨v, hValue⟩ := Option.ne_none_iff_exists'.mp h
  have hAscii := (toNat_of_hexValue hValue).1
  rwa [toNat_ofNat_byte] at hAscii

theorem swallowed_of_straddles {front rest : List Char}
    (h : Straddles (Utf8.encode front) (Utf8.encode rest)) : Swallowed front rest := by
  rcases h with ⟨⟨f, hFront⟩, a, b, t, hRest, hA, hB⟩ | ⟨a, ⟨f, hFront⟩, hA, b, t, hRest, hB⟩
  · obtain ⟨text, rfl, -⟩ := Utf8.encode_concat_ascii (by decide) hFront.symm
    obtain ⟨rest, rfl, hTail⟩ := Utf8.encode_cons_ascii (ascii_of_hexByte hA) hRest
    obtain ⟨rest, rfl, -⟩ := Utf8.encode_cons_ascii (ascii_of_hexByte hB) hTail
    exact .inl ⟨List.suffix_append _ _, _, _, _, rfl, hA, hB⟩
  · have hLast : Utf8.encode front = (f ++ [37]) ++ [a] := by rw [← hFront, List.append_assoc]; rfl
    obtain ⟨text, rfl, hText⟩ := Utf8.encode_concat_ascii (ascii_of_hexByte hA) hLast
    obtain ⟨text, rfl, -⟩ := Utf8.encode_concat_ascii (by decide) hText
    obtain ⟨rest, rfl, -⟩ := Utf8.encode_cons_ascii (ascii_of_hexByte hB) hRest
    refine .inr ⟨_, ?_, hA, _, _, rfl, hB⟩
    rw [List.append_assoc]
    exact List.suffix_append _ _

/-- An encoded secret is found where nothing in front takes its beginning. -/
theorem leaks_of_encoded {secret : String} {front e behind : List Char} (hSecret : secret ≠ "")
    (hForm : Encoded (Utf8.encode secret.toList) e) (hFree : ¬ Swallowed front (e ++ behind)) :
    leaks Json.text (String.ofList (front ++ e ++ behind)) secret = true := by
  have hText : secret.toList ≠ [] := fun hNil => hSecret (String.toList_eq_nil_iff.mp hNil)
  have hDecode := percentDecodeBytes_append fun h => hFree (swallowed_of_straddles h)
  rw [Utf8.encode_append, hForm.decode, ← List.append_assoc, ← List.append_assoc] at hDecode
  have hIn : secret.toList <:+: percentDecode (front ++ e ++ behind) := by
    rw [percentDecode, Utf8.encode_append, Utf8.encode_append, hDecode]
    exact Utf8.infix_decodeLossy _ hText _
  have hFound : foundIn secret (percentDecode (front ++ e ++ behind)) = true := by
    unfold foundIn
    simp only [Bool.or_eq_true, contains_iff]
    exact .inl (.inl hIn)
  rw [leaks_eq hSecret, String.toList_ofList, hFound, Bool.or_true]

/-- The plain and the JSON-escaped form are looked for as they are. -/
theorem foundIn_form {secret : String} (hSecret : secret ≠ "") {e : List Char}
    (hForm : e = secret.toList ∨ e = secret.toList.flatMap Json.escape) :
    foundIn secret e = true := by
  unfold foundIn
  simp only [Bool.or_eq_true, Bool.and_eq_true, contains_iff]
  rcases hForm with rfl | rfl
  · exact .inl (.inl List.infix_rfl)
  · have hIn : trimQuotes (Json.quoted secret) <:+: secret.toList.flatMap Json.escape := by
      rw [trimQuotes_quoted hSecret]
      exact (List.rdropWhile_prefix _ _).isInfix
    by_cases hSame : trimQuotes (Json.quoted secret) = secret.toList
    · exact .inl (.inl (hSame ▸ hIn))
    · exact .inl (.inr ⟨bne_iff_ne.mpr hSame, hIn⟩)

theorem Recoverable.ne_nil {secret : String} {e : List Char} (h : Recoverable secret e)
    (hSecret : secret ≠ "") : e ≠ [] := by
  have hText : secret.toList ≠ [] := fun hNil => hSecret (String.toList_eq_nil_iff.mp hNil)
  rintro rfl
  rcases h with hPlain | hJson | hEncoded
  · exact hText hPlain.symm
  · obtain ⟨c, cs, hChars⟩ := List.exists_cons_of_ne_nil hText
    obtain ⟨x, xs, hEscape, -⟩ := escape_head c
    rw [hChars, List.flatMap_cons, hEscape] at hJson
    cases hJson
  · have hLength := Utf8.length_le_encode secret.toList
    generalize Utf8.encode secret.toList = bytes at hEncoded hLength
    cases hEncoded
    exact hText (List.eq_nil_of_length_eq_zero (Nat.le_zero.mp hLength))

/-- A form is found wherever nothing in front takes its beginning. -/
theorem leaks_of_form {secret : String} {front e behind : List Char} (hSecret : secret ≠ "")
    (hForm : Recoverable secret e)
    (hFree : foundIn secret e = true ∨ ¬ Swallowed front (e ++ behind)) :
    leaks Json.text (String.ofList (front ++ e ++ behind)) secret = true := by
  by_cases hEarly : foundIn secret e = true
  · rw [leaks_eq hSecret, String.toList_ofList, foundIn_mono ⟨front, behind, rfl⟩ hEarly,
      Bool.true_or]
  rcases hForm with hSame | hJson | hEncoded
  · exact absurd (foundIn_form hSecret (.inl hSame)) hEarly
  · exact absurd (foundIn_form hSecret (.inr hJson)) hEarly
  · exact leaks_of_encoded hSecret hEncoded (hFree.resolve_left hEarly)

/-- A form of the secret is found in every line that contains it, exactly when it does not begin
with a hexadecimal digit of the secret's own or is found without being decoded. Any form is found
in the lines in which nothing in front takes its beginning. -/
theorem leaks_in_every_line_iff {secret : String} {e : List Char} (hSecret : secret ≠ "")
    (hForm : Recoverable secret e) :
    ((∀ line : String, e <:+: line.toList → leaks Json.text line secret = true) ↔
      (∀ c ∈ e.head?, Json.hexValue c = none) ∨ foundIn secret e = true) ∧
    ∀ front behind, ¬ Swallowed front (e ++ behind) →
      leaks Json.text (String.ofList (front ++ e ++ behind)) secret = true := by
  refine ⟨⟨fun hAll => ?_, fun hEither line hLine => ?_⟩, fun front behind hFree =>
    leaks_of_form hSecret hForm (.inr hFree)⟩
  · by_contra hNeither
    rw [not_or, Bool.not_eq_true] at hNeither
    obtain ⟨hDigit, hNot⟩ := hNeither
    push Not at hDigit
    obtain ⟨c, hc, hHex⟩ := hDigit
    obtain ⟨e, rfl⟩ : ∃ e', e = c :: e' := ⟨e.tail, (List.cons_head?_tail hc).symm⟩
    obtain ⟨v, hValue⟩ := Option.ne_none_iff_exists'.mp hHex
    rcases hForm with hPlain | hJson | hEncoded
    · rw [foundIn_form hSecret (.inl hPlain)] at hNot
      cases hNot
    · rw [foundIn_form hSecret (.inr hJson)] at hNot
      cases hNot
    · have hLeaks := hAll (String.ofList ('%' :: swallowing c :: c :: e))
        (by rw [String.toList_ofList]; exact ⟨['%', swallowing c], [], by simp⟩)
      rw [not_leaks_swallowed hValue hEncoded hNot] at hLeaks
      cases hLeaks
  · obtain ⟨front, behind, hEq⟩ := hLine
    rw [← String.ofList_toList (s := line), ← hEq]
    refine leaks_of_form hSecret hForm (hEither.symm.imp_right fun hPlain hTaken => ?_)
    obtain ⟨c, e, rfl⟩ := List.exists_cons_of_ne_nil (hForm.ne_nil hSecret)
    have hNone := hPlain c rfl
    rcases hTaken with ⟨-, a, b, t, hRest, hA, -⟩ | ⟨-, -, -, a, t, hRest, hA⟩
    · rw [← (List.cons.inj hRest).1] at hA
      exact hA hNone
    · rw [← (List.cons.inj hRest).1] at hA
      exact hA hNone

theorem encoded_abc : Encoded (Utf8.encode "abc".toList) "ab%63".toList := by
  have hLast : Encoded [UInt8.ofNat (6 * 16 + 3)] ['%', '6', '3'] :=
    .escaped (by decide) (by decide) .nil
  have hWhole : Encoded [97, 98, UInt8.ofNat (6 * 16 + 3)] ['a', 'b', '%', '6', '3'] :=
    .plain (b := 97) (by decide) (by decide) (.plain (b := 98) (by decide) (by decide) hLast)
  exact hWhole

theorem leaks_in_every_line_iff_abc :
    ((∀ line : String, "ab%63".toList <:+: line.toList → leaks Json.text line "abc" = true) ↔
      (∀ c ∈ "ab%63".toList.head?, Json.hexValue c = none) ∨
        foundIn "abc" "ab%63".toList = true) ∧
    ∀ front behind, ¬ Swallowed front ("ab%63".toList ++ behind) →
      leaks Json.text (String.ofList (front ++ "ab%63".toList ++ behind)) "abc" = true :=
  leaks_in_every_line_iff (by decide) (.inr (.inr encoded_abc))

/-- A secret with its last character encoded, behind a percent sign and a digit. -/
theorem encoded_secret_missed :
    Recoverable "abc" "ab%63".toList ∧ "ab%63".toList <:+: "%4ab%63".toList ∧
      leaks Json.text "%4ab%63" "abc" = false :=
  ⟨.inr (.inr encoded_abc), by decide, by decide⟩

end Weflow.Export
