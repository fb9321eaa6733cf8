import Mathlib.Data.List.Basic

/-!
# UTF-8, written and read

`encode` writes a text, one character after the other, with the encoder of `String`.
`scan` reads any byte string: a machine with one state between two bytes, the open sequence.
A byte that cannot continue the open sequence ends it as a defect and is read again as a first
byte; the sequence still open at the end of the input is a defect too. `decodeLossy` writes the
replacement character for each defect, `decode` refuses the input that has one.
-/

namespace Utf8

/-- A sequence begun and not ended: its value so far, the bytes it still owes, and the range
its next byte must lie in. -/
structure Open where
  value : Nat
  owed : Nat
  low : Nat
  high : Nat
  deriving DecidableEq

/-- A first byte: a whole character, a sequence it opens, or a defect. -/
def first (b : Nat) : List (Option Char) × Option Open :=
  if b < 0x80 then ([some (Char.ofNat b)], none)
  else if 0xC2 ≤ b ∧ b ≤ 0xDF then ([], some ⟨b - 0xC0, 1, 0x80, 0xBF⟩)
  else if b = 0xE0 then ([], some ⟨0, 2, 0xA0, 0xBF⟩)
  else if b = 0xED then ([], some ⟨0xD, 2, 0x80, 0x9F⟩)
  else if 0xE1 ≤ b ∧ b ≤ 0xEF then ([], some ⟨b - 0xE0, 2, 0x80, 0xBF⟩)
  else if b = 0xF0 then ([], some ⟨0, 3, 0x90, 0xBF⟩)
  else if 0xF1 ≤ b ∧ b ≤ 0xF3 then ([], some ⟨b - 0xF0, 3, 0x80, 0xBF⟩)
  else if b = 0xF4 then ([], some ⟨4, 3, 0x80, 0x8F⟩)
  else ([none], none)

/-- The next byte of an open sequence. -/
def next (o : Open) (b : Nat) : List (Option Char) × Option Open :=
  if o.low ≤ b ∧ b ≤ o.high then
    if o.owed ≤ 1 then ([some (Char.ofNat (o.value * 64 + (b - 0x80)))], none)
    else ([], some ⟨o.value * 64 + (b - 0x80), o.owed - 1, 0x80, 0xBF⟩)
  else
    (none :: (first b).1, (first b).2)

/-- The characters of a byte string, `none` for a defect. -/
def scan : Option Open → List UInt8 → List (Option Char)
  | none, [] => []
  | some _, [] => [none]
  | none, b :: bs => (first b.toNat).1 ++ scan (first b.toNat).2 bs
  | some o, b :: bs => (next o b.toNat).1 ++ scan (next o b.toNat).2 bs

def encode (text : List Char) : List UInt8 := text.flatMap String.utf8EncodeChar

/-- Every defect is read as the replacement character. -/
def decodeLossy (bytes : List UInt8) : List Char :=
  (scan none bytes).map (·.getD (Char.ofNat 0xFFFD))

/-- The text of a byte string that has no defect. -/
def decode (bytes : List UInt8) : Option (List Char) := (scan none bytes).mapM id

@[simp] theorem encode_nil : encode [] = [] := rfl

@[simp] theorem encode_cons (c : Char) (cs : List Char) :
    encode (c :: cs) = String.utf8EncodeChar c ++ encode cs := rfl

@[simp] theorem encode_append (s t : List Char) : encode (s ++ t) = encode s ++ encode t :=
  List.flatMap_append

/-! ## What is written is read back -/

theorem char_bounds (c : Char) : c.toNat < 0xD800 ∨ 0xDFFF < c.toNat ∧ c.toNat < 0x110000 :=
  c.valid

theorem byte_toNat {n : Nat} (h : n < 256) : (UInt8.ofNat n).toNat = n :=
  UInt8.toNat_ofNat_of_lt' h

/-- The last byte of a sequence. -/
theorem scan_last {v low high n : Nat} (hn : n < 256) (hLow : low ≤ n) (hHigh : n ≤ high)
    (bs : List UInt8) : scan (some ⟨v, 1, low, high⟩) (UInt8.ofNat n :: bs) =
      some (Char.ofNat (v * 64 + (n - 0x80))) :: scan none bs := by
  rw [scan, byte_toNat hn, next, if_pos ⟨hLow, hHigh⟩, if_pos (Nat.le_refl 1)]
  rfl

/-- A byte of a sequence that owes more. -/
theorem scan_middle {v owed low high n : Nat} (hn : n < 256) (hLow : low ≤ n) (hHigh : n ≤ high)
    (bs : List UInt8) : scan (some ⟨v, owed + 2, low, high⟩) (UInt8.ofNat n :: bs) =
      scan (some ⟨v * 64 + (n - 0x80), owed + 1, 0x80, 0xBF⟩) bs := by
  rw [scan, byte_toNat hn, next, if_pos ⟨hLow, hHigh⟩, if_neg (by dsimp only; omega)]
  rfl

theorem scan_first {n : Nat} (hn : n < 256) (bs : List UInt8) :
    scan none (UInt8.ofNat n :: bs) = (first n).1 ++ scan (first n).2 bs := by
  rw [scan, byte_toNat hn]

theorem first_two {n : Nat} (h1 : 0xC2 ≤ n) (h2 : n ≤ 0xDF) :
    first n = ([], some ⟨n - 0xC0, 1, 0x80, 0xBF⟩) := by
  rw [first, if_neg (by omega), if_pos ⟨h1, h2⟩]

/-- A first byte of three, with the range that leaves out what is written shorter and the
surrogates. -/
theorem first_three {n : Nat} (h1 : 0xE0 ≤ n) (h2 : n ≤ 0xEF) :
    first n = ([], some ⟨n - 0xE0, 2, if n = 0xE0 then 0xA0 else 0x80,
      if n = 0xED then 0x9F else 0xBF⟩) := by
  by_cases h3 : n = 0xE0
  · rw [h3]
    rfl
  by_cases h4 : n = 0xED
  · rw [h4]
    rfl
  · rw [first, if_neg (by omega), if_neg (by omega), if_neg h3, if_neg h4,
      if_pos (by omega), if_neg h3, if_neg h4]

/-- A first byte of four. -/
theorem first_four {n : Nat} (h1 : 0xF0 ≤ n) (h2 : n ≤ 0xF4) :
    first n = ([], some ⟨n - 0xF0, 3, if n = 0xF0 then 0x90 else 0x80,
      if n = 0xF4 then 0x8F else 0xBF⟩) := by
  by_cases h3 : n = 0xF0
  · rw [h3]
    rfl
  by_cases h4 : n = 0xF4
  · rw [h4]
    rfl
  · rw [first, if_neg (by omega), if_neg (by omega), if_neg (by omega), if_neg (by omega),
      if_neg (by omega), if_neg h3, if_pos (by omega), if_neg h3, if_neg h4]

/-- A character written is the next character read. -/
theorem scan_utf8EncodeChar (c : Char) (rest : List UInt8) :
    scan none (String.utf8EncodeChar c ++ rest) = some c :: scan none rest := by
  have hBounds := char_bounds c
  have hRead : ∀ n, n = c.toNat → Char.ofNat n = c := by
    intro n hn
    rw [hn]
    exact Char.ofNat_toNat c
  have hVal : c.val.toNat = c.toNat := rfl
  simp only [String.utf8EncodeChar, hVal]
  generalize c.toNat = n at hBounds hRead
  split_ifs with h1 h2 h3
  · rw [List.singleton_append, scan_first (by omega), first, if_pos (by omega), hRead n rfl]
    rfl
  · simp only [List.cons_append, List.nil_append]
    rw [scan_first (by omega), first_two (by omega) (by omega), List.nil_append,
      scan_last (by omega) (by omega) (by omega), hRead _ (by omega)]
  · simp only [List.cons_append, List.nil_append]
    rw [scan_first (by omega), first_three (by omega) (by omega), List.nil_append,
      scan_middle (by omega) (by split <;> omega) (by split <;> omega),
      scan_last (by omega) (by omega) (by omega), hRead _ (by omega)]
  · simp only [List.cons_append, List.nil_append]
    rw [scan_first (by omega), first_four (by omega) (by omega), List.nil_append,
      scan_middle (by omega) (by split <;> omega) (by split <;> omega),
      scan_middle (by omega) (by omega) (by omega),
      scan_last (by omega) (by omega) (by omega), hRead _ (by omega)]

theorem scan_encode_append (text : List Char) (rest : List UInt8) :
    scan none (encode text ++ rest) = text.map some ++ scan none rest := by
  induction text with
  | nil => rfl
  | cons c cs ih =>
    rw [encode_cons, List.append_assoc, scan_utf8EncodeChar, ih]
    rfl

theorem scan_encode (text : List Char) : scan none (encode text) = text.map some := by
  have h := scan_encode_append text []
  simpa only [List.append_nil, scan] using h

@[simp] theorem decodeLossy_encode (text : List Char) : decodeLossy (encode text) = text := by
  rw [decodeLossy, scan_encode, List.map_map]
  exact List.map_id text

@[simp] theorem decode_encode (text : List Char) : decode (encode text) = some text := by
  rw [decode, scan_encode, List.mapM_map]
  induction text with
  | nil => rfl
  | cons c cs ih => simp_all [List.mapM_cons]

/-! ## Bytes below 128 -/

/-- A byte below 128 stands for the character of that number only. -/
theorem mem_utf8EncodeChar {c : Char} {b : UInt8} (hb : b.toNat < 128) :
    b ∈ String.utf8EncodeChar c ↔ c.toNat = b.toNat := by
  have hBounds := char_bounds c
  have hVal : c.val.toNat = c.toNat := rfl
  have hByte : ∀ n, n < 256 → (b = UInt8.ofNat n ↔ n = b.toNat) := by
    intro n hn
    rw [← UInt8.toNat_inj, byte_toNat hn]
    exact eq_comm
  simp only [String.utf8EncodeChar, hVal]
  split_ifs <;> simp only [List.mem_cons, List.not_mem_nil, or_false]
  · rw [hByte _ (by omega)]
  · rw [hByte _ (by omega), hByte _ (by omega)]
    omega
  · rw [hByte _ (by omega), hByte _ (by omega), hByte _ (by omega)]
    omega
  · rw [hByte _ (by omega), hByte _ (by omega), hByte _ (by omega), hByte _ (by omega)]
    omega

theorem mem_encode {text : List Char} {b : UInt8} (hb : b.toNat < 128) :
    b ∈ encode text ↔ Char.ofNat b.toNat ∈ text := by
  have hChar : ∀ c : Char, c.toNat = b.toNat ↔ c = Char.ofNat b.toNat := by
    intro c
    constructor
    · intro h
      rw [← h, Char.ofNat_toNat]
    · intro h
      have hValid : b.toNat.isValidChar := Or.inl (by omega)
      rw [h, Char.ofNat, dif_pos hValid]
      rfl
  simp only [encode, List.mem_flatMap, mem_utf8EncodeChar hb, hChar]
  constructor
  · rintro ⟨c, hMem, rfl⟩
    exact hMem
  · intro h
    exact ⟨_, h, rfl⟩

/-- A character below 128 is one byte. -/
theorem utf8EncodeChar_ascii {c : Char} (h : c.toNat < 128) :
    String.utf8EncodeChar c = [UInt8.ofNat c.toNat] := by
  have hVal : c.val.toNat = c.toNat := rfl
  simp only [String.utf8EncodeChar, hVal]
  rw [if_pos (by omega)]

/-- A byte below 128 at the end of a text is a character of its own. -/
theorem encode_concat_ascii {text : List Char} {front : List UInt8} {b : UInt8}
    (hb : b.toNat < 128) (h : encode text = front ++ [b]) :
    ∃ text', text = text' ++ [Char.ofNat b.toNat] ∧ encode text' = front := by
  rcases List.eq_nil_or_concat' text with rfl | ⟨text', c, rfl⟩
  · exact absurd h.symm (by simp)
  · have hSingle : encode [c] = String.utf8EncodeChar c := List.append_nil _
    rw [encode_append, hSingle] at h
    have hLast : b ∈ String.utf8EncodeChar c := by
      have hEnds := congrArg List.getLast? h
      rw [List.getLast?_concat, List.getLast?_append_of_ne_nil _ String.utf8EncodeChar_ne_nil] at hEnds
      exact List.mem_of_getLast? hEnds
    have hVal := (mem_utf8EncodeChar hb).mp hLast
    rw [utf8EncodeChar_ascii (by omega)] at h
    exact ⟨text', by rw [← hVal, Char.ofNat_toNat], (List.append_inj' h rfl).1⟩

/-- So it is at the beginning. -/
theorem encode_cons_ascii {text : List Char} {rest : List UInt8} {b : UInt8}
    (hb : b.toNat < 128) (h : encode text = b :: rest) :
    ∃ text', text = Char.ofNat b.toNat :: text' ∧ encode text' = rest := by
  cases text with
  | nil => cases h
  | cons c cs =>
    rw [encode_cons] at h
    obtain ⟨x, xs, hChar⟩ := List.exists_cons_of_ne_nil String.utf8EncodeChar_ne_nil
    have hFirst : b ∈ String.utf8EncodeChar c := by
      rw [hChar, List.cons_append] at h
      rw [hChar, (List.cons.inj h).1]
      exact List.mem_cons_self
    have hVal := (mem_utf8EncodeChar hb).mp hFirst
    rw [utf8EncodeChar_ascii (by omega)] at h
    exact ⟨cs, by rw [← hVal, Char.ofNat_toNat], (List.cons.inj h).2⟩

theorem length_le_encode (text : List Char) : text.length ≤ (encode text).length := by
  induction text with
  | nil => exact Nat.le_refl 0
  | cons c cs ih =>
    have hSize := c.utf8Size_pos
    rw [encode_cons, List.length_append, String.length_utf8EncodeChar, List.length_cons]
    omega

/-! ## A text among other bytes -/

/-- A byte that stands in a sequence, behind the first. -/
def Continues (b : UInt8) : Prop := 0x80 ≤ b.toNat ∧ b.toNat ≤ 0xBF

/-- The next byte of a sequence is asked to continue it. -/
def Bounded (o : Option Open) : Prop := ∀ x ∈ o, 0x80 ≤ x.low ∧ x.high ≤ 0xBF

theorem bounded_none : Bounded none := by
  intro x hx
  cases hx

theorem bounded_some {v owed low high : Nat} (hLow : 0x80 ≤ low) (hHigh : high ≤ 0xBF) :
    Bounded (some ⟨v, owed, low, high⟩) := by
  intro x hx
  cases hx
  exact ⟨hLow, hHigh⟩

theorem bounded_first (b : Nat) : Bounded (first b).2 := by
  unfold first
  split_ifs
  case pos => exact bounded_none
  case neg => exact bounded_none
  all_goals exact bounded_some (by decide) (by decide)

theorem bounded_next (o : Open) (b : Nat) : Bounded (next o b).2 := by
  unfold next
  split_ifs
  · exact bounded_none
  · exact bounded_some (by decide) (by decide)
  · exact bounded_first b

/-- From a byte that continues no sequence on, what is in front does not matter. -/
theorem scan_boundary {o : Option Open} (ho : Bounded o) (front : List UInt8) {b : UInt8}
    (hb : ¬ Continues b) (rest : List UInt8) :
    ∃ before, scan o (front ++ b :: rest) = before ++ scan none (b :: rest) := by
  induction front generalizing o with
  | nil =>
    cases o with
    | none => exact ⟨[], rfl⟩
    | some x =>
      have hOut : ¬ (x.low ≤ b.toNat ∧ b.toNat ≤ x.high) := fun hIn =>
        hb ⟨Nat.le_trans (ho x rfl).1 hIn.1, Nat.le_trans hIn.2 (ho x rfl).2⟩
      have hNext : next x b.toNat = (none :: (first b.toNat).1, (first b.toNat).2) := if_neg hOut
      have hScan : scan (some x) (b :: rest) =
          (next x b.toNat).1 ++ scan (next x b.toNat).2 rest := rfl
      refine ⟨[none], ?_⟩
      rw [List.nil_append, hScan, hNext]
      rfl
  | cons a front ih =>
    cases o with
    | none =>
      obtain ⟨before, hBefore⟩ := ih (bounded_first a.toNat)
      refine ⟨(first a.toNat).1 ++ before, ?_⟩
      rw [List.append_assoc, ← hBefore]
      rfl
    | some x =>
      obtain ⟨before, hBefore⟩ := ih (bounded_next x a.toNat)
      refine ⟨(next x a.toNat).1 ++ before, ?_⟩
      rw [List.append_assoc, ← hBefore]
      rfl

/-- A character begins with a byte that continues nothing. -/
theorem exists_utf8EncodeChar (c : Char) :
    ∃ b bs, String.utf8EncodeChar c = b :: bs ∧ ¬ Continues b := by
  have hBounds := char_bounds c
  have hVal : c.val.toNat = c.toNat := rfl
  have hFirst : ∀ n, n < 256 → (n < 0x80 ∨ 0xBF < n) → ¬ Continues (UInt8.ofNat n) := by
    rintro n hn hOut ⟨hLow, hHigh⟩
    rw [byte_toNat hn] at hLow hHigh
    omega
  simp only [String.utf8EncodeChar, hVal]
  split_ifs <;> exact ⟨_, _, rfl, hFirst _ (by omega) (by omega)⟩

/-- A text is read where it stands, whatever bytes are in front of it and behind it. -/
theorem infix_decodeLossy (front : List UInt8) {text : List Char} (hText : text ≠ [])
    (behind : List UInt8) : text <:+: decodeLossy (front ++ encode text ++ behind) := by
  obtain ⟨c, cs, rfl⟩ := List.exists_cons_of_ne_nil hText
  obtain ⟨b, bs, hEncode, hb⟩ := exists_utf8EncodeChar c
  have hBytes : front ++ encode (c :: cs) ++ behind =
      front ++ b :: (bs ++ (encode cs ++ behind)) := by
    rw [encode_cons, hEncode]
    simp
  obtain ⟨before, hBefore⟩ := scan_boundary bounded_none front hb (bs ++ (encode cs ++ behind))
  have hScan : scan none (b :: (bs ++ (encode cs ++ behind))) =
      (c :: cs).map some ++ scan none behind := by
    rw [← scan_encode_append, encode_cons, hEncode]
    simp
  rw [decodeLossy, hBytes, hBefore, hScan, List.map_append, List.map_append, List.map_map]
  have hRead : (c :: cs).map ((·.getD (Char.ofNat 0xFFFD)) ∘ some) = c :: cs :=
    List.map_id (c :: cs)
  rw [hRead, ← List.append_assoc]
  exact List.infix_append _ _ _

end Utf8
