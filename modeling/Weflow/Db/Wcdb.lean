import Weflow.Lib.Blocks
import Weflow.Lib.Chaining

/-!
# The page cipher of the databases

`db/wcdb.rs`. A database is encrypted page by page: 4016 bytes of ciphertext, the initialization
vector and the HMAC of both. The first page begins with the salt instead of its first 16 bytes,
which are the same in every database.

* `decryptPage_encryptPage` and `verifyPage1_encryptPage` are about one page.
* `decryptDb_encrypted` and `decryptDb_whole` are about a file, `pageCipher_roundTrip` collects them.

The block cipher, the HMAC and the derivation of its key are those of libraries and are parameters.
A range that is not in its buffer ends the program.
-/

namespace Weflow.Wcdb

open Buffer (Fixed slice)

def pageSize : Nat := 4096

/-- IV(16) + HMAC(64) -/
def reserveSize : Nat := 80

def ivSize : Nat := 16

def hmacSize : Nat := 64

def saltSize : Nat := 16

def usableSize : Nat := pageSize - reserveSize

/-- Standard SQLite header magic: `SQLite format 3` and a zero byte. -/
def sqliteHdr : Fixed UInt8 16 :=
  ⟨[0x53, 0x51, 0x4C, 0x69, 0x74, 0x65, 0x20, 0x66, 0x6F, 0x72, 0x6D, 0x61, 0x74, 0x20, 0x33, 0],
    rfl⟩

abbrev Key := Fixed UInt8 32

abbrev Iv := Fixed UInt8 16

abbrev Salt := Fixed UInt8 16

abbrev Page := Fixed UInt8 pageSize

/-- How a function ends that does not return a value. -/
inductive Failure
  | panic
  | bail (msg : String)
deriving DecidableEq, Repr

def orPanic {α : Type} (r : Option α) : Except Failure α := (r.map Except.ok).getD (.error .panic)

@[simp] theorem orPanic_some {α : Type} (a : α) : orPanic (some a) = .ok a := rfl

@[simp] theorem ok_bind {α β : Type} (a : α) (f : α → Except Failure β) :
    (Except.ok a >>= f) = f a := rfl

/-- The functions of the libraries. -/
structure Crypto where
  encryptBlock : Key → Fixed UInt8 16 → Fixed UInt8 16
  decryptBlock : Key → Fixed UInt8 16 → Fixed UInt8 16
  /-- password, salt and rounds -/
  pbkdf2HmacSha512 : Key → List UInt8 → Nat → Key
  hmacSha512 : Key → List UInt8 → Fixed UInt8 64

section

variable (C : Crypto)

/-- Derive the HMAC key. -/
def deriveMacKey (encKey : Key) (salt : Salt) : Key :=
  C.pbkdf2HmacSha512 encKey (salt.1.map (· ^^^ 0x3a)) 2

/-- The HMAC over `ciphertext || iv || LE32(pgno)`. -/
def pageMac (macKey : Key) (ctIv : List UInt8) (pgno : Nat) : Fixed UInt8 64 :=
  C.hmacSha512 macKey (ctIv ++ Blocks.leBytes 4 pgno)

/-- `NoPadding` takes whole blocks only. -/
def aesCbcDecrypt (key : Key) (iv : Iv) (ct : List UInt8) : Except Failure (List UInt8) :=
  if ct.length % 16 = 0 then .ok (Chaining.decrypt (C.decryptBlock key) iv ct)
  else .error (.bail "AES-CBC decrypt failed")

def aesCbcEncrypt (key : Key) (iv : Iv) (pt : List UInt8) : Except Failure (List UInt8) :=
  if pt.length % 16 = 0 then .ok (Chaining.encrypt (C.encryptBlock key) iv pt)
  else .error .panic

/-- Verify page 1 of an encrypted database against a candidate key. -/
def verifyPage1 (encKey : Key) (page : List UInt8) : Except Failure Bool := do
  if page.length < pageSize then return false
  else
    let salt ← orPanic ((slice page 0 saltSize).bind (Fixed.of 16))
    let macKey := deriveMacKey C encKey salt
    -- the HMAC input of page 1 excludes the salt
    let expected := pageMac C macKey (← orPanic (slice page 16 (usableSize + ivSize))) 1
    return expected.1 == (← orPanic (slice page (pageSize - hmacSize) page.length))

/-- Decrypt a single page into the plaintext SQLite layout. -/
def decryptPage (encKey : Key) (page : List UInt8) (pgno : Nat) : Except Failure Page := do
  if page.length < pageSize then throw (.bail s!"page {pgno} truncated: {page.length} bytes")
  else
    let iv ← orPanic ((slice page usableSize (usableSize + ivSize)).bind (Fixed.of 16))
    let ct ← orPanic (if pgno = 1 then slice page saltSize usableSize else slice page 0 usableSize)
    let pt ← aesCbcDecrypt C encKey iv ct
    let out : Page := Fixed.fill pageSize 0
    if pgno = 1 then
      let out ← orPanic (out.write 0 16 sqliteHdr.1)
      orPanic (out.write 16 (16 + pt.length) pt)
    else orPanic (out.write 0 pt.length pt)

/-- Encrypt a plaintext page into the on-disk layout, with the next IV of a stream. -/
def encryptPage (encKey : Key) (salt : Salt) (pgno : Nat) (plain : Page) (iv : Iv) :
    Except Failure Page := do
  let page : Page := Fixed.fill pageSize 0
  let page ← if pgno = 1 then orPanic (page.write 0 saltSize salt.1) else pure page
  let src ← orPanic
    (if pgno = 1 then slice plain.1 saltSize usableSize else slice plain.1 0 usableSize)
  let ct ← aesCbcEncrypt C encKey iv src
  let page ← orPanic
    (if pgno = 1 then page.write saltSize usableSize ct else page.write 0 usableSize ct)
  let page ← orPanic (page.write usableSize (usableSize + ivSize) iv.1)
  let macKey := deriveMacKey C encKey salt
  let hmacInput ← orPanic
    (if pgno = 1 then slice page.1 16 (usableSize + ivSize)
      else slice page.1 0 (usableSize + ivSize))
  let mac := pageMac C macKey hmacInput pgno
  orPanic (page.write (pageSize - hmacSize) pageSize mac.1)

/-- The pages from `pgno` on, with the buffer of the page before; `count` of them. -/
def decryptPages (encKey : Key) (encrypted : List UInt8) :
    Nat → Nat → Page → Except Failure (List UInt8)
  | 0, _, _ => return []
  | count + 1, pgno, pageBuf => do
    let start := (pgno - 1) * pageSize
    let stop := min (start + pageSize) encrypted.length
    let pageBuf ← orPanic (pageBuf.write 0 (stop - start) (← orPanic (slice encrypted start stop)))
    let pageBuf ← if stop - start < pageSize then
        orPanic (pageBuf.write (stop - start) pageSize
          (List.replicate (pageSize - (stop - start)) 0))
      else pure pageBuf
    let dec ← decryptPage C encKey pageBuf.1 pgno
    return dec.1 ++ (← decryptPages encKey encrypted count (pgno + 1) pageBuf)

/-- `div_ceil(PAGE_SIZE)` -/
def totalPages (length : Nat) : Nat := (length + pageSize - 1) / pageSize

/-- Decrypt a whole encrypted database file into plaintext SQLite bytes. -/
def decryptDb (encKey : Key) (encrypted : List UInt8) : Except Failure (List UInt8) := do
  if encrypted.length < pageSize then
    throw (.bail s!"db file too small ({encrypted.length} bytes)")
  else
    let first ← orPanic (slice encrypted 0 pageSize)
    if ← verifyPage1 C encKey first then
      decryptPages C encKey encrypted (totalPages encrypted.length % 2 ^ 32) 1
        (Fixed.fill pageSize 0)
    else throw (.bail "page 1 HMAC verification failed (wrong key or not a WeChat 4.0 db)")

end

/-! ## One page -/

section

variable {C : Crypto}

/-- The plaintext in the part of a page that is not reserved. -/
def plainBody (C : Crypto) (encKey : Key) (iv : Iv) (body : List UInt8) (pgno : Nat) :
    List UInt8 :=
  if pgno = 1 then sqliteHdr.1 ++ Chaining.decrypt (C.decryptBlock encKey) iv (body.drop saltSize)
  else Chaining.decrypt (C.decryptBlock encKey) iv body

def zeros (n : Nat) : List UInt8 := List.replicate n 0

@[simp] theorem length_zeros (n : Nat) : (zeros n).length = n := List.length_replicate

theorem zeros_add (n m : Nat) : zeros (n + m) = zeros n ++ zeros m :=
  (List.replicate_append_replicate ..).symm

/-- The first range of a buffer of zeros is written. -/
theorem write_zeros {n : Nat} {s : List UInt8} (h : s.length ≤ n) :
    ∃ out : Fixed UInt8 n, (Fixed.fill n (0 : UInt8)).write 0 s.length s = some out ∧
      out.1 = s ++ zeros (n - s.length) := by
  have hZeros : (Fixed.fill n (0 : UInt8)).1 = [] ++ zeros s.length ++ zeros (n - s.length) := by
    rw [List.nil_append, ← zeros_add, Nat.add_sub_cancel' h]
    rfl
  exact Fixed.write_eq hZeros rfl (by rw [length_zeros]; exact (Nat.zero_add _).symm)
    (length_zeros _).symm

/-- A page that is whole is decrypted, and its reserve is zero. -/
theorem decryptPage_eq (encKey : Key) {page body post : List UInt8} {iv : Iv} (pgno : Nat)
    (h : page = body ++ iv.1 ++ post) (hBody : body.length = usableSize)
    (hPost : hmacSize ≤ post.length) :
    ∃ out : Page, decryptPage C encKey page pgno = .ok out ∧
      out.1 = plainBody C encKey iv body pgno ++ zeros reserveSize := by
  have hIv := iv.2
  have hLength : ¬ page.length < pageSize := by
    rw [h, List.length_append, List.length_append]
    simp only [usableSize, pageSize, reserveSize, hmacSize] at *
    omega
  have hIvSlice : slice page usableSize (usableSize + ivSize) = some iv.1 :=
    Buffer.slice_eq h hBody.symm (by rw [hBody, hIv]; rfl)
  have hSplit : page = body.take saltSize ++ body.drop saltSize ++ (iv.1 ++ post) := by
    rw [List.take_append_drop, h, List.append_assoc]
  have hSalt : (body.take saltSize).length = saltSize := by
    rw [List.length_take, hBody]
    rfl
  have hRest : (body.drop saltSize).length = 4000 := by
    rw [List.length_drop, hBody]
    rfl
  unfold decryptPage
  rw [if_neg hLength, hIvSlice, Option.bind_some, Fixed.of_eq hIv, plainBody]
  simp only [orPanic_some, ok_bind]
  by_cases hFirst : pgno = 1
  · have hCt : slice page saltSize usableSize = some (body.drop saltSize) :=
      Buffer.slice_eq hSplit hSalt.symm (by rw [hSalt, hRest]; rfl)
    simp only [if_pos hFirst, hCt, orPanic_some, ok_bind]
    have hPt : aesCbcDecrypt C encKey iv (body.drop saltSize) =
        .ok (Chaining.decrypt (C.decryptBlock encKey) iv (body.drop saltSize)) :=
      if_pos (by rw [hRest])
    rw [hPt, ok_bind]
    set pt := Chaining.decrypt (C.decryptBlock encKey) iv (body.drop saltSize) with hPtEq
    have hPtLength : pt.length = 4000 := by rw [hPtEq, Chaining.length_decrypt, hRest]
    obtain ⟨out, hOut, hVal⟩ := write_zeros (n := pageSize) (s := sqliteHdr.1) (by decide)
    rw [sqliteHdr.2] at hOut hVal
    have hZeros : zeros (pageSize - 16) = zeros 4000 ++ zeros reserveSize := zeros_add 4000 80
    rw [hZeros, ← List.append_assoc] at hVal
    obtain ⟨out', hOut', hVal'⟩ := Fixed.write_eq (s := pt) (i := 16)
      (j := 16 + pt.length) hVal sqliteHdr.2.symm
      (by rw [sqliteHdr.2, hPtLength, length_zeros]) (by rw [hPtLength, length_zeros])
    refine ⟨out', ?_, hVal'⟩
    rw [hOut, orPanic_some, ok_bind, hOut', orPanic_some]
  · have hCt : slice page 0 usableSize = some body :=
      Buffer.slice_eq (p := []) (h.trans (List.append_assoc ..)) rfl (by rw [hBody]; rfl)
    simp only [if_neg hFirst, hCt, orPanic_some, ok_bind]
    have hPt : aesCbcDecrypt C encKey iv body =
        .ok (Chaining.decrypt (C.decryptBlock encKey) iv body) := if_pos (by rw [hBody]; rfl)
    rw [hPt, ok_bind]
    set pt := Chaining.decrypt (C.decryptBlock encKey) iv body with hPtEq
    have hPtLength : pt.length = usableSize := by rw [hPtEq, Chaining.length_decrypt, hBody]
    obtain ⟨out, hOut, hVal⟩ := write_zeros (n := pageSize) (s := pt)
      (by rw [hPtLength]; decide)
    refine ⟨out, ?_, ?_⟩
    · rw [hOut, orPanic_some]
    · rw [hVal, hPtLength]
      rfl

/-- The layout of an encrypted page. -/
def cipherBody (C : Crypto) (encKey : Key) (salt : Salt) (pgno : Nat) (plain : Page) (iv : Iv) :
    List UInt8 :=
  if pgno = 1 then salt.1 ++ Chaining.encrypt (C.encryptBlock encKey) iv
    ((plain.1.take usableSize).drop saltSize)
  else Chaining.encrypt (C.encryptBlock encKey) iv (plain.1.take usableSize)

/-- What the HMAC of a page is over. -/
def macBody (pgno : Nat) (body : List UInt8) : List UInt8 :=
  if pgno = 1 then body.drop saltSize else body

theorem length_usable (plain : Page) : (plain.1.take usableSize).length = usableSize := by
  rw [List.length_take, plain.2]
  rfl

theorem length_cipherBody (encKey : Key) (salt : Salt) (pgno : Nat) (plain : Page) (iv : Iv) :
    (cipherBody C encKey salt pgno plain iv).length = usableSize := by
  unfold cipherBody
  split
  · rw [List.length_append, salt.2, Chaining.length_encrypt, List.length_drop, length_usable]
    rfl
  · rw [Chaining.length_encrypt, length_usable]

/-- The vector and the HMAC are put behind the ciphertext. -/
theorem seal_page (macKey : Key) (pgno : Nat) (iv : Iv) {page : Page} {body : List UInt8}
    (h : page.1 = body ++ zeros reserveSize) (hBody : body.length = usableSize) :
    ∃ out : Page, (do
      let page ← orPanic (page.write usableSize (usableSize + ivSize) iv.1)
      let hmacInput ← orPanic
        (if pgno = 1 then slice page.1 16 (usableSize + ivSize)
          else slice page.1 0 (usableSize + ivSize))
      orPanic (page.write (pageSize - hmacSize) pageSize
        (pageMac C macKey hmacInput pgno).1)) = .ok out ∧
      out.1 = body ++ iv.1 ++ (pageMac C macKey (macBody pgno body ++ iv.1) pgno).1 := by
  have hIv : iv.1.length = ivSize := iv.2
  have hZeros : zeros reserveSize = zeros ivSize ++ zeros hmacSize := zeros_add 16 64
  rw [hZeros, ← List.append_assoc] at h
  obtain ⟨page', hPage', hVal'⟩ := Fixed.write_eq (s := iv.1) (i := usableSize)
    (j := usableSize + ivSize) h hBody.symm (by rw [hBody, length_zeros])
    (by rw [hIv, length_zeros])
  have hFront : (body ++ iv.1).length = pageSize - hmacSize := by
    rw [List.length_append, hBody, hIv]
    rfl
  have hInput : (if pgno = 1 then slice page'.1 16 (usableSize + ivSize)
      else slice page'.1 0 (usableSize + ivSize)) = some (macBody pgno body ++ iv.1) := by
    unfold macBody
    split
    · have hSplit : page'.1 = body.take saltSize ++ (body.drop saltSize ++ iv.1) ++
          zeros hmacSize := by
        rw [hVal', ← List.append_assoc (body.take saltSize), List.take_append_drop]
      refine Buffer.slice_eq hSplit ?_ ?_
      · rw [List.length_take, hBody]
        rfl
      · rw [List.length_take, List.length_append, List.length_drop, hBody, hIv]
        rfl
    · refine Buffer.slice_eq (p := []) hVal' rfl ?_
      rw [hFront]
      rfl
  have hMac := (pageMac C macKey (macBody pgno body ++ iv.1) pgno).2
  have hLast : page'.1 = body ++ iv.1 ++ zeros hmacSize ++ [] := by rw [hVal', List.append_nil]
  obtain ⟨out, hOut, hVal⟩ := Fixed.write_eq
    (s := (pageMac C macKey (macBody pgno body ++ iv.1) pgno).1) (i := pageSize - hmacSize)
    (j := pageSize) hLast hFront.symm (by rw [hFront, length_zeros]; rfl)
    (by rw [hMac, length_zeros]; rfl)
  refine ⟨out, ?_, by rw [hVal, List.append_nil]⟩
  rw [hPage', orPanic_some, ok_bind, hInput, orPanic_some, ok_bind, hOut, orPanic_some]

/-- A page is laid out as ciphertext, vector and HMAC. -/
theorem encryptPage_eq (encKey : Key) (salt : Salt) (pgno : Nat) (plain : Page) (iv : Iv) :
    ∃ page : Page, encryptPage C encKey salt pgno plain iv = .ok page ∧
      page.1 = cipherBody C encKey salt pgno plain iv ++ iv.1 ++
        (pageMac C (deriveMacKey C encKey salt)
          (macBody pgno (cipherBody C encKey salt pgno plain iv) ++ iv.1) pgno).1 := by
  have hBody := length_cipherBody (C := C) encKey salt pgno plain iv
  have hSplit : plain.1 = plain.1.take usableSize ++ plain.1.drop usableSize :=
    (List.take_append_drop _ _).symm
  have hUsable := length_usable plain
  by_cases hFirst : pgno = 1
  · have hBodyEq : cipherBody C encKey salt pgno plain iv = salt.1 ++
        Chaining.encrypt (C.encryptBlock encKey) iv ((plain.1.take usableSize).drop saltSize) :=
      if_pos hFirst
    have hSrcLength : ((plain.1.take usableSize).drop saltSize).length = 4000 := by
      rw [List.length_drop, hUsable]
      rfl
    obtain ⟨page, hPage, hVal⟩ := write_zeros (n := pageSize) (s := salt.1)
      (by rw [salt.2]; decide)
    rw [salt.2] at hPage hVal
    have hZeros : zeros (pageSize - 16) = zeros 4000 ++ zeros reserveSize := zeros_add 4000 80
    rw [hZeros, ← List.append_assoc] at hVal
    have hSrc : slice plain.1 saltSize usableSize =
        some ((plain.1.take usableSize).drop saltSize) := by
      refine Buffer.slice_eq (p := (plain.1.take usableSize).take saltSize)
        (q := plain.1.drop usableSize) ?_ ?_ ?_
      · rw [List.take_append_drop, List.take_append_drop]
      · rw [List.length_take, hUsable]
        rfl
      · rw [List.length_take, hUsable, hSrcLength]
        rfl
    have hCt : aesCbcEncrypt C encKey iv ((plain.1.take usableSize).drop saltSize) =
        .ok (Chaining.encrypt (C.encryptBlock encKey) iv
          ((plain.1.take usableSize).drop saltSize)) := if_pos (by rw [hSrcLength])
    obtain ⟨page', hPage', hVal'⟩ := Fixed.write_eq (i := saltSize) (j := usableSize)
      (s := Chaining.encrypt (C.encryptBlock encKey) iv ((plain.1.take usableSize).drop saltSize))
      hVal salt.2.symm (by rw [salt.2, length_zeros]; rfl)
      (by rw [Chaining.length_encrypt, hSrcLength, length_zeros])
    rw [← hBodyEq] at hVal'
    obtain ⟨out, hOut, hEq⟩ := seal_page (C := C) (deriveMacKey C encKey salt) pgno iv hVal' hBody
    refine ⟨out, ?_, hEq⟩
    rw [← hOut]
    unfold encryptPage
    simp only [if_pos hFirst]
    rw [show saltSize = 16 from rfl] at hPage' hSrc hCt ⊢
    rw [hPage, orPanic_some, ok_bind, hSrc, orPanic_some, ok_bind, hCt, ok_bind, hPage',
      orPanic_some, ok_bind]
  · have hBodyEq : cipherBody C encKey salt pgno plain iv =
        Chaining.encrypt (C.encryptBlock encKey) iv (plain.1.take usableSize) := if_neg hFirst
    have hSrc : slice plain.1 0 usableSize = some (plain.1.take usableSize) :=
      Buffer.slice_eq (p := []) hSplit rfl (by rw [hUsable]; rfl)
    have hCt : aesCbcEncrypt C encKey iv (plain.1.take usableSize) =
        .ok (Chaining.encrypt (C.encryptBlock encKey) iv (plain.1.take usableSize)) :=
      if_pos (by rw [hUsable]; rfl)
    have hCtLength : (Chaining.encrypt (C.encryptBlock encKey) iv
        (plain.1.take usableSize)).length = usableSize := by
      rw [Chaining.length_encrypt, hUsable]
    obtain ⟨page, hPage, hVal⟩ := write_zeros (n := pageSize)
      (s := Chaining.encrypt (C.encryptBlock encKey) iv (plain.1.take usableSize))
      (by rw [hCtLength]; decide)
    rw [hCtLength] at hPage hVal
    rw [← hBodyEq] at hVal
    obtain ⟨out, hOut, hEq⟩ := seal_page (C := C) (deriveMacKey C encKey salt) pgno iv hVal hBody
    refine ⟨out, ?_, hEq⟩
    rw [← hOut]
    unfold encryptPage
    simp only [if_neg hFirst, pure_bind]
    rw [hSrc, orPanic_some, ok_bind, hCt, ok_bind, hPage, orPanic_some, ok_bind]

/-- A plaintext page with its reserve zeroed. -/
def blankReserve (plain : Page) : List UInt8 := plain.1.take usableSize ++ zeros reserveSize

theorem plainBody_cipherBody (hInverse : ∀ key b, C.decryptBlock key (C.encryptBlock key b) = b)
    (encKey : Key) (salt : Salt) {pgno : Nat} {plain : Page} (iv : Iv)
    (hHeader : pgno = 1 → plain.1.take saltSize = sqliteHdr.1) :
    plainBody C encKey iv (cipherBody C encKey salt pgno plain iv) pgno =
      plain.1.take usableSize := by
  unfold plainBody cipherBody
  split
  · rename_i hFirst
    have hDrop : (salt.1 ++ Chaining.encrypt (C.encryptBlock encKey) iv
        ((plain.1.take usableSize).drop saltSize)).drop saltSize =
        Chaining.encrypt (C.encryptBlock encKey) iv
          ((plain.1.take usableSize).drop saltSize) := List.drop_left' salt.2
    have hTake : (plain.1.take usableSize).take saltSize = sqliteHdr.1 := by
      rw [List.take_take, ← hHeader hFirst]
      rfl
    rw [hDrop, Chaining.decrypt_encrypt (hInverse encKey), ← hTake, List.take_append_drop]
  · exact Chaining.decrypt_encrypt (hInverse encKey) _ _

/-- Decrypting a page inverts encrypting it. -/
theorem decryptPage_encryptPage
    (hInverse : ∀ key b, C.decryptBlock key (C.encryptBlock key b) = b) (encKey : Key)
    (salt : Salt) (pgno : Nat) (plain : Page) (iv : Iv)
    (hHeader : pgno = 1 → plain.1.take saltSize = sqliteHdr.1) :
    ∃ page out : Page, encryptPage C encKey salt pgno plain iv = .ok page ∧
      (pgno = 1 → page.1.take saltSize = salt.1) ∧
      decryptPage C encKey page.1 pgno = .ok out ∧ out.1 = blankReserve plain := by
  obtain ⟨page, hPage, hVal⟩ := encryptPage_eq (C := C) encKey salt pgno plain iv
  obtain ⟨out, hOut, hPlain⟩ := decryptPage_eq (C := C) encKey pgno hVal
    (length_cipherBody encKey salt pgno plain iv) (Fixed.length_val _).ge
  refine ⟨page, out, hPage, fun hFirst => ?_, hOut, ?_⟩
  · rw [hVal, cipherBody, if_pos hFirst, List.append_assoc, List.append_assoc]
    exact List.take_left' salt.2
  · rw [hPlain, plainBody_cipherBody hInverse encKey salt iv hHeader]
    rfl

/-- What the verification computes. -/
theorem verifyPage1_eq (encKey : Key) {page body mac : List UInt8} (salt : Salt)
    (h : page = salt.1 ++ body ++ mac) (hBody : body.length = usableSize)
    (hMac : mac.length = hmacSize) :
    verifyPage1 C encKey page =
      .ok ((pageMac C (deriveMacKey C encKey salt) body 1).1 == mac) := by
  have hSalt : salt.1.length = saltSize := salt.2
  have hLength : page.length = pageSize := by
    rw [h, List.length_append, List.length_append, hSalt, hBody, hMac]
    rfl
  have hSaltSlice : slice page 0 saltSize = some salt.1 :=
    Buffer.slice_eq (p := []) (h.trans (List.append_assoc ..)) rfl (by rw [hSalt]; rfl)
  have hBodySlice : slice page 16 (usableSize + ivSize) = some body :=
    Buffer.slice_eq h hSalt.symm (by rw [hSalt, hBody]; rfl)
  have hMacSlice : slice page (pageSize - hmacSize) page.length = some mac := by
    refine Buffer.slice_eq (q := []) (h.trans (List.append_nil _).symm) ?_ ?_
    · rw [List.length_append, hSalt, hBody]
      rfl
    · rw [List.length_append, hSalt, hBody, hMac, hLength]
      rfl
  unfold verifyPage1
  rw [if_neg (by omega), hSaltSlice, Option.bind_some, Fixed.of_eq salt.2, hBodySlice, hMacSlice]
  rfl

/-- The first page is accepted under its key. -/
theorem verifyPage1_encryptPage (encKey : Key) (salt : Salt) (plain : Page) (iv : Iv) {page : Page}
    (h : encryptPage C encKey salt 1 plain iv = .ok page) :
    verifyPage1 C encKey page.1 = .ok true := by
  obtain ⟨page', hPage, hVal⟩ := encryptPage_eq (C := C) encKey salt 1 plain iv
  obtain rfl : page = page' := Except.ok.inj (h.symm.trans hPage)
  have hBody : cipherBody C encKey salt 1 plain iv = salt.1 ++
      macBody 1 (cipherBody C encKey salt 1 plain iv) := by
    rw [macBody, if_pos rfl, cipherBody, if_pos rfl]
    exact congrArg (salt.1 ++ ·) (List.drop_left' salt.2).symm
  have hLength := length_cipherBody (C := C) encKey salt 1 plain iv
  rw [hBody, List.length_append, salt.2] at hLength
  rw [hBody, List.append_assoc salt.1, ← hBody] at hVal
  rw [verifyPage1_eq encKey salt hVal ?_ (Fixed.length_val _)]
  · simp
  · rw [List.length_append, iv.2]
    omega

/-! ## A file -/

theorem exists_fixed {n : Nat} {a : List UInt8} (h : a.length = n) : ∃ b : Fixed UInt8 n, b.1 = a :=
  ⟨⟨a, h⟩, rfl⟩

/-- Every page of full length is decrypted. -/
theorem decryptPage_page (encKey : Key) (page : Page) (pgno : Nat) :
    ∃ out : Page, decryptPage C encKey page.1 pgno = .ok out := by
  have hLength := page.2
  obtain ⟨iv, hIv⟩ := exists_fixed (n := 16) (a := (page.1.drop usableSize).take ivSize) (by
    rw [List.length_take, List.length_drop, hLength]
    rfl)
  have hSplit : page.1 = page.1.take usableSize ++ iv.1 ++ (page.1.drop usableSize).drop ivSize := by
    rw [hIv, List.append_assoc, List.take_append_drop, List.take_append_drop]
  obtain ⟨out, hOut, -⟩ := decryptPage_eq (C := C) encKey pgno hSplit (length_usable page)
    (by rw [List.length_drop, List.length_drop, hLength]; decide)
  exact ⟨out, hOut⟩

/-- A page of a file, filled up with zeros. -/
def padPage (encrypted : List UInt8) (i : Nat) : List UInt8 :=
  (encrypted.drop (i * pageSize)).take pageSize ++
    zeros (pageSize - (encrypted.length - i * pageSize))

/-- One page of the loop. -/
theorem decryptPages_succ (encKey : Key) {encrypted : List UInt8} {i : Nat}
    (h : i * pageSize < encrypted.length) (count : Nat) (pageBuf : Page) :
    ∃ buf : Page, buf.1 = padPage encrypted i ∧
      decryptPages C encKey encrypted (count + 1) (i + 1) pageBuf = (do
        let dec ← decryptPage C encKey buf.1 (i + 1)
        return dec.1 ++ (← decryptPages C encKey encrypted count (i + 1 + 1) buf)) := by
  set stop := min (i * pageSize + pageSize) encrypted.length with hStop
  set src := (encrypted.drop (i * pageSize)).take (stop - i * pageSize) with hSrcEq
  have hSrcLength : src.length = stop - i * pageSize := by
    rw [hSrcEq, List.length_take, List.length_drop]
    omega
  have hSrc : slice encrypted (i * pageSize) stop = some src := by
    rw [slice, if_pos ⟨by omega, by omega⟩, hSrcEq, List.drop_take]
  have hFull : src = (encrypted.drop (i * pageSize)).take pageSize := by
    rw [hSrcEq]
    apply List.take_eq_take_iff.mpr
    rw [List.length_drop]
    omega
  have hBuf : pageBuf.1 = [] ++ pageBuf.1.take src.length ++ pageBuf.1.drop src.length := by
    rw [List.nil_append, List.take_append_drop]
  have hTake : (pageBuf.1.take src.length).length = src.length := by
    rw [List.length_take, pageBuf.2]
    omega
  obtain ⟨buf, hWrite, hVal⟩ := Fixed.write_eq (i := 0) (j := src.length) hBuf rfl
    (by rw [hTake]; exact (Nat.zero_add _).symm) hTake.symm
  rw [List.nil_append] at hVal
  simp only [decryptPages, Nat.add_sub_cancel]
  rw [← hStop, hSrc, ← hSrcLength]
  simp only [orPanic_some, ok_bind, hWrite]
  by_cases hShort : src.length < pageSize
  · -- the last page is filled up
    have hLast : buf.1 = src ++ pageBuf.1.drop src.length ++ [] := by rw [hVal, List.append_nil]
    have hDrop : (pageBuf.1.drop src.length).length = pageSize - src.length := by
      rw [List.length_drop, pageBuf.2]
    obtain ⟨buf', hWrite', hVal'⟩ := Fixed.write_eq (i := src.length) (j := pageSize)
      (s := zeros (pageSize - src.length)) hLast rfl (by omega)
      (by rw [hDrop, length_zeros])
    refine ⟨buf', ?_, ?_⟩
    · rw [hVal', padPage, ← hFull, List.append_nil]
      congr 2
      omega
    · rw [if_pos hShort]
      have hZeros : List.replicate (pageSize - src.length) (0 : UInt8) =
          zeros (pageSize - src.length) := rfl
      rw [hZeros, hWrite', orPanic_some, ok_bind]
  · refine ⟨buf, ?_, ?_⟩
    · have hNil : pageBuf.1.drop src.length = [] := by
        rw [List.drop_eq_nil_iff, pageBuf.2]
        omega
      have hNone : pageSize - (encrypted.length - i * pageSize) = 0 := by omega
      rw [hVal, padPage, ← hFull, hNil, hNone]
      rfl
    · rw [if_neg hShort]
      rfl

/-- Pages that have begun are decrypted, each to a whole one. -/
theorem decryptPages_whole (encKey : Key) {encrypted : List UInt8} (count : Nat) {i : Nat}
    (h : ∀ j < i + count, j * pageSize < encrypted.length) (pageBuf : Page) :
    ∃ out, decryptPages C encKey encrypted count (i + 1) pageBuf = .ok out ∧
      out.length = count * pageSize := by
  induction count generalizing i pageBuf with
  | zero => exact ⟨[], rfl, (Nat.zero_mul _).symm⟩
  | succ count ih =>
    obtain ⟨buf, -, hStep⟩ := decryptPages_succ (C := C) encKey (h i (by omega)) count pageBuf
    obtain ⟨page, hPage⟩ := decryptPage_page (C := C) encKey buf (i + 1)
    obtain ⟨out, hOut, hLength⟩ := ih (i := i + 1) (fun j hj => h j (by omega)) buf
    refine ⟨page.1 ++ out, ?_, ?_⟩
    · rw [hStep, hPage, ok_bind, hOut]
      rfl
    · rw [List.length_append, hLength, page.2, Nat.succ_mul, Nat.add_comm]

theorem lt_totalPages {length j : Nat} (h : j < totalPages length) : j * pageSize < length := by
  simp only [totalPages, pageSize] at *
  omega

theorem totalPages_mul (n : Nat) : totalPages (n * pageSize) = n := by
  simp only [totalPages, pageSize]
  omega

/-- Any input of fewer than `2 ^ 32` pages is refused, or decrypted to as many pages as have
begun. -/
theorem decryptDb_whole (encKey : Key) {encrypted : List UInt8}
    (h : totalPages encrypted.length < 2 ^ 32) :
    (∃ msg, decryptDb C encKey encrypted = .error (.bail msg)) ∨
      ∃ out, decryptDb C encKey encrypted = .ok out ∧
        out.length = totalPages encrypted.length * pageSize := by
  unfold decryptDb
  by_cases hShort : encrypted.length < pageSize
  · rw [if_pos hShort]
    exact .inl ⟨_, rfl⟩
  · obtain ⟨first, hFirst, hLength⟩ := Buffer.slice_some (a := encrypted) (Nat.zero_le pageSize)
      (Nat.not_lt.mp hShort)
    rw [if_neg hShort, hFirst, orPanic_some, ok_bind]
    obtain ⟨salt, hSalt⟩ := exists_fixed (n := 16) (a := first.take saltSize) (by
      rw [List.length_take, hLength]
      rfl)
    have hSplit : first = salt.1 ++ (first.drop saltSize).take usableSize ++
        (first.drop saltSize).drop usableSize := by
      rw [hSalt, List.append_assoc, List.take_append_drop, List.take_append_drop]
    rw [verifyPage1_eq encKey salt hSplit
      (by rw [List.length_take, List.length_drop, hLength]; rfl)
      (by rw [List.length_drop, List.length_drop, hLength]; rfl), ok_bind]
    split
    · right
      rw [Nat.mod_eq_of_lt h]
      obtain ⟨out, hOut, hWhole⟩ := decryptPages_whole (C := C) encKey
        (totalPages encrypted.length) (i := 0)
        (fun j hj => lt_totalPages ((Nat.zero_add _).subst hj)) (Fixed.fill pageSize 0)
      exact ⟨out, hOut, hWhole⟩
    · exact .inl ⟨_, rfl⟩

/-- The pages of a database from `pgno` on, encrypted one after the other. -/
def encryptPages (C : Crypto) (encKey : Key) (salt : Salt) (ivs : Nat → Iv) :
    Nat → List Page → Except Failure (List UInt8)
  | _, [] => return []
  | pgno, plain :: plains => do
    let page ← encryptPage C encKey salt pgno plain (ivs pgno)
    return page.1 ++ (← encryptPages C encKey salt ivs (pgno + 1) plains)

/-- The first page begins with the header. -/
def HasHeader (plains : List Page) : Prop :=
  ∃ first rest, plains = first :: rest ∧ first.1.take saltSize = sqliteHdr.1

/-- The pages from the one behind `i` on, wherever they stand. -/
theorem decryptPages_encryptPages
    (hInverse : ∀ key b, C.decryptBlock key (C.encryptBlock key b) = b) (encKey : Key)
    (salt : Salt) (ivs : Nat → Iv) (plains : List Page) (i : Nat)
    (hHeader : i = 0 → ∀ plain ∈ plains.head?, plain.1.take saltSize = sqliteHdr.1) :
    ∃ rest, encryptPages C encKey salt ivs (i + 1) plains = .ok rest ∧
      rest.length = plains.length * pageSize ∧
      ∀ pre pageBuf, pre.length = i * pageSize →
        decryptPages C encKey (pre ++ rest) plains.length (i + 1) pageBuf =
          .ok (plains.flatMap blankReserve) := by
  induction plains generalizing i with
  | nil => exact ⟨[], rfl, (Nat.zero_mul _).symm, fun _ _ _ => rfl⟩
  | cons plain plains ih =>
    obtain ⟨page, out, hPage, -, hOut, hBlank⟩ := decryptPage_encryptPage hInverse encKey salt
      (i + 1) plain (ivs (i + 1)) fun hFirst => hHeader (by omega) plain rfl
    obtain ⟨rest, hRest, hLength, hDecrypt⟩ := ih (i + 1) fun hZero => absurd hZero (by omega)
    refine ⟨page.1 ++ rest, ?_, ?_, fun pre pageBuf hPre => ?_⟩
    · rw [encryptPages, hPage, ok_bind, hRest]
      rfl
    · rw [List.length_append, hLength, page.2, List.length_cons, Nat.succ_mul, Nat.add_comm]
    · have hStarted : i * pageSize < (pre ++ (page.1 ++ rest)).length := by
        have hSize : 0 < pageSize := by decide
        rw [List.length_append, List.length_append, hPre, page.2]
        omega
      obtain ⟨buf, hBuf, hStep⟩ := decryptPages_succ (C := C) encKey hStarted plains.length pageBuf
      have hPad : padPage (pre ++ (page.1 ++ rest)) i = page.1 := by
        have hNone : pageSize - ((pre ++ (page.1 ++ rest)).length - i * pageSize) = 0 := by
          rw [List.length_append, List.length_append, hPre, page.2]
          omega
        rw [padPage, hNone, ← hPre, List.drop_left, List.take_left' page.2]
        exact List.append_nil _
      have hPre' : (pre ++ page.1).length = (i + 1) * pageSize := by
        rw [List.length_append, hPre, page.2, Nat.succ_mul]
      have hNext := hDecrypt (pre ++ page.1) buf hPre'
      rw [List.append_assoc] at hNext
      rw [List.length_cons, hStep, hBuf, hPad, hOut, ok_bind, hNext, List.flatMap_cons, hBlank]
      rfl

/-- A file of encrypted pages is decrypted to the pages with their reserves zeroed. -/
theorem decryptDb_encrypted
    (hInverse : ∀ key b, C.decryptBlock key (C.encryptBlock key b) = b) (encKey : Key)
    (salt : Salt) (ivs : Nat → Iv) {plains : List Page} (hCount : plains.length < 2 ^ 32)
    (hHeader : HasHeader plains) :
    ∃ encrypted, encryptPages C encKey salt ivs 1 plains = .ok encrypted ∧
      verifyPage1 C encKey (encrypted.take pageSize) = .ok true ∧
      decryptDb C encKey encrypted = .ok (plains.flatMap blankReserve) := by
  obtain ⟨first, others, rfl, hFirst⟩ := hHeader
  obtain ⟨encrypted, hEncrypted, hLength, hDecrypt⟩ := decryptPages_encryptPages hInverse encKey
    salt ivs (first :: others) 0 fun _ plain hPlain => by
      obtain rfl : first = plain := Option.some.inj hPlain
      exact hFirst
  obtain ⟨page, hPage, -⟩ := encryptPage_eq (C := C) encKey salt 1 first (ivs 1)
  have hTake : encrypted.take pageSize = page.1 := by
    rw [encryptPages, hPage, ok_bind] at hEncrypted
    cases hRest : encryptPages C encKey salt ivs (0 + 1 + 1) others with
    | error e =>
      rw [hRest] at hEncrypted
      cases hEncrypted
    | ok rest =>
      rw [hRest] at hEncrypted
      obtain rfl : page.1 ++ rest = encrypted := Except.ok.inj hEncrypted
      exact List.take_left' page.2
  have hVerify : verifyPage1 C encKey (encrypted.take pageSize) = .ok true := by
    rw [hTake]
    exact verifyPage1_encryptPage encKey salt first (ivs 1) hPage
  refine ⟨encrypted, hEncrypted, hVerify, ?_⟩
  have hLong : ¬ encrypted.length < pageSize := by
    rw [hLength, List.length_cons, Nat.succ_mul]
    omega
  have hSlice : slice encrypted 0 pageSize = some (encrypted.take pageSize) :=
    if_pos ⟨Nat.zero_le _, Nat.not_lt.mp hLong⟩
  have hAll := hDecrypt [] (Fixed.fill pageSize 0) (Nat.zero_mul _).symm
  rw [List.nil_append] at hAll
  unfold decryptDb
  rw [if_neg hLong, hSlice, orPanic_some, ok_bind, hVerify, ok_bind, if_pos rfl, hLength,
    totalPages_mul, Nat.mod_eq_of_lt hCount]
  exact hAll

/-- The page cipher round-trips, page by page and for a whole file, and a file that was not made by
it does no harm. -/
theorem pageCipher_roundTrip
    (hInverse : ∀ key b, C.decryptBlock key (C.encryptBlock key b) = b) :
    (∀ (encKey : Key) (salt : Salt) (ivs : Nat → Iv) (plains : List Page),
      plains.length < 2 ^ 32 → HasHeader plains →
      ∃ encrypted, encryptPages C encKey salt ivs 1 plains = .ok encrypted ∧
        verifyPage1 C encKey (encrypted.take pageSize) = .ok true ∧
        decryptDb C encKey encrypted = .ok (plains.flatMap blankReserve)) ∧
    (∀ (encKey : Key) (salt : Salt) (pgno : Nat) (plain : Page) (iv : Iv),
      (pgno = 1 → plain.1.take saltSize = sqliteHdr.1) →
      ∃ page out : Page, encryptPage C encKey salt pgno plain iv = .ok page ∧
        (pgno = 1 → page.1.take saltSize = salt.1) ∧
        decryptPage C encKey page.1 pgno = .ok out ∧ out.1 = blankReserve plain) ∧
    ∀ (encKey : Key) (encrypted : List UInt8), totalPages encrypted.length < 2 ^ 32 →
      (∃ msg, decryptDb C encKey encrypted = .error (.bail msg)) ∨
        ∃ out, decryptDb C encKey encrypted = .ok out ∧
          out.length = totalPages encrypted.length * pageSize :=
  ⟨fun encKey salt ivs _ hCount hHeader => decryptDb_encrypted hInverse encKey salt ivs hCount hHeader,
    fun encKey salt pgno plain iv hHeader =>
      decryptPage_encryptPage hInverse encKey salt pgno plain iv hHeader,
    fun encKey _ hCount => decryptDb_whole encKey hCount⟩

end

/-! ## Two pages -/

def pageKey : Key := Fixed.fill 32 7

def pageSalt : Salt := Fixed.fill 16 1

/-- AES-256 of the zero block under `pageKey`. -/
def zeroCipher : Fixed UInt8 16 :=
  ⟨[0x0A, 0x4D, 0xEE, 0x87, 0xE7, 0x6C, 0xE0, 0xD4, 0x7C, 0x6E, 0x1C, 0xDF, 0xC7, 0x6D, 0x20, 0xA3],
    rfl⟩

/-- That block `k` times. With it as the initialization vector it is its own ciphertext. -/
def cipherBlocks (k : Nat) : List UInt8 := (List.replicate k zeroCipher.1).flatten

/-- PBKDF2-HMAC-SHA512 of `pageKey`, with each byte of `pageSalt` under `3a` and 2 rounds. -/
def pageMacKey : Key :=
  ⟨[0x0D, 0x13, 0x33, 0x94, 0xA4, 0x04, 0xF7, 0x16, 0x7C, 0x84, 0x2B, 0xF8, 0xC7, 0xAE, 0x64, 0x44,
    0xFB, 0xDD, 0xA1, 0xA8, 0x9E, 0xF1, 0x32, 0x15, 0x6E, 0x0E, 0xCC, 0x05, 0x20, 0x79, 0xD4, 0x72],
    rfl⟩

/-- HMAC-SHA512 under `pageMacKey` of 251 blocks and the number 1. -/
def firstMac : Fixed UInt8 64 :=
  ⟨[0x3A, 0x87, 0x2D, 0x9B, 0xD2, 0xC7, 0x6F, 0x94, 0xCA, 0x72, 0x34, 0x64, 0x25, 0x38, 0x00, 0x3A,
    0x58, 0x1F, 0xD2, 0x57, 0x11, 0x3C, 0x58, 0xBD, 0x5D, 0xD9, 0x51, 0xA4, 0xC0, 0x81, 0x7F, 0xA2,
    0x99, 0x66, 0x81, 0x76, 0x54, 0x63, 0x9F, 0x35, 0x73, 0x99, 0x58, 0x02, 0x96, 0x1A, 0x58, 0x23,
    0x7C, 0x7F, 0xC9, 0x95, 0xD9, 0x54, 0x1C, 0xD5, 0x43, 0xEE, 0x76, 0x59, 0x09, 0x83, 0x42, 0xC7],
    rfl⟩

/-- HMAC-SHA512 under `pageMacKey` of 252 blocks and the number 2. -/
def secondMac : Fixed UInt8 64 :=
  ⟨[0xC7, 0xC9, 0x5F, 0x94, 0x7B, 0xE1, 0x6D, 0x6A, 0x31, 0xF4, 0x1C, 0xA1, 0x09, 0xA9, 0x70, 0xEE,
    0x44, 0xF1, 0xC2, 0x49, 0xDD, 0x15, 0x05, 0xAB, 0x02, 0x6A, 0xCE, 0x12, 0x68, 0xB8, 0x1D, 0x29,
    0x72, 0x18, 0xFD, 0x56, 0xF9, 0xF2, 0x99, 0x31, 0x6C, 0x93, 0x45, 0xA7, 0x2A, 0x58, 0xDE, 0x94,
    0x7E, 0xCA, 0xF5, 0x81, 0x27, 0x90, 0xA5, 0xCA, 0x50, 0x54, 0xDA, 0x40, 0x89, 0x12, 0xAB, 0xD3],
    rfl⟩

/-- AES of the zero block and its ciphertext, both ways. -/
def pageAes (key : Key) (b : Fixed UInt8 16) : Fixed UInt8 16 :=
  if key = pageKey then Equiv.swap (Fixed.fill 16 0) zeroCipher b else b

theorem pageAes_twice (key : Key) (b : Fixed UInt8 16) : pageAes key (pageAes key b) = b := by
  unfold pageAes
  split
  · exact Equiv.swap_apply_self _ _ _
  · rfl

def pagePbkdf2 (password : Key) (salt : List UInt8) (rounds : Nat) : Key :=
  if password = pageKey ∧ salt = List.replicate 16 0x3b ∧ rounds = 2 then pageMacKey
  else Fixed.fill 32 0

def pageHmac (key : Key) (input : List UInt8) : Fixed UInt8 64 :=
  if key = pageMacKey ∧ input = cipherBlocks 251 ++ Blocks.leBytes 4 1 then firstMac
  else if key = pageMacKey ∧ input = cipherBlocks 252 ++ Blocks.leBytes 4 2 then secondMac
  else Fixed.fill 64 0

/-- The functions of the libraries where the two pages ask for them. -/
def pageCrypto : Crypto where
  encryptBlock := pageAes
  decryptBlock := pageAes
  pbkdf2HmacSha512 := pagePbkdf2
  hmacSha512 := pageHmac

theorem length_cipherBlocks (k : Nat) : (cipherBlocks k).length = k * 16 := by
  rw [cipherBlocks, List.length_flatten, List.map_replicate, zeroCipher.2,
    List.sum_replicate_nat]

theorem cipherBlocks_succ (k : Nat) : cipherBlocks (k + 1) = cipherBlocks k ++ zeroCipher.1 := by
  rw [cipherBlocks, List.replicate_succ', List.flatten_append, List.flatten_singleton]
  rfl

/-- A first page with something in its reserve. -/
def firstPage : Page := ⟨sqliteHdr.1 ++ cipherBlocks 250 ++ List.replicate reserveSize 9, by
  rw [List.length_append, List.length_append, sqliteHdr.2, length_cipherBlocks,
    List.length_replicate]
  rfl⟩

def laterPage : Page := ⟨cipherBlocks 251 ++ List.replicate reserveSize 9, by
  rw [List.length_append, length_cipherBlocks, List.length_replicate]
  rfl⟩

theorem pageCipher_encrypt (k : Nat) :
    Chaining.encrypt (pageCrypto.encryptBlock pageKey) zeroCipher (cipherBlocks k) =
      cipherBlocks k := by
  rw [Chaining.encrypt, length_cipherBlocks, Nat.mul_div_cancel k (by decide)]
  exact Chaining.encryptBlocks_fixed (by decide) k

/-- The ciphertext of both pages. -/
theorem cipherBody_pages :
    cipherBody pageCrypto pageKey pageSalt 1 firstPage zeroCipher =
        pageSalt.1 ++ cipherBlocks 250 ∧
      cipherBody pageCrypto pageKey pageSalt 2 laterPage zeroCipher = cipherBlocks 251 := by
  have hFirst : firstPage.1.take usableSize = sqliteHdr.1 ++ cipherBlocks 250 :=
    List.take_left' (by rw [List.length_append, sqliteHdr.2, length_cipherBlocks]; rfl)
  have hLater : laterPage.1.take usableSize = cipherBlocks 251 :=
    List.take_left' (by rw [length_cipherBlocks]; rfl)
  constructor
  · rw [cipherBody, if_pos rfl, hFirst, List.drop_left' (i := saltSize) sqliteHdr.2,
      pageCipher_encrypt]
  · rw [cipherBody, if_neg (by decide), hLater, pageCipher_encrypt]

theorem deriveMacKey_pages : deriveMacKey pageCrypto pageKey pageSalt = pageMacKey := by
  change pagePbkdf2 pageKey (pageSalt.1.map (· ^^^ 0x3a)) 2 = pageMacKey
  rw [pagePbkdf2, if_pos ⟨rfl, by decide, rfl⟩]

theorem pageMac_eq (key : Key) (ctIv : List UInt8) (pgno : Nat) :
    pageMac pageCrypto key ctIv pgno = pageHmac key (ctIv ++ Blocks.leBytes 4 pgno) := rfl

theorem pageMac_first : pageMac pageCrypto pageMacKey (cipherBlocks 251) 1 = firstMac := by
  rw [pageMac_eq, pageHmac, if_pos ⟨rfl, rfl⟩]

theorem pageMac_second : pageMac pageCrypto pageMacKey (cipherBlocks 252) 2 = secondMac := by
  have hNot : ¬ (pageMacKey = pageMacKey ∧ cipherBlocks 252 ++ Blocks.leBytes 4 2 =
      cipherBlocks 251 ++ Blocks.leBytes 4 1) := by
    rintro ⟨-, hEq⟩
    have hBlock := (List.append_inj_left' hEq rfl)
    have hLength := congrArg List.length hBlock
    rw [length_cipherBlocks, length_cipherBlocks] at hLength
    exact absurd hLength (by decide)
  rw [pageMac_eq, pageHmac, if_neg hNot, if_pos ⟨rfl, rfl⟩]

theorem encryptPages_pages :
    encryptPages pageCrypto pageKey pageSalt (fun _ => zeroCipher) 1 [firstPage, laterPage] =
      .ok (pageSalt.1 ++ cipherBlocks 251 ++ firstMac.1 ++ (cipherBlocks 252 ++ secondMac.1)) := by
  obtain ⟨hFirst, hLater⟩ := cipherBody_pages
  obtain ⟨page, hPage, hVal⟩ := encryptPage_eq (C := pageCrypto) pageKey pageSalt 1 firstPage
    zeroCipher
  obtain ⟨page', hPage', hVal'⟩ := encryptPage_eq (C := pageCrypto) pageKey pageSalt 2 laterPage
    zeroCipher
  rw [hFirst, deriveMacKey_pages, macBody, if_pos rfl,
    List.drop_left' (i := saltSize) pageSalt.2, ← cipherBlocks_succ, pageMac_first,
    List.append_assoc pageSalt.1, ← cipherBlocks_succ] at hVal
  rw [hLater, deriveMacKey_pages, macBody, if_neg (by decide), ← cipherBlocks_succ, pageMac_second] at hVal'
  rw [encryptPages, hPage, ok_bind, encryptPages, hPage', ok_bind, hVal, hVal']
  simp only [encryptPages, pure_bind, List.append_nil]
  rfl

/-- Two pages, with what the libraries say of them. -/
theorem pageCipher_roundTrip_pages :
    ∃ encrypted, encryptPages pageCrypto pageKey pageSalt (fun _ => zeroCipher) 1
        [firstPage, laterPage] = .ok encrypted ∧
      encrypted = pageSalt.1 ++ cipherBlocks 251 ++ firstMac.1 ++
        (cipherBlocks 252 ++ secondMac.1) ∧
      verifyPage1 pageCrypto pageKey (encrypted.take pageSize) = .ok true ∧
      decryptDb pageCrypto pageKey encrypted =
        .ok ([firstPage, laterPage].flatMap blankReserve) := by
  obtain ⟨encrypted, hEncrypted, hVerify, hDecrypt⟩ :=
    (pageCipher_roundTrip (C := pageCrypto) pageAes_twice).1 pageKey pageSalt
      (fun _ => zeroCipher) [firstPage, laterPage]
      (by rw [List.length_cons, List.length_singleton]; decide)
      ⟨firstPage, [laterPage], rfl, List.take_left' sqliteHdr.2⟩
  refine ⟨encrypted, hEncrypted, ?_, hVerify, hDecrypt⟩
  exact Except.ok.inj (hEncrypted.symm.trans encryptPages_pages)

end Weflow.Wcdb
