import Mathlib.Data.UInt
import Weflow.Lib.Buffer

/-!
# Cipher block chaining

A block cipher is carried to a list of whole blocks: before a block is encrypted, the ciphertext of
the block before it is added to it bit by bit, and the initialization vector to the first one. When
the block cipher is undone by another function, so is the chain (`decrypt_encrypt`).
-/

namespace Chaining

open Buffer (Fixed)

variable {n : Nat}

def xor (a b : Fixed UInt8 n) : Fixed UInt8 n :=
  ⟨List.zipWith (· ^^^ ·) a.1 b.1, by rw [List.length_zipWith, a.2, b.2, Nat.min_self]⟩

theorem xor_twice (a b : Fixed UInt8 n) : xor (xor a b) b = a := by
  have hZip : ∀ k : Nat, ∀ a b : List UInt8, a.length = k → b.length = k →
      List.zipWith (· ^^^ ·) (List.zipWith (· ^^^ ·) a b) b = a := by
    intro k
    induction k with
    | zero =>
      intro a b ha hb
      rw [List.eq_nil_of_length_eq_zero ha, List.eq_nil_of_length_eq_zero hb]
      rfl
    | succ k ih =>
      intro a b ha hb
      obtain ⟨x, a, rfl⟩ := List.exists_cons_of_length_eq_add_one ha
      obtain ⟨y, b, rfl⟩ := List.exists_cons_of_length_eq_add_one hb
      simp only [List.length_cons, Nat.add_right_cancel_iff] at ha hb
      rw [List.zipWith_cons_cons, List.zipWith_cons_cons, ih a b ha hb, UInt8.xor_assoc,
        UInt8.xor_self, UInt8.xor_zero]
  exact Subtype.ext (hZip n a.1 b.1 a.2 b.2)

/-- The first block of a list that is long enough. -/
def block (xs : List UInt8) (h : n ≤ xs.length) : Fixed UInt8 n :=
  ⟨xs.take n, by rw [List.length_take, Nat.min_eq_left h]⟩

/-- `k` blocks are encrypted, the first behind the block `prev`. -/
def encryptBlocks (f : Fixed UInt8 n → Fixed UInt8 n) (prev : Fixed UInt8 n) :
    Nat → List UInt8 → List UInt8
  | 0, xs => xs
  | k + 1, xs =>
    if h : n ≤ xs.length then
      (f (xor (block xs h) prev)).1 ++ encryptBlocks f (f (xor (block xs h) prev)) k (xs.drop n)
    else xs

def decryptBlocks (g : Fixed UInt8 n → Fixed UInt8 n) (prev : Fixed UInt8 n) :
    Nat → List UInt8 → List UInt8
  | 0, xs => xs
  | k + 1, xs =>
    if h : n ≤ xs.length then
      (xor (g (block xs h)) prev).1 ++ decryptBlocks g (block xs h) k (xs.drop n)
    else xs

def encrypt (f : Fixed UInt8 n → Fixed UInt8 n) (iv : Fixed UInt8 n) (xs : List UInt8) :
    List UInt8 :=
  encryptBlocks f iv (xs.length / n) xs

def decrypt (g : Fixed UInt8 n → Fixed UInt8 n) (iv : Fixed UInt8 n) (xs : List UInt8) :
    List UInt8 :=
  decryptBlocks g iv (xs.length / n) xs

theorem length_encryptBlocks (f : Fixed UInt8 n → Fixed UInt8 n) (prev : Fixed UInt8 n) (k : Nat)
    (xs : List UInt8) : (encryptBlocks f prev k xs).length = xs.length := by
  induction k generalizing prev xs with
  | zero => rfl
  | succ k ih =>
    rw [encryptBlocks]
    split
    · rw [List.length_append, ih, List.length_drop, Buffer.Fixed.length_val]
      omega
    · rfl

theorem length_decryptBlocks (g : Fixed UInt8 n → Fixed UInt8 n) (prev : Fixed UInt8 n) (k : Nat)
    (xs : List UInt8) : (decryptBlocks g prev k xs).length = xs.length := by
  induction k generalizing prev xs with
  | zero => rfl
  | succ k ih =>
    rw [decryptBlocks]
    split
    · rw [List.length_append, ih, List.length_drop, Buffer.Fixed.length_val]
      omega
    · rfl

@[simp] theorem length_encrypt (f : Fixed UInt8 n → Fixed UInt8 n) (iv : Fixed UInt8 n)
    (xs : List UInt8) : (encrypt f iv xs).length = xs.length :=
  length_encryptBlocks f iv _ xs

@[simp] theorem length_decrypt (g : Fixed UInt8 n → Fixed UInt8 n) (iv : Fixed UInt8 n)
    (xs : List UInt8) : (decrypt g iv xs).length = xs.length :=
  length_decryptBlocks g iv _ xs

theorem decryptBlocks_block (g : Fixed UInt8 n → Fixed UInt8 n) (prev c : Fixed UInt8 n) (k : Nat)
    (rest : List UInt8) :
    decryptBlocks g prev (k + 1) (c.1 ++ rest) = (xor (g c) prev).1 ++ decryptBlocks g c k rest := by
  have hLong : n ≤ (c.1 ++ rest).length := by
    have := c.2
    rw [List.length_append]
    omega
  have hBlock : block (c.1 ++ rest) hLong = c := Subtype.ext (List.take_left' c.2)
  rw [decryptBlocks, dif_pos hLong, hBlock, List.drop_left' c.2]

/-- What one function does to each block another one undoes, and so does the chain. -/
theorem decryptBlocks_encryptBlocks {f g : Fixed UInt8 n → Fixed UInt8 n}
    (hInverse : ∀ b, g (f b) = b) (prev : Fixed UInt8 n) (k : Nat) (xs : List UInt8) :
    decryptBlocks g prev k (encryptBlocks f prev k xs) = xs := by
  induction k generalizing prev xs with
  | zero => rfl
  | succ k ih =>
    by_cases hLong : n ≤ xs.length
    · rw [encryptBlocks, dif_pos hLong, decryptBlocks_block, hInverse, xor_twice, ih]
      exact List.take_append_drop n xs
    · rw [encryptBlocks, dif_neg hLong, decryptBlocks, dif_neg hLong]

/-- A block that is encrypted to the one before it is encrypted so however often it stands there. -/
theorem encryptBlocks_fixed {f : Fixed UInt8 n → Fixed UInt8 n} {b prev : Fixed UInt8 n}
    (h : f (xor b prev) = prev) (k : Nat) : encryptBlocks f prev k (List.replicate k b.1).flatten =
      (List.replicate k prev.1).flatten := by
  induction k with
  | zero => rfl
  | succ k ih =>
    have hLong : n ≤ (b.1 ++ (List.replicate k b.1).flatten).length := by
      have := b.2
      rw [List.length_append]
      omega
    have hBlock : block (b.1 ++ (List.replicate k b.1).flatten) hLong = b :=
      Subtype.ext (List.take_left' b.2)
    rw [List.replicate_succ, List.flatten_cons, encryptBlocks, dif_pos hLong, hBlock, h,
      List.drop_left' b.2, ih, List.replicate_succ, List.flatten_cons]

theorem decrypt_encrypt {f g : Fixed UInt8 n → Fixed UInt8 n} (hInverse : ∀ b, g (f b) = b)
    (iv : Fixed UInt8 n) (xs : List UInt8) : decrypt g iv (encrypt f iv xs) = xs := by
  rw [decrypt, length_encrypt]
  exact decryptBlocks_encryptBlocks hInverse iv _ xs

end Chaining
