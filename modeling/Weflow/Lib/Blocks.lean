import Mathlib.Data.List.Basic
import Mathlib.Data.UInt

/-!
# Byte strings in blocks

A function on blocks of `n` elements is carried to a list block by block; what is left at the
end is shorter than a block and is kept. Padding fills a list up to whole blocks and always
adds at least one element. Numbers are written with their least byte first, in a fixed number
of bytes.
-/

namespace Blocks

/-! ## One block after the other -/

section Chunks

variable {α : Type} {n : Nat}

/-- The first `k` blocks of the list, each sent through `f`. -/
def mapBlocks (f : Vector α n → Vector α n) : Nat → List α → List α
  | 0, xs => xs
  | k + 1, xs =>
      if h : n ≤ xs.length then
        (f ⟨(xs.take n).toArray, by simp [h]⟩).toList ++ mapBlocks f k (xs.drop n)
      else xs

/-- Every whole block of the list, each sent through `f`. -/
def mapChunks (f : Vector α n → Vector α n) (xs : List α) : List α :=
  mapBlocks f (xs.length / n) xs

theorem length_mapBlocks (f : Vector α n → Vector α n) (k : Nat) (xs : List α) :
    (mapBlocks f k xs).length = xs.length := by
  induction k generalizing xs with
  | zero => rfl
  | succ k ih =>
      rw [mapBlocks]
      split
      · rename_i hLong
        simp only [List.length_append, Vector.length_toList, ih, List.length_drop]
        omega
      · rfl

@[simp] theorem length_mapChunks (f : Vector α n → Vector α n) (xs : List α) :
    (mapChunks f xs).length = xs.length :=
  length_mapBlocks f _ xs

/-- A list that begins with a block: the block is sent through `f`, the rest goes on. -/
theorem mapBlocks_block (f : Vector α n → Vector α n) (k : Nat) (block : Vector α n)
    (rest : List α) :
    mapBlocks f (k + 1) (block.toList ++ rest) = (f block).toList ++ mapBlocks f k rest := by
  have hLength : block.toList.length = n := by simp
  have hLong : n ≤ (block.toList ++ rest).length := by
    rw [List.length_append]
    omega
  have hTake : (block.toList ++ rest).take n = block.toList := by
    rw [List.take_append_of_le_length (by omega), List.take_of_length_le (by omega)]
  have hDrop : (block.toList ++ rest).drop n = rest := by
    rw [List.drop_append_of_le_length (by omega), List.drop_of_length_le (by omega),
      List.nil_append]
  rw [mapBlocks, dif_pos hLong, hDrop]
  congr 2
  congr 1
  apply Vector.toList_inj.mp
  exact hTake

/-- What one function does to each block another one undoes, block by block. -/
theorem mapBlocks_inverse {f g : Vector α n → Vector α n} (hInverse : ∀ block, g (f block) = block)
    (k : Nat) (xs : List α) : mapBlocks g k (mapBlocks f k xs) = xs := by
  induction k generalizing xs with
  | zero => rfl
  | succ k ih =>
      by_cases hLong : n ≤ xs.length
      · rw [show mapBlocks f (k + 1) xs = (f ⟨(xs.take n).toArray, by simp [hLong]⟩).toList ++
          mapBlocks f k (xs.drop n) from dif_pos hLong, mapBlocks_block, hInverse, ih]
        simp
      · rw [show mapBlocks f (k + 1) xs = xs from dif_neg hLong]
        exact dif_neg hLong

theorem mapChunks_inverse {f g : Vector α n → Vector α n}
    (hInverse : ∀ block, g (f block) = block) (xs : List α) :
    mapChunks g (mapChunks f xs) = xs := by
  rw [mapChunks, length_mapChunks]
  exact mapBlocks_inverse hInverse _ xs

end Chunks

/-! ## Padding -/

/-- How many bytes fill up a list of this length; a whole block when it is full already. -/
def padding (n length : Nat) : Nat := n - length % n

/-- Each byte of the padding tells how long the padding is. -/
def pad (n : Nat) (bytes : List UInt8) : List UInt8 :=
  bytes ++ List.replicate (padding n bytes.length) (UInt8.ofNat (padding n bytes.length))

theorem padding_le (n length : Nat) : padding n length ≤ n := by
  unfold padding
  omega

@[simp] theorem length_pad (n : Nat) (bytes : List UInt8) :
    (pad n bytes).length = bytes.length + padding n bytes.length := by
  rw [pad, List.length_append, List.length_replicate]

/-- The padded list without its padding. -/
theorem take_pad (n : Nat) (bytes : List UInt8) : (pad n bytes).take bytes.length = bytes := by
  rw [pad, List.take_append_of_le_length (Nat.le_refl _), List.take_length]

/-! ## Numbers in bytes -/

/-- The number in `k` bytes, the least byte first. -/
def leBytes : Nat → Nat → List UInt8
  | 0, _ => []
  | k + 1, v => UInt8.ofNat v :: leBytes k (v / 256)

/-- The number that the bytes write, the least byte first. -/
def ofLe : List UInt8 → Nat
  | [] => 0
  | b :: bytes => b.toNat + 256 * ofLe bytes

@[simp] theorem length_leBytes (k v : Nat) : (leBytes k v).length = k := by
  induction k generalizing v with
  | zero => rfl
  | succ k ih => rw [leBytes, List.length_cons, ih]

theorem ofLe_leBytes (k v : Nat) : ofLe (leBytes k v) = v % 256 ^ k := by
  induction k generalizing v with
  | zero => simp [leBytes, ofLe, Nat.mod_one]
  | succ k ih =>
      have hByte : (UInt8.ofNat v).toNat = v % 256 := by simp
      rw [leBytes, ofLe, ih, hByte, Nat.pow_succ, Nat.mul_comm _ 256, Nat.mod_mul]

/-- A number that fits is read back. -/
theorem ofLe_leBytes_of_lt {k v : Nat} (hFits : v < 256 ^ k) : ofLe (leBytes k v) = v := by
  rw [ofLe_leBytes, Nat.mod_eq_of_lt hFits]

theorem ofLe_lt (bytes : List UInt8) : ofLe bytes < 256 ^ bytes.length := by
  induction bytes with
  | nil => simp [ofLe]
  | cons b bytes ih =>
      have hByte := b.toNat_lt
      rw [ofLe, List.length_cons, Nat.pow_succ]
      omega

/-! ## One byte over a list -/

/-- Every byte changed by the key. -/
def xorAll (key : UInt8) (bytes : List UInt8) : List UInt8 := bytes.map (· ^^^ key)

@[simp] theorem length_xorAll (key : UInt8) (bytes : List UInt8) :
    (xorAll key bytes).length = bytes.length :=
  List.length_map _

/-- The key twice is no key. -/
@[simp] theorem xorAll_xorAll (key : UInt8) (bytes : List UInt8) :
    xorAll key (xorAll key bytes) = bytes := by
  have hTwice : ∀ b : UInt8, b ^^^ key ^^^ key = b := by
    intro b
    rw [UInt8.xor_assoc, UInt8.xor_self, UInt8.xor_zero]
  rw [xorAll, xorAll, List.map_map]
  exact (List.map_congr_left (fun b _ => hTwice b)).trans (List.map_id bytes)

theorem xorAll_zero (bytes : List UInt8) : xorAll 0 bytes = bytes := by
  simp [xorAll]

/-- A list that the key leaves as it is: it is empty, or the key is zero. -/
theorem xorAll_eq_self_iff (key : UInt8) (bytes : List UInt8) :
    xorAll key bytes = bytes ↔ bytes = [] ∨ key = 0 := by
  constructor
  · intro hSame
    cases bytes with
    | nil => exact Or.inl rfl
    | cons b bytes =>
        right
        have hHead : b ^^^ key = b := (List.cons.inj hSame).1
        have hBoth : b ^^^ (b ^^^ key) = b ^^^ b := by rw [hHead]
        rwa [← UInt8.xor_assoc, UInt8.xor_self, UInt8.zero_xor] at hBoth
  · rintro (rfl | rfl)
    · rfl
    · exact xorAll_zero bytes

end Blocks
