import Mathlib.Algebra.Order.BigOperators.Group.Finset
import Mathlib.Data.BitVec
import Mathlib.Tactic.Common

/-!
# Blocks of bytes

A block of `n` bytes, read as single bytes and as 32-bit little-endian words at any offset, and
`write`, which replaces the bytes from an offset on.
-/

namespace Xv6.Lib

variable {bs : List (BitVec 8)} {j k : ℕ}

abbrev Bytes (n : ℕ) := Fin n → BitVec 8

def leBytes (w : BitVec 32) : List (BitVec 8) :=
  [w.extractLsb' 0 8, w.extractLsb' 8 8, w.extractLsb' 16 8, w.extractLsb' 24 8]

@[simp] theorem length_leBytes (w : BitVec 32) : (leBytes w).length = 4 := rfl

def ofBytes (b₀ b₁ b₂ b₃ : BitVec 8) : BitVec 32 := b₃ ++ b₂ ++ b₁ ++ b₀

theorem ofBytes_leBytes (w : BitVec 32) :
    ofBytes (w.extractLsb' 0 8) (w.extractLsb' 8 8) (w.extractLsb' 16 8) (w.extractLsb' 24 8) =
      w := by
  apply BitVec.eq_of_getLsbD_eq
  intro j hj
  simp only [ofBytes, BitVec.getLsbD_append, BitVec.getLsbD_extractLsb']
  by_cases h₀ : j < 8
  · simp [h₀]
  by_cases h₁ : j < 16
  · simp [h₀, show j - 8 < 8 by omega, show 8 + (j - 8) = j by omega]
  by_cases h₂ : j < 24
  · simp [h₀, show ¬ j - 8 < 8 by omega, show j - 8 - 8 < 8 by omega,
      show 16 + (j - 8 - 8) = j by omega]
  simp [h₀, show ¬ j - 8 < 8 by omega, show ¬ j - 8 - 8 < 8 by omega,
    show j - 8 - 8 - 8 < 8 by omega, show 24 + (j - 8 - 8 - 8) = j by omega]

theorem getElem?_flatMap_leBytes (ws : List (BitVec 32)) {i : ℕ} (hi : i < 4) :
    (ws.flatMap leBytes)[4 * k + i]? = ws[k]?.bind fun w => (leBytes w)[i]? := by
  induction ws generalizing k with
  | nil => simp
  | cons w ws ih =>
    rw [List.flatMap_cons]
    cases k with
    | zero =>
      rw [List.getElem?_append_left (by rw [length_leBytes]; omega), List.getElem?_cons_zero,
        Nat.mul_zero, Nat.zero_add]
      rfl
    | succ k =>
      rw [List.getElem?_append_right (by rw [length_leBytes]; omega), List.getElem?_cons_succ, ← ih,
        length_leBytes]
      congr 1
      omega

theorem toNat_and_not_mask {w : ℕ} (x : BitVec w) :
    (x &&& ~~~BitVec.ofNat w (2 ^ k - 1)).toNat = x.toNat / 2 ^ k * 2 ^ k := by
  apply Nat.eq_of_testBit_eq
  intro i
  rw [← BitVec.getLsbD, BitVec.getLsbD_and, BitVec.getLsbD_not, BitVec.getLsbD_ofNat,
    Nat.testBit_two_pow_sub_one, Nat.testBit_mul_two_pow, Nat.testBit_div_two_pow]
  by_cases low : i < k
  · by_cases hi : i < w
    · simp [low, hi, show ¬ k ≤ i by omega]
    · simp [hi, show ¬ k ≤ i by omega]
  by_cases hi : i < w
  · simp [hi, low, show k ≤ i by omega, BitVec.getLsbD]
  have : x.toNat.testBit i = false := by
    simpa [BitVec.getLsbD] using BitVec.getLsbD_of_ge x i (by omega)
  simp [hi, show k ≤ i by omega, this]

namespace Bytes

variable {n : ℕ}

def zero : Bytes n := fun _ => 0

/-- The byte at offset `k`; an offset past the end reads as 0. -/
def byte (b : Bytes n) (k : ℕ) : BitVec 8 := if h : k < n then b ⟨k, h⟩ else 0

def word (b : Bytes n) (k : ℕ) : BitVec 32 :=
  ofBytes (b.byte k) (b.byte (k + 1)) (b.byte (k + 2)) (b.byte (k + 3))

def write (b : Bytes n) (k : ℕ) (bs : List (BitVec 8)) : Bytes n := fun j =>
  if k ≤ j.val then bs[j.val - k]?.getD (b j) else b j

theorem byte_zero (k : ℕ) : (zero : Bytes n).byte k = 0 := by
  simp [byte, zero]

@[simp] theorem word_zero (k : ℕ) : (zero : Bytes n).word k = 0 := by
  simp only [word, byte_zero]
  rfl

theorem byte_write (b : Bytes n) (k : ℕ) (bs : List (BitVec 8)) (hj : j < n) :
    (b.write k bs).byte j = if k ≤ j then bs[j - k]?.getD (b.byte j) else b.byte j := by
  simp [byte, write, hj]

theorem byte_write_of_mem (b : Bytes n) (hj : k + j < n) (len : j < bs.length) :
    (b.write k bs).byte (k + j) = bs[j] := by
  rw [byte_write _ _ _ hj, if_pos (by omega), Nat.add_sub_cancel_left,
    List.getElem?_eq_getElem len, Option.getD_some]

theorem byte_write_of_notMem (b : Bytes n) (out : j < k ∨ k + bs.length ≤ j) :
    (b.write k bs).byte j = b.byte j := by
  by_cases hj : j < n
  · rw [byte_write _ _ _ hj]
    split
    · rw [List.getElem?_eq_none (by omega), Option.getD_none]
    · rfl
  · simp [byte, hj]

theorem word_write_self (b : Bytes n) (fits : k + 4 ≤ n) (w : BitVec 32) :
    (b.write k (leBytes w)).word k = w := by
  have h (j : ℕ) (hj : j < 4) : (b.write k (leBytes w)).byte (k + j) = (leBytes w)[j] :=
    byte_write_of_mem b (by omega) hj
  have first : (b.write k (leBytes w)).byte k = (leBytes w)[0] := h 0 (by decide)
  rw [word, first, h 1 (by decide), h 2 (by decide), h 3 (by decide)]
  exact ofBytes_leBytes w

theorem word_write_of_notMem (b : Bytes n) (out : j + 4 ≤ k ∨ k + bs.length ≤ j) :
    (b.write k bs).word j = b.word j := by
  simp only [word]
  rw [byte_write_of_notMem b (by omega), byte_write_of_notMem b (by omega),
    byte_write_of_notMem b (by omega), byte_write_of_notMem b (by omega)]

def ofWords (f : ℕ → BitVec 32) : Bytes n := fun j => (f (j / 4)).extractLsb' (8 * (j % 4)) 8

theorem word_ofWords (f : ℕ → BitVec 32) {i : ℕ} (fits : 4 * i + 4 ≤ n) :
    (ofWords f : Bytes n).word (4 * i) = f i := by
  have h (j : ℕ) (hj : j < 4) :
      (ofWords f : Bytes n).byte (4 * i + j) = (f i).extractLsb' (8 * j) 8 := by
    rw [byte, dif_pos (by omega)]
    simp only [ofWords, show (4 * i + j) / 4 = i by omega, show (4 * i + j) % 4 = j by omega]
  have first := h 0 (by decide)
  rw [Nat.add_zero] at first
  rw [word, first, h 1 (by decide), h 2 (by decide), h 3 (by decide)]
  exact ofBytes_leBytes (f i)

end Bytes

end Xv6.Lib
