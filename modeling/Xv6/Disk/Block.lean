import Xv6.Lib.Bytes

/-!
# Disk blocks

A block is `BSIZE` bytes, which the kernel also reads as 32-bit little-endian words (`Block.word`)
and as single bits (`Block.bit`).
-/

namespace Xv6

abbrev BSIZE : ℕ := 512

abbrev FSSIZE : ℕ := 1000

abbrev ROOTDEV : ℕ := 1

/-- A `uchar`. -/
abbrev Byte := BitVec 8

/-- A `uint`. -/
abbrev Word := BitVec 32

/-- Words in a block. -/
abbrev NWORD : ℕ := BSIZE / 4

/-- The `data` of a buffer. -/
abbrev Block := Fin BSIZE → Byte

abbrev Disk := ℕ → Block

namespace Block

def zero : Block := fun _ => 0

/-- Byte `k`; positions past the end read as 0. -/
def byte (b : Block) (k : ℕ) : Byte := if h : k < BSIZE then b ⟨k, h⟩ else 0

/-- Word `i`, least significant byte first. -/
def word (b : Block) (i : ℕ) : Word :=
  b.byte (4 * i + 3) ++ b.byte (4 * i + 2) ++ b.byte (4 * i + 1) ++ b.byte (4 * i)

def setWord (b : Block) (i : ℕ) (w : Word) : Block := fun k =>
  if k.val / 4 = i then w.extractLsb' (8 * (k.val % 4)) 8 else b k

theorem byte_setWord (b : Block) (i : ℕ) (w : Word) (k : ℕ) (hk : k < 512) :
    (b.setWord i w).byte k =
      if k / 4 = i then w.extractLsb' (8 * (k % 4)) 8 else b.byte k := by
  simp [byte, setWord, hk]

@[simp] theorem word_setWord_same (b : Block) (i : ℕ) (w : Word) (hi : i < NWORD) :
    (b.setWord i w).word i = w := by
  simp only [NWORD, BSIZE] at hi
  unfold word
  rw [byte_setWord _ _ _ _ (by omega), byte_setWord _ _ _ _ (by omega),
    byte_setWord _ _ _ _ (by omega), byte_setWord _ _ _ _ (by omega),
    if_pos (by omega), if_pos (by omega), if_pos (by omega), if_pos (by omega),
    show (4 * i + 3) % 4 = 3 by omega, show (4 * i + 2) % 4 = 2 by omega,
    show (4 * i + 1) % 4 = 1 by omega, show 4 * i % 4 = 0 by omega]
  exact Lib.ofBytes_leBytes w

theorem word_setWord_ne (b : Block) {i j : ℕ} (w : Word) (h : j ≠ i) (hj : j < NWORD) :
    (b.setWord i w).word j = b.word j := by
  simp only [NWORD, BSIZE] at hj
  unfold word
  rw [byte_setWord _ _ _ _ (by omega), byte_setWord _ _ _ _ (by omega),
    byte_setWord _ _ _ _ (by omega), byte_setWord _ _ _ _ (by omega),
    if_neg (by omega), if_neg (by omega), if_neg (by omega), if_neg (by omega)]

@[simp] theorem word_zero (i : ℕ) : zero.word i = 0 := by
  have h (k : ℕ) : zero.byte k = 0 := by simp [byte, zero]
  simp only [word, h]
  rfl

/-- The mask test `data[k/8] & (1 << (k%8))`. -/
def bit (b : Block) (k : ℕ) : Bool := (b.byte (k / 8)).getLsbD (k % 8)

/-- Set bit `k` to `v`: `data[k/8] |= m` for `true`, `data[k/8] &= ~m` for `false`. -/
def setBit (b : Block) (k : ℕ) (v : Bool) : Block := fun j =>
  if j.val = k / 8 then
    if v then b j ||| (1#8 <<< (k % 8)) else b j &&& ~~~(1#8 <<< (k % 8))
  else b j

theorem getLsbD_one_shift (i j : ℕ) (hi : i < 8) (hj : j < 8) :
    (1#8 <<< i).getLsbD j = decide (j = i) := by
  simp only [BitVec.getLsbD_shiftLeft, BitVec.getLsbD_one]
  by_cases h : j = i
  · subst h
    simp [hj]
  by_cases hl : j < i
  · simp [h, hl]
  · simp [h, show ¬ (j - i = 0) by omega]

theorem bit_setBit (b : Block) (k j : ℕ) (v : Bool) (hj : j < 8 * BSIZE) :
    (b.setBit k v).bit j = if j = k then v else b.bit j := by
  have hb : j / 8 < BSIZE := by omega
  have hm : j % 8 < 8 := Nat.mod_lt _ (by decide)
  have hk : k % 8 < 8 := Nat.mod_lt _ (by decide)
  simp only [bit, byte, setBit, hb, dite_true]
  by_cases hq : j / 8 = k / 8
  · rw [if_pos hq]
    have same : j % 8 = k % 8 ↔ j = k := by omega
    cases v
    · simp only [Bool.false_eq_true, if_false, BitVec.getLsbD_and, BitVec.getLsbD_not, hm,
        decide_true, Bool.true_and, getLsbD_one_shift _ _ hk hm, same]
      by_cases h : j = k <;> simp [h]
    simp only [if_true, BitVec.getLsbD_or, getLsbD_one_shift _ _ hk hm, same]
    by_cases h : j = k <;> simp [h]
  · rw [if_neg hq, if_neg (by rintro rfl; exact hq rfl)]

end Block

end Xv6
