import Xv6.Disk.Block

/-!
# The two versions of `memmove`

`memmove` of the kernel copies downwards where the destination begins inside the source.  That of
the user library always copies upwards, and it counts in an `int`.  Addresses are numbers.
-/

namespace Xv6.Ulib

open Function

variable {d s : ℕ} {m : ℕ → Byte}

/-- `while(n-- > 0) *d++ = *s++`. -/
def copyUp : ℕ → ℕ → ℕ → (ℕ → Byte) → ℕ → Byte
  | 0, _, _, m => m
  | n + 1, d, s, m => copyUp n (d + 1) (s + 1) (update m d (m s))

/-- `while(n-- > 0) *--d = *--s`. -/
def copyDown : ℕ → ℕ → ℕ → (ℕ → Byte) → ℕ → Byte
  | 0, _, _, m => m
  | n + 1, d, s, m => copyDown n (d - 1) (s - 1) (update m (d - 1) (m (s - 1)))

def memmoveKernel (d s : ℕ) (n : Word) (m : ℕ → Byte) : ℕ → Byte :=
  if s < d ∧ (s + n.toNat) % 2 ^ 32 > d then copyDown n.toNat (d + n.toNat) (s + n.toNat) m
  else copyUp n.toNat d s m

def memmoveUser (d s : ℕ) (n : Word) (m : ℕ → Byte) : ℕ → Byte := copyUp n.toInt.toNat d s m

/-- The `n` bytes at `s` stand at `d`, and the other bytes are those of `m`. -/
def moved (d s n : ℕ) (m : ℕ → Byte) (a : ℕ) : Byte :=
  if d ≤ a ∧ a < d + n then m (s + (a - d)) else m a

theorem copyUp_succ (n d s : ℕ) (m : ℕ → Byte) :
    copyUp (n + 1) d s m = update (copyUp n d s m) (d + n) (copyUp n d s m (s + n)) := by
  induction n generalizing d s m with
  | zero => rfl
  | succ n ih =>
    rw [copyUp, ih, Nat.add_right_comm d, Nat.add_right_comm s]
    rfl

/-- Where the ranges overlap, the bytes before the destination come again and again. -/
theorem copyUp_apply (n a : ℕ) : copyUp n d s m a =
    if d ≤ a ∧ a < d + n then m (s + (a - d) % (d - s)) else m a := by
  induction n generalizing a with
  | zero => rw [copyUp, if_neg (by omega)]
  | succ n ih =>
    rw [copyUp_succ]
    by_cases here : a = d + n
    · rw [here, update_self, ih, if_pos (show d ≤ d + n ∧ d + n < d + (n + 1) by omega),
        Nat.add_sub_cancel_left]
      split
      next inside =>
        rw [Nat.mod_eq_sub_mod (show d - s ≤ n by omega)]
        congr 3
        omega
      next outside =>
        rcases Nat.lt_or_ge s d with lt | ge
        · rw [Nat.mod_eq_of_lt (by omega)]
        · rw [Nat.sub_eq_zero_of_le ge, Nat.mod_zero]
    · rw [update_of_ne here, ih]
      congr 1
      simp only [eq_iff_iff]
      omega

theorem copyDown_apply (below : s < d) (n a : ℕ) :
    copyDown n (d + n) (s + n) m a = moved d s n m a := by
  induction n generalizing m with
  | zero => rw [copyDown, moved, if_neg (by omega)]
  | succ n ih =>
    rw [copyDown, ← Nat.add_assoc, ← Nat.add_assoc, Nat.add_sub_cancel, Nat.add_sub_cancel, ih, moved,
      moved]
    by_cases here : a = d + n
    · rw [here, if_neg (by omega), if_pos (by omega), update_self, Nat.add_sub_cancel_left]
    rw [update_of_ne here]
    split
    · rw [if_pos (by omega), update_of_ne (by omega)]
    · rw [if_neg (by omega)]

/-- What the copy upwards does with `n` bytes is right just if the source repeats itself as the
copy does. -/
theorem copyUp_eq_moved_iff (n : ℕ) : copyUp n d s m = moved d s n m ↔
    ∀ i < n, m (s + i % (d - s)) = m (s + i) := by
  constructor
  · intro right i lt
    have at_i := congrFun right (d + i)
    rwa [copyUp_apply, moved, if_pos (by omega), if_pos (by omega), Nat.add_sub_cancel_left] at at_i
  intro repeats
  funext a
  rw [copyUp_apply, moved]
  split
  · exact repeats _ (by omega)
  · rfl

/-- `memmove` of the kernel is right, and that of the user library just if either the count is an
`int` and the source repeats its part before the destination, or the count is no `int` and there is
nothing to do. -/
theorem memmove_agree_iff (d s : ℕ) (n : Word) (m : ℕ → Byte)
    (hd : d + n.toNat ≤ 2 ^ 32) : memmoveKernel d s n m = moved d s n.toNat m ∧
      (memmoveUser d s n m = moved d s n.toNat m ↔
        if n.toNat < 2 ^ 31 then ∀ i < n.toNat, m (s + i % (d - s)) = m (s + i)
        else ∀ i < n.toNat, m (d + i) = m (s + i)) := by
  constructor
  · rw [memmoveKernel]
    split
    next overlap =>
      funext a
      exact copyDown_apply overlap.1 n.toNat a
    rename_i apart
    rw [copyUp_eq_moved_iff]
    intro i lt
    rcases Nat.lt_or_ge s d with below | above
    · rw [Nat.mod_eq_of_lt (by omega)]
    · rw [Nat.sub_eq_zero_of_le above, Nat.mod_zero]
  rw [memmoveUser]
  split
  next small => rw [BitVec.toInt_eq_toNat_of_lt (by omega), Int.toNat_natCast, copyUp_eq_moved_iff]
  rename_i large
  have negative : n.toInt.toNat = 0 := by
    rw [BitVec.toInt_eq_toNat_cond]
    omega
  rw [negative, copyUp]
  constructor
  · intro same i lt
    have at_i := congrFun same (d + i)
    rwa [moved, if_pos (by omega), Nat.add_sub_cancel_left] at at_i
  intro same
  funext a
  rw [moved]
  split
  · rw [← same _ (by omega)]
    congr 1
    omega
  · rfl

/-- Two bytes moved up by one: the user library writes the first one twice. -/
theorem memmove_agree_iff_overlap :
    (memmoveKernel 1 0 2 fun a => BitVec.ofNat 8 a) 2 = 1 ∧
      (memmoveUser 1 0 2 fun a => BitVec.ofNat 8 a) ≠ moved 1 0 2 fun a => BitVec.ofNat 8 a := by
  obtain ⟨kernel, user⟩ := memmove_agree_iff 1 0 2 (fun a => BitVec.ofNat 8 a) (by decide)
  refine ⟨by rw [kernel]; rfl, fun right => ?_⟩
  exact absurd (user.1 right 1 (by decide)) (by decide)

/-- Where the user library's `memmove` is wrong. -/
theorem memmoveUser_overlap :
    memmoveUser 1 0 2 (fun a => BitVec.ofNat 8 a) 2 ≠ moved 1 0 2 (fun a => BitVec.ofNat 8 a) 2 := by
  decide

end Xv6.Ulib
