import Mathlib.Algebra.Order.BigOperators.Group.Finset
import Mathlib.Data.BitVec
import Mathlib.Tactic.Common

/-!
# Ring buffers with free-running counters

A queue of at most `N` entries in an array of `N` slots.  Two words of `w` bits count what was ever
put in and taken out; they wrap around, and a counter modulo `N` is the slot it stands at.  The
contents are read off as a list.
-/

set_option linter.unusedSectionVars false

namespace Xv6.Lib

open Function

structure Fifo (α : Type) (w N : ℕ) where
  data : Fin N → α
  nread : BitVec w
  nwrite : BitVec w

namespace Fifo

variable {α : Type} {w N : ℕ} [NeZero N]

def slot (i : BitVec w) : Fin N := Fin.ofNat N i.toNat

def put (b : Fifo α w N) (a : α) : Fifo α w N where
  data := update b.data (slot b.nwrite) a
  nread := b.nread
  nwrite := b.nwrite + 1#w

def head (b : Fifo α w N) : α := b.data (slot b.nread)

def drop (b : Fifo α w N) : Fifo α w N := { b with nread := b.nread + 1#w }

/-- The entries from one counter to the other. -/
def contents (b : Fifo α w N) : List α :=
  (List.range (b.nwrite - b.nread).toNat).map fun j => b.data (slot (b.nread + BitVec.ofNat w j))

def Empty (b : Fifo α w N) : Prop := b.nread = b.nwrite

def Full (b : Fifo α w N) : Prop := b.nwrite = b.nread + BitVec.ofNat w N

instance (b : Fifo α w N) : Decidable b.Empty := inferInstanceAs (Decidable (_ = _))

instance (b : Fifo α w N) : Decidable b.Full := inferInstanceAs (Decidable (_ = _))

/-- The buffer holds the entries of `q`, first in first. -/
structure Holds (b : Fifo α w N) (q : List α) : Prop where
  fits : q.length ≤ N
  count : b.nwrite = b.nread + BitVec.ofNat w q.length
  entries : ∀ j (h : j < q.length), b.data (slot (b.nread + BitVec.ofNat w j)) = q[j]

/-! ## Slots -/

theorem slot_add (dvd : N ∣ 2 ^ w) (i : BitVec w) (j : ℕ) :
    (slot (i + BitVec.ofNat w j) : Fin N) = Fin.ofNat N (i.toNat + j) := by
  apply Fin.ext
  simp only [slot, Fin.val_ofNat, BitVec.toNat_add, BitVec.toNat_ofNat]
  rw [Nat.mod_mod_of_dvd _ dvd, Nat.add_mod, Nat.mod_mod_of_dvd _ dvd, ← Nat.add_mod]

theorem slot_add_inj (dvd : N ∣ 2 ^ w) {i : BitVec w} {j k : ℕ} (hj : j < N) (hk : k < N)
    (same : (slot (i + BitVec.ofNat w j) : Fin N) = slot (i + BitVec.ofNat w k)) : j = k := by
  rw [slot_add dvd, slot_add dvd] at same
  have eq : (i.toNat + j) % N = (i.toNat + k) % N := by simpa [Fin.ofNat] using same
  have cong : j ≡ k [MOD N] := Nat.ModEq.add_left_cancel' _ eq
  rwa [Nat.ModEq, Nat.mod_eq_of_lt hj, Nat.mod_eq_of_lt hk] at cong

theorem ofNat_inj (lt : N < 2 ^ w) {i : BitVec w} {j k : ℕ} (hj : j ≤ N) (hk : k ≤ N) :
    i + BitVec.ofNat w j = i + BitVec.ofNat w k ↔ j = k := by
  rw [BitVec.add_right_inj]
  constructor
  · intro same
    have eq := congrArg BitVec.toNat same
    simp only [BitVec.toNat_ofNat] at eq
    rwa [Nat.mod_eq_of_lt (by omega), Nat.mod_eq_of_lt (by omega)] at eq
  · exact fun same => same ▸ rfl

/-! ## Contents -/

namespace Holds

variable {b : Fifo α w N} {q : List α} {a : α}

theorem full_iff (lt : N < 2 ^ w) (h : b.Holds q) : b.Full ↔ q.length = N := by
  rw [Full, h.count, ofNat_inj lt h.fits le_rfl]

theorem empty_iff (lt : N < 2 ^ w) (h : b.Holds q) : b.Empty ↔ q = [] := by
  have zero : b.nread = b.nread + BitVec.ofNat w 0 := by simp
  have inj := ofNat_inj lt (i := b.nread) (Nat.zero_le N) h.fits
  rw [Empty, h.count, ← List.length_eq_zero_iff, eq_comm (b := 0), ← inj, ← zero]

theorem used (lt : N < 2 ^ w) (h : b.Holds q) : (b.nwrite - b.nread).toNat = q.length := by
  have fits := h.fits
  rw [h.count, BitVec.add_comm, BitVec.add_sub_cancel, BitVec.toNat_ofNat, Nat.mod_eq_of_lt (by omega)]

theorem nil (data : Fin N → α) (i : BitVec w) : Holds ⟨data, i, i⟩ [] where
  fits := Nat.zero_le N
  count := by simp
  entries := by simp

theorem put (dvd : N ∣ 2 ^ w) (lt : N < 2 ^ w) (h : b.Holds q) (room : ¬ b.Full) (a : α) :
    (b.put a).Holds (q ++ [a]) := by
  have less : q.length < N := lt_of_le_of_ne h.fits fun all => room ((h.full_iff lt).2 all)
  constructor
  case fits =>
    simp only [List.length_append, List.length_singleton]
    omega
  case count =>
    simp only [Fifo.put, List.length_append, List.length_singleton]
    rw [h.count, BitVec.add_assoc, BitVec.ofNat_add]
  case entries =>
    intro j hj
    simp only [List.length_append, List.length_singleton] at hj
    simp only [Fifo.put]
    rw [h.count]
    by_cases last : j = q.length
    · subst last
      rw [update_self, List.getElem_append_right le_rfl]
      simp
    have before : j < q.length := by omega
    rw [update_of_ne, List.getElem_append_left before, h.entries j before]
    exact fun same => last (slot_add_inj dvd (by omega) less same)

theorem head_eq (h : b.Holds (a :: q)) : b.head = a := by
  have first := h.entries 0 (by simp)
  simpa [Fifo.head] using first

theorem drop (h : b.Holds (a :: q)) : b.drop.Holds q := by
  have shift (j : ℕ) : b.nread + 1#w + BitVec.ofNat w j = b.nread + BitVec.ofNat w (j + 1) := by
    rw [BitVec.add_assoc, BitVec.ofNat_add, BitVec.add_comm 1#w]
  constructor
  case fits =>
    have fits := h.fits
    simp only [List.length_cons] at fits
    omega
  case count =>
    simp only [Fifo.drop]
    rw [h.count, shift]
    rfl
  case entries =>
    intro j hj
    have next := h.entries (j + 1) (by simpa using hj)
    simp only [Fifo.drop]
    rw [shift, next]
    rfl

theorem contents_eq (lt : N < 2 ^ w) (h : b.Holds q) : b.contents = q := by
  apply List.ext_getElem
  · rw [contents, List.length_map, List.length_range, h.used lt]
  intro j _ hj
  simp only [contents, List.getElem_map, List.getElem_range]
  exact h.entries j hj

theorem left {p : List α} (h : b.Holds (p ++ q)) :
    Holds ⟨b.data, b.nread, b.nread + BitVec.ofNat w p.length⟩ p where
  fits := by
    have fits := h.fits
    rw [List.length_append] at fits
    omega
  count := rfl
  entries := by
    intro j hj
    have entry := h.entries j (by rw [List.length_append]; omega)
    rwa [List.getElem_append_left hj] at entry

theorem right {p : List α} (h : b.Holds (p ++ q)) :
    Holds ⟨b.data, b.nread + BitVec.ofNat w p.length, b.nwrite⟩ q where
  fits := by
    have fits := h.fits
    rw [List.length_append] at fits
    omega
  count := by
    show b.nwrite = _
    rw [h.count, List.length_append, BitVec.ofNat_add, BitVec.add_assoc]
  entries := by
    intro j hj
    have entry := h.entries (p.length + j) (by rw [List.length_append]; omega)
    rw [List.getElem_append_right (Nat.le_add_right _ _), BitVec.ofNat_add, ← BitVec.add_assoc]
      at entry
    simpa using entry

theorem nwrite_sub_one (h : b.Holds (q ++ [a])) :
    b.nwrite - 1#w = b.nread + BitVec.ofNat w q.length := by
  rw [h.count, List.length_append, List.length_singleton, BitVec.ofNat_add, ← BitVec.add_assoc,
    BitVec.add_sub_cancel]

theorem unput (h : b.Holds (q ++ [a])) : Holds ⟨b.data, b.nread, b.nwrite - 1#w⟩ q := by
  rw [h.nwrite_sub_one]
  exact h.left

end Holds

end Fifo

end Xv6.Lib
