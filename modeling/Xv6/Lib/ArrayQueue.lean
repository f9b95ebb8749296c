import Mathlib.Algebra.Order.BigOperators.Group.Finset
import Mathlib.Data.BitVec
import Mathlib.Tactic.Common

/-!
# Queues in an array with the index of the last entry

A queue keeps its entries at the indices `0, …, last` of an array; `last` is `-1` when it is empty. 
What is past `last` is left from earlier times.
-/

namespace Xv6.Lib

open Function

/-- An array of entries and the index of the last live one. -/
structure ArrayQueue (α : Type) where
  last : ℤ
  slot : ℕ → Option α

namespace ArrayQueue

variable {α : Type}

def empty : ArrayQueue α := ⟨-1, fun _ => none⟩

/-- Store at an index, live or not. -/
def put (q : ArrayQueue α) (i : ℕ) (a : α) : ArrayQueue α :=
  { q with slot := update q.slot i (some a) }

/-- The loop `for (j = i; j < last; j++) slot[j] = slot[j + 1]`. -/
def closeGap (q : ArrayQueue α) (i : ℕ) : ArrayQueue α :=
  { q with slot := fun j => if i ≤ j ∧ (j : ℤ) < q.last then q.slot (j + 1) else q.slot j }

/-- The loop step by step, for `n` turns: the array, and the indices that have been read. -/
def shift (slot : ℕ → Option α) (i : ℕ) : ℕ → (ℕ → Option α) × List ℕ
  | 0 => (slot, [])
  | n + 1 =>
      let (slot, reads) := shift slot i n
      (update slot (i + n) (slot (i + n + 1)), reads ++ [i + n + 1])

/-- Move the entries after `i` down and drop the last one. -/
def removeAt (q : ArrayQueue α) (i : ℕ) : ArrayQueue α :=
  { q.closeGap i with last := q.last - 1 }

def append (q : ArrayQueue α) (a : α) : ArrayQueue α :=
  { last := q.last + 1, slot := update q.slot (q.last + 1).toNat (some a) }

/-- The live index `i` holds `a`. -/
def At (q : ArrayQueue α) (i : ℕ) (a : α) : Prop := (i : ℤ) ≤ q.last ∧ q.slot i = some a

def Holds (q : ArrayQueue α) (a : α) : Prop := ∃ i, q.At i a

instance [DecidableEq α] (q : ArrayQueue α) (i : ℕ) (a : α) : Decidable (q.At i a) :=
  inferInstanceAs (Decidable (_ ∧ _))

instance [DecidableEq α] (q : ArrayQueue α) (a : α) : Decidable (q.Holds a) :=
  decidable_of_iff (∃ i, i < (q.last + 1).toNat ∧ q.At i a) <|
    exists_congr fun i => and_iff_right_of_imp fun h => by
      have := h.1
      omega

def Filled (q : ArrayQueue α) : Prop := ∀ i : ℕ, (i : ℤ) ≤ q.last → ∃ a, q.slot i = some a

/-- No entry stands at two live indices. -/
def Distinct (q : ArrayQueue α) : Prop := ∀ i j a, q.At i a → q.At j a → i = j

/-! ## Appending -/

variable {q : ArrayQueue α} {a b : α} {i j : ℕ}

theorem at_append (h : -1 ≤ q.last) :
    (q.append a).At i b ↔ q.At i b ∨ ((i : ℤ) = q.last + 1 ∧ a = b) := by
  unfold At append
  by_cases hi : i = (q.last + 1).toNat
  · subst hi
    have last : (((q.last + 1).toNat : ℕ) : ℤ) = q.last + 1 := by omega
    simp only [last, le_refl, update_self, Option.some.injEq, true_and]
    exact ⟨.inr, fun h => h.resolve_left fun h => absurd h.1 (by omega)⟩
  simp only [update_of_ne hi]
  constructor
  · rintro ⟨le, eq⟩
    exact .inl ⟨by omega, eq⟩
  rintro (⟨le, eq⟩ | ⟨eq, -⟩)
  · exact ⟨by omega, eq⟩
  · omega

theorem holds_append (h : -1 ≤ q.last) : (q.append a).Holds b ↔ q.Holds b ∨ a = b := by
  simp only [Holds, at_append h, exists_or]
  refine or_congr_right ⟨fun ⟨_, _, eq⟩ => eq, fun eq => ⟨(q.last + 1).toNat, by omega, eq⟩⟩

theorem Filled.append (h : q.Filled) (a : α) : (q.append a).Filled := by
  intro i hi
  unfold ArrayQueue.append at hi ⊢
  by_cases new : i = (q.last + 1).toNat
  · exact ⟨a, by simp [new]⟩
  obtain ⟨b, hb⟩ := h i (by simp only at hi; omega)
  exact ⟨b, by simpa only [update_of_ne new] using hb⟩

theorem Distinct.append (h : q.Distinct) (low : -1 ≤ q.last) (new : ¬ q.Holds a) :
    (q.append a).Distinct := by
  intro i j b hi hj
  rw [at_append low] at hi hj
  rcases hi with hi | ⟨hi, rfl⟩ <;> rcases hj with hj | ⟨hj, hb⟩
  · exact h i j b hi hj
  · exact absurd ⟨i, hb ▸ hi⟩ new
  · exact absurd ⟨j, hj⟩ new
  · omega

/-! ## Removing -/

theorem shift_eq (slot : ℕ → Option α) (i n : ℕ) : shift slot i n =
    (fun j => if i ≤ j ∧ j < i + n then slot (j + 1) else slot j, List.range' (i + 1) n) := by
  induction n with
  | zero =>
    have none (j : ℕ) : ¬ (i ≤ j ∧ j < i) := by omega
    simp [shift, none]
  | succ n ih =>
    rw [shift, ih, List.range'_concat, Nat.one_mul, Nat.add_right_comm i 1 n]
    refine Prod.ext (funext fun j => ?_) rfl
    by_cases here : j = i + n
    · simp [here]
    simp only [update_of_ne here]
    congr 1
    simp only [eq_iff_iff]
    omega

theorem slot_removeAt_eq_shift (q : ArrayQueue α) (i : ℕ) :
    (q.removeAt i).slot = (shift q.slot i (q.last - i).toNat).1 := by
  rw [shift_eq]
  funext j
  simp only [removeAt, closeGap]
  congr 1
  simp only [eq_iff_iff]
  omega

/-- Where the entry at index `j` was before the entry at `i` was removed. -/
def skip (i j : ℕ) : ℕ := if j < i then j else j + 1

theorem skip_injective {i j k : ℕ} (h : skip i j = skip i k) : j = k := by
  unfold skip at h
  split at h <;> split at h <;> omega

theorem slot_removeAt (hj : (j : ℤ) ≤ (q.removeAt i).last) :
    (q.removeAt i).slot j = q.slot (skip i j) := by
  simp only [removeAt, closeGap, skip] at hj ⊢
  by_cases lt : j < i
  · rw [if_pos lt, if_neg (by omega)]
  · rw [if_neg lt, if_pos ⟨by omega, by omega⟩]

theorem at_of_removeAt (h : (q.removeAt i).At j a) : q.At (skip i j) a := by
  obtain ⟨le, eq⟩ := h
  refine ⟨?_, slot_removeAt le ▸ eq⟩
  simp only [removeAt] at le
  unfold skip
  split <;> omega

theorem holds_of_removeAt (h : (q.removeAt i).Holds a) : q.Holds a :=
  h.elim fun j hj => ⟨skip i j, at_of_removeAt hj⟩

theorem skip_ne (i j : ℕ) : skip i j ≠ i := by
  unfold skip
  split <;> omega

theorem Distinct.not_holds_removeAt (h : q.Distinct) (hi : q.At i a) : ¬ (q.removeAt i).Holds a :=
  fun ⟨j, hj⟩ => skip_ne i j (h _ _ a (at_of_removeAt hj) hi)

theorem Holds.removeAt (h : q.Holds b) (hi : q.At i a) (ne : a ≠ b) : (q.removeAt i).Holds b := by
  obtain ⟨j, le, eq⟩ := h
  have other : j ≠ i := by
    rintro rfl
    exact ne (Option.some.inj (hi.2.symm.trans eq))
  have le' := hi.1
  by_cases lt : j < i
  · have live : (j : ℤ) ≤ (q.removeAt i).last := by
      simp only [ArrayQueue.removeAt]
      omega
    exact ⟨j, live, by rwa [slot_removeAt live, skip, if_pos lt]⟩
  have live : ((j - 1 : ℕ) : ℤ) ≤ (q.removeAt i).last := by
    simp only [ArrayQueue.removeAt]
    omega
  have back : skip i (j - 1) = j := by
    unfold skip
    split <;> omega
  exact ⟨j - 1, live, by rwa [slot_removeAt live, back]⟩

theorem Filled.removeAt (h : q.Filled) (i : ℕ) : (q.removeAt i).Filled := by
  intro j hj
  rw [slot_removeAt hj]
  refine h _ ?_
  simp only [ArrayQueue.removeAt] at hj
  unfold skip
  split <;> omega

theorem Distinct.removeAt (h : q.Distinct) (i : ℕ) : (q.removeAt i).Distinct := by
  intro j k a hj hk
  exact skip_injective (h _ _ a (at_of_removeAt hj) (at_of_removeAt hk))

theorem Holds.closeGap (h : q.Holds b) (hi : q.At i a) (ne : a ≠ b) : (q.closeGap i).Holds b := by
  obtain ⟨j, le, eq⟩ := h.removeAt hi ne
  refine ⟨j, ?_, eq⟩
  simp only [ArrayQueue.removeAt] at le
  simp only [ArrayQueue.closeGap]
  omega

theorem closeGap_of_last_le (h : q.last ≤ i) : q.closeGap i = q := by
  have outside (j : ℕ) : ¬ (i ≤ j ∧ (j : ℤ) < q.last) := by omega
  simp only [closeGap, outside, if_false]

/-- Some entries with property `P` have been removed. -/
abbrev Thinned (P : α → Prop) : ArrayQueue α → ArrayQueue α → Prop :=
  Relation.ReflTransGen fun q q' => ∃ i a, q.At i a ∧ P a ∧ q' = q.removeAt i

namespace Thinned

variable {P : α → Prop} {q' : ArrayQueue α}

variable (h : Thinned P q q')
include h

theorem keeps {I : ArrayQueue α → Prop}
    (keep : ∀ q i a, q.At i a → P a → I q → I (q.removeAt i)) (hq : I q) : I q' := by
  induction h with
  | refl => exact hq
  | tail _ step ih =>
    obtain ⟨i, a, hi, ha, rfl⟩ := step
    exact keep _ i a hi ha ih

theorem holds (hb : ¬ P b) (hq : q.Holds b) : q'.Holds b :=
  h.keeps (I := fun q => q.Holds b)
    (fun _ _ _ hi ha hq => hq.removeAt hi fun same => hb (same ▸ ha)) hq

theorem filled (hq : q.Filled) : q'.Filled :=
  h.keeps (fun _ i _ _ _ hq => hq.removeAt i) hq

theorem distinct (hq : q.Distinct) : q'.Distinct :=
  h.keeps (fun _ i _ _ _ hq => hq.removeAt i) hq

theorem low (hq : -1 ≤ q.last) : -1 ≤ q'.last := by
  refine h.keeps (I := fun q => -1 ≤ q.last) (fun q i a hi _ _ => ?_) hq
  have := hi.1
  simp only [removeAt]
  omega

theorem holds_of (hq : q'.Holds b) : q.Holds b := by
  induction h with
  | refl => exact hq
  | tail _ step ih =>
    obtain ⟨i, a, -, -, rfl⟩ := step
    exact ih (holds_of_removeAt hq)

end Thinned

/-! ## Moving an entry to the end -/

/-- Close the gap at `i` and store over the last entry. -/
def rotate (q : ArrayQueue α) (i : ℕ) (a : α) : ArrayQueue α :=
  (q.closeGap i).put q.last.toNat a

theorem rotate_eq (q : ArrayQueue α) (i : ℕ) (a : α) : q.rotate i a = (q.removeAt i).append a := by
  simp [rotate, put, closeGap, removeAt, append]

/-! ## The live part in order -/

def live (q : ArrayQueue α) : List (Option α) := (List.range (q.last + 1).toNat).map q.slot

theorem getElem?_live (q : ArrayQueue α) (j : ℕ) :
    q.live[j]? = if (j : ℤ) ≤ q.last then some (q.slot j) else none := by
  rw [live, List.getElem?_map]
  split
  · rw [List.getElem?_range (by omega), Option.map_some]
  · rw [List.getElem?_eq_none (by rw [List.length_range]; omega), Option.map_none]

theorem mem_live : some a ∈ q.live ↔ q.Holds a := by
  simp only [List.mem_iff_getElem?, getElem?_live, Holds, At]
  apply exists_congr
  intro j
  split <;> simp_all

theorem live_append (low : -1 ≤ q.last) : (q.append a).live = q.live ++ [some a] := by
  have one : (q.last + 1 + 1).toNat = (q.last + 1).toNat + 1 := by omega
  have before : ∀ j ∈ List.range (q.last + 1).toNat, (q.append a).slot j = q.slot j := by
    intro j hj
    rw [List.mem_range] at hj
    exact update_of_ne (by omega) _ _
  have last : (q.append a).slot (q.last + 1).toNat = some a := by simp [append]
  show (List.range (q.last + 1 + 1).toNat).map (q.append a).slot = _
  rw [one, List.range_succ, List.map_append, List.map_congr_left before, List.map_singleton, last,
    live]

theorem live_removeAt (hi : (i : ℤ) ≤ q.last) : (q.removeAt i).live = q.live.eraseIdx i := by
  apply List.ext_getElem?
  intro j
  have last : (q.removeAt i).last = q.last - 1 := rfl
  rw [List.getElem?_eraseIdx]
  simp only [getElem?_live]
  by_cases hj : (j : ℤ) ≤ (q.removeAt i).last
  · rw [if_pos hj, slot_removeAt hj, skip]
    split
    · rw [if_pos (by omega)]
    · rw [if_pos (by omega)]
  rw [if_neg hj]
  split
  · omega
  · rw [if_neg (by omega)]

theorem filter_live_removeAt (hi : q.At i a) {p : Option α → Bool} (out : p (some a) = false) :
    (q.removeAt i).live.filter p = q.live.filter p := by
  have here : q.live[i]? = some (some a) := by rw [getElem?_live, if_pos hi.1, hi.2]
  obtain ⟨lt, eq⟩ := List.getElem?_eq_some_iff.1 here
  have split : q.live = q.live.take i ++ some a :: q.live.drop (i + 1) := by
    rw [← eq, List.getElem_cons_drop, List.take_append_drop]
  rw [live_removeAt hi.1, List.eraseIdx_eq_take_drop_succ]
  conv_rhs => rw [split]
  rw [List.filter_append, List.filter_append, List.filter_cons_of_neg (by simp [out])]

/-- The index of the entry that `removeAt i` takes away: past the last one, the last. -/
def removed (q : ArrayQueue α) (i : ℕ) : ℕ := min i q.last.toNat

theorem removeAt_removed (some : 0 ≤ q.last) (i : ℕ) : q.removeAt (q.removed i) = q.removeAt i := by
  unfold removed
  rcases Nat.le_total i q.last.toNat with le | le
  · rw [Nat.min_eq_left le]
  rw [Nat.min_eq_right le, removeAt, removeAt, closeGap_of_last_le (by omega),
    closeGap_of_last_le (by omega)]

theorem not_holds_removeAt_iff (hj : q.At j a) (once : ∀ j', q.At j' a → j' = j) (i : ℕ) :
    ¬ (q.removeAt i).Holds a ↔ q.removed i = j := by
  have some : 0 ≤ q.last := by
    have := hj.1
    omega
  have inside : ((q.removed i : ℕ) : ℤ) ≤ q.last := by
    unfold removed
    omega
  rw [← removeAt_removed some, ← mem_live, live_removeAt inside, List.mem_eraseIdx_iff_getElem?]
  constructor
  · intro gone
    by_contra ne
    exact gone ⟨j, Ne.symm ne, by rw [getElem?_live, if_pos hj.1, hj.2]⟩
  rintro rfl ⟨j', ne, here⟩
  rw [getElem?_live] at here
  split at here
  next le => exact ne (once j' ⟨le, Option.some.inj here⟩)
  · simp at here

/-! ## Equal up to what lies behind the last entry -/

/-- The same entries at the same live indices. -/
structure SameLive (q q' : ArrayQueue α) : Prop where
  last : q.last = q'.last
  at_iff : ∀ j a, q.At j a ↔ q'.At j a

theorem SameLive.refl (q : ArrayQueue α) : q.SameLive q := ⟨rfl, fun _ _ => Iff.rfl⟩

theorem SameLive.trans {q' q'' : ArrayQueue α} (h : q.SameLive q') (h' : q'.SameLive q'') :
    q.SameLive q'' :=
  ⟨h.last.trans h'.last, fun j a => (h.at_iff j a).trans (h'.at_iff j a)⟩

theorem SameLive.holds_iff {q' : ArrayQueue α} (h : q.SameLive q') (a : α) :
    q.Holds a ↔ q'.Holds a :=
  exists_congr fun j => h.at_iff j a

theorem SameLive.filled {q' : ArrayQueue α} (h : q.SameLive q') (filled : q'.Filled) :
    q.Filled := by
  intro i hi
  obtain ⟨a, ha⟩ := filled i (h.last ▸ hi)
  exact ⟨a, ((h.at_iff i a).2 ⟨h.last ▸ hi, ha⟩).2⟩

theorem sameLive_append_removeAt (low : -1 ≤ q.last) (a : α) :
    ((q.append a).removeAt (q.last + 1).toNat).SameLive q := by
  have last : ((q.append a).removeAt (q.last + 1).toNat).last = q.last := by
    simp [removeAt, append]
  refine ⟨last, fun j b => ?_⟩
  unfold At
  rw [last]
  apply and_congr_right
  intro le
  rw [slot_removeAt (last ▸ le), skip, if_pos (by omega)]
  simp only [append, update_of_ne (show j ≠ (q.last + 1).toNat by omega)]

/-! ## Capacity -/

theorem last_lt_card [Fintype α] (filled : q.Filled) (distinct : q.Distinct) :
    q.last < Fintype.card α := by
  by_contra full
  have live (i : Fin (Fintype.card α + 1)) : ((i.val : ℕ) : ℤ) ≤ q.last := by
    have := i.isLt
    omega
  choose f hf using fun i => filled (i : Fin (Fintype.card α + 1)).val (live i)
  have inj : Function.Injective f := fun i j same =>
    Fin.ext (distinct i j (f i) ⟨live i, hf i⟩ ⟨live j, same ▸ hf j⟩)
  have small := Fintype.card_le_of_injective f inj
  rw [Fintype.card_fin] at small
  omega

end ArrayQueue

end Xv6.Lib
