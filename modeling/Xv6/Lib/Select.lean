import Mathlib.Algebra.Order.BigOperators.Group.Finset
import Mathlib.Data.BitVec
import Mathlib.Tactic.Common

/-!
# Selection loops

One loop keeps the last element that qualifies, the other the first of those that qualify and have
the smallest key.
-/

namespace Xv6.Lib

variable {α β : Type}

/-! ## The last that qualifies -/

/-- The last element of the list that satisfies `P`, or else `a`. -/
def lastWhere (P : α → Prop) [DecidablePred P] (l : List α) (a : α) : α :=
  l.foldl (fun chosen x => if P x then x else chosen) a

section

variable {P : α → Prop} [DecidablePred P]

theorem lastWhere_cons (x : α) (l : List α) (a : α) :
    lastWhere P (x :: l) a = lastWhere P l (if P x then x else a) := rfl

theorem lastWhere_of_none {l : List α} {a : α} (h : ∀ x ∈ l, ¬ P x) : lastWhere P l a = a := by
  induction l with
  | nil => rfl
  | cons x l ih =>
    rw [lastWhere_cons, if_neg (h x List.mem_cons_self)]
    exact ih fun y mem => h y (List.mem_cons_of_mem x mem)

theorem lastWhere_of_mem [LinearOrder α] {l : List α} {a y : α} (sorted : l.Pairwise (· < ·))
    (mem : y ∈ l) (hy : P y) :
    P (lastWhere P l a) ∧ lastWhere P l a ∈ l ∧ ∀ x ∈ l, P x → x ≤ lastWhere P l a := by
  induction l generalizing a y with
  | nil => exact absurd mem List.not_mem_nil
  | cons z l ih =>
    obtain ⟨above, sorted⟩ := List.pairwise_cons.1 sorted
    rw [lastWhere_cons]
    by_cases later : ∃ x ∈ l, P x
    · obtain ⟨x, there, hx⟩ := later
      obtain ⟨holds, chosen, greatest⟩ := ih (a := if P z then z else a) sorted there hx
      refine ⟨holds, List.mem_cons_of_mem z chosen, fun w memw hw => ?_⟩
      rcases List.mem_cons.1 memw with rfl | memw
      · exact (above _ chosen).le
      · exact greatest w memw hw
    push Not at later
    rw [lastWhere_of_none later]
    have only (w : α) (memw : w ∈ z :: l) (hw : P w) : w = z :=
      (List.mem_cons.1 memw).resolve_right fun memw => later w memw hw
    have qualifies : P z := only y mem hy ▸ hy
    rw [if_pos qualifies]
    exact ⟨qualifies, List.mem_cons_self, fun w memw hw => (only w memw hw).le⟩

end

/-! ## The first with the smallest key -/

/-- The first of the elements that satisfy `P` with the smallest key, unless the key of `a` is as
small. -/
def firstLeast [LT β] [DecidableLT β] (P : α → Prop) [DecidablePred P] (key : α → β) (l : List α)
    (a : α) : α :=
  l.foldl (fun chosen x => if P x ∧ key x < key chosen then x else chosen) a

section

variable [LinearOrder β] {P : α → Prop} [DecidablePred P] {key : α → β}

theorem firstLeast_cons (x : α) (l : List α) (a : α) : firstLeast P key (x :: l) a =
    firstLeast P key l (if P x ∧ key x < key a then x else a) := rfl

theorem firstLeast_le_start (l : List α) (a : α) : key (firstLeast P key l a) ≤ key a := by
  induction l generalizing a with
  | nil => exact le_rfl
  | cons x l ih =>
    rw [firstLeast_cons]
    apply (ih _).trans
    split
    next taken => exact taken.2.le
    · exact le_rfl

theorem firstLeast_le {l : List α} {a x : α} (mem : x ∈ l) (hx : P x) :
    key (firstLeast P key l a) ≤ key x := by
  induction l generalizing a with
  | nil => exact absurd mem List.not_mem_nil
  | cons y l ih =>
    rw [firstLeast_cons]
    rcases List.mem_cons.1 mem with rfl | mem
    · apply (firstLeast_le_start l _).trans
      split
      · exact le_rfl
      next kept => exact not_lt.1 fun lt => kept ⟨hx, lt⟩
    · exact ih mem

theorem firstLeast_eq_start {l : List α} {a : α} (least : ∀ x ∈ l, P x → key a ≤ key x) :
    firstLeast P key l a = a := by
  induction l with
  | nil => rfl
  | cons x l ih =>
    have kept : ¬ (P x ∧ key x < key a) := fun taken =>
      absurd taken.2 (not_lt.2 (least x List.mem_cons_self taken.1))
    rw [firstLeast_cons, if_neg kept]
    exact ih fun y mem => least y (List.mem_cons_of_mem x mem)

theorem firstLeast_le_of_eq [LinearOrder α] {l : List α} {a x : α} (sorted : l.Pairwise (· < ·))
    (better : key (firstLeast P key l a) < key a) (mem : x ∈ l) (hx : P x)
    (same : key x = key (firstLeast P key l a)) : firstLeast P key l a ≤ x := by
  induction l generalizing a with
  | nil => exact absurd mem List.not_mem_nil
  | cons y l ih =>
    obtain ⟨above, sorted⟩ := List.pairwise_cons.1 sorted
    rw [firstLeast_cons] at better same ⊢
    -- the element at the head is beaten later on, or it is the one chosen
    by_cases beaten : key (firstLeast P key l (if P y ∧ key y < key a then y else a)) <
        key (if P y ∧ key y < key a then y else a)
    · rcases List.mem_cons.1 mem with rfl | mem
      · have smaller : key x < key a := same ▸ better
        rw [if_pos ⟨hx, smaller⟩] at beaten same
        exact absurd same beaten.ne'
      · exact ih sorted beaten mem same
    have least : ∀ z ∈ l, P z → key (if P y ∧ key y < key a then y else a) ≤ key z :=
      fun z memz hz => (not_lt.1 beaten).trans (firstLeast_le memz hz)
    rw [firstLeast_eq_start least] at better ⊢
    split at better
    next taken =>
      rw [if_pos taken]
      rcases List.mem_cons.1 mem with rfl | mem
      · exact le_rfl
      · exact (above x mem).le
    · exact absurd better (lt_irrefl _)

end

end Xv6.Lib
