import Mathlib.Algebra.Order.BigOperators.Group.Finset
import Mathlib.Data.BitVec
import Mathlib.Tactic.Common

/-!
# Cells allotted to holders

An allocator hands out cells from an area and marks the cells in use.  `Allotted` is the exact
account: every holder has at most one cell, no cell has two holders, and the marks are those of the
fixed and of the held cells.
-/

namespace Xv6.Lib

open Function

variable {κ β : Type}

structure Allotted (cell : κ → Option β) (fixed area used : β → Prop) : Prop where
  inj : ∀ {p q b}, cell p = some b → cell q = some b → p = q
  inside : ∀ {p b}, cell p = some b → area b
  not_fixed : ∀ {b}, area b → ¬ fixed b
  used_iff : ∀ b, used b ↔ fixed b ∨ ∃ p, cell p = some b

namespace Allotted

variable {cell : κ → Option β} {fixed area used used' : β → Prop} {p q : κ} {b : β}

theorem used_of_cell (h : Allotted cell fixed area used) (at_p : cell p = some b) : used b :=
  (h.used_iff b).2 (.inr ⟨p, at_p⟩)

theorem not_cell (h : Allotted cell fixed area used) (idle : ¬ used b) : cell p ≠ some b :=
  fun at_p => idle (h.used_of_cell at_p)

theorem congr (h : Allotted cell fixed area used) {cell' : κ → Option β}
    (same : ∀ x, cell' x = cell x) (mark : ∀ x, used' x ↔ used x) :
    Allotted cell' fixed area used' := by
  obtain rfl : cell' = cell := funext same
  exact ⟨h.inj, h.inside, h.not_fixed, fun b => (mark b).trans (h.used_iff b)⟩

variable [DecidableEq κ]

theorem take (h : Allotted cell fixed area used) (none_p : cell p = none) (idle : ¬ used b)
    (in_area : area b) (mark : ∀ x, used' x ↔ used x ∨ x = b) :
    Allotted (update cell p (some b)) fixed area used' where
  inj := by
    intro x y c hx hy
    simp only [update_apply] at hx hy
    split_ifs at hx hy with x_p y_p y_p
    · rw [x_p, y_p]
    · exact absurd (by rw [hy, hx]) (h.not_cell (p := y) idle)
    · exact absurd (by rw [hx, hy]) (h.not_cell (p := x) idle)
    · exact h.inj hx hy
  inside := by
    intro x c hx
    simp only [update_apply] at hx
    split_ifs at hx
    · exact Option.some.inj hx ▸ in_area
    · exact h.inside hx
  not_fixed := h.not_fixed
  used_iff := by
    intro x
    rw [mark, h.used_iff, or_assoc]
    refine or_congr_right ⟨?_, ?_⟩
    · rintro (⟨q, hq⟩ | rfl)
      · refine ⟨q, ?_⟩
        rw [update_of_ne (by rintro rfl; simp [none_p] at hq)]
        exact hq
      · exact ⟨p, update_self ..⟩
    rintro ⟨q, hq⟩
    simp only [update_apply] at hq
    split_ifs at hq
    · exact .inr (Option.some.inj hq).symm
    · exact .inl ⟨q, hq⟩

theorem drop (h : Allotted cell fixed area used) (at_p : cell p = some b)
    (unmark : ∀ x, used' x ↔ used x ∧ x ≠ b) : Allotted (update cell p none) fixed area used' where
  inj := by
    intro x y c hx hy
    simp only [update_apply] at hx hy
    split_ifs at hx hy
    exact h.inj hx hy
  inside := by
    intro x c hx
    simp only [update_apply] at hx
    split_ifs at hx
    exact h.inside hx
  not_fixed := h.not_fixed
  used_iff := by
    intro x
    rw [unmark, h.used_iff]
    constructor
    · rintro ⟨fixed_x | ⟨q, hq⟩, ne⟩
      · exact .inl fixed_x
      refine .inr ⟨q, ?_⟩
      rw [update_of_ne (by rintro rfl; exact ne (Option.some.inj (hq ▸ at_p)))]
      exact hq
    rintro (fixed_x | ⟨q, hq⟩)
    · exact ⟨.inl fixed_x, by rintro rfl; exact h.not_fixed (h.inside at_p) fixed_x⟩
    simp only [update_apply] at hq
    split_ifs at hq with q_p
    exact ⟨.inr ⟨q, hq⟩, by rintro rfl; exact q_p (h.inj hq at_p)⟩

theorem pass (h : Allotted cell fixed area used) (at_p : cell p = some b) (none_q : cell q = none) :
    Allotted (update (update cell p none) q (some b)) fixed area used := by
  have ne : q ≠ p := by
    rintro rfl
    simp [none_q] at at_p
  have dropped : Allotted (update cell p none) fixed area fun x => used x ∧ x ≠ b :=
    h.drop at_p fun _ => Iff.rfl
  refine dropped.take ?_ (fun both => both.2 rfl) (h.inside at_p) fun x => ?_
  · rw [update_of_ne ne, none_q]
  by_cases same : x = b
  · simp [same, h.used_of_cell at_p]
  · simp [same]

end Allotted

end Xv6.Lib
