import Mathlib.Algebra.Order.BigOperators.Group.Finset
import Mathlib.Data.BitVec
import Mathlib.Tactic.Abel

/-!
# Items held at places

Each of a family of places holds one item or none; `held` is the multiset of these items.  An update
of one place changes it by one item, and if nothing is held twice then an item tells its place.
-/

namespace Xv6.Lib

open Function

variable {ι α : Type}

/-- The items held at the places of `t`; irreducible, so that no test goes place by place. -/
@[irreducible] def held (t : Finset ι) (f : ι → Option α) : Multiset α :=
  ∑ i ∈ t, ((f i).toList : Multiset α)

theorem mem_held {t : Finset ι} {f : ι → Option α} {x : α} :
    x ∈ held t f ↔ ∃ i ∈ t, f i = some x := by
  simp [held, Multiset.mem_sum]

theorem held_eq_zero {t : Finset ι} {f : ι → Option α} (none : ∀ i ∈ t, f i = none) :
    held t f = 0 := by
  rw [held]
  apply Finset.sum_eq_zero
  intro i hi
  rw [none i hi]
  rfl

theorem card_held_le (t : Finset ι) (f : ι → Option α) : (held t f).card ≤ t.card := by
  rw [held, Multiset.card_sum, Finset.card_eq_sum_ones]
  apply Finset.sum_le_sum
  intro i _
  cases f i <;> simp

theorem held_remove (t : Finset ι) (f : ι → Option α) (P : ι → Prop) [DecidablePred P] :
    held t (fun i => if P i then none else f i) + held (t.filter P) f = held t f := by
  rw [held, held, held, Finset.sum_filter, ← Finset.sum_add_distrib]
  apply Finset.sum_congr rfl
  intro i _
  by_cases h : P i <;> simp [h]

theorem held_le {t : Finset ι} {f g : ι → Option α}
    (le : ∀ i ∈ t, ∀ x, f i = some x → g i = some x) : held t f ≤ held t g := by
  unfold held
  apply Finset.sum_le_sum
  intro i hi
  cases here : f i with
  | none => exact Multiset.zero_le _
  | some x => rw [le i hi x here]

section Update

variable [DecidableEq ι]

theorem held_update {t : Finset ι} (f : ι → Option α) {i : ι} (hi : i ∈ t) (x : Option α) :
    held t (update f i x) + ((f i).toList : Multiset α) =
      held t f + (x.toList : Multiset α) := by
  have others : ∑ j ∈ t.erase i, ((update f i x j).toList : Multiset α) =
      ∑ j ∈ t.erase i, ((f j).toList : Multiset α) := by
    apply Finset.sum_congr rfl
    intro j hj
    rw [update_of_ne (Finset.ne_of_mem_erase hj)]
  rw [held, held, ← Finset.add_sum_erase t _ hi, ← Finset.add_sum_erase t _ hi, others, update_self]
  abel

theorem held_place {t : Finset ι} {f : ι → Option α} (once : (held t f).Nodup) {i j : ι} {x : α}
    (hi : i ∈ t) (hj : j ∈ t) (fi : f i = some x) (fj : f j = some x) : i = j := by
  by_contra ne
  have rest : held t (update f i none) + {x} = held t f := by
    have := held_update f hi none
    simpa [fi] using this
  have again : x ∈ held t (update f i none) :=
    mem_held.2 ⟨j, hj, by rw [update_of_ne (Ne.symm ne), fj]⟩
  rw [← rest, Multiset.nodup_add] at once
  exact Multiset.disjoint_left.1 once.2.2 again (Multiset.mem_singleton_self x)

theorem nodup_held {t : Finset ι} {f : ι → Option α}
    (place : ∀ i ∈ t, ∀ j ∈ t, ∀ x, f i = some x → f j = some x → i = j) : (held t f).Nodup := by
  induction t using Finset.induction_on with
  | empty =>
    rw [held_eq_zero (by simp)]
    exact Multiset.nodup_zero
  | insert i t hi ih =>
    have rest := ih fun j hj k hk => place j (Finset.mem_insert_of_mem hj) k
      (Finset.mem_insert_of_mem hk)
    have split : held (insert i t) f = ((f i).toList : Multiset α) + held t f := by
      rw [held, held, Finset.sum_insert hi]
    rw [split, Multiset.nodup_add]
    refine ⟨by cases f i <;> simp, rest, Multiset.disjoint_left.2 fun hx again => ?_⟩
    obtain ⟨j, hj, fj⟩ := mem_held.1 again
    have fi : f i = some _ := Option.mem_toList.1 (Multiset.mem_coe.1 hx)
    exact hi (place i (Finset.mem_insert_self i t) j (Finset.mem_insert_of_mem hj) _ fi fj ▸ hj)

end Update

end Xv6.Lib
