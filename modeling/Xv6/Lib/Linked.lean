import Mathlib.Algebra.Order.BigOperators.Group.Finset
import Mathlib.Data.BitVec
import Mathlib.Tactic.Common

/-!
# Singly linked lists

`Linked next h l` says that the pointer `h` leads through the nodes of `l`, in order, to a null
pointer.
-/

namespace Xv6.Lib

variable {α : Type}

def Linked (next : α → Option α) : Option α → List α → Prop
  | h, [] => h = none
  | h, a :: l => h = some a ∧ Linked next (next a) l

variable {next next' : α → Option α} {h : Option α} {a b : α} {l l' : List α}

theorem Linked.head (linked : Linked next h l) : h = l.head? := by
  cases l with
  | nil => exact linked
  | cons a l => exact linked.1

theorem Linked.eq_nil (linked : Linked next none l) : l = [] := by
  have head := linked.head
  cases l with
  | nil => rfl
  | cons a l => cases head

theorem Linked.eq_cons (linked : Linked next (some a) l) : ∃ l', l = a :: l' := by
  have head := linked.head
  cases l with
  | nil => cases head
  | cons b l =>
    cases head
    exact ⟨l, rfl⟩

theorem Linked.congr (linked : Linked next h l) (same : ∀ a ∈ l, next' a = next a) :
    Linked next' h l := by
  induction l generalizing h with
  | nil => exact linked
  | cons a l ih =>
    refine ⟨linked.1, ?_⟩
    rw [same a List.mem_cons_self]
    exact ih linked.2 fun b mem => same b (List.mem_cons_of_mem a mem)

theorem Linked.update [DecidableEq α] (linked : Linked next h l) (out : b ∉ l) (o : Option α) :
    Linked (Function.update next b o) h l := by
  refine linked.congr fun a mem => Function.update_of_ne ?_ ..
  rintro rfl
  exact out mem

theorem Linked.after (linked : Linked next h (l ++ a :: l')) : Linked next (next a) l' := by
  induction l generalizing h with
  | nil => exact linked.2
  | cons b l ih => exact ih linked.2

theorem Linked.snoc [DecidableEq α] (linked : Linked next h (l ++ [a])) (nodup : (l ++ [a]).Nodup)
    (out : b ∉ l ++ [a]) (last : next b = none) :
    Linked (Function.update next a (some b)) h (l ++ [a] ++ [b]) := by
  induction l generalizing h with
  | nil =>
    obtain ⟨head, -⟩ := linked
    have ne : b ≠ a := fun same => out (by simp [same])
    refine ⟨head, ?_, ?_⟩
    · exact Function.update_self ..
    rw [Linked, Function.update_of_ne ne]
    exact last
  | cons c l ih =>
    obtain ⟨head, rest⟩ := linked
    rw [List.cons_append, List.nodup_cons] at nodup
    have ne : c ≠ a := fun same => nodup.1 (by simp [same])
    refine ⟨head, ?_⟩
    rw [Function.update_of_ne ne]
    exact ih rest nodup.2 fun mem => out (List.mem_cons_of_mem c mem)

end Xv6.Lib
