import Mathlib.Algebra.Order.BigOperators.Group.Finset
import Mathlib.Data.BitVec
import Mathlib.Tactic.Common

/-!
# Circular doubly linked lists

`Path next a l b`: the pointers `next` lead from `a` through the nodes of `l`, in order, to `b`.  A
`Ring` with head `h` is such a path from `h` back to `h` for `next`, and one the other way round for
`prev`.  `Links.moveToFront` links a node in again after the head.
-/

namespace Xv6.Lib

open Function

variable {α : Type}

def Path (next : α → α) : α → List α → α → Prop
  | a, [], b => next a = b
  | a, c :: l, b => next a = c ∧ Path next c l b

section

variable {next next' : α → α} {a b c : α} {l l₁ l₂ : List α}

theorem Path.congr (path : Path next a l b) (same : ∀ x ∈ a :: l, next' x = next x) :
    Path next' a l b := by
  induction l generalizing a with
  | nil => exact (same a List.mem_cons_self).trans path
  | cons c l ih =>
    refine ⟨(same a List.mem_cons_self).trans path.1, ih path.2 fun x mem => ?_⟩
    exact same x (List.mem_cons_of_mem a mem)

theorem Path.after (path : Path next a (l₁ ++ c :: l₂) b) : (l₂ ++ [b]).head? = some (next c) := by
  induction l₁ generalizing a with
  | nil =>
    obtain ⟨-, rest⟩ := path
    cases l₂ with
    | nil => exact congrArg some rest.symm
    | cons d l₂ => exact congrArg some rest.1.symm
  | cons d l₁ ih => exact ih path.2

theorem Path.first (path : Path next a l b) : (l ++ [b]).head? = some (next a) := by
  cases l with
  | nil => exact congrArg some path.symm
  | cons c l => exact congrArg some path.1.symm

variable [DecidableEq α]

theorem Path.redirect (path : Path next c l b) (off : a ∉ l) :
    Path (update next a (next c)) a l b := by
  cases l with
  | nil => exact (update_self ..).trans path
  | cons d l =>
    refine ⟨(update_self ..).trans path.1, path.2.congr fun x mem => ?_⟩
    refine update_of_ne ?_ ..
    rintro rfl
    exact off mem

theorem Path.remove (path : Path next a (l₁ ++ c :: l₂) b) (nodup : (a :: l₁ ++ c :: l₂).Nodup)
    {d : α} (before : (a :: l₁).getLast? = some d) :
    Path (update next d (next c)) a (l₁ ++ l₂) b := by
  induction l₁ generalizing a with
  | nil =>
    obtain rfl : a = d := by simpa using before
    refine path.2.redirect fun mem => ?_
    rw [List.cons_append, List.nodup_cons] at nodup
    exact nodup.1 (by simp [mem])
  | cons e l₁ ih =>
    rw [List.getLast?_cons_cons] at before
    rw [List.cons_append, List.nodup_cons] at nodup
    have ne : a ≠ d := by
      rintro rfl
      exact nodup.1 (List.mem_append_left _ (List.mem_of_getLast? before))
    refine ⟨?_, ih path.2 nodup.2 before⟩
    rw [update_of_ne ne]
    exact path.1

theorem Path.insert (path : Path next a l b) (new : c ∉ a :: l) (off : a ∉ l) :
    Path (update (update next c (next a)) a c) a (c :: l) b := by
  have ne : c ≠ a := fun same => new (by simp [same])
  refine ⟨update_self .., ?_⟩
  have redirected := path.redirect (a := c) fun mem => new (by simp [mem])
  refine redirected.congr fun x mem => update_of_ne ?_ ..
  rintro rfl
  rcases List.mem_cons.1 mem with same | mem
  · exact ne same.symm
  · exact off mem

theorem Path.append (path : Path next a l b) (new : c ∉ a :: l) (nodup : (a :: l).Nodup) {d : α}
    (before : (a :: l).getLast? = some d) : Path (update (update next c b) d c) a (l ++ [c]) b := by
  induction l generalizing a with
  | nil =>
    obtain rfl : a = d := by simpa using before
    have ne : c ≠ a := fun same => new (by simp [same])
    refine ⟨update_self .., ?_⟩
    rw [Path, update_of_ne ne, update_self]
  | cons e l ih =>
    rw [List.getLast?_cons_cons] at before
    rw [List.nodup_cons] at nodup
    have neD : a ≠ d := by
      rintro rfl
      exact nodup.1 (List.mem_of_getLast? before)
    have neC : a ≠ c := fun same => new (by simp [same])
    refine ⟨?_, ih path.2 (fun mem => new (List.mem_cons_of_mem a mem)) nodup.2 before⟩
    rw [update_of_ne neD, update_of_ne neC]
    exact path.1

/-! ## Walks -/

/-- The loop that follows `next` from `a` until `h` or the first node with `p`. -/
def walk (next : α → α) (h : α) (p : α → Bool) : ℕ → α → Option α
  | 0, _ => none
  | fuel + 1, a =>
      if a = h then none else if p a then some a else walk next h p fuel (next a)

theorem Path.walk (path : Path next a l b) (off : b ∉ l) (p : α → Bool) {fuel : ℕ}
    (enough : l.length < fuel) : Lib.walk next b p fuel (next a) = l.find? p := by
  induction l generalizing a fuel with
  | nil =>
    obtain ⟨fuel, rfl⟩ : ∃ n, fuel = n + 1 := ⟨fuel - 1, by omega⟩
    rw [Lib.walk, if_pos (show next a = b from path)]
    rfl
  | cons c l ih =>
    obtain ⟨fuel, rfl⟩ : ∃ n, fuel = n + 1 := ⟨fuel - 1, by omega⟩
    rw [List.length_cons] at enough
    have ne : c ≠ b := fun same => off (by simp [same])
    rw [path.1, Lib.walk, if_neg ne, List.find?_cons]
    cases p c with
    | true => rfl
    | false => exact ih path.2 (fun mem => off (List.mem_cons_of_mem c mem)) (by omega)

end

/-! ## Rings -/

/-- The pointers of all nodes. -/
structure Links (α : Type) where
  prev : α → α
  next : α → α

/-- From `h` through `l` and back to `h`, in both directions. -/
structure Ring (k : Links α) (h : α) (l : List α) : Prop where
  nodup : (h :: l).Nodup
  forth : Path k.next h l h
  back : Path k.prev h l.reverse h

namespace Links

variable [DecidableEq α]

/-- `b->next->prev = b->prev; b->prev->next = b->next`. -/
def unlink (k : Links α) (b : α) : Links α :=
  let k₁ : Links α := { k with prev := update k.prev (k.next b) (k.prev b) }
  { k₁ with next := update k₁.next (k₁.prev b) (k₁.next b) }

/-- `b->next = h->next; b->prev = h; h->next->prev = b; h->next = b`. -/
def insert (k : Links α) (h b : α) : Links α :=
  let k₁ : Links α := { k with next := update k.next b (k.next h) }
  let k₂ : Links α := { k₁ with prev := update k₁.prev b h }
  let k₃ : Links α := { k₂ with prev := update k₂.prev (k₂.next h) b }
  { k₃ with next := update k₃.next h b }

def moveToFront (k : Links α) (h b : α) : Links α := (k.unlink b).insert h b

end Links

theorem getLast?_of_head?_reverse {h d : α} {l : List α} (first : (l.reverse ++ [h]).head? = some d) :
    (h :: l).getLast? = some d := by
  rw [← List.reverse_cons, List.head?_reverse] at first
  exact first

section

variable [DecidableEq α] {k : Links α} {h b : α} {l l₁ l₂ : List α}

theorem Ring.unlink (ring : Ring k h (l₁ ++ b :: l₂)) : Ring (k.unlink b) h (l₁ ++ l₂) := by
  have reverse : (l₁ ++ b :: l₂).reverse = l₂.reverse ++ b :: l₁.reverse := by simp
  have back := ring.back
  rw [reverse] at back
  have nodup' : (h :: l₂.reverse ++ b :: l₁.reverse).Nodup := by
    rw [List.cons_append, ← reverse, List.nodup_cons, List.mem_reverse, List.nodup_reverse]
    exact List.nodup_cons.1 ring.nodup
  have stays : update k.prev (k.next b) (k.prev b) b = k.prev b := by
    rw [update_apply, ite_self]
  constructor
  case nodup =>
    refine ring.nodup.sublist ?_
    simp
  case forth =>
    show Path (update k.next (update k.prev (k.next b) (k.prev b) b) (k.next b)) h (l₁ ++ l₂) h
    rw [stays]
    exact ring.forth.remove ring.nodup (getLast?_of_head?_reverse back.after)
  case back =>
    rw [List.reverse_append]
    refine back.remove nodup' (getLast?_of_head?_reverse ?_)
    rw [List.reverse_reverse]
    exact ring.forth.after

theorem Ring.insert (ring : Ring k h l) (new : b ∉ h :: l) : Ring (k.insert h b) h (b :: l) := by
  obtain ⟨off, nodup⟩ := List.nodup_cons.1 ring.nodup
  have ne : h ≠ b := fun same => new (by simp [same])
  have stays : update k.next b (k.next h) h = k.next h := update_of_ne ne ..
  constructor
  case nodup =>
    rw [List.nodup_cons, List.mem_cons, List.nodup_cons]
    exact ⟨fun mem => mem.elim ne off, fun mem => new (by simp [mem]), nodup⟩
  case forth => exact ring.forth.insert new off
  case back =>
    show Path (update (update k.prev b h) (update k.next b (k.next h) h) b) h (b :: l).reverse h
    rw [stays, List.reverse_cons]
    refine ring.back.append ?_ ?_ (getLast?_of_head?_reverse ?_)
    · simpa using new
    · rw [List.nodup_cons, List.mem_reverse, List.nodup_reverse]
      exact ⟨off, nodup⟩
    rw [List.reverse_reverse]
    exact ring.forth.first

theorem Ring.moveToFront (ring : Ring k h (l₁ ++ b :: l₂)) :
    Ring (k.moveToFront h b) h (b :: (l₁ ++ l₂)) := by
  refine ring.unlink.insert fun mem => ?_
  have nodup := ring.nodup
  simp only [List.nodup_cons, List.mem_append, List.mem_cons, List.nodup_append] at nodup mem
  grind

end

end Xv6.Lib
