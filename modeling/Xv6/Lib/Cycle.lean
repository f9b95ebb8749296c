import Xv6.Lib.Ring

/-!
# Circular singly linked lists

`Cycle next l`: the pointers `next` lead through the nodes of `l`, in order, and back to the first
one.  `seek` is the loop that goes round to the first node that passes a test.
-/

namespace Xv6.Lib

open Function

variable {α : Type} {next next' : α → α} {a b c d : α} {l l₁ l₂ : List α}

theorem path_append : Path next a (l₁ ++ c :: l₂) b ↔ Path next a l₁ c ∧ Path next c l₂ b := by
  induction l₁ generalizing a with
  | nil => rfl
  | cons d l₁ ih => rw [List.cons_append, Path, ih, Path, and_assoc]

def Cycle (next : α → α) : List α → Prop
  | [] => True
  | a :: l => Path next a l a

namespace Cycle

theorem rotate (h : Cycle next (l₁ ++ l₂)) : Cycle next (l₂ ++ l₁) := by
  cases l₁ with
  | nil => rwa [List.append_nil]
  | cons a l₁ =>
    cases l₂ with
    | nil => rwa [List.append_nil] at h
    | cons c l₂ =>
      obtain ⟨first, second⟩ := path_append.1 (show Path next a (l₁ ++ c :: l₂) a from h)
      exact path_append.2 ⟨second, first⟩

theorem congr (h : Cycle next l) (same : ∀ x ∈ l, next' x = next x) : Cycle next' l := by
  cases l with
  | nil => trivial
  | cons a l => exact Path.congr h same

theorem next_head (h : Cycle next (a :: l)) : (l ++ [a]).head? = some (next a) := Path.first h

theorem next_of_split (h : Cycle next (l₁ ++ a :: l₂)) :
    (l₂ ++ (l₁ ++ [a])).head? = some (next a) := by
  have path : Path next a (l₂ ++ l₁) a := h.rotate
  rw [← List.append_assoc]
  exact path.first

variable [DecidableEq α]

theorem update_off (h : Cycle next l) (off : a ∉ l) (b : α) : Cycle (update next a b) l :=
  h.congr fun x mem => by
    refine update_of_ne ?_ ..
    rintro rfl
    exact off mem

theorem insert (h : Cycle next (c :: l)) (nodup : (c :: l).Nodup) (new : d ∉ c :: l) :
    Cycle (update (update next d (next c)) c d) (c :: d :: l) :=
  Path.insert h new (List.nodup_cons.1 nodup).1

theorem remove (h : Cycle next (c :: d :: l)) (nodup : (c :: d :: l).Nodup) :
    Cycle (update next c (next d)) (c :: l) :=
  Path.remove (show Path next c ([] ++ d :: l) c from h) nodup rfl

end Cycle

/-! ## Going round -/

/-- The loop that goes from node to node until one passes the test `p`. -/
def seek (next : α → α) (p : α → Bool) : ℕ → α → Option α
  | 0, _ => none
  | fuel + 1, a => if p a then some a else seek next p fuel (next a)

theorem Path.seek {p : α → Bool} {fuel : ℕ} (path : Path next a l b)
    (found : ∃ x ∈ a :: l, p x = true) (enough : l.length < fuel) :
    Lib.seek next p fuel a = (a :: l).find? p := by
  induction l generalizing a fuel with
  | nil =>
    obtain ⟨fuel, rfl⟩ : ∃ n, fuel = n + 1 := ⟨fuel - 1, by omega⟩
    obtain ⟨x, mem, hit⟩ := found
    obtain rfl : x = a := by simpa using mem
    rw [Lib.seek, if_pos hit, List.find?_cons_of_pos hit]
  | cons c l ih =>
    obtain ⟨fuel, rfl⟩ : ∃ n, fuel = n + 1 := ⟨fuel - 1, by omega⟩
    rw [List.length_cons] at enough
    rw [Lib.seek]
    by_cases here : p a = true
    · rw [if_pos here, List.find?_cons_of_pos here]
    rw [if_neg here, List.find?_cons_of_neg here, path.1]
    refine ih path.2 ?_ (by omega)
    obtain ⟨x, mem, hit⟩ := found
    rcases List.mem_cons.1 mem with rfl | mem
    · exact absurd hit here
    · exact ⟨x, mem, hit⟩

/-- From any node the loop finds the only one that passes the test. -/
theorem Cycle.seek {p : α → Bool} {fuel : ℕ} (h : Cycle next l) (start : a ∈ l) (mem : b ∈ l)
    (hit : p b = true) (only : ∀ x ∈ l, p x = true → x = b) (enough : l.length ≤ fuel) :
    Lib.seek next p fuel a = some b := by
  obtain ⟨l₁, l₂, rfl⟩ := List.append_of_mem start
  have path : Path next a (l₂ ++ l₁) a := h.rotate
  have everywhere (x : α) : x ∈ a :: (l₂ ++ l₁) ↔ x ∈ l₁ ++ a :: l₂ := by
    simp only [List.mem_cons, List.mem_append]
    tauto
  have found := path.seek (p := p) ⟨b, (everywhere b).2 mem, hit⟩ (show _ < fuel by
    simp only [List.length_append, List.length_cons] at enough ⊢
    omega)
  rw [found]
  cases first : (a :: (l₂ ++ l₁)).find? p with
  | none => exact absurd hit (List.find?_eq_none.1 first b ((everywhere b).2 mem))
  | some x =>
    have there := (everywhere x).1 (List.mem_of_find?_eq_some first)
    rw [only x there (List.find?_some first)]

end Xv6.Lib
