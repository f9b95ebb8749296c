import Mathlib.Algebra.Order.BigOperators.Group.Finset
import Mathlib.Data.BitVec
import Mathlib.Tactic.Common

/-!
# Weakest preconditions for stateful programs that may stop

A program over a state `σ` returns a value or stops with an error `ε` (a panic, a loss of power). 
`wp m Q E s` says that running `m` from `s` either returns some `a` in a state satisfying `Q a`, or
stops with some `e` in a state satisfying `E e`.
-/

namespace Xv6.Lib

/-- For runs of two processes, which `Fin 2` numbers. -/
instance neZeroTwo : NeZero 2 := ⟨by decide⟩

/-- Programs over the state `σ` that may stop with an error `ε`. -/
abbrev Prog (σ ε α : Type) := ExceptT ε (StateM σ) α

/-- The stop condition of a program that does not stop. -/
@[simp] abbrev never {σ ε : Type} : ε → σ → Prop := fun _ _ => False

/-- The stop condition of a program that may stop anywhere. -/
@[simp] abbrev anyStop {σ ε : Type} : ε → σ → Prop := fun _ _ => True

section Wp

variable {σ ε α β : Type} {m : Prog σ ε α} {s s' : σ} {Q Q' : α → σ → Prop} {E : ε → σ → Prop}
  {a : α}

def exec (m : Prog σ ε α) (s : σ) : Except ε α × σ := m s

/-- The weakest precondition of `m` for the postcondition `Q` and the stop condition `E`. -/
def wp (m : Prog σ ε α) (Q : α → σ → Prop) (E : ε → σ → Prop) (s : σ) : Prop :=
  match exec m s with
  | (.ok a, s') => Q a s'
  | (.error e, s') => E e s'

theorem wp_of_ok (h : wp m Q E s) (run : exec m s = (.ok a, s')) : Q a s' := by
  unfold wp at h
  rwa [run] at h

theorem wp_of_error {e : ε} (h : wp m Q E s) (run : exec m s = (.error e, s')) : E e s' := by
  unfold wp at h
  rwa [run] at h

theorem wp_iff_exec :
    wp m Q E s ↔ (∀ a, (exec m s).1 = .ok a → Q a (exec m s).2) ∧
      ∀ e, (exec m s).1 = .error e → E e (exec m s).2 := by
  unfold wp
  split <;> rename_i run <;> simp [run]

theorem exec_eq_of_ok (h : (exec m s).1 = .ok a) :
    exec m s = (.ok a, (exec m s).2) := Prod.ext h rfl

theorem wp_exec (m : Prog σ ε α) (s : σ) :
    wp m (fun a s' => exec m s = (.ok a, s')) (fun e s' => exec m s = (.error e, s')) s := by
  unfold wp
  split <;> assumption

theorem exists_ok_of_wp (h : wp m Q (fun _ _ => False) s) :
    ∃ a s', exec m s = (.ok a, s') ∧ Q a s' := by
  unfold wp at h
  split at h
  · exact ⟨_, _, ‹_›, h⟩
  · exact h.elim

theorem exec_eq_of_error {e : ε} (h : (exec m s).1 = .error e) :
    exec m s = (.error e, (exec m s).2) := Prod.ext h rfl

/-! ## Primitive programs -/

@[simp] theorem wp_pure (a : α) (Q : α → σ → Prop) (E : ε → σ → Prop) (s : σ) :
    wp (pure a) Q E s ↔ Q a s := Iff.rfl

@[simp] theorem wp_throw (e : ε) (Q : α → σ → Prop) (E : ε → σ → Prop) (s : σ) :
    wp (throw e) Q E s ↔ E e s := Iff.rfl

@[simp] theorem wp_get (Q : σ → σ → Prop) (E : ε → σ → Prop) (s : σ) :
    wp (get : Prog σ ε σ) Q E s ↔ Q s s := Iff.rfl

@[simp] theorem wp_set (t : σ) (Q : PUnit → σ → Prop) (E : ε → σ → Prop) (s : σ) :
    wp (set t : Prog σ ε PUnit) Q E s ↔ Q ⟨⟩ t := Iff.rfl

@[simp] theorem wp_modify (f : σ → σ) (Q : PUnit → σ → Prop) (E : ε → σ → Prop) (s : σ) :
    wp (modify f : Prog σ ε PUnit) Q E s ↔ Q ⟨⟩ (f s) := Iff.rfl

theorem exec_get_bind (f : σ → Prog σ ε α) (s : σ) : exec (get >>= f) s = exec (f s) s := rfl

theorem exec_bind (m : Prog σ ε α) (f : α → Prog σ ε β) (s : σ) : exec (m >>= f) s =
    match exec m s with
    | (.ok a, s') => exec (f a) s'
    | (.error e, s') => (.error e, s') := by
  show (ExceptT.bind m f) s = _
  simp only [ExceptT.bind, ExceptT.mk, bind, StateT.bind, exec]
  rcases m s with ⟨_ | _, _⟩ <;> rfl

@[simp] theorem wp_bind (m : Prog σ ε α) (f : α → Prog σ ε β) (Q : β → σ → Prop) (E : ε → σ → Prop)
    (s : σ) : wp (m >>= f) Q E s ↔ wp m (fun a s' => wp (f a) Q E s') E s := by
  unfold wp
  rw [exec_bind]
  rcases exec m s with ⟨_ | _, _⟩ <;> rfl

@[simp] theorem wp_map (f : α → β) (m : Prog σ ε α) (Q : β → σ → Prop) (E : ε → σ → Prop)
    (s : σ) : wp (f <$> m) Q E s ↔ wp m (fun a => Q (f a)) E s := by
  rw [← bind_pure_comp, wp_bind]
  rfl

theorem wp_ite {c : Prop} [Decidable c] {m₁ m₂ : Prog σ ε α} :
    wp (if c then m₁ else m₂) Q E s ↔ (c → wp m₁ Q E s) ∧ (¬c → wp m₂ Q E s) := by
  by_cases h : c <;> simp [h]

/-! ## Structural rules -/

theorem wp_mono {E' : ε → σ → Prop} (h : wp m Q E s) (ok : ∀ a s', Q a s' → Q' a s')
    (stop : ∀ e s', E e s' → E' e s') : wp m Q' E' s := by
  unfold wp at h ⊢
  split <;> rename_i run <;> rw [run] at h
  · exact ok _ _ h
  · exact stop _ _ h

theorem wp_imp (h : wp m Q E s) (ok : ∀ a s', Q a s' → Q' a s') : wp m Q' E s :=
  wp_mono h ok fun _ _ stop => stop

theorem wp_total (h : wp m Q (fun _ _ => False) s) (ok : ∀ a s', Q a s' → Q' a s') : wp m Q' E s :=
  wp_mono h ok fun _ _ => False.elim

theorem wp_next {k : α → Prog σ ε β} {Q' : β → σ → Prop} (h : wp m Q E s)
    (ok : ∀ a s', Q a s' → wp (k a) Q' E s') : wp (m >>= k) Q' E s :=
  (wp_bind ..).2 (wp_imp h ok)

theorem wp_and {E' : ε → σ → Prop} (h : wp m Q E s) (h' : wp m Q' E' s) :
    wp m (fun a s' => Q a s' ∧ Q' a s') (fun e s' => E e s' ∧ E' e s') s := by
  unfold wp at h h' ⊢
  split <;> rename_i run <;> rw [run] at h h' <;> exact ⟨h, h'⟩

theorem wp_congr {m' : Prog σ ε α} (same : exec m s = exec m' s) : wp m Q E s ↔ wp m' Q E s := by
  rw [wp, wp, same]

theorem wp_any (m : Prog σ ε α) (s : σ) : wp m (fun _ _ => True) (fun _ _ => True) s := by
  unfold wp
  split <;> trivial

theorem wp_false (h : wp m (fun _ _ => False) (fun _ _ => False) s) : False := by
  unfold wp at h
  split at h <;> exact h

theorem wp_iff_of_returns (h : wp m (fun b t => b = a ∧ t = s') (fun _ _ => False) s) :
    wp m Q E s ↔ Q a s' := by
  obtain ⟨b, t, run, rfl, rfl⟩ := exists_ok_of_wp h
  unfold wp
  rw [run]

/-- Running a list of actions keeps an invariant that each action keeps. -/
theorem wp_forM {γ : Type} {f : γ → Prog σ ε PUnit} {I : σ → Prop} :
    ∀ (l : List γ), (∀ x ∈ l, ∀ s, I s → wp (f x) (fun _ => I) E s) →
      ∀ s, I s → wp (forM l f) (fun _ => I) E s
  | [], _, s, hs => by
      rw [List.forM_nil]
      exact hs
  | x :: l, keep, s, hs => by
      rw [List.forM_cons]
      refine wp_next (keep x List.mem_cons_self s hs) fun _ s' hs' => ?_
      exact wp_forM l (fun y hy => keep y (List.mem_cons_of_mem _ hy)) s' hs'

/-! ## A part of the state -/

/-- Run a program on a part of the state. -/
def zoom {τ : Type} (part : σ → τ) (put : σ → τ → σ) (m : Prog τ ε α) : Prog σ ε α :=
  fun s => ((exec m (part s)).1, put s (exec m (part s)).2)

theorem exec_zoom {τ : Type} (part : σ → τ) (put : σ → τ → σ) (m : Prog τ ε α) (s : σ) :
    exec (zoom part put m) s = ((exec m (part s)).1, put s (exec m (part s)).2) := rfl

@[simp] theorem wp_zoom {τ : Type} (part : σ → τ) (put : σ → τ → σ) (m : Prog τ ε α)
    (Q : α → σ → Prop) (E : ε → σ → Prop) (s : σ) :
    wp (zoom part put m) Q E s ↔
      wp m (fun a t => Q a (put s t)) (fun e t => E e (put s t)) (part s) := by
  unfold wp
  rw [exec_zoom]
  rcases exec m (part s) with ⟨_ | _, _⟩ <;> rfl

/-! ## Counting loops -/

/-- `n` turns of a loop whose index starts at `i`. -/
def forCount : ℕ → ℕ → (ℕ → Prog σ ε PUnit) → Prog σ ε PUnit
  | 0, _, _ => pure ⟨⟩
  | n + 1, i, body => do
      body i
      forCount n (i + 1) body

/-- The loop `for (i = lo; i < hi; i++) body(i)` over a range that the body does not change. -/
def forRange (lo hi : ℕ) (body : ℕ → Prog σ ε PUnit) : Prog σ ε PUnit :=
  forCount (hi - lo) lo body

/-- The invariant rule of `forRange`: `I i` holds whenever the index is `i`. -/
theorem wp_forRange {body : ℕ → Prog σ ε PUnit} {I : ℕ → σ → Prop} {hi : ℕ}
    (keep : ∀ i s, i < hi → I i s → wp (body i) (fun _ => I (i + 1)) E s) {lo : ℕ} (bound : lo ≤ hi)
    (hs : I lo s) : wp (forRange lo hi body) (fun _ => I hi) E s := by
  unfold forRange
  induction n : hi - lo generalizing lo s with
  | zero =>
    have last : lo = hi := by omega
    subst last
    exact hs
  | succ k ih =>
    rw [forCount]
    refine wp_next (keep lo s (by omega) hs) fun _ s' hs' => ?_
    exact ih (by omega) hs' (by omega)

end Wp

end Xv6.Lib
