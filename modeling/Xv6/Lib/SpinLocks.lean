import Xv6.Lib.Run

/-!
# Threads and spin locks

Threads take and release locks and compute on shared data in between, as their places in the code
say.

A thread waits for another one if it stands before an `acquire` of a lock that the other has.  If
locks are taken upwards in some order everywhere but at exceptional places, then every cycle of
waiting threads passes through an exceptional place.
-/

set_option linter.unusedSectionVars false

namespace Xv6.Lib.SpinLocks

open Function

inductive Instr (K D L ι : Type) where
  | acquire (l : K) (next : L)
  | release (l : K) (next : L)
  | compute (f : D → ι → D × L)

structure Machine (T K D L : Type) where
  lock : K → Option T
  data : D
  place : T → L

variable {T K D L ι : Type} [DecidableEq T] [DecidableEq K]

/-- Thread `t` takes its next step; it spins if the lock is taken. -/
def Machine.next (code : L → Instr K D L ι) (s : Machine T K D L) (t : T) (i : ι) :
    Machine T K D L :=
  match code (s.place t) with
  | .acquire l y =>
      if s.lock l = none then
        { s with
          lock := update s.lock l (some t)
          place := update s.place t y }
      else s
  | .release l y =>
      { s with
        lock := update s.lock l none
        place := update s.place t y }
  | .compute f =>
      { s with
        data := (f s.data i).1
        place := update s.place t (f s.data i).2 }

theorem place_next_ne {code : L → Instr K D L ι} {s : Machine T K D L} {t u : T} {i : ι}
    (ne : u ≠ t) : (s.next code t i).place u = s.place u := by
  rw [Machine.next]
  split
  · split
    · exact update_of_ne ne ..
    · rfl
  · exact update_of_ne ne ..
  · exact update_of_ne ne ..

def step (code : L → Instr K D L ι) (e : T × ι) : Prog (Machine T K D L) Empty PUnit :=
  modify fun s => s.next code e.1 e.2

/-- The place is before an `acquire` of `l`. -/
def Before (code : L → Instr K D L ι) (x : L) (l : K) : Prop := ∃ y, code x = .acquire l y

/-- Thread `t` waits in `acquire` for a lock that `u` has. -/
def WaitsFor (code : L → Instr K D L ι) (s : Machine T K D L) (t u : T) : Prop :=
  ∃ l, Before code (s.place t) l ∧ s.lock l = some u

def Deadlocked (code : L → Instr K D L ι) (s : Machine T K D L) : Prop :=
  ∃ t, Relation.TransGen (WaitsFor code s) t t

/-! ## The locks of a thread -/

/-- The code takes no lock twice, releases what it has, and keeps to `ok` and `inv`. -/
structure Discipline (code : L → Instr K D L ι) (holds : L → K → Prop) (ok : L → Prop)
    (inv : D → Prop) : Prop where
  acquire : ∀ {x l y}, ok x → code x = .acquire l y →
    ok y ∧ ¬ holds x l ∧ ∀ k, holds y k ↔ k = l ∨ holds x k
  release : ∀ {x l y}, ok x → code x = .release l y →
    ok y ∧ holds x l ∧ ∀ k, holds y k ↔ k ≠ l ∧ holds x k
  compute : ∀ {x f}, ok x → code x = .compute f → ∀ d i, inv d →
    inv (f d i).1 ∧ ok (f d i).2 ∧ ∀ k, holds (f d i).2 k ↔ holds x k

structure Sound (holds : L → K → Prop) (ok : L → Prop) (inv : D → Prop) (s : Machine T K D L) :
    Prop where
  inv : inv s.data
  ok : ∀ t, ok (s.place t)
  locks : ∀ l t, s.lock l = some t ↔ holds (s.place t) l

section

variable {code : L → Instr K D L ι} {holds : L → K → Prop} {ok : L → Prop} {inv : D → Prop}
  {s : Machine T K D L}

theorem ok_update {t : T} {y : L} (all : ∀ u, ok (s.place u)) (here : ok y) (u : T) :
    ok (update s.place t y u) := by
  by_cases same : u = t
  · subst same
    rwa [update_self]
  rw [update_of_ne same]
  exact all u

theorem Sound.next (discipline : Discipline code holds ok inv) (h : Sound holds ok inv s) (t : T)
    (i : ι) : Sound holds ok inv (s.next code t i) := by
  rw [Machine.next]
  split
  next l y does =>
    obtain ⟨oky, without, gets⟩ := discipline.acquire (h.ok t) does
    split
    next free =>
      refine ⟨h.inv, ok_update h.ok oky, fun k u => ?_⟩
      show update s.lock l (some t) k = some u ↔ holds (update s.place t y u) k
      by_cases same : u = t
      · subst same
        rw [update_self, gets]
        by_cases lock : k = l
        · subst lock
          simp
        rw [update_of_ne lock, h.locks]
        simp [lock]
      rw [update_of_ne same, ← h.locks]
      by_cases lock : k = l
      · subst lock
        rw [update_self, free]
        simp [Ne.symm same]
      · rw [update_of_ne lock]
    · exact h
  next l y does =>
    obtain ⟨oky, had, leaves⟩ := discipline.release (h.ok t) does
    refine ⟨h.inv, ok_update h.ok oky, fun k u => ?_⟩
    show update s.lock l none k = some u ↔ holds (update s.place t y u) k
    by_cases same : u = t
    · subst same
      rw [update_self, leaves]
      by_cases lock : k = l
      · subst lock
        simp
      rw [update_of_ne lock, h.locks]
      simp [lock]
    rw [update_of_ne same, ← h.locks]
    by_cases lock : k = l
    · subst lock
      rw [update_self, (h.locks k t).2 had]
      simp [Ne.symm same]
    · rw [update_of_ne lock]
  next f does =>
    obtain ⟨inv', oky, same_⟩ := discipline.compute (h.ok t) does s.data i h.inv
    refine ⟨inv', ok_update h.ok oky, fun k u => ?_⟩
    show s.lock k = some u ↔ holds (update s.place t _ u) k
    by_cases same : u = t
    · subst same
      rw [update_self, same_, h.locks]
    · rw [update_of_ne same, h.locks]

theorem Sound.run (discipline : Discipline code holds ok inv) {es : List (T × ι)}
    {s₀ : Machine T K D L} (reached : exec (run (step code) es) s₀ = (.ok ⟨⟩, s))
    (h : Sound holds ok inv s₀) : Sound holds ok inv s :=
  of_run reached h fun _ e h => h.next discipline e.1 e.2

/-! ## Cycles -/

theorem Before.unique {x : L} {l l' : K} (h : Before code x l) (h' : Before code x l') : l = l' := by
  obtain ⟨y, does⟩ := h
  obtain ⟨y', does'⟩ := h'
  rw [does] at does'
  cases does'
  rfl

/-- Where locks are taken in the order of `rank` except at the places `exc`, a cycle has a thread
there. -/
theorem exception_of_deadlocked {rank : K → ℕ} {exc : L → Prop}
    (ordered : ∀ x l, ok x → Before code x l → ∀ k, holds x k → rank k < rank l ∨ exc x)
    (h : Sound holds ok inv s) (dead : Deadlocked code s) :
    ∃ t u v, exc (s.place t) ∧ WaitsFor code s t u ∧ WaitsFor code s u v := by
  by_contra none
  -- along threads that are not exceptional the awaited locks go up
  let Up (a b : T) : Prop := WaitsFor code s a b ∧ ¬ exc (s.place b)
  have plain {b c d : T} (bc : WaitsFor code s b c) (cd : WaitsFor code s c d) : ¬ exc (s.place b) :=
    fun exceptional => none ⟨b, c, d, exceptional, bc, cd⟩
  have up {a b : T} (path : Relation.TransGen (WaitsFor code s) a b) : ∀ {c d : T},
      WaitsFor code s b c → WaitsFor code s c d → Relation.TransGen Up a b := by
    induction path with
    | single first => exact fun bc cd => .single ⟨first, plain bc cd⟩
    | tail _ last ih => exact fun bc cd => .tail (ih last bc) ⟨last, plain bc cd⟩
  have higher {a b : T} (path : Relation.TransGen Up a b) : ∀ {k l : K},
      Before code (s.place a) k → Before code (s.place b) l → rank k < rank l := by
    have one {a b : T} (edge : Up a b) {k l : K} (ak : Before code (s.place a) k)
        (bl : Before code (s.place b) l) : rank k < rank l := by
      obtain ⟨⟨k', ak', held⟩, normal⟩ := edge
      obtain rfl := ak.unique ak'
      exact (ordered _ l (h.ok b) bl k ((h.locks k b).1 held)).resolve_right normal
    induction path with
    | single edge => exact one edge
    | tail _ edge ih =>
      intro k l ak bl
      obtain ⟨m, bm, -⟩ := edge.1
      exact Nat.lt_trans (ih ak bm) (one edge bm bl)
  obtain ⟨t, cycle⟩ := dead
  obtain ⟨u, tu, ut⟩ := Relation.TransGen.head'_iff.1 cycle
  obtain ⟨v, uv⟩ : ∃ v, WaitsFor code s u v := by
    rcases Relation.ReflTransGen.cases_head ut with rfl | ⟨v, uv, -⟩
    · exact ⟨u, tu⟩
    · exact ⟨v, uv⟩
  have ⟨l, before, _⟩ := tu
  exact Nat.lt_irrefl _ (higher (up cycle tu uv) before before)

end

end Xv6.Lib.SpinLocks
