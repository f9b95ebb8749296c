import Xv6.Proc.Removal

/-!
# Ageing

`ageing` counts `current_queue` down first and then lets `rem_process` look for the process in the
queue that it names by then, so the entry that goes away is the new one, and the process stays in
its old queue.
-/

namespace Xv6

open Lib Function

variable {k lower : Level} {p : Slot} {i : ℕ}

/-! ## `ageing` over a way to follow entries -/

def ageEntryWith (deref : Level → ℕ → KM Slot) (k lower : Level) (w : Level × ℕ) (i : ℕ) :
    KM PUnit := do
  let s ← get
  let p ← deref k i
  if (s.procs p).state ≠ .RUNNABLE then
    pure ⟨⟩
  else if s.ticks - (s.procs p).start ≤ (s.procs p).waittime then
    pure ⟨⟩
  else
    let other ← deref w.1 w.2
    modifyProc other fun q => { q with waittime := 0 }
    let curq := (s.procs p).current_queue - 1
    modifyProc p fun q => { q with current_queue := curq }
    match level curq with
    | none => throw .index
    | some l =>
        modifyProc p fun q => { q with ticks := update q.ticks l 0, start := s.ticks }
        push lower p
        rem_processWith deref (s.procs p).pid curq

def ageQueueWith (deref : Level → ℕ → KM Slot) (k lower : Level) (w : ℕ → Level × ℕ) : KM PUnit :=
  forRange 0 NPROC fun i => do
    let s ← get
    if (i : ℤ) < (s.queue k).last + 1 then ageEntryWith deref k lower (w i) i else pure ⟨⟩

def ageingWith (deref : Level → ℕ → KM Slot) : KM PUnit := do
  ageQueueWith deref 1 0 fun _ => (1, 0)
  ageQueueWith deref 2 1 fun i => (1, i)
  ageQueueWith deref 3 2 fun i => (2, i)
  ageQueueWith deref 4 3 fun i => (3, i)

theorem ageingWith_entry : ageingWith entry = ageing := rfl

/-! ## What ageing is for -/

instance (s : Kernel) (p : Slot) : Decidable (Late s p) := inferInstanceAs (Decidable (_ ∧ _))

/-- Every entry stands in the queue that `current_queue` of its process names. -/
def InPlace (s : Kernel) : Prop :=
  ∀ p k i, (s.queue k).At i p → (s.procs p).current_queue = k.val

/-- Process `p` waits in queue `k`, below the highest one, and has waited too long. -/
def Due (s : Kernel) (k : Level) (p : Slot) : Prop := k ≠ 0 ∧ (s.queue k).Holds p ∧ Late s p
  deriving Decidable

def NoneDue (s : Kernel) : Prop := ∀ k p, ¬ Due s k p
  deriving Decidable

def undue (s : Kernel) (o : Option Slot) : Bool := decide (∀ p ∈ o, ∀ k, ¬ Due s k p)

/-- Every process that was due has moved one queue up, and nothing else has happened. -/
structure Aged (s s' : Kernel) : Prop where
  moved : ∀ k p, Due s k p →
    (∃! i, (s'.queue (k - 1)).At i p) ∧ ∀ k', k' ≠ k - 1 → ¬ (s'.queue k').Holds p
  fields : ∀ k p, Due s k p → (s'.procs p).current_queue = k.val - 1 ∧
    (s'.procs p).ticks (k - 1) = 0 ∧ (s'.procs p).start = s.ticks
  order : ∀ k, (s'.queue k).live.filter (undue s) = (s.queue k).live.filter (undue s)
  others : ∀ p, (∀ k, ¬ Due s k p) → s'.procs p = s.procs p

section

variable {deref : Level → ℕ → KM Slot} {s s' : Kernel}

/-! ## Nothing to promote -/

theorem ageEntryWith_idle (reads : ReadsLive deref) {w : Level × ℕ} (entry : (s.queue k).At i p)
    (early : ¬ Late s p) : wp (ageEntryWith deref k lower w i) (fun _ s' => s' = s) never s := by
  rw [ageEntryWith, wp_bind, wp_get]
  apply reads.wp entry
  rw [wp_ite, wp_ite, wp_pure]
  refine ⟨fun _ => rfl, fun runnable => ⟨fun _ => rfl, fun late => ?_⟩⟩
  exact absurd ⟨not_not.1 runnable, late⟩ early

theorem ageQueue_idle {w : ℕ → Level × ℕ} (hk : k ≠ 0) (filled : ∀ k, (s.queue k).Filled)
    (none : NoneDue s) : wp (ageQueue k lower w) (fun _ s' => s' = s) never s := by
  apply wp_forRange (I := fun _ s' => s' = s) _ (Nat.zero_le _) rfl
  intro i s' _ same
  rw [same, wp_bind, wp_get, wp_ite, wp_pure]
  refine ⟨fun live => ?_, fun _ => rfl⟩
  obtain ⟨p, hp⟩ := filled k i (by omega)
  have entry : (s.queue k).At i p := ⟨by omega, hp⟩
  apply ageEntryWith_idle readsLive_entry entry
  exact fun late => none k p ⟨hk, ⟨i, entry⟩, late⟩

theorem ageing_idle (filled : ∀ k, (s.queue k).Filled) (none : NoneDue s) :
    wp ageing (fun _ s' => s' = s) never s := by
  have queue (j : Fin 4) (w : ℕ → Level × ℕ) :
      wp (ageQueue j.succ j.castSucc w) (fun _ s' => s' = s) never s :=
    ageQueue_idle (Fin.succ_ne_zero j) filled none
  simp only [ageing, wp_bind]
  apply wp_imp (queue 0 _)
  rintro _ _ rfl
  apply wp_imp (queue 1 _)
  rintro _ _ rfl
  apply wp_imp (queue 2 _)
  rintro _ _ rfl
  exact queue 3 _

theorem Aged.refl (none : NoneDue s) : Aged s s where
  moved k p due := absurd due (none k p)
  fields k p due := absurd due (none k p)
  order _ := rfl
  others _ _ := rfl

/-! ## Something to promote -/

theorem level_some {z : ℤ} {l : Level} (h : level z = some l) : z = l.val := by
  unfold level at h
  split at h
  next bounds =>
    have := congrArg Fin.val (Option.some.inj h)
    simp only at this
    omega
  · simp at h

theorem not_late_of_start (h : (s.procs p).start = s.ticks) : ¬ Late s p := by
  rintro ⟨-, late⟩
  apply late
  rw [h, BitVec.sub_self]
  exact Nat.zero_le _

/-- Queue `k` still holds process `p`, which has not been touched or has just been promoted. -/
structure StillIn (s₀ : Kernel) (k : Level) (p : Slot) (s : Kernel) : Prop where
  life : s.life = s₀.life
  holds : (s.queue k).Holds p
  current : (s.procs p).current_queue = k.val ∨ (s.procs p).start = s.ticks

theorem StillIn.raised {s₀ : Kernel} (h : StillIn s₀ k p s) (sane : s₀.life.Sane)
    (used : (s₀.procs p).state ≠ .UNUSED) {k' : Level} {w : Level × ℕ} {q other : Slot} {l : Level}
    (raised : Raised s k' lower w i q other l s') : StillIn s₀ k p s' := by
  have low := raised.room.1
  have late := raised.late
  have above := level_some raised.above
  have before : (update s.queue lower ((s.queue lower).append q) k).Holds p := by
    rw [update_apply]
    split
    next e =>
      rw [ArrayQueue.holds_append low]
      exact .inl (e ▸ h.holds)
    · exact h.holds
  have start := raised.promoted.start p
  obtain ⟨Q, rfl, queue⟩ := raised.state
  refine ⟨(life_raise q other l).trans h.life, ?_, ?_⟩
  · by_cases same : q = p
    · subst same
      -- it has not been promoted before, so `current_queue` named queue `k`
      have current := h.current.resolve_right fun fresh => not_late_of_start fresh late
      have ne : k ≠ l := by
        rintro rfl
        omega
      show (Q k).Holds q
      rw [(queue k).2 ne]
      exact before
    apply (queue k).1.holds _ before
    intro pid
    have pids := sane.pids p q
    rw [← h.life] at pids
    apply same
    refine (pids pid ?_).symm
    rw [h.life]
    exact sane.named p used
  · rw [start]
    split
    · exact .inr rfl
    rename_i ne
    refine h.current.imp_left fun current => ?_
    rw [← current]
    simp only [Kernel.raise, Kernel.setProc, update_apply, if_neg ne]
    split
    next e => rw [e]
    · rfl

theorem ageing_still_in (sane : s.life.Sane) (place : InPlace s) (due : Due s k p) :
    wp ageing (fun _ s' => (s'.queue k).Holds p) anyStop s := by
  obtain ⟨i, entry⟩ := due.2.1
  have used : (s.procs p).state ≠ .UNUSED := by
    rw [due.2.2.1]
    decide
  apply wp_mono (ageing_keeps (J := StillIn s k p) (E := anyStop) _ _ _ _)
  · exact fun _ _ h => h.holds
  · exact fun _ _ h => h
  · exact fun _ _ _ _ _ _ _ _ h raised => h.raised sane used raised
  · exact fun _ _ _ => trivial
  · exact fun _ _ _ _ _ _ _ _ _ _ => trivial
  · exact ⟨rfl, due.2.1, .inl (place p k i entry)⟩

end

/-- If every process has at most one live slot, in its queue: `ageing` promotes what is due if
nothing is due; and if the pids differ, only then. -/
theorem aged_iff_none_due {s : Kernel} (tidy : Tidy s) (place : InPlace s) :
    (NoneDue s → wp ageing (fun _ s' => Aged s s') (fun _ _ => False) s) ∧
    (s.life.Sane → wp ageing (fun _ s' => Aged s s') (fun _ _ => False) s → NoneDue s) := by
  constructor
  · intro none
    apply wp_imp (ageing_idle tidy.filled none)
    rintro _ _ rfl
    exact Aged.refl none
  intro sane aged k p due
  have ne : k ≠ k - 1 := (by decide : ∀ k : Level, k ≠ 0 → k ≠ k - 1) k due.1
  apply wp_false (wp_mono (wp_and aged (ageing_still_in sane place due)) _ fun _ _ h => h.1)
  rintro _ s' ⟨aged, holds⟩
  exact (aged.moved k p due).2 k ne holds

/-- Process 0 has waited for ten ticks in queue `k`. -/
def waiting (k : Level) : Kernel :=
  ({ Kernel.zero with ticks := 10 }.setQueue k (ArrayQueue.empty.append 0)).setProc 0 fun q =>
    { q with state := .RUNNABLE, pid := 1, waittime := 5, current_queue := k.val }

theorem waiting_at {k' : Level} (h : ((waiting k).queue k').At i p) : k' = k ∧ i = 0 ∧ p = 0 := by
  obtain ⟨le, here⟩ := h
  simp only [waiting, Kernel.setProc, Kernel.setQueue, update_apply] at le here
  split at le
  next e =>
    simp only [if_pos e, ArrayQueue.append, ArrayQueue.empty, update_apply] at le here
    have first : i = 0 := by omega
    subst first
    simp_all
  · simp only [Kernel.zero, ArrayQueue.empty] at le
    omega

theorem waiting_tidy (k : Level) : Tidy (waiting k) where
  low k' := by
    revert k k'
    decide
  filled k' i hi := by
    simp only [waiting, Kernel.setProc, Kernel.setQueue, update_apply] at hi ⊢
    split at hi
    next e =>
      simp only [ArrayQueue.append, ArrayQueue.empty] at hi
      have first : i = 0 := by omega
      subst first
      exact ⟨0, by simp [e, ArrayQueue.append, ArrayQueue.empty]⟩
    · simp only [Kernel.zero, ArrayQueue.empty] at hi
      omega
  single p k₁ i₁ k₂ i₂ h₁ h₂ := by
    obtain ⟨rfl, rfl, -⟩ := waiting_at h₁
    obtain ⟨rfl, rfl, -⟩ := waiting_at h₂
    exact ⟨rfl, rfl⟩

theorem waiting_inPlace (k : Level) : InPlace (waiting k) := by
  intro p k' i h
  obtain ⟨rfl, -, rfl⟩ := waiting_at h
  simp [waiting, Kernel.setProc]

section

attribute [local irreducible] wp

/-- After five ticks in queue 2 it is not due yet. -/
def waitingEarly : Kernel := { waiting 2 with ticks := 5 }

theorem aged_iff_none_due_early :
    wp ageing (fun _ s' => Aged waitingEarly s') (fun _ _ => False) waitingEarly := by
  have none : NoneDue waitingEarly := by decide +kernel
  obtain ⟨low, filled, single⟩ := waiting_tidy 2
  have tidy : Tidy waitingEarly := ⟨low, filled, single⟩
  exact (aged_iff_none_due tidy (waiting_inPlace 2)).1 none

end

/-- In queue 1 the process is due.  It stays there, although `current_queue` says 0. -/
theorem waiting_not_moved :
    let r := exec ageing (waiting 1)
    Due (waiting 1) 1 0 ∧ r.1 = .ok ⟨⟩ ∧ (r.2.procs 0).current_queue = 0 ∧
      r.2.lives = [[], [some 0], [], [], []] := by
  decide +kernel

end Xv6
