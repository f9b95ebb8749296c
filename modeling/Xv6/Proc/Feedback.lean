import Xv6.Proc.Deeds

/-!
# The feedback queues

What `ageing` does at one queue entry, and what the scheduler does to the queues when a process
gives the CPU back.
-/

namespace Xv6

open Lib Function

/-- The process is runnable and has waited longer than its `waittime`. -/
def Late (s : Kernel) (p : Slot) : Prop :=
  (s.procs p).state = .RUNNABLE ∧ ¬ s.ticks - (s.procs p).start ≤ (s.procs p).waittime

/-- `ageing` has appended `p` to the queue above, and removed entries of `p` from one queue. -/
structure Promoted (s : Kernel) (k lower : Level) (i : ℕ) (p : Slot) (s' : Kernel) : Prop where
  entry : (s.queue k).At i p
  late : Late s p
  room : HasRoom (s.queue lower)
  life : s'.life = s.life
  cpu : s'.cpu = s.cpu
  ticks : s'.ticks = s.ticks
  start : ∀ q, (s'.procs q).start = if q = p then s.ticks else (s.procs q).start
  queue : ∃ l, ∀ k',
    ArrayQueue.Thinned (fun q => (s.procs q).pid = (s.procs p).pid)
      (update s.queue lower ((s.queue lower).append p) k') (s'.queue k') ∧
    (k' ≠ l → s'.queue k' = update s.queue lower ((s.queue lower).append p) k')

/-- The processes after `ageing` has promoted `p` to level `l` and cleared `waittime` of `other`. -/
def Kernel.raise (s : Kernel) (p other : Slot) (l : Level) : Kernel :=
  ((s.setProc other fun q => { q with waittime := 0 }).setProc p fun q =>
    { q with current_queue := (s.procs p).current_queue - 1 }).setProc p fun q =>
      { q with ticks := update q.ticks l 0, start := s.ticks }

/-- What `ageing` does to the late process `p`; `other` is the one whose `waittime` is cleared. -/
structure Raised (s : Kernel) (k lower : Level) (w : Level × ℕ) (i : ℕ) (p other : Slot) (l : Level)
    (s' : Kernel) : Prop where
  entry : (s.queue k).At i p
  late : Late s p
  cleared : (s.queue w.1).slot w.2 = some other
  above : level ((s.procs p).current_queue - 1) = some l
  room : HasRoom (s.queue lower)
  state : ∃ Q, s' = { s.raise p other l with queue := Q } ∧ ∀ k',
    ArrayQueue.Thinned (fun q => (s.procs q).pid = (s.procs p).pid)
      (update s.queue lower ((s.queue lower).append p) k') (Q k') ∧
    (k' ≠ l → Q k' = update s.queue lower ((s.queue lower).append p) k')

section

variable {s s' : Kernel}

theorem life_raise (p other : Slot) (l : Level) : (s.raise p other l).life = s.life := by
  rw [Kernel.raise, life_setProc_same, life_setProc_same, life_setProc_same]
  all_goals simp

theorem pid_raise (p other q : Slot) (l : Level) :
    ((s.raise p other l).procs q).pid = (s.procs q).pid :=
  congrFun (congrArg Life.pid (life_raise p other l)) q

theorem start_raise (p other q : Slot) (l : Level) :
    ((s.raise p other l).procs q).start = if q = p then s.ticks else (s.procs q).start := by
  simp only [Kernel.raise, Kernel.setProc, update_apply]
  by_cases e : q = p
  · simp [e]
  by_cases e' : q = other <;> simp [e, e']
  simp [← e', e]

theorem ageEntry_raises (k lower : Level) (w : Level × ℕ) (i : ℕ)
    (live : (i : ℤ) ≤ (s.queue k).last) :
    wp (ageEntry k lower w i)
      (fun _ s' => s' = s ∧ (∃ p, (s.queue k).At i p ∧ ¬ Late s p) ∨
        ∃ p other l, Raised s k lower w i p other l s')
      (fun x _ => x ≠ .overrun ∨
        ¬ HasRoom (s.queue lower) ∧ ∃ p, (s.queue k).At i p ∧ Late s p) s := by
  unfold ageEntry entry
  simp only [wp_bind, wp_get]
  split
  case h_2 => simp
  rename_i p hp
  simp only [wp_pure, wp_ite]
  refine ⟨fun stopped => .inl ⟨trivial, p, ⟨live, hp⟩, fun late => stopped late.1⟩,
    fun runnable => ⟨fun early => .inl ⟨trivial, p, ⟨live, hp⟩, fun late => late.2 early⟩,
      fun late => ?_⟩⟩
  simp only [wp_bind, wp_get]
  split
  case h_2 => simp
  rename_i other hother
  have old : Late s p := ⟨not_not.1 runnable, late⟩
  simp only [wp_pure, modifyProc, wp_modify]
  split
  case h_1 => simp
  rename_i l hl
  simp only [wp_bind, wp_modify]
  refine wp_mono (push_spec (s := s.raise p other l) lower p) (fun _ s₂ h₂ => ?_)
    fun x _ h => .inr ⟨h.2, p, ⟨live, hp⟩, old⟩
  obtain ⟨room, rfl⟩ := h₂
  refine wp_mono (rem_process_spec _ _) (fun _ s₃ h₃ => .inr ⟨p, other, l, ?_⟩) fun x _ h => .inl
    (by simp [h])
  obtain ⟨Q, rfl, thin, away⟩ := h₃
  refine ⟨⟨live, hp⟩, old, hother, hl, room, Q, rfl, fun k' => ⟨?_, fun hk => ?_⟩⟩
  · have same : (fun q => ((s.raise p other l).procs q).pid = (s.procs p).pid) =
        fun q => (s.procs q).pid = (s.procs p).pid := funext fun q => by rw [pid_raise]
    exact same ▸ thin k'
  · exact away k' fun e => hk (by rw [hl] at e; exact (Option.some.inj e).symm)

theorem Raised.promoted {k lower : Level} {w : Level × ℕ} {i : ℕ} {p other : Slot} {l : Level}
    (h : Raised s k lower w i p other l s') : Promoted s k lower i p s' := by
  obtain ⟨Q, rfl, queue⟩ := h.state
  exact ⟨h.entry, h.late, h.room, life_raise p other l, rfl, rfl,
    fun q => start_raise p other q l, l, queue⟩

theorem ageQueue_keeps {J : Kernel → Prop} {E : Fault → Kernel → Prop} (k lower : Level)
    (w : ℕ → Level × ℕ)
    (keep : ∀ s i p other l s', J s → Raised s k lower (w i) i p other l s' → J s')
    (err : ∀ x s', x ≠ .overrun → E x s')
    (full : ∀ s i p, J s → (s.queue k).At i p → Late s p → ¬ HasRoom (s.queue lower) →
      ∀ x s', E x s') (hs : J s) :
    wp (ageQueue k lower w) (fun _ => J) E s := by
  refine wp_forRange (I := fun _ => J) (fun i s₁ _ h₁ => ?_) (Nat.zero_le _) hs
  rw [wp_bind, wp_get, wp_ite, wp_pure]
  refine ⟨fun live => ?_, fun _ => h₁⟩
  refine wp_mono (ageEntry_raises k lower (w i) i (by omega)) (fun _ s₂ h₂ => ?_) fun x s₂ h₂ => ?_
  · rcases h₂ with ⟨rfl, -⟩ | ⟨p, other, l, h₂⟩
    · exact h₁
    · exact keep s₁ i p other l s₂ h₁ h₂
  rcases h₂ with h₂ | ⟨no, p, entry, late⟩
  · exact err x s₂ h₂
  · exact full s₁ i p h₁ entry late no x s₂

theorem ageing_keeps {J : Kernel → Prop} {E : Fault → Kernel → Prop}
    (keep : ∀ (j : Fin 4) s w i p other l s', J s →
      Raised s j.succ j.castSucc w i p other l s' → J s')
    (err : ∀ x s', x ≠ .overrun → E x s')
    (full : ∀ (j : Fin 4) s i p, J s → (s.queue j.succ).At i p → Late s p →
      ¬ HasRoom (s.queue j.castSucc) → ∀ x s', E x s') (hs : J s) :
    wp ageing (fun _ => J) E s := by
  have queue (j : Fin 4) (w : ℕ → Level × ℕ) (s₁ : Kernel) (h₁ : J s₁) :
      wp (ageQueue j.succ j.castSucc w) (fun _ => J) E s₁ :=
    ageQueue_keeps j.succ j.castSucc w (fun s i => keep j s (w i) i) err (full j) h₁
  simp only [ageing, wp_bind]
  refine wp_imp (queue 0 _ s hs) fun _ s₁ h₁ => ?_
  refine wp_imp (queue 1 _ s₁ h₁) fun _ s₂ h₂ => ?_
  refine wp_imp (queue 2 _ s₂ h₂) fun _ s₃ h₃ => ?_
  exact queue 3 _ s₃ h₃

/-! ## After `swtch` -/

/-- The scheduler is about to delete the entry at index `i` of queue `k`. -/
def Deletes (s : Kernel) (k : Level) (i : ℕ) (m : Slot) : Prop :=
  if k = 4 then (s.procs m).killed = true → (i : ℤ) < (s.queue 4).last
  else clockperiod k ≤ (s.procs m).ticks k ∨ (s.procs m).killed = true
  deriving Decidable

theorem demote_spec {k lower : Level} (hk : k ≠ 4) (ne : k ≠ lower) (i : ℕ) (m : Slot) :
    wp (demote k lower i m)
      (fun _ s' => s'.life = s.life ∧ s'.cpu = s.cpu ∧
        (¬ Deletes s k i m ∧ s'.queue = s.queue ∨
          Deletes s k i m ∧ (s.procs m).killed = true ∧
            s'.queue = update s.queue k ((s.queue k).removeAt i) ∨
          Deletes s k i m ∧ (s.procs m).killed = false ∧ HasRoom (s.queue lower) ∧
            s'.queue = update (update s.queue lower ((s.queue lower).append m)) k
              ((s.queue k).removeAt i)))
      (fun x _ => x = .overrun ∧ Deletes s k i m ∧ (s.procs m).killed = false ∧
        ¬ HasRoom (s.queue lower)) s := by
  have deletes : Deletes s k i m ↔
      clockperiod k ≤ (s.procs m).ticks k ∨ (s.procs m).killed = true := by
    rw [Deletes, if_neg hk]
  simp only [demote, wp_bind, wp_get, wp_ite, wp_pure, ← deletes, modifyProc, wp_modify]
  refine ⟨fun del => ⟨fun alive => ?_, fun killed => ?_⟩,
    fun keep => ⟨trivial, trivial, .inl ⟨keep, trivial⟩⟩⟩
  · set s₁ := s.setProc m fun q => { q with current_queue := q.current_queue + 1 } with hs₁
    refine wp_mono (push_spec (s := s₁) lower m) (fun _ s₂ h₂ => ?_)
      fun x s₂ h₂ => ⟨h₂.1, del, alive, h₂.2⟩
    obtain ⟨room, rfl⟩ := h₂
    refine ⟨?_, rfl, .inr (.inr ⟨del, alive, room, ?_⟩)⟩
    · rw [life_setProc_same]
      · show s₁.life = s.life
        rw [hs₁, life_setProc_same]
        simp
      · simp
    · show update (update s.queue lower _) k ((update s.queue lower _ k).removeAt i) = _
      rw [update_of_ne ne]
      rfl
  · refine ⟨?_, rfl, .inr (.inl ⟨del, by simpa using killed, rfl⟩)⟩
    rw [life_setProc_same]
    · rfl
    · simp

theorem requeue_spec (i : ℕ) (m : Slot) :
    wp (requeue i m)
      (fun _ s' => s'.life = s.life ∧ s'.cpu = s.cpu ∧
        ((s.procs m).killed = true ∧
            s'.queue = update s.queue 4 ((s.queue 4).closeGap i) ∨
          (s.procs m).killed = false ∧ 0 ≤ (s.queue 4).last ∧
            s'.queue = update s.queue 4 (((s.queue 4).removeAt i).append m)))
      (fun x _ => x = .overrun ∧ (s.procs m).killed = false ∧
        ¬ (0 ≤ (s.queue 4).last ∧ (s.queue 4).last < 64)) s := by
  simp only [requeue, store, wp_bind, wp_get, wp_modify, wp_ite, wp_pure, wp_set, wp_throw]
  have cap : (NPROC : ℤ) = 64 := rfl
  refine ⟨fun killed => ⟨rfl, rfl, .inl ⟨killed, rfl⟩⟩, fun alive => ⟨fun inside => ?_, fun out => ?_⟩⟩
  · refine ⟨rfl, rfl, .inr ⟨by simpa using alive, inside.1, ?_⟩⟩
    rw [← ArrayQueue.rotate_eq]
    simp [Kernel.setQueue, ArrayQueue.rotate, ArrayQueue.closeGap]
  · exact ⟨trivial, by simpa using alive, by omega⟩

end

end Xv6
