import Xv6.Proc.Feedback

/-!
# Processes in the feedback queues

As long as the scheduler deletes the own entry of the process it comes back from, and deletes a
killed process only once it is a zombie, every process that lives has a live queue entry.  The code
makes sure of neither.
-/

namespace Xv6

open Lib Function

/-- The level and index that the scheduler comes back to, and the process. -/
def Kernel.returning (s : Kernel) : Event → Option (Level × ℕ × Slot)
  | .schedule c =>
      match s.cpu c with
      | .back (.queue k i) m => some (k, i, m)
      | _ => none
  | _ => none

/-- The scheduler deletes only the entry of the process that ran, and a killed one has exited. -/
def DeletesOwnEntry (s : Kernel) (e : Event) : Prop :=
  ∀ r ∈ s.returning e, Deletes s r.1 r.2.1 r.2.2 →
    (s.queue r.1).At r.2.1 r.2.2 ∧
      ((s.procs r.2.2).killed = true → (s.procs r.2.2).state = .ZOMBIE)
  deriving Decidable

/-- Every living process has a live queue entry. -/
structure Kept (s : Kernel) : Prop where
  sane : s.life.Sane
  low : ∀ k, -1 ≤ (s.queue k).last
  queued : ∀ p, s.life.Alive p → ∃ k, (s.queue k).Holds p

namespace Kept

variable {s s' : Kernel}

theorem congr (h : Kept s) (life : s'.life = s.life) (queue : s'.queue = s.queue) : Kept s' := by
  refine ⟨life ▸ h.sane, queue ▸ h.low, fun p hp => ?_⟩
  rw [queue]
  exact h.queued p (life ▸ hp)

theorem quiet (h : Kept s) (q : Quiet s s') : Kept s' where
  sane := h.sane.moves q.moves
  low := q.queue ▸ h.low
  queued p hp := by
    rw [q.queue]
    exact h.queued p (h.sane.alive_of_moves q.moves hp)

theorem reaps (h : Kept s) (r : Reaps s s') : Kept s' := by
  obtain ⟨z, zombie, thin⟩ := r.queue
  refine ⟨h.sane.moves r.moves, fun k => (thin k).low (h.low k), fun p hp => ?_⟩
  have alive := h.sane.alive_of_moves r.moves hp
  obtain ⟨k, holds⟩ := h.queued p alive
  have other : ¬ (s.procs p).pid = (s.procs z).pid := fun same => by
    have e := h.sane.pids p z same (h.sane.named p alive.1)
    exact alive.2 (e ▸ zombie)
  exact ⟨k, (thin k).holds other holds⟩

theorem born {m np : Slot} (h : Kept s) (b : Born s m np s') : Kept s' := by
  refine ⟨b.life ▸ h.sane.birth m b.unused, fun k => ?_, fun p hp => ?_⟩
  · rw [b.queue, update_apply]
    split
    · have := b.room.1
      simp only [ArrayQueue.append]
      omega
    · exact h.low k
  by_cases e : p = np
  · refine ⟨0, ?_⟩
    rw [b.queue, update_self, ArrayQueue.holds_append b.room.1]
    exact .inr e.symm
  have alive : s.life.Alive p := by
    rw [b.life] at hp
    simpa [Life.Alive, Life.birth, e] using hp
  obtain ⟨k, holds⟩ := h.queued p alive
  refine ⟨k, ?_⟩
  rw [b.queue, update_apply]
  split
  next e' =>
    rw [ArrayQueue.holds_append b.room.1]
    exact .inl (e' ▸ holds)
  · exact holds

theorem promoted {k lower : Level} (ne : k ≠ lower) {i : ℕ} {p : Slot} (h : Kept s)
    (pr : Promoted s k lower i p s') : Kept s' := by
  obtain ⟨l, thin⟩ := pr.queue
  set Q := update s.queue lower ((s.queue lower).append p) with hQ
  have holdsQ (k' : Level) {b : Slot} (hb : (s.queue k').Holds b) : (Q k').Holds b := by
    rw [hQ, update_apply]
    split
    next e =>
      rw [ArrayQueue.holds_append pr.room.1]
      exact .inl (e ▸ hb)
    · exact hb
  refine ⟨pr.life ▸ h.sane, fun k' => (thin k').1.low ?_, fun b hb => ?_⟩
  · rw [hQ, update_apply]
    split
    · have := pr.room.1
      simp only [ArrayQueue.append]
      omega
    · exact h.low k'
  by_cases e : b = p
  · subst e
    by_cases hl : l = lower
    · refine ⟨k, ?_⟩
      rw [(thin k).2 (hl ▸ ne)]
      exact holdsQ k ⟨i, pr.entry⟩
    refine ⟨lower, ?_⟩
    rw [(thin lower).2 (Ne.symm hl), hQ, update_self, ArrayQueue.holds_append pr.room.1]
    exact .inr rfl
  · have alive : s.life.Alive b := pr.life ▸ hb
    obtain ⟨k', holds⟩ := h.queued b alive
    refine ⟨k', (thin k').1.holds (fun same => e ?_) (holdsQ k' holds)⟩
    exact h.sane.pids b p same (h.sane.named b alive.1)

theorem ageing (h : Kept s) : wp ageing (fun _ s' => Kept s' ∧ s'.cpu = s.cpu) anyStop s :=
  ageing_keeps (J := fun s' => Kept s' ∧ s'.cpu = s.cpu)
    (fun j _ _ _ _ _ _ _ h raised =>
      ⟨h.1.promoted (Fin.castSucc_lt_succ (i := j)).ne' raised.promoted, raised.promoted.cpu.trans
        h.2⟩)
    (fun _ _ _ => trivial) (fun _ _ _ _ _ _ _ _ _ _ => trivial) ⟨h, rfl⟩

theorem of_holds (h : Kept s) (life : s'.life = s.life) (low : ∀ k, -1 ≤ (s'.queue k).last)
    (m : Slot) (others : ∀ k b, b ≠ m → (s.queue k).Holds b → (s'.queue k).Holds b)
    (own : s.life.Alive m → ∃ k, (s'.queue k).Holds m) : Kept s' := by
  refine ⟨life ▸ h.sane, low, fun b hb => ?_⟩
  rw [life] at hb
  by_cases e : b = m
  · subst e
    exact own hb
  obtain ⟨k, holds⟩ := h.queued b hb
  exact ⟨k, others k b e holds⟩

theorem demote {k lower : Level} (hk : k ≠ 4) (ne : k ≠ lower) {i : ℕ} {m : Slot} (h : Kept s)
    (own : Deletes s k i m → (s.queue k).At i m ∧
      ((s.procs m).killed = true → (s.procs m).state = .ZOMBIE)) :
    wp (demote k lower i m) (fun _ s' => Kept s' ∧ s'.cpu = s.cpu) anyStop s := by
  refine wp_mono (demote_spec hk ne i m) (fun _ s' h' => ?_) fun _ _ _ => trivial
  obtain ⟨life, cpu, ⟨-, queue⟩ | ⟨del, killed, queue⟩ | ⟨del, alive, room, queue⟩⟩ := h'
  · exact ⟨h.congr life queue, cpu⟩
  all_goals
    obtain ⟨entry, dead⟩ := own del
    have live := entry.1
    refine ⟨h.of_holds life (fun k' => ?_) m (fun k' b hb holds => ?_) fun hm => ?_, cpu⟩
  · rw [queue, update_apply]
    split
    · simp only [ArrayQueue.removeAt]
      omega
    · exact h.low k'
  · rw [queue, update_apply]
    split
    next e => exact (e ▸ holds).removeAt entry hb.symm
    · exact holds
  · exact absurd (dead killed) hm.2
  · rw [queue, update_apply, update_apply]
    split
    · simp only [ArrayQueue.removeAt]
      omega
    split
    · have := room.1
      simp only [ArrayQueue.append]
      omega
    · exact h.low k'
  · rw [queue, update_apply, update_apply]
    split
    next e => exact (e ▸ holds).removeAt entry hb.symm
    · split
      next e => exact (ArrayQueue.holds_append room.1).2 (.inl (e ▸ holds))
      · exact holds
  · refine ⟨lower, ?_⟩
    rw [queue, update_of_ne ne.symm, update_self]
    exact (ArrayQueue.holds_append room.1).2 (.inr rfl)

theorem requeue {i : ℕ} {m : Slot} (h : Kept s)
    (own : Deletes s 4 i m → (s.queue 4).At i m ∧
      ((s.procs m).killed = true → (s.procs m).state = .ZOMBIE)) :
    wp (requeue i m) (fun _ s' => Kept s' ∧ s'.cpu = s.cpu) anyStop s := by
  refine wp_mono (requeue_spec i m) (fun _ s' h' => ?_) fun _ _ _ => trivial
  have deletes : Deletes s 4 i m ↔ ((s.procs m).killed = true → (i : ℤ) < (s.queue 4).last) := by
    rw [Deletes, if_pos rfl]
  obtain ⟨life, cpu, ⟨killed, queue⟩ | ⟨alive, -, queue⟩⟩ := h'
  · by_cases inside : (i : ℤ) < (s.queue 4).last
    · obtain ⟨entry, dead⟩ := own (deletes.2 fun _ => inside)
      refine ⟨h.of_holds life (fun k => ?_) m (fun k b hb holds => ?_) fun hm => ?_, cpu⟩
      · rw [queue, update_apply]
        split
        · exact h.low 4
        · exact h.low k
      · rw [queue, update_apply]
        split
        next e => exact (e ▸ holds).closeGap entry hb.symm
        · exact holds
      · exact absurd (dead killed) hm.2
    · rw [ArrayQueue.closeGap_of_last_le (by omega), update_eq_self] at queue
      exact ⟨h.congr life queue, cpu⟩
  obtain ⟨entry, -⟩ := own (deletes.2 fun killed => by simp [alive] at killed)
  have live := entry.1
  have room : -1 ≤ ((s.queue 4).removeAt i).last := by
    simp only [ArrayQueue.removeAt]
    omega
  refine ⟨h.of_holds life (fun k => ?_) m (fun k b hb holds => ?_) fun _ => ⟨4, ?_⟩, cpu⟩
  · rw [queue, update_apply]
    split
    · simp only [ArrayQueue.append]
      omega
    · exact h.low k
  · rw [queue, update_apply]
    split
    next e => exact (ArrayQueue.holds_append room).2 (.inl ((e ▸ holds).removeAt entry hb.symm))
    · exact holds
  · rw [queue, update_self]
    exact (ArrayQueue.holds_append room).2 (.inr rfl)

theorem afterSwtch {k : Level} {i : ℕ} {m : Slot} (h : Kept s)
    (own : Deletes s k i m → (s.queue k).At i m ∧
      ((s.procs m).killed = true → (s.procs m).state = .ZOMBIE)) :
    wp (afterSwtch (.queue k i) m) (fun _ s' => Kept s' ∧ s'.cpu = s.cpu) anyStop s := by
  match k with
  | 0 | 1 | 2 | 3 => exact h.demote (by decide) (by decide) own
  | 4 => exact h.requeue own

theorem setCpu (h : Kept s) {c : ℕ} {x : Cpu} (idle : (s.cpu c).proc = none)
    (idle' : x.proc = none) : Kept (s.setCpu c x) := by
  refine h.congr ?_ rfl
  rw [life_setCpu, idle']
  exact Life.ext rfl rfl rfl (update_eq_self_iff.2 idle.symm) rfl

theorem step {e : Event} (h : Kept s) (own : DeletesOwnEntry s e) :
    wp (step .MLFQ e) (fun _ => Kept) anyStop s := by
  refine step_keeps .MLFQ e h (fun _ _ _ => trivial) (fun _ _ h q => h.quiet q)
    (fun _ _ _ h r => h.reaps r) ⟨fun c m _ _ hm => ?_, fun c _ hc _ _ => ?_,
    fun c k i m he hc => ?_⟩
  · refine wp_mono (forkAlloc_spec m hm.2) (fun _ s' h' => ?_) fun _ _ _ => trivial
    rcases h' with ⟨rfl, -⟩ | ⟨np, -, b⟩
    · exact h
    · exact h.born b
  · have locked : Kept (s.setLock (some c)) := h.congr rfl rfl
    rw [wp_bind]
    refine wp_mono locked.ageing (fun _ s' h' => ?_) fun _ _ _ => trivial
    rw [wp_modify]
    refine h'.1.setCpu ?_ rfl
    rw [h'.2]
    simp [Kernel.setLock, hc, Cpu.proc]
  have back : s.returning e = some (k, i, m) := by
    rw [he, Kernel.returning, hc]
  rw [wp_bind]
  refine wp_mono (h.afterSwtch (own _ back)) (fun _ s' h' => ?_) fun _ _ _ => trivial
  rw [wp_modify]
  refine h'.1.setCpu ?_ rfl
  rw [h'.2, hc]
  rfl

theorem boot : Kept Kernel.boot where
  sane := boot_sane
  low k := by
    rw [boot_queue]
    split <;> decide
  queued p hp := by
    rw [boot_life] at hp
    have first : p = 0 := by
      by_contra ne
      simp [Life.Alive, ne] at hp
    refine ⟨0, ?_⟩
    rw [boot_queue, first]
    decide

end Kept

/-- Where the scheduler deletes only the entry of the process it comes back from, a killed one as a
zombie, every runnable process has a live queue entry. -/
theorem runnable_is_queued (es : List Event) {s : Kernel}
    (own : Along (step .MLFQ) DeletesOwnEntry es Kernel.boot)
    (reached : exec (run (step .MLFQ) es) Kernel.boot = (.ok ⟨⟩, s)) (p : Slot)
    (runnable : (s.procs p).state = .RUNNABLE) : ∃ k, (s.queue k).Holds p := by
  have kept : Kept s := wp_of_ok (own.wp_run (fun _ _ h ok => h.step ok) Kept.boot) reached
  exact kept.queued p (by simp [Life.Alive, Kernel.life, runnable])

/-- The first process starts on CPU 0 and forks. -/
def forkOnce : List Event :=
  [.schedule 0, .schedule 0, .resume 0, .sysret 0, .syscall 0, .fork 0, .forkStack 0, .forkDone 0]

/-- The parent uses up its slice and moves to queue 1. -/
def forkedThenDown : List Event :=
  forkOnce ++ [.timer 0, .trapNext 0, .trapNext 0, .schedule 0]

theorem runnable_is_queued_child :
    let s := (exec (run (step .MLFQ) forkedThenDown) Kernel.boot).2
    (∃ k, (s.queue k).Holds 1) ∧ (s.queue 1).live = [some 0] := by
  have own : Along (step .MLFQ) DeletesOwnEntry forkedThenDown Kernel.boot := by decide +kernel
  have done : (exec (run (step .MLFQ) forkedThenDown) Kernel.boot).1 = .ok ⟨⟩ := by decide +kernel
  exact ⟨runnable_is_queued forkedThenDown own (exec_eq_of_ok done) 1 (by decide +kernel),
    by decide +kernel⟩

/-- The child kills itself, and the clock ticks before the system call returns. -/
def killedInKernel : List Event :=
  forkOnce ++ [.wait 0, .schedule 0, .schedule 0, .resume 0, .syscall 0, .kill 0 2, .timer 0,
    .trapNext 0, .trapNext 0] ++ List.replicate 6 (.schedule 0)

/-- The scheduler drops the child, which is runnable and has not exited. -/
theorem killedInKernel_lost :
    let r := exec (run (step .MLFQ) killedInKernel) Kernel.boot
    r.1 = .ok ⟨⟩ ∧ r.2.lock = none ∧ (r.2.procs 1).state = .RUNNABLE ∧
      ∀ k, ¬ (r.2.queue k).Holds 1 := by
  decide +kernel

end Xv6
