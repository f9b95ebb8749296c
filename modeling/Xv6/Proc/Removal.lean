import Xv6.Proc.QueueBounds
import Xv6.Proc.Running

/-!
# Deleting the entry of a process that comes back

When a process gives the CPU back, the scheduler deletes a queue entry by the index at which it
dispatched the process.

* A killed process loses its entry, and nothing else happens, at the four upper levels
  (`drops_killed_iff`).
* A process that has used up its time slice moves to the queue below exactly when its entry is
  still at that index, or is the last one and the index lies behind it (`demotes_iff`).
-/

namespace Xv6

open Lib Function

/-- No process occupies two live slots. -/
def SingleSlot (s : Kernel) : Prop :=
  ∀ p k i k' i', (s.queue k).At i p → (s.queue k').At i' p → k = k' ∧ i = i'

/-- Every live slot is set, and no process occupies two of them. -/
structure Tidy (s : Kernel) : Prop where
  low : ∀ k, -1 ≤ (s.queue k).last
  filled : ∀ k, (s.queue k).Filled
  single : SingleSlot s

theorem Tidy.once {s : Kernel} (h : Tidy s) : Once s where
  low := h.low
  filled := h.filled
  distinct k i j p hi hj := (h.single p k i k j hi hj).2

theorem Tidy.congr {s s' : Kernel} (h : Tidy s) (queue : s'.queue = s.queue) : Tidy s' where
  low := queue ▸ h.low
  filled := queue ▸ h.filled
  single p k i k' i' := queue ▸ h.single p k i k' i'

/-! ## Killed processes -/

/-- Queue `k` has lost the entry at index `i`, and nothing else has happened to the queues. -/
structure Dropped (s : Kernel) (k : Level) (i : ℕ) (s' : Kernel) : Prop where
  live : (s'.queue k).live = (s.queue k).live.eraseIdx i
  last : (s'.queue k).last = (s.queue k).last - 1
  others : ∀ k', k' ≠ k → s'.queue k' = s.queue k'
  single : SingleSlot s → SingleSlot s'

section

variable {s s' : Kernel} {k : Level} {i : ℕ} {m : Slot}

theorem SingleSlot.of_removeAt (h : SingleSlot s)
    (queue : s'.queue = update s.queue k ((s.queue k).removeAt i)) : SingleSlot s' := by
  -- every entry that is left was at some index of the same queue before
  have before (p : Slot) (k' : Level) (j : ℕ) (hj : (s'.queue k').At j p) :
      (s.queue k').At (if k' = k then ArrayQueue.skip i j else j) p := by
    rw [queue, update_apply] at hj
    split at hj
    next e =>
      subst e
      rw [if_pos rfl]
      exact ArrayQueue.at_of_removeAt hj
    next ne => rwa [if_neg ne]
  intro p k₁ j₁ k₂ j₂ h₁ h₂
  obtain ⟨rfl, index⟩ := h p _ _ _ _ (before p k₁ j₁ h₁) (before p k₂ j₂ h₂)
  refine ⟨rfl, ?_⟩
  split at index
  · exact ArrayQueue.skip_injective index
  · exact index

theorem Dropped.of_removeAt (entry : (s.queue k).At i m)
    (queue : s'.queue = update s.queue k ((s.queue k).removeAt i)) : Dropped s k i s' where
  live := by rw [queue, update_self, ArrayQueue.live_removeAt entry.1]
  last := by rw [queue, update_self, ArrayQueue.removeAt]
  others k' ne := by rw [queue, update_of_ne ne]
  single single := single.of_removeAt queue

theorem demote_drops {lower : Level} (hk : k ≠ 4) (ne : k ≠ lower) (entry : (s.queue k).At i m)
    (killed : (s.procs m).killed = true) :
    wp (demote k lower i m) (fun _ s' => Dropped s k i s') never s := by
  apply wp_mono (demote_spec hk ne i m)
  · rintro _ s' ⟨-, -, ⟨stays, -⟩ | ⟨-, -, queue⟩ | ⟨-, alive, -⟩⟩
    · rw [Deletes, if_neg hk] at stays
      exact absurd (.inr killed) stays
    · exact .of_removeAt entry queue
    · simp [killed] at alive
  · rintro _ _ ⟨-, -, alive, -⟩
    simp [killed] at alive

theorem requeue_keeps_last (killed : (s.procs m).killed = true) :
    wp (requeue i m) (fun _ s' => (s'.queue 4).last = (s.queue 4).last) never s := by
  apply wp_mono (requeue_spec i m)
  · rintro _ s' ⟨-, -, ⟨-, queue⟩ | ⟨alive, -⟩⟩
    · rw [queue, update_self]
      rfl
    · simp [killed] at alive
  · rintro _ _ ⟨-, alive, -⟩
    simp [killed] at alive

/-- The code after `swtch` drops a killed process from its queue, and nothing else, at the four
upper levels only. -/
theorem drops_killed_iff (entry : (s.queue k).At i m) (killed : (s.procs m).killed = true) :
    wp (afterSwtch (.queue k i) m) (fun _ s' => Dropped s k i s') (fun _ _ => False) s ↔ k ≠ 4 := by
  constructor
  · rintro drops rfl
    apply wp_false (wp_mono (wp_and drops (requeue_keeps_last killed)) _ _)
    · rintro _ s' ⟨dropped, same⟩
      have := dropped.last
      omega
    · exact fun _ _ h => h.1
  intro hk
  match k with
  | 0 | 1 | 2 | 3 => exact demote_drops (by decide) (by decide) entry killed
  | 4 => exact absurd rfl hk

end

/-- Two processes in queue `k`; the first one is killed. -/
def killedFirst (k : Level) : Kernel :=
  (Kernel.zero.setQueue k ((ArrayQueue.empty.append 0).append 1)).setProc 0 fun q =>
    { q with killed := true }

theorem drops_killed_iff_highest :
    wp (afterSwtch (.queue 0 0) 0) (fun _ s' => Dropped (killedFirst 0) 0 0 s')
      (fun _ _ => False) (killedFirst 0) :=
  (drops_killed_iff (by decide) (by decide)).2 (by decide)

/-- In the lowest queue the process that is not killed ends up with two live slots. -/
theorem killedFirst_duplicates :
    let r := exec (afterSwtch (.queue 4 0) 0) (killedFirst 4)
    r.1 = .ok ⟨⟩ ∧ (r.2.queue 4).last = ((killedFirst 4).queue 4).last ∧
      ((killedFirst 4).queue 4).live = [some 0, some 1] ∧
      (r.2.queue 4).live = [some 1, some 1] := by
  decide

/-! ## Processes that have used up their time slice -/

/-- Process `m` has moved from queue `k` to the end of the queue below. -/
structure Demoted (s : Kernel) (k : Level) (m : Slot) (s' : Kernel) : Prop where
  held : (s.queue k).Holds m
  left : ¬ (s'.queue k).Holds m
  appended : (s'.queue (k + 1)).live = (s.queue (k + 1)).live ++ [some m]
  others : ∀ k', (s'.queue k').live.filter (· ≠ some m) = (s.queue k').live.filter (· ≠ some m)
  current : (s'.procs m).current_queue = k.val + 1
  ticks : (s'.procs m).ticks k = 0

theorem next_level : ∀ k : Level, k ≠ 4 → k + 1 ≠ k ∧ k + 1 ≠ 0 := by decide

/-- The state after the code for queue `k` has moved process `m` down. -/
def moveDown (s : Kernel) (k lower : Level) (i : ℕ) (m : Slot) : Kernel :=
  (((s.setProc m fun q => { q with current_queue := q.current_queue + 1 }).setQueue lower
    ((s.queue lower).append m)).setQueue k ((s.queue k).removeAt i)).setProc m fun q =>
      { q with ticks := update q.ticks k 0 }

section

variable {s s' : Kernel} {k lower : Level} {i : ℕ} {m : Slot}

theorem demote_moves (ne : k ≠ lower) (room : HasRoom (s.queue lower))
    (alive : (s.procs m).killed = false) (used : clockperiod k ≤ (s.procs m).ticks k) :
    wp (demote k lower i m) (fun _ s' => s' = moveDown s k lower i m) never s := by
  simp only [demote, wp_bind, wp_get, if_pos (Or.inl used : _ ∨ _), if_pos alive, modifyProc,
    wp_modify]
  apply wp_mono (push_spec (s := s.setProc m _) lower m)
  · rintro _ s' ⟨-, rfl⟩
    have kept : ((s.setProc m fun q => { q with current_queue := q.current_queue + 1 }).setQueue
        lower ((s.queue lower).append m)).queue k = s.queue k := update_of_ne ne _ _
    exact congrArg (fun q => ((Kernel.setQueue _ k (q.removeAt i)).setProc m _)) kept
  · rintro _ _ ⟨-, full⟩
    exact full room

theorem demote_stays (alive : (s.procs m).killed = false)
    (early : (s.procs m).ticks k < clockperiod k) :
    wp (demote k lower i m) (fun _ s' => s' = s) never s := by
  have keep : ¬ (clockperiod k ≤ (s.procs m).ticks k ∨ (s.procs m).killed = true) := by
    rw [alive]
    simpa using early
  simp only [demote, wp_bind, wp_get, if_neg keep, wp_pure]

/-- Only queue `k` holds process `m`, at one index, and the queue below has room. -/
structure OnlyIn (k : Level) (m : Slot) (s : Kernel) : Prop where
  sane : s.life.Sane
  room : HasRoom (s.queue (k + 1))
  away : ∀ k', k' ≠ k → ¬ (s.queue k').Holds m
  once : ∀ j j', (s.queue k).At j m → (s.queue k).At j' m → j = j'

theorem demoted_moveDown_iff (hk : k ≠ 4) (h : OnlyIn k m s) :
    Demoted s k m (moveDown s k (k + 1) i m) ↔
      (s.queue k).At ((s.queue k).removed i) m ∧ (s.procs m).current_queue = k.val := by
  have ne : k + 1 ≠ k := (next_level k hk).1
  have queue (k' : Level) : (moveDown s k (k + 1) i m).queue k' = if k' = k then
      (s.queue k).removeAt i else if k' = k + 1 then (s.queue (k + 1)).append m else s.queue k' := by
    simp only [moveDown, Kernel.setProc, Kernel.setQueue, update_apply]
  have current : ((moveDown s k (k + 1) i m).procs m).current_queue =
      (s.procs m).current_queue + 1 := by
    simp [moveDown, Kernel.setProc, Kernel.setQueue]
  constructor
  · intro d
    obtain ⟨j, hj⟩ := d.held
    have left := d.left
    rw [queue, if_pos rfl, ArrayQueue.not_holds_removeAt_iff hj fun j' hj' => h.once j' j hj' hj]
      at left
    have count := d.current
    exact ⟨left ▸ hj, by omega⟩
  rintro ⟨here, cq⟩
  have some : 0 ≤ (s.queue k).last := by
    have := here.1
    omega
  refine ⟨⟨_, here⟩, ?_, ?_, fun k' => ?_, by rw [current, cq], ?_⟩
  · rw [queue, if_pos rfl, ArrayQueue.not_holds_removeAt_iff here fun j' hj' => h.once j' _ hj' here]
  · rw [queue, if_neg ne, if_pos rfl, ArrayQueue.live_append h.room.1]
  · rw [queue]
    split
    next e =>
      rw [e, ← ArrayQueue.removeAt_removed some]
      exact ArrayQueue.filter_live_removeAt here (by simp)
    · split
      next e =>
        rw [e, ArrayQueue.live_append h.room.1, List.filter_append]
        simp
      · rfl
  · simp [moveDown, Kernel.setProc, Kernel.setQueue]

namespace OnlyIn

theorem congr (h : OnlyIn k m s) (sane : s'.life.Sane) (queue : s'.queue = s.queue) :
    OnlyIn k m s' :=
  ⟨sane, queue ▸ h.room, queue ▸ h.away, queue ▸ h.once⟩

theorem reaps (h : OnlyIn k m s) (r : Reaps s s') : OnlyIn k m s' := by
  obtain ⟨z, -, thin⟩ := r.queue
  refine ⟨h.sane.moves r.moves, ?_, fun k' ne holds => h.away k' ne ((thin k').holds_of holds), ?_⟩
  · apply (thin (k + 1)).keeps (I := HasRoom) _ h.room
    rintro q i a hi - ⟨low, high⟩
    have := hi.1
    simp only [HasRoom, ArrayQueue.removeAt]
    omega
  apply (thin k).keeps (I := fun q => ∀ j j', q.At j m → q.At j' m → j = j') _ h.once
  intro q i a _ _ once j j' hj hj'
  apply ArrayQueue.skip_injective (i := i)
  exact once _ _ (ArrayQueue.at_of_removeAt hj) (ArrayQueue.at_of_removeAt hj')

theorem born {m' np : Slot} (hk : k ≠ 4) (h : OnlyIn k m s) (b : Born s m' np s') (ne : np ≠ m) :
    OnlyIn k m s' := by
  have below : k + 1 ≠ 0 := (next_level k hk).2
  have entries (k' : Level) (j : ℕ) (hj : (s'.queue k').At j m) : (s.queue k').At j m := by
    rw [b.queue, update_apply] at hj
    split at hj
    next e =>
      rw [ArrayQueue.at_append b.room.1] at hj
      exact e ▸ hj.resolve_right fun new => ne new.2
    · exact hj
  refine ⟨b.life ▸ h.sane.birth m' b.unused, ?_, fun k' other => ?_, fun j j' hj hj' => ?_⟩
  · rw [b.queue, update_of_ne below]
    exact h.room
  · rintro ⟨j, hj⟩
    exact h.away k' other ⟨j, entries k' j hj⟩
  · exact h.once j j' (entries k j hj) (entries k j' hj')

theorem step (hk : k ≠ 4) {c : ℕ} {at_ : Place} {e : Event} (h : OnlyIn k m s)
    (run : s.cpu c = .running at_ m) (own : ∀ c', e ≠ .schedule c') :
    wp (step .MLFQ e) (fun _ => OnlyIn k m) anyStop s := by
  apply step_keeps .MLFQ e h (fun _ _ _ => trivial)
    (fun _ _ h q => h.congr (h.sane.moves q.moves) q.queue) fun _ _ _ h r => h.reaps r
  constructor
  · intro c' m' _ _ enabled
    apply wp_mono (forkAlloc_spec m' enabled.2) _ fun _ _ _ => trivial
    rintro _ s' (⟨rfl, -⟩ | ⟨np, -, b⟩)
    · exact h
    apply h.born hk b
    rintro rfl
    have running := h.sane.running c np (by simp [Kernel.life, run, Cpu.proc])
    have unused := b.unused
    simp [Kernel.life, unused] at running
  · exact fun c' he => absurd he (own c')
  · exact fun c' _ _ _ he => absurd he (own c')

end OnlyIn

end

/-- `m` runs on CPU `c` since its dispatch, and the event is not a step of a scheduler. -/
def WhileRunning (c : ℕ) (at_ : Place) (m : Slot) (s : Kernel) (e : Event) : Prop :=
  s.cpu c = .running at_ m ∧ ∀ c', e ≠ .schedule c'

instance : ∀ e : Event, Decidable (∀ c, e ≠ .schedule c)
  | .schedule c => isFalse fun other => other c rfl
  | .fork _ | .resume _ | .timer _ | .trapNext _ | .wakeup _ | .syscall _ | .sysret _
  | .forkStack _ | .forkFail _ | .forkDone _ | .exit _ | .wait _ | .waitx _ | .kill _ _
  | .sleep _ _ => isTrue fun _ same => nomatch same

instance (c : ℕ) (at_ : Place) (m : Slot) (s : Kernel) (e : Event) :
    Decidable (WhileRunning c at_ m s e) :=
  inferInstanceAs (Decidable (_ ∧ _))

theorem Tidy.onlyIn {s : Kernel} {k : Level} {i : ℕ} {m : Slot} (hk : k ≠ 4) (h : Tidy s)
    (sane : s.life.Sane) (entry : (s.queue k).At i m) : OnlyIn k m s := by
  have below : k + 1 ≠ k := (next_level k hk).1
  have away (k' : Level) (ne : k' ≠ k) : ¬ (s.queue k').Holds m := fun ⟨j, hj⟩ =>
    ne (h.single m k' j k i hj entry).1
  exact ⟨sane, h.once.hasRoom (away _ below), away, fun j j' hj hj' => (h.single m k j k j' hj hj').2⟩

/-- A process is dispatched from index `i` of one of the upper four queues. If its slice is used up,
the code after `swtch` moves it, and nothing else, to the queue below exactly when its entry is
still at index `i` (or the last one) and `current_queue` names the queue; otherwise no queue
changes. -/
theorem demotes_iff {s₀ s : Kernel} {c : ℕ} {k : Level} {i : ℕ} {m : Slot} {es : List Event}
    (hk : k ≠ 4) (sane : s₀.life.Sane) (tidy : Tidy s₀) (entry : (s₀.queue k).At i m)
    (own : Along (step .MLFQ) (WhileRunning c (.queue k i) m) es s₀)
    (reached : exec (run (step .MLFQ) es) s₀ = (.ok ⟨⟩, s)) (alive : (s.procs m).killed = false) :
    (clockperiod k ≤ (s.procs m).ticks k →
      (wp (afterSwtch (.queue k i) m) (fun _ s' => Demoted s k m s') (fun _ _ => False) s ↔
        (s.queue k).At ((s.queue k).removed i) m ∧ (s.procs m).current_queue = k.val)) ∧
    ((s.procs m).ticks k < clockperiod k →
      wp (afterSwtch (.queue k i) m) (fun _ s' => s'.queue = s.queue) (fun _ _ => False) s) := by
  have kept := own.wp_run (fun _ _ h ok => OnlyIn.step hk h ok.1 ok.2) (tidy.onlyIn hk sane entry)
  have only : OnlyIn k m s := wp_of_ok (Q := fun _ => OnlyIn k m) kept reached
  have code : afterSwtch (.queue k i) m = demote k (k + 1) i m := by
    match k with
    | 0 | 1 | 2 | 3 => rfl
    | 4 => exact absurd rfl hk
  have ne : k ≠ k + 1 := (next_level k hk).1.symm
  rw [code]
  constructor
  · intro used
    have moves := demote_moves (i := i) ne only.room alive used
    rw [← demoted_moveDown_iff hk only]
    constructor
    · intro demotes
      by_contra no
      apply wp_false (wp_mono (wp_and demotes moves) _ fun _ _ h => h.1)
      rintro _ s' ⟨d, rfl⟩
      exact no d
    intro d
    apply wp_imp moves
    rintro _ s' rfl
    exact d
  · intro early
    apply wp_imp (demote_stays alive early)
    rintro _ s' rfl
    rfl

theorem Tidy.boot : Tidy Kernel.boot := by
  have first (p : Slot) (k : Level) (i : ℕ) (h : (Kernel.boot.queue k).At i p) : k = 0 ∧ i = 0 := by
    have le := h.1
    rw [boot_queue] at le
    split at le
    next e =>
      simp only [ArrayQueue.append, ArrayQueue.empty] at le
      exact ⟨e, by omega⟩
    · simp only [ArrayQueue.empty] at le
      omega
  refine ⟨Once.boot.low, Once.boot.filled, fun p k i k' i' h h' => ?_⟩
  obtain ⟨rfl, rfl⟩ := first p k i h
  obtain ⟨rfl, rfl⟩ := first p k' i' h'
  exact ⟨rfl, rfl⟩

def firstDispatch : Kernel :=
  (Kernel.boot.setProc 0 fun q => { q with state := .RUNNING }).setCpu 0 (.running (.queue 0 0) 0)

theorem firstDispatch_sane : firstDispatch.life.Sane := by
  have runnable : Kernel.boot.life.state 0 = .RUNNABLE := by decide
  rw [firstDispatch, life_setCpu, life_setProc_state .RUNNING]
  · exact boot_sane.move (.run _ 0 0 rfl runnable)
  all_goals simp

def firstTick : List Event := [.resume 0, .timer 0, .trapNext 0, .trapNext 0]

theorem demotes_iff_first :
    let s := (exec (run (step .MLFQ) firstTick) firstDispatch).2
    wp (afterSwtch (.queue 0 0) 0) (fun _ s' => Demoted s 0 0 s') (fun _ _ => False) s := by
  have own : Along (step .MLFQ) (WhileRunning 0 (.queue 0 0) 0) firstTick firstDispatch := by
    decide +kernel
  have done : (exec (run (step .MLFQ) firstTick) firstDispatch).1 = .ok ⟨⟩ := by decide +kernel
  have result := demotes_iff (by decide) firstDispatch_sane (Tidy.boot.congr rfl) (by decide +kernel)
    own (exec_eq_of_ok done) (by decide +kernel)
  exact (result.1 (by decide +kernel)).2 ⟨by decide +kernel, by decide +kernel⟩

/-- The older child reaches queue 1 before its parent, the younger one after it; the older one
exits, and the parent is dispatched from index 1. -/
def childBefore : List Event :=
  forkTwice ++ olderSleeps ++ parentFollows ++ youngerFollows
where
  forkTwice : List Event :=
    [.schedule 0, .schedule 0, .resume 0, .fork 0, .forkStack 0, .forkDone 0, .fork 0,
    .forkStack 0, .forkDone 0, .sleep 0 (.addr 5)]
  -- the older child uses up its slice and sleeps in queue 1
  olderSleeps : List Event := [.schedule 0, .schedule 0, .resume 0, .timer 0, .trapNext 0, .trapNext 0,
    .schedule 0, .schedule 0, .schedule 0, .resume 0, .trapNext 0, .syscall 0, .sleep 0 (.addr 7),
    .schedule 0, .schedule 0, .schedule 0, .schedule 0, .schedule 0]
  -- the parent wakes up, uses up its slice in queue 0 and half of the one in queue 1
  parentFollows : List Event :=
    [.wakeup (.addr 5), .schedule 0, .schedule 0, .resume 0, .timer 0, .trapNext 0,
    .trapNext 0, .schedule 0, .schedule 0, .schedule 0, .schedule 0, .resume 0, .trapNext 0,
    .timer 0, .trapNext 0, .trapNext 0, .schedule 0, .schedule 0, .schedule 0, .schedule 0,
    .schedule 0]
  -- the younger child uses up its slice, and the older one exits
  youngerFollows : List Event :=
    [.schedule 0, .schedule 0, .resume 0, .wakeup (.addr 7), .timer 0, .trapNext 0,
    .trapNext 0, .schedule 0, .schedule 0, .schedule 0, .resume 0, .exit 0, .schedule 0, .schedule 0]

/-- The parent reaps its child and uses up its slice. -/
def reapInSlice : List Event :=
  [.resume 0, .trapNext 0, .wait 0, .timer 0, .trapNext 0, .trapNext 0]

/-- The live part of every queue. -/
def Kernel.lives (s : Kernel) : List (List (Option Slot)) :=
  (List.finRange 5).map fun k => (s.queue k).live

/-- The entry of the younger child is deleted, and the parent is in queue 1 twice. -/
theorem childBefore_wrong_entry :
    let s₀ := (exec (run (step .MLFQ) childBefore) Kernel.boot).2
    let s := (exec (run (step .MLFQ) reapInSlice) s₀).2
    let r := exec (afterSwtch (.queue 1 1) 0) s
    s₀.cpu 0 = .running (.queue 1 1) 0 ∧ s₀.lives = [[], [some 1, some 0, some 2], [], [], []] ∧
      s.cpu 0 = .back (.queue 1 1) 0 ∧ (s.procs 0).killed = false ∧
      clockperiod 1 ≤ (s.procs 0).ticks 1 ∧ s.lives = [[], [some 0, some 2], [], [], []] ∧
      r.1 = .ok ⟨⟩ ∧ r.2.lives = [[], [some 0], [some 0], [], []] := by
  decide +kernel

/-! ## `rem_process` -/

/-- `rem_process`, following entries by `deref`. -/
def rem_processWith (deref : Level → ℕ → KM Slot) (pid curq : ℤ) : KM PUnit :=
  match level curq with
  | none => pure ⟨⟩
  | some k =>
      forRange 0 NPROC fun i => do
        let s ← get
        if (i : ℤ) ≤ (s.queue k).last then
          let p ← deref k i
          if (s.procs p).pid = pid then
            set (s.setQueue k ((s.queue k).removeAt i))
          else pure ⟨⟩
        else pure ⟨⟩

theorem level_val (k : Level) : level k.val = some k := by
  have bounds : 0 ≤ ((k.val : ℕ) : ℤ) ∧ ((k.val : ℕ) : ℤ) < 5 := ⟨by omega, by omega⟩
  rw [level, dif_pos bounds]
  rfl

/-- Follow an entry only if it is live, and treat any other as if it had never been set. -/
def liveEntry (k : Level) (i : ℕ) : KM Slot := do
  let s ← get
  if (i : ℤ) ≤ (s.queue k).last then entry k i else throw .null

/-- Live entries are followed to the process they hold. -/
def ReadsLive (deref : Level → ℕ → KM Slot) : Prop :=
  ∀ (s : Kernel) (k : Level) (i : ℕ) (p : Slot), (s.queue k).At i p →
    wp (deref k i) (fun a s' => a = p ∧ s' = s) (fun _ _ => False) s

theorem readsLive_entry : ReadsLive entry := by
  intro s k i p h
  have here := h.2
  simp only [entry, wp_bind, wp_get, here, wp_pure, and_self]

theorem readsLive_liveEntry : ReadsLive liveEntry := by
  intro s k i p h
  rw [liveEntry, wp_bind, wp_get, if_pos h.1]
  exact readsLive_entry s k i p h

section

variable {deref : Level → ℕ → KM Slot} {s : Kernel} {k : Level} {p : Slot} {i : ℕ}

theorem ReadsLive.wp {β : Type} {f : Slot → KM β} {Q : β → Kernel → Prop}
    {E : Fault → Kernel → Prop} (reads : ReadsLive deref) (entry : (s.queue k).At i p)
    (h : wp (f p) Q E s) : wp (deref k i >>= f) Q E s := by
  rw [wp_bind]
  apply wp_mono (reads s k i p entry) _ fun _ _ no => no.elim
  rintro _ _ ⟨rfl, rfl⟩
  exact h

def Searched (s : Kernel) (k : Level) (pid : ℤ) (n : ℕ) (s' : Kernel) : Prop :=
  (∃ i a, i < n ∧ (s.queue k).At i a ∧ (s.procs a).pid = pid ∧
    s' = s.setQueue k ((s.queue k).removeAt i)) ∨
  (∀ i a, i < n → (s.queue k).At i a → (s.procs a).pid ≠ pid) ∧ s' = s

theorem rem_processWith_spec (pid : ℤ) (reads : ReadsLive deref) (filled : (s.queue k).Filled)
    (distinct : ∀ i j a b, (s.queue k).At i a → (s.queue k).At j b →
      (s.procs a).pid = pid → (s.procs b).pid = pid → i = j) :
    wp (rem_processWith deref pid k.val) (fun _ => Searched s k pid NPROC) never s := by
  rw [rem_processWith, level_val]
  apply wp_forRange (I := Searched s k pid) _ (Nat.zero_le _) (.inr ⟨nofun, rfl⟩)
  intro n s' _ h
  rw [wp_bind, wp_get, wp_ite, wp_pure]
  rcases h with ⟨i, a, lt, ha, same, rfl⟩ | ⟨none, rfl⟩
  · have found : Searched s k pid (n + 1) _ := .inl ⟨i, a, Nat.lt_succ_of_lt lt, ha, same, rfl⟩
    refine ⟨fun live => ?_, fun _ => found⟩
    have queue : (s.setQueue k ((s.queue k).removeAt i)).queue k = (s.queue k).removeAt i :=
      update_self ..
    rw [queue] at live
    obtain ⟨b, hb⟩ := filled.removeAt i n live
    apply reads.wp (p := b) (by rw [queue]; exact ⟨live, hb⟩)
    -- this entry stood one index higher, and has another pid
    rw [if_neg fun eq => ?_]
    · exact found
    exact ArrayQueue.skip_ne i n
      (distinct _ _ _ _ (ArrayQueue.at_of_removeAt ⟨live, hb⟩) ha eq same)
  refine ⟨fun live => ?_, fun dead => .inr ⟨fun i a lt ha => ?_, rfl⟩⟩
  · obtain ⟨b, hb⟩ := filled n live
    apply reads.wp ⟨live, hb⟩
    rw [wp_ite, wp_set, wp_pure]
    refine ⟨fun same => .inl ⟨n, b, n.lt_succ_self, ⟨live, hb⟩, same, rfl⟩,
      fun other => .inr ⟨fun i a lt ha => ?_, rfl⟩⟩
    rcases Nat.lt_succ_iff_lt_or_eq.1 lt with lt | rfl
    · exact none i a lt ha
    · rwa [← Option.some.inj (hb.symm.trans ha.2)]
  · rcases Nat.lt_succ_iff_lt_or_eq.1 lt with lt | rfl
    · exact none i a lt ha
    · exact absurd ha.1 dead

/-- What `rem_process` is for. -/
structure Deleted (s : Kernel) (pid curq : ℤ) (s' : Kernel) : Prop where
  rest : s' = { s with queue := s'.queue }
  others : ∀ k, level curq ≠ some k → s'.queue k = s.queue k
  live : ∀ k, level curq = some k → (s'.queue k).live = (s.queue k).live.filter fun o =>
    o.map (fun p => (s.procs p).pid) ≠ some pid
  last : ∀ k, level curq = some k → (s'.queue k).last =
    (s.queue k).last - if ∃ p, (s.queue k).Holds p ∧ (s.procs p).pid = pid then 1 else 0
  absent : ∀ k, level curq = some k → (∀ p, (s.queue k).Holds p → (s.procs p).pid ≠ pid) →
    s'.queue k = s.queue k

theorem Searched.deleted {s' : Kernel} {pid : ℤ} (h : Searched s k pid NPROC s')
    (few : (s.queue k).last < NPROC)
    (distinct : ∀ i j a b, (s.queue k).At i a → (s.queue k).At j b →
      (s.procs a).pid = (s.procs b).pid → i = j) : Deleted s pid k.val s' := by
  have here {k' : Level} (at_ : level k.val = some k') : k' = k :=
    Option.some.inj (at_.symm.trans (level_val k))
  have keeps {q : ArrayQueue Slot} (none : ∀ p, q.Holds p → (s.procs p).pid ≠ pid) :
      q.live.filter (fun o => o.map (fun p => (s.procs p).pid) ≠ some pid) = q.live := by
    rw [List.filter_eq_self]
    intro o mem
    cases o with
    | none => simp
    | some p => simpa using none p (ArrayQueue.mem_live.1 mem)
  rcases h with ⟨i, a, -, ha, same, rfl⟩ | ⟨none, rfl⟩
  · have queue : (s.setQueue k ((s.queue k).removeAt i)).queue k = (s.queue k).removeAt i :=
      update_self ..
    refine ⟨rfl, fun k' ne => ?_, fun k' at_ => ?_, fun k' at_ => ?_, fun k' at_ none => ?_⟩
    · refine update_of_ne ?_ ..
      rintro rfl
      exact ne (level_val k')
    · rw [here at_, queue, ← ArrayQueue.filter_live_removeAt ha (by simp [same])]
      refine (keeps fun p ⟨j, hj⟩ eq => ArrayQueue.skip_ne i j ?_).symm
      exact distinct _ _ _ _ (ArrayQueue.at_of_removeAt hj) ha (eq.trans same.symm)
    · rw [here at_, queue, if_pos ⟨a, ⟨i, ha⟩, same⟩]
      rfl
    · rw [here at_] at none
      exact absurd same (none a ⟨i, ha⟩)
  · have none (p : Slot) (holds : (s'.queue k).Holds p) : (s'.procs p).pid ≠ pid := by
      obtain ⟨i, hi⟩ := holds
      have := hi.1
      exact none i p (by omega) hi
    refine ⟨rfl, fun _ _ => rfl, fun k' at_ => ?_, fun k' at_ => ?_, fun _ _ _ => rfl⟩
    · rw [here at_, keeps none]
    · rw [here at_, if_neg fun ⟨p, holds, same⟩ => none p holds same, Int.sub_zero]

/-- If the live entries have different pids, `rem_process` deletes the entry of the given pid, in
order, and follows live entries only. -/
theorem rem_process_deletes (s : Kernel) (pid curq : ℤ)
    (filled : ∀ k, level curq = some k → (s.queue k).Filled)
    (few : ∀ k, level curq = some k → (s.queue k).last < NPROC)
    (distinct : ∀ k, level curq = some k → ∀ i j a b, (s.queue k).At i a → (s.queue k).At j b →
      (s.procs a).pid = (s.procs b).pid → i = j) :
    wp (rem_process pid curq) (fun _ => Deleted s pid curq) (fun _ _ => False) s ∧
    wp (rem_processWith liveEntry pid curq) (fun _ => Deleted s pid curq) (fun _ _ => False) s ∧
    ∀ (k : Level) (i : ℕ), (i : ℤ) ≤ (s.queue k).last →
      ((s.queue k).removeAt i).slot =
        (ArrayQueue.shift (s.queue k).slot i ((s.queue k).last - i).toNat).1 ∧
      ∀ j ∈ (ArrayQueue.shift (s.queue k).slot i ((s.queue k).last - i).toNat).2,
        (j : ℤ) ≤ (s.queue k).last := by
  have deletes {deref : Level → ℕ → KM Slot} (reads : ReadsLive deref) :
      wp (rem_processWith deref pid curq) (fun _ => Deleted s pid curq) never s := by
    cases at_ : level curq with
    | none =>
      rw [rem_processWith, at_]
      exact ⟨rfl, fun _ _ => rfl, by simp [at_], by simp [at_], by simp [at_]⟩
    | some k =>
      obtain rfl : curq = k.val := by
        unfold level at at_
        split at at_ <;> cases at_
        simp
        omega
      refine wp_imp (rem_processWith_spec pid reads (filled k (level_val k))
        fun i j a b ha hb ea eb => ?_) fun _ _ searched => ?_
      · exact distinct k (level_val k) i j a b ha hb (ea.trans eb.symm)
      · exact searched.deleted (few k (level_val k)) (distinct k (level_val k))
  refine ⟨deletes readsLive_entry, deletes readsLive_liveEntry, fun k i le => ⟨?_, fun j mem => ?_⟩⟩
  · exact ArrayQueue.slot_removeAt_eq_shift ..
  rw [ArrayQueue.shift_eq, List.mem_range'_1] at mem
  omega

end

/-- Processes 1 and 2 stand in queue 0. -/
def twoQueued : Kernel :=
  (Kernel.boot.setQueue 0 ((ArrayQueue.empty.append 0).append 1)).setProc 1 ({ · with pid := 2 })

section

attribute [local irreducible] wp

/-- The entry of the first process is taken out in front of the second. -/
theorem rem_process_deletes_first :
    wp (rem_process 1 0) (fun _ => Deleted twoQueued 1 0) (fun _ _ => False) twoQueued := by
  have entry {i : ℕ} {a : Slot} (h : (twoQueued.queue 0).At i a) :
      (twoQueued.procs a).pid = i + 1 := by
    obtain ⟨le, here⟩ := h
    have last : (twoQueued.queue 0).last = 1 := rfl
    obtain rfl | rfl : i = 0 ∨ i = 1 := by omega
    all_goals
      cases here
      rfl
  have first {k : Level} (is : level 0 = some k) : k = 0 := (Option.some.inj is).symm
  refine (rem_process_deletes twoQueued 1 0 (fun k is => ?_) (fun k is => ?_) fun k is => ?_).1
  all_goals obtain rfl := first is
  · exact .append (.append (fun i le => absurd le (by simp [ArrayQueue.empty]; omega)) 0) 1
  · decide
  · intro i j a b ha hb same
    rw [entry ha, entry hb] at same
    omega

end

end Xv6
