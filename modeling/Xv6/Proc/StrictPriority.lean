import Xv6.Proc.Removal
import Xv6.Proc.Turns

/-!
# Higher queues first

A round of the MLFQ scheduler walks through the queues from the highest one down and never goes
back, so a dispatch depends on what has happened behind the walk.  On one CPU nothing moves while
the scheduler walks (`step_scanning`).
-/

namespace Xv6

open Lib

/-! ## Behind the scheduler -/

/-- A process is runnable at a live index of queue `k` that satisfies `P`. -/
def RunnableAt (s : Kernel) (k : Level) (P : ℕ → Prop) : Prop :=
  ∃ i p, P i ∧ (s.queue k).At i p ∧ (s.procs p).state = .RUNNABLE

instance decidableRunnableAt (s : Kernel) (k : Level) (P : ℕ → Prop) [DecidablePred P] :
    Decidable (RunnableAt s k P) :=
  decidable_of_iff (∃ i, i < ((s.queue k).last + 1).toNat ∧ ∃ p, P i ∧ (s.queue k).At i p ∧
      (s.procs p).state = .RUNNABLE) <| exists_congr fun i =>
    and_iff_right_of_imp fun ⟨p, _, live, _⟩ => by
      have := live.1
      omega

def NoneAbove (s : Kernel) (k : Level) : Prop :=
  ∀ j < k, ∀ p, (s.queue j).Holds p → (s.procs p).state ≠ .RUNNABLE
  deriving Decidable

def SomeBelow (s : Kernel) (k : Level) : Prop :=
  ∃ j > k, ∃ p, (s.queue j).Holds p ∧ (s.procs p).state = .RUNNABLE
  deriving Decidable

/-- A scheduler that goes on from index `i` of queue `k`, and finds a process, passes nobody in the
queues above. -/
def Clear (s : Kernel) (k : Level) (i : ℕ) : Prop :=
  (RunnableAt s k (i ≤ ·) → NoneAbove s k) ∧
    (¬ RunnableAt s k (i ≤ ·) → SomeBelow s k → NoneAbove s k ∧ ¬ RunnableAt s k (· < i))
  deriving Decidable

/-- Process `m`, dispatched from index `i` of queue `k`, gives the CPU back.  If its entry is to be
deleted, the next one takes its index and is passed, and `m` may go to a queue below. -/
def ClearReturn (s : Kernel) (k : Level) (i : ℕ) (m : Slot) : Prop :=
  if k = 4 then (s.procs m).state = .RUNNABLE ∨ RunnableAt s 4 (fun _ => True) → NoneAbove s 4
  else if Deletes s k i m then
    (RunnableAt s k (i + 2 ≤ ·) → NoneAbove s k) ∧
      (¬ RunnableAt s k (i + 2 ≤ ·) → SomeBelow s k ∨ (s.procs m).state = .RUNNABLE →
        NoneAbove s k ∧ ¬ RunnableAt s k fun j => j < i + 2 ∧ j ≠ i)
  else Clear s k (i + 1)
  deriving Decidable

def ClearBack (s : Kernel) : Cpu → Prop
  | .back (.queue k i) m => ClearReturn s k i m
  | _ => True

/-- The condition at an event: a process that has given the CPU back leaves nobody to be passed. -/
def ReturnsClear (s : Kernel) : Event → Prop
  | .schedule c => ClearBack s (s.cpu c)
  | _ => True

instance (s : Kernel) : ∀ x, Decidable (ClearBack s x)
  | .back (.queue k i) m => inferInstanceAs (Decidable (ClearReturn s k i m))
  | .back (.table _) _ | .top | .scan _ | .running _ _ => isTrue trivial

instance (s : Kernel) : ∀ e, Decidable (ReturnsClear s e)
  | .schedule c => inferInstanceAs (Decidable (ClearBack s (s.cpu c)))
  | .fork _ | .resume _ | .timer _ | .trapNext _ | .wakeup _ | .syscall _ | .sysret _
  | .forkStack _ | .forkFail _ | .forkDone _ | .exit _ | .wait _ | .waitx _ | .kill _ _
  | .sleep _ _ => isTrue trivial

def StrictDispatch (s : Kernel) : Event → Prop
  | .schedule c =>
      wp (schedule .MLFQ c) (fun _ s' => ∀ at_ k i m, s.cpu c = .scan at_ →
        s'.cpu c = .running (.queue k i) m → NoneAbove s k) (fun _ _ => True) s
  | _ => True

/-- The scheduler of CPU 0 is not about to pass anybody. -/
def BehindClear (s : Kernel) : Prop := ∀ k i, s.cpu 0 = .scan (.queue k i) → Clear s k i

section

variable {s : Kernel} {k : Level} {i : ℕ}

theorem Clear.skip {m : Slot} (h : Clear s k i) (entry : (s.queue k).slot i = some m)
    (idle : (s.procs m).state ≠ .RUNNABLE) : Clear s k (i + 1) := by
  -- the entry at `i` belongs to neither side
  have other {i' : ℕ} {p : Slot} (there : (s.queue k).At i' p)
      (run : (s.procs p).state = .RUNNABLE) : i' ≠ i := by
    rintro rfl
    obtain rfl := Option.some.inj (there.2.symm.trans entry)
    exact idle run
  have ahead : RunnableAt s k (i ≤ ·) ↔ RunnableAt s k (i + 1 ≤ ·) := by
    refine exists_congr fun i' => exists_congr fun p => and_congr_left fun ⟨there, run⟩ => ?_
    have := other there run
    omega
  refine ⟨fun some => h.1 (ahead.2 some), fun none below => ?_⟩
  obtain ⟨above, before⟩ := h.2 (fun some => none (ahead.1 some)) below
  refine ⟨above, ?_⟩
  rintro ⟨i', p, lt, there, run⟩
  have := other there run
  exact before ⟨i', p, by omega, there, run⟩

theorem Clear.down (h : Clear s k i) (done : (s.queue k).last < i) (hk : k.val + 1 < 5) :
    Clear s ⟨k.val + 1, hk⟩ 0 := by
  have past : ¬ RunnableAt s k (i ≤ ·) := by
    rintro ⟨i', p, le, there, -⟩
    have := there.1
    omega
  have above (below : SomeBelow s k) : NoneAbove s ⟨k.val + 1, hk⟩ := by
    obtain ⟨above, before⟩ := h.2 past below
    intro j lt p holds run
    rcases (Nat.lt_succ_iff_lt_or_eq.1 lt : j.val < k.val ∨ j.val = k.val) with up | same
    · exact above j up p holds run
    obtain rfl : j = k := Fin.ext same
    obtain ⟨i', there⟩ := holds
    have := there.1
    exact before ⟨i', p, by omega, there, run⟩
  have next : k < ⟨k.val + 1, hk⟩ := Nat.lt_succ_self _
  refine ⟨?_, fun _ below => ⟨above ?_, ?_⟩⟩
  · rintro ⟨i', p, -, there, run⟩
    exact above ⟨_, next, p, ⟨i', there⟩, run⟩
  · obtain ⟨j, lt, rest⟩ := below
    exact ⟨j, next.trans lt, rest⟩
  · rintro ⟨i', -, lt, -⟩
    exact absurd lt (Nat.not_lt_zero i')

theorem Clear.start : Clear s 0 0 := by
  have above : NoneAbove s 0 := fun j lt => absurd lt (Fin.not_lt_zero j)
  refine ⟨fun _ => above, fun _ _ => ⟨above, ?_⟩⟩
  rintro ⟨i', -, lt, -⟩
  exact absurd lt (Nat.not_lt_zero i')

/-! ## After `swtch` -/

section Return

variable {s' : Kernel} {m : Slot} {lower : Level}

/-- The entry at `i` is deleted, and process `m` may have been appended to a queue below. -/
theorem Clear.of_removed (below : k < lower)
    (states : ∀ p, (s'.procs p).state = (s.procs p).state)
    (here : s'.queue k = (s.queue k).removeAt i)
    (others : ∀ j ≠ k, ∀ p, (s'.queue j).Holds p → (s.queue j).Holds p ∨ j = lower ∧ p = m)
    (run : RunnableAt s k (i + 2 ≤ ·) → NoneAbove s k)
    (pass : ¬ RunnableAt s k (i + 2 ≤ ·) → SomeBelow s k ∨ (s.procs m).state = .RUNNABLE →
      NoneAbove s k ∧ ¬ RunnableAt s k fun j => j < i + 2 ∧ j ≠ i) : Clear s' k (i + 1) := by
  have above (h : NoneAbove s k) : NoneAbove s' k := by
    intro j lt p holds
    rw [states]
    rcases others j lt.ne p holds with old | ⟨rfl, -⟩
    · exact h j lt p old
    · exact absurd lt (not_lt_of_gt below)
  have ahead : RunnableAt s' k (i + 1 ≤ ·) ↔ RunnableAt s k (i + 2 ≤ ·) := by
    constructor
    · rintro ⟨j, p, le, there, run⟩
      rw [here] at there
      rw [states] at run
      refine ⟨_, p, ?_, ArrayQueue.at_of_removeAt there, run⟩
      rw [ArrayQueue.skip, if_neg (by omega)]
      omega
    rintro ⟨j, p, le, there, run⟩
    have live : ((j - 1 : ℕ) : ℤ) ≤ ((s.queue k).removeAt i).last := by
      have := there.1
      simp only [ArrayQueue.removeAt]
      omega
    refine ⟨j - 1, p, by omega, ?_, by rwa [states]⟩
    rw [here]
    refine ⟨live, ?_⟩
    rw [ArrayQueue.slot_removeAt live, ArrayQueue.skip, if_neg (by omega),
      Nat.sub_add_cancel (by omega), there.2]
  refine ⟨fun some => above (run (ahead.1 some)), fun none later => ?_⟩
  obtain ⟨clear, before⟩ := pass (fun some => none (ahead.2 some)) (by
    obtain ⟨j, lt, p, holds, run⟩ := later
    rw [states] at run
    rcases others j lt.ne' p holds with old | ⟨-, rfl⟩
    · exact .inl ⟨j, lt, p, old, run⟩
    · exact .inr run)
  refine ⟨above clear, ?_⟩
  rintro ⟨j, p, lt, there, run⟩
  rw [here] at there
  rw [states] at run
  refine before ⟨_, p, ⟨?_, ArrayQueue.skip_ne i j⟩, ArrayQueue.at_of_removeAt there, run⟩
  unfold ArrayQueue.skip
  split <;> omega

theorem Clear.demote (hk : k ≠ 4) (below : k < lower) (h : ClearReturn s k i m) :
    wp (demote k lower i m) (fun _ s' => Clear s' k (i + 1)) anyStop s := by
  rw [ClearReturn, if_neg hk] at h
  apply wp_mono (demote_spec hk below.ne i m) _ fun _ _ _ => trivial
  rintro _ s' ⟨life, -, cases⟩
  have states (p : Slot) : (s'.procs p).state = (s.procs p).state :=
    congrFun (congrArg Life.state life) p
  rcases cases with ⟨stays, queue⟩ | ⟨del, -, queue⟩ | ⟨del, -, room, queue⟩
  · rw [if_neg stays] at h
    simpa only [Clear, RunnableAt, NoneAbove, SomeBelow, states, queue] using h
  all_goals
    rw [if_pos del] at h
    refine .of_removed below states (by rw [queue, Function.update_self]) (fun j ne p holds => ?_)
      h.1 h.2
    rw [queue, Function.update_of_ne ne] at holds
  · exact .inl holds
  by_cases here : j = lower
  · subst here
    rw [Function.update_self] at holds
    obtain ⟨i', there⟩ := holds
    rcases (ArrayQueue.at_append room.1).1 there with old | ⟨-, same⟩
    · exact .inl ⟨i', old⟩
    · exact .inr ⟨rfl, same.symm⟩
  · rw [Function.update_of_ne here] at holds
    exact .inl holds

theorem Clear.requeue (h : ClearReturn s 4 i m) :
    wp (requeue i m) (fun _ s' => Clear s' 4 (i + 1)) anyStop s := by
  rw [ClearReturn, if_pos rfl] at h
  apply wp_mono (requeue_spec i m) _ fun _ _ _ => trivial
  rintro _ s' ⟨life, -, cases⟩
  have states (p : Slot) : (s'.procs p).state = (s.procs p).state :=
    congrFun (congrArg Life.state life) p
  have others : ∀ j ≠ (4 : Level), s'.queue j = s.queue j := by
    intro j ne
    rcases cases with ⟨-, queue⟩ | ⟨-, -, queue⟩ <;> rw [queue, Function.update_of_ne ne]
  have holds {j : ℕ} {p : Slot} (there : (s'.queue 4).At j p) : p = m ∨ (s.queue 4).Holds p := by
    rcases cases with ⟨-, queue⟩ | ⟨-, low, queue⟩ <;> rw [queue, Function.update_self] at there
    · obtain ⟨live, slot⟩ := there
      simp only [ArrayQueue.closeGap] at live slot
      split at slot
      · exact .inr ⟨j + 1, by omega, slot⟩
      · exact .inr ⟨j, live, slot⟩
    have last : -1 ≤ ((s.queue 4).removeAt i).last := by
      simp only [ArrayQueue.removeAt]
      omega
    rcases (ArrayQueue.at_append last).1 there with old | ⟨-, same⟩
    · exact .inr (ArrayQueue.holds_of_removeAt ⟨j, old⟩)
    · exact .inl same.symm
  refine ⟨?_, fun _ below => ?_⟩
  · rintro ⟨j, p, -, there, run⟩ j' lt q
    rw [states] at run
    rw [others j' lt.ne, states]
    refine h ?_ j' lt q
    rcases holds there with rfl | ⟨i', old⟩
    · exact .inl run
    · exact .inr ⟨i', p, trivial, old, run⟩
  · obtain ⟨j, lt, -⟩ := below
    exact absurd lt (Fin.not_lt.2 (Fin.le_last j))

theorem Clear.afterSwtch (h : ClearReturn s k i m) :
    wp (afterSwtch (.queue k i) m) (fun _ s' => Clear s' k (i + 1)) anyStop s := by
  match k, h with
  | 0, h => exact Clear.demote (by decide) (by decide) h
  | 1, h => exact Clear.demote (by decide) (by decide) h
  | 2, h => exact Clear.demote (by decide) (by decide) h
  | 3, h => exact Clear.demote (by decide) (by decide) h
  | 4, h => exact Clear.requeue h

end Return

theorem BehindClear.setCpu {k : Level} {i : ℕ} (h : Clear s k i) :
    BehindClear (s.setCpu 0 (.scan (.queue k i))) := by
  intro k' i' scans
  rw [setCpu_self] at scans
  cases scans
  exact h

theorem behindClear_of_ne {x : Cpu} (h : ∀ k i, x ≠ .scan (.queue k i)) :
    BehindClear (s.setCpu 0 x) := by
  intro k i scans
  rw [setCpu_self] at scans
  exact absurd scans (h k i)

theorem BehindClear.scan (h : BehindClear s) {at_ : Place} (scans : s.cpu 0 = .scan at_) :
    wp (scan .MLFQ 0 at_) (fun _ => BehindClear) anyStop s := by
  have dispatched (at_ : Place) (m : Slot) (s : Kernel) :
      wp (dispatch 0 at_ m) (fun _ => BehindClear) anyStop s := by
    simp only [dispatch, modifyProc, wp_bind, wp_modify]
    exact behindClear_of_ne (by simp)
  have ended : wp (endRound 0) (fun _ => BehindClear) anyStop s := by
    rw [endRound, wp_modify]
    exact behindClear_of_ne (by simp)
  cases at_ with
  | queue k i =>
    have clear := h k i scans
    simp only [Xv6.scan, entry, wp_bind, wp_get, wp_ite]
    refine ⟨fun _ => ?_, fun past => ?_⟩
    · split
      next m here =>
        simp only [wp_pure, modifyProc, wp_modify, wp_set]
        exact ⟨fun _ => dispatched _ _ _, fun idle => .setCpu (clear.skip here idle)⟩
      · trivial
    · split
      next hk => exact .setCpu (clear.down (by omega) hk)
      · exact ended
  | table i =>
    simp only [Xv6.scan, wp_bind, wp_get]
    split
    · simp only [wp_ite, wp_set]
      exact ⟨fun _ => dispatched _ _ _, fun _ => behindClear_of_ne (by simp)⟩
    · exact ended

theorem BehindClear.schedule (h : BehindClear s) (returns : ReturnsClear s (.schedule 0)) :
    wp (schedule .MLFQ 0) (fun _ => BehindClear) anyStop s := by
  rw [Xv6.schedule, wp_bind, wp_get]
  split
  · -- a round starts: there is nothing behind the first slot of the highest queue
    simp only [wp_ite, wp_bind, wp_set, wp_pure, wp_modify, not_true_eq_false,
      false_imp_iff, and_true, true_imp_iff]
    refine ⟨fun _ => ?_, fun _ => h⟩
    apply wp_mono (wp_exec _ _) _ fun _ _ _ => trivial
    intro _ s' _
    exact .setCpu .start
  next scans => exact h.scan scans
  · exact h
  rename_i at_ m back
  rw [wp_bind]
  cases at_ with
  | queue k i =>
    simp only [ReturnsClear, ClearBack, back] at returns
    exact wp_imp (Clear.afterSwtch returns) fun _ _ clear => .setCpu clear
  | table i =>
    exact wp_mono (wp_exec _ _) (fun _ _ _ => behindClear_of_ne (by simp [Place.next]))
      fun _ _ _ => trivial

theorem BehindClear.step {e : Event} (h : BehindClear s) (seated : Seated s.view) (cpu : e.cpu = 0)
    (returns : ReturnsClear s e) : wp (step .MLFQ e) (fun _ => BehindClear) anyStop s := by
  by_cases own : ∀ c, e ≠ .schedule c
  · by_cases inside : ∃ at_, s.cpu 0 = .scan at_
    · have held : s.lock = some 0 := seated.held 0 (.inl inside)
      obtain ⟨at_, scans⟩ := inside
      apply wp_mono (step_scanning own cpu scans held) _ fun _ _ _ => trivial
      rintro _ _ rfl
      exact h
    apply wp_mono (process_turned .MLFQ own) _ fun _ _ _ => trivial
    intro _ s' turned k i scans
    rcases turned 0 with same | ⟨at_, m, -, back⟩
    · exact absurd ⟨_, same.symm.trans scans⟩ inside
    rw [back] at scans
    cases scans
  · push Not at own
    obtain ⟨c, rfl⟩ := own
    obtain rfl : c = 0 := cpu
    exact h.schedule returns

theorem scan_dispatches (c : ℕ) (at_ : Place) :
    wp (scan .MLFQ c at_) (fun _ s' => ∀ k i m, s'.cpu c = .running (.queue k i) m →
      at_ = .queue k i ∧ (s.queue k).At i m ∧ (s.procs m).state = .RUNNABLE) anyStop s := by
  cases at_ with
  | queue k' i' =>
    simp only [scan, entry, wp_bind, wp_get, wp_ite]
    refine ⟨fun live => ?_, fun _ => ?_⟩
    · split
      next here =>
        simp only [wp_pure, dispatch, wp_bind, modifyProc, wp_modify, wp_set, setCpu_self]
        refine ⟨fun run k i m same => ?_, by simp⟩
        cases same
        exact ⟨rfl, ⟨by omega, here⟩, run⟩
      · trivial
    · split
      · simp [setCpu_self, wp_set]
      · simp [endRound, setCpu_self, wp_modify]
  | table i' =>
    simp only [scan, wp_bind, wp_get]
    split
    · simp [wp_ite, wp_set, dispatch, modifyProc, wp_bind, wp_modify, setCpu_self]
    · simp [endRound, setCpu_self, wp_modify]

theorem BehindClear.strictDispatch {e : Event} (h : BehindClear s) (cpu : e.cpu = 0) :
    StrictDispatch s e := by
  cases e with
  | schedule c =>
    obtain rfl : c = 0 := cpu
    by_cases scanning : ∃ at_, s.cpu 0 = .scan at_
    · obtain ⟨at_, scans⟩ := scanning
      have code : wp (Xv6.schedule .MLFQ 0) (fun _ s' => ∀ k i m,
          s'.cpu 0 = .running (.queue k i) m →
            at_ = .queue k i ∧ (s.queue k).At i m ∧ (s.procs m).state = .RUNNABLE) anyStop s := by
        simp only [Xv6.schedule, wp_bind, wp_get, scans]
        exact scan_dispatches 0 at_
      apply wp_imp code
      intro _ s' place at' k i m _ runs
      obtain ⟨rfl, there, run⟩ := place k i m runs
      exact (h k i scans).1 ⟨i, m, Nat.le_refl i, there, run⟩
    · exact wp_mono (wp_exec _ _) (fun _ _ _ at_ _ _ _ scans => absurd ⟨at_, scans⟩ scanning)
        fun _ _ _ => trivial
  | _ => trivial

end

/-- On one CPU, if every process that gives the CPU back leaves nobody to be passed, every dispatch
finds no runnable process in the queues above. -/
theorem strict_priority (es : List Event) (one : ∀ e ∈ es, e.cpu = 0)
    (clear : Along (step .MLFQ) ReturnsClear es Kernel.boot) :
    Along (step .MLFQ) StrictDispatch es Kernel.boot := by
  have onOne : Along (step .MLFQ) (fun _ e => e.cpu = 0) es Kernel.boot :=
    along_of_forall_mem Kernel.boot one
  have along := onOne.and clear
  apply along.of_inv (I := fun s => Seated s.view ∧ BehindClear s) _ _ ⟨Seated.boot, fun k i => nofun⟩
  · rintro s e ⟨seated, behind⟩ ⟨cpu, returns⟩
    exact wp_mono (wp_and (seated.step .MLFQ e) (behind.step seated cpu returns)) (fun _ _ h => h)
      fun _ _ _ => trivial
  rintro s e ⟨-, behind⟩ ⟨cpu, -⟩
  exact behind.strictDispatch cpu

/-- The first process uses up its slice and is dispatched from queue 1, twice in the same slice. -/
def firstDemoted : List Event :=
  [.schedule 0, .schedule 0, .resume 0, .timer 0, .trapNext 0, .trapNext 0, .schedule 0, .schedule 0,
    .schedule 0, .resume 0, .trapNext 0, .timer 0, .trapNext 0, .trapNext 0] ++
    List.replicate 8 (.schedule 0)

theorem strict_priority_demoted : Along (step .MLFQ) StrictDispatch firstDemoted Kernel.boot := by
  have one : ∀ e ∈ firstDemoted, e.cpu = 0 := by decide
  have clear : Along (step .MLFQ) ReturnsClear firstDemoted Kernel.boot := by decide +kernel
  exact strict_priority firstDemoted one clear

/-- The first process forks a child and uses up its slice. -/
def forkInSlice : List Event :=
  [.schedule 0, .schedule 0, .resume 0, .fork 0, .forkStack 0, .forkDone 0, .timer 0, .trapNext 0,
    .trapNext 0, .schedule 0, .schedule 0]

/-- The child's entry has moved to an index that was passed, and its parent is dispatched. -/
theorem forkInSlice_passes_child :
    let s := (exec (run (step .MLFQ) forkInSlice) Kernel.boot).2
    let s' := (exec (step .MLFQ (.schedule 0)) s).2
    s.cpu 0 = .scan (.queue 1 0) ∧ s'.cpu 0 = .running (.queue 1 0) 0 ∧
      (s.queue 0).Holds 1 ∧ (s.procs 1).state = .RUNNABLE := by
  decide +kernel

end Xv6
