import Xv6.Proc.Running

/-!
# Turns

The scheduler of a CPU moves only in its own steps; a step of a process leaves it where it is or
gives the CPU back at the place of the dispatch (`process_turned`).  On one CPU nothing at all
happens while the scheduler looks for a process (`step_scanning`).
-/

namespace Xv6

open Lib Function

variable {e : Event} {s : Kernel} {at_ : Place} {m : Slot}

/-! ## What processes do to the CPUs -/

section

variable {s s' s'' : Kernel}

theorem Turned.of_eq (same : s'.cpu = s.cpu) : Turned s s' := fun c => .inl (congrFun same c)

theorem Turned.trans (h : Turned s s') (h' : Turned s' s'') : Turned s s'' := by
  intro c
  rcases h' c with same | ⟨at_, m, run, back⟩
  · rw [same]
    exact h c
  rcases h c with same | ⟨_, _, _, gone⟩
  · exact .inr ⟨at_, m, same ▸ run, back⟩
  rw [gone] at run
  cases run

theorem forkAlloc_cpu (m : Slot) : wp (forkAlloc m) (fun _ s' => s'.cpu = s.cpu) anyStop s := by
  simp only [forkAlloc, allocproc, wp_bind, wp_get, modifyProc]
  split
  · rfl
  rw [wp_ite, wp_throw]
  refine ⟨fun _ => trivial, fun _ => ?_⟩
  simp only [wp_bind, wp_modify, wp_pure]
  apply wp_mono (push_spec 0 _) _ fun _ _ _ => trivial
  rintro _ s₁ ⟨-, rfl⟩
  rfl

theorem step_cpus (pol : Policy) (e : Event) :
    wp (step pol e) (fun _ s' => (∀ c, c ≠ e.cpu → s'.cpu c = s.cpu c) ∧
      ((∀ c, e ≠ .schedule c) → Turned s s')) anyStop s := by
  have same {s' : Kernel} (eq : s'.cpu = s.cpu) : (∀ c, c ≠ e.cpu → s'.cpu c = s.cpu c) ∧
      ((∀ c, e ≠ .schedule c) → Turned s s') := ⟨fun c _ => congrFun eq c, fun _ => .of_eq eq⟩
  -- the scheduler of CPU `c` goes on once the queues have changed
  have move {c : ℕ} (here : e = .schedule c) {s₁ : Kernel} (eq : s₁.view.cpu = s.cpu) (x : Cpu) :
      (∀ c, c ≠ e.cpu → (s₁.setCpu e.cpu x).cpu c = s.cpu c) ∧
        ((∀ c, e ≠ .schedule c) → Turned s (s₁.setCpu e.cpu x)) := by
    refine ⟨fun c' ne => ?_, fun own => absurd here (own c)⟩
    rw [← eq]
    exact update_of_ne ne ..
  refine step_rule pol e (same rfl) (fun _ _ _ _ => trivial)
    (fun s₁ s' h d => ⟨fun c ne => (d.others ne).trans (h.1 c ne),
      fun own => (h.2 own).trans (d.turned own)⟩)
    (fun _ s₁ p Q h _ _ d => h) (fun _ => same rfl) (fun _ m s₁ h => ?_)
    (fun c m np _ _ => same rfl) ⟨fun c m _ _ _ => wp_imp (forkAlloc_cpu m) fun _ _ eq => same eq,
    fun c here _ _ _ => ?_, fun c k i m here _ => ?_⟩
  · refine wp_mono (countTick_view m) (fun _ s' kept => ?_) fun _ _ _ => trivial
    have eq : s'.cpu = s₁.cpu := (congrArg View.cpu kept.1 :)
    exact ⟨fun c ne => (congrFun eq c).trans (h.1 c ne), fun own => (h.2 own).trans (.of_eq eq)⟩
  · subst here
    exact wp_next ageing_queued fun _ s₁ kept => move rfl (congrArg View.cpu kept.view) _
  · subst here
    exact wp_next (afterSwtch_queued _ m) fun _ s₁ kept => move rfl (congrArg View.cpu kept.view) _

end

theorem process_turned (pol : Policy) (own : ∀ c, e ≠ .schedule c) :
    wp (step pol e) (fun _ s' => Turned s s') anyStop s :=
  wp_imp (step_cpus pol e) fun _ _ h => h.2 own

theorem step_scanning {pol : Policy} (own : ∀ c, e ≠ .schedule c) (cpu : e.cpu = 0)
    (scans : s.cpu 0 = .scan at_) (held : s.lock = some 0) :
    wp (step pol e) (fun _ s' => s' = s) anyStop s := by
  have nobody : s.current 0 = none := by rw [Kernel.current, scans]
  cases e with
  | schedule c => exact absurd rfl (own c)
  | wakeup chan => simp [step, whenFree, wp_bind, wp_get, held, wp_pure]
  | _ =>
    simp only [Event.cpu] at cpu
    subst cpu
    simp [step, asCurrent, inFork, wp_bind, wp_get, scans, nobody, held, wp_pure]

/-! ## Dispatches -/

/-- The process to which the next step of the scheduler of CPU `c` switches. -/
def dispatched (pol : Policy) (c : ℕ) (s : Kernel) : Option Slot :=
  match s.cpu c, (exec (schedule pol c) s).2.cpu c with
  | .scan _, .running _ m => some m
  | _, _ => none

/-- What the steps of a run show of its dispatches. -/
def dispatches (pol : Policy) (s : Kernel) : Event → List Slot
  | .schedule c => (dispatched pol c s).toList
  | _ => []

/-- The process that the scheduler's loop finds at a place. -/
def pick (pol : Policy) (s : Kernel) : Place → Option Slot
  | .queue k i =>
      if (i : ℤ) < (s.queue k).last + 1 then
        ((s.queue k).slot i).filter fun m => (s.procs m).state = .RUNNABLE
      else none
  | .table i =>
      if h : i < NPROC then
        if (s.procs ⟨i, h⟩).state = .RUNNABLE then some (pol.choose s ⟨i, h⟩) else none
      else none

section

variable {s : Kernel} {pol : Policy} {c : ℕ}

theorem setCpu_self (s : Kernel) (c : ℕ) (x : Cpu) : (s.setCpu c x).cpu c = x := by
  simp [Kernel.setCpu]

theorem scan_pick (scans : s.cpu c = .scan at_) :
    wp (scan pol c at_) (fun _ s' => ∀ m, (∃ at', s'.cpu c = .running at' m) ↔ pick pol s at_ = some m)
      (fun _ s' => s' = s ∧ pick pol s at_ = none) s := by
  cases at_ with
  | queue k i =>
    simp only [scan, entry, pick, wp_bind, wp_get, wp_ite]
    refine ⟨fun inside => ?_, fun past => ?_⟩
    · rw [if_pos inside]
      split
      next p here =>
        simp only [wp_pure, dispatch, modifyProc, wp_bind, wp_modify, wp_set, setCpu_self, here]
        refine ⟨fun runnable m => ?_, fun idle m => ?_⟩
        · simp [Option.filter, runnable]
        · simp [Option.filter, idle]
      next missing => simp [missing]
    · rw [if_neg past]
      split
      · simp [setCpu_self]
      · simp [endRound, setCpu_self]
  | table i =>
    simp only [scan, pick, wp_bind, wp_get]
    split
    · simp only [wp_ite, dispatch, modifyProc, wp_bind, wp_modify, wp_set, setCpu_self]
      refine ⟨fun runnable m => ?_, fun idle m => ?_⟩
      · simp [runnable]
      · simp [idle]
    · simp [endRound, setCpu_self]

theorem schedule_pick (scans : s.cpu c = .scan at_) :
    wp (schedule pol c) (fun _ s' => ∀ m, (∃ at', s'.cpu c = .running at' m) ↔
      pick pol s at_ = some m) (fun _ s' => s' = s ∧ pick pol s at_ = none) s := by
  simp only [schedule, wp_bind, wp_get, scans]
  exact scan_pick scans

theorem dispatched_of_scan (scans : s.cpu c = .scan at_) : dispatched pol c s = pick pol s at_ := by
  have found : wp (schedule pol c) (fun _ s' => ∀ m, (∃ at', s'.cpu c = .running at' m) ↔
      pick pol s at_ = some m) (fun _ s' => s' = s ∧ pick pol s at_ = none) s := schedule_pick scans
  unfold wp at found
  rw [dispatched, scans]
  generalize exec (schedule pol c) s = out at found ⊢
  obtain ⟨_ | _, s'⟩ := out
  · obtain ⟨rfl, nothing⟩ := found
    simp [scans, nothing]
  cases runs : s'.cpu c with
  | running at' m => exact ((found m).1 ⟨at', runs⟩).symm
  | _ =>
    symm
    rw [Option.eq_none_iff_forall_ne_some]
    intro m picked
    obtain ⟨at', running⟩ := (found m).2 picked
    simp [running] at runs

theorem dispatched_eq_none (idle : ∀ at_, s.cpu c ≠ .scan at_) : dispatched pol c s = none := by
  unfold dispatched
  cases here : s.cpu c with
  | scan at_ => exact absurd here (idle at_)
  | _ => rfl

theorem dispatched_eq_some :
    dispatched pol c s = some m ↔ ∃ at_, s.cpu c = .scan at_ ∧ pick pol s at_ = some m := by
  by_cases scanning : ∃ at_, s.cpu c = .scan at_
  · obtain ⟨at_, scans⟩ := scanning
    rw [dispatched_of_scan scans]
    refine ⟨fun picked => ⟨at_, scans, picked⟩, ?_⟩
    rintro ⟨at', scans', picked⟩
    rw [scans] at scans'
    cases scans'
    exact picked
  push Not at scanning
  rw [dispatched_eq_none scanning]
  refine ⟨nofun, ?_⟩
  rintro ⟨at_, scans, -⟩
  exact absurd scans (scanning at_)

theorem pick_runnable (picked : pick pol s at_ = some m) : (s.procs m).state = .RUNNABLE := by
  cases at_ with
  | queue k i =>
    simp only [pick] at picked
    split at picked
    · simpa using (Option.filter_eq_some_iff.1 picked).2
    · cases picked
  | table i =>
    simp only [pick] at picked
    split_ifs at picked with inside runnable
    cases picked
    exact choose_runnable pol runnable

theorem pick_table (table : (Cpu.scan at_).OnTable) (picked : pick pol s at_ = some m) :
    ∃ p : Slot, at_ = .table p ∧ (s.procs p).state = .RUNNABLE ∧ m = pol.choose s p := by
  cases at_ with
  | queue k i => exact table.elim
  | table i =>
    simp only [pick] at picked
    split_ifs at picked with inside runnable
    exact ⟨⟨i, inside⟩, rfl, runnable, (Option.some.inj picked).symm⟩

end

/-! ## Schedulers that go over the table -/

theorem onTable_step {pol : Policy} (flat : pol ≠ .MLFQ) (e : Event)
    (tables : ∀ c, (s.cpu c).OnTable) :
    wp (step pol e) (fun _ s' => ∀ c, (s'.cpu c).OnTable) anyStop s := by
  apply step_keeps pol e tables fun _ _ _ => trivial
  · exact fun _ _ tables quiet => quiet.tables tables
  · exact fun mlfq => absurd mlfq flat
  constructor
  · intro c m _ _ _
    apply wp_imp (forkAlloc_cpu m)
    exact fun _ s' same => same ▸ tables
  · exact fun _ _ _ _ mlfq => absurd mlfq flat
  intro c k i m _ back
  have table := tables c
  rw [back] at table
  exact table.elim

/-! ## One CPU -/

/-- Only CPU 0 has ever done anything. -/
structure OneCpu (s : Kernel) : Prop where
  seated : Seated s.view
  others : ∀ c, c ≠ 0 → s.cpu c = .top

/-- A process that runs whenever it is given the CPU. -/
def Ready (s : Kernel) (p : Slot) : Prop :=
  (s.procs p).state = .RUNNABLE ∨ (s.procs p).state = .RUNNING
  deriving Decidable

section

variable {s : Kernel}

namespace OneCpu

theorem boot : OneCpu Kernel.boot := ⟨Seated.boot, fun _ _ => rfl⟩

theorem step_others (pol : Policy) (others : ∀ c, c ≠ 0 → s.cpu c = .top) (cpu : e.cpu = 0) :
    wp (Xv6.step pol e) (fun _ s' => ∀ c, c ≠ 0 → s'.cpu c = .top) anyStop s := by
  apply wp_imp (step_cpus pol e)
  intro _ s' h c ne
  rw [h.1 c (cpu ▸ ne), others c ne]

theorem step (h : OneCpu s) (pol : Policy) (cpu : e.cpu = 0) :
    wp (Xv6.step pol e) (fun _ => OneCpu) anyStop s := by
  have both := wp_and (h.seated.step pol e) (step_others pol h.others cpu)
  exact wp_mono both (fun _ _ h => ⟨h.1, h.2⟩) fun _ _ _ => trivial

theorem runnable (h : OneCpu s) (scans : s.cpu 0 = .scan at_) {p : Slot} (ready : Ready s p) :
    (s.procs p).state = .RUNNABLE := by
  rcases ready with runnable | running
  · exact runnable
  obtain ⟨c, at', there⟩ := h.seated.runs p running
  have there : s.cpu c = .running at' p := there
  by_cases zero : c = 0
  · rw [zero, scans] at there
    cases there
  rw [h.others c zero] at there
  cases there

end OneCpu

end

end Xv6
