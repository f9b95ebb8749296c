import Xv6.Lib.Select
import Xv6.Proc.Priority
import Xv6.Proc.Turns

/-!
# The process that FCFS and PRIORITY choose

Both builds start with the process at which the loop over the table is.  PRIORITY goes on with the
best process so far.  FCFS compares every process with the one it started from, so it ends with the
last process in the table that is older than that one, which need not be the oldest.
-/

namespace Xv6

open Lib

variable {s : Kernel} {p : Slot}

/-! ## PRIORITY -/

/-- Process `m` is runnable, and no runnable process has a smaller priority value. -/
structure IsBest (s : Kernel) (m : Slot) : Prop where
  runnable : (s.procs m).state = .RUNNABLE
  least : ∀ q, (s.procs q).state = .RUNNABLE → (s.procs m).priority ≤ (s.procs q).priority

theorem priorityChoice_eq (s : Kernel) (p : Slot) :
    priorityChoice s p = firstLeast (fun q => (s.procs q).state = .RUNNABLE)
      (fun q => (s.procs q).priority) (List.finRange NPROC) p := rfl

theorem priorityChoice_best (runnable : (s.procs p).state = .RUNNABLE) :
    IsBest s (priorityChoice s p) where
  runnable := choose_runnable .PRIORITY runnable
  least q hq := by
    rw [priorityChoice_eq]
    exact @firstLeast_le _ _ _ (fun q => (s.procs q).state = .RUNNABLE) _
      (fun q => (s.procs q).priority) _ p q (List.mem_finRange q) hq

theorem priorityChoice_self
    (least : ∀ q, (s.procs q).state = .RUNNABLE → (s.procs p).priority ≤ (s.procs q).priority) :
    priorityChoice s p = p := by
  rw [priorityChoice_eq]
  exact @firstLeast_eq_start _ _ _ (fun q => (s.procs q).state = .RUNNABLE) _
    (fun q => (s.procs q).priority) _ p fun q _ => least q

theorem priorityChoice_first {q : Slot}
    (better : (s.procs (priorityChoice s p)).priority < (s.procs p).priority)
    (runnable : (s.procs q).state = .RUNNABLE)
    (same : (s.procs q).priority = (s.procs (priorityChoice s p)).priority) :
    priorityChoice s p ≤ q := by
  rw [priorityChoice_eq] at better same ⊢
  exact @firstLeast_le_of_eq _ _ _ (fun q => (s.procs q).state = .RUNNABLE) _
    (fun q => (s.procs q).priority) _ _ p q (List.pairwise_lt_finRange NPROC) better
    (List.mem_finRange q) runnable same

/-- A step of a scheduler that dispatches a process dispatches a best one. -/
def BestDispatch (s : Kernel) : PriorityEvent → Prop
  | .kernel (.schedule c) => ∀ m, dispatched .PRIORITY c s = some m → IsBest s m
  | _ => True

theorem bestDispatch_of_tables (e : PriorityEvent) (tables : ∀ c, (s.cpu c).OnTable) :
    BestDispatch s e := by
  match e with
  | .kernel (.schedule c) =>
    intro m there
    obtain ⟨at_, scans, picked⟩ := dispatched_eq_some.1 there
    obtain ⟨p, -, runnable, rfl⟩ := pick_table (scans ▸ tables c) picked
    exact priorityChoice_best runnable
  | .setPriority _ _ _ | .chpr _ _ _ => trivial
  | .kernel (.resume _) | .kernel (.timer _) | .kernel (.trapNext _) | .kernel (.wakeup _)
  | .kernel (.syscall _) | .kernel (.sysret _) | .kernel (.fork _) | .kernel (.forkStack _)
  | .kernel (.forkFail _) | .kernel (.forkDone _) | .kernel (.exit _) | .kernel (.wait _)
  | .kernel (.waitx _) | .kernel (.kill _ _) | .kernel (.sleep _ _) => trivial

theorem onTable_priorityStep (e : PriorityEvent) (tables : ∀ c, (s.cpu c).OnTable) :
    wp (priorityStep .PRIORITY e) (fun _ s' => ∀ c, (s'.cpu c).OnTable) anyStop s := by
  have set (pid priority : ℤ) (c : ℕ) : ((withPriority s pid priority).cpu c).OnTable := by
    unfold withPriority
    split <;> exact tables c
  cases e with
  | kernel e => exact onTable_step (by decide) e tables
  | setPriority c priority pid =>
    apply wp_asCurrent tables
    intro _ _ _
    simp only [wp_bind, wp_pure]
    apply wp_mono (setPriority_spec priority pid) _ fun _ _ h => h.elim
    intro r s' result
    split_ifs at result
    · exact result.2 ▸ tables
    · exact result.2 ▸ set pid priority
    · exact result.2 ▸ tables
  | chpr c pid priority =>
    apply wp_asCurrent tables
    intro _ _ _
    simp only [wp_bind, wp_pure]
    apply wp_mono (chpr_spec pid priority) _ fun _ _ h => h.elim
    rintro r s' ⟨-, rfl⟩
    exact set pid priority

/-- In the PRIORITY build, each process dispatched is runnable, and no runnable one has a smaller
value at that moment. -/
theorem priority_dispatches_best (es : List PriorityEvent) {s : Kernel}
    (tables : ∀ c, (s.cpu c).OnTable) : Along (priorityStep .PRIORITY) BestDispatch es s := by
  have any : Along (priorityStep .PRIORITY) (fun _ _ => True) es s :=
    along_of_forall (fun _ _ => trivial) es s
  apply any.of_inv (I := fun s => ∀ c, (s.cpu c).OnTable) _ _ tables
  · exact fun s e tables _ => onTable_priorityStep e tables
  · exact fun s e tables _ => bestDispatch_of_tables e tables

/-- The first process forks a child with a worse priority and is dispatched for it. -/
def worseChild : List PriorityEvent :=
  [.kernel (.schedule 0), .kernel (.schedule 0), .kernel (.resume 0), .kernel (.fork 0),
    .kernel (.forkStack 0), .kernel (.forkDone 0), .chpr 0 2 70, .kernel (.timer 0),
    .kernel (.trapNext 0), .kernel (.trapNext 0), .kernel (.schedule 0)]

theorem priority_dispatches_best_worseChild :
    Along (priorityStep .PRIORITY) BestDispatch (worseChild ++ [.kernel (.schedule 0)]) Kernel.boot ∧
      dispatched .PRIORITY 0 (exec (run (priorityStep .PRIORITY) worseChild) Kernel.boot).2 = some 0 :=
  ⟨priority_dispatches_best _ fun _ => trivial, by decide +kernel⟩

/-! ## FCFS -/

/-- `q` is a runnable process other than the first two, created before `p`. -/
def Older (s : Kernel) (p q : Slot) : Prop :=
  2 < (s.procs q).pid ∧ (s.procs q).state = .RUNNABLE ∧ (s.procs q).ctime < (s.procs p).ctime
  deriving Decidable

/-- No runnable process other than the first two was created before `m`. -/
def IsOldest (s : Kernel) (m : Slot) : Prop :=
  ∀ q, (s.procs q).state = .RUNNABLE → 2 < (s.procs q).pid → (s.procs m).ctime ≤ (s.procs q).ctime
  deriving Decidable

/-- Of the processes older than `p`, none was created before the one in the last slot. -/
def LastIsOldest (s : Kernel) (p : Slot) : Prop :=
  ∀ r, Older s p r → (∀ q, Older s p q → q ≤ r) →
    ∀ q, Older s p q → (s.procs r).ctime ≤ (s.procs q).ctime
  deriving Decidable

theorem fcfsChoice_eq (s : Kernel) (p : Slot) :
    fcfsChoice s p = lastWhere (Older s p) (List.finRange NPROC) p := by
  unfold fcfsChoice lastWhere Older
  congr 1
  funext chosen q
  by_cases first : (s.procs q).pid ≤ 2
  · simp [first, not_lt.2 first]
  by_cases runnable : (s.procs q).state = .RUNNABLE
  · simp [first, not_le.1 first, runnable]
  · simp [first, runnable]

theorem fcfsChoice_of_none (none : ∀ q, ¬ Older s p q) : fcfsChoice s p = p := by
  rw [fcfsChoice_eq]
  exact lastWhere_of_none fun q _ => none q

theorem fcfsChoice_last {q : Slot} (older : Older s p q) :
    Older s p (fcfsChoice s p) ∧ ∀ r, Older s p r → r ≤ fcfsChoice s p := by
  rw [fcfsChoice_eq]
  obtain ⟨holds, -, greatest⟩ := lastWhere_of_mem (a := p) (List.pairwise_lt_finRange NPROC)
    (List.mem_finRange q) older
  exact ⟨holds, fun r hr => greatest r (List.mem_finRange r) hr⟩

theorem fcfsChoice_oldest_iff (s : Kernel) (p : Slot) :
    IsOldest s (fcfsChoice s p) ↔ LastIsOldest s p := by
  by_cases some : ∃ q, Older s p q
  · obtain ⟨q, older⟩ := some
    obtain ⟨chosen, last⟩ := fcfsChoice_last older
    constructor
    · intro oldest r hr greatest q hq
      have same : r = fcfsChoice s p := le_antisymm (last r hr) (greatest _ chosen)
      rw [same]
      exact oldest q hq.2.1 hq.1
    intro lastOldest q runnable pid
    by_cases before : (s.procs q).ctime < (s.procs p).ctime
    · exact lastOldest _ chosen last q ⟨pid, runnable, before⟩
    · exact chosen.2.2.le.trans (not_lt.1 before)
  · push Not at some
    rw [fcfsChoice_of_none some]
    constructor
    · exact fun _ r hr => absurd hr (some r)
    · exact fun _ q runnable pid => not_lt.1 fun before => some q ⟨pid, runnable, before⟩

/-- A process that is dispatched is runnable, and an oldest one exactly if it is the last in the
table of those older than where the loop is. -/
def FcfsDispatch (s : Kernel) : Event → Prop
  | .schedule c => ∀ m, dispatched .FCFS c s = some m → (s.procs m).state = .RUNNABLE ∧
      ∃ p : Slot, s.cpu c = .scan (.table p) ∧ (IsOldest s m ↔ LastIsOldest s p)
  | _ => True

theorem fcfsDispatch_of_tables (e : Event) (tables : ∀ c, (s.cpu c).OnTable) :
    FcfsDispatch s e := by
  cases e with
  | schedule c =>
    intro m there
    obtain ⟨at_, scans, picked⟩ := dispatched_eq_some.1 there
    refine ⟨pick_runnable picked, ?_⟩
    obtain ⟨p, rfl, -, rfl⟩ := pick_table (scans ▸ tables c) picked
    exact ⟨p, scans, fcfsChoice_oldest_iff s p⟩
  | _ => trivial

/-- In the FCFS build, each process dispatched is runnable, and the oldest exactly if, among the
older ones, the one in the last slot is the oldest. -/
theorem fcfs_dispatches_oldest_iff (es : List Event) {s : Kernel}
    (tables : ∀ c, (s.cpu c).OnTable) : Along (step .FCFS) FcfsDispatch es s := by
  have any : Along (step .FCFS) (fun _ _ => True) es s := along_of_forall (fun _ _ => trivial) es s
  apply any.of_inv (I := fun s => ∀ c, (s.cpu c).OnTable) _ _ tables
  · exact fun s e tables _ => onTable_step (by decide) e tables
  · exact fun s e tables _ => fcfsDispatch_of_tables e tables

/-- The first process forks five children, one tick apart, and sleeps. -/
def fiveForks : List Event :=
  let fork : List Event := [.fork 0, .forkStack 0, .forkDone 0]
  let tick : List Event := [.timer 0, .trapNext 0, .trapNext 0]
  [.schedule 0, .schedule 0, .resume 0] ++ fork ++ tick ++ fork ++ tick ++ fork ++ tick ++ fork ++
    tick ++ fork ++ [.sleep 0 (.addr 0)]

/-- The children run and sleep in turn; the fourth wakes up the others and sleeps. -/
def childrenWoken : List Event :=
  let turn : List Event := [.schedule 0, .schedule 0, .resume 0, .syscall 0, .sleep 0 (.addr 0)]
  fiveForks ++ turn ++ turn ++ turn ++ [.schedule 0, .schedule 0, .resume 0, .wakeup (.addr 0),
    .syscall 0, .sleep 0 (.addr 0), .schedule 0]

theorem fcfs_dispatches_oldest_iff_woken :
    Along (step .FCFS) FcfsDispatch (childrenWoken ++ [.schedule 0]) Kernel.boot :=
  fcfs_dispatches_oldest_iff _ fun _ => trivial

/-- At the fifth child the third one is dispatched, although the second is runnable and older. -/
theorem fcfs_passes_older :
    let s := (exec (run (step .FCFS) childrenWoken) Kernel.boot).2
    dispatched .FCFS 0 s = some 3 ∧ (s.procs 2).state = .RUNNABLE ∧ 2 < (s.procs 2).pid ∧
      (s.procs 2).ctime < (s.procs 3).ctime := by
  decide +kernel

end Xv6
