import Xv6.Proc.Feedback
import Xv6.Proc.Running

/-!
# Setting priorities

`setPriority` checks the new priority and reports whether it found a slot with the pid; `chpr` does
neither.  Both look at the pids of unused slots as well.
-/

namespace Xv6

open Lib

def findPid (s : Kernel) (pid : ℤ) : Option Slot :=
  (List.finRange NPROC).find? fun p => (s.procs p).pid = pid

def chpr (pid priority : ℤ) : KM ℤ := do
  let s ← get
  match findPid s pid with
  | some p => modifyProc p fun q => { q with priority := priority }
  | none => pure ⟨⟩
  return pid

def setPriority (priority pid : ℤ) : KM ℤ := do
  let new_priority := priority
  if new_priority < 0 ∨ 100 < new_priority then return -2
  else
    let s ← get
    match findPid s pid with
    | some p =>
        modifyProc p fun q => { q with priority := new_priority }
        return 24
    | none => return -1

/-- Events of the kernel, with the system calls that set priorities. -/
inductive PriorityEvent where
  | kernel (e : Event)
  | setPriority (c : ℕ) (priority pid : ℤ)
  | chpr (c : ℕ) (pid priority : ℤ)

def priorityStep (pol : Policy) : PriorityEvent → KM PUnit
  | .kernel e => step pol e
  | .setPriority c priority pid => asCurrent c inKernel fun _ => do
      let _ ← setPriority priority pid
  | .chpr c pid priority => asCurrent c inKernel fun _ => do
      let _ ← chpr pid priority

/-! ## What the calls do -/

section

variable {s : Kernel}

theorem findPid_none {pid : ℤ} : findPid s pid = none ↔ ∀ p, (s.procs p).pid ≠ pid := by
  simp [findPid, List.find?_eq_none]

theorem findPid_some {pid : ℤ} {p : Slot} (h : findPid s pid = some p) : (s.procs p).pid = pid := by
  simpa using List.find?_some h

/-- The state after the priority of the first slot with the given pid is set. -/
def withPriority (s : Kernel) (pid priority : ℤ) : Kernel :=
  match findPid s pid with
  | some p => s.setProc p fun q => { q with priority := priority }
  | none => s

theorem chpr_spec (pid priority : ℤ) : wp (chpr pid priority)
    (fun r s' => r = pid ∧ s' = withPriority s pid priority) never s := by
  simp only [chpr, withPriority, wp_bind, wp_get]
  split <;> simp [modifyProc]

theorem setPriority_spec (priority pid : ℤ) : wp (setPriority priority pid)
    (fun r s' => if priority < 0 ∨ 100 < priority then r = -2 ∧ s' = s
      else if (findPid s pid).isSome then r = 24 ∧ s' = withPriority s pid priority
      else r = -1 ∧ s' = s) never s := by
  simp only [setPriority, withPriority, wp_ite, wp_bind, wp_get, wp_pure]
  refine ⟨fun out => by simp [out], fun inside => ?_⟩
  split <;> simp [modifyProc, *]

end

/-! ## Priorities in a run -/

/-- A priority that `setPriority` accepts. -/
def ValidPriority (priority : ℤ) : Prop := 0 ≤ priority ∧ priority ≤ 100
  deriving Decidable

theorem validPriority_iff {priority : ℤ} :
    ValidPriority priority ↔ ¬ (priority < 0 ∨ 100 < priority) := by
  unfold ValidPriority
  omega

def PrioritiesOk (s : Kernel) : Prop := ∀ p, ValidPriority (s.procs p).priority

namespace PrioritiesOk

variable {s : Kernel}

variable (h : PrioritiesOk s)
include h

theorem setProc {p : Slot} {f : Proc → Proc}
    (hf : ValidPriority (f (s.procs p)).priority) : PrioritiesOk (s.setProc p f) := by
  intro q
  simp only [Kernel.setProc, Function.update_apply]
  split
  · exact hf
  · exact h q

theorem keep {p : Slot} {f : Proc → Proc}
    (hf : ∀ q, (f q).priority = q.priority) : PrioritiesOk (s.setProc p f) :=
  h.setProc (by rw [hf]; exact h p)

theorem same {s' : Kernel} (ranks : SameRanks s s') : PrioritiesOk s' := by
  intro p
  have := congrArg Rank.priority (ranks p)
  simp only [Proc.rank] at this
  exact this ▸ h p

theorem withPriority {pid priority : ℤ} (inside : ValidPriority priority) :
    PrioritiesOk (withPriority s pid priority) := by
  unfold Xv6.withPriority
  split
  · exact h.setProc inside
  · exact h

theorem forkAlloc (m : Slot) : wp (forkAlloc m) (fun _ => PrioritiesOk) anyStop s := by
  simp only [Xv6.forkAlloc, allocproc, wp_bind, wp_get, modifyProc]
  split
  · exact h
  rename_i np _
  rw [wp_ite, wp_throw]
  refine ⟨fun _ => trivial, fun _ => ?_⟩
  simp only [wp_bind, wp_modify, wp_pure]
  refine wp_mono (push_spec 0 np) (fun _ s₁ pushed => ?_) fun _ _ _ => trivial
  rw [pushed.2]
  have born := h.setProc (p := np) (f := fun q => { q with
    state := .EMBRYO, pid := s.nextpid, current_queue := 0, ticks := fun _ => 0, waittime := 5 })
    (h np)
  exact born.setProc (p := m) (f := fun q => { q with pos := .forking np }) (born m)

theorem forkStack (m np : Slot) : wp (forkStack m np) (fun _ => PrioritiesOk) anyStop s := by
  simp only [Xv6.forkStack, allocprocStack, modifyProc, wp_bind, wp_get, wp_modify]
  have initial : ValidPriority (if (s.procs np).pid = 1 ∨ (s.procs np).pid = 2 then 1 else 60) := by
    split <;> decide
  have set := h.setProc (p := np) (f := fun q => { q with
    resume := .forkret, trap := .none, ctime := s.ticks.toInt, etime := 0, rtime := 0, iotime := 0,
    num_r := 0, priority := if q.pid = 1 ∨ q.pid = 2 then 1 else 60 }) initial
  exact set.setProc (set m)

theorem countTick (m : Slot) : wp (countTick m) (fun _ => PrioritiesOk) anyStop s := by
  simp only [Xv6.countTick, wp_bind, wp_get]
  split <;> simp only [wp_bind, modifyProc, wp_modify, wp_pure]
  · exact h.setProc (h m)
  · have run : PrioritiesOk (s.setProc m fun q => { q with rtime := q.rtime + 1 }) := h.setProc (h m)
    split
    · trivial
    · exact run.setProc (run m)
  · exact h

theorem ageing : wp ageing (fun _ => PrioritiesOk) anyStop s := by
  apply ageing_keeps _ (fun _ _ _ => trivial) (fun _ _ _ _ _ _ _ _ _ _ => trivial) h
  intro j s w i p other l s' h raised q
  obtain ⟨Q, rfl, -⟩ := raised.state
  have kept : PrioritiesOk (s.raise p other l) := by
    refine keep (keep (keep h ?_) ?_) ?_ <;> exact fun _ => rfl
  exact kept q

theorem demote (k lower : Level) (i : ℕ) (m : Slot) :
    wp (demote k lower i m) (fun _ => PrioritiesOk) anyStop s := by
  simp only [Xv6.demote, wp_bind, wp_get, wp_ite, wp_pure, modifyProc, wp_modify]
  refine ⟨fun _ => ⟨fun _ => ?_, fun _ => ?_⟩, fun _ => h⟩
  · refine wp_mono (push_spec lower m) (fun _ s₁ pushed => ?_) fun _ _ _ => trivial
    rw [pushed.2]
    have moved : PrioritiesOk (s.setProc m fun q => { q with current_queue := q.current_queue + 1 }) :=
      h.keep fun _ => rfl
    refine PrioritiesOk.keep ?_ fun _ => rfl
    exact moved
  · refine PrioritiesOk.keep ?_ fun _ => rfl
    exact h

theorem afterSwtch (at_ : Place) (m : Slot) :
    wp (afterSwtch at_ m) (fun _ => PrioritiesOk) anyStop s := by
  match at_ with
  | .queue 0 i => exact h.demote 0 1 i m
  | .queue 1 i => exact h.demote 1 2 i m
  | .queue 2 i => exact h.demote 2 3 i m
  | .queue 3 i => exact h.demote 3 4 i m
  | .queue 4 i =>
    simp only [Xv6.afterSwtch, requeue, store, wp_bind, wp_get, wp_modify, wp_ite, wp_pure, wp_set,
      wp_throw]
    exact ⟨fun _ => h, fun _ => ⟨fun _ => h, fun _ => trivial⟩⟩
  | .table _ => exact h

theorem step (pol : Policy) (e : Event) : wp (step pol e) (fun _ => PrioritiesOk) anyStop s := by
  apply step_ranks pol e h (fun _ _ _ => trivial) (fun _ _ h ranks => h.same ranks)
    (fun m _ h => h.forkAlloc m) (fun m np _ h => h.forkStack m np) (fun m _ h => h.countTick m)
    _ fun at_ m _ h => h.afterSwtch at_ m
  intro c _ _ _ _
  exact PrioritiesOk.ageing (s := s.setLock (some c)) h

end PrioritiesOk

/-! ## Pids -/

/-- No slot has a negative pid. -/
structure PidsOk (v : View) : Prop where
  next : 0 < v.nextpid
  pid : ∀ p, 0 ≤ (v.proc p).pid

namespace PidsOk

open View

variable {ends : ℤ → Prop} {v v' : View}

theorem set (h : PidsOk v) {p : Slot} {f : Core → Core} (hf : 0 ≤ (f (v.proc p)).pid) :
    PidsOk (v.set p f) where
  next := h.next
  pid q := by
    by_cases same : q = p
    · subst same
      simpa using hf
    rw [proc_set_ne v f same]
    exact h.pid q

theorem congr (h : PidsOk v) (next : v'.nextpid = v.nextpid)
    (pid : ∀ p, (v'.proc p).pid = (v.proc p).pid) : PidsOk v' :=
  ⟨next ▸ h.next, fun p => pid p ▸ h.pid p⟩

theorem move (h : PidsOk v) (c : ℕ) (x : Cpu) (l : Option ℕ) : PidsOk (v.move c x l) :=
  ⟨h.next, h.pid⟩

theorem act (h : PidsOk v) (a : Act ends v v') : PidsOk v' := by
  cases a with
  | birth c at_ m np run unused =>
    have positive : 0 < v.nextpid + 1 := by
      have := h.next
      omega
    have later : PidsOk { v with nextpid := v.nextpid + 1 } := ⟨positive, h.pid⟩
    have born := later.set (p := np) (f := fun q => { q with state := .EMBRYO, pid := v.nextpid })
      h.next.le
    exact born.set (born.pid m)
  | exit c at_ m proc run held other ends_ table =>
    refine h.congr rfl fun p => ?_
    show (proc p).pid = (v.proc p).pid
    by_cases same : p = m
    · rw [same, table.self]
    obtain ⟨st, eq, -⟩ := table.others p same
    rw [eq]
  | reap c at_ m p run child zombie => exact h.set le_rfl
  | wake chan =>
    refine h.congr rfl fun p => ?_
    simp only [View.wake]
    split <;> rfl
  | stack m np child | release c at_ m np run child =>
    exact (h.set (h.pid np)).set ((h.set (h.pid np)).pid m)
  | enter | scan | leave => exact h.move _ _ _
  | lock | unlock => exact ⟨h.next, h.pid⟩
  | dispatch c at_ at' m | stop c at_ m =>
    refine move ?_ _ _ _
    exact h.set (h.pid m)
  | awake c at_ m | walk m => exact h.set (h.pid m)

theorem acts (h : PidsOk v) (a : Acts ends v v') : PidsOk v' := by
  induction a with
  | refl => exact h
  | tail _ a ih => exact ih.act a

theorem step {s : Kernel} (h : PidsOk s.view) (pol : Policy) (e : Event) :
    wp (step pol e) (fun _ s' => PidsOk s'.view) anyStop s := by
  apply wp_imp (step_effect pol e)
  intro _ s' eff
  generalize s'.view = v at eff
  cases eff with
  | acts _ _ a => exact h.acts a
  | abort c m np current child => exact (h.set (h.pid np)).set ((h.set (h.pid np)).pid m)
  | kill c pid p found => exact h.set (h.pid p)

end PidsOk

/-! ## Refusing calls -/

def Live (s : Kernel) (pid : ℤ) : Prop := ∃ p, (s.procs p).state ≠ .UNUSED ∧ (s.procs p).pid = pid

/-- If no process has the pid or the priority is out of range, the call fails. -/
def Refuses (s : Kernel) (pid priority : ℤ) (call : KM ℤ) : Prop :=
  ¬ Live s pid ∨ ¬ ValidPriority priority →
    wp call (fun r s' => r < 0 ∧ s'.procs = s.procs) (fun _ _ => False) s

section

variable {s : Kernel}

/-- `setPriority` wrongly accepts only the pids of unused slots. -/
theorem setPriority_refuses_iff (priority pid : ℤ) :
    Refuses s pid priority (setPriority priority pid) ↔
      (ValidPriority priority → (∃ p, (s.procs p).pid = pid) → Live s pid) := by
  constructor
  · intro refuses inside named
    by_contra dead
    obtain ⟨p, hp⟩ := named
    have found : (findPid s pid).isSome := by
      rw [Option.isSome_iff_ne_none]
      exact fun none => findPid_none.1 none p hp
    apply wp_false (wp_mono (wp_and (refuses (.inl dead)) (setPriority_spec priority pid)) _
      fun _ _ h => h.1)
    rintro r s' ⟨⟨neg, -⟩, spec⟩
    rw [if_neg (validPriority_iff.1 inside), if_pos found] at spec
    omega
  intro accepts bad
  apply wp_imp (setPriority_spec priority pid)
  intro r s' spec
  split at spec
  · exact ⟨by omega, spec.2 ▸ rfl⟩
  rename_i inside
  have inside := validPriority_iff.2 inside
  have dead := bad.resolve_right (not_not.2 inside)
  have none : ¬ (findPid s pid).isSome := by
    intro some
    obtain ⟨p, hp⟩ := Option.isSome_iff_exists.1 some
    exact dead (accepts inside ⟨p, findPid_some hp⟩)
  rw [if_neg none] at spec
  exact ⟨by omega, spec.2 ▸ rfl⟩

theorem chpr_refuses_iff (pids : PidsOk s.view) (pid priority : ℤ) :
    Refuses s pid priority (chpr pid priority) ↔
      (Live s pid ∧ ValidPriority priority) ∨ pid < 0 := by
  constructor
  · intro refuses
    by_cases good : Live s pid ∧ ValidPriority priority
    · exact .inl good
    have bad : ¬ Live s pid ∨ ¬ ValidPriority priority := not_and_or.1 good
    by_contra other
    rw [not_or] at other
    apply wp_false (wp_mono (wp_and (refuses bad) (chpr_spec pid priority)) _ fun _ _ h => h.1)
    rintro r s' ⟨⟨neg, -⟩, rfl, -⟩
    exact other.2 neg
  rintro (good | neg) bad
  · exact absurd good (not_and_or.2 bad)
  apply wp_imp (chpr_spec pid priority)
  rintro r s' ⟨rfl, rfl⟩
  have none : findPid s r = none := by
    rw [findPid_none]
    intro p hp
    have nonneg : 0 ≤ (s.procs p).pid := pids.pid p
    omega
  rw [withPriority, none]
  exact ⟨neg, rfl⟩

end

/-! ## Runs -/

/-- A call of `chpr` has a valid priority. -/
def PriorityEvent.Checked : PriorityEvent → Prop
  | .chpr _ _ priority => ValidPriority priority
  | _ => True

theorem view_withPriority (s : Kernel) (pid priority : ℤ) :
    (withPriority s pid priority).view = s.view := by
  unfold withPriority
  split
  · exact (view_setProc id rfl).trans (by simp [View.set])
  · rfl

theorem priorityStep_keeps {s : Kernel} (pol : Policy) {e : PriorityEvent}
    (h : PrioritiesOk s ∧ PidsOk s.view) (checked : e.Checked) :
    wp (priorityStep pol e) (fun _ s' => PrioritiesOk s' ∧ PidsOk s'.view) anyStop s := by
  have set (pid : ℤ) {priority : ℤ} (inside : ValidPriority priority) :
      PrioritiesOk (withPriority s pid priority) ∧ PidsOk (withPriority s pid priority).view :=
    ⟨h.1.withPriority inside, (view_withPriority s pid priority).symm ▸ h.2⟩
  cases e with
  | kernel e =>
    exact wp_mono (wp_and (h.1.step pol e) (h.2.step pol e)) (fun _ _ h => h) fun _ _ _ => trivial
  | setPriority c priority pid =>
    refine wp_asCurrent h fun _ _ _ => ?_
    rw [wp_bind]
    refine wp_mono (setPriority_spec priority pid) (fun r s' spec => ?_) fun _ _ h => h.elim
    rw [wp_pure]
    split at spec
    · exact spec.2 ▸ h
    next inside =>
      split at spec
      · rw [spec.2]
        exact set pid (validPriority_iff.2 inside)
      · exact spec.2 ▸ h
  | chpr c pid priority =>
    refine wp_asCurrent h fun _ _ _ => ?_
    rw [wp_bind]
    refine wp_mono (chpr_spec pid priority) (fun r s' spec => ?_) fun _ _ h => h.elim
    rw [wp_pure, spec.2]
    exact set pid checked

/-- Where `chpr` is called with valid priorities only, all stay valid. `setPriority` refuses what it
should unless the pid is that of an unused slot, and `chpr` unless it is negative. -/
theorem priorities_in_range (pol : Policy) (es : List PriorityEvent) (checked : ∀ e ∈ es, e.Checked) :
    wp (run (priorityStep pol) es)
      (fun _ s => (∀ p, 0 ≤ (s.procs p).priority ∧ (s.procs p).priority ≤ 100) ∧
        ∀ pid priority,
          (Refuses s pid priority (setPriority priority pid) ↔
            (ValidPriority priority → (∃ p, (s.procs p).pid = pid) → Live s pid)) ∧
          (Refuses s pid priority (chpr pid priority) ↔
            (Live s pid ∧ ValidPriority priority) ∨ pid < 0))
      (fun _ _ => True) Kernel.boot := by
  have boot : PrioritiesOk Kernel.boot ∧ PidsOk Kernel.boot.view := by
    refine ⟨?_, by decide +kernel, ?_⟩
    · have table : ∀ p, ValidPriority (Kernel.boot.procs p).priority := by decide +kernel
      exact table
    have table : ∀ p, 0 ≤ (Kernel.boot.view.proc p).pid := by decide +kernel
    exact table
  have along : Along (priorityStep pol) (fun _ e => e.Checked) es Kernel.boot :=
    along_of_forall_mem Kernel.boot checked
  refine wp_imp (along.wp_run (E := anyStop)
    (fun s e h ok => priorityStep_keeps pol h ok) boot) fun _ s h => ?_
  exact ⟨h.1, fun pid priority => ⟨setPriority_refuses_iff priority pid,
    chpr_refuses_iff h.2 pid priority⟩⟩

/-- The first process is in a system call. -/
def firstCall : List PriorityEvent :=
  [.kernel (.schedule 0), .kernel (.schedule 0), .kernel (.resume 0)]

section

attribute [local irreducible] wp

theorem priorities_in_range_first :
    wp (run (priorityStep .DEFAULT) (firstCall ++ [.chpr 0 1 100, .setPriority 0 101 1]))
      (fun _ s => (∀ p, 0 ≤ (s.procs p).priority ∧ (s.procs p).priority ≤ 100) ∧
        ∀ pid priority,
          (Refuses s pid priority (setPriority priority pid) ↔
            (ValidPriority priority → (∃ p, (s.procs p).pid = pid) → Live s pid)) ∧
          (Refuses s pid priority (chpr pid priority) ↔
            (Live s pid ∧ ValidPriority priority) ∨ pid < 0))
      (fun _ _ => True) Kernel.boot := by
  apply priorities_in_range
  simp [firstCall, PriorityEvent.Checked, ValidPriority]

end

/-- `chpr` sets the priority 1000, and `setPriority` reports success for pid 0. -/
theorem firstCall_out_of_range :
    let s := (exec (run (priorityStep .DEFAULT) firstCall) Kernel.boot).2
    let r := exec (chpr 1 1000) s
    let r' := exec (setPriority 50 0) s
    s.cpu 0 = .running (.table 0) 0 ∧ (s.procs 0).pid = 1 ∧ r.1 = .ok 1 ∧
      (r.2.procs 0).priority = 1000 ∧ (∀ p, (s.procs p).state ≠ .UNUSED → (s.procs p).pid ≠ 0) ∧
      r'.1 = .ok 24 := by
  decide +kernel

end Xv6
