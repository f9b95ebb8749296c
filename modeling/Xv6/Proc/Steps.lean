import Xv6.Proc.Life

/-!
# What the kernel's steps do

What the functions of the kernel do to the queues and to the lives of the processes.
-/

namespace Xv6

open Lib Function

variable {E : Fault → Kernel → Prop} {Q : PUnit → Kernel → Prop} {at_ : Place} {f : Proc → Proc}
  {m np p : Slot} {c : ℕ}

/-- The CPU's scheduler, if it is inside its loop, goes over the process table. -/
def Cpu.OnTable : Cpu → Prop
  | .scan (.queue _ _) | .running (.queue _ _) _ | .back (.queue _ _) _ => False
  | _ => True

/-! ## What is kept of a process -/

/-- What orders a process among the others. -/
structure Rank where
  current_queue : ℤ
  ticks : Level → ℤ
  priority : ℤ

def Proc.rank (q : Proc) : Rank := ⟨q.current_queue, q.ticks, q.priority⟩

/-- Every process has the same rank as before. -/
def SameRanks (s s' : Kernel) : Prop := ∀ p, (s'.procs p).rank = (s.procs p).rank

theorem SameRanks.refl (s : Kernel) : SameRanks s s := fun _ => rfl

structure Times where
  ctime : ℤ
  etime : ℤ
  rtime : ℤ
  iotime : ℤ

def Proc.times (q : Proc) : Times := ⟨q.ctime, q.etime, q.rtime, q.iotime⟩

def ProcState.Active : ProcState → Prop
  | .RUNNABLE | .RUNNING | .SLEEPING => True
  | _ => False

/-- The CPU on which a step happens; a device is served by CPU 0. -/
def Event.cpu : Event → ℕ
  | .schedule c | .resume c | .timer c | .trapNext c | .syscall c | .sysret c | .fork c
  | .forkStack c | .forkFail c | .forkDone c | .exit c | .wait c | .waitx c | .kill c _
  | .sleep c _ => c
  | .wakeup _ => 0

/-! ## Lives after an update -/

section

variable {s : Kernel} {p : Slot} {f : Proc → Proc}

theorem life_setProc_same (h : ∀ q, (f q).state = q.state ∧ (f q).pid = q.pid ∧ (f q).pos = q.pos) :
    (s.setProc p f).life = s.life := by
  refine Life.ext (funext fun q => ?_) (funext fun q => ?_) (funext fun q => ?_) rfl rfl
  all_goals
    simp only [Kernel.life, Kernel.setProc, update_apply]
    split
    next e => simp [e, h]
    · rfl

theorem life_setProc_state (st : ProcState) (h : ∀ q, (f q).pid = q.pid ∧ (f q).pos = q.pos)
    (hst : (f (s.procs p)).state = st) :
    (s.setProc p f).life = { s.life with state := update s.life.state p st } := by
  refine Life.ext (funext fun q => ?_) (funext fun q => ?_) (funext fun q => ?_) rfl rfl
  all_goals
    simp only [Kernel.life, Kernel.setProc, update_apply]
    split
    next e => simp [e, h, hst]
    · rfl

theorem life_setCpu (s : Kernel) (c : ℕ) (x : Cpu) :
    (s.setCpu c x).life = { s.life with cpu := update s.life.cpu c x.proc } := by
  ext q
  case cpu =>
    simp only [Kernel.life, Kernel.setCpu, update_apply]
    split <;> rfl
  all_goals rfl

end

/-! ## Quiet steps -/

/-- The processes move on and the queues stay. -/
structure Quiet (s s' : Kernel) : Prop where
  queue : s'.queue = s.queue
  tables : (∀ c, (s.cpu c).OnTable) → ∀ c, (s'.cpu c).OnTable
  moves : Life.Moves s.life s'.life

/-- The errors of steps that store nothing into a queue. -/
abbrev NoOverrun (e : Fault) (_ : Kernel) : Prop := e ≠ .overrun

section

variable {s s₀ : Kernel} {α : Type}

/-! ## Queues -/

def HasRoom (q : ArrayQueue Slot) : Prop := -1 ≤ q.last ∧ q.last < 63

theorem push_spec (k : Level) (p : Slot) :
    wp (push k p) (fun _ s' => HasRoom (s.queue k) ∧ s' = s.setQueue k ((s.queue k).append p))
      (fun e _ => e = .overrun ∧ ¬ HasRoom (s.queue k)) s := by
  simp only [push, store, wp_bind, wp_modify, wp_get]
  have last : ((s.setQueue k { s.queue k with last := (s.queue k).last + 1 }).queue k).last =
      (s.queue k).last + 1 := by simp [Kernel.setQueue]
  have cap : (NPROC : ℤ) = 64 := rfl
  rw [last, wp_ite, wp_set, wp_throw]
  refine ⟨fun inside => ⟨⟨by omega, by omega⟩, ?_⟩, fun outside => ⟨rfl, fun room => outside ?_⟩⟩
  · simp [Kernel.setQueue, ArrayQueue.put, ArrayQueue.append]
  obtain ⟨low, high⟩ := room
  exact ⟨by omega, by omega⟩

theorem rem_process_spec (pid curq : ℤ) :
    wp (rem_process pid curq)
      (fun _ s' => ∃ Q, s' = { s with queue := Q } ∧
        (∀ k, ArrayQueue.Thinned (fun p => (s.procs p).pid = pid) (s.queue k) (Q k)) ∧
        ∀ k, level curq ≠ some k → Q k = s.queue k)
      (fun x _ => x = .null) s := by
  unfold rem_process
  split
  · exact ⟨s.queue, rfl, fun _ => .refl, fun _ _ => rfl⟩
  rename_i k hk
  refine wp_imp (wp_forRange (I := fun _ s' => ∃ Q, s' = { s with queue := Q } ∧
      (∀ k, ArrayQueue.Thinned (fun p => (s.procs p).pid = pid) (s.queue k) (Q k)) ∧
      ∀ k, level curq ≠ some k → Q k = s.queue k) (E := fun x _ => x = Fault.null)
        (fun i s' _ hs' => ?_)
    (Nat.zero_le _) ⟨s.queue, rfl, fun _ => .refl, fun _ _ => rfl⟩) fun _ _ h => h
  obtain ⟨Q, rfl, thin, away⟩ := hs'
  simp only [wp_bind, wp_get, wp_ite, wp_pure, entry]
  refine ⟨fun live => ?_, fun _ => ⟨Q, rfl, thin, away⟩⟩
  split
  next p hp =>
    simp only [wp_pure, wp_set]
    refine ⟨fun same => ⟨update Q k ((Q k).removeAt i), rfl, fun k' => ?_, fun k' hk' => ?_⟩,
      fun _ => ⟨Q, rfl, thin, away⟩⟩
    · by_cases e : k' = k
      · subst e
        rw [update_self]
        exact (thin k').tail ⟨i, p, ⟨live, hp⟩, same, rfl⟩
      rw [update_of_ne e]
      exact thin k'
    · have ne : k' ≠ k := fun e => hk' (e ▸ hk)
      rw [update_of_ne ne]
      exact away k' hk'
  · rfl

/-! ## Births and reaping -/

/-- A new process takes an unused slot, at the end of queue 0. -/
structure Born (s : Kernel) (m np : Slot) (s' : Kernel) : Prop where
  unused : (s.procs np).state = .UNUSED
  room : HasRoom (s.queue 0)
  life : s'.life = s.life.birth m np
  queue : s'.queue = update s.queue 0 ((s.queue 0).append np)
  cpu : s'.cpu = s.cpu

def firstUnused (s : Kernel) : Option Slot :=
  (List.finRange NPROC).find? fun p => (s.procs p).state = .UNUSED

theorem forkAlloc_spec (m : Slot) (hm : (s.procs m).pos = .kernel) :
    wp (forkAlloc m)
      (fun _ s' => s' = s ∧ firstUnused s = none ∨ ∃ np, firstUnused s = some np ∧ Born s m np s')
      (fun e _ => e = .overflow ∧ s.nextpid = 2 ^ 31 - 1 ∨
        e = .overrun ∧ ¬ HasRoom (s.queue 0) ∧ ∃ np, firstUnused s = some np) s := by
  unfold forkAlloc allocproc
  simp only [wp_bind, wp_get, modifyProc]
  split
  next hnone => exact .inl ⟨rfl, hnone⟩
  rename_i np found
  have unused : (s.procs np).state = .UNUSED := by
    have hit := List.find?_some found
    exact of_decide_eq_true hit
  rw [wp_ite, wp_throw]
  refine ⟨fun max => .inl ⟨rfl, max⟩, fun _ => ?_⟩
  simp only [wp_bind, wp_modify, wp_pure]
  refine wp_mono (push_spec 0 np) (fun _ s₁ h₁ => .inr ⟨np, found, ?_⟩)
    fun e s₁ h₁ => .inr ⟨h₁.1, h₁.2, np, found⟩
  obtain ⟨room, rfl⟩ := h₁
  refine ⟨unused, room, ?_, rfl, rfl⟩
  refine Life.ext (funext fun q => ?_) (funext fun q => ?_) (funext fun q => ?_) rfl rfl
  all_goals
    simp only [Kernel.life, Life.birth, Kernel.setProc, Kernel.setQueue, update_apply]
    by_cases e₁ : q = m <;> by_cases e₂ : q = np <;> simp_all

/-- A zombie is reaped, and queue entries with its pid are removed. -/
structure Reaps (s s' : Kernel) : Prop where
  tables : (∀ c, (s.cpu c).OnTable) → ∀ c, (s'.cpu c).OnTable
  moves : Life.Moves s.life s'.life
  queue : ∃ p, (s.procs p).state = .ZOMBIE ∧
    ∀ k, ArrayQueue.Thinned (fun q => (s.procs q).pid = (s.procs p).pid) (s.queue k) (s'.queue k)

theorem zombieChild_zombie (h : zombieChild s m = some p) : (s.procs p).state = .ZOMBIE := by
  have hit := List.find?_some h
  simp only [decide_eq_true_eq] at hit
  exact hit.2

/-! ## The scheduler -/

theorem choose_runnable (pol : Policy) (h : (s.procs p).state = .RUNNABLE) :
    (s.procs (pol.choose s p)).state = .RUNNABLE := by
  cases pol with
  | DEFAULT | MLFQ => exact h
  | FCFS =>
    refine List.foldlRecOn _ _ (motive := fun b => (s.procs b).state = .RUNNABLE) h
      fun b hb p2 _ => ?_
    split_ifs with _ stopped
    · exact hb
    · exact hb
    · exact not_not.1 stopped
    · exact hb
  | PRIORITY =>
    refine List.foldlRecOn _ _ (motive := fun b => (s.procs b).state = .RUNNABLE) h
      fun b hb p1 _ => ?_
    split_ifs with better
    · exact better.1
    · exact hb

/-! ## The parts of a step -/

theorem current_some (h : s.current c = some m) : ∃ at_, s.cpu c = .running at_ m := by
  unfold Kernel.current at h
  split at h
  next at_ m' hc =>
    split at h
    · exact ⟨at_, by rw [hc, Option.some.inj h]⟩
    · simp at h
  · simp at h

theorem wp_asCurrent {enabled : Kernel → Pos → Prop} [∀ s x, Decidable (enabled s x)]
    {act : Slot → KM PUnit} (skip : Q ⟨⟩ s)
    (h : ∀ m, s.current c = some m → enabled s (s.procs m).pos → wp (act m) Q E s) :
    wp (asCurrent c enabled act) Q E s := by
  rw [asCurrent, wp_bind, wp_get]
  split
  next m hm =>
    rw [wp_ite, wp_pure]
    exact ⟨h m hm, fun _ => skip⟩
  · exact skip

theorem wp_inFork {part : Slot → Pos} {act : Slot → Slot → KM PUnit} (skip : Q ⟨⟩ s)
    (h : ∀ m np, s.current c = some m → (s.procs m).pos.child = some np → (s.procs m).pos = part np →
      wp (act m np) Q E s) :
    wp (inFork c part act) Q E s := by
  rw [inFork, wp_bind, wp_get]
  split
  next m current =>
    split
    next np child =>
      rw [wp_ite, wp_pure]
      exact ⟨h m np current child, fun _ => skip⟩
    · exact skip
  · exact skip

theorem wp_whenFree {act : KM PUnit} (skip : Q ⟨⟩ s) (h : wp act Q E s) :
    wp (whenFree act) Q E s := by
  rw [whenFree, wp_bind, wp_get, wp_ite, wp_pure]
  exact ⟨fun _ => h, fun _ => skip⟩

end

end Xv6
