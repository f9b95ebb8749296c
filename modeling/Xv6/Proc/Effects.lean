import Xv6.Proc.Steps

/-!
# Who is who in the process table

`View` keeps of the kernel's state who holds `ptable.lock`, what the CPUs do, and of every process
what the queues and the clocks do not touch.  `Act` lists what the kernel can do to a view.
-/

namespace Xv6

open Lib Function

variable {e : Event} {l : List Slot} {at_ : Place} {f : Proc → Proc} {m np p : Slot} {c : ℕ}

/-- What of a process the scheduling queues and the clocks do not touch. -/
structure Core where
  state : ProcState
  pid : ℤ
  parent : Option Slot
  chan : Chan
  killed : Bool
  resume : Resume
  pos : Pos

def Proc.core (q : Proc) : Core :=
  ⟨q.state, q.pid, q.parent, q.chan, q.killed, q.resume, q.pos⟩

structure View where
  proc : Slot → Core
  lock : Option ℕ
  cpu : ℕ → Cpu
  nextpid : ℤ
  initproc : Slot

def Kernel.view (s : Kernel) : View :=
  ⟨fun p => (s.procs p).core, s.lock, s.cpu, s.nextpid, s.initproc⟩

namespace View

def set (v : View) (p : Slot) (f : Core → Core) : View :=
  { v with proc := update v.proc p (f (v.proc p)) }

/-- CPU `c` goes to `x`, and `ptable.lock` to `l`. -/
def move (v : View) (c : ℕ) (x : Cpu) (l : Option ℕ) : View :=
  { v with lock := l, cpu := update v.cpu c x }

@[simp] theorem proc_set_same (v : View) (p : Slot) (f : Core → Core) :
    (v.set p f).proc p = f (v.proc p) := update_self ..

theorem proc_set_ne (v : View) {q : Slot} (f : Core → Core) (h : q ≠ p) :
    (v.set p f).proc q = v.proc q := update_of_ne h ..

theorem proc_set (v : View) (p q : Slot) (f : Core → Core) :
    (v.set p f).proc q = if q = p then f (v.proc p) else v.proc q := update_apply ..

/-- The sleepers on `chan` become runnable. -/
def wake (v : View) (chan : Chan) : View :=
  { v with proc := fun p =>
      if (v.proc p).state = .SLEEPING ∧ (v.proc p).chan = chan then
        { v.proc p with state := .RUNNABLE }
      else v.proc p }

/-- The parent of a process after `m` has passed its children to init. -/
def adopter (v : View) (m p : Slot) : Option Slot :=
  if (v.proc p).parent = some m then some v.initproc else (v.proc p).parent

/-- The table after the critical section of `exit` by process `m`. -/
structure Exits (v : View) (m : Slot) (proc : Slot → Core) : Prop where
  self : proc m = { v.proc m with state := .ZOMBIE, resume := .sleep, parent := v.adopter m m }
  others : ∀ p, p ≠ m → ∃ st, proc p = { v.proc p with state := st, parent := v.adopter m p } ∧
    (st = (v.proc p).state ∨ (v.proc p).state = .SLEEPING ∧ st = .RUNNABLE)
  parent : ∀ q, (v.proc m).parent = some q → ∀ p, (proc p).state = .SLEEPING →
    (v.proc p).chan ≠ .proc q
  init : (∃ q, (v.proc q).parent = some m ∧ (v.proc q).state = .ZOMBIE) →
    ∀ p, (proc p).state = .SLEEPING → (v.proc p).chan ≠ .proc v.initproc

def NoZombie (v : View) (m : Slot) : Prop :=
  ∀ p, (v.proc p).parent = some m → (v.proc p).state ≠ .ZOMBIE

/-- Process `m` gives up the fork of `np`. -/
def abort (v : View) (m np : Slot) : View :=
  (v.set np fun q => { q with state := .UNUSED }).set m fun q => { q with pos := .kernel }

def kill (v : View) (p : Slot) : View :=
  v.set p fun q =>
    { q with killed := true, state := if q.state = .SLEEPING then .RUNNABLE else q.state }

/-- What the kernel does, `kill` and forks that fail aside, if only pids in `ends` exit. -/
inductive Act (ends : ℤ → Prop) : View → View → Prop where
  | enter (v : View) (c : ℕ) (at_ : Place) (top : v.cpu c = .top) (free : v.lock = none) :
      Act ends v (v.move c (.scan at_) (some c))
  /-- It goes on in its loop, also after a process came back. -/
  | scan (v : View) (c : ℕ) (at_ : Place)
      (inside : (∃ x, v.cpu c = .scan x) ∨ ∃ x m, v.cpu c = .back x m) :
      Act ends v (v.move c (.scan at_) v.lock)
  | leave (v : View) (c : ℕ) (at_ : Place) (inside : v.cpu c = .scan at_) :
      Act ends v (v.move c .top none)
  | dispatch (v : View) (c : ℕ) (at_ at' : Place) (m : Slot) (inside : v.cpu c = .scan at_)
      (runnable : (v.proc m).state = .RUNNABLE) :
      Act ends v ((v.set m fun q => { q with state := .RUNNING }).move c (.running at' m) v.lock)
  /-- A running process takes the lock and gives it back. -/
  | lock (v : View) (c : ℕ) (at_ : Place) (m : Slot) (run : v.cpu c = .running at_ m)
      (free : v.lock = none) : Act ends v { v with lock := some c }
  | unlock (v : View) (c : ℕ) (at_ : Place) (m : Slot) (run : v.cpu c = .running at_ m)
      (held : v.lock = some c) : Act ends v { v with lock := none }
  | wake (v : View) (chan : Chan) : Act ends v (v.wake chan)
  | awake (v : View) (c : ℕ) (at_ : Place) (m : Slot) (run : v.cpu c = .running at_ m) :
      Act ends v (v.set m fun q => { q with chan := .null })
  /-- A process goes elsewhere. -/
  | walk (v : View) (m : Slot) (x : Pos)
      (old : ∀ np, x.child = some np → (v.proc m).pos.child = some np) :
      Act ends v (v.set m fun q => { q with pos := x })
  /-- `allocproc` takes a slot for a child of `m`. -/
  | birth (v : View) (c : ℕ) (at_ : Place) (m np : Slot) (run : v.cpu c = .running at_ m)
      (unused : (v.proc np).state = .UNUSED) :
      Act ends v ((set { v with nextpid := v.nextpid + 1 } np
        fun q => { q with state := .EMBRYO, pid := v.nextpid }).set m
        fun q => { q with pos := .forking np })
  | stack (v : View) (m np : Slot) (child : (v.proc m).pos.child = some np) :
      Act ends v ((v.set np fun q => { q with resume := .forkret }).set m
        fun q => { q with pos := .copying np })
  | release (v : View) (c : ℕ) (at_ : Place) (m np : Slot) (run : v.cpu c = .running at_ m)
      (child : (v.proc m).pos.child = some np) :
      Act ends v ((v.set np fun q => { q with parent := some m, state := .RUNNABLE }).set m
        fun q => { q with pos := .kernel })
  /-- A running process gives up its CPU; one that sleeps in `wait` has looked for zombies. -/
  | stop (v : View) (c : ℕ) (at_ : Place) (m : Slot) (st : ProcState) (chan : Chan) (r : Resume)
      (run : v.cpu c = .running at_ m) (held : v.lock = some c)
      (out : st = .RUNNABLE ∨ st = .SLEEPING)
      (waits : r = .wait ∨ r = .waitx → chan = .proc m ∧ v.NoZombie m) :
      Act ends v ((v.set m fun q => { q with state := st, chan := chan, resume := r }).move c
        (.back at_ m) v.lock)
  | exit (v : View) (c : ℕ) (at_ : Place) (m : Slot) (proc : Slot → Core)
      (run : v.cpu c = .running at_ m) (held : v.lock = some c) (other : m ≠ v.initproc)
      (ends_ : ends (v.proc m).pid) (table : v.Exits m proc) :
      Act ends v ({ v with proc := proc }.move c (.back at_ m) v.lock)
  | reap (v : View) (c : ℕ) (at_ : Place) (m p : Slot) (run : v.cpu c = .running at_ m)
      (child : (v.proc p).parent = some m) (zombie : (v.proc p).state = .ZOMBIE) :
      Act ends v (v.set p fun q =>
        { q with pid := 0, parent := none, killed := false, state := .UNUSED })

abbrev Acts (ends : ℤ → Prop) : View → View → Prop := Relation.ReflTransGen (Act ends)

end View

/-! ## Views after an update -/

section

variable {s : Kernel}

theorem view_setProc (g : Core → Core) (h : (f (s.procs p)).core = g (s.procs p).core) :
    (s.setProc p f).view = s.view.set p g := by
  simp only [Kernel.view, Kernel.setProc, View.set, View.mk.injEq, and_true]
  funext q
  simp only [update_apply]
  split
  · rw [h]
  · rfl

theorem view_setProc_same (h : ∀ q, (f q).core = q.core) : (s.setProc p f).view = s.view := by
  rw [view_setProc id (h _)]
  simp [View.set]

theorem view_setCpu (c : ℕ) (x : Cpu) : (s.setCpu c x).view = s.view.move c x s.lock := rfl

/-! ## The queues -/

/-- Ranks aside, what is kept of the processes is as it was. -/
structure Queued (s s' : Kernel) : Prop where
  view : s'.view = s.view
  ticks : s'.ticks = s.ticks
  times : ∀ p, (s'.procs p).times = (s.procs p).times

theorem Queued.refl (s : Kernel) : Queued s s := ⟨rfl, rfl, fun _ => rfl⟩

theorem Queued.trans {s' s'' : Kernel} (h : Queued s s') (h' : Queued s' s'') : Queued s s'' :=
  ⟨h'.view.trans h.view, h'.ticks.trans h.ticks, fun p => (h'.times p).trans (h.times p)⟩

/-- A program that changes only queues and ranks. -/
abbrev Queues {α : Type} (m : KM α) (s : Kernel) : Prop :=
  wp m (fun _ s' => Queued s s') (fun _ _ => True) s

theorem Queues.bind {α β : Type} {m : KM α} {f : α → KM β} (h : Queues m s)
    (h' : ∀ a s', Queues (f a) s') : Queues (m >>= f) s := by
  rw [Queues]
  refine wp_next h fun a s' same => ?_
  exact wp_imp (h' a s') fun _ _ same' => same.trans same'

theorem modifyProc_queued (h : ∀ q, (f q).core = q.core ∧ (f q).times = q.times) :
    Queues (modifyProc p f) s := by
  rw [Queues, modifyProc, wp_modify]
  refine ⟨view_setProc_same fun q => (h q).1, rfl, fun r => ?_⟩
  simp only [Kernel.setProc, update_apply]
  split
  next same => rw [(h _).2, same]
  · rfl

theorem entry_queued (k : Level) (i : ℕ) : Queues (entry k i) s := by
  simp only [Queues, entry, wp_bind, wp_get]
  split
  · exact .refl s
  · trivial

theorem store_queued (k : Level) (i : ℤ) (p : Slot) : Queues (store k i p) s := by
  rw [Queues, store, wp_bind, wp_get, wp_ite, wp_set, wp_throw]
  exact ⟨fun _ => ⟨rfl, rfl, fun _ => rfl⟩, fun _ => trivial⟩

theorem push_queued (k : Level) (p : Slot) : Queues (push k p) s := by
  refine wp_mono (push_spec k p) (fun _ s' h => ?_) fun _ _ _ => trivial
  rw [h.2]
  exact ⟨rfl, rfl, fun _ => rfl⟩

theorem rem_process_queued (pid curq : ℤ) : Queues (rem_process pid curq) s := by
  refine wp_mono (rem_process_spec pid curq) (fun _ s' h => ?_) fun _ _ _ => trivial
  obtain ⟨Q, rfl, -⟩ := h
  exact ⟨rfl, rfl, fun _ => rfl⟩

theorem ageEntry_queued (k lower : Level) (w : Level × ℕ) (i : ℕ) :
    Queues (ageEntry k lower w i) s := by
  rw [Queues, ageEntry, wp_bind, wp_get]
  refine Queues.bind (entry_queued k i) fun p s₁ => ?_
  rw [Queues, wp_ite, wp_ite, wp_pure]
  refine ⟨fun _ => .refl s₁, fun _ => ⟨fun _ => .refl s₁, fun _ => ?_⟩⟩
  refine Queues.bind (entry_queued w.1 w.2) fun other _ => ?_
  refine Queues.bind (modifyProc_queued fun _ => ⟨rfl, rfl⟩) fun _ _ => ?_
  refine Queues.bind (modifyProc_queued fun _ => ⟨rfl, rfl⟩) fun _ _ => ?_
  split
  · trivial
  refine Queues.bind (modifyProc_queued fun _ => ⟨rfl, rfl⟩) fun _ _ => ?_
  exact Queues.bind (push_queued lower p) fun _ _ => rem_process_queued _ _

theorem ageQueue_queued (k lower : Level) (w : ℕ → Level × ℕ) : Queues (ageQueue k lower w) s := by
  refine wp_forRange (I := fun _ s' => Queued s s')
    (fun i s' _ same => ?_) (Nat.zero_le _) (.refl s)
  rw [wp_bind, wp_get, wp_ite, wp_pure]
  refine ⟨fun _ => ?_, fun _ => same⟩
  exact wp_imp (ageEntry_queued k lower (w i) i) fun _ _ same' => same.trans same'

theorem ageing_queued : Queues ageing s :=
  Queues.bind (ageQueue_queued 1 0 _) fun _ _ => Queues.bind (ageQueue_queued 2 1 _)
    fun _ _ => Queues.bind (ageQueue_queued 3 2 _) fun _ _ => ageQueue_queued 4 3 _

theorem demote_queued (k lower : Level) (i : ℕ) (m : Slot) : Queues (demote k lower i m) s := by
  have last (s₁ : Kernel) : Queues (do
      modify fun s => s.setQueue k ((s.queue k).removeAt i)
      modifyProc m fun q => { q with ticks := update q.ticks k 0 }) s₁ :=
    Queues.bind (by rw [Queues, wp_modify]; exact ⟨rfl, rfl, fun _ => rfl⟩)
      fun _ _ => modifyProc_queued fun _ => ⟨rfl, rfl⟩
  rw [Queues, demote, wp_bind, wp_get, wp_ite, wp_pure]
  refine ⟨fun _ => ?_, fun _ => .refl s⟩
  rw [wp_ite]
  refine ⟨fun _ => ?_, fun _ => last s⟩
  refine Queues.bind (modifyProc_queued fun _ => ⟨rfl, rfl⟩) fun _ _ => ?_
  exact Queues.bind (push_queued lower m) fun _ s₂ => last s₂

theorem requeue_queued (i : ℕ) (m : Slot) : Queues (requeue i m) s := by
  simp only [Queues, requeue, wp_bind, wp_get, wp_modify, wp_ite, wp_pure]
  have removed : Queued s (s.setQueue 4 ((s.queue 4).closeGap i)) := ⟨rfl, rfl, fun _ => rfl⟩
  refine ⟨fun _ => removed, fun _ => ?_⟩
  exact wp_imp (store_queued 4 _ m) fun _ _ stored => removed.trans stored

theorem afterSwtch_queued (at_ : Place) (m : Slot) : Queues (afterSwtch at_ m) s := by
  match at_ with
  | .queue 0 i => exact demote_queued 0 1 i m
  | .queue 1 i => exact demote_queued 1 2 i m
  | .queue 2 i => exact demote_queued 2 3 i m
  | .queue 3 i => exact demote_queued 3 4 i m
  | .queue 4 i => exact requeue_queued i m
  | .table _ => exact .refl s

open View

variable {E : Fault → Kernel → Prop}

/-! ## Waking -/

/-- The queues, the clock and what is kept of the processes beside the view stay. -/
structure Aside (s s' : Kernel) : Prop where
  queue : s'.queue = s.queue
  ticks : s'.ticks = s.ticks
  ranks : SameRanks s s'
  times : ∀ p, (s'.procs p).times = (s.procs p).times

theorem Aside.refl (s : Kernel) : Aside s s := ⟨rfl, rfl, .refl s, fun _ => rfl⟩

theorem Aside.trans {s' s'' : Kernel} (h : Aside s s') (h' : Aside s' s'') : Aside s s'' where
  queue := h'.queue.trans h.queue
  ticks := h'.ticks.trans h.ticks
  ranks p := (h'.ranks p).trans (h.ranks p)
  times p := (h'.times p).trans (h.times p)

theorem wakeup1_view (chan : Chan) (E : Fault → Kernel → Prop) :
    wp (wakeup1 chan) (fun _ s' => s'.view = s.view.wake chan ∧ Aside s s') E s := by
  rw [wakeup1, wp_modify]
  refine ⟨?_, rfl, rfl, fun p => ?_, fun p => ?_⟩
  · simp only [Kernel.view, View.wake, View.mk.injEq, and_true]
    funext p
    by_cases asleep : (s.procs p).state = .SLEEPING ∧ (s.procs p).chan = chan
    · simp [Proc.core, asleep]
    simp only [Proc.core, if_neg asleep]
    exact (if_neg asleep).symm
  all_goals
    dsimp only
    split <;> rfl

/-! ## Exit -/

/-- What the loop of `exit` has done once it has been over the slots of `l`. -/
structure Adopts (v : View) (m : Slot) (l : List Slot) (v' : View) : Prop where
  lock : v'.lock = v.lock
  cpu : v'.cpu = v.cpu
  nextpid : v'.nextpid = v.nextpid
  initproc : v'.initproc = v.initproc
  proc : ∀ p, ∃ st, v'.proc p = { v.proc p with
      state := st
      parent := if p ∈ l then v.adopter m p else (v.proc p).parent } ∧
    (st = (v.proc p).state ∨ (v.proc p).state = .SLEEPING ∧ st = .RUNNABLE)
  woken : (∃ q ∈ l, (v.proc q).parent = some m ∧ (v.proc q).state = .ZOMBIE) →
    ∀ p, (v'.proc p).state = .SLEEPING → (v.proc p).chan ≠ .proc v.initproc

namespace Adopts

variable {v v' v'' : View} {m : Slot}

theorem refl (v : View) (m : Slot) : Adopts v m [] v where
  lock := rfl
  cpu := rfl
  nextpid := rfl
  initproc := rfl
  proc p := ⟨(v.proc p).state, by simp, .inl rfl⟩
  woken h := by simp at h

theorem chan_eq (h : Adopts v m l v') (p : Slot) : (v'.proc p).chan = (v.proc p).chan := by
  obtain ⟨st, eq, -⟩ := h.proc p
  rw [eq]

theorem asleep (h : Adopts v m l v') (asleep : (v'.proc p).state = .SLEEPING) :
    (v.proc p).state = .SLEEPING := by
  obtain ⟨st, eq, same | ⟨-, awake⟩⟩ := h.proc p
  · rw [eq] at asleep
    exact same ▸ asleep
  rw [eq] at asleep
  simp [awake] at asleep

theorem zombie (h : Adopts v m l v') (p : Slot) :
    (v'.proc p).state = .ZOMBIE ↔ (v.proc p).state = .ZOMBIE := by
  obtain ⟨st, eq, same | ⟨slept, awake⟩⟩ := h.proc p
  · rw [eq]
    simp [same]
  rw [eq]
  simp [slept, awake]

theorem cons {a : Slot} (h : Adopts v m [a] v') (h' : Adopts v' m l v'') :
    Adopts v m (a :: l) v'' where
  lock := h'.lock.trans h.lock
  cpu := h'.cpu.trans h.cpu
  nextpid := h'.nextpid.trans h.nextpid
  initproc := h'.initproc.trans h.initproc
  proc p := by
    obtain ⟨st, eq, hst⟩ := h.proc p
    obtain ⟨st', eq', hst'⟩ := h'.proc p
    refine ⟨st', ?_, ?_⟩
    · rw [eq', eq]
      simp only [List.mem_cons, List.not_mem_nil, or_false, adopter, eq,
        h.initproc, Core.mk.injEq, true_and, and_true]
      by_cases hp : p = a <;> by_cases hl : p ∈ l <;> simp only [hp, hl, true_or, or_true, if_true,
        if_false, or_false]
      all_goals split_ifs <;> simp_all
    rw [eq] at hst'
    rcases hst' with rfl | ⟨slept, awake⟩
    · exact hst
    rcases hst with rfl | ⟨-, rfl⟩
    · exact .inr ⟨slept, awake⟩
    · simp at slept
  woken found p slept := by
    obtain ⟨q, hq, parent, zombie⟩ := found
    rcases List.mem_cons.1 hq with rfl | hq
    · exact h.woken ⟨q, List.mem_singleton_self q, parent, zombie⟩ p (h'.asleep slept)
    by_cases same : q = a
    · subst same
      exact h.woken ⟨q, List.mem_singleton_self q, parent, zombie⟩ p (h'.asleep slept)
    rw [← h.chan_eq p, ← h.initproc]
    refine h'.woken ⟨q, hq, ?_, (h.zombie q).2 zombie⟩ p slept
    obtain ⟨st, eq, -⟩ := h.proc q
    rw [eq]
    simpa [same] using parent

end Adopts

theorem adopt_one (m p : Slot) :
    wp (do
      let s ← get
      if (s.procs p).parent = some m then
        modifyProc p fun q => { q with parent := some s.initproc }
        if (s.procs p).state = .ZOMBIE then wakeup1 (.proc s.initproc) else pure ⟨⟩
      else pure ⟨⟩ : KM PUnit) (fun _ s' => Adopts s.view m [p] s'.view ∧ Aside s s') E s := by
  simp only [wp_bind, wp_get, wp_ite, wp_pure, modifyProc, wp_modify]
  have adopted (parent : (s.procs p).parent = some m) :
      (s.setProc p fun q => { q with parent := some s.initproc }).view =
        s.view.set p fun q => { q with parent := some s.initproc } := view_setProc _ rfl
  have passed : Aside s (s.setProc p fun q => { q with parent := some s.initproc }) := by
    refine ⟨rfl, rfl, fun q => ?_, fun q => ?_⟩ <;>
    · simp only [Kernel.setProc, update_apply]
      split
      next same =>
        rw [same]
        rfl
      · rfl
  refine ⟨fun parent => ⟨fun zombie => ?_, fun alive => ?_⟩, fun stranger => ?_⟩
  · refine wp_imp (wakeup1_view _ E) fun _ s' h => ?_
    rw [h.1, adopted parent]
    refine ⟨⟨rfl, rfl, rfl, rfl, fun q => ?_, fun _ q slept => ?_⟩, passed.trans h.2⟩
    · have here : (s.view.proc p).state = .ZOMBIE := zombie
      have parent' : (s.view.proc p).parent = some m := parent
      by_cases same : q = p
      · subst same
        refine ⟨_, ?_, .inl rfl⟩
        simp [View.wake, here, adopter, parent']
        rfl
      simp only [View.wake, proc_set_ne _ _ same, List.mem_singleton, same, if_false]
      split
      next asleep => exact ⟨.RUNNABLE, rfl, .inr ⟨asleep.1, rfl⟩⟩
      · exact ⟨_, rfl, .inl rfl⟩
    intro chan
    simp only [View.wake] at slept
    have kept : ((s.view.set p fun q => { q with parent := some s.initproc }).proc q).chan =
        (s.view.proc q).chan := by
      rw [proc_set]
      split
      next same => rw [same]
      · rfl
    rw [kept, chan] at slept
    split at slept
    · simp at slept
    next awake => exact awake ⟨slept, rfl⟩
  · rw [adopted parent]
    refine ⟨⟨rfl, rfl, rfl, rfl, fun q => ⟨(s.view.proc q).state, ?_, .inl rfl⟩, fun found => ?_⟩,
      passed⟩
    · have parent' : (s.view.proc p).parent = some m := parent
      rw [proc_set]
      by_cases same : q = p
      · subst same
        simp [adopter, parent']
        rfl
      · simp [same]
    · obtain ⟨q, hq, -, zombie⟩ := found
      rw [List.mem_singleton.1 hq] at zombie
      exact absurd zombie alive
  · refine ⟨⟨rfl, rfl, rfl, rfl, fun q => ⟨(s.view.proc q).state, ?_, .inl rfl⟩, fun found => ?_⟩,
      .refl s⟩
    · have stranger' : (s.view.proc p).parent ≠ some m := stranger
      by_cases same : q = p
      · subst same
        simp [adopter, stranger']
      · simp [same]
    · obtain ⟨q, hq, parent, -⟩ := found
      rw [List.mem_singleton.1 hq] at parent
      exact absurd parent stranger

theorem adopt_all (m : Slot) : ∀ (l : List Slot) (s : Kernel),
    wp (forM l fun p => do
      let s ← get
      if (s.procs p).parent = some m then
        modifyProc p fun q => { q with parent := some s.initproc }
        if (s.procs p).state = .ZOMBIE then wakeup1 (.proc s.initproc) else pure ⟨⟩
      else pure ⟨⟩ : KM PUnit) (fun _ s' => Adopts s.view m l s'.view ∧ Aside s s') E s
  | [], s => ⟨Adopts.refl s.view m, .refl s⟩
  | p :: l, s => by
      rw [List.forM_cons]
      refine wp_next (adopt_one m p) fun _ s₁ h₁ => ?_
      exact wp_imp (adopt_all m l s₁) fun _ _ h => ⟨h₁.1.cons h.1, h₁.2.trans h.2⟩

end

/-! ## The lives of the processes -/

namespace View

def life (v : View) : Life where
  state := fun p => (v.proc p).state
  pid := fun p => (v.proc p).pid
  pos := fun p => (v.proc p).pos
  cpu := fun c => (v.cpu c).proc
  nextpid := v.nextpid

theorem life_set (v : View) (p : Slot) (f : Core → Core) : (v.set p f).life =
    { v.life with
      state := update v.life.state p (f (v.proc p)).state
      pid := update v.life.pid p (f (v.proc p)).pid
      pos := update v.life.pos p (f (v.proc p)).pos } := by
  refine Life.ext ?_ ?_ ?_ rfl rfl <;>
  · funext q
    simp only [life, proc_set, update_apply]
    split <;> rfl

theorem life_walk (v : View) (p : Slot) (x : Pos) :
    (v.set p fun q => { q with pos := x }).life =
      { v.life with pos := update v.life.pos p x } := by
  rw [life_set]
  simp [life]

theorem life_wake (v : View) (chan : Chan) :
    (v.wake chan).life = { v.life with state := fun p => ((v.wake chan).proc p).state } := by
  refine Life.ext rfl ?_ ?_ rfl rfl <;>
  · funext p
    simp only [life, wake]
    split <;> rfl

theorem life_move (v : View) (c : ℕ) (x : Cpu) (l : Option ℕ) :
    (v.move c x l).life = { v.life with cpu := update v.life.cpu c x.proc } := by
  refine Life.ext rfl rfl rfl ?_ rfl
  funext c'
  simp only [life, move, update_apply]
  split <;> rfl

theorem life_idle {v : View} {x : Cpu} (l : Option ℕ) (before : (v.cpu c).proc = none)
    (after : x.proc = none) : (v.move c x l).life = v.life := by
  rw [life_move, after, update_eq_self_iff.2 before.symm]

end View

section

open View

variable {ends : ℤ → Prop} {v v' : View}

theorem View.Act.moves (a : Act ends v v') (same : v'.nextpid = v.nextpid) :
    Life.Moves v.life v'.life := by
  cases a with
  | enter c at_ top free => rw [life_idle _ (by simp [top, Cpu.proc]) rfl]
  | scan c at_ inside =>
    rw [life_idle _ _ rfl]
    rcases inside with ⟨x, hx⟩ | ⟨x, m, hx⟩ <;> simp [hx, Cpu.proc]
  | leave c at_ inside => rw [life_idle _ (by simp [inside, Cpu.proc]) rfl]
  | dispatch c at_ at' m inside runnable =>
    have idle : v.life.cpu c = none := by simp [life, inside, Cpu.proc]
    have run := Life.Move.run v.life c m idle runnable
    rw [life_move, life_set]
    exact .single (by simpa [Cpu.proc, life] using run)
  | lock c at_ m run free | unlock c at_ m run held => exact .refl
  | wake chan =>
    rw [life_wake]
    refine .single (.wake v.life _ fun p => ?_)
    simp only [life, View.wake]
    split
    next asleep => exact .inr ⟨asleep.1, rfl⟩
    · exact .inl rfl
  | awake c at_ m run =>
    rw [life_set]
    simp [life, Relation.ReflTransGen.refl]
  | walk m x old =>
    rw [life_walk]
    exact .single (.walk v.life m x old)
  | birth c at_ m np run unused =>
    have next : v.nextpid + 1 = v.nextpid := same
    omega
  | stack m np child =>
    rw [life_walk, life_set]
    have move := Life.Move.walk v.life m (.copying np) (by simpa [Pos.child, life] using child)
    exact .single (by simpa [life] using move)
  | release c at_ m np run child =>
    rw [life_walk, life_set]
    have move := Life.Move.release v.life m np child
    exact .single (by simpa [life] using move)
  | stop c at_ m st chan r run held out waits =>
    have busy : v.life.cpu c = some m := by simp [life, run, Cpu.proc]
    have move := Life.Move.stop v.life c m st busy (by tauto)
    rw [life_move, life_set]
    exact .single (by simpa [life, Cpu.proc] using move)
  | exit c at_ m proc run held other ends_ table =>
    have busy : v.life.cpu c = some m := by simp [life, run, Cpu.proc]
    have kept (p : Slot) : (proc p).pid = (v.proc p).pid ∧ (proc p).pos = (v.proc p).pos := by
      by_cases self : p = m
      · rw [self, table.self]
        exact ⟨rfl, rfl⟩
      obtain ⟨st, eq, -⟩ := table.others p self
      rw [eq]
      exact ⟨rfl, rfl⟩
    let st := update (fun p => (proc p).state) m (v.proc m).state
    have woken := Life.Move.wake v.life st fun p => by
      by_cases self : p = m
      · exact .inl (by simp [st, self, life])
      obtain ⟨st', eq, st'_eq⟩ := table.others p self
      simpa [st, self, life, eq] using st'_eq
    refine .tail (.single woken) ?_
    have stopped := Life.Move.stop { v.life with state := st } c m .ZOMBIE busy (.inr (.inr rfl))
    rw [life_move]
    refine (congrArg (Life.Move _) ?_).mpr stopped
    refine Life.ext ?_ (funext fun p => (kept p).1) (funext fun p => (kept p).2) rfl rfl
    funext p
    by_cases self : p = m
    · simp [st, self, life, table.self]
    · simp [st, self, life]
  | reap c at_ m p run child zombie =>
    have move := Life.Move.reap v.life p zombie
    rw [life_set]
    exact .single (by simpa [life] using move)

theorem View.abort_moves (child : (v.proc m).pos.child = some np) :
    Life.Moves v.life (v.abort m np).life := by
  rw [View.abort, life_walk, life_set]
  have move := Life.Move.abort v.life m np child
  exact .single (by simpa [life] using move)

theorem View.kill_moves (v : View) (p : Slot) : Life.Moves v.life (v.kill p).life := by
  rw [View.kill, life_set]
  have woken := Life.Move.wake v.life (fun q => ((v.kill p).proc q).state) fun q => by
    simp only [View.kill, proc_set, life]
    split
    next same =>
      subst same
      dsimp only
      split
      next asleep => exact .inr ⟨asleep, rfl⟩
      · exact .inl rfl
    · exact .inl rfl
  refine .single ((congrArg (Life.Move _) ?_).mpr woken)
  refine Life.ext ?_ (by simp [life]) (by simp [life]) rfl rfl
  funext q
  simp only [View.kill, proc_set, update_apply, life]
  split <;> rfl

namespace Life.Sane

theorem act (h : v.life.Sane) (a : Act ends v v') : v'.life.Sane := by
  by_cases old : v'.nextpid = v.nextpid
  · exact h.moves (a.moves old)
  cases a with
  | birth c at_ m np run unused =>
    have born := h.birth m unused
    rw [life_walk, life_set]
    simpa [life, Life.birth] using born
  | _ => exact absurd rfl old

theorem acts (h : v.life.Sane) (a : Acts ends v v') : v'.life.Sane := by
  induction a with
  | refl => exact h
  | tail _ a ih => exact ih.act a

end Life.Sane

end

end Xv6
