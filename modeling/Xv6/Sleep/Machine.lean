import Xv6.Proc.Kernel

/-!
# Spin locks, sleep and wakeup

Kernel code at the level of its spin locks.  What a process does next is given by `code`; `sleep`
and `wakeup` are taken apart into their accesses to `ptable.lock`.  A process that sleeps passes
`ptable.lock` to a scheduler, and gets it from one when it is switched to.  Timer interrupts are off
while a spin lock is held, and a process that is interrupted without one is just slow.
-/

set_option linter.unusedSectionVars false

namespace Xv6.Sleep

open Lib Function

inductive SpinLock where
  | ptable
  | other (i : ℕ)
  deriving DecidableEq

inductive Holder (P : Type) where
  | proc (p : P)
  | scheduler
  deriving DecidableEq

/-- What a process does next; `ι` comes from outside, and `L` are the places with the local
variables. -/
inductive Instr (D C ι L : Type) where
  | acquire (lk : SpinLock) (next : L)
  | release (lk : SpinLock) (next : L)
  /-- Look at the own `killed` flag and at the data, change the data and go on. -/
  | compute (f : Bool → D → ι → D × L)
  | sleep (chan : C) (lk : SpinLock) (next : L)
  | wakeup (chan : C) (next : L)
  /-- Wake up with `ptable.lock` held. -/
  | wakeup1 (chan : C) (next : L)

/-- Where a process is. -/
inductive Phase (C L : Type) where
  | running (x : L)
  /-- In `sleep`: before `acquire(&ptable.lock)`, before `release(lk)`, before `sched`. -/
  | sleepAcquire (chan : C) (lk : SpinLock) (next : L)
  | sleepRelease (chan : C) (lk : SpinLock) (next : L)
  | sleepSet (chan : C) (lk : SpinLock) (next : L)
  /-- In `sched`. -/
  | asleep (lk : SpinLock) (next : L)
  /-- Back from `sched`, and before it takes `lk` again. -/
  | awake (lk : SpinLock) (next : L)
  | reacquire (lk : SpinLock) (next : L)
  /-- In `wakeup`: before it takes `ptable.lock`, before the loop, and after it. -/
  | wakeupAcquire (chan : C) (next : L)
  | wakeupLoop (chan : C) (next : L)
  | wakeupRelease (next : L)

structure Task (C L : Type) where
  state : ProcState
  chan : Option C
  killed : Bool
  phase : Phase C L

structure Machine (P D C L : Type) where
  lock : SpinLock → Option (Holder P)
  data : D
  task : P → Task C L

inductive Event (P ι : Type) where
  | run (p : P) (i : ι)
  | kill (p : P)
  /-- A scheduler takes `ptable.lock`, switches to a process, releases the lock. -/
  | take
  | dispatch (p : P)
  | drop

section

variable {P D C ι L : Type} [DecidableEq P] [DecidableEq C]

namespace Machine

def setLock (s : Machine P D C L) (lk : SpinLock) (h : Option (Holder P)) : Machine P D C L :=
  { s with lock := update s.lock lk h }

def setTask (s : Machine P D C L) (p : P) (t : Task C L) : Machine P D C L :=
  { s with task := update s.task p t }

def setPhase (s : Machine P D C L) (p : P) (x : Phase C L) : Machine P D C L :=
  s.setTask p { s.task p with phase := x }

def wake (s : Machine P D C L) (chan : C) : Machine P D C L :=
  { s with
    task := fun p =>
      if (s.task p).state = .SLEEPING ∧ (s.task p).chan = some chan then
        { s.task p with state := .RUNNABLE }
      else s.task p }

/-- The critical section of `kill`, once it has found the process. -/
def kill (s : Machine P D C L) (p : P) : Machine P D C L :=
  s.setTask p
    { s.task p with
      killed := true
      state := if (s.task p).state = .SLEEPING then .RUNNABLE else (s.task p).state }

/-- The step of process `p` that its code says. -/
def exec (s : Machine P D C L) (p : P) (i : ι) : Instr D C ι L → Machine P D C L
  | .acquire lk next =>
      if s.lock lk = none then (s.setLock lk (some (.proc p))).setPhase p (.running next) else s
  | .release lk next => (s.setLock lk none).setPhase p (.running next)
  | .compute f =>
      { s with data := (f (s.task p).killed s.data i).1 }.setPhase p
        (.running (f (s.task p).killed s.data i).2)
  | .sleep chan lk next =>
      s.setPhase p (if lk = .ptable then .sleepSet chan lk next else .sleepAcquire chan lk next)
  | .wakeup chan next => s.setPhase p (.wakeupAcquire chan next)
  | .wakeup1 chan next => (s.wake chan).setPhase p (.running next)

/-- The next step of the running process `p`. -/
def act (code : P → L → Instr D C ι L) (s : Machine P D C L) (p : P) (i : ι) : Machine P D C L :=
  match (s.task p).phase with
  | .running x => s.exec p i (code p x)
  | .sleepAcquire chan lk next =>
      if s.lock .ptable = none then
        (s.setLock .ptable (some (.proc p))).setPhase p (.sleepRelease chan lk next)
      else s
  | .sleepRelease chan lk next => (s.setLock lk none).setPhase p (.sleepSet chan lk next)
  | .sleepSet chan lk next =>
      (s.setLock .ptable (some .scheduler)).setTask p
        { s.task p with state := .SLEEPING, chan := some chan, phase := .asleep lk next }
  | .asleep _ _ => s
  | .awake lk next =>
      if lk = .ptable then s.setTask p { s.task p with chan := none, phase := .running next }
      else (s.setLock .ptable none).setTask p
        { s.task p with chan := none, phase := .reacquire lk next }
  | .reacquire lk next =>
      if s.lock lk = none then (s.setLock lk (some (.proc p))).setPhase p (.running next) else s
  | .wakeupAcquire chan next =>
      if s.lock .ptable = none then
        (s.setLock .ptable (some (.proc p))).setPhase p (.wakeupLoop chan next)
      else s
  | .wakeupLoop chan next => (s.wake chan).setPhase p (.wakeupRelease next)
  | .wakeupRelease next => (s.setLock .ptable none).setPhase p (.running next)

def dispatch (s : Machine P D C L) (p : P) : Machine P D C L :=
  match (s.task p).phase with
  | .asleep lk next =>
      (s.setLock .ptable (some (.proc p))).setTask p
        { s.task p with state := .RUNNING, phase := .awake lk next }
  | _ => s

def next (code : P → L → Instr D C ι L) (s : Machine P D C L) : Event P ι → Machine P D C L
  | .run p i => if (s.task p).state = .RUNNING then s.act code p i else s
  | .kill p => if s.lock .ptable = none then s.kill p else s
  | .take => if s.lock .ptable = none then s.setLock .ptable (some .scheduler) else s
  | .dispatch p =>
      if s.lock .ptable = some .scheduler ∧ (s.task p).state = .RUNNABLE then s.dispatch p else s
  | .drop => if s.lock .ptable = some .scheduler then s.setLock .ptable none else s

/-! ## Reading a state after a change -/

section

variable (s : Machine P D C L) {p q : P} (lk : SpinLock) (h : Option (Holder P)) (t : Task C L)
  (x : Phase C L) (chan : C)

@[simp] theorem lock_setLock_same : (s.setLock lk h).lock lk = h := update_self ..

theorem lock_setLock_ne {l : SpinLock} (ne : l ≠ lk) : (s.setLock lk h).lock l = s.lock l :=
  update_of_ne ne ..

@[simp] theorem task_setLock : (s.setLock lk h).task = s.task := rfl

@[simp] theorem data_setLock : (s.setLock lk h).data = s.data := rfl

@[simp] theorem task_setTask_same : (s.setTask p t).task p = t := update_self ..

theorem task_setTask_ne (ne : q ≠ p) : (s.setTask p t).task q = s.task q :=
  update_of_ne ne ..

@[simp] theorem lock_setTask : (s.setTask p t).lock = s.lock := rfl

@[simp] theorem data_setTask : (s.setTask p t).data = s.data := rfl

@[simp] theorem task_setPhase_same : (s.setPhase p x).task p = { s.task p with phase := x } :=
  task_setTask_same ..

theorem task_setPhase_ne (ne : q ≠ p) : (s.setPhase p x).task q = s.task q :=
  task_setTask_ne _ _ ne

@[simp] theorem lock_setPhase : (s.setPhase p x).lock = s.lock := rfl

@[simp] theorem data_setPhase : (s.setPhase p x).data = s.data := rfl

@[simp] theorem lock_wake : (s.wake chan).lock = s.lock := rfl

@[simp] theorem data_wake : (s.wake chan).data = s.data := rfl

@[simp] theorem phase_wake : ((s.wake chan).task q).phase = (s.task q).phase := by
  simp only [wake]
  split <;> rfl

theorem state_wake : ((s.wake chan).task q).state = .RUNNING ↔ (s.task q).state = .RUNNING := by
  simp only [wake]
  split
  next asleep => simp [asleep.1]
  · rfl

end

end Machine

/-- All processes running at a place of their own, and no lock taken. -/
def Machine.start (d : D) (x : P → L) : Machine P D C L where
  lock := fun _ => none
  data := d
  task := fun p => ⟨.RUNNING, none, false, .running (x p)⟩

/-- A step as a program that never fails. -/
def step (code : P → L → Instr D C ι L) (e : Event P ι) : Prog (Machine P D C L) Empty PUnit :=
  modify fun s => s.next code e

/-! ## What a step does -/

/-- A process in this phase may have to wait. -/
def Phase.Waits (code : P → L → Instr D C ι L) (p : P) : Phase C L → Prop
  | .running x => ∃ lk y, code p x = .acquire lk y
  | .sleepAcquire _ _ _ | .asleep _ _ | .reacquire _ _ | .wakeupAcquire _ _ => True
  | _ => False

inductive Step (code : P → L → Instr D C ι L) (s : Machine P D C L) :
    Event P ι → Machine P D C L → Prop where
  | idle (e : Event P ι)
      (blocked : ∀ p i, e = .run p i → (s.task p).state = .RUNNING →
        (s.task p).phase.Waits code p) : Step code s e s
  | acquire {p i x y lk} (run : (s.task p).state = .RUNNING)
      (here : (s.task p).phase = .running x) (does : code p x = .acquire lk y)
      (free : s.lock lk = none) :
      Step code s (.run p i) ((s.setLock lk (some (.proc p))).setPhase p (.running y))
  | release {p i x y lk} (run : (s.task p).state = .RUNNING)
      (here : (s.task p).phase = .running x) (does : code p x = .release lk y) :
      Step code s (.run p i) ((s.setLock lk none).setPhase p (.running y))
  | compute {p i x y d f} (run : (s.task p).state = .RUNNING)
      (here : (s.task p).phase = .running x) (does : code p x = .compute f)
      (result : f (s.task p).killed s.data i = (d, y)) :
      Step code s (.run p i) (Machine.setPhase { s with data := d } p (.running y))
  | sleepTable {p i x y chan} (run : (s.task p).state = .RUNNING)
      (here : (s.task p).phase = .running x) (does : code p x = .sleep chan .ptable y) :
      Step code s (.run p i) (s.setPhase p (.sleepSet chan .ptable y))
  | sleepOther {p i x y chan lk} (other : lk ≠ .ptable) (run : (s.task p).state = .RUNNING)
      (here : (s.task p).phase = .running x) (does : code p x = .sleep chan lk y) :
      Step code s (.run p i) (s.setPhase p (.sleepAcquire chan lk y))
  | wakeup {p i x y chan} (run : (s.task p).state = .RUNNING)
      (here : (s.task p).phase = .running x) (does : code p x = .wakeup chan y) :
      Step code s (.run p i) (s.setPhase p (.wakeupAcquire chan y))
  | wakeup1 {p i x y chan} (run : (s.task p).state = .RUNNING)
      (here : (s.task p).phase = .running x) (does : code p x = .wakeup1 chan y) :
      Step code s (.run p i) ((s.wake chan).setPhase p (.running y))
  | sleepAcquire {p i y chan lk} (run : (s.task p).state = .RUNNING)
      (here : (s.task p).phase = .sleepAcquire chan lk y) (free : s.lock .ptable = none) :
      Step code s (.run p i)
        ((s.setLock .ptable (some (.proc p))).setPhase p (.sleepRelease chan lk y))
  | sleepRelease {p i y chan lk} (run : (s.task p).state = .RUNNING)
      (here : (s.task p).phase = .sleepRelease chan lk y) :
      Step code s (.run p i) ((s.setLock lk none).setPhase p (.sleepSet chan lk y))
  | sleepSet {p i y chan lk} (run : (s.task p).state = .RUNNING)
      (here : (s.task p).phase = .sleepSet chan lk y) :
      Step code s (.run p i) ((s.setLock .ptable (some .scheduler)).setTask p
        { s.task p with state := .SLEEPING, chan := some chan, phase := .asleep lk y })
  | awakeTable {p i y} (run : (s.task p).state = .RUNNING)
      (here : (s.task p).phase = .awake .ptable y) : Step code s (.run p i)
        (s.setTask p { s.task p with chan := none, phase := .running y })
  | awakeOther {p i y lk} (other : lk ≠ .ptable) (run : (s.task p).state = .RUNNING)
      (here : (s.task p).phase = .awake lk y) :
      Step code s (.run p i) ((s.setLock .ptable none).setTask p
        { s.task p with chan := none, phase := .reacquire lk y })
  | reacquire {p i y lk} (run : (s.task p).state = .RUNNING)
      (here : (s.task p).phase = .reacquire lk y) (free : s.lock lk = none) :
      Step code s (.run p i) ((s.setLock lk (some (.proc p))).setPhase p (.running y))
  | wakeupAcquire {p i y chan} (run : (s.task p).state = .RUNNING)
      (here : (s.task p).phase = .wakeupAcquire chan y) (free : s.lock .ptable = none) :
      Step code s (.run p i)
        ((s.setLock .ptable (some (.proc p))).setPhase p (.wakeupLoop chan y))
  | wakeupLoop {p i y chan} (run : (s.task p).state = .RUNNING)
      (here : (s.task p).phase = .wakeupLoop chan y) :
      Step code s (.run p i) ((s.wake chan).setPhase p (.wakeupRelease y))
  | wakeupRelease {p i y} (run : (s.task p).state = .RUNNING)
      (here : (s.task p).phase = .wakeupRelease y) :
      Step code s (.run p i) ((s.setLock .ptable none).setPhase p (.running y))
  | kill (p : P) (free : s.lock .ptable = none) : Step code s (.kill p) (s.kill p)
  | take (free : s.lock .ptable = none) :
      Step code s .take (s.setLock .ptable (some .scheduler))
  | dispatch {p y lk} (held : s.lock .ptable = some .scheduler)
      (runnable : (s.task p).state = .RUNNABLE) (here : (s.task p).phase = .asleep lk y) :
      Step code s (.dispatch p) ((s.setLock .ptable (some (.proc p))).setTask p
        { s.task p with state := .RUNNING, phase := .awake lk y })
  | drop (held : s.lock .ptable = some .scheduler) : Step code s .drop (s.setLock .ptable none)

variable {code : P → L → Instr D C ι L} {holds : L → SpinLock → Prop} {s s' : Machine P D C L}
  {p q : P} {e : Event P ι} {x z : Phase C L} {l lk : SpinLock} {t : Task C L} {chan : C}

theorem Step.blocked {i : ι} (here : (s.task p).phase = x) (waits : x.Waits code p) :
    Step code s (.run p i) s := by
  refine .idle _ fun q j eq _ => ?_
  cases eq
  rwa [here]

theorem Step.other (h : ∀ p i, e ≠ .run p i) : Step code s e s :=
  .idle e fun p i eq => absurd eq (h p i)

theorem exec_step {i : ι} {x : L} (run : (s.task p).state = .RUNNING)
    (here : (s.task p).phase = .running x) : Step code s (.run p i) (s.exec p i (code p x)) := by
  cases does : code p x with
  | acquire lk y =>
    rw [Machine.exec]
    split
    next free => exact .acquire run here does free
    · exact .blocked here ⟨lk, y, does⟩
  | release lk y => exact .release run here does
  | compute f => exact .compute run here does rfl
  | sleep chan lk y =>
    rw [Machine.exec]
    split
    next same =>
      subst same
      exact .sleepTable run here does
    next other => exact .sleepOther other run here does
  | wakeup chan y => exact .wakeup run here does
  | wakeup1 chan y => exact .wakeup1 run here does

theorem act_step (i : ι) (run : (s.task p).state = .RUNNING) :
    Step code s (.run p i) (s.act code p i) := by
  unfold Machine.act
  split <;> rename_i here
  · exact exec_step run here
  · split
    next free => exact .sleepAcquire run here free
    · exact .blocked here trivial
  · exact .sleepRelease run here
  · exact .sleepSet run here
  · exact .blocked here trivial
  · split
    next same =>
      subst same
      exact .awakeTable run here
    next other => exact .awakeOther other run here
  · split
    next free => exact .reacquire run here free
    · exact .blocked here trivial
  · split
    next free => exact .wakeupAcquire run here free
    · exact .blocked here trivial
  · exact .wakeupLoop run here
  · exact .wakeupRelease run here

theorem next_step (code : P → L → Instr D C ι L) (s : Machine P D C L) (e : Event P ι) :
    Step code s e (s.next code e) := by
  cases e with
  | run p i =>
    rw [Machine.next]
    split
    next run => exact act_step i run
    next stopped =>
      refine .idle _ fun q j eq run => ?_
      cases eq
      exact absurd run stopped
  | kill p =>
    rw [Machine.next]
    split
    next free => exact .kill p free
    · exact .other nofun
  | take =>
    rw [Machine.next]
    split
    next free => exact .take free
    · exact .other nofun
  | dispatch p =>
    rw [Machine.next]
    split
    next go =>
      unfold Machine.dispatch
      split
      next here => exact .dispatch go.1 go.2 here
      · exact .other nofun
    · exact .other nofun
  | drop =>
    rw [Machine.next]
    split
    next held => exact .drop held
    · exact .other nofun

/-! ## Locks -/

/-- The code keeps to `holds`, which says what locks a process has where. -/
structure Discipline (code : P → L → Instr D C ι L) (holds : L → SpinLock → Prop) : Prop where
  acquire : ∀ {p x lk y}, code p x = .acquire lk y → ∀ l, holds y l → holds x l ∨ l = lk
  release : ∀ {p x lk y}, code p x = .release lk y →
    holds x lk ∧ ∀ l, holds y l → holds x l ∧ l ≠ lk
  compute : ∀ {p x f}, code p x = .compute f → ∀ b d i l, holds (f b d i).2 l → holds x l
  sleep : ∀ {p x chan lk y}, code p x = .sleep chan lk y →
    holds x lk ∧ ∀ l, holds y l → l = lk
  wakeup : ∀ {p x chan y}, code p x = .wakeup chan y →
    ¬ holds y .ptable ∧ ∀ l, holds y l → holds x l
  wakeup1 : ∀ {p x chan y}, code p x = .wakeup1 chan y →
    holds x .ptable ∧ ∀ l, holds y l → holds x l

/-- The locks of a process in a phase. -/
def Phase.Holds (holds : L → SpinLock → Prop) : Phase C L → SpinLock → Prop
  | .running x => holds x
  | .sleepAcquire _ lk _ => fun l => l = lk
  | .sleepRelease _ lk _ => fun l => lk ≠ .ptable ∧ (l = lk ∨ l = .ptable)
  | .sleepSet _ _ _ => fun l => l = .ptable
  | .asleep _ _ => fun _ => False
  | .awake _ _ => fun l => l = .ptable
  | .reacquire _ _ => fun _ => False
  | .wakeupAcquire _ y => fun l => holds y l ∧ l ≠ .ptable
  | .wakeupLoop _ y => fun l => holds y l ∧ l ≠ .ptable ∨ l = .ptable
  | .wakeupRelease y => fun l => holds y l ∧ l ≠ .ptable ∨ l = .ptable

/-- A process is inside `sleep` or `wakeup` because its code calls them. -/
def Phase.From (code : P → L → Instr D C ι L) (p : P) : Phase C L → Prop
  | .running _ => True
  | .sleepAcquire chan lk y | .sleepRelease chan lk y =>
      lk ≠ .ptable ∧ ∃ x, code p x = .sleep chan lk y
  | .sleepSet chan lk y => ∃ x, code p x = .sleep chan lk y
  | .asleep lk y | .awake lk y | .reacquire lk y => ∃ x chan, code p x = .sleep chan lk y
  | .wakeupAcquire chan y | .wakeupLoop chan y => ∃ x, code p x = .wakeup chan y
  | .wakeupRelease y => ∃ x chan, code p x = .wakeup chan y

/-- In the scheduler's hands. -/
def Phase.Parked : Phase C L → Prop
  | .asleep _ _ => True
  | _ => False

/-- The locks are with the processes that the code says. -/
structure Sound (code : P → L → Instr D C ι L) (holds : L → SpinLock → Prop)
    (s : Machine P D C L) : Prop where
  calls : ∀ p, (s.task p).phase.From code p
  locks : ∀ p l, (s.task p).phase.Holds holds l → s.lock l = some (.proc p)
  parked : ∀ p, (s.task p).state ≠ .RUNNING ↔ (s.task p).phase.Parked

namespace Sound

section

variable (h : Sound code holds s)
include h

theorem alone (hp : (s.task p).phase.Holds holds l)
    (hq : (s.task q).phase.Holds holds l) : p = q := by
  have eq := (h.locks p l hp).symm.trans (h.locks q l hq)
  simpa using eq

theorem of_own (p : P) (phase : ∀ q, q ≠ p → (s'.task q).phase = (s.task q).phase)
    (state : ∀ q, q ≠ p → ((s'.task q).state = .RUNNING ↔ (s.task q).state = .RUNNING))
    (lock : ∀ l q, q ≠ p → s.lock l = some (.proc q) → s'.lock l = some (.proc q))
    (calls : (s'.task p).phase.From code p)
    (locks : ∀ l, (s'.task p).phase.Holds holds l → s'.lock l = some (.proc p))
    (parked : (s'.task p).state ≠ .RUNNING ↔ (s'.task p).phase.Parked) : Sound code holds s' where
  calls q := by
    by_cases same : q = p
    · exact same ▸ calls
    · exact phase q same ▸ h.calls q
  locks q l held := by
    by_cases same : q = p
    · subst same
      exact locks l held
    rw [phase q same] at held
    exact lock l q same (h.locks q l held)
  parked q := by
    by_cases same : q = p
    · exact same ▸ parked
    rw [phase q same, Ne, state q same]
    exact h.parked q

theorem of_running (p : P)
    (task : ∀ q, q ≠ p → (s'.task q).phase = (s.task q).phase ∧
      ((s'.task q).state = .RUNNING ↔ (s.task q).state = .RUNNING))
    (lock : ∀ l q, q ≠ p → s.lock l = some (.proc q) → s'.lock l = some (.proc q))
    (run : (s'.task p).state = .RUNNING) (here : (s'.task p).phase = x) (calls : x.From code p)
    (locks : ∀ l, x.Holds holds l → s'.lock l = some (.proc p)) (out : ¬ x.Parked) :
    Sound code holds s' := by
  refine h.of_own p (fun q ne => (task q ne).1) (fun q ne => (task q ne).2) lock (here ▸ calls)
    (here ▸ locks) ?_
  rw [here]
  exact ⟨fun stopped => absurd run stopped, fun parked => absurd parked out⟩

theorem setPhase (run : (s.task p).state = .RUNNING) (here : (s.task p).phase = z)
    (calls : x.From code p) (locks : ∀ l, x.Holds holds l → z.Holds holds l) (out : ¬ x.Parked) :
    Sound code holds (s.setPhase p x) := by
  refine h.of_running p (fun q ne => ?_) (fun _ _ _ held => held) (by simpa using run) (by simp)
    calls (fun l held => h.locks p l (here ▸ locks l held)) out
  rw [s.task_setPhase_ne x ne]
  exact ⟨rfl, .rfl⟩

theorem setLockPhase {o : Option (Holder P)} (run : (s.task p).state = .RUNNING)
    (here : (s.task p).phase = z) (lock : s.lock lk = none ∨ s.lock lk = some (.proc p))
    (calls : x.From code p)
    (locks : ∀ l, x.Holds holds l → l = lk ∧ o = some (.proc p) ∨ l ≠ lk ∧ z.Holds holds l)
    (out : ¬ x.Parked) : Sound code holds ((s.setLock lk o).setPhase p x) := by
  refine h.of_running p (fun q ne => ?_) (fun l q ne held => ?_) (by simpa using run) (by simp)
    calls (fun l held => ?_) out
  · rw [Machine.task_setPhase_ne _ x ne]
    exact ⟨rfl, .rfl⟩
  · have away : l ≠ lk := fun same => by
      subst same
      rcases lock with free | mine
      · simp [free] at held
      simp only [mine, Option.some.injEq, Holder.proc.injEq] at held
      exact ne held.symm
    simpa [s.lock_setLock_ne lk o away] using held
  · rcases locks l held with ⟨rfl, rfl⟩ | ⟨ne, mine⟩
    · simp
    · simpa [s.lock_setLock_ne lk o ne] using h.locks p l (here ▸ mine)

theorem setData (d : D) : Sound code holds { s with data := d } :=
  ⟨h.calls, h.locks, h.parked⟩

theorem wake (chan : C) : Sound code holds (s.wake chan) where
  calls p := s.phase_wake chan ▸ h.calls p
  locks p l held := h.locks p l (s.phase_wake chan ▸ held)
  parked p := by
    rw [s.phase_wake, Ne, s.state_wake]
    exact h.parked p

theorem setLock (o : Option (Holder P))
    (none : ∀ p, ¬ (s.task p).phase.Holds holds lk) : Sound code holds (s.setLock lk o) where
  calls := h.calls
  locks p l held := by
    have ne : l ≠ lk := fun same => none p (same ▸ held)
    rw [s.lock_setLock_ne lk o ne]
    exact h.locks p l held
  parked := h.parked

theorem not_holds (lock : ∀ p, s.lock l ≠ some (.proc p)) (p : P) :
    ¬ (s.task p).phase.Holds holds l := fun held => lock p (h.locks p l held)

theorem setTask (calls : t.phase.From code p)
    (locks : ∀ l, t.phase.Holds holds l → s.lock l = some (.proc p))
    (parked : t.state ≠ .RUNNING ↔ t.phase.Parked) : Sound code holds (s.setTask p t) := by
  refine h.of_own p (fun q ne => ?_) (fun q ne => ?_) (fun _ _ _ held => held) ?_ ?_ ?_
  · rw [s.task_setTask_ne t ne]
  · rw [s.task_setTask_ne t ne]
  · rwa [s.task_setTask_same]
  · rwa [s.task_setTask_same]
  · rwa [s.task_setTask_same]

theorem giveLock (o : Option (Holder P))
    (here : (s.task p).phase = x) (had : x.Holds holds lk) (calls : t.phase.From code p)
    (locks : ∀ l, ¬ t.phase.Holds holds l) (parked : t.state ≠ .RUNNING ↔ t.phase.Parked) :
    Sound code holds ((s.setLock lk o).setTask p t) := by
  have left : Sound code holds (s.setTask p t) :=
    h.setTask calls (fun l held => absurd held (locks l)) parked
  show Sound code holds ((s.setTask p t).setLock lk o)
  refine left.setLock o fun q held => ?_
  by_cases same : q = p
  · subst same
    rw [s.task_setTask_same] at held
    exact locks lk held
  rw [s.task_setTask_ne t same] at held
  exact same (h.alone held (here ▸ had))

end

theorem step (discipline : Discipline code holds) (h : Sound code holds s) (st : Step code s e s') :
    Sound code holds s' := by
  have mine {p l x} (here : (s.task p).phase = x)
      (held : x.Holds holds l) : s.lock l = some (.proc p) := h.locks p l (here ▸ held)
  have from_ {p x} (here : (s.task p).phase = x) : x.From code p := here ▸ h.calls p
  cases st with
  | idle => exact h
  | @acquire p i x y lk run here does free =>
    refine h.setLockPhase run here (.inl free) trivial (fun l held => ?_) id
    by_cases same : l = lk
    · exact .inl ⟨same, rfl⟩
    · exact .inr ⟨same, (discipline.acquire does l held).resolve_right same⟩
  | release run here does =>
    obtain ⟨had, rest⟩ := discipline.release does
    refine h.setLockPhase run here (.inr (mine here had)) trivial (fun l held => ?_) id
    exact .inr ⟨(rest l held).2, (rest l held).1⟩
  | @compute p i x y d f run here does result =>
    refine (h.setData d).setPhase run here trivial (fun l held => ?_) id
    refine discipline.compute does (s.task p).killed s.data i l ?_
    rw [result]
    exact held
  | sleepTable run here does =>
    obtain ⟨had, -⟩ := discipline.sleep does
    refine h.setPhase run here ⟨_, does⟩ (fun l held => ?_) id
    rw [show l = .ptable from held]
    exact had
  | sleepOther other run here does =>
    obtain ⟨had, -⟩ := discipline.sleep does
    refine h.setPhase run here ⟨other, _, does⟩ (fun l held => ?_) id
    rw [show l = _ from held]
    exact had
  | wakeup run here does =>
    exact h.setPhase run here ⟨_, does⟩ (fun l held => (discipline.wakeup does).2 l held.1) id
  | @wakeup1 p i x y chan run here does =>
    exact (h.wake chan).setPhase ((s.state_wake chan).2 run) ((s.phase_wake chan).trans here)
      trivial (discipline.wakeup1 does).2 id
  | sleepAcquire run here free =>
    have calls := from_ here
    refine h.setLockPhase run here (.inl free) calls (fun l held => ?_) id
    rcases held with ⟨other, rfl | same⟩
    · exact .inr ⟨other, rfl⟩
    · exact .inl ⟨same, rfl⟩
  | sleepRelease run here =>
    have calls := from_ here
    refine h.setLockPhase run here (.inr (mine here ⟨calls.1, .inl rfl⟩)) calls.2
      (fun l held => ?_) id
    rw [show l = .ptable from held]
    exact .inr ⟨calls.1.symm, calls.1, .inr rfl⟩
  | @sleepSet p i y chan lk run here =>
    obtain ⟨x, does⟩ := from_ here
    exact h.giveLock _ here rfl ⟨x, chan, does⟩ (fun _ => id) (by simp [Phase.Parked])
  | awakeTable run here =>
    obtain ⟨x, chan, does⟩ := from_ here
    refine h.setTask trivial (fun l held => ?_) (by simp [Phase.Parked, run])
    rw [(discipline.sleep does).2 l held]
    exact mine here rfl
  | awakeOther other run here =>
    have calls := from_ here
    exact h.giveLock _ here rfl calls (fun _ => id) (by simp [Phase.Parked, run])
  | reacquire run here free =>
    obtain ⟨x, chan, does⟩ := from_ here
    exact h.setLockPhase run here (.inl free) trivial
      (fun l held => .inl ⟨(discipline.sleep does).2 l held, rfl⟩) id
  | wakeupAcquire run here free =>
    have calls := from_ here
    refine h.setLockPhase run here (.inl free) calls (fun l held => ?_) id
    rcases held with ⟨had, ne⟩ | same
    · exact .inr ⟨ne, had, ne⟩
    · exact .inl ⟨same, rfl⟩
  | @wakeupLoop p i y chan run here =>
    obtain ⟨x, does⟩ := from_ here
    exact (h.wake chan).setPhase ((s.state_wake chan).2 run) ((s.phase_wake chan).trans here)
      ⟨x, chan, does⟩ (fun _ => id) id
  | wakeupRelease run here =>
    obtain ⟨x, chan, does⟩ := from_ here
    refine h.setLockPhase run here (.inr (mine here (.inr rfl))) trivial (fun l held => ?_) id
    have ne : l ≠ .ptable := fun same => (discipline.wakeup does).1 (same ▸ held)
    exact .inr ⟨ne, .inl ⟨held, ne⟩⟩
  | kill p free =>
    refine h.setTask (h.calls p) (h.locks p) ?_
    rw [← h.parked p]
    dsimp only
    split
    next asleep => simp [asleep]
    · rfl
  | take free => exact h.setLock _ (h.not_holds (by simp [free]))
  | dispatch held runnable here =>
    have calls := from_ here
    refine (h.setLock _ (h.not_holds (by simp [held]))).setTask calls (fun l held => ?_) ?_
    · rw [show l = .ptable from held]
      simp
    · simp [Phase.Parked]
  | drop held => exact h.setLock _ (h.not_holds (by simp [held]))

theorem start (d : D) {x : P → L} (none : ∀ p l, ¬ holds (x p) l) :
    Sound code holds (Machine.start d x) where
  calls _ := trivial
  locks p l held := absurd held (none p l)
  parked p := by simp [Machine.start, Phase.Parked]

end Sound

/-! ## Places and data -/

/-- The place where a process is or goes on after `sleep` or `wakeup`. -/
def Phase.place : Phase C L → L
  | .running x => x
  | .sleepAcquire _ _ y | .sleepRelease _ _ y | .sleepSet _ _ y | .asleep _ y | .awake _ y
  | .reacquire _ y | .wakeupAcquire _ y | .wakeupLoop _ y | .wakeupRelease y => y

def Machine.places (s : Machine P D C L) (p : P) : L := (s.task p).phase.place

/-- The instruction leads to place `y` and leaves the data alone. -/
def Instr.Leads (y : L) : Instr D C ι L → Prop
  | .acquire _ z | .release _ z | .sleep _ _ z | .wakeup _ z | .wakeup1 _ z => z = y
  | .compute _ => False

theorem places_setPhase (s : Machine P D C L) (p : P) (x : Phase C L) :
    (s.setPhase p x).places = update s.places p x.place := by
  funext q
  by_cases same : q = p
  · subst same
    simp [Machine.places]
  · simp [Machine.places, s.task_setPhase_ne x same, same]

theorem places_setTask (same : t.phase.place = s.places p) : (s.setTask p t).places = s.places := by
  funext q
  by_cases eq : q = p
  · subst eq
    simpa [Machine.places] using same
  · simp [Machine.places, s.task_setTask_ne t eq]

theorem places_stay {y : Phase C L} (here : (s.task p).phase = x) (same : y.place = x.place) :
    (s.setPhase p y).places = s.places := by
  rw [places_setPhase, same, ← here]
  exact update_eq_self ..

theorem Machine.places_wake (s : Machine P D C L) (chan : C) : (s.wake chan).places = s.places := by
  funext q
  simp [Machine.places]

/-- A process changes its place only by its code, and the data only when it computes. -/
theorem Step.place (st : Step code s e s') : s'.data = s.data ∧ s'.places = s.places ∨
    ∃ p x y, (s.task p).phase = .running x ∧ s'.places = update s.places p y ∧
      (s'.data = s.data ∧ (code p x).Leads y ∧
        (∀ lk, code p x = .acquire lk y → s.lock lk = none) ∨
        ∃ f i, code p x = .compute f ∧ f (s.task p).killed s.data i = (s'.data, y)) := by
  have off {p x y instr} (does : code p x = instr) (goes : instr.Leads y)
      (other : ∀ lk z, instr ≠ .acquire lk z) :
      (code p x).Leads y ∧ ∀ lk, code p x = .acquire lk y → s.lock lk = none := by
    rw [does]
    exact ⟨goes, fun lk eq => absurd eq (other lk y)⟩
  have still {s₁ : Machine P D C L} {p t} (task : s₁.task = s.task)
      (same : t.phase.place = s.places p) : (s₁.setTask p t).places = s.places := by
    have eq : s₁.places = s.places := by
      funext q
      rw [Machine.places, task]
      rfl
    exact (places_setTask (by rw [eq, same])).trans eq
  cases st
  case idle | take | drop => exact .inl ⟨rfl, rfl⟩
  case acquire p i x y lk run here does free =>
    refine .inr ⟨p, x, y, here, places_setPhase (s.setLock lk _) p _, .inl ⟨rfl, ?_⟩⟩
    rw [does]
    exact ⟨rfl, fun l eq => by cases eq; exact free⟩
  case compute p i x y d f run here does result =>
    exact .inr ⟨p, x, y, here, places_setPhase _ p _, .inr ⟨f, i, does, result⟩⟩
  case wakeup1 p i x y chan run here does =>
    refine .inr ⟨p, x, y, here, ?_, .inl ⟨rfl, off does rfl nofun⟩⟩
    rw [places_setPhase, Machine.places_wake]
    rfl
  case wakeupLoop p i y chan run here =>
    have there : ((s.wake chan).task p).phase = .wakeupLoop chan y := by rw [s.phase_wake, here]
    have stays : ((s.wake chan).setPhase p (.wakeupRelease y)).places = (s.wake chan).places :=
      places_stay there rfl
    exact .inl ⟨rfl, stays.trans (s.places_wake chan)⟩
  case kill p free => exact .inl ⟨rfl, places_setTask rfl⟩
  case release run here does | sleepTable run here does | sleepOther _ run here does
    | wakeup run here does =>
    exact .inr ⟨_, _, _, here, places_setPhase _ _ _, .inl ⟨rfl, off does rfl nofun⟩⟩
  -- inside `sleep` and `wakeup`, and when a scheduler switches to a process
  all_goals exact .inl ⟨rfl, still rfl (by simp [*, Machine.places, Phase.place])⟩

/-- A process that does not come from `sleep` has the locks of its place. -/
theorem Sound.holds_of_place (sound : Sound code holds s) (other : l ≠ .ptable)
    (held : holds (s.places p) l) (calls : ∀ x chan lk, code p x ≠ .sleep chan lk (s.places p)) :
    (s.task p).phase.Holds holds l := by
  have from_ := sound.calls p
  rw [Machine.places] at held calls
  generalize (s.task p).phase = x at held calls from_
  cases x with
  | running x => exact held
  | sleepAcquire chan lk y | sleepRelease chan lk y =>
    exact absurd from_.2.choose_spec (calls _ _ _)
  | sleepSet chan lk y => exact absurd from_.choose_spec (calls _ _ _)
  | asleep lk y | awake lk y | reacquire lk y =>
    exact absurd from_.choose_spec.choose_spec (calls _ _ _)
  | wakeupAcquire chan y => exact ⟨held, other⟩
  | wakeupLoop chan y | wakeupRelease y => exact .inl ⟨held, other⟩

/-- Who knows anything about the data has their lock, and did not just get it back from `sleep`. -/
structure Guarded (code : P → L → Instr D C ι L) (holds : L → SpinLock → Prop) (lk : SpinLock)
    (fact : L → D → Prop) : Prop where
  other : lk ≠ .ptable
  change : ∀ {p x f}, code p x = .compute f → ¬ holds x lk → ∀ b d i, (f b d i).1 = d
  held : ∀ y, (∀ d, fact y d) ∨ holds y lk ∧ ∀ p x chan l, code p x ≠ .sleep chan l y
  compute : ∀ {p x f}, code p x = .compute f → ∀ b d i, fact x d → fact (f b d i).2 (f b d i).1
  leads : ∀ {p x y}, (code p x).Leads y → ∀ d, fact x d → fact y d

theorem Guarded.step {fact : L → D → Prop} (guarded : Guarded code holds lk fact)
    (sound : Sound code holds s) (st : Step code s e s') (h : ∀ p, fact (s.places p) s.data) :
    ∀ p, fact (s'.places p) s'.data := by
  rcases st.place with ⟨data, places⟩ | ⟨p, x, y, here, places, ⟨data, goes, -⟩ | ⟨f, i, does, eq⟩⟩
  · rwa [data, places]
  all_goals
    have at_ : s.places p = x := by rw [Machine.places, here]; rfl
    intro q
    rw [places]
    by_cases same : q = p
    · subst same
      rw [update_self]
      first
      | exact data ▸ guarded.leads goes s.data (at_ ▸ h q)
      | have next := guarded.compute does (s.task q).killed s.data i (at_ ▸ h q)
        rwa [eq] at next
    rw [update_of_ne same]
  · rw [data]
    exact h q
  by_cases inside : holds x lk
  · -- the lock is with `p`, so that the other process knows nothing
    rcases guarded.held (s.places q) with any | ⟨held, calls⟩
    · exact any _
    have mine : (s.task p).phase.Holds holds lk := by rw [here]; exact inside
    have also := sound.holds_of_place guarded.other held (calls q)
    exact absurd (sound.alone also mine) same
  have unchanged := guarded.change does inside (s.task p).killed s.data i
  rw [eq] at unchanged
  rw [show s'.data = s.data from unchanged]
  exact h q

theorem Step.killed (st : Step code s e s') (spared : e ≠ .kill q) :
    (s'.task q).killed = (s.task q).killed := by
  have set {s₁ : Machine P D C L} {p t} (same : s₁.task = s.task)
      (flag : t.killed = (s.task p).killed) :
      ((s₁.setTask p t).task q).killed = (s.task q).killed := by
    by_cases eq : q = p
    · subst eq
      rw [Machine.task_setTask_same, flag]
    · rw [Machine.task_setTask_ne _ _ eq, same]
  have wake (chan : C) (r : P) : ((s.wake chan).task r).killed = (s.task r).killed := by
    simp only [Machine.wake]
    split <;> rfl
  have wakes {p x chan} : (((s.wake chan).setPhase p x).task q).killed = (s.task q).killed := by
    by_cases eq : q = p
    · subst eq
      rw [Machine.task_setPhase_same]
      exact wake chan q
    · rw [Machine.task_setPhase_ne _ _ eq, wake]
  cases st
  case idle | take | drop => rfl
  case wakeup1 | wakeupLoop => exact wakes
  case kill p free =>
    have eq : q ≠ p := fun same => spared (same ▸ rfl)
    rw [Machine.kill, Machine.task_setTask_ne _ _ eq]
  all_goals exact set rfl rfl

/-! ## Sleepers -/

theorem slept_setTask {s₁ : Machine P D C L} (slept : ((s₁.setTask p t).task q).state = .SLEEPING)
    (same : s₁.task = s.task) (awake : t.state ≠ .SLEEPING) :
    (s.task q).state = .SLEEPING ∧ (s₁.setTask p t).task q = s.task q := by
  have ne : q ≠ p := fun eq => by
    subst eq
    rw [Machine.task_setTask_same] at slept
    exact awake slept
  rw [Machine.task_setTask_ne _ _ ne, same] at slept ⊢
  exact ⟨slept, rfl⟩

theorem slept_wake (slept : ((s.wake chan).task q).state = .SLEEPING) :
    (s.wake chan).task q = s.task q ∧ (s.task q).state = .SLEEPING ∧
      (s.task q).chan ≠ some chan := by
  simp only [Machine.wake] at slept ⊢
  split at slept
  · simp at slept
  next other =>
    rw [if_neg other]
    exact ⟨rfl, slept, fun same => other ⟨slept, same⟩⟩

/-- A process that sleeps after a step did so before, or has just gone to sleep. -/
theorem Step.slept (st : Step code s e s') (slept : (s'.task q).state = .SLEEPING) :
    (s.task q).state = .SLEEPING ∧ s'.task q = s.task q ∨
      ∃ chan lk y, (s.task q).phase = .sleepSet chan lk y ∧ (s'.task q).chan = some chan ∧
        (s'.task q).phase = .asleep lk y := by
  have still {s₁ : Machine P D C L} {p t} (same : s₁.task = s.task)
      (slept : ((s₁.setTask p t).task q).state = .SLEEPING) (awake : t.state = .RUNNING) :
      (s.task q).state = .SLEEPING ∧ (s₁.setTask p t).task q = s.task q :=
    slept_setTask slept same (by simp [awake])
  have woken {p chan x} (run : (s.task p).state = .RUNNING)
      (slept : (((s.wake chan).setPhase p x).task q).state = .SLEEPING) :
      (s.task q).state = .SLEEPING ∧ ((s.wake chan).setPhase p x).task q = s.task q := by
    have awake := (s.state_wake chan).2 run
    obtain ⟨slept, same⟩ := slept_setTask slept rfl (by simp [awake])
    obtain ⟨same', slept, -⟩ := slept_wake slept
    exact ⟨slept, same.trans same'⟩
  cases st
  case idle | take | drop => exact .inl ⟨slept, rfl⟩
  case wakeup1 run _ _ | wakeupLoop run _ => exact .inl (woken run slept)
  case sleepSet p i y chan lk run here =>
    by_cases same : q = p
    · subst same
      refine .inr ⟨chan, lk, y, here, ?_⟩
      simp
    rw [Machine.task_setTask_ne _ _ same] at slept ⊢
    exact .inl ⟨slept, rfl⟩
  case kill p free =>
    refine .inl (slept_setTask slept rfl ?_)
    dsimp only
    split
    · simp
    · assumption
  all_goals exact .inl (still rfl slept (by first | rfl | assumption))

/-- A process sleeps on the channel that its code says. -/
def Machine.Sleepers (code : P → L → Instr D C ι L) (s : Machine P D C L) : Prop :=
  ∀ p, (s.task p).state = .SLEEPING → ∃ chan x lk y,
    (s.task p).chan = some chan ∧ (s.task p).phase = .asleep lk y ∧ code p x = .sleep chan lk y

theorem Sound.sleepers (h : Sound code holds s) (sleepers : s.Sleepers code) (st : Step code s e s') :
    s'.Sleepers code := by
  intro p slept
  rcases st.slept slept with ⟨slept, same⟩ | ⟨chan, lk, y, here, chan', phase⟩
  · rw [same]
    exact sleepers p slept
  obtain ⟨x, does⟩ : (Phase.sleepSet chan lk y).From code p := here ▸ h.calls p
  exact ⟨chan, x, lk, y, chan', phase, does⟩

theorem Machine.sleepers_start (d : D) (x : P → L) :
    (Machine.start d x : Machine P D C L).Sleepers code :=
  fun _ slept => by simp [Machine.start] at slept

end

end Xv6.Sleep
