import Xv6.Lib.Run
import Xv6.Lib.ArrayQueue
import Xv6.Disk.Block

/-!
# The process table and the scheduling queues

The functions of `proc.c` over the process table, the five queues of the feedback scheduler and
`ptable.lock`.  A pointer into `ptable.proc` is a `Slot`.  A store outside a queue array, a use of a
queue entry that was never set and an index outside `ticks[5]` stop the kernel (`Fault`).

Pages, files and inodes are not part of this state: where the source can run out of memory the step
that fails is an event of its own.
-/

namespace Xv6

open Lib Function

abbrev NPROC : ℕ := 64

instance : NeZero NPROC := ⟨by decide⟩

/-- A pointer into `ptable.proc`. -/
abbrev Slot := Fin NPROC

/-- A level of the feedback queue. -/
abbrev Level := Fin 5

instance neZeroLevels : NeZero 5 := ⟨by decide⟩

/-- The scheduling policies that the Makefile selects with `SCHEDPOLICY`. -/
inductive Policy where
  | DEFAULT
  | FCFS
  | PRIORITY
  | MLFQ
  deriving DecidableEq

inductive ProcState where
  | UNUSED
  | EMBRYO
  | SLEEPING
  | RUNNABLE
  | RUNNING
  | ZOMBIE
  deriving DecidableEq

/-- Addresses that processes sleep on. -/
inductive Chan where
  | null
  | proc (p : Slot)
  | ticks
  | addr (a : ℕ)
  deriving DecidableEq

/-- What a kernel thread does first when it is switched to, still holding `ptable.lock`. -/
inductive Resume where
  | forkret
  | yield
  | sleep
  | wait
  | waitx
  deriving DecidableEq

/-- What a process is doing while it runs without `ptable.lock`. -/
inductive Pos where
  | user
  | kernel
  /-- On its way through `exit`. -/
  | exiting
  /-- In `fork`: the new process has a slot; it has a slot and a kernel stack. -/
  | forking (np : Slot)
  | copying (np : Slot)
  deriving DecidableEq

/-- Where a process is in the handling of a timer interrupt. -/
inductive Trap where
  | none
  /-- After the tick is counted: at the first test of `killed`. -/
  | counted
  /-- About to call `yield`. -/
  | yielding
  /-- At the last test of `killed`. -/
  | yielded
  deriving DecidableEq

/-- A process.  The last three fields are what its kernel stack and `tf` say about it. -/
structure Proc where
  state : ProcState
  pid : ℤ
  parent : Option Slot
  chan : Chan
  killed : Bool
  ctime : ℤ
  etime : ℤ
  rtime : ℤ
  iotime : ℤ
  num_r : ℤ
  priority : ℤ
  start : Word
  waittime : Word
  current_queue : ℤ
  ticks : Level → ℤ
  pos : Pos
  trap : Trap
  resume : Resume

/-- An entry of the zero-filled process table. -/
def Proc.zero : Proc where
  state := .UNUSED
  pid := 0
  parent := none
  chan := .null
  killed := false
  ctime := 0
  etime := 0
  rtime := 0
  iotime := 0
  num_r := 0
  priority := 0
  start := 0
  waittime := 0
  current_queue := 0
  ticks := fun _ => 0
  pos := .kernel
  trap := .none
  resume := .forkret

/-- A place in the scheduler's loop: index `i` of queue `k`, or slot `i` of the table. -/
inductive Place where
  | queue (k : Level) (i : ℕ)
  | table (i : ℕ)
  deriving DecidableEq

/-- What a CPU is doing. -/
inductive Cpu where
  /-- In the scheduler, before it takes `ptable.lock`. -/
  | top
  /-- In the scheduler's loop, at the given place. -/
  | scan (at_ : Place)
  /-- Running a process that was dispatched from the given place. -/
  | running (at_ : Place) (m : Slot)
  /-- Back in the scheduler from that process. -/
  | back (at_ : Place) (m : Slot)
  deriving DecidableEq

structure Kernel where
  procs : Slot → Proc
  queue : Level → ArrayQueue Slot
  ticks : Word
  nextpid : ℤ
  initproc : Slot
  /-- `forkret` has not run yet. -/
  first : Bool
  lock : Option ℕ
  cpu : ℕ → Cpu

inductive Fault where
  | panic (msg : String)
  | overrun
  /-- A null pointer is followed, such as a queue entry that was never set. -/
  | null
  | index
  /-- `nextpid` passes the largest `int`. -/
  | overflow
  deriving DecidableEq

abbrev KM := Prog Kernel Fault

/-- Time slices of the queues, in clock ticks. -/
def clockperiod (k : Level) : ℤ := 2 ^ k.val

/-- The level that an `int` stands for. -/
def level (z : ℤ) : Option Level := if h : 0 ≤ z ∧ z < 5 then some ⟨z.toNat, by omega⟩ else none

/-! ## Access to the state -/

namespace Kernel

def setProc (s : Kernel) (p : Slot) (f : Proc → Proc) : Kernel :=
  { s with procs := update s.procs p (f (s.procs p)) }

def setQueue (s : Kernel) (k : Level) (q : ArrayQueue Slot) : Kernel :=
  { s with queue := update s.queue k q }

def setCpu (s : Kernel) (c : ℕ) (x : Cpu) : Kernel := { s with cpu := update s.cpu c x }

def setLock (s : Kernel) (l : Option ℕ) : Kernel := { s with lock := l }

end Kernel

def modifyProc (p : Slot) (f : Proc → Proc) : KM PUnit := modify fun s => s.setProc p f

/-- `queue_k[i]`, which is about to be followed. -/
def entry (k : Level) (i : ℕ) : KM Slot := do
  let s ← get
  match (s.queue k).slot i with
  | some p => return p
  | none => throw .null

def store (k : Level) (i : ℤ) (p : Slot) : KM PUnit := do
  let s ← get
  if 0 ≤ i ∧ i < NPROC then set (s.setQueue k ((s.queue k).put i.toNat p)) else throw .overrun

def push (k : Level) (p : Slot) : KM PUnit := do
  modify fun s => s.setQueue k { s.queue k with last := (s.queue k).last + 1 }
  let s ← get
  store k (s.queue k).last p

/-! ## Creating processes -/

/-- The first critical section of `allocproc`: take an unused slot and queue it. -/
def allocproc : KM (Option Slot) := do
  let s ← get
  match (List.finRange NPROC).find? fun p => (s.procs p).state = .UNUSED with
  | none => return none
  | some p =>
      if s.nextpid = 2 ^ 31 - 1 then
        throw .overflow
      else
        modifyProc p fun q => { q with
          state := .EMBRYO
          pid := s.nextpid
          current_queue := 0
          ticks := fun _ => 0
          waittime := 5 }
        modify fun s => { s with nextpid := s.nextpid + 1 }
        push 0 p
        return some p

/-- The rest of `allocproc`, once there is a kernel stack. -/
def allocprocStack (p : Slot) : KM PUnit := do
  let s ← get
  modifyProc p fun q => { q with
    resume := .forkret
    trap := .none
    ctime := s.ticks.toInt
    etime := 0
    rtime := 0
    iotime := 0
    num_r := 0
    priority := if q.pid = 1 ∨ q.pid = 2 then 1 else 60 }

/-- The end of `fork` and of `userinit`: the new process can be run. -/
def makeRunnable (p : Slot) : KM PUnit := do
  let s ← get
  modifyProc p fun q => { q with state := .RUNNABLE, start := s.ticks }

def userinit : KM PUnit := do
  match ← allocproc with
  | none => throw .null
  | some p =>
      modify fun s => { s with initproc := p }
      allocprocStack p
      makeRunnable p

/-- The kernel's memory before `userinit`. -/
def Kernel.zero : Kernel where
  procs := fun _ => Proc.zero
  queue := fun _ => .empty
  ticks := 0
  nextpid := 1
  initproc := 0
  first := true
  lock := none
  cpu := fun _ => .top

/-- The kernel when the CPUs enter the scheduler. -/
def Kernel.boot : Kernel := (exec userinit Kernel.zero).2

/-! ## Queues -/

/-- Remove the entries of a process from a queue, by pid. -/
def rem_process (pid curq : ℤ) : KM PUnit :=
  match level curq with
  | none => pure ⟨⟩
  | some k =>
      forRange 0 NPROC fun i => do
        let s ← get
        if (i : ℤ) ≤ (s.queue k).last then
          let p ← entry k i
          if (s.procs p).pid = pid then
            set (s.setQueue k ((s.queue k).removeAt i))
          else pure ⟨⟩
        else pure ⟨⟩

/-- `ageing` at index `i` of queue `k`; `w` is the queue entry whose `waittime` is cleared. -/
def ageEntry (k lower : Level) (w : Level × ℕ) (i : ℕ) : KM PUnit := do
  let s ← get
  let p ← entry k i
  if (s.procs p).state ≠ .RUNNABLE then
    pure ⟨⟩
  else if s.ticks - (s.procs p).start ≤ (s.procs p).waittime then
    pure ⟨⟩
  else
    let other ← entry w.1 w.2
    modifyProc other fun q => { q with waittime := 0 }
    let curq := (s.procs p).current_queue - 1
    modifyProc p fun q => { q with current_queue := curq }
    match level curq with
    | none => throw .index
    | some l =>
        modifyProc p fun q => { q with ticks := update q.ticks l 0, start := s.ticks }
        push lower p
        rem_process (s.procs p).pid curq

/-- The loop of `ageing` over queue `k`. -/
def ageQueue (k lower : Level) (w : ℕ → Level × ℕ) : KM PUnit :=
  forRange 0 NPROC fun i => do
    let s ← get
    if (i : ℤ) < (s.queue k).last + 1 then ageEntry k lower (w i) i else pure ⟨⟩

/-- Move processes that have waited too long one queue up. -/
def ageing : KM PUnit := do
  ageQueue 1 0 fun _ => (1, 0)
  ageQueue 2 1 fun i => (1, i)
  ageQueue 3 2 fun i => (2, i)
  ageQueue 4 3 fun i => (3, i)

/-! ## Sleeping, waking and killing -/

def wakeup1 (chan : Chan) : KM PUnit :=
  modify fun s => { s with
    procs := fun p =>
      if (s.procs p).state = .SLEEPING ∧ (s.procs p).chan = chan then
        { s.procs p with state := .RUNNABLE, start := s.ticks }
      else s.procs p }

def kill (pid : ℤ) : KM ℤ := do
  let s ← get
  match (List.finRange NPROC).find? fun p => (s.procs p).pid = pid with
  | none => return -1
  | some p =>
      modifyProc p fun q =>
        if q.state = .SLEEPING then
          { q with killed := true, start := s.ticks, state := .RUNNABLE }
        else { q with killed := true }
      return 0

/-- Enter the scheduler of CPU `c` from process `m`, which will go on at `r`. -/
def sched (c : ℕ) (m : Slot) (r : Resume) : KM PUnit := do
  let s ← get
  if (s.procs m).state = .RUNNING then
    throw (.panic "sched running")
  else
    match s.cpu c with
    | .running at_ _ => set ((s.setProc m fun q => { q with resume := r }).setCpu c (.back at_ m))
    | _ => throw (.panic "sched locks")

/-- `sleep` up to its call of `sched`, with `ptable.lock` held. -/
def sleep (c : ℕ) (m : Slot) (chan : Chan) (r : Resume) : KM PUnit := do
  modify fun s => s.setLock (some c)
  modifyProc m fun q => { q with chan := chan, state := .SLEEPING }
  sched c m r

/-- `yield` up to its call of `sched`. -/
def yield (c : ℕ) (m : Slot) : KM PUnit := do
  modify fun s => s.setLock (some c)
  let s ← get
  modifyProc m fun q => { q with state := .RUNNABLE, start := s.ticks }
  sched c m .yield

/-! ## Ending processes -/

def exit (c : ℕ) (m : Slot) : KM PUnit := do
  modify fun s => s.setLock (some c)
  let s ← get
  wakeup1 ((s.procs m).parent.elim .null .proc)
  -- pass abandoned children to init
  forM (List.finRange NPROC) fun p => do
    let s ← get
    if (s.procs p).parent = some m then
      modifyProc p fun q => { q with parent := some s.initproc }
      if (s.procs p).state = .ZOMBIE then wakeup1 (.proc s.initproc) else pure ⟨⟩
    else pure ⟨⟩
  modifyProc m fun q => { q with state := .ZOMBIE, etime := s.ticks.toInt }
  sched c m .sleep

/-- Free the slot of a zombie. -/
def Proc.free (q : Proc) : Proc :=
  { q with pid := 0, parent := none, killed := false, state := .UNUSED }

/-- How a turn of the loop of `wait` or `waitx` ends. -/
inductive Waited where
  | reaped (child : Slot) (pid : ℤ)
  | failed
  | asleep

/-- The zombie child that `wait` finds first. -/
def zombieChild (s : Kernel) (m : Slot) : Option Slot :=
  (List.finRange NPROC).find? fun p => (s.procs p).parent = some m ∧ (s.procs p).state = .ZOMBIE

def havekids (s : Kernel) (m : Slot) : Prop := ∃ p, (s.procs p).parent = some m
  deriving Decidable

/-- One turn of the loop of `wait`, with `ptable.lock` held by CPU `c`. -/
def wait (pol : Policy) (c : ℕ) (m : Slot) : KM Waited := do
  let s ← get
  match zombieChild s m with
  | some p =>
      if pol = .MLFQ then rem_process (s.procs p).pid (s.procs p).current_queue else pure ⟨⟩
      modifyProc p Proc.free
      modify fun s => s.setLock none
      return .reaped p (s.procs p).pid
  | none =>
      if ¬ havekids s m ∨ (s.procs m).killed = true then
        modify fun s => s.setLock none
        return .failed
      else
        sleep c m (.proc m) .wait
        return .asleep

/-- One turn of the loop of `waitx`, which leaves the queues alone. -/
def waitx (c : ℕ) (m : Slot) : KM Waited := do
  let s ← get
  match zombieChild s m with
  | some p =>
      modifyProc p Proc.free
      modify fun s => s.setLock none
      return .reaped p (s.procs p).pid
  | none =>
      if ¬ (¬ havekids s m ∨ (s.procs m).killed = true) then
        sleep c m (.proc m) .waitx
        return .asleep
      else
        modify fun s => s.setLock none
        return .failed

/-- The times that `waitx` stores for the child it reaps: `wtime` and `rtime`. -/
def Proc.waitxTimes (q : Proc) : ℤ × ℤ := (q.etime - q.ctime - q.rtime - q.iotime, q.rtime)

end Xv6
