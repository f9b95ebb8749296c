import Xv6.Proc.Kernel

/-!
# The scheduler and the kernel's steps

`schedule` is one step of the loop of `scheduler` on a CPU; it goes on with the code after `swtch`
when the process gives the CPU back.  `step` has an event for every step that a CPU or the process
running on it can take.
-/

namespace Xv6

open Lib

/-! ## Choosing a process -/

/-- The process that the FCFS build runs when its loop is at the runnable process `p`. -/
def fcfsChoice (s : Kernel) (p : Slot) : Slot :=
  (List.finRange NPROC).foldl (fun min_process p2 =>
    if (s.procs p2).pid ≤ 2 then min_process
    else if (s.procs p2).state ≠ .RUNNABLE then min_process
    else if (s.procs p2).ctime < (s.procs p).ctime then p2
    else min_process) p

/-- The process that the PRIORITY build runs when its loop is at the runnable process `p`. -/
def priorityChoice (s : Kernel) (p : Slot) : Slot :=
  (List.finRange NPROC).foldl (fun highest p1 =>
    if (s.procs p1).state = .RUNNABLE ∧ (s.procs p1).priority < (s.procs highest).priority then p1
    else highest) p

/-- The process to run when the loop over the table is at the runnable process `p`. -/
def Policy.choose (pol : Policy) (s : Kernel) (p : Slot) : Slot :=
  match pol with
  | .FCFS => fcfsChoice s p
  | .PRIORITY => priorityChoice s p
  | .DEFAULT | .MLFQ => p

/-! ## After a process gives the CPU back -/

/-- The code after `swtch` for the upper four queues: at the end of the slice or for a killed
process the entry at index `i` is deleted; one not killed goes to the queue below. -/
def demote (k lower : Level) (i : ℕ) (m : Slot) : KM PUnit := do
  let s ← get
  if clockperiod k ≤ (s.procs m).ticks k ∨ (s.procs m).killed = true then
    if (s.procs m).killed = false then
      modifyProc m fun q => { q with current_queue := q.current_queue + 1 }
      push lower m
    else pure ⟨⟩
    modify fun s => s.setQueue k ((s.queue k).removeAt i)
    modifyProc m fun q => { q with ticks := Function.update q.ticks k 0 }
  else pure ⟨⟩

/-- The code after `swtch` for queue 4: a process not killed moves to the end; for a killed one the
later entries move down and `c4` stays. -/
def requeue (i : ℕ) (m : Slot) : KM PUnit := do
  let s ← get
  modify fun s => s.setQueue 4 ((s.queue 4).closeGap i)
  if (s.procs m).killed = true then pure ⟨⟩ else store 4 (s.queue 4).last m

def afterSwtch : Place → Slot → KM PUnit
  | .queue 0 i, m => demote 0 1 i m
  | .queue 1 i, m => demote 1 2 i m
  | .queue 2 i, m => demote 2 3 i m
  | .queue 3 i, m => demote 3 4 i m
  | .queue 4 i, m => requeue i m
  | .table _, _ => pure ⟨⟩

def Place.next : Place → Place
  | .queue k i => .queue k (i + 1)
  | .table i => .table (i + 1)

/-! ## The scheduler -/

/-- Switch from the scheduler of CPU `c` to process `m`. -/
def dispatch (c : ℕ) (at_ : Place) (m : Slot) : KM PUnit := do
  modifyProc m fun q => { q with state := .RUNNING, num_r := q.num_r + 1 }
  modify fun s => s.setCpu c (.running at_ m)

def endRound (c : ℕ) : KM PUnit := modify fun s => (s.setLock none).setCpu c .top

/-- The scheduler's loop at a place. -/
def scan (pol : Policy) (c : ℕ) : Place → KM PUnit
  | .queue k i => do
      let s ← get
      if (i : ℤ) < (s.queue k).last + 1 then
        let m ← entry k i
        if (s.procs m).state = .RUNNABLE then
          modifyProc m fun q => { q with start := s.ticks }
          dispatch c (.queue k i) m
        else set (s.setCpu c (.scan (.queue k (i + 1))))
      else if h : k.val + 1 < 5 then
        set (s.setCpu c (.scan (.queue ⟨k.val + 1, h⟩ 0)))
      else endRound c
  | .table i => do
      let s ← get
      if h : i < NPROC then
        if (s.procs ⟨i, h⟩).state = .RUNNABLE then
          let m := pol.choose s ⟨i, h⟩
          dispatch c (.table m) m
        else set (s.setCpu c (.scan (.table (i + 1))))
      else endRound c

/-- The next step of `scheduler` on CPU `c`, if it is the scheduler's turn there. -/
def schedule (pol : Policy) (c : ℕ) : KM PUnit := do
  let s ← get
  match s.cpu c with
  | .top =>
      if s.lock = none then
        set (s.setLock (some c))
        if pol = .MLFQ then
          ageing
          modify fun s => s.setCpu c (.scan (.queue 0 0))
        else modify fun s => s.setCpu c (.scan (.table 0))
      else pure ⟨⟩
  | .scan at_ => scan pol c at_
  | .running _ _ => pure ⟨⟩
  | .back at_ m =>
      afterSwtch at_ m
      modify fun s => s.setCpu c (.scan at_.next)

/-! ## Processes -/

/-- What process `m` does first when CPU `c` has switched to it. -/
def resume (pol : Policy) (c : ℕ) (m : Slot) : KM PUnit := do
  let s ← get
  match (s.procs m).resume with
  | .forkret =>
      -- the first process initialises the file system before it returns to user space
      modifyProc m fun q => { q with pos := if s.first then .kernel else .user }
      modify fun s => { s with first := false, lock := none }
  | .yield =>
      modifyProc m fun q => { q with trap := .yielded }
      modify fun s => s.setLock none
  | .sleep =>
      modifyProc m fun q => { q with chan := .null }
      modify fun s => s.setLock none
  | .wait =>
      modifyProc m fun q => { q with chan := .null }
      let _ ← wait pol c m
  | .waitx =>
      modifyProc m fun q => { q with chan := .null }
      let _ ← waitx c m

/-- Count a clock tick for a process; `proc` is what `trap` found running on CPU 0. -/
def countTick (m : Slot) : KM PUnit := do
  let s ← get
  match (s.procs m).state with
  | .SLEEPING => modifyProc m fun q => { q with iotime := q.iotime + 1 }
  | .RUNNING =>
      modifyProc m fun q => { q with rtime := q.rtime + 1 }
      match level (s.procs m).current_queue with
      | none => throw .index
      | some k => modifyProc m fun q => { q with ticks := Function.update q.ticks k (q.ticks k + 1) }
  | _ => pure ⟨⟩

/-- CPU 0 keeps the time and wakes up those who sleep on it. -/
def clock (c : ℕ) : KM PUnit :=
  if c = 0 then do
    modify fun s => { s with ticks := s.ticks + 1 }
    wakeup1 .ticks
  else pure ⟨⟩

/-- The process running on CPU `c` is interrupted; only CPU 0 counts the tick for it. -/
def interrupt (c : ℕ) : KM PUnit := do
  let s ← get
  match s.cpu c with
  | .running _ m => do
      (if c = 0 then countTick m else pure ⟨⟩)
      modifyProc m fun q => { q with trap := .counted }
  | _ => pure ⟨⟩

/-- A timer interrupt on CPU `c`, up to the first test of `killed`. -/
def timer (c : ℕ) : KM PUnit := do
  clock c
  interrupt c

/-- The end of `trap` for a timer interrupt, one step at a time. -/
def trapNext (pol : Policy) (c : ℕ) (m : Slot) : KM PUnit := do
  let s ← get
  let q := s.procs m
  match q.trap with
  | .none => pure ⟨⟩
  | .counted =>
      if q.killed = true ∧ q.pos = .user then
        modifyProc m fun q => { q with pos := .exiting, trap := .none }
      else if q.state = .RUNNING ∧ pol ≠ .FCFS then
        modifyProc m fun q => { q with trap := .yielding }
      else modifyProc m fun q => { q with trap := .yielded }
  | .yielding => if s.lock = none then yield c m else pure ⟨⟩
  | .yielded =>
      if q.killed = true ∧ q.pos = .user then
        modifyProc m fun q => { q with pos := .exiting, trap := .none }
      else modifyProc m fun q => { q with trap := .none }

inductive Event where
  | schedule (c : ℕ)
  /-- The process just switched to on a CPU goes on. -/
  | resume (c : ℕ)
  /-- A timer interrupt on a CPU, and the rest of its handling. -/
  | timer (c : ℕ)
  | trapNext (c : ℕ)
  /-- A device wakes up what sleeps on a channel. -/
  | wakeup (chan : Chan)
  /-- The process running on a CPU enters and leaves a system call. -/
  | syscall (c : ℕ)
  | sysret (c : ℕ)
  | fork (c : ℕ)
  | forkStack (c : ℕ)
  | forkFail (c : ℕ)
  | forkDone (c : ℕ)
  | exit (c : ℕ)
  | wait (c : ℕ)
  | waitx (c : ℕ)
  | kill (c : ℕ) (pid : ℤ)
  | sleep (c : ℕ) (chan : Chan)
  deriving DecidableEq

/-- The process that runs on CPU `c` without `ptable.lock` and outside a timer interrupt. -/
def Kernel.current (s : Kernel) (c : ℕ) : Option Slot :=
  match s.cpu c with
  | .running _ m => if s.lock ≠ some c ∧ (s.procs m).trap = .none then some m else none
  | _ => none

/-- Do something as the process running on CPU `c` if it is at a position that allows it. -/
def asCurrent (c : ℕ) (enabled : Kernel → Pos → Prop) [∀ s x, Decidable (enabled s x)]
    (act : Slot → KM PUnit) : KM PUnit := do
  let s ← get
  match s.current c with
  | some m => if enabled s (s.procs m).pos then act m else pure ⟨⟩
  | none => pure ⟨⟩

def Pos.child : Pos → Option Slot
  | .forking np | .copying np => some np
  | _ => none

/-- Do something with the new process, in the part of `fork` that `part` recognises. -/
def inFork (c : ℕ) (part : Slot → Pos) (act : Slot → Slot → KM PUnit) : KM PUnit := do
  let s ← get
  match s.current c with
  | some m =>
      match (s.procs m).pos.child with
      | some np => if (s.procs m).pos = part np then act m np else pure ⟨⟩
      | none => pure ⟨⟩
  | none => pure ⟨⟩

/-- The call of `allocproc` in `fork` by process `m`, up to the kernel stack. -/
def forkAlloc (m : Slot) : KM PUnit := do
  match ← allocproc with
  | none => pure ⟨⟩
  | some np => modifyProc m fun q => { q with pos := .forking np }

/-- `m` has a kernel stack for the new process `np`. -/
def forkStack (m np : Slot) : KM PUnit := do
  allocprocStack np
  modifyProc m fun q => { q with pos := .copying np }

/-- There is no memory for the kernel stack or the address space of `np`; no lock is held. -/
def forkFail (m np : Slot) : KM PUnit := do
  modifyProc np fun q => { q with state := .UNUSED }
  modifyProc m fun q => { q with pos := .kernel }

def forkDone (m np : Slot) : KM PUnit := do
  modifyProc np fun q => { q with parent := some m }
  makeRunnable np
  modifyProc m fun q => { q with pos := .kernel }

/-- A step that waits until `ptable.lock` is free. -/
def whenFree (act : KM PUnit) : KM PUnit := do
  let s ← get
  if s.lock = none then act else pure ⟨⟩

/-- In a system call, with `ptable.lock` free. -/
def inKernel (s : Kernel) (x : Pos) : Prop := s.lock = none ∧ x = .kernel
  deriving Decidable

/-- In a system call or on the way through `exit`, with `ptable.lock` free. -/
def inKernelOrExit (s : Kernel) (x : Pos) : Prop := s.lock = none ∧ (x = .kernel ∨ x = .exiting)
  deriving Decidable

def step (pol : Policy) : Event → KM PUnit
  | .schedule c => schedule pol c
  | .resume c => do
      let s ← get
      match s.cpu c with
      | .running _ m => if s.lock = some c then resume pol c m else pure ⟨⟩
      | _ => pure ⟨⟩
  | .timer c => do
      let s ← get
      -- CPU 0 needs `ptable.lock` to wake up those who sleep on `ticks`
      if (s.cpu c = .top ∨ (s.current c).isSome) ∧ (c = 0 → s.lock = none) then timer c
      else pure ⟨⟩
  | .trapNext c => do
      let s ← get
      match s.cpu c with
      | .running _ m => if s.lock ≠ some c then trapNext pol c m else pure ⟨⟩
      | _ => pure ⟨⟩
  | .wakeup chan => whenFree (wakeup1 chan)
  | .syscall c =>
      asCurrent c (fun _ x => x = .user) fun m =>
        modifyProc m fun q => { q with pos := if q.killed then .exiting else .kernel }
  | .sysret c =>
      asCurrent c (fun _ x => x = .kernel) fun m =>
        modifyProc m fun q => { q with pos := if q.killed then .exiting else .user }
  | .fork c => asCurrent c inKernel forkAlloc
  | .forkStack c => inFork c .forking fun m np => whenFree (forkStack m np)
  | .forkFail c => do
      inFork c .forking forkFail
      inFork c .copying forkFail
  | .forkDone c => inFork c .copying fun m np => whenFree (forkDone m np)
  | .exit c =>
      asCurrent c inKernelOrExit fun m => do
        let s ← get
        if m = s.initproc then throw (.panic "init exiting") else exit c m
  | .wait c =>
      asCurrent c inKernel fun m => do
        modify fun s => s.setLock (some c)
        let _ ← wait pol c m
  | .waitx c =>
      asCurrent c inKernel fun m => do
        modify fun s => s.setLock (some c)
        let _ ← waitx c m
  | .kill c pid =>
      asCurrent c inKernel fun _ => do
        let _ ← kill pid
  | .sleep c chan => asCurrent c inKernelOrExit fun m => sleep c m chan .sleep

end Xv6
