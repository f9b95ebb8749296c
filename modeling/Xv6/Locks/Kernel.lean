import Xv6.Console.Line
import Xv6.Lib.SpinLocks

/-!
# The spin locks of the kernel

What a CPU does with the spin locks in `exit`, `wait`, `waitx`, `cps`, `kill`, `sys_sleep`,
`consoleread`, `consoleintr`, `cprintf`, `sleep`, `wakeup`, the scheduler and the timer interrupt. 
`sched` leaves the place of the process in its `context` and goes on in the scheduler, with
`ptable.lock` held.  Interrupts come only where the CPU has no spin lock.

The rest of the kernel takes one spin lock at a time, and calls `sleep` and `wakeup` while it has
it; it is a section with the lock `other i`.  `kalloc` and `kfree` take `kmem.lock` and call
nothing.
-/

namespace Xv6.Locks

open Lib Proc SpinLocks

inductive Lock where
  | ptable
  | cons
  | ticks
  | kmem
  | other (i : ℕ)
  deriving DecidableEq

/-- The addresses that are slept on. -/
inductive Chan where
  | proc (p : Slot)
  | input
  | ticks
  | other (i : ℕ)
  deriving DecidableEq

/-- The places of a CPU; `next` is where a function returns to. -/
inductive Place where
  -- `scheduler`
  | scheduler
  | schedAcquire
  | scan
  | schedRelease
  /-- Process `p` in user space, or in the kernel without a spin lock. -/
  | user (p : Slot)
  -- `forkret`
  | forkret (p : Slot)
  -- `exit`
  | exitClose (p : Slot)
  | exitAcquire (p : Slot)
  | exitWake (p : Slot)
  | exitSched (p : Slot)
  | zombie (p : Slot)
  -- `wait`, and `waitx` if the flag is set
  | waitAcquire (p : Slot) (x : Bool)
  | waitScan (p : Slot) (x : Bool)
  | waitFree (p z : Slot)
  | waitRelease (p : Slot)
  -- `cps`, at the entry `k` of the table
  | cpsAcquire (p : Slot)
  | cpsLoop (p : Slot) (k : ℕ)
  | cpsRelease (p : Slot)
  -- `kill`
  | killAcquire (p q : Slot)
  | killSet (p q : Slot)
  | killRelease (p : Slot)
  -- `sys_sleep`
  | ticksAcquire (p : Slot) (n : ℤ)
  | ticksStart (p : Slot) (n : ℤ)
  | ticksLoop (p : Slot) (n : ℤ) (ticks0 : Word)
  | ticksRelease (p : Slot)
  -- `consoleread`; `k` is the lock of the inode
  | readAcquire (p : Slot) (k : ℕ) (rd : Console.Reader)
  | readLoop (p : Slot) (k : ℕ) (rd : Console.Reader)
  | readRelease (p : Slot) (k : ℕ)
  -- `consoleintr`, with the characters that `getc` will give, and `procdump`
  | intrAcquire (cs : List Byte) (next : Place)
  | intrLoop (cs : List Byte) (doprocdump : Bool) (next : Place)
  | intrRelease (doprocdump : Bool) (next : Place)
  | procdump (next : Place)
  -- the timer interrupt, and `yield`
  | timerAcquire (p : Option Slot) (next : Place)
  | timerTick (p : Option Slot) (next : Place)
  | timerRelease (p : Option Slot) (next : Place)
  | timerEnd (p : Option Slot) (next : Place)
  | yieldAcquire (p : Slot) (next : Place)
  | yieldSet (p : Slot) (next : Place)
  | yieldBack (next : Place)
  -- `cprintf`
  | cprintf (next : Place)
  | cprintfRelease (next : Place)
  -- `kalloc` or `kfree`
  | kfree (next : Place)
  | kfreeRelease (next : Place)
  -- `sleep`
  | sleep (p : Slot) (chan : Chan) (lk : Lock) (next : Place)
  | sleepAcquire (p : Slot) (chan : Chan) (lk : Lock) (next : Place)
  | sleepRelease (p : Slot) (chan : Chan) (lk : Lock) (next : Place)
  | sleepSet (p : Slot) (chan : Chan) (lk : Lock) (next : Place)
  | woken (p : Slot) (lk : Lock) (next : Place)
  | wokenRelease (lk : Lock) (next : Place)
  | reacquire (lk : Lock) (next : Place)
  -- `wakeup`
  | wakeup (chan : Chan) (next : Place)
  | wakeupLoop (chan : Chan) (next : Place)
  | wakeupRelease (next : Place)
  -- a section with another lock
  | otherAcquire (p : Option Slot) (i : ℕ) (next : Place)
  | otherBody (p : Option Slot) (i : ℕ) (next : Place)
  | otherRelease (i : ℕ) (next : Place)

structure Task where
  state : ProcState
  chan : Option Chan
  killed : Bool
  parent : Option Slot
  context : Place

structure World where
  task : Slot → Task
  initproc : Slot
  line : Console.Line Slot
  ticks : Word

inductive Interrupt where
  /-- Characters from the keyboard or the serial line. -/
  | input (cs : List Byte)
  /-- The timer; only CPU 0 counts the tick. -/
  | timer (cpu0 : Bool)
  | disk (i : ℕ)

/-- What a CPU does where it has a choice. -/
inductive Choice where
  | interrupt (r : Interrupt)
  /-- A process calls. -/
  | exit
  | wait
  | waitx
  | cps
  | kill (q : Slot)
  | sleep (n : ℤ)
  | consoleread (i : ℕ) (n : ℤ)
  | cprintf
  | kfree
  | section (i : ℕ)
  /-- In a section with another lock. -/
  | sleepOn (chan : Chan)
  | wakeup (chan : Chan)
  /-- The scheduler picks a process. -/
  | pick (p : Slot)
  | yield
  | go

namespace World

def setTask (d : World) (p : Slot) (f : Task → Task) : World :=
  { d with task := Function.update d.task p (f (d.task p)) }

def wakeup1 (d : World) (chan : Chan) : World :=
  { d with
    task := fun q =>
      if (d.task q).state = .SLEEPING ∧ (d.task q).chan = some chan then
        { d.task q with state := .RUNNABLE }
      else d.task q }

def wakeParent (d : World) (p : Slot) : World :=
  match (d.task p).parent with
  | some q => d.wakeup1 (.proc q)
  | none => d

/-- Pass the children of `p` to init, and wake it up if one of them has exited. -/
def reparent (d : World) (p : Slot) : World :=
  let passed : World :=
    { d with
      task := fun q =>
        if (d.task q).parent = some p then { d.task q with parent := some d.initproc }
        else d.task q }
  if (List.finRange NPROC).any fun q => (d.task q).parent = some p ∧ (d.task q).state = .ZOMBIE then
    passed.wakeup1 (.proc d.initproc)
  else passed

def exit (d : World) (p : Slot) : World :=
  ((d.wakeParent p).reparent p).setTask p fun t => { t with state := .ZOMBIE }

def zombieChild (d : World) (p : Slot) : Option Slot :=
  (List.finRange NPROC).find? fun q => (d.task q).parent = some p ∧ (d.task q).state = .ZOMBIE

def havekids (d : World) (p : Slot) : Bool :=
  (List.finRange NPROC).any fun q => (d.task q).parent = some p

def clear (d : World) (z : Slot) : World :=
  d.setTask z fun t => { t with state := .UNUSED, parent := none, killed := false }

/-- The critical section of `kill`, once it has found the process. -/
def kill (d : World) (q : Slot) : World :=
  d.setTask q fun t =>
    { t with killed := true, state := if t.state = .SLEEPING then .RUNNABLE else t.state }

/-- Leave the CPU. -/
def switch (d : World) (p : Slot) (state : ProcState) (chan : Option Chan) (context : Place) :
    World :=
  d.setTask p fun t => { t with state := state, chan := chan, context := context }

end World

/-- The processes that `cps` prints: with feedback queues, and without. -/
def listed (policy : Policy) (state : ProcState) : Bool :=
  if policy = .MLFQ then state ∈ [.RUNNABLE, .SLEEPING, .RUNNING]
  else state ∈ [.RUNNING, .SLEEPING, .ZOMBIE, .EMBRYO]

/-- The handler of an interrupt, and where it returns to. -/
def handler (p : Option Slot) (next : Place) : Interrupt → Place
  | .input cs => .intrAcquire cs next
  | .timer true => .timerAcquire p next
  | .timer false => .timerEnd p next
  | .disk i => .otherAcquire none i next

/-- The code at a place.  Interrupts come at some of the places without a lock, not at all (as
between the two locks that `sleep` exchanges at its end): a CPU that holds none when its handler
starts keeps nobody waiting, wherever that is. -/
def code (policy : Policy) : Place → Instr Lock World Place Choice
  | .scheduler => .compute fun d i =>
      match i with
      | .interrupt r => (d, handler none .scheduler r)
      | _ => (d, .schedAcquire)
  | .schedAcquire => .acquire .ptable .scan
  | .scan => .compute fun d i =>
      match i with
      | .pick p =>
          if (d.task p).state = .RUNNABLE then
            (d.setTask p fun t => { t with state := .RUNNING }, (d.task p).context)
          else (d, .scan)
      | _ => (d, .schedRelease)
  | .schedRelease => .release .ptable .scheduler
  | .user p => .compute fun d i =>
      match i with
      | .interrupt r => (d, handler (some p) (.user p) r)
      | .exit => (d, .exitClose p)
      | .wait => (d, .waitAcquire p false)
      | .waitx => (d, .waitAcquire p true)
      | .cps => (d, .cprintf (.cpsAcquire p))
      | .kill q => (d, .killAcquire p q)
      | .sleep n => (d, .ticksAcquire p n)
      -- `iunlock(ip)`
      | .consoleread k n => (d, .otherAcquire (some p) k (.readAcquire p k ⟨n, n, []⟩))
      | .cprintf => (d, .cprintf (.user p))
      | .kfree => (d, .kfree (.user p))
      | .section k => (d, .otherAcquire (some p) k (.user p))
      | _ => (d, .user p)
  | .forkret p => .release .ptable (.user p)
  | .exitClose p => .compute fun d i =>
      -- the files and the current directory
      match i with
      | .interrupt r => (d, handler (some p) (.exitClose p) r)
      | .section k => (d, .otherAcquire (some p) k (.exitClose p))
      | .kfree => (d, .kfree (.exitClose p))
      | _ => (d, .exitAcquire p)
  | .exitAcquire p => .acquire .ptable (.exitWake p)
  | .exitWake p => .compute fun d _ => (d.exit p, .cprintf (.exitSched p))
  | .exitSched p => .compute fun d _ => (d.setTask p fun t => { t with context := .zombie p }, .scan)
  | .zombie p => .compute fun d _ => (d, .zombie p)
  | .waitAcquire p x => .acquire .ptable (.waitScan p x)
  | .waitScan p x => .compute fun d _ =>
      match d.zombieChild p with
      | some z => (d, if x then .cprintf (.waitFree p z) else .waitFree p z)
      | none =>
          if d.havekids p = false ∨ (d.task p).killed = true then (d, .waitRelease p)
          else (d, .sleep p (.proc p) .ptable (.waitScan p x))
  | .waitFree p z => .compute fun d i =>
      -- `kfree` of the stack and of the pages
      match i with
      | .kfree => (d, .kfree (.waitFree p z))
      | _ => (d.clear z, .waitRelease p)
  | .waitRelease p => .release .ptable (.user p)
  | .cpsAcquire p => .acquire .ptable (.cpsLoop p 0)
  | .cpsLoop p k => .compute fun d _ =>
      if lt : k < NPROC then
        (d, if listed policy (d.task ⟨k, lt⟩).state then .cprintf (.cpsLoop p (k + 1))
          else .cpsLoop p (k + 1))
      else (d, .cpsRelease p)
  | .cpsRelease p => .release .ptable (.user p)
  | .killAcquire p q => .acquire .ptable (.killSet p q)
  | .killSet p q => .compute fun d _ => (d.kill q, .killRelease p)
  | .killRelease p => .release .ptable (.user p)
  | .ticksAcquire p n => .acquire .ticks (.ticksStart p n)
  | .ticksStart p n => .compute fun d _ => (d, .ticksLoop p n d.ticks)
  | .ticksLoop p n ticks0 => .compute fun d _ =>
      if d.ticks - ticks0 < BitVec.ofInt 32 n ∧ (d.task p).killed = false then
        (d, .sleep p .ticks .ticks (.ticksLoop p n ticks0))
      else (d, .ticksRelease p)
  | .ticksRelease p => .release .ticks (.user p)
  | .readAcquire p k rd => .acquire .cons (.readLoop p k rd)
  | .readLoop p k rd => .compute fun d _ =>
      match d.line.fetch p rd.n.toNat rd with
      | (line, .wait rd') =>
          if (d.task p).killed then ({ d with line := line.ended p rd' .killed }, .readRelease p k)
          else ({ d with line := line }, .sleep p .input .cons (.readLoop p k rd'))
      | (line, .done _) => ({ d with line := line }, .readRelease p k)
  | .readRelease p k =>
      -- `ilock(ip)`
      .release .cons (.otherAcquire (some p) k (.user p))
  | .intrAcquire cs next => .acquire .cons (.intrLoop cs false next)
  | .intrLoop [] doprocdump next => .compute fun d _ => (d, .intrRelease doprocdump next)
  | .intrLoop (c :: cs) doprocdump next => .compute fun d _ =>
      match d.line.typed c with
      | (line, wake) =>
          ({ d with line := line },
            let doprocdump := doprocdump || c == Console.ctrl 'P'
            if wake then .wakeup .input (.intrLoop cs doprocdump next)
            else .intrLoop cs doprocdump next)
  | .intrRelease doprocdump next => .release .cons (if doprocdump then .procdump next else next)
  | .procdump next => .compute fun d i =>
      match i with
      | .cprintf => (d, .cprintf (.procdump next))
      | _ => (d, next)
  | .timerAcquire p next => .acquire .ticks (.timerTick p next)
  | .timerTick p next => .compute fun d _ =>
      ({ d with ticks := d.ticks + 1 }, .wakeup .ticks (.timerRelease p next))
  | .timerRelease p next => .release .ticks (.timerEnd p next)
  | .timerEnd p next => .compute fun d i =>
      match i, p with
      | .yield, some p => (d, .yieldAcquire p next)
      | _, _ => (d, next)
  | .yieldAcquire p next => .acquire .ptable (.yieldSet p next)
  | .yieldSet p next => .compute fun d _ =>
      (d.switch p .RUNNABLE (d.task p).chan (.yieldBack next), .scan)
  | .yieldBack next => .release .ptable next
  | .cprintf next => .acquire .cons (.cprintfRelease next)
  | .cprintfRelease next => .release .cons next
  | .kfree next => .acquire .kmem (.kfreeRelease next)
  | .kfreeRelease next => .release .kmem next
  | .sleep p chan lk next => .compute fun d _ =>
      (d, if lk = .ptable then .sleepSet p chan lk next else .sleepAcquire p chan lk next)
  | .sleepAcquire p chan lk next => .acquire .ptable (.sleepRelease p chan lk next)
  | .sleepRelease p chan lk next => .release lk (.sleepSet p chan lk next)
  | .sleepSet p chan lk next => .compute fun d _ =>
      (d.switch p .SLEEPING (some chan) (.woken p lk next), .scan)
  | .woken p lk next => .compute fun d _ =>
      (d.setTask p fun t => { t with chan := none },
        if lk = .ptable then next else .wokenRelease lk next)
  | .wokenRelease lk next => .release .ptable (.reacquire lk next)
  | .reacquire lk next => .acquire lk next
  | .wakeup chan next => .acquire .ptable (.wakeupLoop chan next)
  | .wakeupLoop chan next => .compute fun d _ => (d.wakeup1 chan, .wakeupRelease next)
  | .wakeupRelease next => .release .ptable next
  | .otherAcquire p i next => .acquire (.other i) (.otherBody p i next)
  | .otherBody p i next => .compute fun d c =>
      match c, p with
      | .wakeup chan, _ => (d, .wakeup chan (.otherBody p i next))
      | .sleepOn chan, some q => (d, .sleep q chan (.other i) (.otherBody p i next))
      | _, _ => (d, .otherRelease i next)
  | .otherRelease i next => .release (.other i) next

/-- All CPUs in the scheduler, and every process before its first run or not there at all. -/
def boot {T : Type} (live : Slot → Bool) (parent : Slot → Option Slot) (initproc : Slot)
    (line : Console.Line Slot) (ticks : Word) : SpinLocks.Machine T Lock World Place where
  lock := fun _ => none
  data :=
    { task := fun p =>
        ⟨if live p then .RUNNABLE else .UNUSED, none, false, parent p, .forkret p⟩
      initproc := initproc
      line := line
      ticks := ticks }
  place := fun _ => .scheduler

end Xv6.Locks
