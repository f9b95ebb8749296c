import Xv6.Pipe.Pipe

/-!
# The calls in which a process waits

`piperead`, `pipewrite`, `consoleread`, `sys_sleep`, `wait` and `waitx`, step by step.  Each waits
in a loop that looks at `killed` before it calls `sleep`, and the pipes take and give a byte a step.
A process outside these calls may change the data in any way.
-/

namespace Xv6.Sleep

open Function

abbrev INPUT_BUF : ℕ := 128

/-- The console's input buffer, between `r` and `w`. -/
structure ConsInput where
  buf : Fin INPUT_BUF → Byte
  r : Word
  w : Word

/-- What the calls look at: pipes, the console and its inode's lock, the time, and the children. -/
structure World (P : Type) where
  pipe : ℕ → Pipes.Pipe
  input : ConsInput
  locked : Bool
  ticks : Word
  children : P → List (ℤ × Bool)

inductive Chan (P : Type) where
  | nread (k : ℕ)
  | nwrite (k : ℕ)
  | input
  | ticks
  | proc (p : P)
  | inode
  deriving DecidableEq

abbrev pipeLock (k : ℕ) : SpinLock := .other (k + 3)

/-- `cons.lock`, `tickslock`, and the spin lock inside the sleep-lock of the console's inode. -/
abbrev consLock : SpinLock := .other 0
abbrev ticksLock : SpinLock := .other 1
abbrev inodeLock : SpinLock := .other 2

/-- The places in the calls, with their local variables. -/
inductive Call where
  /-- In user space or elsewhere in the kernel. -/
  | user
  -- `piperead(p, addr, n)`
  | piperead (k : ℕ) (n : ℤ)
  | prTest (k : ℕ) (n : ℤ)
  | prKilled (k : ℕ) (n : ℤ)
  | prSleep (k : ℕ) (n : ℤ)
  | prCopy (k : ℕ) (n i : ℤ)
  | prWakeup (k : ℕ)
  | prRelease (k : ℕ)
  -- `pipewrite(p, addr, n)`
  | pipewrite (k : ℕ) (addr : List Byte)
  | pwTest (k : ℕ) (addr : List Byte)
  | pwKilled (k : ℕ) (addr : List Byte)
  | pwWakeup (k : ℕ) (addr : List Byte)
  | pwSleep (k : ℕ) (addr : List Byte)
  | pwStore (k : ℕ) (addr : List Byte)
  | pwLast (k : ℕ)
  | pwRelease (k : ℕ)
  -- `consoleread(ip, dst, n)`: unlocks the inode, reads, and locks the inode again
  | consoleread (n : ℤ)
  | crUnlock (n : ℤ)
  | crWakeup (n : ℤ)
  | crUnlocked (n : ℤ)
  | crAcquire (n : ℤ)
  | crTest (target n : ℤ)
  | crEmpty (target n : ℤ)
  | crKilled (target n : ℤ)
  | crSleep (target n : ℤ)
  | crTake (target n : ℤ)
  | crRelease
  | ilock
  | ilockTest
  | ilockSleep
  | ilockRelease
  -- `sys_sleep` with argument `n`
  | sleep (n : ℤ)
  | slStart (n : ℤ)
  | slTest (n : ℤ) (ticks0 : Word)
  | slKilled (n : ℤ) (ticks0 : Word)
  | slSleep (n : ℤ) (ticks0 : Word)
  | slRelease
  -- `wait`, and `waitx` if the flag is set
  | wait (x : Bool)
  | waScan (x : Bool)
  | waKilled (x : Bool)
  | waSleep (x : Bool)
  | waRelease

/-- What a process outside the calls does next. -/
inductive Decision (P : Type) where
  | piperead (k : ℕ) (n : ℤ)
  | pipewrite (k : ℕ) (addr : List Byte)
  | consoleread (n : ℤ)
  | sleep (n : ℤ)
  | wait
  | waitx
  | other (f : World P → World P)

/-- The character that `consoleread` is at. -/
def ConsInput.head (c : ConsInput) : Byte := c.buf ⟨c.r.toNat % INPUT_BUF, Nat.mod_lt _ (by decide)⟩

section

variable {P : Type} [DecidableEq P]

namespace World

def setPipe (d : World P) (k : ℕ) (q : Lib.Fifo Byte 32 Pipes.PIPESIZE) : World P :=
  { d with pipe := update d.pipe k { d.pipe k with toFifo := q } }

def takeInput (d : World P) : World P := { d with input := { d.input with r := d.input.r + 1 } }

def zombie (d : World P) (p : P) : Bool := (d.children p).any (·.2)

def reap (d : World P) (p : P) : World P :=
  { d with children := update d.children p ((d.children p).eraseP (·.2)) }

end World

def calls (p : P) : Call → Instr (World P) (Chan P) (Decision P) Call
  | .user => .compute fun _ d i =>
      match i with
      | .piperead k n => (d, .piperead k n)
      | .pipewrite k addr => (d, .pipewrite k addr)
      | .consoleread n => (d, .consoleread n)
      | .sleep n => (d, .sleep n)
      | .wait => (d, .wait false)
      | .waitx => (d, .wait true)
      | .other f => (f d, .user)
  | .piperead k n => .acquire (pipeLock k) (.prTest k n)
  | .prTest k n => .compute fun _ d _ =>
      (d, if (d.pipe k).Empty ∧ (d.pipe k).writeopen = true then .prKilled k n else .prCopy k n 0)
  | .prKilled k n => .compute fun killed d _ => (d, if killed then .prRelease k else .prSleep k n)
  | .prSleep k n => .sleep (.nread k) (pipeLock k) (.prTest k n)
  | .prCopy k n i => .compute fun _ d _ =>
      if i < n ∧ ¬ (d.pipe k).Empty then (d.setPipe k (d.pipe k).drop, .prCopy k n (i + 1))
      else (d, .prWakeup k)
  | .prWakeup k => .wakeup (.nwrite k) (.prRelease k)
  | .prRelease k => .release (pipeLock k) .user
  | .pipewrite k addr => .acquire (pipeLock k) (.pwTest k addr)
  | .pwTest k addr => .compute fun _ d _ =>
      (d, if addr = [] then .pwLast k
        else if (d.pipe k).Full then .pwKilled k addr else .pwStore k addr)
  | .pwKilled k addr => .compute fun killed d _ =>
      (d, if (d.pipe k).readopen = false ∨ killed = true then .pwRelease k else .pwWakeup k addr)
  | .pwWakeup k addr => .wakeup (.nread k) (.pwSleep k addr)
  | .pwSleep k addr => .sleep (.nwrite k) (pipeLock k) (.pwTest k addr)
  | .pwStore k addr => .compute fun _ d _ =>
      match addr with
      | [] => (d, .pwLast k)
      | b :: addr => (d.setPipe k ((d.pipe k).put b), .pwTest k addr)
  | .pwLast k => .wakeup (.nread k) (.pwRelease k)
  | .pwRelease k => .release (pipeLock k) .user
  | .consoleread n => .acquire inodeLock (.crUnlock n)
  | .crUnlock n => .compute fun _ d _ => ({ d with locked := false }, .crWakeup n)
  | .crWakeup n => .wakeup .inode (.crUnlocked n)
  | .crUnlocked n => .release inodeLock (.crAcquire n)
  | .crAcquire n => .acquire consLock (.crTest n n)
  | .crTest target n => .compute fun _ d _ => (d, if 0 < n then .crEmpty target n else .crRelease)
  | .crEmpty target n => .compute fun _ d _ =>
      (d, if d.input.r = d.input.w then .crKilled target n else .crTake target n)
  | .crKilled target n => .compute fun killed d _ =>
      (d, if killed then .crRelease else .crSleep target n)
  | .crSleep target n => .sleep .input consLock (.crEmpty target n)
  | .crTake target n => .compute fun _ d _ =>
      -- a control-D ends the call; it is left for the next one if characters were read before it
      if d.input.head = 4 then (if n < target then d else d.takeInput, .crRelease)
      else (d.takeInput, if d.input.head = 10 then .crRelease else .crTest target (n - 1))
  | .crRelease => .release consLock .ilock
  | .ilock => .acquire inodeLock .ilockTest
  | .ilockTest => .compute fun _ d _ =>
      if d.locked then (d, .ilockSleep) else ({ d with locked := true }, .ilockRelease)
  | .ilockSleep => .sleep .inode inodeLock .ilockTest
  | .ilockRelease => .release inodeLock .user
  | .sleep n => .acquire ticksLock (.slStart n)
  | .slStart n => .compute fun _ d _ => (d, .slTest n d.ticks)
  | .slTest n ticks0 => .compute fun _ d _ =>
      -- the difference is unsigned, and so is the comparison
      (d, if d.ticks - ticks0 < BitVec.ofInt 32 n then .slKilled n ticks0 else .slRelease)
  | .slKilled n ticks0 => .compute fun killed d _ =>
      (d, if killed then .slRelease else .slSleep n ticks0)
  | .slSleep n ticks0 => .sleep .ticks ticksLock (.slTest n ticks0)
  | .slRelease => .release ticksLock .user
  | .wait x => .acquire .ptable (.waScan x)
  | .waScan x => .compute fun _ d _ =>
      if d.zombie p then (d.reap p, .waRelease) else (d, .waKilled x)
  | .waKilled x => .compute fun killed d _ =>
      (d, if d.children p = [] ∨ killed = true then .waRelease else .waSleep x)
  | .waSleep x => .sleep (.proc p) .ptable (.waScan x)
  | .waRelease => .release .ptable .user

def Call.Holds : Call → SpinLock → Prop
  | .user | .piperead _ _ | .pipewrite _ _ | .consoleread _ | .crAcquire _ | .ilock | .sleep _
  | .wait _ => fun _ => False
  | .prTest k _ | .prKilled k _ | .prSleep k _ | .prCopy k _ _ | .prWakeup k | .prRelease k
  | .pwTest k _ | .pwKilled k _ | .pwWakeup k _ | .pwSleep k _ | .pwStore k _ | .pwLast k
  | .pwRelease k => fun l => l = pipeLock k
  | .crUnlock _ | .crWakeup _ | .crUnlocked _ | .ilockTest | .ilockSleep | .ilockRelease =>
      fun l => l = inodeLock
  | .crTest _ _ | .crEmpty _ _ | .crKilled _ _ | .crSleep _ _ | .crTake _ _ | .crRelease =>
      fun l => l = consLock
  | .slStart _ | .slTest _ _ | .slKilled _ _ | .slSleep _ _ | .slRelease => fun l => l = ticksLock
  | .waScan _ | .waKilled _ | .waSleep _ | .waRelease => fun l => l = .ptable

theorem calls_discipline : Discipline (calls : P → Call → Instr (World P) (Chan P) (Decision P) Call)
    Call.Holds where
  acquire := by
    intro p x lk y does l held
    cases x <;> cases does <;> exact .inr held
  release := by
    intro p x lk y does
    cases x <;> cases does <;> exact ⟨rfl, fun _ => False.elim⟩
  compute := by
    intro p x f does b d i l held
    cases x <;> cases does <;> revert held <;> dsimp only
    all_goals first
      | exact id
      | (split <;> exact id)
      | (split_ifs <;> exact id)
  sleep := by
    intro p x chan lk y does
    cases x <;> cases does <;> exact ⟨rfl, fun _ => id⟩
  wakeup := by
    intro p x chan y does
    cases x <;> cases does <;> exact ⟨by simp [Call.Holds], fun _ => id⟩
  wakeup1 := by
    intro p x chan y does
    cases x <;> cases does

end

end Xv6.Sleep
