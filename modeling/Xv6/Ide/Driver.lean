import Xv6.Disk.Bio
import Xv6.Sleep.Waiting

/-!
# Two disk drivers

`iderw` of `memide.c`, which serves a request at once, and `ide.c`, where `iderw` queues the request
and sleeps until `ideintr` has served it.  Callers hold the sleep lock of the buffer.
-/

set_option linter.unusedSectionVars false

namespace Xv6.Ide

open Lib Sleep Function

/-! ## Buffers and disks -/

/-- Who has locked which buffer, the buffers and the disks, which are a drive number away. -/
structure Store (A B : Type) where
  owner : B → Option A
  buf : B → Buf
  disk : ℕ → Disk

/-- A request: who makes it, for which buffer, with what in it. -/
structure Request (A B : Type) where
  caller : A
  b : B
  contents : Buf

/-- What the callers of a driver do. -/
inductive Op (A B : Type) where
  | lock (a : A) (b : B)
  | unlock (a : A) (b : B)
  | edit (a : A) (b : B) (contents : Buf)
  | iderw (r : Request A B)

/-- There is something to do for the buffer. -/
def ToDo (b : Buf) : Prop := ¬ (b.valid = true ∧ b.dirty = false)
  deriving Decidable

namespace Store

variable {A B : Type} [DecidableEq A] [DecidableEq B]

def setBuf (s : Store A B) (b : B) (contents : Buf) : Store A B :=
  { s with buf := update s.buf b contents }

def setOwner (s : Store A B) (b : B) (o : Option A) : Store A B :=
  { s with owner := update s.owner b o }

def setBlock (s : Store A B) (drive sector : ℕ) (w : Block) : Store A B :=
  { s with disk := update s.disk drive (update (s.disk drive) sector w) }

/-- `acquiresleep`, when it need not wait. -/
def lock (s : Store A B) (a : A) (b : B) : Store A B :=
  if s.owner b = none then s.setOwner b (some a) else s

def unlock (s : Store A B) (a : A) (b : B) : Store A B :=
  if s.owner b = some a then s.setOwner b none else s

/-- A buffer changes that nobody else has locked. -/
def edit (s : Store A B) (a : A) (b : B) (contents : Buf) : Store A B :=
  if s.owner b = none ∨ s.owner b = some a then s.setBuf b contents else s

end Store

/-! ## memide.c -/

namespace Memide

variable {A B : Type} [DecidableEq A] [DecidableEq B]

/-- The memory disk is drive 1. -/
def iderw (disksize : ℕ) (a : A) (b : B) : Prog (Store A B) Halt PUnit := do
  let s ← get
  let buf := s.buf b
  if s.owner b ≠ some a then
    throw (.panic "iderw: buf not locked")
  else if buf.valid = true ∧ buf.dirty = false then
    throw (.panic "iderw: nothing to do")
  else if buf.dev ≠ 1 then
    throw (.panic "iderw: request not for disk 1")
  else if buf.blockno ≥ disksize then
    throw (.panic "iderw: block out of range")
  else if buf.dirty = true then
    set ((s.setBlock 1 buf.blockno buf.data).setBuf b { buf with dirty := false, valid := true })
  else
    set (s.setBuf b { buf with data := s.disk 1 buf.blockno, valid := true })

def perform (disksize : ℕ) : Op A B → Prog (Store A B) Halt PUnit
  | .lock a b => modify fun s => s.lock a b
  | .unlock a b => modify fun s => s.unlock a b
  | .edit a b contents => modify fun s => s.edit a b contents
  | .iderw r => iderw disksize r.caller r.b

end Memide

/-! ## ide.c -/

abbrev SECTOR_SIZE : ℕ := 512

/-- A command for the device, with the data that a write sends along. -/
structure Cmd where
  drive : ℕ
  sector : ℕ
  write : Option Block

/-- The device: the command it works on, the interrupt line, and what it has read. -/
structure Device where
  busy : Option Cmd
  irq : Bool
  data : Block

/-- The driver's data and the device, with a history. -/
structure Driver (A B : Type) where
  store : Store A B
  havedisk1 : Bool
  idequeue : Option B
  qnext : B → Option B
  device : Device
  enqueued : List (Request A B)
  started : List B
  history : List (Op A B)

/-- The parties: the processes, the interrupt handler and the device. -/
inductive Party (P : Type) where
  | proc (p : P)
  | intr
  | device
  deriving DecidableEq

inductive Place (B : Type) where
  | user
  /-- In `iderw`; `walk` has the loop variable `pp`, the address of `idequeue` or of a `qnext`. -/
  | check (b : B)
  | enter (b : B)
  | append (b : B)
  | walk (b : B) (pp : Option B)
  | first (b : B)
  | start (b : B)
  | test (b : B)
  | sleep (b : B)
  | leave (b : B)
  /-- In `ideintr`, and waiting for an interrupt. -/
  | intrIdle
  | intrEnter
  | intrHead
  | intrRead (b : B)
  | intrFlags (b : B)
  | intrWakeup (b : B)
  | intrNext
  | intrStart (b : B)
  | intrLeave
  | device
  | panic (msg : String)
  deriving DecidableEq

inductive Input (B : Type) where
  | lock (b : B)
  | unlock (b : B)
  | edit (b : B) (contents : Buf)
  | iderw (b : B)

def idelock : SpinLock := .other 1

def command (b : Buf) : Cmd where
  drive := b.dev % 2
  sector := b.blockno * (BSIZE / SECTOR_SIZE)
  write := if b.dirty then some b.data else none

section

variable {A B P : Type} [DecidableEq A] [DecidableEq B] [DecidableEq P]

def Driver.deref (d : Driver A B) : Option B → Option B
  | none => d.idequeue
  | some c => d.qnext c

def Driver.assign (d : Driver A B) (pp : Option B) (b : B) : Driver A B :=
  match pp with
  | none => { d with idequeue := some b }
  | some c => { d with qnext := update d.qnext c (some b) }

/-- Start the request for `b` and go on at `next`; `idewait` spins while the device is busy. -/
def idestart (d : Driver A B) (b : B) (here next : Place B) : Driver A B × Place B :=
  if (d.store.buf b).blockno ≥ FSSIZE then (d, .panic "incorrect blockno")
  else if d.device.busy.isSome then (d, here)
  else
    ({ d with
        device := { d.device with busy := some (command (d.store.buf b)) }
        started := d.started ++ [b] }, next)

/-- The device completes its command and raises the interrupt line. -/
def Driver.complete (d : Driver A B) (cmd : Cmd) : Driver A B :=
  match cmd.write with
  | some w =>
      { d with
        store := d.store.setBlock cmd.drive cmd.sector w
        device := { d.device with busy := none, irq := true } }
  | none => { d with device := ⟨none, true, d.store.disk cmd.drive cmd.sector⟩ }

/-- What `ideintr` does to the flags of `b`.  This ends the request last made for `b`. -/
def Driver.finish (d : Driver A B) (b : B) : Driver A B :=
  { d with
    store := d.store.setBuf b { d.store.buf b with valid := true, dirty := false }
    history := d.history ++
      ((d.enqueued.reverse.find? fun r => r.b = b).toList.map Op.iderw) }

def code (a : Party P) : Place B → Instr (Driver (Party P) B) B (Input B) (Place B)
  | .user => .compute fun _ d i =>
      match i with
      | .lock b =>
          ({ d with store := d.store.lock a b, history := d.history ++ [.lock a b] }, .user)
      | .unlock b =>
          ({ d with store := d.store.unlock a b, history := d.history ++ [.unlock a b] }, .user)
      | .edit b c =>
          ({ d with store := d.store.edit a b c, history := d.history ++ [.edit a b c] }, .user)
      | .iderw b => (d, .check b)
  | .check b => .compute fun _ d _ =>
      if d.store.owner b ≠ some a then (d, .panic "iderw: buf not locked")
      else if (d.store.buf b).valid = true ∧ (d.store.buf b).dirty = false then
        (d, .panic "iderw: nothing to do")
      else if (d.store.buf b).dev ≠ 0 ∧ d.havedisk1 = false then
        (d, .panic "iderw: ide disk 1 not present")
      else (d, .enter b)
  | .enter b => .acquire idelock (.append b)
  | .append b => .compute fun _ d _ =>
      ({ d with qnext := update d.qnext b none }, .walk b none)
  | .walk b pp => .compute fun _ d _ =>
      match d.deref pp with
      | some c => (d, .walk b (some c))
      | none =>
          ({ d.assign pp b with enqueued := d.enqueued ++ [⟨a, b, d.store.buf b⟩] }, .first b)
  | .first b => .compute fun _ d _ => (d, if d.idequeue = some b then .start b else .test b)
  | .start b => .compute fun _ d _ => idestart d b (.start b) (.test b)
  | .test b => .compute fun _ d _ => (d, if ToDo (d.store.buf b) then .sleep b else .leave b)
  | .sleep b => .sleep b idelock (.test b)
  | .leave _ => .release idelock .user
  | .intrIdle => .compute fun _ d _ =>
      if d.device.irq then ({ d with device := { d.device with irq := false } }, .intrEnter)
      else (d, .intrIdle)
  | .intrEnter => .acquire idelock .intrHead
  | .intrHead => .compute fun _ d _ =>
      match d.idequeue with
      | none => (d, .intrLeave)
      | some b => ({ d with idequeue := d.qnext b }, .intrRead b)
  | .intrRead b => .compute fun _ d _ =>
      if (d.store.buf b).dirty then (d, .intrFlags b)
      else if d.device.busy.isSome then (d, .intrRead b)
      else
        ({ d with store := d.store.setBuf b { d.store.buf b with data := d.device.data } },
          .intrFlags b)
  | .intrFlags b => .compute fun _ d _ => (d.finish b, .intrWakeup b)
  | .intrWakeup b => .wakeup b .intrNext
  | .intrNext => .compute fun _ d _ =>
      match d.idequeue with
      | none => (d, .intrLeave)
      | some b => (d, .intrStart b)
  | .intrStart b => .compute fun _ d _ => idestart d b (.intrStart b) .intrLeave
  | .intrLeave => .release idelock .intrIdle
  | .device => .compute fun _ d _ =>
      match d.device.busy with
      | none => (d, .device)
      | some cmd => (d.complete cmd, .device)
  | .panic msg => .compute fun _ d _ => (d, .panic msg)

def Driver.init (s : Store A B) (havedisk1 : Bool) (qnext : B → Option B) (data : Block) :
    Driver A B where
  store := s
  havedisk1 := havedisk1
  idequeue := none
  qnext := qnext
  device := ⟨none, false, data⟩
  enqueued := []
  started := []
  history := []

def home : Party P → Place B
  | .proc _ => .user
  | .intr => .intrIdle
  | .device => .device

def Place.Holds : Place B → SpinLock → Prop
  | .append _ | .walk _ _ | .first _ | .start _ | .test _ | .sleep _ | .leave _ | .intrHead
  | .intrRead _ | .intrFlags _ | .intrWakeup _ | .intrNext | .intrStart _ | .intrLeave =>
      fun l => l = idelock
  | _ => fun _ => False

theorem idestart_place {d : Driver A B} {b : B} {here next : Place B} {l : SpinLock}
    (held : (idestart d b here next).2.Holds l) : here.Holds l ∨ next.Holds l := by
  unfold idestart at held
  repeat' split at held
  · exact held.elim
  · exact .inl held
  · exact .inr held

theorem code_discipline :
    Discipline (code : Party P → Place B → Instr (Driver (Party P) B) B (Input B) (Place B))
      Place.Holds where
  acquire := by
    intro p x lk y does l held
    cases x <;> cases does
    all_goals exact .inr held
  release := by
    intro p x lk y does
    cases x <;> cases does
    all_goals exact ⟨rfl, fun _ => False.elim⟩
  compute := by
    intro p x f does c d i l held
    cases x <;> cases does <;> dsimp only at held
    case user => cases i <;> exact held
    case start | intrStart => exact (idestart_place held).elim id id
    all_goals
      first
      | exact held
      | (repeat' split at held) <;> exact held
  sleep := by
    intro p x chan lk y does
    cases x <;> cases does
    exact ⟨rfl, fun _ => id⟩
  wakeup := by
    intro p x chan y does
    cases x <;> cases does
    exact ⟨nofun, fun _ => id⟩
  wakeup1 := by
    intro p x chan y does
    cases x <;> cases does

end

end Xv6.Ide
