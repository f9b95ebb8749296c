import Xv6.Disk.Bio
import Xv6.Lib.Ring

/-!
# The buffer cache under concurrency

`bio.c` with its list, its sleep locks and any number of processes.  A step is a critical section of
`bcache.lock`, the taking or releasing of a sleep lock, a transfer by `iderw`, or something that a
caller does to a buffer it has locked.

A caller that has changed a buffer, the log among them, publishes the change by `log_write` or
`bwrite` before it releases the buffer.
-/

set_option linter.unusedSectionVars false

namespace Xv6.Cache

open Lib Function

/-- A `struct buf` of the list: `none` is `bcache.head`. -/
abbrev Node := Option (Fin NBUF)

/-- Where a process is in its calls. -/
inductive Act where
  /-- Not in a call. -/
  | idle
  /-- In `bget`, before it locks the buffer. -/
  | wait (i : Fin NBUF) (blockno : ℕ)
  /-- In `bread`, with the buffer locked. -/
  | test (i : Fin NBUF) (blockno : ℕ)
  | read (i : Fin NBUF) (blockno : ℕ)
  /-- In `bwrite`, with `B_DIRTY` set. -/
  | write (i : Fin NBUF)
  /-- In `brelse`, with the buffer unlocked. -/
  | release (i : Fin NBUF)
  deriving DecidableEq

/-- The cache, its users and the disk.  The last four fields are history. -/
structure State (P : Type) where
  buf : Fin NBUF → Buf
  links : Links Node
  owner : Fin NBUF → Option P
  disk : Disk
  act : P → Act
  published : Disk
  edited : Fin NBUF → Bool
  released : Fin NBUF → ℕ
  clock : ℕ

inductive Event (P : Type) where
  | bread (p : P) (blockno : ℕ)
  /-- The next step of a call. -/
  | next (p : P)
  /-- A caller changes the data of a buffer, or copies those of another one. -/
  | edit (p : P) (i : Fin NBUF) (data : Block)
  | copy (p : P) (i j : Fin NBUF)
  | log_write (p : P) (i : Fin NBUF)
  | bwrite (p : P) (i : Fin NBUF)
  | brelse (p : P) (i : Fin NBUF)

def binit : Links Node :=
  (List.finRange NBUF).foldl (fun k i => k.insert none (some i)) ⟨id, id⟩

section

variable {P : Type} [DecidableEq P]

/-- The cache after `binit`. -/
def init (disk : Disk) : State P where
  buf := fun _ => ⟨0, 0, false, false, 0, Block.zero⟩
  links := binit
  owner := fun _ => none
  disk := disk
  act := fun _ => .idle
  published := disk
  edited := fun _ => false
  released := fun _ => 0
  clock := 0

namespace State

def setBuf (s : State P) (i : Fin NBUF) (b : Buf) : State P :=
  { s with buf := update s.buf i b }

def setAct (s : State P) (p : P) (a : Act) : State P :=
  { s with act := update s.act p a }

def setOwner (s : State P) (i : Fin NBUF) (o : Option P) : State P :=
  { s with owner := update s.owner i o }

def publish (s : State P) (i : Fin NBUF) : State P :=
  { s with
    published := update s.published (s.buf i).blockno (s.buf i).data
    edited := update s.edited i false }

theorem buf_setBuf (s : State P) (i : Fin NBUF) (b : Buf) (j : Fin NBUF) :
    (s.setBuf i b).buf j = if j = i then b else s.buf j := update_apply ..

theorem setAct_self {s : State P} {p : P} {a : Act} (same : s.act p = a) : s.setAct p a = s := by
  rw [setAct, ← same, update_eq_self]

def lookup (s : State P) (dev blockno : ℕ) : Option Node :=
  walk s.links.next none
    (fun n => n.any fun i => (s.buf i).dev = dev ∧ (s.buf i).blockno = blockno)
    (NBUF + 1) (s.links.next none)

/-- The unused buffer that `bget` recycles. -/
def victim (s : State P) : Option Node :=
  walk s.links.prev none
    (fun n => n.any fun i => (s.buf i).refcnt = 0 ∧ (s.buf i).dirty = false)
    (NBUF + 1) (s.links.prev none)

end State

/-- The critical section of `bget`. -/
def bget (dev blockno : ℕ) : Prog (State P) Halt (Fin NBUF) := do
  let s ← get
  match s.lookup dev blockno with
  | some (some i) =>
      set (s.setBuf i { s.buf i with refcnt := (s.buf i).refcnt + 1 })
      return i
  | _ =>
      match s.victim with
      | some (some i) =>
          set (s.setBuf i ⟨dev, blockno, false, false, 1, (s.buf i).data⟩)
          return i
      | _ => throw (.panic "bget: no buffers")

def iderw (p : P) (i : Fin NBUF) : Prog (State P) Halt PUnit := do
  let s ← get
  let b := s.buf i
  if s.owner i ≠ some p then
    throw (.panic "iderw: buf not locked")
  else if b.valid = true ∧ b.dirty = false then
    throw (.panic "iderw: nothing to do")
  else if b.blockno ≥ FSSIZE then
    throw (.panic "incorrect blockno")
  else if b.dirty = true then
    set { s.setBuf i { b with valid := true, dirty := false } with
      disk := update s.disk b.blockno b.data }
  else
    set (s.setBuf i { b with valid := true, data := s.disk b.blockno })

/-- The critical section of `brelse`. -/
def put (i : Fin NBUF) : Prog (State P) Halt PUnit := do
  let s ← get
  let refcnt := (s.buf i).refcnt - 1
  set { s.setBuf i { s.buf i with refcnt := refcnt } with
    links := if refcnt = 0 then s.links.moveToFront none (some i) else s.links
    released := update s.released i (s.clock + 1)
    clock := s.clock + 1 }

/-- The next step of process `p` in its call. -/
def next (p : P) : Prog (State P) Halt PUnit := do
  let s ← get
  match s.act p with
  | .idle => pure ()
  | .wait i blockno =>
      if s.owner i = none then set ((s.setOwner i (some p)).setAct p (.test i blockno))
      else pure ()
  | .test i blockno =>
      if (s.buf i).valid = false then set (s.setAct p (.read i blockno))
      else set (s.setAct p .idle)
  | .read i _ => do
      iderw p i
      modify fun s => s.setAct p .idle
  | .write i => do
      iderw p i
      modify fun s => s.setAct p .idle
  | .release i => do
      put i
      modify fun s => s.setAct p .idle

/-- A process that is not in a call, with what it may do to a buffer it has locked. -/
def step : Event P → Prog (State P) Halt PUnit
  | .bread p blockno => do
      if (← get).act p = .idle then
        let i ← bget ROOTDEV blockno
        modify fun s => s.setAct p (.wait i blockno)
  | .next p => next p
  | .edit p i data => modify fun s =>
      if s.act p = .idle ∧ s.owner i = some p then
        { s.setBuf i { s.buf i with data := data } with
          edited := update s.edited i true }
      else s
  | .copy p i j => modify fun s =>
      if s.act p = .idle ∧ s.owner i = some p ∧ s.owner j = some p then
        { s.setBuf j { s.buf j with data := (s.buf i).data } with
          edited := update s.edited j true }
      else s
  | .log_write p i => modify fun s =>
      if s.act p = .idle ∧ s.owner i = some p then
        (s.publish i).setBuf i { s.buf i with dirty := true }
      else s
  | .bwrite p i => do
      let s ← get
      if s.act p = .idle then
        if s.owner i ≠ some p then
          throw (.panic "bwrite")
        else
          set (((s.publish i).setBuf i { s.buf i with dirty := true }).setAct p (.write i))
  | .brelse p i => do
      let s ← get
      if s.act p = .idle then
        if s.owner i ≠ some p then
          throw (.panic "brelse")
        else if s.edited i = false then
          set ((s.setOwner i none).setAct p (.release i))

end

end Xv6.Cache
