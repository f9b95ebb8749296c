import Xv6.Lib.Fifo
import Xv6.Sleep.Machine

/-!
# Pipes

`pipewrite`, `piperead` and `pipeclose` of `pipe.c` on one pipe.  A process computes with `p->lock`
held from one call of `sleep`, `wakeup` or `release` to the next, so that a copying loop is one
step.
-/

namespace Xv6.Pipes

open Lib Sleep

/-! ## The code -/

abbrev PIPESIZE : ℕ := 512

instance neZero_PIPESIZE : NeZero PIPESIZE := ⟨by decide⟩

/-- `struct pipe`, without its lock. -/
structure Pipe extends Fifo Byte 32 PIPESIZE where
  readopen : Bool
  writeopen : Bool

/-- A pipe with its history: the bytes stored and delivered, and whether a `pipewrite` gave up after
it had put bytes into the empty pipe. -/
structure Channel where
  pipe : Pipe
  stored : List Byte
  delivered : List (List Byte)
  abandoned : Bool

namespace Pipe

/-- The fields that `pipealloc` sets, over a page with any contents. -/
def alloc (data : Fin PIPESIZE → Byte) : Pipe where
  data := data
  nread := 0#32
  nwrite := 0#32
  readopen := true
  writeopen := true

/-- The copying loop of `piperead`: the bytes it takes, at most `n`. -/
def fetch : ℕ → Pipe → List Byte × Pipe
  | 0, p => ([], p)
  | n + 1, p =>
      if p.Empty then ([], p)
      else
        let rest := fetch n { p with toFifo := p.toFifo.drop }
        (p.head :: rest.1, rest.2)

end Pipe

namespace Channel

def put (d : Channel) (c : Byte) : Channel :=
  { d with pipe := { d.pipe with toFifo := d.pipe.toFifo.put c }, stored := d.stored ++ [c] }

/-- The copying loop of `pipewrite` up to a full pipe: the bytes that are left. -/
def store : List Byte → Channel → List Byte × Channel
  | [], d => ([], d)
  | c :: addr, d => if d.pipe.Full then (c :: addr, d) else store addr (d.put c)

end Channel

inductive Chan where
  | nread
  | nwrite
  deriving DecidableEq

/-- The places of a process; `n` is the size of a request. -/
inductive Place where
  /-- Outside, with the result of the last call. -/
  | user (result : ℤ)
  /-- In `pipewrite`, with the bytes from `addr[i]` on. -/
  | writeAcquire (addr : List Byte)
  | writeLoop (n : ℤ) (addr : List Byte)
  | writeFull (n : ℤ) (addr : List Byte)
  | writeWait (n : ℤ) (addr : List Byte)
  | writeSleep (n : ℤ) (addr : List Byte)
  | writeFail
  | writeWakeup (n : ℤ)
  | writeRelease (n : ℤ)
  /-- In `piperead`; `addr` are the bytes delivered. -/
  | readAcquire (n : ℤ)
  | readTest (n : ℤ)
  | readSleep (n : ℤ)
  | readFail
  | readWakeup (n : ℤ) (addr : List Byte)
  | readRelease (n : ℤ) (addr : List Byte)
  | closeAcquire (writable : Bool)
  | closeSet (writable : Bool)
  | closeWakeup (writable : Bool)
  | closeTest
  | closeRelease (free : Bool)
  | kfree
  deriving DecidableEq

inductive Input where
  | pipewrite (addr : List Byte)
  | piperead (n : ℤ)
  | pipeclose (writable : Bool)

def pipelock : SpinLock := .other 2

/-- `pipewrite` decides to give up when the pipe is full, with the lock held since the loop. -/
def code {P : Type} (_ : P) : Place → Instr Channel Chan Input Place
  | .user _ => .compute fun _ d i =>
      match i with
      | .pipewrite addr => (d, .writeAcquire addr)
      | .piperead n => (d, .readAcquire n)
      | .pipeclose writable => (d, .closeAcquire writable)
  | .writeAcquire addr => .acquire pipelock (.writeLoop addr.length addr)
  | .writeLoop n addr => .compute fun killed d _ =>
      match d.store addr with
      | ([], d') => (d', .writeWakeup n)
      | (c :: rest, d') =>
          if d'.pipe.readopen = false ∨ killed then
            ({ d' with abandoned := d'.abandoned || decide d.pipe.Empty }, .writeFail)
          else (d', .writeFull n (c :: rest))
  | .writeFull n addr => .wakeup .nread (.writeWait n addr)
  | .writeWait n addr => .compute fun _ d _ => (d, .writeSleep n addr)
  | .writeSleep n addr => .sleep .nwrite pipelock (.writeLoop n addr)
  | .writeFail => .release pipelock (.user (-1))
  | .writeWakeup n => .wakeup .nread (.writeRelease n)
  | .writeRelease n => .release pipelock (.user n)
  | .readAcquire n => .acquire pipelock (.readTest n)
  | .readTest n => .compute fun killed d _ =>
      if d.pipe.Empty ∧ d.pipe.writeopen = true then
        (d, if killed then .readFail else .readSleep n)
      else
        match d.pipe.fetch n.toNat with
        | (addr, p) =>
            ({ d with pipe := p, delivered := d.delivered ++ [addr] }, .readWakeup n addr)
  | .readSleep n => .sleep .nread pipelock (.readTest n)
  | .readFail => .release pipelock (.user (-1))
  | .readWakeup n addr => .wakeup .nwrite (.readRelease n addr)
  | .readRelease _ addr => .release pipelock (.user addr.length)
  | .closeAcquire writable => .acquire pipelock (.closeSet writable)
  | .closeSet writable => .compute fun _ d _ =>
      if writable then
        ({ d with pipe := { d.pipe with writeopen := false } }, .closeWakeup writable)
      else ({ d with pipe := { d.pipe with readopen := false } }, .closeWakeup writable)
  | .closeWakeup writable => .wakeup (if writable then .nread else .nwrite) .closeTest
  | .closeTest => .compute fun _ d _ =>
      (d, .closeRelease (d.pipe.readopen = false ∧ d.pipe.writeopen = false))
  | .closeRelease free => .release pipelock (if free then .kfree else .user 0)
  | .kfree => .compute fun _ d _ => (d, .user 0)

/-- A new pipe, and nobody in it. -/
def init {P : Type} (data : Fin PIPESIZE → Byte) : Sleep.Machine P Channel Chan Place :=
  .start ⟨.alloc data, [], [], false⟩ fun _ => .user 0

def Place.Holds : Place → SpinLock → Prop
  | .user _ | .writeAcquire _ | .readAcquire _ | .closeAcquire _ | .kfree => fun _ => False
  | _ => fun l => l = pipelock

theorem code_discipline {P : Type} :
    Discipline (code : P → Place → Instr Channel Chan Input Place) Place.Holds where
  acquire := by
    intro p x lk y does l held
    cases x <;> cases does
    all_goals exact .inr held
  release := by
    intro p x lk y does
    cases x <;> cases does
    case closeRelease free => cases free <;> exact ⟨rfl, fun _ => False.elim⟩
    all_goals exact ⟨rfl, fun _ => False.elim⟩
  compute := by
    intro p x f does b d i l held
    cases x <;> cases does <;> dsimp only at held
    all_goals first | exact held | skip
    case user => cases i <;> exact held
    all_goals
      repeat' split at held
      all_goals exact held
  sleep := by
    intro p x chan lk y does
    cases x <;> cases does
    all_goals exact ⟨rfl, fun _ => id⟩
  wakeup := by
    intro p x chan y does
    cases x <;> cases does
    all_goals exact ⟨nofun, fun _ => id⟩
  wakeup1 := by
    intro p x chan y does
    cases x <;> cases does

/-! ## What the loops do -/

theorem dvd_wrap : PIPESIZE ∣ 2 ^ 32 := by decide

theorem lt_wrap : PIPESIZE < 2 ^ 32 := by decide

namespace Pipe

theorem fetch_spec {n : ℕ} : ∀ {p : Pipe} {q : List Byte}, p.Holds q →
    (p.fetch n).1 = q.take n ∧ (p.fetch n).2.Holds (q.drop n) := by
  induction n with
  | zero => exact fun held => ⟨by simp [fetch], by simpa [fetch] using held⟩
  | succ n ih =>
    intro p q held
    rw [fetch]
    split
    next empty =>
      obtain rfl := (held.empty_iff lt_wrap).1 empty
      exact ⟨rfl, held⟩
    rename_i some_
    cases q with
    | nil => exact absurd ((held.empty_iff lt_wrap).2 rfl) some_
    | cons c q =>
      obtain ⟨taken, rest⟩ := ih (p := { p with toFifo := p.toFifo.drop }) held.drop
      dsimp only
      rw [taken, held.head_eq]
      exact ⟨rfl, rest⟩

theorem length_fetch {n : ℕ} : ∀ {p : Pipe}, (p.fetch n).1.length ≤ n := by
  induction n with
  | zero => exact le_rfl
  | succ n ih =>
    intro p
    rw [fetch]
    split
    · exact Nat.zero_le _
    · exact Nat.succ_le_succ ih

theorem fetch_nil {n : ℕ} {p : Pipe} (pos : 0 < n) (none : (p.fetch n).1 = []) :
    p.Empty ∧ (p.fetch n).2 = p := by
  cases n with
  | zero => omega
  | succ n =>
    rw [fetch] at none ⊢
    split at none
    next empty =>
      rw [if_pos empty]
      exact ⟨empty, rfl⟩
    · cases none

end Pipe

namespace Channel

/-- The bytes stored so far are those delivered, in order, followed by those in the pipe. -/
def Flows (d : Channel) : Prop :=
  ∃ q, d.pipe.Holds q ∧ d.stored = d.delivered.flatten ++ q

theorem Flows.put {d : Channel} (h : d.Flows) (room : ¬ d.pipe.Full) (c : Byte) :
    (d.put c).Flows := by
  obtain ⟨q, held, eq⟩ := h
  refine ⟨q ++ [c], held.put dvd_wrap lt_wrap room c, ?_⟩
  show d.stored ++ [c] = d.delivered.flatten ++ (q ++ [c])
  rw [eq, List.append_assoc]

theorem Flows.store (addr : List Byte) : ∀ {d : Channel}, d.Flows → (d.store addr).2.Flows := by
  induction addr with
  | nil => exact id
  | cons c addr ih =>
    intro d h
    rw [Channel.store]
    split
    · exact h
    next room => exact ih (h.put room c)

theorem Flows.fetch {d : Channel} (h : d.Flows) (n : ℕ) : Flows
    { d with pipe := (d.pipe.fetch n).2, delivered := d.delivered ++ [(d.pipe.fetch n).1] } := by
  obtain ⟨q, held, eq⟩ := h
  obtain ⟨taken, rest⟩ := Pipe.fetch_spec (n := n) held
  refine ⟨q.drop n, rest, ?_⟩
  simp only
  rw [taken, List.flatten_append, List.flatten_singleton, List.append_assoc, List.take_append_drop]
  exact eq

theorem full_store (addr : List Byte) : ∀ {d : Channel}, (d.store addr).1 ≠ [] →
    (d.store addr).2.pipe.Full := by
  induction addr with
  | nil => exact fun left => absurd rfl left
  | cons c addr ih =>
    intro d left
    rw [store] at left ⊢
    split at left
    next full =>
      rw [if_pos full]
      exact full
    next room =>
      rw [if_neg room]
      exact ih left

theorem flags_store (addr : List Byte) : ∀ (d : Channel),
    (d.store addr).2.pipe.readopen = d.pipe.readopen ∧
      (d.store addr).2.pipe.writeopen = d.pipe.writeopen ∧
      (d.store addr).2.abandoned = d.abandoned := by
  induction addr with
  | nil => exact fun _ => ⟨rfl, rfl, rfl⟩
  | cons c addr ih =>
    intro d
    rw [store]
    split
    · exact ⟨rfl, rfl, rfl⟩
    · exact ih (d.put c)

theorem Flows.compute {P : Type} {p : P} {x : Place} {d : Channel} (h : d.Flows) {b : Bool}
    {i : Input} {f : Bool → Channel → Input → Channel × Place} (does : code p x = .compute f) :
    (f b d i).1.Flows := by
  cases x <;> cases does <;> dsimp only
  case user => cases i <;> exact h
  case writeLoop n addr =>
    have kept := Flows.store addr h
    split
    next d' eq => rwa [eq] at kept
    next c rest d' eq =>
      rw [eq] at kept
      split
      · exact kept
      · exact kept
  case readTest n =>
    split
    · exact h
    · exact h.fetch n.toNat
  case closeSet writable => cases writable <;> exact h
  all_goals exact h

end Channel

/-! ## Every interleaving -/

/-- What a process knows while it has the lock. -/
def Known : Place → Channel → Prop
  | .writeFull _ _, d | .writeWait _ _, d => d.pipe.Full ∧ d.pipe.readopen = true
  | .readWakeup n addr, d | .readRelease n addr, d =>
      d.delivered.getLast? = some addr ∧ (addr.length : ℤ) ≤ max n 0 ∧
        (0 < n → addr = [] → d.pipe.Empty ∧ d.pipe.writeopen = false)
  | _, _ => True

theorem code_guarded {P : Type} [DecidableEq P] :
    Guarded (code : P → Place → Instr Channel Chan Input Place) Place.Holds pipelock Known where
  other := nofun
  change := by
    intro p x f does out b d i
    cases x <;> cases does
    case user => cases i <;> rfl
    case kfree => rfl
    all_goals exact absurd rfl out
  held := by
    intro y
    cases y
    case writeFull n addr | writeWait n addr | readWakeup n addr | readRelease n addr =>
      exact .inr ⟨rfl, fun p x chan l does => by cases x <;> cases does⟩
    all_goals exact .inl fun _ => trivial
  compute := by
    intro p x f does b d i known
    cases x <;> cases does <;> dsimp only
    case user => cases i <;> trivial
    case writeLoop n addr =>
      split
      · trivial
      rename_i c rest d' eq
      split
      · trivial
      rename_i open_
      have full := Channel.full_store addr (d := d) (by rw [eq]; nofun)
      rw [eq] at full
      refine ⟨full, ?_⟩
      push Not at open_
      simpa using open_.1
    case readTest n =>
      split
      · split <;> trivial
      rename_i ready
      refine ⟨by simp, ?_, fun pos none => ?_⟩
      · have bound := Pipe.length_fetch (n := n.toNat) (p := d.pipe)
        omega
      obtain ⟨empty, same⟩ := Pipe.fetch_nil (p := d.pipe) (by omega) none
      dsimp only
      rw [same]
      refine ⟨empty, ?_⟩
      have closed : ¬ d.pipe.writeopen = true := fun open_ => ready ⟨empty, open_⟩
      simpa using closed
    case closeSet writable => cases writable <;> trivial
    all_goals trivial
  leads := by
    intro p x y goes d known
    cases x <;> cases goes
    case closeRelease free => cases free <;> trivial
    all_goals first | exact known | trivial

structure Orderly {P : Type} (s : Sleep.Machine P Channel Chan Place) : Prop where
  sound : Sound code Place.Holds s
  known : ∀ p, Known (s.places p) s.data
  flows : s.data.Flows

theorem Orderly.step {P : Type} [DecidableEq P] {s s' : Sleep.Machine P Channel Chan Place}
    {e : Sleep.Event P Input} (h : Orderly s) (st : Step code s e s') : Orderly s' where
  sound := h.sound.step code_discipline st
  known := code_guarded.step h.sound st h.known
  flows := by
    rcases st.place with ⟨data, -⟩ | ⟨p, x, y, -, -, ⟨data, -⟩ | ⟨f, i, does, eq⟩⟩
    · exact data ▸ h.flows
    · exact data ▸ h.flows
    have kept := h.flows.compute (b := (s.task p).killed) (i := i) does
    rwa [eq] at kept

theorem Orderly.start {P : Type} [DecidableEq P] (data : Fin PIPESIZE → Byte) :
    Orderly (init data : Sleep.Machine P Channel Chan Place) where
  sound := Sound.start _ fun _ _ => id
  known _ := trivial
  flows := ⟨[], Fifo.Holds.nil data 0#32, rfl⟩

/-- However calls on a pipe are interleaved: it holds at most `PIPESIZE` bytes; what was delivered
is the beginning of what was stored; and `piperead` returns the number of bytes, 0 for a positive
request only if the pipe is empty and closed for writing. -/
theorem pipe_is_fifo {P : Type} [DecidableEq P] (data : Fin PIPESIZE → Byte)
    (es : List (Sleep.Event P Input)) {s : Sleep.Machine P Channel Chan Place}
    (reached : exec (run (Sleep.step code) es) (init data) = (.ok ⟨⟩, s)) :
    (s.data.pipe.nwrite - s.data.pipe.nread).toNat ≤ PIPESIZE ∧
    s.data.delivered.flatten <+: s.data.stored ∧
    ∀ p n addr, s.places p = .readRelease n addr →
      s.data.delivered.getLast? = some addr ∧ (addr.length : ℤ) ≤ max n 0 ∧
        code p (s.places p) = .release pipelock (.user addr.length) ∧
        (0 < n → addr = [] →
          s.data.pipe.nread = s.data.pipe.nwrite ∧ s.data.pipe.writeopen = false) := by
  have h : Orderly s := of_run reached (.start data) fun s e h => h.step (next_step code s e)
  obtain ⟨q, held, eq⟩ := h.flows
  refine ⟨?_, ⟨q, eq.symm⟩, fun p n addr at_ => ?_⟩
  · rw [held.used lt_wrap]
    exact held.fits
  have known := h.known p
  rw [at_] at known
  exact ⟨known.1, known.2.1, by rw [at_]; rfl, known.2.2⟩

/-- Process 0 writes two bytes, and process 1 reads one of them and is about to return. -/
def oneByte : List (Sleep.Event (Fin 2) Input) :=
  List.replicate 8 (.run 0 (.pipewrite [104#8, 105#8])) ++
    List.replicate 7 (.run 1 (.piperead 1))

theorem pipe_is_fifo_oneByte :
    (exec (run (Sleep.step code) oneByte) (init fun _ => 0#8)).2.places 1 =
        .readRelease 1 [104#8] ∧
      (exec (run (Sleep.step code) oneByte) (init fun _ => 0#8)).2.data.delivered.flatten <+:
        (exec (run (Sleep.step code) oneByte) (init fun _ => 0#8)).2.data.stored := by
  have fifo := pipe_is_fifo (fun _ => 0#8) oneByte (exec_eq_of_ok rfl)
  exact ⟨by decide +kernel, fifo.2.1⟩

end Xv6.Pipes
