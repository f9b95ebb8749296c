import Xv6.Pipe.Pipe
import Xv6.Sleep.Waiting

/-!
# Sleeping on a pipe

A reader sleeps while the pipe is empty and its write end open, a writer while it is full and its
read end open.  What ends such a reason is followed by a `wakeup` before `p->lock` is released,
except where a `pipewrite` fills an empty pipe and then finds itself killed, or the read end closed.
-/

set_option linter.unusedSectionVars false

namespace Xv6.Pipes

open Lib Sleep

/-! ## Reasons to sleep -/

/-- Why a process may sleep; after an abandoned `pipewrite` a reader needs no reason. -/
def Channel.Reason (d : Channel) : Chan → Prop
  | .nread => d.abandoned = true ∨ d.pipe.Empty ∧ d.pipe.writeopen = true
  | .nwrite => d.pipe.Full ∧ d.pipe.readopen = true

def Place.Wakes : Place → Chan → Prop
  | .writeFull _ _, .nread | .writeWakeup _, .nread | .closeWakeup true, .nread => True
  | .readWakeup _ _, .nwrite | .closeWakeup false, .nwrite => True
  | _, _ => False

namespace Channel

theorem store_of_full {d : Channel} (full : d.pipe.Full) (addr : List Byte) :
    d.store addr = (addr, d) := by
  cases addr with
  | nil => rfl
  | cons c addr => rw [store, if_pos full]

theorem left_store (addr : List Byte) : ∀ {d : Channel} {q : List Byte}, d.pipe.Holds q →
    (d.store addr).1 = addr.drop (PIPESIZE - q.length) := by
  induction addr with
  | nil => simp [store]
  | cons c addr ih =>
    intro d q held
    have fits := held.fits
    rw [store]
    split
    next full =>
      rw [(held.full_iff lt_wrap).1 full]
      simp
    rename_i room
    have less : q.length ≠ PIPESIZE := fun all => room ((held.full_iff lt_wrap).2 all)
    have next : PIPESIZE - q.length = (PIPESIZE - (q ++ [c]).length) + 1 := by
      rw [List.length_append, List.length_singleton]
      omega
    rw [next, List.drop_succ_cons]
    exact ih (d := d.put c) (held.put dvd_wrap lt_wrap room c)

end Channel

section

variable {P : Type} [DecidableEq P] {p : P} {x : Place} {b : Bool} {d : Channel} {i : Input}
  {f : Bool → Channel → Input → Channel × Place} {c : Chan}

theorem reason_compute (does : code p x = .compute f) (why : d.Reason c) :
    (f b d i).1.Reason c ∨ (f b d i).2.Wakes c := by
  cases x <;> cases does <;> dsimp only
  case user => cases i <;> exact .inl why
  case writeLoop n addr =>
    obtain ⟨readopen, -, abandoned⟩ := Channel.flags_store addr d
    cases c with
    | nread =>
      split
      · exact .inr trivial
      rename_i rest d' eq
      rw [eq] at abandoned
      split
      · refine .inl (.inl ?_)
        rcases why with already | ⟨empty, -⟩
        · have mark : d'.abandoned = true := abandoned.trans already
          simp [mark]
        · simp [empty]
      · exact .inr trivial
    | nwrite =>
      have same := Channel.store_of_full why.1 addr
      rw [same]
      split
      next eq =>
        cases eq
        exact .inl why
      next eq =>
        cases eq
        split <;> exact .inl why
  case readTest n =>
    split
    · exact .inl why
    next ready =>
      cases c with
      | nread => exact .inl (.inl (why.resolve_right ready))
      | nwrite => exact .inr trivial
  case closeSet writable =>
    cases writable <;> cases c
    · exact .inl why
    · exact .inr trivial
    · exact .inr trivial
    · exact .inl why
  all_goals exact .inl why

theorem reason_of_sleep (known : Known x d) (does : code p x = .compute f) {lk : SpinLock}
    {z : Place} (sleeps : code p (f b d i).2 = .sleep c lk z) : (f b d i).1.Reason c := by
  cases x <;> cases does <;> dsimp only at sleeps ⊢
  case user => cases i <;> cases sleeps
  case writeLoop n addr =>
    repeat' split at sleeps
    all_goals cases sleeps
  case writeWait n addr =>
    cases sleeps
    exact known
  case readTest n =>
    split at sleeps
    next empty =>
      rw [if_pos empty]
      split at sleeps
      · cases sleeps
      cases sleeps
      exact .inr empty
    · cases sleeps
  case closeSet writable => cases writable <;> cases sleeps
  all_goals cases sleeps

theorem code_heralds :
    Heralds (code : P → Place → Instr Channel Chan Input Place) Place.Holds (fun _ => pipelock)
      (fun c d => d.Reason c) Place.Wakes (fun d places => ∀ p, Known (places p) d) where
  other _ := nofun
  sleep := by
    intro p x c lk y does
    cases x <;> cases does
    all_goals exact ⟨rfl, rfl⟩
  wakeup := by
    intro p x c wakes
    cases x <;> try exact wakes.elim
    case writeFull n addr | writeWakeup n | readWakeup n addr =>
      cases c <;> first | exact wakes.elim | exact ⟨_, rfl, rfl⟩
    case closeWakeup writable =>
      cases writable <;> cases c <;> first | exact wakes.elim | exact ⟨_, rfl, rfl⟩
  holds := by
    intro x c wakes
    cases x <;> first | exact wakes.elim | rfl
  leads := by
    intro p x y goes c lk z does
    cases y <;> cases does <;> cases x <;> try cases goes
    all_goals
      rename_i free
      cases free <;> cases goes
  falls := by
    intro d places p x f b i d' y known here does result c lk z sleeps
    have why := reason_of_sleep (b := b) (i := i) (here ▸ known p) does (by rw [result]; exact sleeps)
    rwa [result] at why
  ends := by
    intro d places p x f b i d' y known here does result c _ why
    have still := reason_compute (b := b) (i := i) does why
    rwa [result] at still

end

/-! ## Every interleaving -/

/-- No `pipewrite` with more than fits into the empty pipe has to give up. -/
def Calm {P : Type} (s : Sleep.Machine P Channel Chan Place) : Sleep.Event P Input → Prop
  | .run p _ =>
      match (s.task p).phase with
      | .running (.writeLoop _ addr) =>
          s.data.pipe.Empty → PIPESIZE < addr.length →
            s.data.pipe.readopen = true ∧ (s.task p).killed = false
      | _ => True
  | _ => True

instance {P : Type} (s : Sleep.Machine P Channel Chan Place) (e : Sleep.Event P Input) :
    Decidable (Calm s e) := by
  unfold Calm
  repeat' split
  all_goals infer_instance

structure Vigilant {P : Type} (s : Sleep.Machine P Channel Chan Place) : Prop where
  orderly : Orderly s
  sleepers : s.Sleepers code
  awaited : Awaited code Place.Holds (fun _ => pipelock) (fun c d => d.Reason c) Place.Wakes s

section

variable {P : Type} [DecidableEq P] {s s' : Sleep.Machine P Channel Chan Place}
  {e : Sleep.Event P Input}

theorem Vigilant.step (h : Vigilant s) (st : Step code s e s') : Vigilant s' where
  orderly := h.orderly.step st
  sleepers := h.orderly.sound.sleepers h.sleepers st
  awaited := h.awaited.step code_heralds h.orderly.sound h.sleepers h.orderly.known st

theorem Vigilant.start (data : Fin PIPESIZE → Byte) :
    Vigilant (init data : Sleep.Machine P Channel Chan Place) where
  orderly := .start data
  sleepers := Machine.sleepers_start _ _
  awaited := Awaited.start nofun

theorem abandoned_compute {p : P} {x : Place} {b : Bool} {d : Channel} {i : Input}
    {f : Bool → Channel → Input → Channel × Place} (does : code p x = .compute f)
    (flows : d.Flows) (calm : ∀ n addr, x = .writeLoop n addr → d.pipe.Empty →
      PIPESIZE < addr.length → d.pipe.readopen = true ∧ b = false) :
    (f b d i).1.abandoned = d.abandoned := by
  cases x <;> cases does <;> dsimp only
  case user => cases i <;> rfl
  case writeLoop n addr =>
    obtain ⟨readopen, -, abandoned⟩ := Channel.flags_store addr d
    split
    next d' eq =>
      rw [eq] at abandoned
      exact abandoned
    rename_i c rest d' eq
    rw [eq] at abandoned readopen
    split
    next gives =>
      dsimp only
      rw [abandoned]
      by_cases empty : d.pipe.Empty
      · -- what is left of an empty pipe's worth of bytes is none
        obtain ⟨q, held, -⟩ := flows
        obtain rfl := (held.empty_iff lt_wrap).1 empty
        have left := Channel.left_store addr held
        rw [eq] at left
        have long : PIPESIZE < addr.length := by
          by_contra short
          rw [List.drop_eq_nil_of_le (by simpa using short)] at left
          cases left
        obtain ⟨open_, alive⟩ := calm n addr rfl empty long
        rw [readopen, open_, alive] at gives
        simp at gives
      · simp [empty]
    · exact abandoned
  case readTest n => split <;> rfl
  case closeSet writable => cases writable <;> rfl

theorem abandoned_step (h : Orderly s) (calm : Calm s e) (st : Step code s e s') :
    s'.data.abandoned = s.data.abandoned := by
  cases st with
  | @compute p i x y d f run here does result =>
    have kept := abandoned_compute (b := (s.task p).killed) (i := i) does h.flows
      fun n addr at_ empty long => by
        subst at_
        simp only [Calm, here] at calm
        exact calm empty long
    rwa [result] at kept
  | _ => rfl

end

/-- As long as no `pipewrite` gives up with bytes left for an empty pipe: while `p->lock` is free,
who sleeps finds the pipe empty, or full, and its other end open. -/
theorem pipe_sleeps_for_reason {P : Type} [DecidableEq P] (data : Fin PIPESIZE → Byte)
    (es : List (Sleep.Event P Input)) (calm : Along (Sleep.step code) Calm es (init data))
    {s : Sleep.Machine P Channel Chan Place}
    (reached : exec (run (Sleep.step code) es) (init data) = (.ok ⟨⟩, s))
    (free : s.lock pipelock = none) (p : P) (slept : (s.task p).state = .SLEEPING) :
    ((s.task p).chan = some .nread →
      s.data.pipe.nread = s.data.pipe.nwrite ∧ s.data.pipe.writeopen = true) ∧
    ((s.task p).chan = some .nwrite →
      s.data.pipe.nwrite = s.data.pipe.nread + BitVec.ofNat 32 PIPESIZE ∧
        s.data.pipe.readopen = true) := by
  have kept := calm.wp_run (I := fun s => Vigilant s ∧ s.data.abandoned = false)
    (E := anyStop) (fun s e h calm => by
      have st := next_step code s e
      exact ⟨h.1.step st, (abandoned_step h.1.orderly calm st).trans h.2⟩)
    ⟨.start data, rfl⟩
  obtain ⟨h, unmarked⟩ := wp_of_ok kept reached
  have why (c : Chan) (chan : (s.task p).chan = some c) : s.data.Reason c :=
    h.awaited.reason_of_free code_heralds h.orderly.sound h.sleepers free slept chan
  refine ⟨fun chan => ?_, why .nwrite⟩
  rcases why .nread chan with marked | reason
  · rw [unmarked] at marked
    cases marked
  · exact reason

/-- Process 0 goes to sleep in `piperead`, and process 1 fills the pipe and waits for room. -/
def fillAndWait : List (Sleep.Event (Fin 2) Input) :=
  List.replicate 7 (.run 0 (.piperead 1)) ++ [.drop] ++
    List.replicate 12 (.run 1 (.pipewrite (List.replicate 513 0#8))) ++ [.drop]

theorem pipe_sleeps_for_reason_full :
    ((exec (run (Sleep.step code) fillAndWait) (init fun _ => 0#8)).2.task 1).chan =
        some .nwrite ∧
      (exec (run (Sleep.step code) fillAndWait) (init fun _ => 0#8)).2.data.pipe.readopen =
        true := by
  have waits := pipe_sleeps_for_reason (fun _ => 0#8) fillAndWait (by decide +kernel)
    (exec_eq_of_ok rfl) (by decide +kernel) 1 (by decide +kernel)
  have chan : ((exec (run (Sleep.step code) fillAndWait) (init fun _ => 0#8)).2.task 1).chan =
      some .nwrite := by decide +kernel
  exact ⟨chan, (waits.2 chan).2⟩

/-- Process 1 is killed before it does so. -/
def fillAndGiveUp : List (Sleep.Event (Fin 2) Input) :=
  List.replicate 7 (.run 0 (.piperead 1)) ++ [.drop, .kill 1] ++
    List.replicate 4 (.run 1 (.pipewrite (List.replicate 513 0#8)))

/-- Both locks are free, and process 0 sleeps in `piperead` on a full pipe. -/
theorem piperead_sleeps_on_full_pipe :
    (exec (run (Sleep.step code) fillAndGiveUp) (init fun _ => 0#8)).1 = .ok ⟨⟩ ∧
      (exec (run (Sleep.step code) fillAndGiveUp) (init fun _ => 0#8)).2.lock pipelock = none ∧
      (exec (run (Sleep.step code) fillAndGiveUp) (init fun _ => 0#8)).2.lock .ptable = none ∧
      ((exec (run (Sleep.step code) fillAndGiveUp) (init fun _ => 0#8)).2.task 0).state =
        .SLEEPING ∧
      ((exec (run (Sleep.step code) fillAndGiveUp) (init fun _ => 0#8)).2.task 0).chan =
        some .nread ∧
      (exec (run (Sleep.step code) fillAndGiveUp) (init fun _ => 0#8)).2.data.pipe.Full := by
  decide +kernel

end Xv6.Pipes
