import Xv6.Mem.Physical
import Xv6.Proc.Steps

/-!
# The two ways to reap a child

`wait` and `waitx` with everything they do to a child.  The two differ in the MLFQ build, where
`waitx` leaves the child in its queue; `wait_waitx_alike` says when that can be seen.
-/

namespace Xv6.Vm

open Lib Mem

/-- What the process table says about the memory and the name of a process. -/
structure Image where
  kstack : Option ℕ
  pgdir : Option ℕ
  name : Fin 16 → BitVec 8

/-- The kernel with the memory of its processes, and what the arguments of `waitx` point to. -/
structure System where
  kernel : Kernel
  phys : Phys
  image : Slot → Image
  wtime : ℤ
  rtime : ℤ
  console : String

abbrev SM := Prog System Fault

def onKernel {α : Type} (m : KM α) : SM α := zoom System.kernel (fun s k => { s with kernel := k }) m

def onMemory {α : Type} (m : VM α) : SM α := zoom System.phys (fun s p => { s with phys := p }) m

def modifyImage (p : Slot) (f : Image → Image) : SM PUnit :=
  modify fun s => { s with image := Function.update s.image p (f (s.image p)) }

/-! ## Reaping children -/

/-- `kfree` of a pointer that may be 0, which lies below `end`. -/
def kfreePtr : Option ℕ → VM PUnit
  | none => throw (.panic "kfree")
  | some v => kfree v

def freevm : Option ℕ → VM PUnit
  | none => throw (.panic "freevm: no pgdir")
  | some pgdir => Mem.freevm pgdir

def freeMemory (p : Slot) : SM PUnit := do
  let s ← get
  onMemory (kfreePtr (s.image p).kstack)
  modifyImage p fun x => { x with kstack := none }
  onMemory (freevm (s.image p).pgdir)

def freeSlot (p : Slot) : SM PUnit := do
  onKernel (modifyProc p Proc.free)
  modifyImage p fun x => { x with name := Function.update x.name 0 0 }
  onKernel (modify fun s => s.setLock none)

/-- In the MLFQ build `wait` removes the child from its queue. -/
def dequeue (pol : Policy) (q : Proc) : SM PUnit :=
  if pol = .MLFQ then onKernel (rem_process q.pid q.current_queue) else pure ⟨⟩

/-- One turn of the loop of `wait`, with `ptable.lock` held by CPU `c`. -/
def wait (pol : Policy) (c : ℕ) (m : Slot) : SM Waited := do
  let s ← get
  match zombieChild s.kernel m with
  | some p =>
      let q := s.kernel.procs p
      freeMemory p
      dequeue pol q
      freeSlot p
      return .reaped p q.pid
  | none =>
      if ¬ havekids s.kernel m ∨ (s.kernel.procs m).killed = true then
        onKernel (modify fun s => s.setLock none)
        return .failed
      else
        onKernel (sleep c m (.proc m) .wait)
        return .asleep

/-- The line that `waitx` prints. -/
def timesLine (q : Proc) : String :=
  "\netime " ++ toString q.etime ++ "  ctime " ++ toString q.ctime ++ "    rtime " ++
    toString q.rtime ++ "    iotime " ++ toString q.iotime ++ " \n"

def waitx (c : ℕ) (m : Slot) : SM Waited := do
  let s ← get
  match zombieChild s.kernel m with
  | some p =>
      let q := s.kernel.procs p
      modify fun s => { s with wtime := q.waitxTimes.1 }
      modify fun s => { s with console := s.console ++ timesLine q }
      modify fun s => { s with rtime := q.waitxTimes.2 }
      freeMemory p
      freeSlot p
      return .reaped p q.pid
  | none =>
      if ¬ (¬ havekids s.kernel m ∨ (s.kernel.procs m).killed = true) then
        onKernel (sleep c m (.proc m) .waitx)
        return .asleep
      else
        onKernel (modify fun s => s.setLock none)
        return .failed

/-! ## The model without memory -/

section

variable {s : System}

theorem freeMemory_kernel (p : Slot) :
    wp (freeMemory p) (fun _ s' => s'.kernel = s.kernel) anyStop s := by
  simp only [freeMemory, onMemory, modifyImage, wp_bind, wp_get, wp_zoom, wp_modify]
  exact wp_imp (wp_any _ _) fun _ _ _ => wp_any _ _

end

/-! ## What is left in the queues -/

/-- Every live entry of the queue that `current_queue` names has another pid. -/
def Unlisted (s : Kernel) (p : Slot) : Prop :=
  ∀ k, level (s.procs p).current_queue = some k → ∀ i < NPROC, (i : ℤ) ≤ (s.queue k).last →
    ∃ q, (s.queue k).slot i = some q ∧ (s.procs q).pid ≠ (s.procs p).pid

section

variable {s : Kernel} {p : Slot}

theorem rem_process_unlisted (h : Unlisted s p) :
    wp (rem_process (s.procs p).pid (s.procs p).current_queue) (fun _ s' => s' = s) never s := by
  unfold rem_process
  split
  · rfl
  rename_i k hk
  apply wp_forRange (I := fun _ s' => s' = s) _ (Nat.zero_le _) rfl
  rintro i _ hi rfl
  rw [wp_bind, wp_get, wp_ite, wp_pure]
  refine ⟨fun live => ?_, fun _ => rfl⟩
  obtain ⟨q, slot, other⟩ := h k hk i hi live
  simp only [wp_bind, entry, wp_get, slot, wp_pure, if_neg other]

theorem rem_process_listed (h : ¬ Unlisted s p) :
    wp (rem_process (s.procs p).pid (s.procs p).current_queue) (fun _ s' => s'.queue ≠ s.queue)
      anyStop s := by
  simp only [Unlisted, not_forall, not_exists, not_and, not_not] at h
  obtain ⟨k, hk, i₀, hi₀, live₀, found⟩ := h
  simp only [rem_process, hk]
  refine wp_imp (wp_forRange (E := anyStop)
    (I := fun i s' => s' = s ∧ i ≤ i₀ ∨ (s'.queue k).last < (s.queue k).last)
    (fun i s' hi inv => ?_) (Nat.zero_le _) (.inl ⟨rfl, Nat.zero_le _⟩)) ?_
  · simp only [wp_bind, wp_get, wp_ite, wp_pure, entry]
    refine ⟨fun live => ?_, fun dead => ?_⟩
    · split
      next q slot =>
        simp only [wp_pure, wp_set, Kernel.setQueue, Function.update_self, ArrayQueue.removeAt]
        rcases inv with ⟨rfl, le⟩ | shorter
        · refine ⟨fun _ => .inr (by omega), fun other => .inl ⟨rfl, ?_⟩⟩
          -- the entry that `rem_process` is to find lies ahead
          have ahead : i ≠ i₀ := fun here => other (found q (here ▸ slot))
          omega
        · exact ⟨fun _ => .inr (by omega), fun _ => .inr shorter⟩
      · trivial
    · rcases inv with ⟨rfl, le⟩ | shorter
      · have ahead : i ≠ i₀ := fun here => dead (here ▸ live₀)
        exact .inl ⟨rfl, by omega⟩
      · exact .inr shorter
  · rintro _ s' (⟨-, le⟩ | shorter) same
    · exact absurd hi₀ (Nat.not_lt.2 le)
    · exact absurd (same ▸ shorter) (lt_irrefl _)

end

/-! ## The times -/

/-- The state with other values where `waitx` stores and prints the times. -/
def System.withTimes (s : System) (wtime rtime : ℤ) (console : String) : System :=
  { s with wtime := wtime, rtime := rtime, console := console }

/-- A program that neither reads nor writes the stored times and the console. -/
def Blind {α : Type} (m : SM α) : Prop := ∀ s wtime rtime console,
  exec m (s.withTimes wtime rtime console) =
    ((exec m s).1, (exec m s).2.withTimes wtime rtime console)

theorem Blind.bind {α β : Type} {m : SM α} {f : α → SM β} (h : Blind m) (h' : ∀ a, Blind (f a)) :
    Blind (m >>= f) := by
  intro s w r c
  rw [exec_bind, exec_bind, h s w r c]
  rcases exec m s with ⟨_ | a, s'⟩
  · rfl
  · exact h' a s' w r c

theorem blind_onKernel {α : Type} (m : KM α) : Blind (onKernel m) := fun _ _ _ _ => rfl

theorem blind_onMemory {α : Type} (m : VM α) : Blind (onMemory m) := fun _ _ _ _ => rfl

theorem blind_modifyImage (p : Slot) (f : Image → Image) : Blind (modifyImage p f) :=
  fun _ _ _ _ => rfl

theorem blind_pure {α : Type} (a : α) : Blind (pure a) := fun _ _ _ _ => rfl

theorem blind_freeMemory (p : Slot) : Blind (freeMemory p) := by
  intro s
  have rest : Blind (do
      onMemory (kfreePtr (s.image p).kstack)
      modifyImage p fun x => { x with kstack := none }
      onMemory (freevm (s.image p).pgdir)) :=
    (blind_onMemory _).bind fun _ => (blind_modifyImage p _).bind fun _ => blind_onMemory _
  exact rest s

theorem blind_freeSlot (p : Slot) : Blind (freeSlot p) :=
  (blind_onKernel _).bind fun _ => (blind_modifyImage p _).bind fun _ => blind_onKernel _

/-- The code that `wait` and `waitx` share, for the child `p`. -/
def reap (p : Slot) (pid : ℤ) : SM Waited := do
  freeMemory p
  freeSlot p
  return .reaped p pid

theorem blind_reap (p : Slot) (pid : ℤ) : Blind (reap p pid) :=
  (blind_freeMemory p).bind fun _ => (blind_freeSlot p).bind fun _ => blind_pure _

section

variable {s : System} {pol : Policy} {c : ℕ} {m p : Slot}

variable (found : zombieChild s.kernel m = some p)
include found

theorem exec_waitx :
    exec (waitx c m) s =
      exec (reap p (s.kernel.procs p).pid) (s.withTimes (s.kernel.procs p).waitxTimes.1
        (s.kernel.procs p).waitxTimes.2 (s.console ++ timesLine (s.kernel.procs p))) := by
  rw [waitx, exec_get_bind]
  simp only [found]
  rfl

theorem exec_wait :
    exec (wait pol c m) s = exec (do
      freeMemory p
      dequeue pol (s.kernel.procs p)
      freeSlot p
      return .reaped p (s.kernel.procs p).pid) s := by
  rw [wait, exec_get_bind]
  simp only [found]

/-- `wait` is the shared code if `rem_process` does nothing. -/
theorem exec_wait_eq_reap
    (h : pol ≠ .MLFQ ∨ Unlisted s.kernel p) :
    exec (wait pol c m) s = exec (reap p (s.kernel.procs p).pid) s := by
  rw [exec_wait found, reap, exec_bind, exec_bind]
  have kernel := freeMemory_kernel (s := s) p
  rcases freed : exec (freeMemory p) s with ⟨_ | _, s₁⟩
  · rfl
  have same : s₁.kernel = s.kernel := wp_of_ok (Q := fun _ s' => s'.kernel = s.kernel) kernel freed
  have nothing : exec (dequeue pol (s.kernel.procs p)) s₁ = (.ok ⟨⟩, s₁) := by
    unfold dequeue
    split
    next mlfq =>
      have unlisted : Unlisted s₁.kernel p := same ▸ h.resolve_left (not_not.2 mlfq)
      obtain ⟨_, k, run, rfl⟩ := exists_ok_of_wp (rem_process_unlisted unlisted)
      rw [← same, onKernel, exec_zoom, run]
    · rfl
  simp only
  rw [exec_bind, nothing]

end

/-- `waitx` has the effect of `wait` but for the times that it stores and prints. -/
def Alike (pol : Policy) (c : ℕ) (m p : Slot) (s : System) : Prop :=
  exec (waitx c m) s = ((exec (wait pol c m) s).1,
    (exec (wait pol c m) s).2.withTimes (s.kernel.procs p).waitxTimes.1
      (s.kernel.procs p).waitxTimes.2 (s.console ++ timesLine (s.kernel.procs p)))

/-- Both end in the same way; the states differ at most in where the caller resumes. -/
def AlikeAsleep (pol : Policy) (c : ℕ) (m : Slot) (s : System) : Prop :=
  (exec (waitx c m) s).1 = (exec (wait pol c m) s).1 ∧
    ∃ r, (exec (waitx c m) s).2 = { (exec (wait pol c m) s).2 with
      kernel := (exec (wait pol c m) s).2.kernel.setProc m fun q => { q with resume := r } }

section

variable {s : System} {pol : Policy} {c : ℕ} {m p : Slot}

theorem alike_of_unlisted (found : zombieChild s.kernel m = some p)
    (h : pol ≠ .MLFQ ∨ Unlisted s.kernel p) : Alike pol c m p s := by
  rw [Alike, exec_waitx found, exec_wait_eq_reap found h]
  exact blind_reap p _ s _ _ _

theorem reap_queue (memory : wp (freeMemory p) anyStop never s) (pid : ℤ) :
    wp (reap p pid) (fun _ s' => s'.kernel.queue = s.kernel.queue) never s := by
  rw [reap, wp_bind]
  apply wp_mono (wp_and memory (freeMemory_kernel p)) _ fun _ _ h => h.1
  rintro _ s₁ ⟨-, same⟩
  simp only [freeSlot, onKernel, modifyImage, modifyProc, wp_bind, wp_zoom, wp_modify, wp_pure, ← same]
  rfl

theorem wait_queue (found : zombieChild s.kernel m = some p) (listed : ¬ Unlisted s.kernel p) :
    wp (wait .MLFQ c m) (fun _ s' => s'.kernel.queue ≠ s.kernel.queue) anyStop s := by
  simp only [wait, wp_bind, wp_get, found]
  apply wp_imp (freeMemory_kernel p)
  intro _ s₁ same
  simp only [dequeue, if_pos, freeSlot, onKernel, modifyImage, modifyProc, wp_bind, wp_zoom, wp_modify,
    wp_pure, same]
  exact wp_imp (rem_process_listed listed) fun _ _ changed => changed

theorem unlisted_of_alike (found : zombieChild s.kernel m = some p)
    (memory : wp (freeMemory p) anyStop never s)
    (alike : Alike .MLFQ c m p s) : Unlisted s.kernel p := by
  by_contra listed
  obtain ⟨a, s₁, run, same⟩ := exists_ok_of_wp (reap_queue memory (s.kernel.procs p).pid)
  rw [Alike, exec_waitx found, blind_reap, run] at alike
  obtain ⟨ok, states⟩ := Prod.mk.inj alike
  apply wp_of_ok (wait_queue (c := c) found listed) (exec_eq_of_ok ok.symm)
  have queues := congrArg (fun s' : System => s'.kernel.queue) states
  exact queues.symm.trans same

theorem exec_sched {k : Kernel} (r : Resume) (h : (k.procs m).state ≠ .RUNNING) :
    exec (sched c m r) k = match k.cpu c with
      | .running at_ _ => (.ok ⟨⟩, (k.setProc m fun q => { q with resume := r }).setCpu c
        (.back at_ m))
      | _ => (.error (.panic "sched locks"), k) := by
  show exec (if (k.procs m).state = .RUNNING then _ else _) k = _
  rw [if_neg h]
  cases k.cpu c <;> rfl

theorem exec_sleep (k : Kernel) (chan : Chan) (r r' : Resume) :
    (exec (sleep c m chan r') k).1 = (exec (sleep c m chan r) k).1 ∧
      ∃ x, (exec (sleep c m chan r') k).2 =
        (exec (sleep c m chan r) k).2.setProc m fun q => { q with resume := x } := by
  have runs (r : Resume) : exec (sleep c m chan r) k = exec (sched c m r)
      ((k.setLock (some c)).setProc m fun q => { q with chan := chan, state := .SLEEPING }) := rfl
  have asleep : (((k.setLock (some c)).setProc m fun q =>
      { q with chan := chan, state := .SLEEPING }).procs m).state ≠ .RUNNING := by
    simp [Kernel.setProc]
  rw [runs, runs, exec_sched r asleep, exec_sched r' asleep]
  generalize (k.setLock (some c)).setProc m _ = k₁
  cases k₁.cpu c with
  | running at_ _ =>
    refine ⟨rfl, r', ?_⟩
    simp [Kernel.setProc, Kernel.setCpu]
  | _ =>
    refine ⟨rfl, (k₁.procs m).resume, ?_⟩
    simp [Kernel.setProc]

/-- No child to wait for, or killed while waiting. -/
def Hopeless (k : Kernel) (m : Slot) : Prop := ¬ havekids k m ∨ (k.procs m).killed = true

theorem exec_hopeless (pol : Policy) (c : ℕ) (none : zombieChild s.kernel m = none)
    (gone : Hopeless s.kernel m) :
    exec (wait pol c m) s = (.ok .failed, { s with kernel := s.kernel.setLock .none }) ∧
      exec (waitx c m) s = (.ok .failed, { s with kernel := s.kernel.setLock .none }) := by
  unfold Hopeless at gone
  constructor
  · rw [wait, exec_get_bind]
    simp only [none]
    rw [if_pos gone]
    rfl
  rw [waitx, exec_get_bind]
  simp only [none]
  rw [if_neg (not_not.2 gone)]
  rfl

theorem exec_asleep (pol : Policy) (c : ℕ) (none : zombieChild s.kernel m = none)
    (stay : ¬ Hopeless s.kernel m) :
    let goToSleep (r : Resume) : SM Waited := do
      onKernel (sleep c m (.proc m) r)
      return .asleep
    exec (wait pol c m) s = exec (goToSleep .wait) s ∧
      exec (waitx c m) s = exec (goToSleep .waitx) s := by
  unfold Hopeless at stay
  constructor
  · rw [wait, exec_get_bind]
    simp only [none]
    rw [if_neg stay]
  rw [waitx, exec_get_bind]
  simp only [none]
  rw [if_pos stay]

theorem alikeAsleep_of_none (none : zombieChild s.kernel m = none) : AlikeAsleep pol c m s := by
  by_cases gone : Hopeless s.kernel m
  · obtain ⟨run, runx⟩ := exec_hopeless pol c none gone
    rw [AlikeAsleep, run, runx]
    refine ⟨rfl, (s.kernel.procs m).resume, ?_⟩
    simp [Kernel.setProc, Kernel.setLock]
  obtain ⟨run, runx⟩ := exec_asleep pol c none gone
  obtain ⟨same, x, states⟩ := exec_sleep (c := c) (m := m) s.kernel (.proc m) .wait .waitx
  rw [AlikeAsleep, run, runx]
  simp only [exec_bind, onKernel, exec_zoom, same]
  cases (exec (sleep c m (.proc m) .wait) s.kernel).1 with
  | ok _ | error _ => exact ⟨rfl, x, congrArg (fun k => { s with kernel := k }) states⟩

end

/-- With a zombie child, `waitx` does what `wait` does, apart from the times, in every build but
MLFQ, and there if the child has no queue entry that `wait` would remove; if its memory can be
freed, only then. Without one the two fail alike and sleep alike. -/
theorem wait_waitx_alike (pol : Policy) (c : ℕ) (m : Slot) (s : System) :
    (∀ p, zombieChild s.kernel m = some p →
      (pol ≠ .MLFQ ∨ Unlisted s.kernel p → Alike pol c m p s) ∧
      (wp (freeMemory p) (fun _ _ => True) (fun _ _ => False) s → Alike pol c m p s →
        pol ≠ .MLFQ ∨ Unlisted s.kernel p)) ∧
    (zombieChild s.kernel m = none → AlikeAsleep pol c m s) := by
  refine ⟨fun p found => ⟨alike_of_unlisted found, fun memory alike => ?_⟩, alikeAsleep_of_none⟩
  by_cases mlfq : pol = .MLFQ
  · subst mlfq
    exact .inr (unlisted_of_alike found memory alike)
  · exact .inl mlfq

def childExits : List Event :=
  [.schedule 0, .schedule 0, .resume 0, .fork 0, .forkStack 0, .forkDone 0, .sleep 0 (.addr 5),
    .schedule 0, .schedule 0, .resume 0, .syscall 0, .wakeup (.addr 5), .exit 0]

/-- The state after that run; the child has a kernel stack and an empty address space. -/
def zombieSystem (pol : Policy) : System where
  kernel := (exec (run (step pol) childExits) Kernel.boot).2
  phys := ⟨[], fun _ => .zero, 0x108, 0x400, 0x600⟩
  image := fun p => ⟨some (0x500 + p), some (0x600 + p), fun _ => 0⟩
  wtime := 0
  rtime := 0
  console := ""

theorem wait_waitx_alike_default : Alike .DEFAULT 0 0 1 (zombieSystem .DEFAULT) := by
  have found : zombieChild (zombieSystem .DEFAULT).kernel 0 = some 1 := by decide +kernel
  exact ((wait_waitx_alike .DEFAULT 0 0 (zombieSystem .DEFAULT)).1 1 found).1 (.inl (by decide))

/-- In the MLFQ build `waitx` leaves the slot that it frees in queue 0. -/
theorem waitx_leaves_entry :
    let s := zombieSystem .MLFQ
    let r := exec (wait .MLFQ 0 0) s
    let r' := exec (waitx 0 0) s
    zombieChild s.kernel 0 = some 1 ∧ r.1.isOk ∧ r'.1.isOk ∧ (r'.2.kernel.procs 1).pid = 0 ∧
      (r.2.kernel.queue 0).live = [some 0] ∧ (r'.2.kernel.queue 0).live = [some 0, some 1] := by
  decide +kernel

end Xv6.Vm
