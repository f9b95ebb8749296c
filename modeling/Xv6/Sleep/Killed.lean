import Xv6.Sleep.Calls

/-!
# Killed while falling asleep

`kill` sets `killed` under `ptable.lock`, the loops of `piperead`, `pipewrite`, `consoleread` and
`sys_sleep` look at it under another lock.  A `kill` that comes after the test and before `sleep`
has `ptable.lock` finds the process running, and the process goes to sleep all the same.
-/

namespace Xv6.Sleep

open Lib

/-- After a test that found `killed` not set, and before the call of `sleep`. -/
def Call.Tested : Call → Prop
  | .prSleep _ _ | .pwWakeup _ _ | .pwSleep _ _ | .crSleep _ _ | .slSleep _ _ | .waSleep _ => True
  | _ => False

/-- Where a call goes on after it slept in its loop. -/
def Call.InLoop : Call → Prop
  | .prTest _ _ | .pwTest _ _ | .crEmpty _ _ | .slTest _ _ | .waScan _ => True
  | _ => False

section

variable {C : Type}

/-- Between the test of `killed` and the call of `sched`. -/
def Phase.Falling : Phase C Call → Prop
  | .running x => x.Tested
  | .wakeupAcquire _ y | .wakeupLoop _ y | .wakeupRelease y => y.Tested
  | .sleepAcquire _ _ y | .sleepRelease _ _ y | .sleepSet _ _ y => y.InLoop
  | _ => False

def Phase.AsleepInLoop : Phase C Call → Prop
  | .asleep _ y => y.InLoop
  | _ => False

end

/-! ## The tests -/

section

variable {P : Type} [DecidableEq P] {p : P} {x y : Call} {c : Chan P} {lk : SpinLock}

theorem calls_acquire (does : calls p x = .acquire lk y) : ¬ y.Tested := by
  cases x <;> cases does <;> exact id

theorem calls_release (does : calls p x = .release lk y) : ¬ y.Tested := by
  cases x <;> cases does <;> exact id

theorem calls_compute {f : Bool → World P → Decision P → World P × Call}
    (does : calls p x = .compute f) {killed : Bool} {d : World P} {i : Decision P}
    (tested : (f killed d i).2.Tested) : killed = false := by
  cases killed with
  | false => rfl
  | true =>
    exfalso
    cases x <;> cases does <;> revert tested <;> dsimp only
    all_goals first
      | exact id
      | (split <;> exact id)
      | (split_ifs <;> exact id)
      | simp [Call.Tested]

theorem calls_sleep (does : calls p x = .sleep c lk y) : ¬ y.Tested ∧ (y.InLoop → x.Tested) := by
  cases x <;> cases does <;> exact ⟨id, fun h => h⟩

theorem calls_wakeup (does : calls p x = .wakeup c y) (tested : y.Tested) : x.Tested := by
  cases x <;> cases does <;> exact tested

end

/-! ## The invariant -/

section

variable {P : Type} [DecidableEq P]

/-- Between the test of `killed` and the time at which `sleep` has `ptable.lock`. -/
def Phase.Window : Phase (Chan P) Call → Prop
  | .running x => x.Tested ∧ ¬ x.Holds .ptable
  | .wakeupAcquire _ y => y.Tested
  | .sleepAcquire _ _ y => y.InLoop
  | _ => False

/-- No process is killed between its test and `sleep`. -/
def Timely (s : Machine P (World P) (Chan P) Call) : Event P (Decision P) → Prop
  | .kill p => ¬ (s.task p).phase.Window
  | _ => True

structure Heeded (s : Machine P (World P) (Chan P) Call) : Prop where
  sound : Sound calls Call.Holds s
  falling : ∀ p, (s.task p).phase.Falling → (s.task p).killed = false
  asleep : ∀ p, (s.task p).state = .SLEEPING → (s.task p).phase.AsleepInLoop →
    (s.task p).killed = false

namespace Heeded

variable {s s' : Machine P (World P) (Chan P) Call}

section

variable (h : Heeded s)
include h

theorem of_own (sound : Sound calls Call.Holds s') (p : P)
    (others : ∀ q, q ≠ p → (s'.task q).phase = (s.task q).phase ∧
      (s'.task q).killed = (s.task q).killed ∧
      ((s'.task q).state = .SLEEPING → (s.task q).state = .SLEEPING))
    (falling : (s'.task p).phase.Falling → (s'.task p).killed = false)
    (asleep : (s'.task p).state = .SLEEPING → (s'.task p).phase.AsleepInLoop →
      (s'.task p).killed = false) : Heeded s' where
  sound := sound
  falling q falls := by
    by_cases same : q = p
    · subst same
      exact falling falls
    obtain ⟨phase, killed, -⟩ := others q same
    rw [phase] at falls
    exact killed.trans (h.falling q falls)
  asleep q slept loop := by
    by_cases same : q = p
    · subst same
      exact asleep slept loop
    obtain ⟨phase, killed, state⟩ := others q same
    rw [phase] at loop
    exact killed.trans (h.asleep q (state slept) loop)

theorem setTask {s₁ : Machine P (World P) (Chan P) Call} {p : P}
    {t : Task (Chan P) Call} (sound : Sound calls Call.Holds (s₁.setTask p t))
    (same : s₁.task = s.task) (falling : t.phase.Falling → t.killed = false)
    (asleep : t.state = .SLEEPING → t.phase.AsleepInLoop → t.killed = false) :
    Heeded (s₁.setTask p t) := by
  refine h.of_own sound p (fun q ne => ?_) ?_ ?_
  · rw [Machine.task_setTask_ne _ _ ne, same]
    exact ⟨rfl, rfl, id⟩
  · rwa [Machine.task_setTask_same]
  · rwa [Machine.task_setTask_same]

theorem setPhase {s₁ : Machine P (World P) (Chan P) Call} {p : P}
    {x : Phase (Chan P) Call} (sound : Sound calls Call.Holds (s₁.setPhase p x))
    (same : s₁.task = s.task) (run : (s.task p).state = .RUNNING)
    (falling : x.Falling → (s.task p).killed = false) : Heeded (s₁.setPhase p x) :=
  h.setTask sound same (same ▸ falling) fun slept => by simp [same, run] at slept

theorem wakes {c : Chan P} {p : P} {x : Phase (Chan P) Call}
    (sound : Sound calls Call.Holds ((s.wake c).setPhase p x)) (run : (s.task p).state = .RUNNING)
    (falling : x.Falling → (s.task p).killed = false) : Heeded ((s.wake c).setPhase p x) := by
  have self : (s.wake c).task p = s.task p := by simp [Machine.wake, run]
  refine h.of_own sound p (fun q ne => ?_) (fun falls => ?_) fun slept => ?_
  · rw [Machine.task_setPhase_ne _ _ ne]
    simp only [Machine.wake]
    split
    · simp
    · exact ⟨rfl, rfl, id⟩
  · rw [Machine.task_setPhase_same, self] at falls ⊢
    exact falling falls
  · rw [Machine.task_setPhase_same, self] at slept
    simp [run] at slept

/-- A process that is between its test and `sched` while `ptable.lock` is free is in the window. -/
theorem window {p : P} (free : s.lock .ptable = none)
    (falls : (s.task p).phase.Falling) : (s.task p).phase.Window := by
  have locks := h.sound.locks p .ptable
  have calls := h.sound.calls p
  rw [free] at locks
  generalize (s.task p).phase = x at falls locks calls
  cases x with
  | running x => exact ⟨falls, fun held => by simpa using locks held⟩
  | sleepAcquire c lk y | wakeupAcquire c y => exact falls
  | sleepRelease c lk y => simpa using locks ⟨calls.1, .inr rfl⟩
  | sleepSet c lk y => simpa using locks rfl
  | wakeupLoop c y | wakeupRelease y => simpa using locks (.inr rfl)
  | asleep lk y | awake lk y | reacquire lk y => exact falls.elim

theorem step {e : Event P (Decision P)} (timely : Timely s e)
    (st : Step calls s e s') : Heeded s' := by
  have sound := h.sound.step calls_discipline st
  have falling {p : P} {x : Phase (Chan P) Call} (here : (s.task p).phase = x) (falls : x.Falling) :
      (s.task p).killed = false := h.falling p (here ▸ falls)
  have from_ {p : P} {x : Phase (Chan P) Call} (here : (s.task p).phase = x) : x.From calls p :=
    here ▸ h.sound.calls p
  cases st with
  | idle => exact h
  | acquire run here does free =>
    exact h.setPhase sound rfl run fun falls => absurd falls (calls_acquire does)
  | release run here does =>
    exact h.setPhase sound rfl run fun falls => absurd falls (calls_release does)
  | @compute p i x y d f run here does result =>
    refine h.setPhase sound rfl run fun falls => ?_
    have tested : (f (s.task p).killed s.data i).2.Tested := by
      rw [result]
      exact falls
    exact calls_compute does tested
  | sleepTable run here does | sleepOther other run here does =>
    exact h.setPhase sound rfl run fun falls => falling here ((calls_sleep does).2 falls)
  | wakeup run here does =>
    exact h.setPhase sound rfl run fun falls => falling here (calls_wakeup does falls)
  | @wakeup1 p i x y c run here does => cases x <;> cases does
  | sleepAcquire run here free | sleepRelease run here | wakeupAcquire run here free
      | wakeupRelease run here =>
    exact h.setPhase sound rfl run fun falls => falling here falls
  | sleepSet run here =>
    exact h.setTask sound rfl False.elim fun _ loop => falling here loop
  | awakeTable run here =>
    obtain ⟨x, c, does⟩ := from_ here
    exact h.setTask sound rfl (fun falls => absurd falls (calls_sleep does).1)
      fun slept => by simp [run] at slept
  | awakeOther other run here =>
    exact h.setTask sound rfl False.elim fun slept => by simp [run] at slept
  | reacquire run here free =>
    obtain ⟨x, c, does⟩ := from_ here
    exact h.setPhase sound rfl run fun falls => absurd falls (calls_sleep does).1
  | wakeupLoop run here => exact h.wakes sound run fun falls => falling here falls
  | kill p free =>
    refine h.of_own sound p (fun q ne => ?_) (fun falls => ?_) fun slept => ?_
    · rw [Machine.kill, Machine.task_setTask_ne _ _ ne]
      exact ⟨rfl, rfl, id⟩
    · rw [Machine.kill, Machine.task_setTask_same] at falls
      exact absurd (h.window free falls) timely
    rw [Machine.kill, Machine.task_setTask_same] at slept
    dsimp only at slept
    split at slept
    · simp at slept
    · contradiction
  | take free | drop held => exact ⟨sound, h.falling, h.asleep⟩
  | dispatch held runnable here =>
    exact h.setTask sound rfl False.elim fun slept => by simp at slept

end

theorem start (d : World P) : Heeded (Machine.start d fun _ : P => Call.user) where
  sound := Sound.start d fun _ _ => id
  falling _ falls := falls.elim
  asleep _ slept := by simp [Machine.start] at slept

end Heeded

/-- If no process is killed between its test of `killed` and the time at which `sleep` has
`ptable.lock`, no killed process sleeps in one of the six calls. -/
theorem killed_not_asleep (d : World P) (es : List (Event P (Decision P)))
    {s : Machine P (World P) (Chan P) Call}
    (timely : Along (step calls) Timely es (Machine.start d fun _ => .user))
    (reached : exec (run (step calls) es) (Machine.start d fun _ => .user) = (.ok ⟨⟩, s)) (p : P)
    (killed : (s.task p).killed = true) (loop : (s.task p).phase.AsleepInLoop) :
    (s.task p).state ≠ .SLEEPING := by
  intro slept
  have heeded : Heeded s := wp_of_ok (Q := fun _ => Heeded) (E := anyStop)
    (timely.wp_run (fun s e h ok => h.step ok (next_step calls s e)) (Heeded.start d)) reached
  rw [heeded.asleep p slept loop] at killed
  cases killed

end

/-! ## Two runs -/

instance decidableTested (x : Call) : Decidable x.Tested := by
  cases x <;> simp only [Call.Tested] <;> infer_instance

instance decidableHolds (x : Call) (l : SpinLock) : Decidable (x.Holds l) := by
  cases x <;> simp only [Call.Holds] <;> infer_instance

instance decidableInLoop (x : Call) : Decidable x.InLoop := by
  cases x <;> simp only [Call.InLoop] <;> infer_instance

instance decidableWindow {P : Type} (x : Phase (Chan P) Call) : Decidable x.Window := by
  cases x <;> simp only [Phase.Window] <;> infer_instance

instance decidableAsleepInLoop {C : Type} (x : Phase C Call) : Decidable x.AsleepInLoop := by
  cases x <;> simp only [Phase.AsleepInLoop] <;> infer_instance

instance decidableTimely {P : Type} [DecidableEq P] (s : Machine P (World P) (Chan P) Call) :
    ∀ e, Decidable (Timely s e)
  | .kill p => inferInstanceAs (Decidable (¬ (s.task p).phase.Window))
  | .run _ _ | .take | .dispatch _ | .drop => inferInstanceAs (Decidable True)

/-- Empty pipes that are open at both ends, no console input, no children. -/
def quietWorld : World (Fin 2) where
  pipe := fun _ => .alloc fun _ => 0
  input := ⟨fun _ => 0, 0, 0⟩
  locked := true
  ticks := 0
  children := fun _ => []

/-- Process 0 calls `piperead` up to the test of `killed`, with `n` more steps. -/
def pipereadSteps (n : ℕ) : List (Event (Fin 2) (Decision (Fin 2))) :=
  .run 0 (.piperead 0 1) :: List.replicate n (.run 0 .wait)

def killedAsleep : List (Event (Fin 2) (Decision (Fin 2))) :=
  pipereadSteps 7 ++ [.drop, .kill 0]

theorem killed_not_asleep_piperead :
    let s := (exec (run (step calls) killedAsleep) (Machine.start quietWorld fun _ => .user)).2
    (s.task 0).killed = true ∧ (s.task 0).state ≠ .SLEEPING := by
  have timely : Along (step calls) Timely killedAsleep (Machine.start quietWorld fun _ => .user) := by
    decide +kernel
  have killed : ((exec (run (step calls) killedAsleep)
      (Machine.start quietWorld fun _ => .user)).2.task 0).killed = true := by decide +kernel
  exact ⟨killed, killed_not_asleep quietWorld killedAsleep timely (exec_eq_of_ok rfl) 0 killed
    (by decide +kernel)⟩

/-- It is killed after the test, and then calls `sleep`. -/
def killedFalling : List (Event (Fin 2) (Decision (Fin 2))) :=
  pipereadSteps 3 ++ [.kill 0] ++ List.replicate 4 (.run 0 .wait) ++ [.drop]

/-- It sleeps in `piperead` although it is killed, and `ptable.lock` is free. -/
theorem killedFalling_sleeps :
    let s := (exec (run (step calls) killedFalling) (Machine.start quietWorld fun _ => .user)).2
    s.lock .ptable = none ∧ (s.task 0).killed = true ∧ (s.task 0).state = .SLEEPING ∧
      (s.task 0).chan = some (.nread 0) ∧ (s.task 0).phase.AsleepInLoop := by
  decide +kernel

end Xv6.Sleep
