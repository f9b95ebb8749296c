import Xv6.Proc.Deeds

/-!
# Kill

`kill` takes the first slot with the given pid, whatever its state.  A slot that is not in use keeps
a pid: 0, or the pid of the child if a fork failed.  `allocproc` does not clear `killed`, so that a
slot that is hit while it is not in use makes a process that is killed from birth.
-/

namespace Xv6

open Lib

/-- A `kill` finds no slot that is not in use, and a fork that fails leaves none killed. -/
def Aimed (s : Kernel) : Event → Prop
  | .kill _ pid => ∀ p, (s.procs p).state = .UNUSED → (s.procs p).pid ≠ pid
  | .forkFail c => ∀ m ∈ s.current c, ∀ np ∈ (s.procs m).pos.child, (s.procs np).killed = false
  | _ => True

instance decidableAimed (s : Kernel) : ∀ e, Decidable (Aimed s e)
  | .kill _ pid =>
      inferInstanceAs (Decidable (∀ p, (s.procs p).state = .UNUSED → (s.procs p).pid ≠ pid))
  | .forkFail c => inferInstanceAs (Decidable (∀ m ∈ s.current c,
      ∀ np ∈ (s.procs m).pos.child, (s.procs np).killed = false))
  | .schedule _ | .resume _ | .timer _ | .trapNext _ | .wakeup _ | .syscall _ | .sysret _
  | .fork _ | .forkStack _ | .forkDone _ | .exit _ | .wait _ | .waitx _ | .sleep _ _ =>
      inferInstanceAs (Decidable True)

/-! ## Whom a kill hits -/

/-- Among the events is a `kill` of the process in slot `p`, while it existed. -/
def Hit (pol : Policy) (es : List Event) (p : Slot) (pid : ℤ) : Prop :=
  ∃ pre c post s, es = pre ++ .kill c pid :: post ∧
    exec (run (step pol) pre) Kernel.boot = (.ok ⟨⟩, s) ∧
    (s.procs p).state ≠ .UNUSED ∧ (s.procs p).pid = pid

theorem Hit.snoc {pol : Policy} {es : List Event} {p : Slot} {pid : ℤ} (h : Hit pol es p pid)
    (e : Event) : Hit pol (es ++ [e]) p pid := by
  obtain ⟨pre, c, post, s, rfl, reached, live⟩ := h
  exact ⟨pre, c, post ++ [e], s, by simp, reached, live⟩

/-- A slot that is marked as killed is in use, and its process was hit. -/
def Blamed (hit : Slot → ℤ → Prop) (v : View) : Prop :=
  ∀ p, (v.proc p).killed = true → (v.proc p).state ≠ .UNUSED ∧ hit p (v.proc p).pid

namespace Blamed

open View

variable {ends : ℤ → Prop} {hit : Slot → ℤ → Prop} {v v' : View}

section

variable (h : Blamed hit v)
include h

theorem set {p : Slot} {f : Core → Core}
    (own : (f (v.proc p)).killed = true →
      (f (v.proc p)).state ≠ .UNUSED ∧ hit p (f (v.proc p)).pid) : Blamed hit (v.set p f) := by
  intro q killed
  by_cases same : q = p
  · subst same
    rw [proc_set_same] at killed ⊢
    exact own killed
  rw [proc_set_ne v f same] at killed ⊢
  exact h q killed

theorem keep {p : Slot} {f : Core → Core} (killed : (f (v.proc p)).killed = (v.proc p).killed)
    (pid : (f (v.proc p)).pid = (v.proc p).pid)
    (state : (v.proc p).state ≠ .UNUSED → (f (v.proc p)).state ≠ .UNUSED) :
    Blamed hit (v.set p f) := by
  refine h.set fun marked => ?_
  obtain ⟨used, was⟩ := h p (killed ▸ marked)
  exact ⟨state used, pid.symm ▸ was⟩

theorem act (a : Act ends v v') : Blamed hit v' := by
  cases a with
  | enter | scan | leave | lock | unlock => exact h
  | dispatch c at_ at' m inside runnable =>
    exact h.keep (f := fun q => { q with state := .RUNNING }) rfl rfl (by simp)
  | wake chan =>
    intro p
    simp only [View.wake]
    split
    · exact fun killed => ⟨by simp, (h p killed).2⟩
    · exact h p
  | awake c at_ m run | walk m x old => exact h.keep rfl rfl id
  | birth c at_ m np run unused =>
    have clean : (v.proc np).killed ≠ true := fun killed => (h np killed).1 unused
    have born : Blamed hit (View.set { v with nextpid := v.nextpid + 1 } np
        fun q => { q with state := .EMBRYO, pid := v.nextpid }) :=
      set (v := { v with nextpid := v.nextpid + 1 }) h fun killed => absurd killed clean
    exact born.keep rfl rfl id
  | stack m np child => exact (h.keep (p := np) rfl rfl id).keep rfl rfl id
  | release c at_ m np run child =>
    have born : Blamed hit (v.set np fun q => { q with parent := some m, state := .RUNNABLE }) :=
      h.keep rfl rfl (by simp)
    exact born.keep rfl rfl id
  | stop c at_ m st chan r run held out waits =>
    refine h.keep (f := fun q => { q with state := st, chan := chan, resume := r }) rfl rfl fun _ => ?_
    rcases out with rfl | rfl <;> simp
  | exit c at_ m proc run held other ends_ table =>
    intro p killed
    by_cases self : p = m
    · subst self
      simp only [View.move, table.self] at killed ⊢
      exact ⟨by simp, (h p killed).2⟩
    obtain ⟨st, eq, woken⟩ := table.others p self
    simp only [View.move, eq] at killed ⊢
    refine ⟨?_, (h p killed).2⟩
    rcases woken with rfl | ⟨-, rfl⟩
    · exact (h p killed).1
    · simp
  | reap c at_ m p run child zombie => exact h.set (by simp)

theorem acts (a : Acts ends v v') : Blamed hit v' := by
  induction a with
  | refl => exact h
  | tail _ a ih => exact ih.act a

theorem abort {m np : Slot} (clean : (v.proc np).killed = false) : Blamed hit (v.abort m np) := by
  have gone : Blamed hit (v.set np fun q => { q with state := .UNUSED }) :=
    h.set fun killed => by simp [clean] at killed
  exact gone.keep rfl rfl id

theorem kill {p : Slot} (used : (v.proc p).state ≠ .UNUSED)
    (own : hit p (v.proc p).pid) : Blamed hit (v.kill p) := by
  refine h.set fun _ => ⟨?_, own⟩
  dsimp only
  split
  · simp
  · exact used

theorem mono {hit' : Slot → ℤ → Prop} (more : ∀ p pid, hit p pid → hit' p pid) : Blamed hit' v :=
  fun p killed => ⟨(h p killed).1, more p _ (h p killed).2⟩

end

theorem step {pol : Policy} {es : List Event} {s : Kernel} {e : Event}
    (h : Blamed (Hit pol es) s.view) (reached : exec (run (step pol) es) Kernel.boot = (.ok ⟨⟩, s))
    (aimed : Aimed s e) : wp (step pol e) (fun _ s' => Blamed (Hit pol (es ++ [e])) s'.view)
      anyStop s := by
  refine wp_imp (step_effect pol e) fun _ s' eff => ?_
  have h' : Blamed (Hit pol (es ++ [e])) s.view := h.mono fun _ _ hit => hit.snoc e
  generalize s'.view = v at eff
  cases eff with
  | acts _ _ a => exact h'.acts a
  | abort c m np current child => exact h'.abort (aimed m current np child)
  | kill c pid p found =>
    have used : (s.procs p).state ≠ .UNUSED := fun unused => aimed p unused found
    refine h'.kill used ⟨es, c, [], s, ?_, reached, used, rfl⟩
    exact congrArg (fun x => es ++ [Event.kill c x]) found.symm

end Blamed

/-! ## The result of a kill -/

theorem kill_result {s : Kernel} {pid : ℤ}
    (aimed : ∀ p, (s.procs p).state = .UNUSED → (s.procs p).pid ≠ pid) :
    ∃ r s', exec (kill pid) s = (.ok r, s') ∧ (r = 0 ∨ r = -1) ∧
      (r = 0 ↔ ∃ p, (s.procs p).state ≠ .UNUSED ∧ (s.procs p).pid = pid) ∧
      ∀ p, s'.procs p ≠ s.procs p → (s.procs p).state ≠ .UNUSED ∧ (s.procs p).pid = pid := by
  have spec : wp (kill pid) (fun r s' => (r = 0 ∨ r = -1) ∧
      (r = 0 ↔ ∃ p, (s.procs p).state ≠ .UNUSED ∧ (s.procs p).pid = pid) ∧
      ∀ p, s'.procs p ≠ s.procs p → (s.procs p).state ≠ .UNUSED ∧ (s.procs p).pid = pid)
      never s := by
    rw [kill, wp_bind, wp_get]
    split
    next none =>
      have nobody : ∀ p, (s.procs p).pid ≠ pid := by simpa using none
      rw [wp_pure]
      refine ⟨.inr rfl, ⟨by simp, fun found => ?_⟩, fun p h => absurd rfl h⟩
      obtain ⟨p, _, same⟩ := found
      exact absurd same (nobody p)
    rename_i p some
    have found := kill_find some
    have used : (s.procs p).state ≠ .UNUSED := fun unused => aimed p unused found
    simp only [modifyProc, wp_bind, wp_modify, wp_pure]
    refine ⟨.inl trivial, ⟨fun _ => ⟨p, used, found⟩, fun _ => trivial⟩, fun q changed => ?_⟩
    by_cases same : q = p
    · exact same ▸ ⟨used, found⟩
    · exact absurd (Function.update_of_ne same ..) changed
  unfold wp at spec
  split at spec
  · exact ⟨_, _, by assumption, spec⟩
  · exact spec.elim

/-- Where no `kill` finds a slot not in use and no fork fails whose child is killed: `kill` tells
whether there is a process with that pid, and marks only that. -/
theorem kill_affects_live (pol : Policy) (es : List Event) {s : Kernel}
    (aimed : Along (step pol) Aimed es Kernel.boot)
    (reached : exec (run (step pol) es) Kernel.boot = (.ok ⟨⟩, s)) :
    (∀ pid, (∀ p, (s.procs p).state = .UNUSED → (s.procs p).pid ≠ pid) →
      ∃ r s', exec (kill pid) s = (.ok r, s') ∧ (r = 0 ∨ r = -1) ∧
        (r = 0 ↔ ∃ p, (s.procs p).state ≠ .UNUSED ∧ (s.procs p).pid = pid) ∧
        ∀ p, s'.procs p ≠ s.procs p → (s.procs p).state ≠ .UNUSED ∧ (s.procs p).pid = pid) ∧
    ∀ p, (s.procs p).killed = true → Hit pol es p (s.procs p).pid := by
  refine ⟨fun pid clear => kill_result clear, fun p killed => ?_⟩
  have start : Blamed (Hit pol []) Kernel.boot.view := by
    intro p killed
    exact absurd killed (by revert p; decide)
  have blamed : Blamed (Hit pol es) s.view :=
    wp_of_ok (Q := fun _ s => Blamed (Hit pol es) s.view) (aimed.wp_trace
      (I := fun es s => Blamed (Hit pol es) s.view)
      (fun _ _ _ reached h ok => h.step reached ok) start) reached
  exact (blamed p killed).2

/-- The first process starts on CPU 0 and enters a system call. -/
def inSystemCall : List Event := [.schedule 0, .schedule 0, .resume 0, .sysret 0, .syscall 0]

def killChild : List Event :=
  inSystemCall ++ [.fork 0, .forkStack 0, .forkDone 0, .kill 0 2]

theorem kill_affects_live_child :
    let s := (exec (run (step .DEFAULT) killChild) Kernel.boot).2
    (s.procs 1).killed = true ∧ Hit .DEFAULT killChild 1 (s.procs 1).pid := by
  have aimed : Along (step .DEFAULT) Aimed killChild Kernel.boot := by decide +kernel
  have done : (exec (run (step .DEFAULT) killChild) Kernel.boot).1 = .ok ⟨⟩ := by decide +kernel
  have killed : ((exec (run (step .DEFAULT) killChild) Kernel.boot).2.procs 1).killed = true := by
    decide +kernel
  exact ⟨killed, (kill_affects_live .DEFAULT killChild aimed (exec_eq_of_ok done)).2 1 killed⟩

/-- The first process calls `kill` with 0, the pid of the slots that were never used, and forks. -/
def killZero : List Event :=
  inSystemCall ++ [.kill 0 0, .fork 0, .forkStack 0, .forkDone 0]

/-- The call returns 0 although no process has that pid, and the child is killed from birth. -/
theorem killZero_kills_child :
    let s := (exec (run (step .DEFAULT) inSystemCall) Kernel.boot).2
    let r := exec (run (step .DEFAULT) killZero) Kernel.boot
    (∀ p, (s.procs p).state ≠ .UNUSED → (s.procs p).pid ≠ 0) ∧ (exec (kill 0) s).1 = .ok 0 ∧
      r.1 = .ok ⟨⟩ ∧ (r.2.procs 1).state = .RUNNABLE ∧ (r.2.procs 1).pid = 2 ∧
      (r.2.procs 1).killed = true := by
  decide +kernel

end Xv6
