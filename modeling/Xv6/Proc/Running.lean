import Xv6.Proc.Deeds

/-!
# One CPU for a running process

A scheduler holds `ptable.lock` from the time it looks for a process until that process releases the
lock, and again from a call of `sched`.  So CPUs and states can disagree only while some CPU holds
the lock.
-/

namespace Xv6

open Lib

/-- The field `proc` of a CPU; it is cleared after `swtch` has come back. -/
def Cpu.procField : Cpu → Option Slot
  | .running _ m | .back _ m => some m
  | .top | .scan _ => none

/-- In the part of the scheduler that holds `ptable.lock`. -/
def Cpu.Inside (x : Cpu) : Prop := (∃ at_, x = .scan at_) ∨ ∃ at_ m, x = .back at_ m

/-- The CPUs and the running processes. -/
structure Seated (v : View) : Prop where
  sane : v.life.Sane
  held : ∀ c, (v.cpu c).Inside → v.lock = some c
  runs : ∀ p, (v.proc p).state = .RUNNING → ∃ c at_, v.cpu c = .running at_ p

namespace Seated

open View

variable {ends : ℤ → Prop} {v v' : View}

/-- No process starts to run. -/
def NoStart (v v' : View) : Prop :=
  ∀ p, (v'.proc p).state = .RUNNING → (v.proc p).state = .RUNNING

theorem NoStart.set (h : NoStart v v') {p : Slot} {f : Core → Core}
    (own : (f (v'.proc p)).state = .RUNNING → (v'.proc p).state = .RUNNING) :
    NoStart v (v'.set p f) := by
  intro q run
  refine h q ?_
  by_cases same : q = p
  · subst same
    exact own (by simpa using run)
  · rwa [proc_set_ne v' f same] at run

theorem NoStart.refl (v : View) : NoStart v v := fun _ run => run

section

variable (h : Seated v)
include h

theorem of_states (sane : v'.life.Sane) (lock : v'.lock = v.lock)
    (cpu : v'.cpu = v.cpu) (state : NoStart v v') : Seated v' where
  sane := sane
  held c inside := lock.trans (h.held c (cpu ▸ inside))
  runs p run := cpu ▸ h.runs p (state p run)

theorem of_move {c : ℕ} {x : Cpu} {l : Option ℕ} (sane : (v.move c x l).life.Sane)
    (idle : ∀ at_ m, v.cpu c ≠ .running at_ m) (here : x.Inside → l = some c)
    (there : ∀ c', c' ≠ c → ¬ (v.cpu c').Inside) : Seated (v.move c x l) where
  sane := sane
  held c' inside := by
    by_cases same : c' = c
    · subst same
      exact here (by simpa [View.move] using inside)
    · exact absurd (by simpa [View.move, same] using inside) (there c' same)
  runs p run := by
    obtain ⟨c', at_, running⟩ := h.runs p run
    have other : c' ≠ c := fun same => idle at_ p (same ▸ running)
    exact ⟨c', at_, by simpa [View.move, other] using running⟩

theorem outside {c : ℕ} (held : v.lock = some c) (c' : ℕ) (ne : c' ≠ c) :
    ¬ (v.cpu c').Inside := fun inside => by
  rw [h.held c' inside] at held
  exact ne (Option.some.inj held)

theorem of_leave {c : ℕ} {m : Slot} {at_ : Place} {proc : Slot → Core}
    (sane : ({ v with proc := proc }.move c (.back at_ m) v.lock).life.Sane)
    (run : v.cpu c = .running at_ m) (held : v.lock = some c) (self : (proc m).state ≠ .RUNNING)
    (others : ∀ p, p ≠ m → (proc p).state = .RUNNING → (v.proc p).state = .RUNNING) :
    Seated ({ v with proc := proc }.move c (.back at_ m) v.lock) where
  sane := sane
  held c' inside := by
    by_cases same : c' = c
    · exact same ▸ held
    · exact absurd (by simpa [View.move, same] using inside) (h.outside held c' same)
  runs p running := by
    have ne : p ≠ m := fun same => self (same ▸ running)
    obtain ⟨c', at', there⟩ := h.runs p (others p ne running)
    have other : c' ≠ c := fun same => by
      rw [same, run] at there
      cases there
      exact ne rfl
    exact ⟨c', at', by simpa [View.move, other] using there⟩

theorem act (a : Act ends v v') : Seated v' := by
  have sane := h.sane.act a
  have idle {c : ℕ} (inside : (v.cpu c).Inside) (at_ : Place) (m : Slot) :
      v.cpu c ≠ .running at_ m := by
    rcases inside with ⟨x, hx⟩ | ⟨x, m', hx⟩ <;> simp [hx]
  cases a with
  | enter c at_ top free =>
    refine h.of_move sane (by simp [top]) (fun _ => rfl) fun c' _ inside => ?_
    simp [h.held c' inside] at free
  | scan c at_ inside =>
    exact h.of_move sane (idle inside) (fun _ => h.held c inside) (h.outside (h.held c inside))
  | leave c at_ inside =>
    have inside : (v.cpu c).Inside := .inl ⟨at_, inside⟩
    refine h.of_move sane (idle inside) (fun top => ?_) (h.outside (h.held c inside))
    rcases top with ⟨_, top⟩ | ⟨_, _, top⟩ <;> cases top
  | dispatch c at_ at' m inside runnable =>
    have inside : (v.cpu c).Inside := .inl ⟨at_, inside⟩
    refine ⟨sane, fun c' inside' => ?_, fun p running => ?_⟩
    · have ne : c' ≠ c := fun same => by
        simp [View.move, same, Cpu.Inside] at inside'
      exact h.held c' (by simpa [View.move, View.set, ne] using inside')
    by_cases same : p = m
    · exact ⟨c, at', by simp [View.move, same]⟩
    have was : (v.proc p).state = .RUNNING := by
      simpa [View.move, View.set, same] using running
    obtain ⟨c', at'', there⟩ := h.runs p was
    have ne : c' ≠ c := fun same => idle inside at'' p (same ▸ there)
    exact ⟨c', at'', by simpa [View.move, View.set, ne] using there⟩
  | lock c at_ m run free =>
    refine ⟨sane, fun c' inside => ?_, h.runs⟩
    simp [h.held c' inside] at free
  | unlock c at_ m run held =>
    refine ⟨sane, fun c' inside => ?_, h.runs⟩
    have same : c' = c := by_contra fun ne => h.outside held c' ne inside
    exact absurd run (idle (same ▸ inside) at_ m)
  | wake chan =>
    refine h.of_states sane rfl rfl fun p => ?_
    simp only [View.wake]
    split <;> simp
  | awake c at_ m run | walk m x old => exact h.of_states sane rfl rfl ((NoStart.refl v).set id)
  | birth c at_ m np run unused =>
    have base : NoStart v { v with nextpid := v.nextpid + 1 } := NoStart.refl v
    have born : NoStart v (View.set { v with nextpid := v.nextpid + 1 } np
        fun q => { q with state := .EMBRYO, pid := v.nextpid }) := base.set (by simp)
    exact h.of_states sane rfl rfl (born.set id)
  | stack m np child => exact h.of_states sane rfl rfl (((NoStart.refl v).set id).set id)
  | release c at_ m np run child =>
    have born : NoStart v (v.set np fun q => { q with parent := some m, state := .RUNNABLE }) :=
      (NoStart.refl v).set (by simp)
    exact h.of_states sane rfl rfl (born.set id)
  | stop c at_ m st chan r run held out waits =>
    refine h.of_leave sane run held ?_ fun p ne => ?_
    · rw [Function.update_self]
      rcases out with rfl | rfl <;> simp
    rw [Function.update_of_ne ne]
    exact id
  | exit c at_ m proc run held other ends_ table =>
    refine h.of_leave sane run held (by simp [table.self]) fun p ne => ?_
    obtain ⟨st, eq, woken⟩ := table.others p ne
    rw [eq]
    rcases woken with rfl | ⟨-, rfl⟩
    · exact id
    · simp
  | reap c at_ m p run child zombie =>
    exact h.of_states sane rfl rfl ((NoStart.refl v).set (by simp))

theorem acts (a : Acts ends v v') : Seated v' := by
  induction a with
  | refl => exact h
  | tail _ a ih => exact ih.act a

end

theorem step {s : Kernel} (h : Seated s.view) (pol : Policy) (e : Event) :
    wp (step pol e) (fun _ s' => Seated s'.view) anyStop s := by
  refine wp_imp (step_effect pol e) fun _ s' eff => ?_
  have sane := h.sane.effect eff
  generalize s'.view = v at eff sane
  cases eff with
  | acts _ _ a => exact h.acts a
  | abort c m np current child =>
    have gone : NoStart s.view (s.view.set np fun q => { q with state := .UNUSED }) :=
      (NoStart.refl _).set (by simp)
    exact h.of_states sane rfl rfl (gone.set id)
  | kill c pid p found =>
    refine h.of_states sane rfl rfl ((NoStart.refl _).set ?_)
    dsimp only
    split <;> simp

theorem boot : Seated Kernel.boot.view where
  sane := boot_sane
  held c inside := by
    have top : Kernel.boot.view.cpu c = .top := rfl
    rw [top] at inside
    rcases inside with ⟨_, h⟩ | ⟨_, _, h⟩ <;> cases h
  runs p running := absurd running (by revert p; decide)

theorem running {s : Kernel} (h : Seated s.view) (free : s.lock = none) {c : ℕ} {p : Slot}
    (field : (s.cpu c).procField = some p) : (s.cpu c).proc = some p := by
  match here : s.cpu c with
  | .top | .scan _ => simp [here, Cpu.procField] at field
  | .running _ m =>
    rw [here] at field
    exact field
  | .back at_ m =>
    have held : s.lock = some c := h.held c (.inr ⟨at_, m, here⟩)
    simp [free] at held

theorem of_run {pol : Policy} {es : List Event} {s : Kernel}
    (reached : exec (run (Xv6.step pol) es) Kernel.boot = (.ok ⟨⟩, s)) : Seated s.view :=
  Lib.of_run (I := fun s => Seated s.view) reached boot fun _ e h => h.step pol e

end Seated

/-- Whenever `ptable.lock` is free, a process is `RUNNING` exactly if it is the process of exactly
one CPU, and the process of a CPU is `RUNNING`. -/
theorem running_iff_on_one_cpu (pol : Policy) (es : List Event) {s : Kernel}
    (reached : exec (run (step pol) es) Kernel.boot = (.ok ⟨⟩, s)) (free : s.lock = none) :
    (∀ p, (s.procs p).state = .RUNNING ↔ ∃! c, (s.cpu c).procField = some p) ∧
      ∀ c p, (s.cpu c).procField = some p → (s.procs p).state = .RUNNING := by
  have seated := Seated.of_run reached
  have fields (c : ℕ) (p : Slot) (field : (s.cpu c).procField = some p) :
      (s.procs p).state = .RUNNING := seated.sane.running c p (seated.running free field)
  refine ⟨fun p => ⟨fun running => ?_, fun ⟨c, field, _⟩ => fields c p field⟩, fields⟩
  obtain ⟨c, at_, here⟩ := seated.runs p running
  have here : s.cpu c = .running at_ p := here
  refine ⟨c, by simp [here, Cpu.procField], fun c' field => ?_⟩
  exact seated.sane.alone c' c p (seated.running free field) (congrArg Cpu.proc here)

/-- The first process forks on CPU 0, and CPU 1 runs the child. -/
def twoRunning : List Event :=
  [.schedule 0, .schedule 0, .resume 0, .sysret 0, .syscall 0, .fork 0, .forkStack 0, .forkDone 0,
    .schedule 1, .schedule 1, .schedule 1, .resume 1]

theorem running_iff_on_one_cpu_child :
    let s := (exec (run (step .DEFAULT) twoRunning) Kernel.boot).2
    (s.procs 1).state = .RUNNING ∧ ∃! c, (s.cpu c).procField = some 1 := by
  have done : (exec (run (step .DEFAULT) twoRunning) Kernel.boot).1 = .ok ⟨⟩ := by decide +kernel
  have free : (exec (run (step .DEFAULT) twoRunning) Kernel.boot).2.lock = none := by decide +kernel
  have running : ((exec (run (step .DEFAULT) twoRunning) Kernel.boot).2.procs 1).state = .RUNNING :=
    by decide +kernel
  have result := running_iff_on_one_cpu .DEFAULT twoRunning (exec_eq_of_ok done) free
  exact ⟨running, (result.1 1).1 running⟩

end Xv6
