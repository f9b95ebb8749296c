import Xv6.Proc.Reaping
import Xv6.Proc.Running

/-!
# What a pid stands for

A pid that `allocproc` has given away stands for one process for ever: no other slot ever has it,
and while its slot has it a kill is not undone and a zombie does not come to life again.
-/

namespace Xv6

open Lib View

/-- A pid is new or is gone, or its process is still killed, and still a zombie, if it was. -/
def View.Keeps (v v' : View) : Prop :=
  ∀ p, (v'.proc p).pid = v.nextpid ∨ (v'.proc p).pid = 0 ∨ (v'.proc p).pid = (v.proc p).pid ∧
    ((v.proc p).killed = true → (v'.proc p).killed = true) ∧
    ((v.proc p).state = .ZOMBIE → (v'.proc p).state = .ZOMBIE)

theorem View.Act.keeps {ends : ℤ → Prop} {v v' : View} (sane : v.life.Sane) (a : Act ends v v') :
    v.Keeps v' := by
  intro p
  cases a with
  | enter | scan | leave | lock | unlock => exact .inr (.inr ⟨rfl, id, id⟩)
  | awake | walk | birth | stack | reap =>
    simp only [proc_set]
    split_ifs <;> simp_all
  | release c at_ m np run child =>
    have embryo : (v.proc np).state = .EMBRYO := sane.embryo m np child
    simp only [proc_set]
    split_ifs <;> simp_all
  | dispatch =>
    simp only [View.move, proc_set]
    split <;> simp_all
  | wake =>
    simp only [View.wake]
    split <;> simp_all
  | stop c at_ m st chan r run =>
    have running : (v.proc m).state = .RUNNING := sane.running c m (congrArg Cpu.proc run)
    simp only [View.move, proc_set]
    split <;> simp_all
  | exit c at_ m proc run held other ends_ table =>
    simp only [View.move]
    by_cases self : p = m
    · simp [self, table.self]
    · obtain ⟨st, eq, rfl | ⟨asleep, -⟩⟩ := table.others p self <;> simp_all

/-- Only slot `p` can have the pid of `q`, and then it is at least as killed and as dead as `q`. -/
structure Stands (q : Core) (p : Slot) (v : View) : Prop where
  sane : v.life.Sane
  old : q.pid < v.nextpid
  only : ∀ r, (v.proc r).pid = q.pid → r = p ∧ (q.killed = true → (v.proc r).killed = true) ∧
    (q.state = .ZOMBIE → (v.proc r).state = .ZOMBIE)

namespace Stands

variable {q : Core} {p : Slot} {v v' : View}

theorem next (h : Stands q p v) (named : q.pid ≠ 0) (sane : v'.life.Sane)
    (nextpid : v.nextpid ≤ v'.nextpid) (keeps : v.Keeps v') : Stands q p v' := by
  refine ⟨sane, h.old.trans_le nextpid, fun r same => ?_⟩
  rcases keeps r with new | gone | ⟨pid, killed, zombie⟩
  · exact absurd h.old (by rw [← same, new]; exact lt_irrefl _)
  · exact absurd (same.symm.trans gone) named
  obtain ⟨here, h₁, h₂⟩ := h.only r (pid.symm.trans same)
  exact ⟨here, killed ∘ h₁, zombie ∘ h₂⟩

theorem effect {s : Kernel} {e : Event} (h : Stands q p s.view) (named : q.pid ≠ 0)
    (eff : Effect s e v) : Stands q p v := by
  have sane := Life.Sane.effect h.sane eff
  have nextpid := (Settled.effect_renames eff).nextpid
  cases eff with
  | acts _ _ a =>
    clear sane nextpid
    induction a with
    | refl => exact h
    | tail _ a ih => exact ih.next named (ih.sane.act a) a.renames.nextpid (a.keeps ih.sane)
  | abort c m np current child =>
    have embryo : (s.view.proc np).state = .EMBRYO := h.sane.embryo m np child
    refine h.next named sane nextpid fun r => .inr (.inr ?_)
    simp only [View.abort, proc_set]
    split_ifs <;> simp_all
  | kill c pid r' found =>
    refine h.next named sane nextpid fun r => .inr (.inr ?_)
    simp only [View.kill, proc_set]
    split_ifs <;> simp_all

end Stands

/-- Whatever happens after a process got its pid: only its slot can have this pid, and while it has
the process stays killed once it is killed, and a zombie once it has exited. -/
theorem pid_stands_for_process (pol : Policy) (es es' : List Event) {s s' : Kernel} {p q : Slot}
    (reached : exec (run (step pol) es) Kernel.boot = (.ok ⟨⟩, s))
    (later : exec (run (step pol) es') s = (.ok ⟨⟩, s')) (named : (s.procs p).pid ≠ 0)
    (same : (s'.procs q).pid = (s.procs p).pid) :
    q = p ∧ ((s.procs p).killed = true → (s'.procs p).killed = true) ∧
      ((s.procs p).state = .ZOMBIE → (s'.procs p).state = .ZOMBIE) := by
  have sane := (Seated.of_run reached).sane
  have start : Stands (s.view.proc p) p s.view :=
    ⟨sane, sane.fresh p, fun r eq => by
      obtain rfl : r = p := sane.pids r p eq fun zero => named (eq.symm.trans zero)
      exact ⟨rfl, id, id⟩⟩
  have kept := of_run (I := fun s' => Stands (s.view.proc p) p s'.view) later start fun s₁ e h =>
    wp_imp (step_effect pol e) fun _ _ eff => h.effect named eff
  obtain ⟨rfl, both⟩ := kept.only q same
  exact ⟨rfl, both⟩

/-- The first process forks and kills the child, which goes on on CPU 1. -/
def childOnCpuOne : List Event :=
  [.schedule 0, .schedule 0, .resume 0, .sysret 0, .syscall 0, .fork 0, .forkStack 0, .forkDone 0,
    .kill 0 2, .schedule 1, .schedule 1, .schedule 1, .resume 1]

theorem pid_stands_for_process_child :
    let s := (exec (run (step .DEFAULT) childOnCpuOne) Kernel.boot).2
    let s' := (exec (run (step .DEFAULT) [.syscall 1, .exit 1]) s).2
    (s'.procs 1).killed = true ∧ (s'.procs 1).state = .ZOMBIE := by
  have done : (exec (run (step .DEFAULT) childOnCpuOne) Kernel.boot).1 = .ok ⟨⟩ := by decide +kernel
  have ended : (exec (run (step .DEFAULT) [.syscall 1, .exit 1])
      (exec (run (step .DEFAULT) childOnCpuOne) Kernel.boot).2).1 = .ok ⟨⟩ := by decide +kernel
  have result := pid_stands_for_process .DEFAULT childOnCpuOne _ (p := 1) (q := 1)
    (exec_eq_of_ok done) (exec_eq_of_ok ended) (by decide +kernel) (by decide +kernel)
  exact ⟨result.2.1 (by decide +kernel), by decide +kernel⟩

end Xv6
