import Xv6.Proc.Effects

/-!
# What a step of the kernel consists of

A `Deed` is a part of a step that leaves the queues, the clock and the ranks alone.  `step_rule`
cuts every step into deeds and the few places where something else happens.  The rules for
invariants of the queues (`step_keeps`) and for views (`step_effect`) follow from it.
-/

namespace Xv6

open Lib Function View

variable {e : Event} {at_ : Place} {f : Proc → Proc} {m np p : Slot} {c : ℕ} {s s' : Kernel}
  {ends : ℤ → Prop} {E : Fault → Kernel → Prop}

/-- What becomes of process `p`: it goes on as `q`. -/
inductive Fate (s : Kernel) (p : Slot) (q : Proc) : Prop where
  | gone (unused : q.state = .UNUSED)
  | same (pid : q.pid = (s.procs p).pid) (times : q.times = (s.procs p).times)
      (state : q.state = (s.procs p).state ∨ (s.procs p).state.Active ∧ q.state.Active)
  | ready (m : Slot) (copying : (s.procs m).pos = .copying p)
      (embryo : (s.procs p).state = .EMBRYO) (pid : q.pid = (s.procs p).pid)
      (times : q.times = (s.procs p).times) (active : q.state.Active)
  | ended (pid : q.pid = (s.procs p).pid) (active : (s.procs p).state.Active)
      (zombie : q.state = .ZOMBIE)
      (times : q.times = { (s.procs p).times with etime := s.ticks.toInt })

structure Goes (s : Kernel) (p : Slot) (q : Proc) : Prop where
  rank : q.rank = (s.procs p).rank
  pos : ∀ np, q.pos = .copying np → (s.procs p).pos = .copying np
  fate : s.life.Sane → Fate s p q

theorem Goes.refl (s : Kernel) (p : Slot) : Goes s p (s.procs p) :=
  ⟨rfl, fun _ => id, fun _ => .same rfl rfl (.inl rfl)⟩

theorem goes_setProc (h : Goes s p (f (s.procs p))) (r : Slot) :
    Goes s r ((s.setProc p f).procs r) := by
  simp only [Kernel.setProc, update_apply]
  split
  next same => exact same ▸ h
  · exact .refl s r

/-- How a CPU goes on: outside the scheduler, a process can give it back. -/
structure Cpu.Turn (e : Event) (x x' : Cpu) : Prop where
  table : x.OnTable → x'.OnTable
  own : (∀ c, e ≠ .schedule c) → x' = x ∨ ∃ at_ m, x = .running at_ m ∧ x' = .back at_ m

theorem Cpu.Turn.refl (e : Event) (x : Cpu) : x.Turn e x := ⟨id, fun _ => .inl rfl⟩

theorem Cpu.Turn.back (e : Event) (at_ : Place) (m : Slot) :
    (Cpu.running at_ m).Turn e (.back at_ m) where
  table := by cases at_ <;> exact id
  own _ := .inr ⟨at_, m, rfl, rfl⟩

structure Deed (ends : ℤ → Prop) (e : Event) (s s' : Kernel) : Prop where
  queue : s'.queue = s.queue
  ticks : s'.ticks = s.ticks
  nextpid : s'.nextpid = s.nextpid
  cpu : ∃ x, s'.cpu = update s.cpu e.cpu x ∧ (s.cpu e.cpu).Turn e x
  goes : ∀ p, Goes s p (s'.procs p)
  moves : Life.Moves s.life s'.life
  acts : (∀ c pid, e ≠ .kill c pid) → (∀ c, e ≠ .forkFail c) → Acts ends s.view s'.view

/-- Every CPU does what it did before, or the process that ran on it has given it back. -/
def Turned (s s' : Kernel) : Prop :=
  ∀ c, s'.cpu c = s.cpu c ∨ ∃ at_ m, s.cpu c = .running at_ m ∧ s'.cpu c = .back at_ m

namespace Deed

theorem others (d : Deed ends e s s') (ne : c ≠ e.cpu) : s'.cpu c = s.cpu c := by
  obtain ⟨x, eq, -⟩ := d.cpu
  rw [eq, update_of_ne ne]

theorem turned (d : Deed ends e s s') (own : ∀ c, e ≠ .schedule c) : Turned s s' := by
  intro c
  by_cases here : c = e.cpu
  · obtain ⟨x, eq, turn⟩ := d.cpu
    rw [eq, here, update_self]
    exact turn.own own
  · exact .inl (d.others here)

theorem quiet (d : Deed ends e s s') : Quiet s s' where
  queue := d.queue
  moves := d.moves
  tables tables c := by
    obtain ⟨x, eq, turn⟩ := d.cpu
    rw [eq, update_apply]
    split
    · exact turn.table (tables _)
    · exact tables c

/-! ### Deeds of processes -/

theorem still (queue : s'.queue = s.queue) (ticks : s'.ticks = s.ticks)
    (nextpid : s'.nextpid = s.nextpid) (cpu : s'.cpu = s.cpu) (procs : s'.procs = s.procs)
    (acts : Acts ends s.view s'.view) : Deed ends e s s' where
  queue := queue
  ticks := ticks
  nextpid := nextpid
  cpu := ⟨_, by rw [cpu, update_eq_self], .refl e _⟩
  goes p := by rw [procs]; exact .refl s p
  moves := by
    have same : s'.life = s.life := by simp only [Kernel.life, procs, cpu, nextpid]
    rw [same]
  acts _ _ := acts

theorem setProc (goes : Goes s p (f (s.procs p))) (a : Act ends s.view (s.setProc p f).view) :
    Deed ends e s (s.setProc p f) where
  queue := rfl
  ticks := rfl
  nextpid := rfl
  cpu := ⟨_, (update_eq_self ..).symm, .refl e _⟩
  goes := goes_setProc goes
  moves := a.moves rfl
  acts _ _ := .single a

theorem note (h : ∀ q, (f q).core = q.core ∧ (f q).rank = q.rank ∧ (f q).times = q.times) :
    Deed ends e s (s.setProc p f) := by
  have view : (s.setProc p f).view = s.view := view_setProc_same fun q => (h q).1
  obtain ⟨core, rank, times⟩ := h (s.procs p)
  have pos : (f (s.procs p)).pos = (s.procs p).pos := congrArg Core.pos core
  refine ⟨rfl, rfl, rfl, ⟨_, (update_eq_self ..).symm, .refl e _⟩, goes_setProc ⟨rank, ?_, ?_⟩, ?_,
    fun _ _ => ?_⟩
  · exact fun np at_ => pos ▸ at_
  · exact fun _ => .same (congrArg Core.pid core) times (.inl (congrArg Core.state core))
  · have life : (s.setProc p f).life = s.life := congrArg View.life view
    rw [life]
  · rw [view]

theorem walk (x : Pos) (h : (f (s.procs m)).core = { (s.procs m).core with pos := x })
    (same : (f (s.procs m)).rank = (s.procs m).rank ∧ (f (s.procs m)).times = (s.procs m).times)
    (out : x.child = none) : Deed ends e s (s.setProc m f) := by
  have pos : (f (s.procs m)).pos = x := congrArg Core.pos h
  refine setProc ⟨same.1, fun np at_ => ?_, fun _ => ?_⟩ ?_
  · rw [pos] at at_
    simp [at_, Pos.child] at out
  · have pid : (f (s.procs m)).pid = (s.procs m).pid := (congrArg Core.pid h :)
    have state : (f (s.procs m)).state = (s.procs m).state := (congrArg Core.state h :)
    exact .same pid same.2 (.inl state)
  · rw [view_setProc (fun q => { q with pos := x }) h]
    exact .walk s.view m x (by simp [out])

theorem awake (run : s.cpu c = .running at_ m) :
    Deed ends e s (s.setProc m fun q => { q with chan := .null }) := by
  refine setProc ⟨rfl, fun _ => id, fun _ => .same rfl rfl (.inl rfl)⟩ ?_
  rw [view_setProc (fun q => { q with chan := .null }) rfl]
  exact .awake s.view c at_ m run

theorem wake {chan : Chan} (view : s'.view = s.view.wake chan) (aside : Aside s s') :
    Deed ends e s s' := by
  have woken (p : Slot) : (s'.procs p).core = (s.view.wake chan).proc p :=
    congrFun (congrArg View.proc view) p
  have cpu : s'.cpu = s.cpu := (congrArg View.cpu view :)
  have nextpid : s'.nextpid = s.nextpid := (congrArg View.nextpid view :)
  have act : Act ends s.view s'.view := view ▸ .wake s.view chan
  refine ⟨aside.queue, aside.ticks, nextpid, ⟨_, by rw [cpu, update_eq_self], .refl e _⟩,
    fun p => ⟨aside.ranks p, fun np at_ => ?_, fun _ => ?_⟩, act.moves nextpid,
    fun _ _ => .single act⟩
  · have pos := congrArg Core.pos (woken p)
    simp only [View.wake] at pos
    split at pos <;> exact pos.symm.trans at_
  have pid := congrArg Core.pid (woken p)
  have state := congrArg Core.state (woken p)
  simp only [View.wake] at pid state
  split at pid
  next asleep =>
    rw [if_pos asleep] at state
    refine .same pid (aside.times p) (.inr ⟨?_, ?_⟩)
    · rw [show (s.procs p).state = .SLEEPING from asleep.1]
      trivial
    rw [show (s'.procs p).state = .RUNNABLE from state]
    trivial
  next awake =>
    rw [if_neg awake] at state
    exact .same pid (aside.times p) (.inl state)

theorem active (sane : s.life.Sane) (run : s.cpu c = .running at_ m) :
    (s.procs m).state.Active := by
  have running : (s.procs m).state = .RUNNING :=
    sane.running c m (by simp [Kernel.life, run, Cpu.proc])
  rw [running]
  trivial

theorem stop {st : ProcState} {chan : Chan} {r : Resume} (run : s.cpu e.cpu = .running at_ m)
    (held : s.lock = some e.cpu) (out : st = .RUNNABLE ∨ st = .SLEEPING)
    (waits : r = .wait ∨ r = .waitx → chan = .proc m ∧ s.view.NoZombie m)
    (h : (f (s.procs m)).core = { (s.procs m).core with state := st, chan := chan, resume := r })
    (same : (f (s.procs m)).rank = (s.procs m).rank ∧ (f (s.procs m)).times = (s.procs m).times) :
    Deed ends e s ((s.setProc m f).setCpu e.cpu (.back at_ m)) := by
  have act : Act ends s.view ((s.setProc m f).setCpu e.cpu (.back at_ m)).view := by
    rw [view_setCpu, view_setProc (fun q => { q with state := st, chan := chan, resume := r }) h]
    exact .stop s.view e.cpu at_ m st chan r run held out waits
  have pos : (f (s.procs m)).pos = (s.procs m).pos := (congrArg Core.pos h :)
  refine ⟨rfl, rfl, rfl, ⟨_, rfl, ?_⟩, goes_setProc ⟨same.1, fun np at_ => pos ▸ at_, fun sane => ?_⟩,
    act.moves rfl, fun _ _ => .single act⟩
  · rw [run]
    exact .back e at_ m
  have pid : (f (s.procs m)).pid = (s.procs m).pid := (congrArg Core.pid h :)
  have state : (f (s.procs m)).state = st := (congrArg Core.state h :)
  refine .same pid same.2 (.inr ⟨active sane run, ?_⟩)
  rw [state]
  rcases out with rfl | rfl <;> trivial

theorem reap (run : s.cpu c = .running at_ m) (found : zombieChild s m = some p) :
    Deed ends e s (s.setProc p Proc.free) := by
  have hit := List.find?_some found
  simp only [decide_eq_true_eq] at hit
  refine setProc ⟨rfl, fun _ => id, fun _ => .gone rfl⟩ ?_
  rw [view_setProc (fun q => { q with pid := 0, parent := none, killed := false, state := .UNUSED })
    rfl]
  exact .reap s.view c at_ m p run hit.1 hit.2

theorem release (run : s.cpu c = .running at_ m) (copying : (s.procs m).pos = .copying np) :
    wp (forkDone m np) (fun _ s' => Deed ends e s s') E s := by
  have child : (s.procs m).pos.child = some np := by rw [copying]; rfl
  simp only [forkDone, makeRunnable, modifyProc, wp_bind, wp_get, wp_modify]
  have view : (((s.setProc np fun q => { q with parent := some m }).setProc np
      fun q => { q with state := .RUNNABLE, start := s.ticks }).setProc m
      fun q => { q with pos := .kernel }).view =
      (s.view.set np fun q => { q with parent := some m, state := .RUNNABLE }).set m
        fun q => { q with pos := .kernel } := by
    rw [view_setProc (fun q => { q with pos := .kernel }) rfl,
      view_setProc (fun q => { q with state := .RUNNABLE }) rfl,
      view_setProc (fun q => { q with parent := some m }) rfl]
    simp [View.set]
  have act : Act ends s.view _ := .release s.view c at_ m np run child
  rw [← view] at act
  refine ⟨rfl, rfl, rfl, ⟨_, (update_eq_self ..).symm, .refl e _⟩, fun r => ?_, act.moves rfl,
    fun _ _ => .single act⟩
  simp only [Kernel.setProc, update_apply]
  have ready (sane : s.life.Sane) : (s.procs np).state = .EMBRYO := sane.embryo m np child
  by_cases self : r = m <;> by_cases new : r = np
  · subst self new
    simp only [if_true]
    exact ⟨rfl, nofun, fun sane => .ready r copying (ready sane) rfl rfl trivial⟩
  · subst self
    simp only [if_true, if_neg new]
    exact ⟨rfl, nofun, fun _ => .same rfl rfl (.inl rfl)⟩
  · subst new
    simp only [if_true, if_neg self]
    exact ⟨rfl, fun _ => id, fun sane => .ready m copying (ready sane) rfl rfl trivial⟩
  · simp only [if_neg self, if_neg new]
    exact .refl s r

theorem exit {s₂ : Kernel} (run : s.cpu e.cpu = .running at_ m) (held : s.lock = some e.cpu)
    (other : m ≠ s.initproc) (ends_ : ends (s.procs m).pid) (aside : Aside s s₂)
    (rest : s₂.view = { s.view with proc := s₂.view.proc })
    (exits : s.view.Exits m
      (s₂.view.set m fun q => { q with state := .ZOMBIE, resume := .sleep }).proc) :
    Deed ends e s ((s₂.setProc m fun q =>
      { q with state := .ZOMBIE, etime := s.ticks.toInt, resume := .sleep }).setCpu e.cpu
        (.back at_ m)) := by
  have cpu : s₂.cpu = s.cpu := (congrArg View.cpu rest :)
  have nextpid : s₂.nextpid = s.nextpid := (congrArg View.nextpid rest :)
  have whole : ((s₂.setProc m fun q =>
      { q with state := .ZOMBIE, etime := s.ticks.toInt, resume := .sleep }).setCpu e.cpu
        (.back at_ m)).view = View.move { s.view with
          proc := (s₂.view.set m fun q => { q with state := .ZOMBIE, resume := .sleep }).proc }
        e.cpu (.back at_ m) s.view.lock := by
    have lock : s₂.lock = s.lock := (congrArg View.lock rest :)
    have initproc : s₂.initproc = s.initproc := (congrArg View.initproc rest :)
    rw [view_setCpu, view_setProc (fun q => { q with state := .ZOMBIE, resume := .sleep }) rfl]
    simp only [View.move, View.set, View.mk.injEq, true_and]
    exact ⟨lock, congrArg (fun f => update f e.cpu _) cpu, nextpid, initproc⟩
  have act : Act ends s.view _ := .exit s.view e.cpu at_ m _ run held other ends_ exits
  rw [← whole] at act
  refine ⟨aside.queue, aside.ticks, nextpid, ⟨_, congrArg (fun f => update f e.cpu _) cpu, ?_⟩,
    fun r => ?_, act.moves nextpid, fun _ _ => .single act⟩
  · rw [run]
    exact .back e at_ m
  by_cases self : r = m
  · subst self
    have own := exits.self
    rw [proc_set_same] at own
    have pid : (s₂.procs r).pid = (s.procs r).pid := (congrArg Core.pid own :)
    have pos : (s₂.procs r).pos = (s.procs r).pos := (congrArg Core.pos own :)
    simp only [Kernel.setCpu, Kernel.setProc, update_self]
    refine ⟨aside.ranks r, fun np at_ => pos ▸ at_, fun sane => ?_⟩
    refine .ended pid (active sane run) rfl ?_
    rw [← aside.times r]
    rfl
  obtain ⟨st, eq, state⟩ := exits.others r self
  rw [proc_set_ne _ _ self] at eq
  have pid : (s₂.procs r).pid = (s.procs r).pid := (congrArg Core.pid eq :)
  have pos : (s₂.procs r).pos = (s.procs r).pos := (congrArg Core.pos eq :)
  have now : (s₂.procs r).state = st := (congrArg Core.state eq :)
  simp only [Kernel.setCpu, Kernel.setProc, update_of_ne self]
  refine ⟨aside.ranks r, fun np at_ => pos ▸ at_, fun _ => .same pid (aside.times r) ?_⟩
  rw [now]
  rcases state with same | ⟨asleep, awake⟩
  · exact .inl same
  refine .inr ⟨?_, awake ▸ trivial⟩
  rw [show (s.procs r).state = .SLEEPING from asleep]
  trivial

/-! ### Deeds of schedulers -/

theorem setCpu {x : Cpu} {l : Option ℕ} (a : Act ends s.view (((s.setLock l).setCpu c x).view))
    (table : (s.cpu c).OnTable → x.OnTable) :
    Deed ends (.schedule c) s ((s.setLock l).setCpu c x) where
  queue := rfl
  ticks := rfl
  nextpid := rfl
  cpu := ⟨x, rfl, table, fun own => absurd rfl (own c)⟩
  goes := .refl s
  moves := a.moves rfl
  acts _ _ := .single a

theorem dispatch {at' : Place} (inside : s.cpu c = .scan at_)
    (runnable : (s.procs m).state = .RUNNABLE)
    (table : (s.cpu c).OnTable → (Cpu.running at' m).OnTable) :
    Deed ends (.schedule c) s ((s.setProc m fun q =>
      { q with state := .RUNNING, num_r := q.num_r + 1 }).setCpu c (.running at' m)) := by
  have act : Act ends s.view ((s.setProc m fun q =>
      { q with state := .RUNNING, num_r := q.num_r + 1 }).setCpu c (.running at' m)).view := by
    rw [view_setCpu, view_setProc (fun q => { q with state := .RUNNING }) rfl]
    exact .dispatch s.view c at_ at' m inside runnable
  have goes : Goes s m { s.procs m with state := .RUNNING, num_r := (s.procs m).num_r + 1 } := by
    refine ⟨rfl, fun _ => id, fun _ => .same rfl rfl (.inr ⟨?_, trivial⟩)⟩
    rw [runnable]
    trivial
  exact ⟨rfl, rfl, rfl, ⟨_, rfl, table, fun own => absurd rfl (own c)⟩,
    goes_setProc (f := fun q => { q with state := .RUNNING, num_r := q.num_r + 1 }) goes,
    act.moves rfl, fun _ _ => .single act⟩

end Deed


/-! ## The functions of the kernel -/

section

variable {I : Kernel → Prop} (err : ∀ x s', x ≠ .overrun → x ≠ .index → E x s')
  (deed : ∀ s s', I s → Deed ends e s s' → I s')

theorem wp_sched {Q : PUnit → Kernel → Prop} {r : Resume} (run : s.cpu c = .running at_ m)
    (away : (f (s.procs m)).state ≠ .RUNNING)
    (h : Q ⟨⟩ ((s.setProc m fun q => { f q with resume := r }).setCpu c (.back at_ m))) :
    wp (sched c m r) Q E (s.setProc m f) := by
  have away' : ((s.setProc m f).procs m).state ≠ .RUNNING := by
    simpa only [Kernel.setProc, update_self] using away
  have run' : (s.setProc m f).cpu c = .running at_ m := run
  simp only [sched, wp_bind, wp_get, if_neg away', run', wp_set]
  have twice : (s.setProc m f).setProc m (fun q => { q with resume := r }) =
      s.setProc m fun q => { f q with resume := r } := by
    simp [Kernel.setProc]
  rwa [twice]

theorem noZombie_of_zombieChild (h : zombieChild s m = none) : s.view.NoZombie m := by
  intro p child zombie
  have := List.find?_eq_none.1 h p (List.mem_finRange p)
  simp only [decide_eq_true_eq] at this
  exact this ⟨child, zombie⟩

include deed

theorem wakeup1_rule (chan : Chan) (hs : I s) : wp (wakeup1 chan) (fun _ => I) E s :=
  wp_imp (wakeup1_view chan E) fun _ s' h => deed s s' hs (.wake h.1 h.2)

theorem lock_rule (run : s.cpu c = .running at_ m) (free : s.lock = none ∨ s.lock = some c)
    (hs : I s) : I (s.setLock (some c)) := by
  rcases free with free | held
  · exact deed s _ hs (.still rfl rfl rfl rfl rfl (.single (.lock s.view c at_ m run free)))
  have same : s.setLock (some c) = s := by
    rw [← held]
    rfl
  rwa [same]

theorem unlock_rule (run : s.cpu c = .running at_ m) (held : s.lock = some c) (hs : I s) :
    I (s.setLock none) :=
  deed s _ hs (.still rfl rfl rfl rfl rfl (.single (.unlock s.view c at_ m run held)))

theorem sleep_rule {chan : Chan} {r : Resume} (run : s.cpu e.cpu = .running at_ m)
    (free : s.lock = none ∨ s.lock = some e.cpu)
    (waits : r = .wait ∨ r = .waitx → chan = .proc m ∧ s.view.NoZombie m) (hs : I s) :
    wp (sleep e.cpu m chan r) (fun _ => I) E s := by
  simp only [sleep, modifyProc, wp_bind, wp_modify]
  have locked : I (s.setLock (some e.cpu)) := lock_rule deed run free hs
  apply wp_sched (s := s.setLock (some e.cpu)) run (by simp)
  exact deed _ _ locked (.stop run rfl (.inr rfl) waits rfl ⟨rfl, rfl⟩)

theorem yield_rule (run : s.cpu e.cpu = .running at_ m) (free : s.lock = none) (hs : I s) :
    wp (yield e.cpu m) (fun _ => I) E s := by
  simp only [yield, modifyProc, wp_bind, wp_modify, wp_get]
  have locked : I (s.setLock (some e.cpu)) := lock_rule deed run (.inl free) hs
  apply wp_sched (s := s.setLock (some e.cpu)) run (by simp)
  exact deed _ _ locked (.stop run rfl (.inl rfl) (by simp) rfl ⟨rfl, rfl⟩)

theorem exit_rule (run : s.cpu e.cpu = .running at_ m) (free : s.lock = none)
    (other : m ≠ s.initproc) (ends_ : ends (s.procs m).pid) (hs : I s) :
    wp (exit e.cpu m) (fun _ => I) E s := by
  simp only [exit, wp_bind, wp_modify, wp_get]
  set t := s.setLock (some e.cpu) with t_def
  have ht : I t := lock_rule deed run (.inl free) hs
  set chan : Chan := (s.procs m).parent.elim .null .proc with chan_def
  apply wp_imp (wakeup1_view chan E)
  rintro _ s₁ ⟨h₁, aside₁⟩
  apply wp_imp (adopt_all m _ s₁)
  rintro _ s₂ ⟨h₂, aside₂⟩
  have aside := aside₁.trans aside₂
  simp only [modifyProc, wp_modify]
  set v := t.view with v_def
  -- the view that the loop leaves behind differs from `v` in the table
  have rest : s₂.view = { v with proc := s₂.view.proc } := by
    have lock := h₂.lock
    have cpu := h₂.cpu
    have nextpid := h₂.nextpid
    have initproc := h₂.initproc
    rw [h₁] at lock cpu nextpid initproc
    generalize s₂.view = v₂ at *
    obtain ⟨proc, _, _, _, _⟩ := v₂
    subst lock cpu nextpid initproc
    rfl
  have cpu : s₂.cpu = t.cpu := (congrArg View.cpu rest :)
  have woke (p : Slot) : s₁.view.proc p = (v.wake chan).proc p := by
    rw [h₁]
  have init₁ : s₁.view.initproc = v.initproc := by rw [h₁]; rfl
  have parent₁ (p : Slot) : (s₁.view.proc p).parent = (v.proc p).parent := by
    rw [woke]
    simp only [View.wake]
    split <;> rfl
  have adopter₁ (p : Slot) : s₁.view.adopter m p = v.adopter m p := by
    simp only [adopter, parent₁, init₁]
  have table (p : Slot) : ∃ st, s₂.view.proc p =
      { v.proc p with state := st, parent := v.adopter m p } ∧
      (st = (v.proc p).state ∨ (v.proc p).state = .SLEEPING ∧ st = .RUNNABLE) := by
    obtain ⟨st, eq, hst⟩ := h₂.proc p
    refine ⟨st, ?_, ?_⟩
    · rw [eq, if_pos (List.mem_finRange p), adopter₁, woke]
      simp only [View.wake]
      split <;> rfl
    rw [woke] at hst
    simp only [View.wake] at hst
    split at hst
    next slept =>
      rcases hst with rfl | ⟨h, -⟩
      · exact .inr ⟨slept.1, rfl⟩
      · simp at h
    · exact hst
  have asleep₂ (p : Slot) (h : (s₂.view.proc p).state = .SLEEPING) :
      (v.proc p).state = .SLEEPING ∧ (v.proc p).chan ≠ chan := by
    have slept := h₂.asleep h
    rw [woke] at slept
    simp only [View.wake] at slept
    split at slept
    · simp at slept
    next awake => exact ⟨slept, fun eq => awake ⟨slept, eq⟩⟩
  have exits : v.Exits m
      (s₂.view.set m fun q => { q with state := .ZOMBIE, resume := .sleep }).proc := by
    refine ⟨?_, fun p hp => ?_, fun q parent p slept => ?_, fun found p slept => ?_⟩
    · obtain ⟨st, eq, -⟩ := table m
      rw [proc_set_same, eq]
    · rw [proc_set_ne _ _ hp]
      exact table p
    · rw [proc_set] at slept
      split at slept
      · simp at slept
      have := (asleep₂ p slept).2
      rw [chan_def] at this
      have parent' : (s.procs m).parent = some q := parent
      rwa [parent'] at this
    rw [proc_set] at slept
    split at slept
    · simp at slept
    obtain ⟨q, child, zombie⟩ := found
    have chan₁ : (s₁.view.proc p).chan = (v.proc p).chan := by
      rw [woke]
      simp only [View.wake]
      split <;> rfl
    rw [← chan₁, ← init₁]
    refine h₂.woken ⟨q, List.mem_finRange q, by rw [parent₁]; exact child, ?_⟩ p slept
    rw [woke]
    simp only [View.wake, zombie]
    simp [zombie]
  apply wp_sched (by rw [cpu]; exact run) (by simp)
  refine deed t _ ht (.exit run rfl other ends_ aside rest exits)

theorem reap_rule (run : s.cpu c = .running at_ m) (held : s.lock = some c)
    (found : zombieChild s m = some p) (hs : I s) : I ((s.setProc p Proc.free).setLock none) :=
  unlock_rule deed (s := s.setProc p Proc.free) run held (deed s _ hs (.reap run found))

theorem waitx_rule (run : s.cpu e.cpu = .running at_ m) (held : s.lock = some e.cpu) (hs : I s) :
    wp (waitx e.cpu m) (fun _ => I) E s := by
  simp only [waitx, wp_bind, wp_get]
  split
  next p found =>
    simp only [wp_bind, modifyProc, wp_modify, wp_pure]
    exact reap_rule deed run held found hs
  next none =>
    simp only [wp_ite, wp_bind, wp_pure, wp_modify]
    refine ⟨fun _ => ?_, fun _ => unlock_rule deed run held hs⟩
    exact sleep_rule deed run (.inr held) (fun _ => ⟨rfl, noZombie_of_zombieChild none⟩) hs

include err

section

variable {pol : Policy} (reap : pol = .MLFQ → ∀ s p Q, I s → (s.procs p).state = .ZOMBIE →
  (∀ k, ArrayQueue.Thinned (fun q => (s.procs q).pid = (s.procs p).pid) (s.queue k) (Q k)) →
  Deed ends e s (s.setProc p Proc.free) → I { s.setProc p Proc.free with queue := Q })

include reap

theorem wait_rule (run : s.cpu e.cpu = .running at_ m) (held : s.lock = some e.cpu) (hs : I s) :
    wp (wait pol e.cpu m) (fun _ => I) E s := by
  simp only [wait, wp_bind, wp_get]
  split
  next p found =>
    simp only [wp_bind, modifyProc, wp_modify, wp_pure, wp_ite]
    refine ⟨fun mlfq => ?_, fun _ => reap_rule deed run held found hs⟩
    refine wp_mono (rem_process_spec _ _) (fun _ s₁ h₁ => ?_) fun x s' h => err x s' (by simp [h])
      (by simp [h])
    obtain ⟨Q, rfl, thin, -⟩ := h₁
    have freed := reap mlfq s p Q hs (zombieChild_zombie found) thin (.reap run found)
    exact unlock_rule deed (s := { s.setProc p Proc.free with queue := Q }) run held freed
  next none =>
    simp only [wp_ite, wp_bind, wp_pure, wp_modify]
    refine ⟨fun _ => unlock_rule deed run held hs, fun _ => ?_⟩
    exact sleep_rule deed run (.inr held) (fun _ => ⟨rfl, noZombie_of_zombieChild none⟩) hs

theorem resume_rule (run : s.cpu e.cpu = .running at_ m) (held : s.lock = some e.cpu) (hs : I s) :
    wp (resume pol e.cpu m) (fun _ => I) E s := by
  simp only [resume, wp_bind, wp_get]
  have awake := deed s _ hs (.awake run)
  split <;> simp only [wp_bind, modifyProc, wp_modify, wp_pure]
  · have out : I (s.setProc m fun q => { q with pos := if s.first then .kernel else .user }) := by
      refine deed s _ hs (.walk _ rfl ⟨rfl, rfl⟩ ?_)
      cases s.first <;> rfl
    exact deed _ _ out (.still rfl rfl rfl rfl rfl (.single (.unlock _ e.cpu at_ m run held)))
  · have back : I (s.setProc m fun q => { q with trap := .yielded }) :=
      deed s _ hs (.note fun _ => ⟨rfl, rfl, rfl⟩)
    exact unlock_rule deed (s := s.setProc m _) run held back
  · exact unlock_rule deed (s := s.setProc m _) run held awake
  · exact wait_rule err deed reap (s := s.setProc m _) run held awake
  · exact waitx_rule deed (s := s.setProc m _) run held awake

end

omit err

theorem trapNext_rule (pol : Policy) (run : s.cpu e.cpu = .running at_ m) (hs : I s) :
    wp (trapNext pol e.cpu m) (fun _ => I) E s := by
  simp only [trapNext, wp_bind, wp_get]
  have leave : I (s.setProc m fun q => { q with pos := .exiting, trap := .none }) :=
    deed s _ hs (.walk .exiting rfl ⟨rfl, rfl⟩ rfl)
  have same (t : Trap) : I (s.setProc m fun q => { q with trap := t }) :=
    deed s _ hs (.note fun _ => ⟨rfl, rfl, rfl⟩)
  split <;> simp only [wp_ite, modifyProc, wp_modify, wp_pure]
  · exact hs
  · exact ⟨fun _ => leave, fun _ => ⟨fun _ => same _, fun _ => same _⟩⟩
  · exact ⟨fun free => yield_rule deed run free hs, fun _ => hs⟩
  · exact ⟨fun _ => leave, fun _ => same _⟩

end

/-! ## The scheduler -/

section

variable {I : Kernel → Prop} (err : ∀ x s', x ≠ .overrun → x ≠ .index → E x s')
  (deed : ∀ s s', I s → Deed ends (.schedule c) s s' → I s')

include deed

theorem endRound_rule (inside : s.cpu c = .scan at_) (hs : I s) :
    wp (endRound c) (fun _ => I) E s := by
  rw [endRound, wp_modify]
  exact deed s _ hs (.setCpu (.leave s.view c at_ inside) fun _ => trivial)

theorem dispatch_rule {at' : Place} (inside : s.cpu c = .scan at_)
    (runnable : (s.procs m).state = .RUNNABLE)
    (table : (s.cpu c).OnTable → (Cpu.running at' m).OnTable) (hs : I s) :
    wp (dispatch c at' m) (fun _ => I) E s := by
  simp only [dispatch, modifyProc, wp_bind, wp_modify]
  exact deed s _ hs (.dispatch inside runnable table)

include err

theorem scan_rule (pol : Policy) (inside : s.cpu c = .scan at_) (hs : I s) :
    wp (scan pol c at_) (fun _ => I) E s := by
  have next (at' : Place) (table : (s.cpu c).OnTable → (Cpu.scan at').OnTable) :
      I (s.setCpu c (.scan at')) :=
    deed s _ hs (.setCpu (l := s.lock) (.scan s.view c at' (.inl ⟨at_, inside⟩)) table)
  cases at_ with
  | queue k i =>
    have vacuous {x : Cpu} : (s.cpu c).OnTable → x.OnTable := by simp [inside, Cpu.OnTable]
    simp only [scan, wp_bind, wp_get, wp_ite]
    refine ⟨fun _ => ?_, fun _ => ?_⟩
    · unfold entry
      simp only [wp_bind, wp_get]
      split
      next m _ =>
        simp only [wp_pure, modifyProc, wp_modify, wp_set]
        refine ⟨fun runnable => ?_, fun _ => next _ vacuous⟩
        have noted : I (s.setProc m fun q => { q with start := s.ticks }) :=
          deed s _ hs (.note fun _ => ⟨rfl, rfl, rfl⟩)
        refine dispatch_rule deed (s := s.setProc m _) inside ?_ vacuous noted
        simpa [Kernel.setProc] using runnable
      · exact err _ _ (by simp) (by simp)
    · split
      · exact next _ vacuous
      · exact endRound_rule deed inside hs
  | table i =>
    simp only [scan, wp_bind, wp_get]
    split
    · simp only [wp_ite, wp_set]
      refine ⟨fun runnable => ?_, fun _ => next _ fun _ => trivial⟩
      exact dispatch_rule deed inside (choose_runnable pol runnable) (fun _ => trivial) hs
    · exact endRound_rule deed inside hs

end

/-! ## The rule for steps -/

/-- The pid of the process that exits in a step. -/
def Kernel.exits (s : Kernel) : Event → Option ℤ
  | .exit c => do
      let m ← s.current c
      if inKernelOrExit s (s.procs m).pos then some (s.procs m).pid else none
  | _ => none

theorem kill_find {pid : ℤ}
    (found : (List.finRange NPROC).find? (fun p => (s.procs p).pid = pid) = some p) :
    (s.procs p).pid = pid := by
  simpa using List.find?_some found

theorem kill_view (pid : ℤ) (E : Fault → Kernel → Prop) :
    wp (kill pid) (fun _ s' => (s'.view = s.view ∨
      ∃ p, (s.procs p).pid = pid ∧ s'.view = s.view.kill p) ∧
      ∀ ends c pid', Deed ends (.kill c pid') s s') E s := by
  rw [kill, wp_bind, wp_get]
  split
  · exact ⟨.inl rfl, fun _ _ _ => .still rfl rfl rfl rfl rfl .refl⟩
  rename_i p found
  simp only [modifyProc, wp_bind, wp_modify, wp_pure]
  set f : Proc → Proc := fun q => if q.state = .SLEEPING then
      { q with killed := true, start := s.ticks, state := .RUNNABLE }
    else { q with killed := true }
  have view : (s.setProc p f).view = s.view.kill p := by
    refine view_setProc _ ?_
    by_cases asleep : (s.procs p).state = .SLEEPING <;> simp [f, Proc.core, asleep]
  refine ⟨.inr ⟨p, kill_find found, view⟩, fun ends c pid' => ?_⟩
  refine ⟨rfl, rfl, rfl, ⟨_, (update_eq_self ..).symm, .refl _ _⟩, goes_setProc ?_, ?_,
    fun own => absurd rfl (own c pid')⟩
  · by_cases asleep : (s.procs p).state = .SLEEPING
    · simp only [f, if_pos asleep]
      refine ⟨rfl, fun _ => id, fun _ => .same rfl rfl (.inr ⟨?_, trivial⟩)⟩
      rw [asleep]
      trivial
    · simp only [f, if_neg asleep]
      exact ⟨rfl, fun _ => id, fun _ => .same rfl rfl (.inl rfl)⟩
  · have moves := s.view.kill_moves p
    rwa [← view] at moves

theorem forkFail_view (child : (s.procs m).pos.child = some np) (E : Fault → Kernel → Prop) :
    wp (forkFail m np) (fun _ s' => s'.view = s.view.abort m np ∧
      ∀ ends c, Deed ends (.forkFail c) s s') E s := by
  simp only [forkFail, modifyProc, wp_bind, wp_modify]
  have view : ((s.setProc np fun q => { q with state := .UNUSED }).setProc m
      fun q => { q with pos := .kernel }).view = s.view.abort m np := by
    rw [view_setProc (fun q => { q with pos := .kernel }) rfl,
      view_setProc (fun q => { q with state := .UNUSED }) rfl]
    rfl
  refine ⟨view, fun ends c => ⟨rfl, rfl, rfl, ⟨_, (update_eq_self ..).symm, .refl _ _⟩, fun r => ?_,
    ?_, fun _ own => absurd rfl (own c)⟩⟩
  · simp only [Kernel.setProc, update_apply]
    by_cases self : r = m <;> by_cases new : r = np
    · subst self new
      simp only [if_true]
      exact ⟨rfl, nofun, fun _ => .gone rfl⟩
    · subst self
      simp only [if_true, if_neg new]
      exact ⟨rfl, nofun, fun _ => .same rfl rfl (.inl rfl)⟩
    · subst new
      simp only [if_true, if_neg self]
      exact ⟨rfl, fun _ => id, fun _ => .gone rfl⟩
    · simp only [if_neg self, if_neg new]
      exact .refl s r
  · have moves := s.view.abort_moves child
    rwa [← view] at moves

/-- `I` holds after the parts of a step that change the queues. -/
structure Requeues (pol : Policy) (e : Event) (s : Kernel) (I : Kernel → Prop)
    (E : Fault → Kernel → Prop) : Prop where
  fork : ∀ c m, e = .fork c → s.current c = some m → inKernel s (s.procs m).pos →
    wp (forkAlloc m) (fun _ => I) E s
  age : ∀ c, e = .schedule c → s.cpu c = .top → s.lock = none → pol = .MLFQ →
    wp (do ageing; modify fun s => s.setCpu c (.scan (.queue 0 0))) (fun _ => I) E
      (s.setLock (some c))
  back : ∀ c k i m, e = .schedule c → s.cpu c = .back (.queue k i) m →
    wp (do afterSwtch (.queue k i) m; modify fun s => s.setCpu c (.scan (.queue k (i + 1))))
      (fun _ => I) E s

/-- An invariant that deeds keep is kept by every step, if ticks, reaping, set-up and changes of the
queues keep it. -/
theorem step_rule {I : Kernel → Prop} (pol : Policy) (e : Event) (hs : I s)
    (err : ∀ x s', x ≠ .overrun → x ≠ .index → E x s')
    (deed : ∀ s₁ s', I s₁ → Deed (fun pid => s.exits e = some pid) e s₁ s' → I s')
    (reap : pol = .MLFQ → ∀ s₁ p Q, I s₁ → (s₁.procs p).state = .ZOMBIE →
      (∀ k, ArrayQueue.Thinned (fun q => (s₁.procs q).pid = (s₁.procs p).pid) (s₁.queue k) (Q k)) →
      Deed (fun pid => s.exits e = some pid) e s₁ (s₁.setProc p Proc.free) →
      I { s₁.setProc p Proc.free with queue := Q })
    (clock : e = .timer 0 → I { s with ticks := s.ticks + 1 })
    (tick : e = .timer 0 → ∀ m s₁, I s₁ → wp (countTick m) (fun _ => I) E s₁)
    (stack : ∀ c m np, e = .forkStack c → (s.procs m).pos.child = some np →
      wp (forkStack m np) (fun _ => I) E s) (queues : Requeues pol e s I E) :
    wp (step pol e) (fun _ => I) E s := by
  cases e with
  | schedule c =>
    rw [step, schedule, wp_bind, wp_get]
    split
    next top =>
      simp only [wp_ite, wp_bind, wp_set, wp_pure, wp_modify]
      refine ⟨fun free => ⟨fun mlfq => ?_, fun _ => ?_⟩, fun _ => hs⟩
      · simpa only [wp_bind, wp_modify] using queues.age c rfl top free mlfq
      · exact deed s _ hs (.setCpu (.enter s.view c _ top free) fun _ => trivial)
    next inside => exact scan_rule err deed pol inside hs
    · exact hs
    rename_i at_ m hc
    cases at_ with
    | queue k i => exact queues.back c k i m rfl hc
    | table i =>
      rw [wp_bind, afterSwtch, wp_pure, wp_modify]
      have act : Act (fun pid => s.exits (.schedule c) = some pid) s.view
          (s.view.move c (.scan (.table (i + 1))) s.view.lock) :=
        .scan s.view c _ (.inr ⟨.table i, m, hc⟩)
      exact deed s _ hs (.setCpu (l := s.lock) act fun _ => trivial)
  | resume c =>
    rw [step, wp_bind, wp_get]
    split
    next run =>
      rw [wp_ite, wp_pure]
      exact ⟨fun held => resume_rule (e := .resume c) err deed reap run held hs, fun _ => hs⟩
    · exact hs
  | timer c =>
    rw [step, wp_bind, wp_get, wp_ite, wp_pure]
    refine ⟨fun _ => ?_, fun _ => hs⟩
    have ticked : wp (Xv6.clock c) (fun _ => I) E s := by
      rw [Xv6.clock, wp_ite, wp_bind, wp_modify, wp_pure]
      refine ⟨fun zero => ?_, fun _ => hs⟩
      exact wakeup1_rule deed .ticks (clock (by rw [zero]))
    rw [timer]
    refine wp_next ticked fun _ s₁ h₁ => ?_
    rw [interrupt, wp_bind, wp_get]
    split
    next m _ =>
      have last (s₂ : Kernel) (h₂ : I s₂) : I (s₂.setProc m fun q => { q with trap := .counted }) :=
        deed s₂ _ h₂ (.note fun _ => ⟨rfl, rfl, rfl⟩)
      rw [wp_bind, wp_ite, wp_pure]
      refine ⟨fun zero => ?_, fun _ => last s₁ h₁⟩
      exact wp_imp (tick (by rw [zero]) m s₁ h₁) fun _ s₂ h₂ => last s₂ h₂
    · exact h₁
  | trapNext c =>
    rw [step, wp_bind, wp_get]
    split
    next run =>
      rw [wp_ite, wp_pure]
      exact ⟨fun _ => trapNext_rule (e := .trapNext c) deed pol run hs, fun _ => hs⟩
    · exact hs
  | wakeup chan => exact wp_whenFree hs (wakeup1_rule deed chan hs)
  | syscall c | sysret c =>
    rw [step]
    refine wp_asCurrent hs fun m _ _ => ?_
    rw [modifyProc, wp_modify]
    refine deed s _ hs (.walk (if (s.procs m).killed then .exiting else _) rfl ⟨rfl, rfl⟩ ?_)
    split <;> rfl
  | fork c => exact wp_asCurrent hs fun m current enabled => queues.fork c m rfl current enabled
  | forkStack c =>
    exact wp_inFork hs fun m np _ child _ => wp_whenFree hs (stack c m np rfl child)
  | forkFail c =>
    have fail (part : Slot → Pos) (s₁ : Kernel) (h₁ : I s₁) :
        wp (inFork c part forkFail) (fun _ => I) E s₁ :=
      wp_inFork h₁ fun m np _ child _ =>
        wp_imp (forkFail_view child E) fun _ s' h => deed s₁ s' h₁ (h.2 _ c)
    rw [step]
    exact wp_next (fail .forking s hs) fun _ s₁ h₁ => fail .copying s₁ h₁
  | forkDone c =>
    refine wp_inFork hs fun m np current _ copying => wp_whenFree hs ?_
    obtain ⟨at_, run⟩ := current_some current
    exact wp_imp (Deed.release run copying) fun _ s' d => deed s s' hs d
  | exit c =>
    refine wp_asCurrent hs fun m current enabled => ?_
    obtain ⟨at_, run⟩ := current_some current
    rw [wp_bind, wp_get, wp_ite, wp_throw]
    refine ⟨fun _ => err _ _ (by simp) (by simp), fun other => ?_⟩
    refine exit_rule (e := .exit c) deed run enabled.1 other ?_ hs
    simp [Kernel.exits, current, enabled]
  | wait c =>
    refine wp_asCurrent hs fun m current enabled => ?_
    obtain ⟨at_, run⟩ := current_some current
    simp only [wp_bind, wp_modify, wp_pure]
    have locked : I (s.setLock (some c)) := lock_rule deed run (.inl enabled.1) hs
    exact wait_rule (e := .wait c) err deed reap (s := s.setLock (some c)) run rfl locked
  | waitx c =>
    refine wp_asCurrent hs fun m current enabled => ?_
    obtain ⟨at_, run⟩ := current_some current
    simp only [wp_bind, wp_modify, wp_pure]
    have locked : I (s.setLock (some c)) := lock_rule deed run (.inl enabled.1) hs
    exact waitx_rule (e := .waitx c) deed (s := s.setLock (some c)) run rfl locked
  | kill c pid =>
    refine wp_asCurrent hs fun m _ _ => ?_
    simp only [wp_bind, wp_pure]
    exact wp_imp (kill_view pid E) fun _ s' h => deed s s' hs (h.2 _ c pid)
  | sleep c chan =>
    refine wp_asCurrent hs fun m current enabled => ?_
    obtain ⟨at_, run⟩ := current_some current
    exact sleep_rule (e := .sleep c chan) deed run (.inl enabled.1) (by simp) hs

/-! ## Queues and lives -/

theorem Quiet.of_moves (queue : s'.queue = s.queue) (cpu : s'.cpu = s.cpu)
    (moves : Life.Moves s.view.life s'.view.life) : Quiet s s' :=
  ⟨queue, fun tables => cpu ▸ tables, moves⟩

theorem Quiet.of_view (queue : s'.queue = s.queue) (view : s'.view = s.view) : Quiet s s' :=
  .of_moves queue (congrArg View.cpu view) (by rw [view])

theorem countTick_view (m : Slot) :
    wp (countTick m) (fun _ s' => s'.view = s.view ∧ s'.queue = s.queue) NoOverrun s := by
  have same {s : Kernel} {f : Proc → Proc} (h : ∀ q, (f q).core = q.core) :
      (s.setProc m f).view = s.view ∧ (s.setProc m f).queue = s.queue := ⟨view_setProc_same h, rfl⟩
  simp only [countTick, wp_bind, wp_get]
  split <;> simp only [wp_bind, modifyProc, wp_modify, wp_pure]
  · exact same fun _ => rfl
  · split
    · simp
    rw [wp_modify]
    have run := same (s := s) (f := fun q => { q with rtime := q.rtime + 1 }) fun _ => rfl
    rw [← run.1, ← run.2]
    exact same fun _ => rfl
  · exact ⟨trivial, trivial⟩

theorem forkStack_view (child : (s.procs m).pos.child = some np) (ends : ℤ → Prop) :
    wp (forkStack m np) (fun _ s' => Act ends s.view s'.view ∧ Quiet s s') E s := by
  simp only [forkStack, allocprocStack, modifyProc, wp_bind, wp_get, wp_modify]
  refine ⟨?act, .of_moves rfl rfl (Act.moves ?act rfl)⟩
  rw [view_setProc (fun q => { q with pos := .copying np }) rfl,
    view_setProc (fun q => { q with resume := .forkret }) rfl]
  exact .stack s.view m np child

/-- An invariant that quiet steps and reaping keep is kept by every step, if changes of the queues
keep it. -/
theorem step_keeps {I : Kernel → Prop} (pol : Policy) (e : Event) (hs : I s)
    (err : ∀ x s', x ≠ .overrun → E x s') (quiet : ∀ s s', I s → Quiet s s' → I s')
    (reaps : pol = .MLFQ → ∀ s s', I s → Reaps s s' → I s') (queues : Requeues pol e s I E) :
    wp (step pol e) (fun _ => I) E s := by
  refine step_rule pol e hs (fun x s' ne _ => err x s' ne) (fun s₁ s' h d => quiet s₁ s' h d.quiet)
    (fun mlfq s₁ p Q h zombie thin d => ?_) (fun _ => ?_) (fun _ m s₁ h => ?_)
    (fun c m np _ child => ?_) queues
  · exact reaps mlfq s₁ _ h ⟨d.quiet.tables, d.quiet.moves, p, zombie, thin⟩
  · exact quiet s _ hs ⟨rfl, id, .refl⟩
  · exact wp_mono (countTick_view m) (fun _ s' same => quiet s₁ s' h (.of_view same.2 same.1)) err
  · exact wp_imp (forkStack_view child fun _ => True) fun _ s' h => quiet s s' hs h.2

/-! ## Views -/

theorem forkAlloc_acts (run : s.cpu c = .running at_ m) :
    wp (forkAlloc m) (fun _ s' => Acts ends s.view s'.view) anyStop s := by
  unfold forkAlloc allocproc
  simp only [wp_bind, wp_get, modifyProc]
  split
  · exact .refl
  rename_i np found
  have unused : (s.procs np).state = .UNUSED := by
    have hit := List.find?_some found
    exact of_decide_eq_true hit
  rw [wp_ite, wp_throw]
  refine ⟨fun _ => trivial, fun _ => ?_⟩
  simp only [wp_bind, wp_modify, wp_pure]
  refine wp_imp (push_queued 0 np) fun _ s₁ same => ?_
  rw [view_setProc (fun q => { q with pos := .forking np }) rfl, same.view]
  have born : Kernel.view { s.setProc np (fun q => { q with
      state := .EMBRYO
      pid := s.nextpid
      current_queue := 0
      ticks := fun _ => 0
      waittime := 5 }) with nextpid := s.nextpid + 1 } =
      View.set { s.view with nextpid := s.nextpid + 1 } np
        fun q => { q with state := .EMBRYO, pid := s.nextpid } :=
    view_setProc (s := { s with nextpid := s.nextpid + 1 }) (p := np) (f := fun q => { q with
      state := .EMBRYO
      pid := s.nextpid
      current_queue := 0
      ticks := fun _ => 0
      waittime := 5 }) (fun q => { q with state := .EMBRYO, pid := s.nextpid }) rfl
  have forked := congrArg (fun v : View => v.set m fun q => { q with pos := .forking np }) born
  exact .single (Eq.mpr (congrArg (Act ends s.view) forked) (.birth s.view c at_ m np run unused))

inductive Effect (s : Kernel) : Event → View → Prop where
  | acts (e : Event) (v : View) (h : Acts (fun pid => s.exits e = some pid) s.view v) : Effect s e v
  | abort (c : ℕ) (m np : Slot) (current : s.current c = some m)
      (child : (s.procs m).pos.child = some np) : Effect s (.forkFail c) (s.view.abort m np)
  | kill (c : ℕ) (pid : ℤ) (p : Slot) (found : (s.procs p).pid = pid) :
      Effect s (.kill c pid) (s.view.kill p)

theorem Effect.none : Effect s e s.view := .acts e _ .refl

theorem enter_act {s₁ : Kernel} (same : Queued (s.setLock (some c)) s₁) (top : s.cpu c = .top)
    (free : s.lock = none) (at_ : Place) : Act ends s.view (s₁.setCpu c (.scan at_)).view := by
  have lock : s₁.lock = some c := (congrArg View.lock same.view :)
  rw [view_setCpu, lock, same.view]
  exact .enter s.view c at_ top free

theorem next_act {s₁ : Kernel} (same : Queued s s₁) (back : s.cpu c = .back at_ m) (at' : Place) :
    Act ends s.view (s₁.setCpu c (.scan at')).view := by
  have lock : s₁.lock = s.lock := (congrArg View.lock same.view :)
  rw [view_setCpu, lock, same.view]
  exact .scan s.view c at' (.inr ⟨at_, m, back⟩)

theorem step_acts (pol : Policy) (kill : ∀ c pid, e ≠ .kill c pid) (fail : ∀ c, e ≠ .forkFail c) :
    wp (step pol e) (fun _ s' => Acts (fun pid => s.exits e = some pid) s.view s'.view)
      anyStop s := by
  refine step_rule pol e .refl (fun _ _ _ _ => trivial)
    (fun s₁ s' before d => before.trans (d.acts kill fail))
    (fun _ s₁ p Q before _ _ d => before.trans (d.acts kill fail)) (fun _ => .refl)
    (fun _ m s₁ before => ?_) (fun c m np _ child => ?_) ⟨fun c m _ current _ => ?_,
    fun c _ top free _ => ?_, fun c k i m _ back => ?_⟩
  · refine wp_mono (countTick_view m) (fun _ s' same => ?_) fun _ _ _ => trivial
    rw [same.1]
    exact before
  · exact wp_imp (forkStack_view child _) fun _ s' h => .single h.1
  · obtain ⟨at_, run⟩ := current_some current
    exact forkAlloc_acts run
  · exact wp_next ageing_queued fun _ s₁ same => .single (enter_act same top free _)
  · exact wp_next (afterSwtch_queued _ m) fun _ s₁ same => .single (next_act same back _)

theorem forkFail_effect (pol : Policy) (c : ℕ) :
    wp (step pol (.forkFail c)) (fun _ s' => Effect s (.forkFail c) s'.view) anyStop s := by
  rw [step, wp_bind]
  refine wp_inFork (wp_inFork .none fun m np current child _ => ?_) fun m np current child _ => ?_
  · refine wp_imp (forkFail_view child _) fun _ s' ⟨h, _⟩ => ?_
    rw [h]
    exact .abort c m np current child
  refine wp_imp (forkFail_view child _) fun _ s₁ ⟨h, _⟩ => ?_
  have done : Effect s (.forkFail c) s₁.view := by
    rw [h]
    exact .abort c m np current child
  refine wp_inFork done fun m' np' current' child' _ => ?_
  -- the process is no longer in `fork`
  obtain ⟨at_, run⟩ := current_some current
  obtain ⟨at', run'⟩ := current_some current'
  have cpu : s₁.cpu c = s.cpu c := congrFun (congrArg View.cpu h) c
  obtain rfl : m' = m := by
    rw [cpu, run] at run'
    cases run'
    rfl
  have out : (s₁.procs m').pos = .kernel := by
    have core := congrArg Core.pos (congrFun (congrArg View.proc h) m')
    exact core.trans (by simp [View.abort])
  simp [out, Pos.child] at child'

theorem kill_effect (pol : Policy) (c : ℕ) (pid : ℤ) :
    wp (step pol (.kill c pid)) (fun _ s' => Effect s (.kill c pid) s'.view) anyStop s := by
  refine wp_asCurrent .none fun m _ _ => ?_
  refine wp_next (kill_view pid _) fun _ s' ⟨h, _⟩ => ?_
  rcases h with same | ⟨p, found, hit⟩
  · rw [wp_pure, same]
    exact .none
  rw [wp_pure, hit]
  exact .kill c pid p found

theorem step_effect (pol : Policy) (e : Event) :
    wp (step pol e) (fun _ s' => Effect s e s'.view) anyStop s := by
  cases e with
  | forkFail c => exact forkFail_effect pol c
  | kill c pid => exact kill_effect pol c pid
  | _ => exact wp_imp (step_acts pol (by simp) (by simp)) fun _ _ h => .acts _ _ h

namespace Life.Sane

theorem effect {v : View} (h : s.life.Sane) (eff : Effect s e v) : v.life.Sane := by
  cases eff with
  | acts _ _ a => exact acts (v := s.view) h a
  | abort c m np current child => exact moves (l := s.view.life) h (abort_moves child)
  | kill c pid p found => exact moves (l := s.view.life) h (s.view.kill_moves p)

end Life.Sane

/-! ## Ranks -/

/-- An invariant of the ranks is kept by every step, if set-up, ticks, `ageing` and the code after
`swtch` keep it. -/
theorem step_ranks {I : Kernel → Prop} (pol : Policy)
    (e : Event) (hs : I s) (err : ∀ x s', x ≠ .index → E x s')
    (same : ∀ s s', I s → SameRanks s s' → I s')
    (fork : ∀ m s, I s → wp (forkAlloc m) (fun _ => I) E s)
    (stack : ∀ m np s, I s → wp (forkStack m np) (fun _ => I) E s)
    (tick : ∀ m s, I s → wp (countTick m) (fun _ => I) E s)
    (age : ∀ c, e = .schedule c → s.cpu c = .top → s.lock = none → pol = .MLFQ →
      wp ageing (fun _ => I) E (s.setLock (some c)))
    (back : ∀ at_ m s, I s → wp (afterSwtch at_ m) (fun _ => I) E s) :
    wp (step pol e) (fun _ => I) E s := by
  have still (s' : Kernel) (h : I s') (c : ℕ) (x : Cpu) : I (s'.setCpu c x) := same s' _ h (.refl s')
  refine step_rule pol e hs (fun x s' _ ne => err x s' ne)
    (fun s₁ s' h d => same s₁ s' h fun p => (d.goes p).rank)
    (fun _ s₁ p Q h _ _ d => same s₁ _ h fun p => (d.goes p).rank) (fun _ => same s _ hs (.refl s))
    (fun _ => tick) (fun c m np _ _ => stack m np s hs) ⟨fun c m _ _ _ => fork m s hs,
    fun c here top free mlfq => ?_, fun c k i m _ _ => ?_⟩
  · exact wp_next (age c here top free mlfq) fun _ s' h => still s' h c _
  · exact wp_next (back _ m s hs) fun _ s' h => still s' h c _

end Xv6
