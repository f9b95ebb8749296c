import Xv6.Proc.Running

/-!
# The times that waitx reports

`allocproc` and `exit` note `ticks` down as `ctime` and `etime`, and the timer interrupt adds to the
`rtime` of the process it interrupts.  `waitx` takes the rest of the time for waiting.  `iotime` is
there to take out the time asleep, but only the process that is interrupted gets any.
-/

namespace Xv6

open Lib Function

/-! ## Clock ticks -/

abbrev Beat := Slot → ℤ × ProcState

def Kernel.beats (s : Kernel) : Event → List Beat
  | .timer c =>
      if c = 0 ∧ (s.cpu c = .top ∨ (s.current c).isSome) ∧ s.lock = none then
        [fun p => ((s.procs p).pid, (s.procs p).state)]
      else []
  | _ => []

/-- The number of clock ticks that find process `pid` of slot `p` in the given state. -/
def during (l : List Beat) (p : Slot) (pid : ℤ) (st : ProcState) : ℕ :=
  l.countP fun b => b p = (pid, st)

variable {s : Kernel} {l : List Beat} {q : Proc} {f : Proc → Proc} {m np p : Slot} {now : Word}

theorem during_snoc (l : List Beat) (b : Beat) (p : Slot) (pid : ℤ) (st : ProcState) :
    during (l ++ [b]) p pid st = during l p pid st + if b p = (pid, st) then 1 else 0 := by
  simp [during, List.countP_append, List.countP_cons]

theorem during_eq_zero {pid : ℤ} (past : ∀ b ∈ l, (b p).1 < pid) (st : ProcState) :
    during l p pid st = 0 := by
  rw [during, List.countP_eq_zero]
  intro b mem hit
  have eq := congrArg Prod.fst (of_decide_eq_true hit)
  have before := past b mem
  omega

/-- The times of a process up to `now` are those of the ticks; some that found it `EMBRYO` came
after `ctime`. -/
structure Account (l : List Beat) (p : Slot) (q : Proc) (now : Word) : Prop where
  rtime : q.rtime = during l p q.pid .RUNNING
  iotime : q.iotime = 0
  rest : ∃ k ≤ during l p q.pid .EMBRYO, now - BitVec.ofInt 32 q.ctime = BitVec.ofNat 32
    (during l p q.pid .RUNNING + during l p q.pid .RUNNABLE + during l p q.pid .SLEEPING + k)

theorem Account.congr {q' : Proc} {t : ℤ} (h : Account l p q now)
    (times : q'.times = { q.times with etime := t }) (pid : q'.pid = q.pid) :
    Account l p q' now := by
  have ctime : q'.ctime = q.ctime := congrArg Times.ctime times
  have rtime : q'.rtime = q.rtime := congrArg Times.rtime times
  have iotime : q'.iotime = q.iotime := congrArg Times.iotime times
  refine ⟨?_, iotime.trans h.iotime, ?_⟩
  · rw [rtime, pid, h.rtime]
  rw [ctime, pid]
  exact h.rest

structure Booked (l : List Beat) (s : Kernel) : Prop where
  past : ∀ b ∈ l, ∀ p, (b p).1 < s.nextpid
  alone : ∀ c, c ≠ 0 → s.cpu c = .top
  young : ∀ p, (s.procs p).state = .EMBRYO → ∀ st, st.Active →
    during l p (s.procs p).pid st = 0
  copied : ∀ p m, (s.procs p).state = .EMBRYO → (s.procs m).pos = .copying p →
    Account l p (s.procs p) s.ticks
  active : ∀ p, (s.procs p).state.Active → Account l p (s.procs p) s.ticks
  zombie : ∀ p, (s.procs p).state = .ZOMBIE →
    Account l p (s.procs p) (BitVec.ofInt 32 (s.procs p).etime)

namespace Booked

variable {l : List Beat} {s s' : Kernel}

section

variable (h : Booked l s)
include h

theorem goes (ticks : s'.ticks = s.ticks) (nextpid : s'.nextpid = s.nextpid)
    (cpu : ∀ c, c ≠ 0 → s'.cpu c = s.cpu c)
    (pos : ∀ m np, (s'.procs m).pos = .copying np → (s.procs m).pos = .copying np)
    (fate : ∀ p, Fate s p (s'.procs p)) : Booked l s' := by
  -- a process that is idle is the one it was
  have idle {p : Slot} {st : ProcState} (at_ : (s'.procs p).state = st) (out : ¬ st.Active)
      (used : st ≠ .UNUSED) (alive : st ≠ .ZOMBIE) :
      (s.procs p).state = st ∧ (s'.procs p).pid = (s.procs p).pid ∧
        (s'.procs p).times = (s.procs p).times := by
    rcases fate p with unused | ⟨pid, times, same | ⟨-, active⟩⟩ | ⟨_, _, _, _, _, active⟩ |
      ⟨_, _, zombie, _⟩
    · exact absurd (at_.symm.trans unused) used
    · exact ⟨same.symm.trans at_, pid, times⟩
    · exact absurd (at_ ▸ active) out
    · exact absurd (at_ ▸ active) out
    · exact absurd (at_.symm.trans zombie) alive
  constructor
  case past => exact nextpid ▸ h.past
  case alone => exact fun c ne => (cpu c ne).trans (h.alone c ne)
  case young =>
    intro p at_
    obtain ⟨before, pid, -⟩ := idle at_ id nofun nofun
    rw [pid]
    exact h.young p before
  case copied =>
    intro p m at_ copying
    obtain ⟨before, pid, times⟩ := idle at_ id nofun nofun
    rw [ticks]
    exact (h.copied p m before (pos m p copying)).congr times pid
  case active =>
    intro p at_
    rw [ticks]
    rcases fate p with unused | ⟨pid, times, state⟩ | ⟨m, copying, embryo, pid, times, -⟩ |
      ⟨_, _, zombie, _⟩
    · rw [unused] at at_
      exact at_.elim
    · have before : (s.procs p).state.Active := by
        rcases state with eq | ⟨before, -⟩
        · exact eq ▸ at_
        · exact before
      exact (h.active p before).congr times pid
    · exact (h.copied p m embryo copying).congr times pid
    · rw [zombie] at at_
      exact at_.elim
  case zombie =>
    intro p at_
    rcases fate p with unused | ⟨pid, times, same | ⟨-, active⟩⟩ | ⟨_, _, _, _, _, active⟩ |
      ⟨pid, active, -, times⟩
    · cases at_.symm.trans unused
    · have etime : (s'.procs p).etime = (s.procs p).etime := congrArg Times.etime times
      rw [etime]
      exact (h.zombie p (same.symm.trans at_)).congr times pid
    · exact (at_ ▸ active : ProcState.ZOMBIE.Active).elim
    · exact (at_ ▸ active : ProcState.ZOMBIE.Active).elim
    · have etime : (s'.procs p).etime = s.ticks.toInt := congrArg Times.etime times
      rw [etime, BitVec.ofInt_toInt]
      exact (h.active p active).congr times pid

theorem deed {e : Event} {ends : ℤ → Prop} (sane : s.life.Sane)
    (d : Deed ends e s s') (one : e.cpu = 0) : Booked l s' :=
  h.goes d.ticks d.nextpid (fun _ ne => d.others (one ▸ ne)) (fun m np => (d.goes m).pos np)
    fun p => (d.goes p).fate sane

theorem queued (same : Queued s s') : Booked l s' := by
  have core (p : Slot) : (s'.procs p).core = (s.procs p).core :=
    congrFun (congrArg View.proc same.view) p
  have cpu : s'.cpu = s.cpu := (congrArg View.cpu same.view :)
  have nextpid : s'.nextpid = s.nextpid := (congrArg View.nextpid same.view :)
  refine h.goes same.ticks nextpid (fun c _ => congrFun cpu c) (fun m np at_ => ?_) fun p => ?_
  · exact (congrArg Core.pos (core m)).symm.trans at_
  · exact .same (congrArg Core.pid (core p)) (same.times p) (.inl (congrArg Core.state (core p)))

theorem still (procs : s'.procs = s.procs) (ticks : s'.ticks = s.ticks)
    (nextpid : s'.nextpid = s.nextpid) (cpu : ∀ c, c ≠ 0 → s'.cpu c = s.cpu c) : Booked l s' := by
  refine h.goes ticks nextpid cpu (fun m np => ?_) fun p => ?_
  all_goals rw [procs]
  · exact id
  · exact .same rfl rfl (.inl rfl)

theorem alter (pos : ∀ np, (f (s.procs p)).pos = .copying np → (s.procs p).pos = .copying np)
    (fate : Fate s p (f (s.procs p))) : Booked l (s.setProc p f) := by
  refine h.goes rfl rfl (fun _ _ => rfl) (fun m np => ?_) fun r => ?_
  all_goals
    simp only [Kernel.setProc, update_apply]
    split
  next same => exact same ▸ pos np
  · exact id
  next same => exact same ▸ fate
  · exact .same rfl rfl (.inl rfl)

theorem setProc (eq : f (s.procs p) = q)
    (pos : ∀ np, q.pos = .copying np → (s.procs p).pos = .copying np)
    (young : q.state = .EMBRYO → ∀ st, st.Active → during l p q.pid st = 0)
    (copied : ∀ m, q.state = .EMBRYO → (s.procs m).pos = .copying p → Account l p q s.ticks)
    (active : q.state.Active → Account l p q s.ticks)
    (zombie : q.state = .ZOMBIE → Account l p q (BitVec.ofInt 32 q.etime)) :
    Booked l (s.setProc p f) := by
  have own (r : Slot) : (s.setProc p f).procs r = if r = p then q else s.procs r := by
    rw [← eq]
    exact update_apply ..
  have before {m np : Slot} (copying : ((s.setProc p f).procs m).pos = .copying np) :
      (s.procs m).pos = .copying np := by
    rw [own] at copying
    split at copying
    next same => exact same ▸ pos np copying
    · exact copying
  constructor
  case past => exact h.past
  case alone => exact h.alone
  case young =>
    intro r
    rw [own]
    split
    next same => exact same ▸ young
    · exact h.young r
  case copied =>
    intro r m
    rw [own r]
    split
    next same =>
      subst same
      exact fun at_ copying => copied m at_ (before copying)
    · exact fun at_ copying => h.copied r m at_ (before copying)
  case active =>
    intro r
    rw [own]
    split
    next same => exact same ▸ active
    · exact h.active r
  case zombie =>
    intro r
    rw [own]
    split
    next same => exact same ▸ zombie
    · exact h.zombie r

theorem copying (account : Account l np (s.procs np) s.ticks) :
    Booked l (s.setProc m fun q => { q with pos := .copying np }) := by
  have fields (r : Slot) : ∃ x, (s.setProc m fun q => { q with pos := .copying np }).procs r =
      { s.procs r with pos := x } := by
    simp only [Kernel.setProc, update_apply]
    split
    next same => exact ⟨.copying np, by rw [same]⟩
    · exact ⟨(s.procs r).pos, rfl⟩
  have same (r : Slot) (now : Word) (before : Account l r (s.procs r) now) :
      Account l r ((s.setProc m fun q => { q with pos := .copying np }).procs r) now := by
    obtain ⟨x, eq⟩ := fields r
    rw [eq]
    exact before.congr rfl rfl
  have state (r : Slot) : ((s.setProc m fun q => { q with pos := .copying np }).procs r).state =
      (s.procs r).state := by
    obtain ⟨x, eq⟩ := fields r
    rw [eq]
  constructor
  case past => exact h.past
  case alone => exact h.alone
  case young =>
    intro r
    obtain ⟨x, eq⟩ := fields r
    rw [eq]
    exact h.young r
  case copied =>
    intro r m' at_ copying
    rw [state] at at_
    by_cases new : r = np
    · exact new ▸ same np _ account
    have old : (s.procs m').pos = .copying r := by
      simp only [Kernel.setProc, update_apply] at copying
      split at copying
      · cases copying
        exact absurd rfl new
      · exact copying
    exact same r _ (h.copied r m' at_ old)
  case active => exact fun r at_ => same r _ (h.active r (state r ▸ at_))
  case zombie =>
    intro r at_
    have etime : ((s.setProc m fun q => { q with pos := .copying np }).procs r).etime =
        (s.procs r).etime := by
      obtain ⟨x, eq⟩ := fields r
      rw [eq]
    rw [etime]
    exact same r _ (h.zombie r (state r ▸ at_))

/-! ## Birth -/

theorem forkAlloc (seated : Seated s.view) (m : Slot) :
    wp (forkAlloc m) (fun _ s' => Booked l s') anyStop s := by
  unfold Xv6.forkAlloc allocproc
  simp only [wp_bind, wp_get, modifyProc]
  split
  · exact h
  rename_i np found
  have unused : (s.procs np).state = .UNUSED := by simpa using List.find?_some found
  rw [wp_ite, wp_throw]
  refine ⟨fun _ => trivial, fun _ => ?_⟩
  simp only [wp_bind, wp_modify, wp_pure]
  refine wp_imp (push_queued 0 np) fun _ s₁ same => ?_
  refine alter (queued ?_ same) (by simp) (.same rfl rfl (.inl rfl))
  · -- the pid is new, and nobody copies itself for an unused slot
    have born := h.setProc (p := np) (f := fun q => { q with
        state := .EMBRYO
        pid := s.nextpid
        current_queue := 0
        ticks := fun _ => 0
        waittime := 5 }) rfl (fun _ => id)
      (fun _ st _ => during_eq_zero (fun b mem => h.past b mem np) st)
      (fun m' _ copying => by
        have embryo : (s.procs np).state = .EMBRYO :=
          seated.sane.embryo m' np (by simp [Kernel.view, View.life, Proc.core, copying, Pos.child])
        rw [unused] at embryo
        cases embryo)
      False.elim (by simp)
    refine ⟨fun b mem p => ?_, born.alone, born.young, born.copied, born.active, born.zombie⟩
    have before := born.past b mem p
    dsimp only
    omega

theorem forkStack (seated : Seated s.view) (child : (s.procs m).pos.child = some np) :
    wp (forkStack m np) (fun _ s' => Booked l s') anyStop s := by
  have embryo : (s.procs np).state = .EMBRYO := seated.sane.embryo m np child
  simp only [Xv6.forkStack, allocprocStack, modifyProc, wp_bind, wp_get, wp_modify]
  have zero (st : ProcState) (active : st.Active) : during l np (s.procs np).pid st = 0 :=
    h.young np embryo st active
  have account : Account l np { s.procs np with
      resume := .forkret
      trap := .none
      ctime := s.ticks.toInt
      etime := 0
      rtime := 0
      iotime := 0
      num_r := 0
      priority := if (s.procs np).pid = 1 ∨ (s.procs np).pid = 2 then 1 else 60 } s.ticks := by
    refine ⟨?_, rfl, 0, Nat.zero_le _, ?_⟩
    · exact (congrArg Nat.cast (zero .RUNNING trivial)).symm
    rw [zero .RUNNING trivial, zero .RUNNABLE trivial, zero .SLEEPING trivial,
      BitVec.ofInt_toInt, BitVec.sub_self]
  refine (h.setProc rfl (fun _ => id) (fun _ st active => zero st active) (fun _ _ _ => account)
    (fun active => ?_) fun zombie => ?_).copying ?_
  · rw [show _ = ProcState.EMBRYO from embryo] at active
    exact active.elim
  · rw [show _ = ProcState.EMBRYO from embryo] at zombie
    cases zombie
  · simpa [Kernel.setProc] using account

end

/-! ## A clock tick -/

end Booked

theorem Account.tick {b : Beat} (h : Account l p q now) (beat : b p = (q.pid, q.state))
    (alive : q.state.Active ∨ q.state = .EMBRYO) :
    Account (l ++ [b]) p { q with rtime := q.rtime + if q.state = .RUNNING then 1 else 0 }
      (now + 1) := by
  obtain ⟨rtime, iotime, k, le, rest⟩ := h
  have more (st : ProcState) : during (l ++ [b]) p q.pid st =
      during l p q.pid st + if q.state = st then 1 else 0 := by
    rw [during_snoc, beat]
    simp
  have later (n : ℕ) (eq : now - BitVec.ofInt 32 q.ctime = BitVec.ofNat 32 n) :
      now + 1 - BitVec.ofInt 32 q.ctime = BitVec.ofNat 32 (n + 1) := by
    rw [BitVec.ofNat_add, ← eq]
    generalize BitVec.ofInt 32 q.ctime = c
    bv_omega
  constructor
  case iotime => exact iotime
  case rtime =>
    dsimp only
    rw [more, rtime]
    split <;> simp
  case rest =>
    dsimp only
    by_cases embryo : q.state = .EMBRYO
    · refine ⟨k + 1, ?_, ?_⟩
      · rw [more, if_pos embryo]
        omega
      rw [more, more, more, embryo]
      exact later _ rest
    refine ⟨k, ?_, ?_⟩
    · rw [more]
      omega
    have active := alive.resolve_right embryo
    have one : during (l ++ [b]) p q.pid .RUNNING + during (l ++ [b]) p q.pid .RUNNABLE +
        during (l ++ [b]) p q.pid .SLEEPING + k = during l p q.pid .RUNNING +
        during l p q.pid .RUNNABLE + during l p q.pid .SLEEPING + k + 1 := by
      rw [more, more, more]
      generalize q.state = st at active
      cases st <;> first | exact active.elim | (simp; omega)
    rw [one]
    exact later _ rest

theorem Account.late {b : Beat} (h : Account l p q now) (beat : b p = (q.pid, .ZOMBIE)) :
    Account (l ++ [b]) p q now := by
  have same (st : ProcState) (ne : st ≠ .ZOMBIE) :
      during (l ++ [b]) p q.pid st = during l p q.pid st := by
    rw [during_snoc, beat]
    simp [ne.symm]
  have rtime := h.rtime
  have rest := h.rest
  rw [← same .RUNNING (by simp)] at rtime
  rw [← same .EMBRYO (by simp), ← same .RUNNING (by simp), ← same .RUNNABLE (by simp),
    ← same .SLEEPING (by simp)] at rest
  exact ⟨rtime, h.iotime, rest⟩

namespace Booked

variable {l : List Beat} {s s' : Kernel}

theorem tick (h : Booked l s) (s' : Kernel) (seated : Seated s.view)
    (ticks : s'.ticks = s.ticks + 1) (nextpid : s'.nextpid = s.nextpid) (cpu : s'.cpu = s.cpu)
    (procs : ∀ p, s'.procs p = { s.procs p with
      rtime := (s.procs p).rtime + if (s.cpu 0).proc = some p then 1 else 0 }) :
    Booked (l ++ [fun p => ((s.procs p).pid, (s.procs p).state)]) s' := by
  have runs (p : Slot) : (s.cpu 0).proc = some p ↔ (s.procs p).state = .RUNNING := by
    constructor
    · exact seated.sane.running 0 p
    intro running
    obtain ⟨c, at_, here⟩ := seated.runs p running
    have here : s.cpu c = .running at_ p := here
    by_cases zero : c = 0
    · subst zero
      rw [here]
      rfl
    rw [h.alone c zero] at here
    cases here
  have charged (p : Slot) : s'.procs p = { s.procs p with
      rtime := (s.procs p).rtime + if (s.procs p).state = .RUNNING then 1 else 0 } := by
    rw [procs]
    simp only [runs]
  constructor
  case past =>
    intro b mem p
    rw [nextpid]
    rcases List.mem_append.1 mem with old | new
    · exact h.past b old p
    rw [List.mem_singleton.1 new]
    exact seated.sane.fresh p
  case alone => exact fun c ne => cpu ▸ h.alone c ne
  case young =>
    intro p
    rw [charged]
    intro embryo st active
    rw [during_snoc, h.young p embryo st active, if_neg]
    intro eq
    have same : (s.procs p).state = st := congrArg Prod.snd eq
    rw [← same, embryo] at active
    exact active
  case copied =>
    intro p m
    rw [charged, charged, ticks]
    exact fun embryo copying => (h.copied p m embryo copying).tick rfl (.inr embryo)
  case active =>
    intro p
    rw [charged, ticks]
    exact fun active => (h.active p active).tick rfl (.inl active)
  case zombie =>
    intro p
    rw [charged]
    intro zombie
    have zombie : (s.procs p).state = .ZOMBIE := zombie
    have late := (h.zombie p zombie).late (b := fun p => ((s.procs p).pid, (s.procs p).state))
      (by rw [zombie])
    exact late.congr (t := (s.procs p).etime) (by rw [if_neg (by rw [zombie]; nofun)]; simp
      [Proc.times]) rfl

end Booked

theorem fate_ticks (s : Kernel) (r : Slot) (now : Word) : Fate s r
    (if (s.procs r).state = .SLEEPING ∧ (s.procs r).chan = .ticks then
      { s.procs r with state := .RUNNABLE, start := now } else s.procs r) := by
  split
  next asleep =>
    refine .same rfl rfl (.inr ⟨?_, trivial⟩)
    rw [asleep.1]
    trivial
  · exact .same rfl rfl (.inl rfl)

namespace Booked

variable {l : List Beat} {s s' : Kernel}

theorem timer (h : Booked l s) (seated : Seated s.view)
    (ready : s.cpu 0 = .top ∨ (s.current 0).isSome) :
    wp (timer 0) (fun _ s' => Booked (l ++ [fun p => ((s.procs p).pid, (s.procs p).state)]) s')
      anyStop s := by
  simp only [Xv6.timer, clock, if_true, wp_bind, wp_modify, interrupt, wp_get, wakeup1]
  rcases ready with top | current
  · have ticked := h.tick { s with ticks := s.ticks + 1 } seated rfl rfl rfl
      (fun p => by simp [top, Cpu.proc])
    simp only [top, wp_pure]
    refine ticked.goes rfl rfl (fun _ _ => rfl) (fun m np => ?_) fun r => fate_ticks _ r _
    dsimp only
    split <;> exact id
  obtain ⟨m, current⟩ := Option.isSome_iff_exists.1 current
  obtain ⟨at_, run⟩ := current_some current
  have running : (s.procs m).state = .RUNNING :=
    seated.sane.running 0 m (by simp [Kernel.view, View.life, run, Cpu.proc])
  have ticked := h.tick (Kernel.setProc { s with ticks := s.ticks + 1 } m
      fun q => { q with rtime := q.rtime + 1 }) seated rfl rfl rfl fun p => by
      simp only [run, Cpu.proc, Kernel.setProc, update_apply, Option.some.injEq]
      by_cases same : p = m
      · simp [same]
      · simp [same, Ne.symm same]
  have awake : ¬ ((s.procs m).state = .SLEEPING ∧ (s.procs m).chan = .ticks) := by simp [running]
  simp only [run, wp_bind, countTick, wp_get, if_neg awake, modifyProc, wp_modify]
  simp only [running, wp_bind, wp_modify]
  split
  · trivial
  simp only [wp_modify]
  refine ticked.goes rfl rfl (fun _ _ => rfl) (fun r np => ?_) fun r => ?_
  all_goals
    simp only [Kernel.setProc, update_apply]
    by_cases same : r = m
  · simp [same, awake]
  · simp only [if_neg same]
    split <;> exact id
  · subst same
    exact .same (by simp [awake]) (by simp [awake, Proc.times]) (.inl (by simp [awake]))
  · have fate := fate_ticks (Kernel.setProc { s with ticks := s.ticks + 1 } m
      fun q => { q with rtime := q.rtime + 1 }) r (s.ticks + 1)
    simpa only [Kernel.setProc, update_of_ne same, if_neg same] using fate

end Booked

/-! ## Every run on one CPU -/

theorem Booked.step (h : Booked l s) (seated : Seated s.view) (pol : Policy) (e : Event)
    (one : e.cpu = 0) : wp (step pol e) (fun _ s' => Booked (l ++ s.beats e) s') anyStop s := by
  by_cases ticks : e = .timer 0
  · subst ticks
    rw [Xv6.step, wp_bind, wp_get, wp_ite, wp_pure]
    refine ⟨fun enabled => ?_, fun disabled => ?_⟩
    · rw [Kernel.beats, if_pos ⟨rfl, enabled.1, enabled.2 rfl⟩]
      exact h.timer seated enabled.1
    rwa [Kernel.beats, if_neg fun enabled => disabled ⟨enabled.2.1, fun _ => enabled.2.2⟩,
      List.append_nil]
  have beats : s.beats e = [] := by
    cases e with
    | timer c => exact absurd (congrArg Event.timer one) ticks
    | _ => rfl
  rw [beats, List.append_nil]
  have sane : s.life.Sane := seated.sane
  have both : wp (Xv6.step pol e) (fun _ s' => s'.life.Sane ∧ Booked l s') anyStop s := by
    refine step_rule pol e ⟨sane, h⟩ (fun _ _ _ _ => trivial)
      (fun s₁ s' h d => ⟨h.1.moves d.moves, h.2.deed h.1 d one⟩)
      (fun _ s₁ p Q h _ _ d => ⟨h.1.moves d.moves,
        (h.2.deed h.1 d one).queued ⟨rfl, rfl, fun _ => rfl⟩⟩)
      (fun timer => absurd timer ticks) (fun timer => absurd timer ticks)
      (fun c m np _ child => ?_) ⟨fun c m _ current _ => ?_, fun c here top free _ => ?_,
      fun c k i m here back => ?_⟩
    · have acts : wp (Xv6.forkStack m np)
          (fun _ s' => View.Act (fun _ => True) s.view s'.view ∧ Quiet s s') anyStop s :=
        forkStack_view child _
      refine wp_mono (wp_and acts (h.forkStack seated child)) (fun _ s' h => ?_)
        fun _ _ _ => trivial
      exact ⟨sane.act (v := s.view) h.1.1, h.2⟩
    · obtain ⟨at_, run⟩ := current_some current
      have acts : wp (Xv6.forkAlloc m) (fun _ s' => View.Acts (fun _ => True) s.view s'.view)
        anyStop s := forkAlloc_acts run
      refine wp_mono (wp_and acts (h.forkAlloc seated m)) (fun _ s' h => ?_) fun _ _ _ => trivial
      exact ⟨sane.acts (v := s.view) h.1, h.2⟩
    · obtain rfl : c = 0 := by rw [here] at one; exact one
      refine wp_next ageing_queued fun _ s₁ same => ?_
      have act : View.Act (fun _ => True) s.view (s₁.setCpu 0 (.scan (.queue 0 0))).view :=
        enter_act same top free _
      have locked : Booked l (s.setLock (some 0)) := h.still rfl rfl rfl fun _ _ => rfl
      exact ⟨sane.act (v := s.view) act,
        (locked.queued same).still rfl rfl rfl fun _ ne => update_of_ne ne ..⟩
    · obtain rfl : c = 0 := by rw [here] at one; exact one
      refine wp_next (afterSwtch_queued _ m) fun _ s₁ same => ?_
      have act : View.Act (fun _ => True) s.view (s₁.setCpu 0 (.scan (.queue k (i + 1)))).view :=
        next_act same back _
      exact ⟨sane.act (v := s.view) act,
        (h.queued same).still rfl rfl rfl fun _ ne => update_of_ne ne ..⟩
  exact wp_imp both fun _ _ h => h.2

theorem Booked.boot : Booked [] Kernel.boot where
  past := by simp
  alone _ _ := rfl
  young _ _ _ _ := rfl
  copied p m embryo := absurd embryo (by revert p; decide)
  active p active := by
    have fields : ∀ p, (Kernel.boot.procs p).rtime = 0 ∧ (Kernel.boot.procs p).iotime = 0 ∧
        (Kernel.boot.procs p).ctime = 0 := by decide
    obtain ⟨rtime, iotime, ctime⟩ := fields p
    have ticks : Kernel.boot.ticks = 0 := by decide
    refine ⟨rtime, iotime, 0, Nat.zero_le _, ?_⟩
    rw [ctime, ticks]
    simp [during]
  zombie p zombie := absurd zombie (by revert p; decide)

theorem booked_of_run {pol : Policy} {es : List Event} (one : ∀ e ∈ es, e.cpu = 0)
    (reached : exec (run (step pol) es) Kernel.boot = (.ok ⟨⟩, s)) :
    Booked (observed (step pol) Kernel.beats es Kernel.boot) s := by
  have along : Along (step pol) (fun _ e => e.cpu = 0) es Kernel.boot :=
    along_of_forall_mem Kernel.boot one
  refine (along.of_observed (I := fun l s => Seated s.view ∧ Booked l s) (fun l s e h one => ?_)
    ⟨.boot, .boot⟩ reached).2
  exact wp_mono (wp_and (h.1.step pol e) (h.2.step h.1 pol e one)) (fun _ _ h => h)
    fun _ _ _ => trivial

theorem ofInt_remaining {e c : ℤ} {r x : ℕ}
    (total : BitVec.ofInt 32 e - BitVec.ofInt 32 c = BitVec.ofNat 32 (r + x)) :
    BitVec.ofInt 32 (e - c - r) = BitVec.ofNat 32 x := by
  have sum : BitVec.ofInt 32 e =
      BitVec.ofInt 32 (e - c - r) + BitVec.ofNat 32 r + BitVec.ofInt 32 c := by
    rw [← BitVec.ofInt_natCast, ← BitVec.ofInt_add, ← BitVec.ofInt_add]
    congr 1
    omega
  rw [sum, BitVec.add_sub_cancel, Nat.add_comm, BitVec.ofNat_add] at total
  exact (BitVec.add_left_inj _).1 total

/-- On one CPU, for the child that `waitx` reaps: `rtime` counts the ticks that found it `RUNNING`,
`wtime` those that found it `RUNNABLE`, `SLEEPING` and in part `EMBRYO`. -/
theorem waitx_reports_ticks (pol : Policy) (es : List Event) {s : Kernel}
    (one : ∀ e ∈ es, e.cpu = 0)
    (reached : exec (run (step pol) es) Kernel.boot = (.ok ⟨⟩, s)) {m p : Slot}
    (found : zombieChild s m = some p) :
    let l := observed (step pol) Kernel.beats es Kernel.boot
    let q := s.procs p
    q.waitxTimes.2 = during l p q.pid .RUNNING ∧
    (∃ k ≤ during l p q.pid .EMBRYO, BitVec.ofInt 32 q.waitxTimes.1 =
      BitVec.ofNat 32 (during l p q.pid .RUNNABLE + during l p q.pid .SLEEPING + k)) ∧
    (during l p q.pid .SLEEPING = 0 → during l p q.pid .EMBRYO = 0 →
      BitVec.ofInt 32 q.waitxTimes.1 = BitVec.ofNat 32 (during l p q.pid .RUNNABLE)) := by
  intro l q
  have zombie : q.state = .ZOMBIE := by
    have hit := List.find?_some found
    simp only [decide_eq_true_eq] at hit
    exact hit.2
  obtain ⟨rtime, iotime, k, le, rest⟩ := (booked_of_run one reached).zombie p zombie
  have wtime : BitVec.ofInt 32 q.waitxTimes.1 =
      BitVec.ofNat 32 (during l p q.pid .RUNNABLE + during l p q.pid .SLEEPING + k) := by
    show BitVec.ofInt 32 (q.etime - q.ctime - q.rtime - q.iotime) = _
    rw [iotime, Int.sub_zero, rtime]
    refine ofInt_remaining (rest.trans ?_)
    rw [Nat.add_assoc, Nat.add_assoc, Nat.add_assoc]
  refine ⟨rtime, ⟨k, le, wtime⟩, fun asleep embryo => ?_⟩
  have none : k = 0 := Nat.le_zero.1 (embryo ▸ le)
  rwa [asleep, none] at wtime

/-- The first process forks, a clock tick finds the child `RUNNABLE`, and the child exits. -/
def tickWhileReady : List Event :=
  [.schedule 0, .schedule 0, .resume 0, .fork 0, .forkStack 0, .forkDone 0, .timer 0, .trapNext 0,
    .trapNext 0, .schedule 0, .schedule 0, .resume 0, .syscall 0, .exit 0]

theorem waitx_reports_ticks_ready :
    let l := observed (step .DEFAULT) Kernel.beats tickWhileReady Kernel.boot
    let q := (exec (run (step .DEFAULT) tickWhileReady) Kernel.boot).2.procs 1
    q.pid = 2 ∧ during l 1 2 .RUNNABLE = 1 ∧
      BitVec.ofInt 32 q.waitxTimes.1 = BitVec.ofNat 32 (during l 1 q.pid .RUNNABLE) := by
  have done : (exec (run (step .DEFAULT) tickWhileReady) Kernel.boot).1 = .ok ⟨⟩ := by
    decide +kernel
  have found : zombieChild (exec (run (step .DEFAULT) tickWhileReady) Kernel.boot).2 0 = some 1 := by
    decide +kernel
  have times := waitx_reports_ticks .DEFAULT tickWhileReady (by decide) (exec_eq_of_ok done) found
  refine ⟨by decide +kernel, by decide +kernel, times.2.2 ?_ ?_⟩
  · decide +kernel
  · decide +kernel

/-- The child goes to sleep, a clock tick finds nothing to run, and the child exits. -/
def tickWhileAsleep : List Event :=
  [.schedule 0, .schedule 0, .resume 0, .fork 0, .forkStack 0, .forkDone 0, .waitx 0, .schedule 0,
    .schedule 0, .resume 0, .syscall 0, .sleep 0 (.addr 7)] ++ List.replicate 64 (.schedule 0) ++
    [.timer 0, .wakeup (.addr 7), .schedule 0, .schedule 0, .schedule 0, .resume 0, .exit 0]

/-- No tick has found the child `RUNNABLE`, and `waitx` reports one tick of waiting. -/
theorem waitx_counts_sleep :
    let l := observed (step .DEFAULT) Kernel.beats tickWhileAsleep Kernel.boot
    let r := exec (run (step .DEFAULT) tickWhileAsleep) Kernel.boot
    r.1 = .ok ⟨⟩ ∧ zombieChild r.2 0 = some 1 ∧ (r.2.procs 1).pid = 2 ∧
      during l 1 2 .RUNNABLE = 0 ∧ during l 1 2 .SLEEPING = 1 ∧
      (r.2.procs 1).waitxTimes = (1, 0) := by
  decide +kernel

end Xv6
