import Xv6.Proc.Family

/-!
# Who learns of the end of a process

`observe` lists the calls of `exit` in a step and the calls of `wait` and `waitx` that return a pid
in it.  Along a run a pid is returned at most once, to the parent, and after the process has exited.
-/

namespace Xv6

open Lib

variable {e : Event} {m p : Slot} {v : View} {pid : ℤ} {exited : ℤ → Prop}

/-- What can be seen of the end of processes. -/
inductive Obs where
  | exited (pid : ℤ)
  /-- A call of `wait` or `waitx` by process `m` returns the pid of a process with the given
  parent. -/
  | returned (m : Slot) (parent : Option Slot) (pid : ℤ)
  deriving DecidableEq

/-- A call by the process running on CPU `c` of `wait` or `waitx`, whose turn is `w`. -/
def Kernel.call (s : Kernel) (c : ℕ) (w : Slot → KM Waited) : Option (Slot × Except Fault Waited) :=
  match s.current c with
  | some m =>
      if inKernel s (s.procs m).pos then some (m, (exec (w m) (s.setLock (some c))).1) else none
  | none => none

/-- The turn of the loop of `wait` or `waitx` that is made in a step: by whom, and how it ends. -/
def Kernel.turn (s : Kernel) (pol : Policy) : Event → Option (Slot × Except Fault Waited)
  | .wait c => s.call c (wait pol c)
  | .waitx c => s.call c (waitx c)
  | .resume c =>
      match s.cpu c with
      | .running _ m =>
          let awake := s.setProc m fun q => { q with chan := .null }
          if s.lock = some c then
            match (s.procs m).resume with
            | .wait => some (m, (exec (wait pol c m) awake).1)
            | .waitx => some (m, (exec (waitx c m) awake).1)
            | _ => none
          else none
      | _ => none
  | _ => none

/-- The calls of `wait` and `waitx` that return a pid in a step. -/
def Kernel.returns (s : Kernel) (pol : Policy) (e : Event) : List Obs :=
  match s.turn pol e with
  | some (m, .ok (.reaped p pid)) => [.returned m (s.procs p).parent pid]
  | _ => []

def observe (pol : Policy) (s : Kernel) (e : Event) : List Obs :=
  ((s.exits e).map Obs.exited).toList ++ s.returns pol e

theorem returns_cases (s : Kernel) (pol : Policy) (e : Event) : s.returns pol e = [] ∨
    ∃ m p pid, s.turn pol e = some (m, .ok (.reaped p pid)) ∧
      s.returns pol e = [.returned m (s.procs p).parent pid] := by
  unfold Kernel.returns
  split
  next m p pid turn => exact .inr ⟨m, p, pid, turn, rfl⟩
  · exact .inl rfl

/-! ## What a call returns -/

section

variable {s : Kernel}

/-- The child `p` of `m` is a zombie with the given pid. -/
def Kernel.Reapable (s : Kernel) (m p : Slot) (pid : ℤ) : Prop :=
  (s.procs p).parent = some m ∧ (s.procs p).state = .ZOMBIE ∧ (s.procs p).pid = pid

theorem reapable_of_zombieChild (found : zombieChild s m = some p) :
    s.Reapable m p (s.procs p).pid := by
  have hit := List.find?_some found
  simp only [decide_eq_true_eq] at hit
  exact ⟨hit.1, hit.2, rfl⟩

theorem pid_free (s : Kernel) (p : Slot) :
    (((s.setProc p Proc.free).setLock none).procs p).pid = 0 := by
  simp [Kernel.setProc, Kernel.setLock, Proc.free]

theorem sleep_reaps {c : ℕ} {chan : Chan} {r : Resume} {m' : Slot} :
    wp (do
      sleep c m chan r
      return .asleep : KM Waited) (fun r s' => ∀ p pid, r = .reaped p pid →
        s.Reapable m' p pid ∧ (s'.procs p).pid = 0) anyStop s := by
  rw [wp_bind]
  exact wp_mono (wp_exec _ _) (fun _ _ _ _ _ h => nomatch h) fun _ _ _ => trivial

theorem wait_reaps (pol : Policy) (c : ℕ) (m : Slot) :
    wp (wait pol c m) (fun r s' => ∀ p pid, r = .reaped p pid →
      s.Reapable m p pid ∧ (s'.procs p).pid = 0) anyStop s := by
  rw [wait, wp_bind, wp_get]
  split
  next p found =>
    have reap (s₁ : Kernel) : ∀ q pid, Waited.reaped p (s.procs p).pid = .reaped q pid →
        s.Reapable m q pid ∧ (((s₁.setProc p Proc.free).setLock none).procs q).pid = 0 := by
      rintro q pid ⟨rfl, rfl⟩
      exact ⟨reapable_of_zombieChild found, pid_free s₁ p⟩
    simp only [wp_bind, modifyProc, wp_modify, wp_pure, wp_ite]
    exact ⟨fun _ => wp_mono (wp_exec _ _) (fun _ s₁ _ => reap s₁) fun _ _ _ => trivial,
      fun _ => reap s⟩
  · rw [wp_ite]
    exact ⟨fun _ _ _ h => (by cases h), fun _ => sleep_reaps⟩

theorem waitx_reaps (c : ℕ) (m : Slot) :
    wp (waitx c m) (fun r s' => ∀ p pid, r = .reaped p pid →
      s.Reapable m p pid ∧ (s'.procs p).pid = 0) anyStop s := by
  rw [waitx, wp_bind, wp_get]
  split
  next p found =>
    rintro q pid ⟨rfl, rfl⟩
    exact ⟨reapable_of_zombieChild found, pid_free s p⟩
  · rw [wp_ite]
    exact ⟨fun _ => sleep_reaps, fun _ _ _ h => by cases h⟩

theorem reapable_awake {m' : Slot}
    (h : (s.setProc m' fun q => { q with chan := .null }).Reapable m p pid) :
    s.Reapable m p pid := by
  simp only [Kernel.Reapable, Kernel.setProc, Function.update_apply] at h
  split at h
  next same => exact same ▸ h
  · exact h

theorem returns_reaped {w : KM Waited}
    (spec : wp w (fun r s' => ∀ p pid, r = .reaped p pid → s.Reapable m p pid ∧ (s'.procs p).pid =
      0) anyStop s)
    (result : (exec w s).1 = .ok (.reaped p pid)) :
    s.Reapable m p pid ∧ wp w (fun _ s' => (s'.procs p).pid = 0) anyStop s := by
  have ended := exec_eq_of_ok result
  have facts := wp_of_ok spec ended p pid rfl
  refine ⟨facts.1, wp_iff_exec.2 ⟨fun _ _ => facts.2, fun _ _ => trivial⟩⟩

theorem call_reaps {c : ℕ} {w : Slot → KM Waited}
    (spec : ∀ s m, wp (w m) (fun r s' => ∀ p pid, r = .reaped p pid → s.Reapable m p pid ∧
      (s'.procs p).pid = 0) anyStop s)
    (h : s.call c w = some (m, .ok (.reaped p pid))) :
    s.Reapable m p pid ∧ wp (asCurrent c inKernel fun m => do
      modify fun s => s.setLock (some c)
      let _ ← w m) (fun _ s' => (s'.procs p).pid = 0) anyStop s := by
  rw [Kernel.call] at h
  split at h
  next m' current =>
    split at h
    next enabled =>
      simp only [Option.some.injEq, Prod.mk.injEq] at h
      obtain ⟨rfl, result⟩ := h
      have done := returns_reaped (spec _ m') result
      refine ⟨done.1, ?_⟩
      simp only [asCurrent, wp_bind, wp_get, current, if_pos enabled, wp_modify, wp_pure]
      exact done.2
    · simp at h
  · simp at h

theorem turn_reaps {pol : Policy} (h : s.turn pol e = some (m, .ok (.reaped p pid))) :
    s.Reapable m p pid ∧ wp (step pol e) (fun _ s' => (s'.procs p).pid = 0) anyStop s := by
  cases e with
  | wait c => exact call_reaps (fun _ m => wait_reaps pol c m) h
  | waitx c => exact call_reaps (fun _ m => waitx_reaps c m) h
  | resume c =>
    rw [Kernel.turn] at h
    split at h
    next at_ m' run =>
      dsimp only at h
      split at h
      next held =>
        split at h <;> rename_i waits
        · simp only [Option.some.injEq, Prod.mk.injEq] at h
          obtain ⟨rfl, result⟩ := h
          have done := returns_reaped (wait_reaps pol c m') result
          refine ⟨reapable_awake done.1, ?_⟩
          simp only [step, resume, modifyProc, wp_bind, wp_get, run, if_pos held, waits, wp_modify,
            wp_pure]
          exact done.2
        · simp only [Option.some.injEq, Prod.mk.injEq] at h
          obtain ⟨rfl, result⟩ := h
          have done := returns_reaped (waitx_reaps c m') result
          refine ⟨reapable_awake done.1, ?_⟩
          simp only [step, resume, modifyProc, wp_bind, wp_get, run, if_pos held, waits, wp_modify,
            wp_pure]
          exact done.2
        · simp at h
      · simp at h
    · simp at h
  | _ => simp [Kernel.turn] at h

end

/-! ## Pids and zombies -/

namespace View

variable {ends : ℤ → Prop} {v v' : View}

/-- Slots lose their pid or get a new one. -/
structure Renames (v v' : View) : Prop where
  nextpid : v.nextpid ≤ v'.nextpid
  pid : ∀ p, (v'.proc p).pid = 0 ∨ (v'.proc p).pid = (v.proc p).pid ∨ v.nextpid ≤ (v'.proc p).pid

theorem Renames.of_same (nextpid : v'.nextpid = v.nextpid)
    (pid : ∀ p, (v'.proc p).pid = (v.proc p).pid) : Renames v v' :=
  ⟨nextpid.ge, fun p => .inr (.inl (pid p))⟩

theorem Renames.trans {v'' : View} (h : Renames v v') (h' : Renames v' v'') : Renames v v'' where
  nextpid := h.nextpid.trans h'.nextpid
  pid p := by
    rcases h'.pid p with none | same | new
    · exact .inl none
    · rw [same]
      exact h.pid p
    · exact .inr (.inr (h.nextpid.trans new))

theorem Renames.set {f : Core → Core} (h : Renames v v')
    (same : (f (v'.proc p)).pid = (v'.proc p).pid ∨ (f (v'.proc p)).pid = 0) :
    Renames v (v'.set p f) := by
  refine h.trans ⟨le_rfl, fun q => ?_⟩
  rw [proc_set]
  split
  next here =>
    subst here
    rcases same with same | none
    · exact .inr (.inl same)
    · exact .inl none
  · exact .inr (.inl rfl)

theorem Renames.refl (v : View) : Renames v v := .of_same rfl fun _ => rfl

theorem Act.renames (a : Act ends v v') : Renames v v' := by
  cases a with
  | enter | scan | leave | lock | unlock => exact .of_same rfl fun _ => rfl
  | dispatch c at_ at' m inside runnable =>
    have run := (Renames.refl v).set (p := m) (f := fun q => { q with state := .RUNNING }) (.inl rfl)
    exact ⟨run.nextpid, run.pid⟩
  | wake chan =>
    refine .of_same rfl fun p => ?_
    simp only [View.wake]
    split <;> rfl
  | awake c at_ m run | walk m x old => exact (Renames.refl v).set (.inl rfl)
  | birth c at_ m np run unused =>
    have born : Renames v (View.set { v with nextpid := v.nextpid + 1 } np
        fun q => { q with state := .EMBRYO, pid := v.nextpid }) := by
      refine ⟨Int.le_add_one le_rfl, fun p => ?_⟩
      rw [proc_set]
      split
      · exact .inr (.inr le_rfl)
      · exact .inr (.inl rfl)
    exact born.set (.inl rfl)
  | stack m np child => exact ((Renames.refl v).set (.inl rfl)).set (.inl rfl)
  | release c at_ m np run child =>
    have born : Renames v (v.set np fun q => { q with parent := some m, state := .RUNNABLE }) :=
      (Renames.refl v).set (.inl rfl)
    exact born.set (.inl rfl)
  | stop c at_ m st chan r run held out waits =>
    have stopped := (Renames.refl v).set (p := m)
      (f := fun q => { q with state := st, chan := chan, resume := r }) (.inl rfl)
    exact ⟨stopped.nextpid, stopped.pid⟩
  | exit c at_ m proc run held other ends_ table =>
    refine .of_same rfl fun p => ?_
    show (proc p).pid = (v.proc p).pid
    by_cases self : p = m
    · rw [self, table.self]
    obtain ⟨st, eq, -⟩ := table.others p self
    rw [eq]
  | reap c at_ m p run child zombie => exact (Renames.refl v).set (.inr rfl)

theorem Acts.renames (a : Acts ends v v') : Renames v v' := by
  induction a with
  | refl => exact .refl v
  | tail _ a ih => exact ih.trans a.renames

/-- Every zombie is one of those that have exited. -/
def Noted (exited : ℤ → Prop) (v : View) : Prop :=
  ∀ p, (v.proc p).state = .ZOMBIE → exited (v.proc p).pid

theorem Noted.set (h : Noted exited v) {f : Core → Core}
    (own : (f (v.proc p)).state = .ZOMBIE → (v.proc p).state = .ZOMBIE ∧ (f (v.proc p)).pid =
      (v.proc p).pid) :
    Noted exited (v.set p f) := by
  intro q zombie
  rw [proc_set] at zombie ⊢
  split at zombie
  next same =>
    rw [if_pos same]
    obtain ⟨was, pid⟩ := own zombie
    exact pid ▸ h p was
  next ne =>
    rw [if_neg ne]
    exact h q zombie

theorem Noted.act (h : Noted exited v) (known : ∀ pid, ends pid → exited pid) (a : Act ends v v') :
    Noted exited v' := by
  cases a with
  | enter | scan | leave | lock | unlock => exact h
  | dispatch c at_ at' m inside runnable =>
    exact h.set (p := m) (f := fun q => { q with state := .RUNNING }) (by simp)
  | wake chan =>
    intro p
    simp only [View.wake]
    split
    · simp
    · exact h p
  | awake c at_ m run | walk m x old => exact h.set fun zombie => ⟨zombie, rfl⟩
  | birth c at_ m np run unused =>
    have born : Noted exited (View.set { v with nextpid := v.nextpid + 1 } np
        fun q => { q with state := .EMBRYO, pid := v.nextpid }) :=
      Noted.set (v := { v with nextpid := v.nextpid + 1 }) h (by simp)
    exact born.set fun zombie => ⟨zombie, rfl⟩
  | stack m np child =>
    exact (h.set (p := np) fun zombie => ⟨zombie, rfl⟩).set fun zombie => ⟨zombie, rfl⟩
  | release c at_ m np run child =>
    have born : Noted exited (v.set np fun q => { q with parent := some m, state := .RUNNABLE }) :=
      h.set (by simp)
    exact born.set fun zombie => ⟨zombie, rfl⟩
  | stop c at_ m st chan r run held out waits =>
    refine h.set (p := m) (f := fun q => { q with state := st, chan := chan, resume := r }) ?_
    rcases out with rfl | rfl <;> simp
  | exit c at_ m proc run held other ends_ table =>
    intro p zombie
    have zombie : (proc p).state = .ZOMBIE := zombie
    show exited (proc p).pid
    by_cases self : p = m
    · rw [self, table.self]
      exact known _ ends_
    obtain ⟨st, eq, same | ⟨-, awake⟩⟩ := table.others p self
    · rw [eq] at zombie ⊢
      exact h p (same ▸ zombie)
    · simp [eq, awake] at zombie
  | reap c at_ m p run child zombie => exact h.set (by simp)

theorem Noted.acts (h : Noted exited v) (known : ∀ pid, ends pid → exited pid) (a : Acts ends v v') :
    Noted exited v' := by
  induction a with
  | refl => exact h
  | tail _ a ih => exact ih.act known a

end View

/-! ## Runs -/

/-- Every pid is returned at most once, to the parent and after the process has exited. -/
def Orderly (l : List Obs) : Prop :=
  ∀ l₁ l₂ m parent pid, l = l₁ ++ .returned m parent pid :: l₂ →
    parent = some m ∧ .exited pid ∈ l₁ ∧ ∀ m' parent', .returned m' parent' pid ∉ l₁

theorem Orderly.snoc {l : List Obs} {o : Obs} (h : Orderly l)
    (last : ∀ m parent pid, o = .returned m parent pid →
      parent = some m ∧ .exited pid ∈ l ∧ ∀ m' parent', .returned m' parent' pid ∉ l) :
    Orderly (l ++ [o]) := by
  intro l₁ l₂ m parent pid split
  rcases List.eq_nil_or_concat l₂ with rfl | ⟨l₂', o', rfl⟩
  · obtain ⟨rfl, same⟩ := List.append_inj' split rfl
    exact last m parent pid (List.singleton_inj.1 same)
  rw [List.concat_eq_append, ← List.cons_append, ← List.append_assoc] at split
  exact h l₁ l₂' m parent pid (List.append_inj' split rfl).1

/-- The processes and what has been seen of them. -/
structure Settled (l : List Obs) (s : Kernel) : Prop where
  sane : s.life.Sane
  family : Family s.view
  noted : s.view.Noted fun pid => .exited pid ∈ l
  gone : ∀ m parent pid, .returned m parent pid ∈ l →
    pid ≠ 0 ∧ pid < s.nextpid ∧ ∀ p, (s.procs p).pid ≠ pid
  orderly : Orderly l

namespace Settled

variable {l : List Obs} {s : Kernel}

theorem boot : Settled [] Kernel.boot where
  sane := boot_sane
  family := Family.boot
  noted p zombie := absurd zombie (by revert p; decide)
  gone m parent pid h := absurd h List.not_mem_nil
  orderly l₁ l₂ m parent pid h := by simp at h

theorem gone_of_renames {v' : View} (h : v.Renames v') (nz : pid ≠ 0) (old : pid < v.nextpid)
    (none : ∀ p, (v.proc p).pid ≠ pid) : pid < v'.nextpid ∧ ∀ p, (v'.proc p).pid ≠ pid := by
  refine ⟨old.trans_le h.nextpid, fun p same => ?_⟩
  rcases h.pid p with zero | keep | new
  · exact nz (same.symm.trans zero)
  · exact none p (keep.symm.trans same)
  · omega

theorem effect_renames (eff : Effect s e v) : s.view.Renames v := by
  cases eff with
  | acts _ _ a => exact View.Acts.renames a
  | abort c m np current child =>
    have gone : s.view.Renames (s.view.set np fun q => { q with state := .UNUSED }) :=
      (View.Renames.refl _).set (.inl rfl)
    exact gone.set (.inl rfl)
  | kill c pid p found => exact (View.Renames.refl _).set (.inl rfl)

theorem effect_noted (h : s.view.Noted exited) (known : ∀ pid, s.exits e = some pid → exited pid)
    (eff : Effect s e v) : v.Noted exited := by
  cases eff with
  | acts _ _ a => exact h.acts known a
  | abort c m np current child =>
    have gone : (s.view.set np fun q => { q with state := .UNUSED }).Noted exited := h.set (by simp)
    exact gone.set fun zombie => ⟨zombie, rfl⟩
  | kill c pid p found =>
    refine h.set fun zombie => ⟨?_, rfl⟩
    dsimp only at zombie
    split at zombie
    · simp at zombie
    · exact zombie

theorem exits_orderly (h : Settled l s) (e : Event) :
    Orderly (l ++ ((s.exits e).map Obs.exited).toList) := by
  cases s.exits e with
  | none =>
    rw [Option.map_none, Option.toList_none, List.append_nil]
    exact h.orderly
  | some pid => exact h.orderly.snoc fun _ _ _ o => nomatch o

theorem returned (h : Settled l s) (reapable : s.Reapable m p pid) (l' : List Obs)
    (exits : ∀ o ∈ l', ∃ x, o = .exited x) :
    (s.procs p).parent = some m ∧ .exited pid ∈ l ++ l' ∧
      ∀ m' parent', .returned m' parent' pid ∉ l ++ l' := by
  obtain ⟨parent, zombie, rfl⟩ := reapable
  refine ⟨parent, List.mem_append_left _ (h.noted p zombie), fun m' parent' again => ?_⟩
  rcases List.mem_append.1 again with before | here
  · exact (h.gone _ _ _ before).2.2 p rfl
  obtain ⟨x, eq⟩ := exits _ here
  cases eq

theorem step {pol : Policy} (h : Settled l s) :
    wp (step pol e) (fun _ => Settled (l ++ observe pol s e)) anyStop s := by
  have exits : ∀ o ∈ ((s.exits e).map Obs.exited).toList, ∃ x, o = .exited x := by
    intro o seen
    obtain ⟨x, -, eq⟩ : ∃ x, s.exits e = some x ∧ Obs.exited x = o := by simpa using seen
    exact ⟨x, eq.symm⟩
  have known : ∀ pid, s.exits e = some pid → .exited pid ∈ l ++ observe pol s e := by
    intro pid ends
    simp [observe, ends]
  have noted : s.view.Noted fun pid => .exited pid ∈ l ++ observe pol s e :=
    fun p zombie => List.mem_append_left _ (h.noted p zombie)
  -- what was returned before, and what holds of a state that `s'` renames
  have old {s' : Kernel} (eff : Effect s e s'.view) {m : Slot} {parent : Option Slot} {pid : ℤ}
      (before : .returned m parent pid ∈ l) :
      pid ≠ 0 ∧ pid < s'.nextpid ∧ ∀ p, (s'.procs p).pid ≠ pid := by
    obtain ⟨nz, given, none⟩ := h.gone m parent pid before
    exact ⟨nz, gone_of_renames (effect_renames eff) nz given none⟩
  rcases returns_cases s pol e with quiet | ⟨m, p, pid, turn, returns⟩
  · refine wp_imp (step_effect pol e) fun _ s' eff => ?_
    refine ⟨h.sane.effect eff, h.family.effect h.sane eff, effect_noted noted known eff,
      fun m parent pid seen => ?_, ?_⟩
    · rw [observe, quiet, List.append_nil] at seen
      rcases List.mem_append.1 seen with before | here
      · exact old eff before
      obtain ⟨x, eq⟩ := exits _ here
      cases eq
    · rw [observe, quiet, List.append_nil]
      exact h.exits_orderly e
  obtain ⟨reapable, reaps⟩ := turn_reaps turn
  refine wp_mono (wp_and (step_effect pol e) reaps) (fun _ s' both => ?_) fun _ _ _ => trivial
  obtain ⟨eff, zero⟩ := both
  refine ⟨h.sane.effect eff, h.family.effect h.sane eff, effect_noted noted known eff,
    fun m' parent' pid' seen => ?_, ?_⟩
  · rw [observe, returns, ← List.append_assoc] at seen
    rcases List.mem_append.1 seen with before | here
    · rcases List.mem_append.1 before with before | here
      · exact old eff before
      obtain ⟨x, eq⟩ := exits _ here
      cases eq
    obtain ⟨-, -, rfl⟩ : m' = m ∧ parent' = (s.procs p).parent ∧ pid' = pid := by simpa using here
    obtain ⟨-, zombie, rfl⟩ := reapable
    have nz : (s.procs p).pid ≠ 0 := h.sane.named p (by simp [Kernel.life, zombie])
    have fresh : (s.procs p).pid < s.nextpid := h.sane.fresh p
    have renames := effect_renames eff
    refine ⟨nz, fresh.trans_le renames.nextpid, fun q same => ?_⟩
    by_cases self : q = p
    · rw [self, zero] at same
      exact nz same.symm
    rcases renames.pid q with none | keep | new
    · exact nz (same.symm.trans none)
    · have eq : (s.procs q).pid = (s.procs p).pid := keep.symm.trans same
      exact self (h.sane.pids q p eq fun none => nz (eq.symm.trans none))
    · exact absurd (same ▸ new) (not_le.2 fresh)
  · rw [observe, returns, ← List.append_assoc]
    refine (h.exits_orderly e).snoc fun m' parent' pid' eq => ?_
    cases eq
    exact h.returned reapable _ exits

end Settled

/-- A process other than init that is born has a parent that is born and has not exited, and who
sleeps in `wait` has no zombie child. Each pid is returned at most once, to the parent, after
`exit`. -/
theorem family_and_reaping (pol : Policy) (es : List Event) {s : Kernel}
    (reached : exec (run (step pol) es) Kernel.boot = (.ok ⟨⟩, s)) :
    (∀ p, (s.procs p).state.Born → p ≠ s.initproc →
      ∃ q, (s.procs p).parent = some q ∧ (s.procs q).state.Grown) ∧
    (∀ m, (s.procs m).state = .SLEEPING → (s.procs m).resume.Waits → (s.procs m).chan = .proc m ∧
      ∀ p, (s.procs p).parent = some m → (s.procs p).state ≠ .ZOMBIE) ∧
    ∀ l₁ l₂ m parent pid,
      observed (step pol) (observe pol) es Kernel.boot = l₁ ++ .returned m parent pid :: l₂ →
      parent = some m ∧ .exited pid ∈ l₁ ∧
        ∀ m' parent', .returned m' parent' pid ∉ l₁ ∧ .returned m' parent' pid ∉ l₂ := by
  have settled : Settled (observed (step pol) (observe pol) es Kernel.boot) s :=
    of_observed (fun _ _ _ h => h.step) Settled.boot reached
  refine ⟨settled.family.parents, settled.family.waits, fun l₁ l₂ m parent pid split => ?_⟩
  obtain ⟨child, exited, first⟩ := settled.orderly l₁ l₂ m parent pid split
  refine ⟨child, exited, fun m' parent' => ⟨first m' parent', fun later => ?_⟩⟩
  -- a second return of the same pid would come after the first
  obtain ⟨a, b, rfl⟩ := List.append_of_mem later
  have again := settled.orderly (l₁ ++ .returned m parent pid :: a) b m' parent' pid
    (by rw [split, List.append_assoc, List.cons_append])
  exact again.2.2 m parent (by simp)

/-- The first process forks; the child exits on CPU 1, and the first process waits for it. -/
def reapChild : List Event :=
  [.schedule 0, .schedule 0, .resume 0, .sysret 0, .syscall 0, .fork 0, .forkStack 0, .forkDone 0,
    .schedule 1, .schedule 1, .schedule 1, .resume 1, .syscall 1, .exit 1] ++
    List.replicate 6 (.schedule 1) ++ [.wait 0]

theorem family_and_reaping_child :
    let l := observed (step .MLFQ) (observe .MLFQ) reapChild Kernel.boot
    l = [.exited 2] ++ [.returned 0 (some 0) 2] ∧ Obs.exited 2 ∈ [Obs.exited 2] := by
  have done : (exec (run (step .MLFQ) reapChild) Kernel.boot).1 = .ok ⟨⟩ := by decide +kernel
  have seen : observed (step .MLFQ) (observe .MLFQ) reapChild Kernel.boot =
      [.exited 2] ++ [.returned 0 (some 0) 2] := by decide +kernel
  have result := (family_and_reaping .MLFQ reapChild (exec_eq_of_ok done)).2.2
  exact ⟨seen, (result _ _ _ _ _ seen).2.1⟩

end Xv6
