import Xv6.Proc.Deeds

/-!
# Parents and children

Every process but the first has a parent that is there to wait for it, and a process that sleeps in
`wait` or `waitx` has no child to reap.
-/

namespace Xv6

open Lib

def ProcState.Born (st : ProcState) : Prop := st ≠ .UNUSED ∧ st ≠ .EMBRYO
  deriving Decidable

def ProcState.Grown (st : ProcState) : Prop := st.Born ∧ st ≠ .ZOMBIE
  deriving Decidable

def Resume.Waits (r : Resume) : Prop := r = .wait ∨ r = .waitx
  deriving Decidable

structure Family (v : View) : Prop where
  init : (v.proc v.initproc).state.Grown
  orphan : (v.proc v.initproc).parent = none
  other : ∀ p, (v.proc p).parent ≠ some p
  parents : ∀ p, (v.proc p).state.Born → p ≠ v.initproc →
    ∃ q, (v.proc p).parent = some q ∧ (v.proc q).state.Grown
  waits : ∀ m, (v.proc m).state = .SLEEPING → (v.proc m).resume.Waits →
    (v.proc m).chan = .proc m ∧ v.NoZombie m

namespace Family

open View

variable {ends : ℤ → Prop} {v v' : View}

/-- A process that changes neither its parent nor whether it is born and grown. -/
structure Stays (q q' : Core) : Prop where
  parent : q'.parent = q.parent
  born : q'.state.Born ↔ q.state.Born
  grown : q'.state.Grown ↔ q.state.Grown

theorem Stays.refl (q : Core) : Stays q q := ⟨rfl, .rfl, .rfl⟩

theorem Stays.zombie {q q' : Core} (h : Stays q q') (zombie : q'.state = .ZOMBIE) :
    q.state = .ZOMBIE := by
  have born := h.born
  have grown := h.grown
  simp only [zombie, ProcState.Grown, ProcState.Born] at born grown
  by_contra ne
  exact grown.not.1 (by simp) ⟨born.1 (by simp), ne⟩

theorem noZombie_stays {m : Slot} (h : v.NoZombie m) (stays : ∀ p, Stays (v.proc p) (v'.proc p)) :
    v'.NoZombie m := fun p child zombie =>
  h p ((stays p).parent ▸ child) ((stays p).zombie zombie)

section

variable (h : Family v)
include h

theorem of_stays (initproc : v'.initproc = v.initproc)
    (stays : ∀ p, Stays (v.proc p) (v'.proc p))
    (asleep : ∀ p, (v'.proc p).state = .SLEEPING → (v'.proc p).resume.Waits →
      (v.proc p).state = .SLEEPING ∧ (v.proc p).resume.Waits ∧ (v'.proc p).chan = (v.proc p).chan ∨
        (v'.proc p).chan = .proc p ∧ v.NoZombie p) : Family v' where
  init := by
    rw [initproc]
    exact (stays _).grown.2 h.init
  orphan := by
    rw [initproc, (stays _).parent]
    exact h.orphan
  other p := by
    rw [(stays p).parent]
    exact h.other p
  parents p born ne := by
    rw [initproc] at ne
    obtain ⟨q, parent, grown⟩ := h.parents p ((stays p).born.1 born) ne
    exact ⟨q, (stays p).parent.trans parent, (stays q).grown.2 grown⟩
  waits m slept waiting := by
    rcases asleep m slept waiting with ⟨slept, waiting, chan⟩ | ⟨chan, none⟩
    · obtain ⟨old, none⟩ := h.waits m slept waiting
      exact ⟨chan.trans old, noZombie_stays none stays⟩
    · exact ⟨chan, noZombie_stays none stays⟩

theorem set {p : Slot} {f : Core → Core} (stays : Stays (v.proc p) (f (v.proc p)))
    (awake : (f (v.proc p)).state = .SLEEPING →
      (f (v.proc p)).resume = (v.proc p).resume ∧ (f (v.proc p)).chan = (v.proc p).chan ∧
        (v.proc p).state = .SLEEPING) : Family (v.set p f) := by
  refine h.of_stays rfl (fun q => ?_) fun q slept waiting => .inl ?_
  · rw [proc_set]
    split
    next same => exact same ▸ stays
    · exact .refl _
  rw [proc_set] at slept waiting ⊢
  split at slept
  next same =>
    subst same
    simp only [if_true] at waiting ⊢
    obtain ⟨resume, chan, before⟩ := awake slept
    exact ⟨before, resume ▸ waiting, chan⟩
  next ne =>
    simp only [if_neg ne] at waiting ⊢
    exact ⟨slept, waiting, trivial⟩

theorem release {m np : Slot} (run : (v.proc m).state = .RUNNING)
    (embryo : (v.proc np).state = .EMBRYO) :
    Family (v.set np fun q => { q with parent := some m, state := .RUNNABLE }) := by
  have grown {q : Slot} (h : (v.proc q).state.Grown) : q ≠ np := fun same => by
    simp [same, embryo, ProcState.Grown, ProcState.Born] at h
  have first := grown h.init
  refine ⟨?_, ?_, fun p => ?_, fun p born ne => ?_, fun w slept waiting => ?_⟩
  · exact (proc_set_ne v _ first).symm ▸ h.init
  · exact (proc_set_ne v _ first).symm ▸ h.orphan
  · rw [proc_set]
    split
    next same =>
      intro self
      rw [same, Option.some.injEq] at self
      simp [self, embryo] at run
    · exact h.other p
  · by_cases same : p = np
    · refine ⟨m, by rw [same, proc_set_same], ?_⟩
      have ne : m ≠ np := fun same => by simp [same, embryo] at run
      simp [proc_set_ne v _ ne, run, ProcState.Grown, ProcState.Born]
    rw [proc_set_ne v _ same] at born ⊢
    obtain ⟨q, parent, hq⟩ := h.parents p born ne
    exact ⟨q, parent, (proc_set_ne v _ (grown hq)).symm ▸ hq⟩
  · have away : w ≠ np := fun same => by simp [same] at slept
    rw [proc_set_ne v _ away] at slept waiting ⊢
    obtain ⟨chan, none⟩ := h.waits w slept waiting
    refine ⟨chan, fun p child zombie => ?_⟩
    by_cases same : p = np
    · simp [same] at zombie
    rw [proc_set_ne v _ same] at child zombie
    exact none p child zombie

theorem reap {p : Slot} (zombie : (v.proc p).state = .ZOMBIE) :
    Family (v.set p fun q =>
      { q with pid := 0, parent := none, killed := false, state := .UNUSED }) := by
  have grown {q : Slot} (h : (v.proc q).state.Grown) : q ≠ p := fun same => by
    simp [same, zombie, ProcState.Grown] at h
  have first := grown h.init
  refine ⟨?_, ?_, fun q => ?_, fun q born ne => ?_, fun w slept waiting => ?_⟩
  · exact (proc_set_ne v _ first).symm ▸ h.init
  · exact (proc_set_ne v _ first).symm ▸ h.orphan
  · rw [proc_set]
    split
    · simp
    · exact h.other q
  · have same : q ≠ p := fun same => by simp [same, ProcState.Born] at born
    rw [proc_set_ne v _ same] at born ⊢
    obtain ⟨r, parent, hr⟩ := h.parents q born ne
    exact ⟨r, parent, (proc_set_ne v _ (grown hr)).symm ▸ hr⟩
  have away : w ≠ p := fun same => by simp [same] at slept
  rw [proc_set_ne v _ away] at slept waiting ⊢
  obtain ⟨chan, none⟩ := h.waits w slept waiting
  refine ⟨chan, fun q child zombie' => ?_⟩
  by_cases same : q = p
  · simp [same] at zombie'
  rw [proc_set_ne v _ same] at child zombie'
  exact none q child zombie'

theorem exit {m : Slot} {proc : Slot → Core} (run : (v.proc m).state = .RUNNING)
    (other : m ≠ v.initproc) (table : v.Exits m proc) : Family { v with proc := proc } := by
  have parent (p : Slot) : (proc p).parent = v.adopter m p := by
    by_cases self : p = m
    · rw [self, table.self]
    obtain ⟨st, eq, -⟩ := table.others p self
    rw [eq]
  have stays (p : Slot) (ne : p ≠ m) : ((proc p).state.Born ↔ (v.proc p).state.Born) ∧
      ((proc p).state.Grown ↔ (v.proc p).state.Grown) := by
    obtain ⟨st, eq, rfl | ⟨slept, rfl⟩⟩ := table.others p ne
    · rw [eq]
      exact ⟨.rfl, .rfl⟩
    rw [eq]
    simp [slept, ProcState.Grown, ProcState.Born]
  have init : (proc v.initproc).state.Grown := (stays _ other.symm).2.2 h.init
  refine ⟨init, ?_, fun p => ?_, fun p born ne => ?_, fun w slept waiting => ?_⟩
  · show (proc v.initproc).parent = none
    simp [parent, adopter, h.orphan]
  · show (proc p).parent ≠ some p
    rw [parent, adopter]
    split
    next child =>
      intro self
      rw [Option.some.injEq] at self
      simp [← self, h.orphan] at child
    · exact h.other p
  · show ∃ q, (proc p).parent = some q ∧ (proc q).state.Grown
    have born : (v.proc p).state.Born := by
      by_cases self : p = m
      · simp [self, run, ProcState.Born]
      · exact (stays p self).1.1 born
    obtain ⟨q, child, grown⟩ := h.parents p born ne
    rw [parent, adopter]
    split
    · exact ⟨_, rfl, init⟩
    next stranger =>
      have away : q ≠ m := fun same => stranger (same ▸ child)
      exact ⟨q, child, (stays q away).2.2 grown⟩
  have slept : (proc w).state = .SLEEPING := slept
  have waiting : (proc w).resume.Waits := waiting
  have away : w ≠ m := fun same => by simp [same, table.self] at slept
  obtain ⟨st, eq, woken⟩ := table.others w away
  have before : (v.proc w).state = .SLEEPING := by
    rw [eq] at slept
    rcases woken with rfl | ⟨-, rfl⟩
    · exact slept
    · simp at slept
  obtain ⟨chan, none⟩ := h.waits w before (by rw [eq] at waiting; exact waiting)
  have same : (proc w).chan = (v.proc w).chan := by rw [eq]
  refine ⟨same.trans chan, fun p child zombie => ?_⟩
  have child : v.adopter m p = some w := parent p ▸ child
  have zombie : (proc p).state = .ZOMBIE := zombie
  by_cases self : p = m
  · -- the parent of a process that exits has been woken
    subst self
    rw [adopter, if_neg (h.other p)] at child
    exact table.parent w child w slept chan
  have was : (v.proc p).state = .ZOMBIE := by
    obtain ⟨st, eq, rfl | ⟨-, rfl⟩⟩ := table.others p self
    · rwa [eq] at zombie
    · simp [eq] at zombie
  rw [adopter] at child
  split at child
  next mine =>
    rw [Option.some.injEq] at child
    exact table.init ⟨p, mine, was⟩ w slept (child ▸ chan)
  · exact none p child was

theorem act (sane : v.life.Sane) (a : Act ends v v') : Family v' := by
  have running {c : ℕ} {at_ : Place} {m : Slot} (run : v.cpu c = .running at_ m) :
      (v.proc m).state = .RUNNING := sane.running c m (congrArg Cpu.proc run)
  have embryo {m np : Slot} (child : (v.proc m).pos.child = some np) :
      (v.proc np).state = .EMBRYO := sane.embryo m np child
  cases a with
  | enter | scan | leave | lock | unlock => exact ⟨h.init, h.orphan, h.other, h.parents, h.waits⟩
  | dispatch c at_ at' m inside runnable =>
    have moved := h.set (p := m) (f := fun q => { q with state := .RUNNING })
      ⟨rfl, by simp [runnable, ProcState.Born], by simp [runnable, ProcState.Born, ProcState.Grown]⟩
      (by simp)
    exact ⟨moved.init, moved.orphan, moved.other, moved.parents, moved.waits⟩
  | wake chan =>
    refine h.of_stays rfl (fun p => ?_) fun p slept waiting => .inl ?_
    · simp only [View.wake]
      split
      next slept =>
        exact ⟨rfl, by simp [slept, ProcState.Born], by simp [slept, ProcState.Born, ProcState.Grown]⟩
      · exact .refl _
    simp only [View.wake] at slept waiting ⊢
    split at slept
    · simp at slept
    next awake =>
      simp only [if_neg awake] at waiting ⊢
      exact ⟨slept, waiting, trivial⟩
  | awake c at_ m run => exact h.set ⟨rfl, .rfl, .rfl⟩ (by simp [running run])
  | walk m x old => exact h.set ⟨rfl, .rfl, .rfl⟩ (by simp)
  | birth c at_ m np run unused =>
    have base : Family { v with nextpid := v.nextpid + 1 } :=
      ⟨h.init, h.orphan, h.other, h.parents, h.waits⟩
    have born := base.set (p := np) (f := fun q => { q with state := .EMBRYO, pid := v.nextpid })
      ⟨rfl, by simp [unused, ProcState.Born], by simp [unused, ProcState.Born, ProcState.Grown]⟩
      (by simp)
    exact born.set ⟨rfl, .rfl, .rfl⟩ (by simp)
  | stack m np child =>
    have stacked := h.set (p := np) (f := fun q => { q with resume := .forkret }) ⟨rfl, .rfl, .rfl⟩
      (by simp [embryo child])
    exact stacked.set ⟨rfl, .rfl, .rfl⟩ (by simp)
  | release c at_ m np run child =>
    exact (h.release (running run) (embryo child)).set ⟨rfl, .rfl, .rfl⟩ (by simp)
  | stop c at_ m st chan r run held out waits =>
    have run := running run
    have stays : Stays (v.proc m) { v.proc m with state := st, chan := chan, resume := r } := by
      rcases out with rfl | rfl <;>
        exact ⟨rfl, by simp [run, ProcState.Born], by simp [run, ProcState.Born, ProcState.Grown]⟩
    refine h.of_stays rfl (fun p => ?_) fun p slept waiting => ?_
    · simp only [View.move, proc_set]
      split
      next same => exact same ▸ stays
      · exact .refl _
    simp only [View.move, proc_set] at slept waiting ⊢
    split at slept
    next same =>
      subst same
      simp only [if_true] at waiting ⊢
      exact .inr (waits waiting)
    next ne =>
      simp only [if_neg ne] at waiting ⊢
      exact .inl ⟨slept, waiting, trivial⟩
  | exit c at_ m proc run held other ends_ table =>
    have left := h.exit (running run) other table
    exact ⟨left.init, left.orphan, left.other, left.parents, left.waits⟩
  | reap c at_ m p run child zombie => exact h.reap zombie

theorem acts (sane : v.life.Sane) (a : Acts ends v v') : Family v' := by
  induction a with
  | refl => exact h
  | tail before a ih => exact ih.act (sane.acts before) a

end

theorem effect {s : Kernel} {e : Event} (h : Family s.view) (sane : s.life.Sane)
    (eff : Effect s e v) : Family v := by
  cases eff with
  | acts _ _ a => exact h.acts sane a
  | abort c m np current child =>
    have embryo : (s.view.proc np).state = .EMBRYO := sane.embryo m np child
    have gone := h.set (p := np) (f := fun q => { q with state := .UNUSED })
      ⟨rfl, by simp [embryo, ProcState.Born], by simp [embryo, ProcState.Born, ProcState.Grown]⟩
      (by simp)
    exact gone.set ⟨rfl, .rfl, .rfl⟩ (by simp)
  | kill c pid p found =>
    refine h.set ?_ ?_
    · by_cases slept : (s.view.proc p).state = .SLEEPING
      · exact ⟨rfl, by simp [slept, ProcState.Born], by simp [slept, ProcState.Born, ProcState.Grown]⟩
      simp only [if_neg slept]
      exact ⟨rfl, .rfl, .rfl⟩
    dsimp only
    split
    · simp
    · exact fun slept => ⟨rfl, rfl, slept⟩

theorem boot : Family Kernel.boot.view where
  init := by decide
  orphan := by decide
  other := by decide
  parents := by decide
  waits := by
    intro m slept
    exact absurd slept (by revert m; decide)

end Family

end Xv6
