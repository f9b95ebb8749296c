import Xv6.Sleep.Machine

/-!
# Why a process sleeps

Code goes to sleep on a channel only for a reason, and, before it releases the lock under which the
reason went away, wakes up the sleepers.  While the lock is free, a sleeper then still has its
reason.
-/

set_option linter.unusedSectionVars false

namespace Xv6.Sleep

section

variable {P D C ι L : Type}

/-- A process on its way to sleep on `c`, or asleep on it. -/
def Task.WaitsOn (code : P → L → Instr D C ι L) (p : P) (t : Task C L) (c : C) : Prop :=
  match t.phase with
  | .running x => ∃ lk y, code p x = .sleep c lk y
  | .sleepAcquire chan _ _ | .sleepRelease chan _ _ | .sleepSet chan _ _ => chan = c
  | .asleep _ _ => t.state = .SLEEPING ∧ t.chan = some c
  | _ => False

/-- A process at a place in `wakes` that wakes up the sleepers on `c` before it releases `lk`. -/
def Phase.WakesUp (holds : L → SpinLock → Prop) (wakes : L → C → Prop) (lk : SpinLock) (c : C) :
    Phase C L → Prop
  | .running x => wakes x c
  | .wakeupAcquire chan y | .wakeupLoop chan y => chan = c ∧ holds y lk
  | _ => False

/-- From their places, some process may be waiting on `c`. -/
def Waitable (code : P → L → Instr D C ι L) (places : P → L) (c : C) : Prop :=
  ∃ q x lk y, code q x = .sleep c lk y ∧ (places q = x ∨ places q = y)

/-- The code sleeps on `c` under `lock c` for a reason that goes away only with a `wakeup` to
follow. -/
structure Heralds (code : P → L → Instr D C ι L) (holds : L → SpinLock → Prop)
    (lock : C → SpinLock) (reason : C → D → Prop) (wakes : L → C → Prop)
    (I : D → (P → L) → Prop) : Prop where
  other : ∀ c, lock c ≠ .ptable
  sleep : ∀ {p x c lk y}, code p x = .sleep c lk y → lk = lock c ∧ holds x lk
  wakeup : ∀ {p x c}, wakes x c → ∃ y, code p x = .wakeup c y ∧ holds y (lock c)
  holds : ∀ {x c}, wakes x c → holds x (lock c)
  leads : ∀ {p x y}, (code p x).Leads y → ∀ c lk z, code p y ≠ .sleep c lk z
  falls : ∀ {d places p x f b i d' y}, I d places → places p = x → code p x = .compute f →
    f b d i = (d', y) → ∀ c lk z, code p y = .sleep c lk z → reason c d'
  ends : ∀ {d places p x f b i d' y}, I d places → places p = x → code p x = .compute f →
    f b d i = (d', y) → ∀ c, Waitable code places c → reason c d → reason c d' ∨ wakes y c

/-- Who waits has a reason, or is going to be woken up. -/
def Awaited (code : P → L → Instr D C ι L) (holds : L → SpinLock → Prop) (lock : C → SpinLock)
    (reason : C → D → Prop) (wakes : L → C → Prop) (s : Machine P D C L) : Prop :=
  ∀ p c, (s.task p).WaitsOn code p c →
    reason c s.data ∨ ∃ q, (s.task q).phase.WakesUp holds wakes (lock c) c

variable [DecidableEq P] [DecidableEq C] {code : P → L → Instr D C ι L}
  {holds : L → SpinLock → Prop} {lock : C → SpinLock} {reason : C → D → Prop}
  {wakes : L → C → Prop} {I : D → (P → L) → Prop} {s s' : Machine P D C L}

theorem Sound.waitable (sound : Sound code holds s) (sleepers : s.Sleepers code) {p : P} {c : C}
    (waits : (s.task p).WaitsOn code p c) : Waitable code s.places c := by
  have calls := sound.calls p
  have place : s.places p = (s.task p).phase.place := rfl
  have slept := sleepers p
  unfold Task.WaitsOn at waits
  generalize (s.task p).phase = x at waits calls place slept
  cases x with
  | running x =>
    obtain ⟨lk, y, does⟩ := waits
    exact ⟨p, x, lk, y, does, .inl place⟩
  | sleepAcquire chan lk y | sleepRelease chan lk y =>
    obtain ⟨-, x, does⟩ := calls
    exact ⟨p, x, lk, y, waits ▸ does, .inr place⟩
  | sleepSet chan lk y =>
    obtain ⟨x, does⟩ := calls
    exact ⟨p, x, lk, y, waits ▸ does, .inr place⟩
  | asleep lk y =>
    obtain ⟨chan, x, lk', y', is, phase, does⟩ := slept waits.1
    rw [waits.2, Option.some.injEq] at is
    cases phase
    exact ⟨p, x, lk, y, is ▸ does, .inr place⟩
  | _ => exact waits.elim

namespace Awaited

section

variable (h : Awaited code holds lock reason wakes s)
include h

theorem frame (data : s'.data = s.data)
    (waits : ∀ q c, (s'.task q).WaitsOn code q c → (s.task q).WaitsOn code q c)
    (still : ∀ q c, (s.task q).phase.WakesUp holds wakes (lock c) c →
      (s'.task q).phase.WakesUp holds wakes (lock c) c) :
    Awaited code holds lock reason wakes s' := by
  intro q c now
  rcases h q c (waits q c now) with holds | ⟨r, wakes⟩
  · exact .inl (data ▸ holds)
  · exact .inr ⟨r, still r c wakes⟩

theorem own (p : P) (data : s'.data = s.data)
    (others : ∀ q, q ≠ p → s'.task q = s.task q)
    (waits : ∀ c, (s'.task p).WaitsOn code p c → (s.task p).WaitsOn code p c)
    (still : ∀ c, (s.task p).phase.WakesUp holds wakes (lock c) c →
      (s'.task p).phase.WakesUp holds wakes (lock c) c) :
    Awaited code holds lock reason wakes s' := by
  refine h.frame data (fun q c now => ?_) fun q c now => ?_
  · by_cases same : q = p
    · subst same
      exact waits c now
    · rwa [others q same] at now
  by_cases same : q = p
  · subst same
    exact still c now
  · rwa [others q same]

theorem ownPhase {s₁ : Machine P D C L} {p : P}
    {x y : Phase C L} (here : (s.task p).phase = x) (data : s₁.data = s.data)
    (task : s₁.task = s.task)
    (waits : ∀ c, Task.WaitsOn code p { s.task p with phase := y } c →
      Task.WaitsOn code p { s.task p with phase := x } c)
    (still : ∀ c, x.WakesUp holds wakes (lock c) c → y.WakesUp holds wakes (lock c) c) :
    Awaited code holds lock reason wakes (s₁.setPhase p y) := by
  refine h.own p data (fun q ne => by rw [Machine.task_setPhase_ne _ _ ne, task]) ?_ ?_
  · intro c now
    rw [Machine.task_setPhase_same, task] at now
    have before := waits c now
    rwa [← here] at before
  · rw [here, Machine.task_setPhase_same]
    exact still

end

theorem reaches (heralds : Heralds code holds lock reason wakes I) (sound : Sound code holds s)
    {p q : P} {y : L} {c : C} (here : (s.task p).phase = .wakeupLoop c y)
    (held : holds y (lock c)) (other : q ≠ p) : ¬ ((s.wake c).task q).WaitsOn code q c := by
  intro waits
  have table : (s.task p).phase.Holds holds .ptable := by rw [here]; exact .inr rfl
  have mine : (s.task p).phase.Holds holds (lock c) := by
    rw [here]
    exact .inl ⟨held, heralds.other c⟩
  have calls := sound.calls q
  have alone {l : SpinLock} (mine : (s.task p).phase.Holds holds l)
      (held : (s.task q).phase.Holds holds l) : False := other (sound.alone held mine)
  have noLock := alone mine
  have noTable := alone table
  have slept : ((s.wake c).task q).state = .SLEEPING → ((s.wake c).task q).chan ≠ some c := by
    intro slept
    obtain ⟨same, -, ne⟩ := slept_wake slept
    rwa [same]
  unfold Task.WaitsOn at waits
  rw [s.phase_wake] at waits
  generalize (s.task q).phase = x at waits calls noLock noTable
  cases x with
  | running x =>
    obtain ⟨lk, z, does⟩ := waits
    obtain ⟨rfl, had⟩ := heralds.sleep does
    exact noLock had
  | sleepAcquire chan lk z =>
    subst waits
    obtain ⟨-, x, does⟩ := calls
    exact noLock (heralds.sleep does).1.symm
  | sleepRelease chan lk z =>
    subst waits
    obtain ⟨ne, x, does⟩ := calls
    exact noLock ⟨ne, .inl (heralds.sleep does).1.symm⟩
  | sleepSet chan lk z => exact noTable rfl
  | asleep lk z => exact slept waits.1 waits.2
  | _ => exact waits

theorem waits_of_wake {chan c : C} {q : P} (waits : ((s.wake chan).task q).WaitsOn code q c) :
    (s.task q).WaitsOn code q c := by
  unfold Task.WaitsOn at waits ⊢
  rw [s.phase_wake] at waits
  generalize (s.task q).phase = x at waits
  cases x with
  | asleep lk y =>
    obtain ⟨same, slept, -⟩ := slept_wake waits.1
    rw [same] at waits
    exact waits
  | _ => exact waits

section

variable (heralds : Heralds code holds lock reason wakes I) (sound : Sound code holds s)
  (sleepers : s.Sleepers code) (inv : I s.data s.places)
  (h : Awaited code holds lock reason wakes s)
include heralds sound sleepers inv h

theorem compute {p : P} {i : ι} {x y : L} {d : D} {f : Bool → D → ι → D × L}
    (here : (s.task p).phase = .running x) (does : code p x = .compute f)
      (result : f (s.task p).killed s.data i = (d, y)) :
    Awaited code holds lock reason wakes (Machine.setPhase { s with data := d } p (.running y)) := by
  have place : s.places p = x := by rw [Machine.places, here]; rfl
  have others (q : P) (ne : q ≠ p) :
      (Machine.setPhase { s with data := d } p (.running y)).task q = s.task q :=
    Machine.task_setPhase_ne _ _ ne
  intro q c waits
  by_cases same : q = p
  · subst same
    rw [Machine.task_setPhase_same] at waits
    obtain ⟨lk, z, sleeps⟩ := waits
    exact .inl (heralds.falls inv place does result c lk z sleeps)
  rw [others q same] at waits
  rcases h q c waits with why | ⟨r, wakes'⟩
  · rcases heralds.ends inv place does result c (sound.waitable sleepers waits) why with why | wakes
    · exact .inl why
    refine .inr ⟨p, ?_⟩
    rw [Machine.task_setPhase_same]
    exact wakes
  refine .inr ⟨r, ?_⟩
  have ne : r ≠ p := by
    rintro rfl
    rw [here] at wakes'
    obtain ⟨z, calls, -⟩ := heralds.wakeup (p := r) wakes'
    rw [does] at calls
    cases calls
  rwa [others r ne]

theorem step {e : Event P ι} (st : Step code s e s') : Awaited code holds lock reason wakes s' := by
  -- a place where a process arrives otherwise than by computing does not call `sleep`
  have noSleep {p : P} {x y : L} (goes : (code p x).Leads y) (c : C) :
      ¬ ∃ lk z, code p y = .sleep c lk z := fun ⟨lk, z, does⟩ => heralds.leads goes c lk z does
  have noWaker {p : P} {x : L} {c : C} (not : ∀ y, code p x ≠ .wakeup c y) : ¬ wakes x c :=
    fun waker => by
      obtain ⟨y, calls, -⟩ := heralds.wakeup (p := p) waker
      exact not y calls
  cases st with
  | idle | take free | drop held => exact h
  | acquire run here does free | release run here does =>
    refine h.ownPhase here rfl rfl (fun c waits => ?_) fun c waker => ?_
    · exact absurd waits (noSleep (by rw [does]; rfl) c)
    · exact absurd waker (noWaker (by rw [does]; nofun))
  | compute run here does result => exact compute heralds sound sleepers inv h here does result
  | sleepTable run here does => exact absurd (heralds.sleep does).1.symm (heralds.other _)
  | sleepOther other run here does =>
    refine h.ownPhase here rfl rfl (fun c waits => ?_) fun c waker => ?_
    · subst waits
      exact ⟨_, _, does⟩
    · exact absurd waker (noWaker (by rw [does]; nofun))
  | @wakeup p i x y chan run here does =>
    refine h.ownPhase here rfl rfl (fun c => False.elim) fun c waker => ?_
    obtain ⟨z, calls, held⟩ := heralds.wakeup (p := p) waker
    rw [does] at calls
    cases calls
    exact ⟨rfl, held⟩
  | @wakeup1 p i x y chan run here does =>
    refine h.frame rfl (fun q c waits => ?_) fun q c waker => ?_
    · by_cases same : q = p
      · subst same
        rw [Machine.task_setPhase_same] at waits
        exact absurd waits (noSleep (by rw [does]; rfl) c)
      rw [Machine.task_setPhase_ne _ _ same] at waits
      exact waits_of_wake waits
    by_cases same : q = p
    · subst same
      rw [here] at waker
      exact absurd waker (noWaker (by rw [does]; nofun))
    · rwa [Machine.task_setPhase_ne _ _ same, s.phase_wake]
  | sleepAcquire run here free | sleepRelease run here =>
    exact h.ownPhase here rfl rfl (fun _ => id) fun _ => False.elim
  | @sleepSet p i y chan lk run here =>
    refine h.own p rfl (fun q ne => Machine.task_setTask_ne _ _ ne) (fun c waits => ?_) ?_
    · rw [Machine.task_setTask_same] at waits
      unfold Task.WaitsOn
      rw [here]
      simpa using waits.2
    · rw [here]
      exact fun _ => False.elim
  | @awakeTable p i y run here =>
    obtain ⟨x, chan, does⟩ : (Phase.awake .ptable y).From code p := here ▸ sound.calls p
    exact absurd (heralds.sleep does).1.symm (heralds.other _)
  | awakeOther other run here | dispatch held runnable here =>
    refine h.own _ rfl (fun q ne => Machine.task_setTask_ne _ _ ne) (fun c waits => ?_) ?_
    · rw [Machine.task_setTask_same] at waits
      exact waits.elim
    rw [here]
    exact fun _ => False.elim
  | @reacquire p i y lk run here free =>
    obtain ⟨x, chan, does⟩ : (Phase.reacquire lk y).From code p := here ▸ sound.calls p
    refine h.ownPhase here rfl rfl (fun c waits => ?_) fun _ => False.elim
    exact absurd waits (noSleep (x := x) (by rw [does]; rfl) c)
  | wakeupAcquire run here free =>
    exact h.ownPhase here rfl rfl (fun _ => False.elim) fun _ => id
  | @wakeupLoop p i y chan run here =>
    intro q c waits
    have other : q ≠ p := by
      rintro rfl
      rw [Machine.task_setPhase_same] at waits
      exact waits
    rw [Machine.task_setPhase_ne _ _ other] at waits
    rcases h q c (waits_of_wake waits) with why | ⟨r, waker⟩
    · exact .inl why
    by_cases same : r = p
    · subst same
      rw [here] at waker
      obtain ⟨rfl, held⟩ := waker
      exact absurd waits (reaches heralds sound here held other)
    · exact .inr ⟨r, by rwa [Machine.task_setPhase_ne _ _ same, s.phase_wake]⟩
  | @wakeupRelease p i y run here =>
    obtain ⟨x, chan, does⟩ : (Phase.wakeupRelease y).From code p := here ▸ sound.calls p
    refine h.ownPhase here rfl rfl (fun c waits => ?_) fun _ => False.elim
    exact absurd waits (noSleep (x := x) (by rw [does]; rfl) c)
  | kill p free =>
    refine h.own p rfl (fun q ne => Machine.task_setTask_ne _ _ ne) (fun c waits => ?_) ?_
    · rw [Machine.kill, Machine.task_setTask_same] at waits
      unfold Task.WaitsOn at waits ⊢
      dsimp only at waits
      generalize (s.task p).phase = x at waits
      cases x with
      | asleep lk y =>
        obtain ⟨slept, chan⟩ := waits
        split at slept
        · cases slept
        · exact ⟨slept, chan⟩
      | _ => exact waits
    · rw [Machine.kill, Machine.task_setTask_same]
      exact fun _ => id

end

theorem start {d : D} {x : P → L} (none : ∀ p c lk y, code p (x p) ≠ .sleep c lk y) :
    Awaited code holds lock reason wakes (Machine.start d x) :=
  fun p c ⟨lk, y, does⟩ => absurd does (none p c lk y)

/-- Nobody sleeps without a reason while the lock is free. -/
theorem reason_of_free (heralds : Heralds code holds lock reason wakes I)
    (sound : Sound code holds s) (sleepers : s.Sleepers code)
    (h : Awaited code holds lock reason wakes s) {p : P} {c : C} (free : s.lock (lock c) = none)
    (slept : (s.task p).state = .SLEEPING) (chan : (s.task p).chan = some c) : reason c s.data := by
  obtain ⟨c', x, lk, y, -, phase, -⟩ := sleepers p slept
  have waits : (s.task p).WaitsOn code p c := by
    unfold Task.WaitsOn
    rw [phase]
    exact ⟨slept, chan⟩
  rcases h p c waits with why | ⟨q, waker⟩
  · exact why
  -- a waker would have the lock
  have held : (s.task q).phase.Holds holds (lock c) := by
    generalize (s.task q).phase = x at waker
    cases x with
    | running x => exact heralds.holds waker
    | wakeupAcquire chan y => exact ⟨waker.2, heralds.other c⟩
    | wakeupLoop chan y => exact .inl ⟨waker.2, heralds.other c⟩
    | _ => exact waker.elim
  have taken := sound.locks q (lock c) held
  rw [free] at taken
  cases taken

end Awaited

end

end Xv6.Sleep
