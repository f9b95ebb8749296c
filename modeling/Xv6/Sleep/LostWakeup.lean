import Xv6.Sleep.Machine

/-!
# No lost wakeup

Any number of processes change data under the lock `lk` and wait under it for conditions on the
data, in loops `while (!cond) sleep(chan, lk)`; a channel stands for a condition.  `lk` may be
`ptable.lock` itself.
-/

set_option linter.unusedSectionVars false

namespace Xv6.Sleep

open Lib

/-! ## The pattern -/

inductive Place (C : Type) where
  | out
  | entering
  /-- With `lk`. -/
  | hold
  /-- At the test of the loop for a channel, and about to call `sleep` on it. -/
  | test (c : C)
  | sleeping (c : C)
  /-- About to call `wakeup`, with `lk` and without it. -/
  | waking (c : C)
  | wakingOut (c : C)
  | leaving

inductive Input (D C : Type) where
  | enter
  | leave
  | update (f : D → D)
  | wait (c : C)
  | wake (c : C)

section

variable {P D C : Type} (cond : C → D → Bool) (lk : SpinLock)

/-- The code of all processes; one that has `ptable.lock` calls `wakeup1` instead of `wakeup`. -/
def pattern (_ : P) : Place C → Instr D C (Input D C) (Place C)
  | .out => .compute fun _ d i =>
      match i with
      | .enter => (d, .entering)
      | .wake c => (d, .wakingOut c)
      | _ => (d, .out)
  | .entering => .acquire lk .hold
  | .hold => .compute fun _ d i =>
      match i with
      | .update f => (f d, .hold)
      | .wait c => (d, .test c)
      | .wake c => (d, .waking c)
      | .leave => (d, .leaving)
      | .enter => (d, .hold)
  | .test c => .compute fun _ d _ => (d, if cond c d then .hold else .sleeping c)
  | .sleeping c => .sleep c lk (.test c)
  | .waking c => if lk = .ptable then .wakeup1 c .hold else .wakeup c .hold
  | .wakingOut c => .wakeup c .out
  | .leaving => .release lk .out

def Place.Holds : Place C → SpinLock → Prop
  | .out | .entering | .wakingOut _ => fun _ => False
  | .hold | .test _ | .sleeping _ | .waking _ | .leaving => fun l => l = lk

variable {cond lk} in
theorem pattern_inv {p : P} {x : Place C} {instr : Instr D C (Input D C) (Place C)} :
    pattern cond lk p x = instr → match instr with
    | .acquire l y => x = .entering ∧ l = lk ∧ y = .hold
    | .release l y => x = .leaving ∧ l = lk ∧ y = .out
    | .compute _ => x = .out ∨ x = .hold ∨ ∃ c, x = .test c
    | .sleep c l y => x = .sleeping c ∧ l = lk ∧ y = .test c
    | .wakeup c y => x = .waking c ∧ lk ≠ .ptable ∧ y = .hold ∨ x = .wakingOut c ∧ y = .out
    | .wakeup1 c y => x = .waking c ∧ lk = .ptable ∧ y = .hold := by
  rintro rfl
  by_cases table : lk = .ptable
  · cases x <;> simp [pattern, table]
  · cases x <;> simp [pattern, table]

theorem pattern_discipline :
    Discipline (pattern cond lk : P → Place C → Instr D C (Input D C) (Place C))
      (Place.Holds lk) where
  acquire does l held := by
    obtain ⟨rfl, rfl, rfl⟩ := pattern_inv does
    exact .inr held
  release does := by
    obtain ⟨rfl, rfl, rfl⟩ := pattern_inv does
    exact ⟨rfl, fun _ => False.elim⟩
  compute does b d i l held := by
    obtain rfl | rfl | ⟨c, rfl⟩ := pattern_inv does
    all_goals
      cases does
      revert held
    · cases i <;> exact False.elim
    · cases i <;> exact id
    dsimp only
    split <;> exact id
  sleep does := by
    obtain ⟨rfl, rfl, rfl⟩ := pattern_inv does
    exact ⟨rfl, fun _ => id⟩
  wakeup does := by
    obtain ⟨rfl, other, rfl⟩ | ⟨rfl, rfl⟩ := pattern_inv does
    · exact ⟨other.symm, fun _ => id⟩
    · exact ⟨id, fun _ => id⟩
  wakeup1 does := by
    obtain ⟨rfl, same, rfl⟩ := pattern_inv does
    exact ⟨same.symm, fun _ => id⟩

/-! ## Traces -/

/-- What happens in a run. -/
inductive Mark (P D C : Type) where
  | tested (p : P) (c : C)
  | updated (d : D)
  | woke (c : C)

/-- What the running process `p` is about to do. -/
def marksAt (s : Machine P D C (Place C)) (p : P) (i : Input D C) : List (Mark P D C) :=
  match (s.task p).phase with
  | .running (.test c) => [.tested p c]
  | .running .hold =>
      match i with
      | .update f => [.updated (f s.data)]
      | _ => []
  | .running (.waking c) => if lk = .ptable then [.woke c] else []
  | .wakeupLoop c _ => [.woke c]
  | _ => []

def marks (s : Machine P D C (Place C)) : Event P (Input D C) → List (Mark P D C)
  | .run p i => if (s.task p).state = .RUNNING then marksAt lk s p i else []
  | _ => []

/-- Process `p` last looked at the condition of `c`, which has not been made true since. -/
def Fresh (l : List (Mark P D C)) (p : P) (c : C) : Prop :=
  ∃ l₁ l₂, l = l₁ ++ .tested p c :: l₂ ∧ (∀ c', .tested p c' ∉ l₂) ∧
    ∀ d, .updated d ∈ l₂ → cond c d = false

/-- `p` last looked at the condition of `c` after it was last made true with a `wakeup` to follow.
-/
def Unwoken (l : List (Mark P D C)) (p : P) (c : C) : Prop :=
  ∃ l₁ l₂, l = l₁ ++ .tested p c :: l₂ ∧ (∀ c', .tested p c' ∉ l₂) ∧
    ∀ a b d, l₂ = a ++ .updated d :: b → cond c d = true → .woke c ∉ b

variable {cond lk} {l : List (Mark P D C)} {p : P} {c : C}

theorem fresh_tested (l : List (Mark P D C)) (p : P) (c : C) : Fresh cond (l ++ [.tested p c]) p c :=
  ⟨l, [], rfl, by simp, by simp⟩

theorem Fresh.unwoken (h : Fresh cond l p c) : Unwoken cond l p c := by
  obtain ⟨l₁, l₂, eq, last, none⟩ := h
  refine ⟨l₁, l₂, eq, last, fun a b d split made => ?_⟩
  rw [none d (by simp [split])] at made
  cases made

theorem Fresh.snoc (h : Fresh cond l p c) {m : Mark P D C} (other : ∀ c', m ≠ .tested p c')
    (data : ∀ d, m ≠ .updated d) : Fresh cond (l ++ [m]) p c := by
  obtain ⟨l₁, l₂, rfl, last, none⟩ := h
  refine ⟨l₁, l₂ ++ [m], by simp, fun c' seen => ?_, fun d seen => ?_⟩
  · rcases List.mem_append.1 seen with old | new
    · exact last c' old
    · exact other c' (List.mem_singleton.1 new).symm
  rcases List.mem_append.1 seen with old | new
  · exact none d old
  · exact absurd (List.mem_singleton.1 new).symm (data d)

theorem Unwoken.snoc (h : Unwoken cond l p c) {m : Mark P D C} (other : ∀ c', m ≠ .tested p c')
    (quiet : m ≠ .woke c) : Unwoken cond (l ++ [m]) p c := by
  obtain ⟨l₁, l₂, rfl, last, none⟩ := h
  refine ⟨l₁, l₂ ++ [m], by simp, fun c' seen => ?_, fun a b d split made woke => ?_⟩
  · rcases List.mem_append.1 seen with old | new
    · exact last c' old
    · exact other c' (List.mem_singleton.1 new).symm
  rcases List.eq_nil_or_concat b with rfl | ⟨b', m', rfl⟩
  · simp at woke
  rw [List.concat_eq_append, ← List.cons_append, ← List.append_assoc] at split
  obtain ⟨split, same⟩ := List.append_inj' split rfl
  rw [List.concat_eq_append] at woke
  rcases List.mem_append.1 woke with old | new
  · exact none a b' d split made old
  · exact quiet ((List.singleton_inj.1 same).trans (List.mem_singleton.1 new).symm)

/-! ## The invariant -/

/-- What a process on its way to sleep may count on. -/
def Phase.Counts (cond : C → D → Bool) (l : List (Mark P D C)) (p : P) : Phase C (Place C) → Prop
  | .running (.sleeping c) | .sleepAcquire c _ _ | .sleepRelease c _ _ => Fresh cond l p c
  | .sleepSet c _ _ => Unwoken cond l p c
  | _ => True

structure Attentive (cond : C → D → Bool) (lk : SpinLock) (l : List (Mark P D C))
    (s : Machine P D C (Place C)) : Prop where
  sound : Sound (pattern cond lk) (Place.Holds lk) s
  counts : ∀ p, (s.task p).phase.Counts cond l p
  asleep : ∀ p c, (s.task p).state = .SLEEPING → (s.task p).chan = some c → Unwoken cond l p c

theorem Phase.Counts.snoc {x : Phase C (Place C)} (h : x.Counts cond l p)
    (calls : x.From (pattern cond lk : P → Place C → Instr D C (Input D C) (Place C)) p)
    {m : Mark P D C} (other : ∀ c, m ≠ .tested p c)
    (data : x.Holds (Place.Holds lk) lk → ∀ d, m ≠ .updated d)
    (table : x.Holds (Place.Holds lk) .ptable → ∀ c, m ≠ .woke c) : x.Counts cond (l ++ [m]) p := by
  cases x with
  | running x =>
    cases x with
    | sleeping c => exact Fresh.snoc h other (data rfl)
    | _ => trivial
  | sleepAcquire c lk' y =>
    obtain ⟨-, x, does⟩ := calls
    obtain ⟨-, rfl, -⟩ := pattern_inv does
    exact Fresh.snoc h other (data rfl)
  | sleepRelease c lk' y =>
    obtain ⟨ne, x, does⟩ := calls
    obtain ⟨-, rfl, -⟩ := pattern_inv does
    exact Fresh.snoc h other (data ⟨ne, .inl rfl⟩)
  | sleepSet c lk' y => exact Unwoken.snoc h other (table rfl c)
  | _ => trivial

section

variable [DecidableEq P] [DecidableEq C]

namespace Attentive

variable {s s' : Machine P D C (Place C)}

section

variable (h : Attentive cond lk l s)
include h

theorem quiet (sound : Sound (pattern cond lk) (Place.Holds lk) s')
    (p : P) (others : ∀ q, q ≠ p → s'.task q = s.task q) (own : (s'.task p).phase.Counts cond l p)
    (asleep : ∀ c, (s'.task p).state = .SLEEPING → (s'.task p).chan = some c →
      Unwoken cond l p c) : Attentive cond lk l s' where
  sound := sound
  counts q := by
    by_cases same : q = p
    · exact same ▸ own
    · exact others q same ▸ h.counts q
  asleep q c slept chan := by
    by_cases same : q = p
    · subst same
      exact asleep c slept chan
    rw [others q same] at slept chan
    exact h.asleep q c slept chan

theorem noted (sound : Sound (pattern cond lk) (Place.Holds lk) s')
    {m : Mark P D C} (p : P) (phases : ∀ q, q ≠ p → (s'.task q).phase = (s.task q).phase)
    (own : (s'.task p).phase.Counts cond (l ++ [m]) p) (awake : (s'.task p).state ≠ .SLEEPING)
    (other : ∀ q, q ≠ p → ∀ c, m ≠ .tested q c)
    (data : ∀ d, m = .updated d → (s.task p).phase.Holds (Place.Holds lk) lk)
    (table : ∀ c, m = .woke c → (s.task p).phase.Holds (Place.Holds lk) .ptable)
    (asleep : ∀ q, q ≠ p → ∀ c, (s'.task q).state = .SLEEPING → (s'.task q).chan = some c →
      (s.task q).state = .SLEEPING ∧ (s.task q).chan = some c ∧ m ≠ .woke c) :
    Attentive cond lk (l ++ [m]) s' where
  sound := sound
  counts q := by
    by_cases same : q = p
    · exact same ▸ own
    rw [phases q same]
    refine (h.counts q).snoc (h.sound.calls q) (other q same) (fun held d eq => ?_)
      fun held c eq => ?_
    · exact same (h.sound.alone held (data d eq))
    · exact same (h.sound.alone held (table c eq))
  asleep q c slept chan := by
    have ne : q ≠ p := fun same => awake (same ▸ slept)
    obtain ⟨slept, chan, quiet⟩ := asleep q ne c slept chan
    exact (h.asleep q c slept chan).snoc (other q ne) quiet

theorem quiet_task {s₁ : Machine P D C (Place C)} {p : P}
    {i : Input D C} {t : Task C (Place C)}
    (sound : Sound (pattern cond lk) (Place.Holds lk) (s₁.setTask p t)) (same : s₁.task = s.task)
    (silent : marksAt lk s p i = []) (own : t.phase.Counts cond l p) (awake : t.state ≠ .SLEEPING) :
    Attentive cond lk (l ++ marks lk s (.run p i)) (s₁.setTask p t) := by
  rw [marks, silent, ite_self, List.append_nil]
  refine h.quiet sound p (fun q ne => ?_) ?_ fun c slept => ?_
  · rw [Machine.task_setTask_ne _ _ ne, same]
  · rwa [Machine.task_setTask_same]
  rw [Machine.task_setTask_same] at slept
  exact absurd slept awake

theorem quiet_phase {s₁ : Machine P D C (Place C)} {p : P}
    {i : Input D C} {x : Phase C (Place C)} (same : s₁.task = s.task)
    (sound : Sound (pattern cond lk) (Place.Holds lk) (s₁.setPhase p x))
    (run : (s.task p).state = .RUNNING) (silent : marksAt lk s p i = [])
    (own : x.Counts cond l p) : Attentive cond lk (l ++ marks lk s (.run p i)) (s₁.setPhase p x) :=
  h.quiet_task sound same silent own (by simp [same, run])

end

theorem marks_of_blocked {e : Event P (Input D C)}
    (blocked : ∀ p i, e = .run p i → (s.task p).state = .RUNNING →
      (s.task p).phase.Waits (pattern cond lk) p) : marks lk s e = [] := by
  cases e with
  | run p i =>
    rw [marks]
    split
    next run =>
      have waits := blocked p i rfl run
      unfold marksAt
      split <;> rename_i here <;> try rfl
      all_goals
        rw [here] at waits
        simp [Phase.Waits, pattern] at waits
      split at waits <;> simp at waits
    · rfl
  | _ => rfl

theorem compute {p : P} {i : Input D C} {x y : Place C} {d : D}
    {f : Bool → D → Input D C → D × Place C} (h : Attentive cond lk l s)
    (sound : Sound (pattern cond lk) (Place.Holds lk)
      (Machine.setPhase { s with data := d } p (.running y)))
    (run : (s.task p).state = .RUNNING) (here : (s.task p).phase = .running x)
    (does : pattern cond lk p x = .compute f) (result : f (s.task p).killed s.data i = (d, y)) :
    Attentive cond lk (l ++ marks lk s (.run p i))
      (Machine.setPhase { s with data := d } p (.running y)) := by
  have others (q : P) (ne : q ≠ p) :
      (Machine.setPhase { s with data := d } p (.running y)).task q = s.task q :=
    Machine.task_setPhase_ne _ _ ne
  have quiet (silent : marksAt lk s p i = [])
      (own : (Phase.running y : Phase C (Place C)).Counts cond l p) :
      Attentive cond lk (l ++ marks lk s (.run p i))
        (Machine.setPhase { s with data := d } p (.running y)) :=
    h.quiet_phase rfl sound run silent own
  have note {m : Mark P D C} (mark : marksAt lk s p i = [m])
      (own : (Phase.running y : Phase C (Place C)).Counts cond (l ++ [m]) p)
      (other : ∀ q, q ≠ p → ∀ c, m ≠ .tested q c)
      (data : ∀ d, m = .updated d → (Place.Holds lk x) lk) (awake : ∀ c, m ≠ .woke c) :
      Attentive cond lk (l ++ marks lk s (.run p i))
        (Machine.setPhase { s with data := d } p (.running y)) := by
    rw [marks, if_pos run, mark]
    refine h.noted sound p (fun q ne => by rw [others q ne]) (by simpa using own)
      (by simp [run]) other (fun d eq => here ▸ data d eq) (fun c eq => absurd eq (awake c))
      fun q ne c slept chan => ?_
    rw [others q ne] at slept chan
    exact ⟨slept, chan, awake c⟩
  obtain rfl | rfl | ⟨c, rfl⟩ := pattern_inv does
  all_goals cases does
  · refine quiet (by simp [marksAt, here]) ?_
    cases i <;> cases result <;> trivial
  · cases i with
    | update f =>
      cases result
      exact note (m := .updated (f s.data)) (by simp [marksAt, here]) trivial (by simp)
        (fun _ _ => rfl) (by simp)
    | _ =>
      cases result
      exact quiet (by simp [marksAt, here]) trivial
  refine note (m := .tested p c) (by simp [marksAt, here]) ?_ (fun q ne c' eq => ?_) (by simp)
    (by simp)
  · simp only [Prod.mk.injEq] at result
    rw [← result.2]
    split
    · trivial
    · exact fresh_tested l p c
  · simp only [Mark.tested.injEq] at eq
    exact ne eq.1.symm

theorem wakes {p : P} {x : Phase C (Place C)} (h : Attentive cond lk l s)
    (sound : Sound (pattern cond lk) (Place.Holds lk) ((s.wake c).setPhase p x))
    (run : (s.task p).state = .RUNNING) (held : (s.task p).phase.Holds (Place.Holds lk) .ptable)
    (own : x.Counts cond (l ++ [.woke c]) p) :
    Attentive cond lk (l ++ [.woke c]) ((s.wake c).setPhase p x) := by
  refine h.noted sound p (fun q ne => ?_) (by simpa using own) ?_ (by simp) (by simp)
    (fun _ _ => held) fun q ne c' slept chan => ?_
  · rw [Machine.task_setPhase_ne _ _ ne, s.phase_wake]
  · have awake := (s.state_wake c).2 run
    simp [awake]
  rw [Machine.task_setPhase_ne _ _ ne] at slept chan
  simp only [Machine.wake] at slept chan
  split at slept
  · simp at slept
  next awake =>
    rw [if_neg awake] at chan
    refine ⟨slept, chan, fun eq => awake ⟨slept, ?_⟩⟩
    cases eq
    exact chan

theorem step {e : Event P (Input D C)} (h : Attentive cond lk l s)
    (st : Step (pattern cond lk) s e s') : Attentive cond lk (l ++ marks lk s e) s' := by
  have sound := h.sound.step (pattern_discipline cond lk) st
  have counts {p x} (here : (s.task p).phase = x) : x.Counts cond l p := here ▸ h.counts p
  cases st with
  | idle _ blocked =>
    rw [marks_of_blocked blocked, List.append_nil]
    exact h
  | acquire run here does _ | release run here does =>
    obtain ⟨rfl, rfl, rfl⟩ := pattern_inv does
    exact h.quiet_phase rfl sound run (by simp [marksAt, here]) trivial
  | compute run here does result => exact h.compute sound run here does result
  | sleepTable run here does =>
    obtain ⟨rfl, -, -⟩ := pattern_inv does
    have fresh : Fresh cond l _ _ := counts here
    exact h.quiet_phase rfl sound run (by simp [marksAt, here]) fresh.unwoken
  | sleepOther other run here does =>
    obtain ⟨rfl, -, -⟩ := pattern_inv does
    have fresh := counts here
    exact h.quiet_phase rfl sound run (by simp [marksAt, here]) fresh
  | @wakeup p i x y chan run here does =>
    have silent : marksAt lk s p i = [] := by
      obtain ⟨rfl, other, -⟩ | ⟨rfl, -⟩ := pattern_inv does
      · simp [marksAt, here, other]
      · simp [marksAt, here]
    exact h.quiet_phase rfl sound run silent trivial
  | @wakeup1 p i x y chan run here does =>
    have held := (pattern_discipline cond lk).wakeup1 does
    obtain ⟨rfl, same, rfl⟩ := pattern_inv does
    have mark : marks lk s (.run p i) = [.woke chan] := by simp [marks, marksAt, run, here, same]
    rw [mark]
    exact h.wakes sound run (here ▸ held.1) trivial
  | sleepAcquire run here free =>
    have fresh := counts here
    exact h.quiet_phase rfl sound run (by simp [marksAt, here]) fresh
  | sleepRelease run here =>
    have fresh : Fresh cond l _ _ := counts here
    exact h.quiet_phase rfl sound run (by simp [marksAt, here]) fresh.unwoken
  | @sleepSet p i y chan lk' run here =>
    have unwoken : Unwoken cond l p chan := counts here
    rw [marks, if_pos run, show marksAt lk s p i = [] by simp [marksAt, here], List.append_nil]
    refine h.quiet sound p (fun q ne => Machine.task_setTask_ne _ _ ne) ?_ fun c _ same => ?_
    · rw [Machine.task_setTask_same]
      trivial
    rw [Machine.task_setTask_same, Option.some.injEq] at same
    exact same ▸ unwoken
  | @awakeTable p i y run here =>
    obtain ⟨x, chan, does⟩ : (Phase.awake .ptable y).From (pattern cond lk) p :=
      here ▸ h.sound.calls p
    obtain ⟨-, -, rfl⟩ := pattern_inv does
    exact h.quiet_task sound rfl (by simp [marksAt, here]) trivial (by simp [run])
  | awakeOther other run here =>
    exact h.quiet_task sound rfl (by simp [marksAt, here]) trivial (by simp [run])
  | @reacquire p i y lk' run here free =>
    obtain ⟨x, chan, does⟩ : (Phase.reacquire lk' y).From (pattern cond lk) p :=
      here ▸ h.sound.calls p
    obtain ⟨-, -, rfl⟩ := pattern_inv does
    exact h.quiet_phase rfl sound run (by simp [marksAt, here]) trivial
  | wakeupAcquire run here free =>
    exact h.quiet_phase rfl sound run (by simp [marksAt, here]) trivial
  | @wakeupLoop p i y chan run here =>
    have mark : marks lk s (.run p i) = [.woke chan] := by simp [marks, marksAt, run, here]
    rw [mark]
    refine h.wakes sound run ?_ trivial
    rw [here]
    exact .inr rfl
  | @wakeupRelease p i y run here =>
    obtain ⟨x, chan, does⟩ : (Phase.wakeupRelease y).From (pattern cond lk) p :=
      here ▸ h.sound.calls p
    refine h.quiet_phase rfl sound run (by simp [marksAt, here]) ?_
    obtain ⟨-, -, rfl⟩ | ⟨-, rfl⟩ := pattern_inv does <;> trivial
  | kill p free =>
    show Attentive cond lk (l ++ []) _
    rw [List.append_nil]
    refine h.quiet sound p (fun q ne => Machine.task_setTask_ne _ _ ne) ?_ fun c slept => ?_
    · rw [Machine.kill, Machine.task_setTask_same]
      exact h.counts p
    rw [Machine.kill, Machine.task_setTask_same] at slept
    dsimp only at slept
    split at slept
    · simp at slept
    · contradiction
  | @dispatch p y lk' held runnable here =>
    show Attentive cond lk (l ++ []) _
    rw [List.append_nil]
    refine h.quiet sound p (fun q ne => Machine.task_setTask_ne _ _ ne) ?_ fun c slept => ?_
    · rw [Machine.task_setTask_same]
      trivial
    rw [Machine.task_setTask_same] at slept
    simp at slept
  | take _ | drop _ =>
    show Attentive cond lk (l ++ []) _
    rw [List.append_nil]
    exact ⟨sound, h.counts, h.asleep⟩

theorem start (d : D) : Attentive cond lk [] (Machine.start d fun _ : P => Place.out) where
  sound := Sound.start d fun _ _ => id
  counts _ := trivial
  asleep p c slept := by simp [Machine.start] at slept

end Attentive

/-- A process that sleeps on `c` looked at the condition of `c` last, and since then it was not made
true with a `wakeup` of `c` after that. -/
theorem no_lost_wakeup (cond : C → D → Bool) (lk : SpinLock) (d : D)
    (es : List (Event P (Input D C))) {s : Machine P D C (Place C)}
    (reached : exec (run (step (pattern cond lk)) es) (Machine.start d fun _ => .out) = (.ok ⟨⟩, s))
    (p : P) (c : C) (slept : (s.task p).state = .SLEEPING) (chan : (s.task p).chan = some c) :
    Unwoken cond
      (observed (step (pattern cond lk)) (marks lk) es (Machine.start d fun _ => .out)) p c := by
  have attentive : Attentive cond lk
      (observed (step (pattern cond lk)) (marks lk) es (Machine.start d fun _ => .out)) s :=
    of_observed (fun _ s e h => h.step (next_step _ s e)) (Attentive.start d) reached
  exact attentive.asleep p c slept chan

end

end

/-- Process 0 waits for a flag.  Process 1 wakes it up too early, and sets the flag when it sleeps
again. -/
def waitsForFlag : List (Event (Fin 2) (Input Bool Unit)) :=
  let go p n := List.replicate n (.run p .enter)
  go 0 2 ++ [.run 0 (.wait ())] ++ go 0 5 ++ [.drop] ++ go 1 2 ++ [.run 1 (.wake ())] ++ go 1 4 ++
    [.run 1 .leave, .run 1 .enter, .take, .dispatch 0] ++ go 0 7 ++ [.drop] ++ go 1 2 ++
    [.run 1 (.update fun _ => true)]

theorem no_lost_wakeup_flag :
    let code := pattern (fun _ flag => flag) (.other 0)
    let s₀ : Machine (Fin 2) Bool Unit (Place Unit) := .start false fun _ => .out
    ((exec (run (step code) waitsForFlag) s₀).2.task 0).state = .SLEEPING ∧
      Unwoken (fun _ flag => flag) (observed (step code) (marks (.other 0)) waitsForFlag s₀) 0 () := by
  have slept : ((exec (run (step (pattern (fun (_ : Unit) flag => flag) (.other 0))) waitsForFlag)
      (.start false fun _ => .out)).2.task 0).state = .SLEEPING := by decide +kernel
  exact ⟨slept, no_lost_wakeup _ _ false waitsForFlag (exec_eq_of_ok rfl) 0 () slept
    (by decide +kernel)⟩

end Xv6.Sleep
