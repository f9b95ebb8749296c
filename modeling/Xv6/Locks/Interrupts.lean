import Xv6.Lib.Run

/-!
# Interrupts and critical sections

`pushcli` and `popcli` count in the CPU, but a process that has called `sched` may go on elsewhere.
`sched` therefore carries `intena` along.  Contexts are the processes and the CPUs' schedulers.
-/

namespace Xv6.Cli

open Lib Function

/-- `flag` is `FL_IF` of the CPU's `eflags`; without a process it is in the scheduler. -/
structure Cpu (T : Type) where
  ncli : ℤ
  intena : Bool
  flag : Bool
  proc : Option T

/-- The last two fields are history, which no code reads: in how many critical sections a context is,
and whether it has interrupts on outside of them.  A process has them as it left them itself; a new
one begins as the scheduler it comes from, and a scheduler goes on as the process it comes from. -/
structure State (C T : Type) where
  cpu : C → Cpu T
  /-- `intena` in the frame of `sched`, which a new process does not have. -/
  saved : T → Option Bool
  depth : T ⊕ C → ℕ
  wish : T ⊕ C → Bool

inductive Event (C T : Type) where
  | pushcli (c : C)
  | popcli (c : C)
  /-- `sti` or the end of an interrupt handler. -/
  | sti (c : C)
  /-- An interrupt handler begins. -/
  | interrupt (c : C)
  | sched (c : C)
  /-- The scheduler switches to a process, in `sched` or `forkret`. -/
  | swtch (c : C) (t : T)

inductive Panic where
  | interruptible
  | popcli
  | schedLocks
  | schedInterruptible

variable {C T : Type}

def Cpu.ctx (k : Cpu T) (c : C) : T ⊕ C := k.proc.elim (.inr c) .inl

def State.ctx (s : State C T) (c : C) : T ⊕ C := (s.cpu c).ctx c

variable [DecidableEq C] [DecidableEq T]

/-- CPU `c` goes on as `k`, where the context has depth `d` and wish `w`. -/
def State.go (s : State C T) (c : C) (k : Cpu T) (d : ℕ) (w : Bool) : State C T :=
  { s with
    cpu := update s.cpu c k
    depth := update s.depth (k.ctx c) d
    wish := update s.wish (k.ctx c) w }

def step : Event C T → Prog (State C T) Panic PUnit
  | .pushcli c => modify fun s =>
      let k := s.cpu c
      s.go c { k with
        ncli := k.ncli + 1
        intena := if k.ncli = 0 then k.flag else k.intena
        flag := false } (s.depth (s.ctx c) + 1) (s.wish (s.ctx c))
  | .popcli c => do
      let s ← get
      let k := s.cpu c
      if k.flag then throw .interruptible
      if k.ncli - 1 < 0 then throw .popcli
      set (s.go c { k with ncli := k.ncli - 1, flag := k.ncli - 1 = 0 && k.intena }
        (s.depth (s.ctx c) - 1) (s.wish (s.ctx c)))
  | .sti c => modify fun s => s.go c { s.cpu c with flag := true } (s.depth (s.ctx c)) true
  | .interrupt c =>
      modify fun s => s.go c { s.cpu c with flag := false } (s.depth (s.ctx c)) false
  | .sched c => do
      let s ← get
      let k := s.cpu c
      if k.ncli ≠ 1 then throw .schedLocks
      if k.flag then throw .schedInterruptible
      if let some t := k.proc then
        set { s.go c { k with proc := none } 1 (s.wish (.inl t)) with
          saved := update s.saved t (some k.intena) }
  | .swtch c t => modify fun s =>
      let k := s.cpu c
      s.go c { k with proc := some t, intena := (s.saved t).getD k.intena } (s.depth (.inl t))
        (s.wish (if (s.saved t).isSome then .inl t else .inr c))

/-- Critical sections are left after they were entered, `sched` is called in one and no other, a
handler ends outside of all, and a process runs on one CPU. -/
def Allowed (s : State C T) : Event C T → Prop
  | .pushcli _ => True
  | .popcli c => 0 < s.depth (s.ctx c)
  | .sti c => s.depth (s.ctx c) = 0
  | .interrupt c => (s.cpu c).flag = true
  | .sched c => (s.cpu c).proc ≠ none ∧ s.depth (s.ctx c) = 1
  | .swtch c t => (s.cpu c).proc = none ∧ s.depth (.inr c) = 1 ∧ ∀ c', (s.cpu c').proc ≠ some t

instance decidableAllowed [Fintype C] (s : State C T) (e : Event C T) :
    Decidable (Allowed s e) := by
  cases e <;> unfold Allowed <;> infer_instance

/-- All CPUs are in the scheduler with interrupts off, and all processes are new. -/
def State.boot : State C T where
  cpu := fun _ => ⟨0, false, false, none⟩
  saved := fun _ => none
  depth := Sum.elim (fun _ => 1) fun _ => 0
  wish := fun _ => false

/-- What a CPU says of a context with depth `d` and wish `w`. -/
def Cpu.Fits (k : Cpu T) (d : ℕ) (w : Bool) : Prop :=
  k.ncli = d ∧ (k.flag = true ↔ d = 0 ∧ w = true) ∧ (d ≠ 0 → k.intena = w)

/-- A process that does not run can go on anywhere. -/
def State.Rests (s : State C T) (t : T) : Prop :=
  s.depth (.inl t) = 1 ∧ ∀ b, s.saved t = some b → s.wish (.inl t) = b

structure Inv (s : State C T) : Prop where
  fits : ∀ c, (s.cpu c).Fits (s.depth (s.ctx c)) (s.wish (s.ctx c))
  rests : ∀ t, (∀ c, (s.cpu c).proc ≠ some t) → s.Rests t
  alone : ∀ c c' t, (s.cpu c).proc = some t → (s.cpu c').proc = some t → c = c'

namespace Inv

variable {s : State C T} {c : C}

theorem go {k : Cpu T} {d : ℕ} {w : Bool} {saved : T → Option Bool} (h : Inv s) (fits : k.Fits d w)
    (new : ∀ t, k.proc = some t → ∀ c', (s.cpu c').proc = some t → c' = c)
    (kept : ∀ t, (s.cpu c).proc ≠ some t → saved t = s.saved t)
    (left : ∀ t, (s.cpu c).proc = some t → k.proc ≠ some t →
      s.depth (.inl t) = 1 ∧ saved t = some (s.wish (.inl t))) :
    Inv { s.go c k d w with saved := saved } := by
  refine ⟨fun c' => ?_, fun t gone => ?_, fun c₁ c₂ t => ?_⟩
  · by_cases same : c' = c
    · subst same
      simpa [State.go, State.ctx] using fits
    have ne : (s.cpu c').ctx c' ≠ k.ctx c := by
      unfold Cpu.ctx
      cases p : (s.cpu c').proc <;> cases p' : k.proc <;> simp [same]
      rintro rfl
      exact same (new _ p' c' p)
    simpa [State.go, State.ctx, same, ne] using h.fits c'
  · have off : k.proc ≠ some t := by simpa [State.go] using gone c
    have ne : .inl t ≠ k.ctx c := by
      unfold Cpu.ctx
      cases p : k.proc <;> simp
      rintro rfl
      exact off p
    simp only [State.Rests, State.go, update_of_ne ne]
    by_cases here : (s.cpu c).proc = some t
    · obtain ⟨one, eq⟩ := left t here off
      exact ⟨one, by simp [eq]⟩
    rw [kept t here]
    refine h.rests t fun c' p => ?_
    have ne : c' ≠ c := by
      rintro rfl
      exact here p
    exact gone c' (by simpa [State.go, ne] using p)
  · simp only [State.go, update_apply]
    split_ifs with at₁ at₂ at₂
    · exact fun _ _ => at₁.trans at₂.symm
    · exact fun p₁ p₂ => absurd (new t p₁ c₂ p₂) at₂
    · exact fun p₁ p₂ => absurd (new t p₂ c₁ p₁) at₁
    · exact h.alone c₁ c₂ t

theorem stay {k : Cpu T} {d : ℕ} {w : Bool} (h : Inv s) (proc : k.proc = (s.cpu c).proc)
    (fits : k.Fits d w) : Inv (s.go c k d w) :=
  show Inv { s.go c k d w with saved := s.saved } from
    h.go fits (fun t p c' p' => h.alone c' c t p' (proc ▸ p)) (fun _ _ => rfl)
      fun _ p ne => absurd (proc.trans p) ne

theorem step (h : Inv s) (e : Event C T) (ok : Allowed s e) :
    wp (step e) (fun _ => Inv) never s := by
  cases e with
  | pushcli c =>
    obtain ⟨ncli, flag, intena⟩ := h.fits c
    refine h.stay rfl ⟨by simp [ncli], by simp, fun _ => ?_⟩
    by_cases out : s.depth (s.ctx c) = 0
    · simp only [ncli, out, Nat.cast_zero, if_true]
      rw [Bool.eq_iff_iff, flag]
      simp [out]
    · simp [ncli, out, intena out]
  | popcli c =>
    obtain ⟨ncli, flag, intena⟩ := h.fits c
    have inside : s.depth (s.ctx c) ≠ 0 := Nat.ne_of_gt ok
    have off : (s.cpu c).flag = false := by simpa [inside] using flag
    rw [Cli.step, wp_bind, wp_get]
    simp only [off, Bool.false_eq_true, if_false]
    rw [if_neg (by omega)]
    refine h.stay rfl ⟨by simp [ncli]; omega, ?_, fun _ => intena inside⟩
    simp [ncli, intena inside]
    omega
  | sti c =>
    have out : s.depth (s.ctx c) = 0 := ok
    exact h.stay rfl ⟨(h.fits c).1, by simp [out], fun inside => absurd out inside⟩
  | interrupt c =>
    obtain ⟨ncli, flag, -⟩ := h.fits c
    exact h.stay rfl ⟨ncli, by simp, fun inside => absurd (flag.1 ok).1 inside⟩
  | sched c =>
    obtain ⟨busy, one⟩ := ok
    obtain ⟨t, here⟩ := Option.ne_none_iff_exists'.1 busy
    obtain ⟨ncli, flag, intena⟩ := h.fits c
    simp only [State.ctx, Cpu.ctx, here, Option.elim_some] at one ncli flag intena
    have off : (s.cpu c).flag = false := by simpa [one] using flag
    rw [Cli.step, wp_bind, wp_get]
    simp only [off, ncli, one, here, Nat.cast_one, ne_eq, not_true_eq_false, Bool.false_eq_true,
      if_false]
    refine h.go ⟨rfl, by simp, fun _ => intena (by simp [one])⟩ (by simp) (fun t' ne => ?_)
      fun t' p _ => ?_
    · rw [update_of_ne]
      rintro rfl
      exact ne here
    obtain rfl := Option.some.inj (here.symm.trans p)
    simp [one, intena]
  | swtch c t =>
    obtain ⟨idle, one, gone⟩ := ok
    obtain ⟨depth, saved⟩ := h.rests t gone
    obtain ⟨ncli, flag, intena⟩ := h.fits c
    simp only [State.ctx, Cpu.ctx, idle, Option.elim_none, one] at ncli flag intena
    have carried : (s.saved t).getD (s.cpu c).intena =
        s.wish (if (s.saved t).isSome then .inl t else .inr c) := by
      cases frame : s.saved t with
      | none => exact intena Nat.one_ne_zero
      | some b => exact (saved b frame).symm
    refine h.go ⟨by simp [ncli, depth], by simpa [depth] using flag, fun _ => carried⟩
      (fun t' p c' p' => ?_) (fun _ _ => rfl) (by simp [idle])
    obtain rfl := Option.some.inj p
    exact absurd p' (gone c')

end Inv

/-- Whatever the contexts and wherever they go on: a CPU counts the critical sections of the context
it is in, and has interrupts on just if there are none and the context had them on outside.  None of
the panics is reached. -/
theorem interrupts_follow_contexts {es : List (Event C T)}
    (allowed : Along step Allowed es (State.boot : State C T)) :
    wp (run step es) (fun _ s => ∀ c, (s.cpu c).ncli = s.depth (s.ctx c) ∧
      ((s.cpu c).flag = true ↔ s.depth (s.ctx c) = 0 ∧ s.wish (s.ctx c) = true)) never
      (State.boot : State C T) := by
  have start : Inv (State.boot : State C T) :=
    ⟨fun c => by simp [State.boot, State.ctx, Cpu.ctx, Cpu.Fits],
      fun t _ => by simp [State.boot, State.Rests], by simp [State.boot]⟩
  refine wp_imp (allowed.wp_run (fun s e h ok => h.step e ok) start) fun _ s h c => ?_
  obtain ⟨ncli, flag, -⟩ := h.fits c
  exact ⟨ncli, flag⟩

/-- A process goes to sleep on CPU 0 and goes on, with interrupts on, on CPU 1. -/
def migrates : List (Event (Fin 2) (Fin 2)) :=
  [.sti 0, .pushcli 0, .swtch 0 0, .popcli 0, .sti 0, .pushcli 0, .sched 0, .pushcli 1, .swtch 1 0,
    .popcli 1]

theorem interrupts_follow_contexts_migrates :
    Along step Allowed migrates State.boot ∧
      wp (run step migrates) (fun _ s => ∀ c, (s.cpu c).ncli = s.depth (s.ctx c) ∧
        ((s.cpu c).flag = true ↔ s.depth (s.ctx c) = 0 ∧ s.wish (s.ctx c) = true)) never
        State.boot := by
  have allowed : Along step Allowed migrates State.boot := by decide +kernel
  exact ⟨allowed, interrupts_follow_contexts allowed⟩

end Xv6.Cli
