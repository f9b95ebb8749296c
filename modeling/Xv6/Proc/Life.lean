import Xv6.Proc.Scheduler

/-!
# The life of a process

`Life` keeps of the kernel's state where each process is in its life: its state, its pid, what it is
doing and which CPU runs it.  Every step is a sequence of `Move`s (`Quiet`) or a `Birth`, up to the
queues.
-/

namespace Xv6

open Lib Function

/-- Where the processes are in their lives. -/
@[ext] structure Life where
  state : Slot → ProcState
  pid : Slot → ℤ
  pos : Slot → Pos
  cpu : ℕ → Option Slot
  nextpid : ℤ

def Cpu.proc : Cpu → Option Slot
  | .running _ m => some m
  | _ => none

def Kernel.life (s : Kernel) : Life where
  state := fun p => (s.procs p).state
  pid := fun p => (s.procs p).pid
  pos := fun p => (s.procs p).pos
  cpu := fun c => (s.cpu c).proc
  nextpid := s.nextpid

namespace Life

def Alive (l : Life) (p : Slot) : Prop := l.state p ≠ .UNUSED ∧ l.state p ≠ .ZOMBIE

inductive Move : Life → Life → Prop where
  | wake (l : Life) (st : Slot → ProcState)
      (h : ∀ p, st p = l.state p ∨ l.state p = .SLEEPING ∧ st p = .RUNNABLE) :
      Move l { l with state := st }
  | walk (l : Life) (m : Slot) (x : Pos) (h : ∀ np, x.child = some np → (l.pos m).child = some np) :
      Move l { l with pos := update l.pos m x }
  | abort (l : Life) (m np : Slot) (h : (l.pos m).child = some np) :
      Move l { l with
        state := update l.state np .UNUSED
        pos := update l.pos m .kernel }
  | release (l : Life) (m np : Slot) (h : (l.pos m).child = some np) :
      Move l { l with
        state := update l.state np .RUNNABLE
        pos := update l.pos m .kernel }
  /-- A CPU starts to run a process. -/
  | run (l : Life) (c : ℕ) (m : Slot) (idle : l.cpu c = none) (h : l.state m = .RUNNABLE) :
      Move l { l with
        state := update l.state m .RUNNING
        cpu := update l.cpu c (some m) }
  | stop (l : Life) (c : ℕ) (m : Slot) (st : ProcState) (busy : l.cpu c = some m)
      (h : st = .RUNNABLE ∨ st = .SLEEPING ∨ st = .ZOMBIE) :
      Move l { l with
        state := update l.state m st
        cpu := update l.cpu c none }
  | reap (l : Life) (p : Slot) (h : l.state p = .ZOMBIE) :
      Move l { l with
        state := update l.state p .UNUSED
        pid := update l.pid p 0 }

abbrev Moves : Life → Life → Prop := Relation.ReflTransGen Move

/-- The life after process `m` has taken the unused slot `np` for a new process. -/
def birth (l : Life) (m np : Slot) : Life where
  state := update l.state np .EMBRYO
  pid := update l.pid np l.nextpid
  pos := update l.pos m (.forking np)
  cpu := l.cpu
  nextpid := l.nextpid + 1

/-- What holds of the processes in every state. -/
structure Sane (l : Life) : Prop where
  pids : ∀ p q, l.pid p = l.pid q → l.pid p ≠ 0 → p = q
  fresh : ∀ p, l.pid p < l.nextpid
  positive : 0 < l.nextpid
  named : ∀ p, l.state p ≠ .UNUSED → l.pid p ≠ 0
  running : ∀ c m, l.cpu c = some m → l.state m = .RUNNING
  alone : ∀ c c' m, l.cpu c = some m → l.cpu c' = some m → c = c'
  embryo : ∀ m np, (l.pos m).child = some np → l.state np = .EMBRYO
  single : ∀ m m' np, (l.pos m).child = some np → (l.pos m').child = some np → m = m'

variable {l l' : Life}

theorem child_of_update {pos : Slot → Pos} {m m' np : Slot} {x : Pos}
    (h : ∀ np, x.child = some np → (pos m).child = some np)
    (hc : (update pos m x m').child = some np) : (pos m').child = some np := by
  by_cases hm : m' = m
  · subst hm
    rw [update_self] at hc
    exact h np hc
  · rwa [update_of_ne hm] at hc

variable (h : l.Sane)
include h

theorem Sane.walk (m : Slot) {x : Pos} (hx : ∀ np, x.child = some np → (l.pos m).child = some np) :
    Sane { l with pos := update l.pos m x } where
  pids := h.pids
  fresh := h.fresh
  positive := h.positive
  named := h.named
  running := h.running
  alone := h.alone
  embryo m' np hc := h.embryo m' np (child_of_update hx hc)
  single m₁ m₂ np h₁ h₂ := h.single m₁ m₂ np (child_of_update hx h₁) (child_of_update hx h₂)

/-- Once the fork of `m` is over, no process refers to its child any more. -/
theorem Sane.no_child {m m' np : Slot} (hm : (l.pos m).child = some np) :
    (update l.pos m .kernel m').child ≠ some np := by
  intro hc
  by_cases same : m' = m
  · subst same
    simp [Pos.child] at hc
  rw [update_of_ne same] at hc
  exact same (h.single _ _ _ hc hm)

theorem Sane.setState (p : Slot) {st : ProcState} {cpu : ℕ → Option Slot}
    (named : l.pid p ≠ 0) (unborn : ∀ m, (l.pos m).child ≠ some p)
    (others : ∀ c m, cpu c = some m → m ≠ p → l.cpu c = some m)
    (running : ∀ c, cpu c = some p → st = .RUNNING)
    (alone : ∀ c c', cpu c = some p → cpu c' = some p → c = c') :
    Sane { l with state := update l.state p st, cpu := cpu } where
  pids := h.pids
  fresh := h.fresh
  positive := h.positive
  named q hq := by
    by_cases same : q = p
    · exact same ▸ named
    simp only [update_of_ne same] at hq
    exact h.named q hq
  running c m hc := by
    by_cases same : m = p
    · subst same
      simp only [update_self]
      exact running c hc
    simp only [update_of_ne same]
    exact h.running c m (others c m hc same)
  alone c c' m hc hc' := by
    by_cases same : m = p
    · subst same
      exact alone c c' hc hc'
    · exact h.alone c c' m (others c m hc same) (others c' m hc' same)
  embryo m np hc := by
    have ne : np ≠ p := fun same => unborn m (same ▸ hc)
    simp only [update_of_ne ne]
    exact h.embryo m np hc
  single := h.single

theorem Sane.not_child {p : Slot} (hp : l.state p ≠ .EMBRYO) (m : Slot) :
    (l.pos m).child ≠ some p := fun hc => hp (h.embryo m p hc)

theorem Sane.not_running {p : Slot} (hp : l.state p ≠ .RUNNING) (c : ℕ) :
    l.cpu c ≠ some p := fun hc => hp (h.running c p hc)

theorem Sane.move (move : Move l l') : l'.Sane := by
  cases move with
  | wake st hst =>
    refine ⟨h.pids, h.fresh, h.positive, fun p hp => ?_, fun c m hc => ?_, h.alone,
      fun m np hc => ?_, h.single⟩
    · rcases hst p with same | ⟨asleep, -⟩
      · exact h.named p (same ▸ hp)
      · exact h.named p (by simp [asleep])
    · rcases hst m with same | ⟨asleep, -⟩
      · exact same.trans (h.running c m hc)
      · simp [h.running c m hc] at asleep
    · rcases hst np with same | ⟨asleep, -⟩
      · exact same.trans (h.embryo m np hc)
      · simp [h.embryo m np hc] at asleep
  | walk m x hx => exact h.walk m hx
  | abort m np hc | release m np hc =>
    have em := h.embryo m np hc
    have idle := @Sane.not_running l h np (by simp [em])
    exact (h.walk m (by simp [Pos.child])).setState np (h.named np (by simp [em]))
      (fun _ => h.no_child hc) (fun _ _ h' _ => h') (fun c h' => absurd h' (idle c))
      fun c _ h' => absurd h' (idle c)
  | run c m idle hm =>
    have others := @Sane.not_running l h m (by simp [hm])
    have here (c' : ℕ) (h' : update l.cpu c (some m) c' = some m) : c' = c :=
      by_contra fun ne => others c' (by rwa [update_of_ne ne] at h')
    refine h.setState m (h.named m (by simp [hm])) (h.not_child (by simp [hm]))
      (fun c' m' h' ne => ?_) (fun _ _ => rfl) fun c₁ c₂ h₁ h₂ => (here c₁ h₁).trans (here c₂ h₂).symm
    by_cases same : c' = c
    · subst same
      rw [update_self] at h'
      exact absurd (Option.some.inj h').symm ne
    · rwa [update_of_ne same] at h'
  | stop c m st busy hst =>
    have run := h.running c m busy
    have idle (c' : ℕ) : update l.cpu c none c' ≠ some m := fun h' => by
      by_cases same : c' = c
      · simp [same] at h'
      rw [update_of_ne same] at h'
      exact same (h.alone c' c m h' busy)
    refine h.setState m (h.named m (by simp [run])) (h.not_child (by simp [run]))
      (fun c' m' h' _ => ?_) (fun c' h' => absurd h' (idle c')) fun c' _ h' => absurd h' (idle c')
    by_cases same : c' = c
    · simp [same] at h'
    · rwa [update_of_ne same] at h'
  | reap p hp =>
    have away (q : Slot) (hq : q ≠ p) : update l.pid p 0 q = l.pid q := update_of_ne hq ..
    refine ⟨fun q r same nz => ?_, fun q => ?_, h.positive, fun q hq => ?_, fun c m hc => ?_,
      h.alone, fun m np hc => ?_, h.single⟩
    · dsimp only at same nz
      have hq : q ≠ p := fun e => by simp [e] at nz
      have hr : r ≠ p := fun e => by simp [same, e] at nz
      simp only [away q hq, away r hr] at same nz
      exact h.pids q r same nz
    · by_cases hq : q = p
      · simpa [hq] using h.positive
      simp only [away q hq]
      exact h.fresh q
    · have hq' : q ≠ p := fun e => by simp [e] at hq
      simp only [update_of_ne hq'] at hq ⊢
      exact h.named q hq
    · have ne : m ≠ p := fun e => by simp [← e, h.running c m hc] at hp
      simp only [update_of_ne ne]
      exact h.running c m hc
    · have ne : np ≠ p := fun e => by simp [← e, h.embryo m np hc] at hp
      simp only [update_of_ne ne]
      exact h.embryo m np hc

theorem Sane.moves (moves : Moves l l') : l'.Sane := by
  induction moves with
  | refl => exact h
  | tail _ move ih => exact ih.move move

theorem Sane.birth (m : Slot) {np : Slot} (unused : l.state np = .UNUSED) :
    (l.birth m np).Sane where
  pids p q same nz := by
    simp only [Life.birth, update_apply] at same nz
    have fresh := h.fresh
    split at same <;> split at same <;> rename_i hp hq
    · exact hp.trans hq.symm
    · exact absurd same (fresh q).ne'
    · exact absurd same (fresh p).ne
    · exact h.pids p q same (by rwa [if_neg hp] at nz)
  fresh p := by
    have := h.fresh p
    simp only [Life.birth, update_apply]
    split <;> omega
  positive := by
    have := h.positive
    simp only [Life.birth]
    omega
  named p hp := by
    have := h.positive
    simp only [Life.birth, update_apply] at hp ⊢
    split
    · omega
    next ne =>
      rw [if_neg ne] at hp
      exact h.named p hp
  running c m' hc := by
    have run := h.running c m' hc
    have ne : m' ≠ np := fun e => by simp [e, unused] at run
    simp only [Life.birth, update_of_ne ne, run]
  alone := h.alone
  embryo m' np' hc := by
    by_cases ne : np' = np
    · simp [Life.birth, ne]
    simp only [Life.birth, update_of_ne ne] at hc ⊢
    refine h.embryo m' np' ?_
    by_cases same : m' = m
    · subst same
      rw [update_self] at hc
      exact absurd (Option.some.inj hc).symm ne
    · rwa [update_of_ne same] at hc
  single m₁ m₂ np' h₁ h₂ := by
    have old (m' : Slot) : (l.pos m').child ≠ some np := h.not_child (by simp [unused]) m'
    simp only [Life.birth, update_apply] at h₁ h₂
    split at h₁ <;> split at h₂ <;> rename_i e₁ e₂
    · exact e₁.trans e₂.symm
    · exact absurd (h₂.trans h₁.symm) (old m₂)
    · exact absurd (h₁.trans h₂.symm) (old m₁)
    · exact h.single m₁ m₂ np' h₁ h₂

theorem Sane.alive_of_move (move : Move l l') {p : Slot} (alive : l'.Alive p) : l.Alive p := by
  have updated {st : ProcState} {q : Slot} (was : l.Alive q)
      (alive : Alive { l with state := update l.state q st } p) : l.Alive p := by
    by_cases same : p = q
    · exact same ▸ was
    · simpa only [Alive, update_of_ne same] using alive
  cases move with
  | wake st hst =>
    rcases hst p with same | ⟨asleep, -⟩
    · simpa only [Alive, same] using alive
    · simp [Alive, asleep]
  | walk m x hx => exact alive
  | abort m np hc | release m np hc => exact updated (by simp [Alive, h.embryo m np hc]) alive
  | run c m idle hm => exact updated (by simp [Alive, hm]) alive
  | stop c m st busy hst => exact updated (by simp [Alive, h.running c m busy]) alive
  | reap q hq =>
    have ne : p ≠ q := fun e => by simp [Alive, e] at alive
    simpa only [Alive, update_of_ne ne] using alive

theorem Sane.alive_of_moves (moves : Moves l l') {p : Slot} (alive : l'.Alive p) : l.Alive p := by
  induction moves with
  | refl => exact alive
  | tail before move ih => exact ih ((h.moves before).alive_of_move move alive)

end Life

/-! ## The first process -/

theorem boot_life : Kernel.boot.life =
    ⟨fun p => if p = 0 then .RUNNABLE else .UNUSED, fun p => if p = 0 then 1 else 0,
      fun _ => .kernel, fun _ => none, 2⟩ := by
  have table : ∀ p, (Kernel.boot.procs p).state = (if p = 0 then .RUNNABLE else .UNUSED) ∧
      (Kernel.boot.procs p).pid = (if p = 0 then 1 else 0) ∧
      (Kernel.boot.procs p).pos = .kernel := by decide +kernel
  exact Life.ext (funext fun p => (table p).1) (funext fun p => (table p).2.1)
    (funext fun p => (table p).2.2) rfl rfl

theorem boot_sane : Kernel.boot.life.Sane := by
  rw [boot_life]
  refine ⟨fun p q => ?_, fun p => ?_, by decide, fun p => ?_, by simp, by simp, by simp [Pos.child],
    by simp [Pos.child]⟩
  · dsimp only
    split_ifs with hp hq
    · exact fun _ _ => hp.trans hq.symm
    all_goals simp
  · dsimp only
    split_ifs <;> decide
  · dsimp only
    split_ifs <;> simp

theorem boot_queue (k : Level) :
    Kernel.boot.queue k = if k = 0 then ArrayQueue.empty.append 0 else .empty := by
  match k with
  | 0 => rfl
  | 1 | 2 | 3 | 4 => rfl

end Xv6
