import Xv6.Sleep.Waiting

/-!
# Sleep locks

The functions of `sleeplock.c` for any number of sleep locks.  Sleep lock `k` is its own channel,
and its spin lock is `.other k`.  A process keeps account of the sleep locks it has and releases
only those: `brelse` and `iunlock` panic otherwise.
-/

set_option linter.unusedSectionVars false

namespace Xv6.SleepLocks

open Lib Sleep Function

structure SleepLock where
  locked : Bool
  pid : ℤ

/-- Outside, in `acquiresleep`, in `releasesleep`, and in `holdingsleep`. -/
inductive Stage where
  | kernel
  | acquire | test | wait | taken
  | drop | clear | wake | dropped
  | ask | look | told (r : Bool)

/-- Where a process is in its last call, which was for sleep lock `k`. -/
structure Place where
  at_ : Stage
  k : ℕ
  mine : ℕ → Bool

inductive Input where
  | acquiresleep (k : ℕ)
  | releasesleep (k : ℕ)
  | holdingsleep (k : ℕ)

variable {P : Type} {pid : P → ℤ}

def code (pid : P → ℤ) (p : P) : Place → Instr (ℕ → SleepLock) ℕ Input Place
  | ⟨.kernel, k, mine⟩ => .compute fun _ d i =>
      match i with
      | .acquiresleep k => (d, ⟨.acquire, k, mine⟩)
      | .releasesleep k' => (d, if mine k' then ⟨.drop, k', mine⟩ else ⟨.kernel, k, mine⟩)
      | .holdingsleep k => (d, ⟨.ask, k, mine⟩)
  | ⟨.acquire, k, mine⟩ => .acquire (.other k) ⟨.test, k, mine⟩
  | ⟨.test, k, mine⟩ => .compute fun _ d _ =>
      if (d k).locked then (d, ⟨.wait, k, mine⟩)
      else (update d k ⟨true, pid p⟩, ⟨.taken, k, update mine k true⟩)
  | ⟨.wait, k, mine⟩ => .sleep k (.other k) ⟨.test, k, mine⟩
  | ⟨.drop, k, mine⟩ => .acquire (.other k) ⟨.clear, k, mine⟩
  | ⟨.clear, k, mine⟩ => .compute fun _ d _ =>
      (update d k ⟨false, 0⟩, ⟨.wake, k, update mine k false⟩)
  | ⟨.wake, k, mine⟩ => .wakeup k ⟨.dropped, k, mine⟩
  | ⟨.ask, k, mine⟩ => .acquire (.other k) ⟨.look, k, mine⟩
  | ⟨.look, k, mine⟩ => .compute fun _ d _ =>
      (d, ⟨.told ((d k).locked && (d k).pid == pid p), k, mine⟩)
  | ⟨.taken, k, mine⟩ | ⟨.dropped, k, mine⟩ | ⟨.told _, k, mine⟩ =>
      .release (.other k) ⟨.kernel, k, mine⟩

/-- The system after `initsleeplock`. -/
def init : Sleep.Machine P (ℕ → SleepLock) ℕ Place :=
  .start (fun _ => ⟨false, 0⟩) fun _ => ⟨.kernel, 0, fun _ => false⟩

namespace Place

def Holds (x : Place) (l : SpinLock) : Prop :=
  match x.at_ with
  | .kernel | .acquire | .drop | .ask => False
  | _ => l = .other x.k

/-- What a process knows of its own sleep locks. -/
def Knows (x : Place) : Prop :=
  match x.at_ with
  | .drop | .clear => x.mine x.k = true
  | .told r => r = x.mine x.k
  | _ => True

def Wakes (x : Place) (k : ℕ) : Prop := x.at_ = .wake ∧ x.k = k

end Place

/-! ## Owners -/

/-- A sleep lock is locked just if some process has it, and names this process. -/
structure Owned (pid : P → ℤ) (l : SleepLock) (has : P → Bool) : Prop where
  mine : ∀ {p}, has p = true → l = ⟨true, pid p⟩
  held : l.locked = true → ∃ p, has p = true

structure Kept (pid : P → ℤ) (d : ℕ → SleepLock) (places : P → Place) : Prop where
  owned : ∀ k, Owned pid (d k) ((Place.mine · k) ∘ places)
  knows : ∀ p, (places p).Knows

variable [DecidableEq P] {d d' : ℕ → SleepLock} {places : P → Place} {p q : P} {x y : Place}
  {s s' : Sleep.Machine P (ℕ → SleepLock) ℕ Place} {k : ℕ} {b : Bool} {i : Input}
  {f : Bool → (ℕ → SleepLock) → Input → (ℕ → SleepLock) × Place}

theorem Owned.change {has : P → Bool} {n : ℤ} (named : b = true → n = pid p)
    (free : ∀ q, q ≠ p → has q = false) : Owned pid ⟨b, n⟩ (update has p b) := by
  refine ⟨fun {q} hq => ?_, fun locked => ⟨p, by rwa [update_self]⟩⟩
  by_cases eq : q = p
  · subst eq
    rw [update_self] at hq
    rw [hq, named hq]
  rw [update_of_ne eq, free q eq] at hq
  cases hq

namespace Kept

section

variable (h : Kept pid d places)
include h

theorem knows_update (knows : y.Knows) (q : P) : (update places p y q).Knows := by
  by_cases eq : q = p
  · rwa [eq, update_self]
  rw [update_of_ne eq]
  exact h.knows q

theorem owned_update (p : P) (j : ℕ) :
    Owned pid (d j) (update ((Place.mine · j) ∘ places) p ((places p).mine j)) :=
  (update_eq_self p ((Place.mine · j) ∘ places)).symm ▸ h.owned j

theorem move (mine : y.mine = (places p).mine) (knows : y.Knows) :
    Kept pid d (update places p y) := by
  refine ⟨fun j => ?_, h.knows_update knows⟩
  rw [comp_update, mine]
  exact h.owned_update p j

/-- Sleep lock `k`, which no other process has, goes to process `p` or away from it. -/
theorem change {n : ℤ} (named : b = true → n = pid p)
    (free : ∀ q, q ≠ p → (places q).mine k = false) (mine : y.mine = update (places p).mine k b)
    (knows : y.Knows) : Kept pid (update d k ⟨b, n⟩) (update places p y) := by
  refine ⟨fun j => ?_, h.knows_update knows⟩
  rw [comp_update, mine]
  by_cases eq : j = k
  · subst eq
    rw [update_self, update_self]
    exact .change named free
  rw [update_of_ne eq, update_of_ne eq]
  exact h.owned_update p j

end

variable (distinct : Injective pid) (h : Kept pid d places)
include distinct h

theorem alone (hp : (places p).mine k = true) (hq : (places q).mine k = true) : q = p :=
  distinct (congrArg SleepLock.pid (((h.owned k).mine hq).symm.trans ((h.owned k).mine hp)))

theorem look (p : P) (k : ℕ) : ((d k).locked && (d k).pid == pid p) = (places p).mine k := by
  rw [Bool.eq_iff_iff, Bool.and_eq_true, beq_iff_eq]
  constructor
  · rintro ⟨locked, named⟩
    obtain ⟨q, has⟩ := (h.owned k).held locked
    rw [(h.owned k).mine has] at named
    exact distinct named ▸ has
  intro has
  rw [(h.owned k).mine has]
  exact ⟨rfl, rfl⟩

theorem compute (here : places p = x) (does : code pid p x = .compute f)
    (result : f b d i = (d', y)) : Kept pid d' (update places p y) := by
  have knows := here ▸ h.knows p
  obtain ⟨x, k, mine⟩ := x
  cases x <;> cases does <;> dsimp only at result
  case kernel =>
    cases i <;> cases result
    case releasesleep j =>
      split
      next has => exact h.move (by rw [here]) has
      · exact h.move (by rw [here]) trivial
    all_goals exact h.move (by rw [here]) trivial
  case test =>
    split at result <;> cases result
    · exact h.move (by rw [here]) trivial
    next open_ =>
      refine h.change (fun _ => rfl) (fun q _ => ?_) (by rw [here]) trivial
      by_contra has
      rw [(h.owned k).mine (p := q) (by simpa using has)] at open_
      exact open_ rfl
  case clear =>
    cases result
    refine h.change (by simp) (fun q ne => ?_) (by rw [here]) trivial
    by_contra also
    exact ne (h.alone distinct (by rw [here]; exact knows) (by simpa using also))
  case look =>
    cases result
    exact h.move (by rw [here]) ((h.look distinct p k).trans (by rw [here]))

end Kept

theorem Kept.step {e : Sleep.Event P Input} (distinct : Injective pid)
    (h : Kept pid s.data s.places) (st : Step (code pid) s e s') : Kept pid s'.data s'.places := by
  rcases st.place with ⟨data, places⟩ | ⟨p, x, y, at_, places, ⟨data, goes, -⟩ | ⟨f, i, does, eq⟩⟩
  · rwa [data, places]
  all_goals
    have here : s.places p = x := by rw [Machine.places, at_]; rfl
    rw [places]
  · rw [data]
    have knows := here ▸ h.knows p
    obtain ⟨x, k, mine⟩ := x
    cases x <;> cases goes <;> refine h.move (by rw [here]) ?_ <;> trivial
  · exact h.compute distinct here does eq

/-! ## Locks and waiting -/

theorem code_discipline : Discipline (code pid) Place.Holds where
  acquire := by
    rintro p ⟨x, k, mine⟩ lk y does l held
    cases x <;> cases does <;> exact .inr held
  release := by
    rintro p ⟨x, k, mine⟩ lk y does
    cases x <;> cases does <;> exact ⟨rfl, fun l => False.elim⟩
  compute := by
    rintro p ⟨x, k, mine⟩ f does b d i l held
    cases x <;> cases does <;> dsimp only at held
    case kernel =>
      cases i <;> dsimp only at held <;> try exact held
      split at held <;> exact held
    case test => split at held <;> exact held
    all_goals exact held
  sleep := by
    rintro p ⟨x, k, mine⟩ c lk y does
    cases x <;> cases does
    exact ⟨rfl, fun l => id⟩
  wakeup := by
    rintro p ⟨x, k, mine⟩ c y does
    cases x <;> cases does
    exact ⟨nofun, fun l => id⟩
  wakeup1 := by
    rintro p ⟨x, k, mine⟩ c y does
    cases x <;> cases does

theorem code_heralds : Heralds (code pid) Place.Holds .other (fun k d => (d k).locked = true)
    Place.Wakes (Kept pid) where
  other _ := nofun
  sleep := by
    rintro p ⟨x, k, mine⟩ c lk y does
    cases x <;> cases does
    exact ⟨rfl, rfl⟩
  wakeup := by
    rintro p ⟨_, _, mine⟩ c ⟨⟨⟩, ⟨⟩⟩
    exact ⟨_, rfl, rfl⟩
  holds := by
    rintro ⟨_, _, mine⟩ c ⟨⟨⟩, ⟨⟩⟩
    rfl
  leads := by
    rintro p ⟨x, k, mine⟩ y goes c lk z does
    cases x <;> cases goes <;> cases does
  falls := by
    rintro d places p ⟨x, k, mine⟩ f b i d' y - - does result c lk z sleeps
    cases x <;> cases does <;> dsimp only at result
    case kernel =>
      cases i <;> cases result <;> try cases sleeps
      split at sleeps <;> cases sleeps
    case test =>
      split at result <;> cases result <;> cases sleeps
      assumption
    all_goals
      cases result
      cases sleeps
  ends := by
    rintro d places p ⟨x, k, mine⟩ f b i d' y - - does result c - why
    cases x <;> cases does <;> dsimp only at result
    case kernel => cases i <;> cases result <;> exact .inl why
    case test =>
      split at result <;> cases result
      · exact .inl why
      by_cases eq : c = k
      · exact .inl (by rw [eq, update_self])
      · exact .inl (by rwa [update_of_ne eq])
    case clear =>
      cases result
      by_cases eq : c = k
      · exact .inr ⟨rfl, eq.symm⟩
      · exact .inl (by rwa [update_of_ne eq])
    case look =>
      cases result
      exact .inl why

/-- Whatever the processes do, and whoever is killed: a sleep lock has one owner at most, it is
locked just if it has one, `holdingsleep` tells the owner from the others, and while the spin lock
is free nobody sleeps on a sleep lock that is not locked. -/
theorem sleeplock_excludes (distinct : Injective pid) (es : List (Sleep.Event P Input))
    (reached : exec (run (Sleep.step (code pid)) es) init = (.ok ⟨⟩, s)) (k : ℕ) :
    (∀ p q, (s.places p).mine k = true → (s.places q).mine k = true → q = p) ∧
    ((s.data k).locked = true ↔ ∃ p, (s.places p).mine k = true) ∧
    (∀ p r, (s.places p).at_ = .told r → r = (s.places p).mine (s.places p).k) ∧
    (s.lock (.other k) = none → ∀ p, (s.task p).state = .SLEEPING → (s.task p).chan = some k →
      (s.data k).locked = true) := by
  obtain ⟨sound, sleepers, kept, awaited⟩ := of_run (I := fun s => Sound (code pid) Place.Holds s ∧
      s.Sleepers (code pid) ∧ Kept pid s.data s.places ∧ Awaited (code pid) Place.Holds .other
        (fun k d => (d k).locked = true) Place.Wakes s) reached
    ⟨Sound.start _ fun _ _ => id, Machine.sleepers_start _ _,
      ⟨fun _ => ⟨nofun, nofun⟩, fun _ => trivial⟩, Awaited.start nofun⟩
    fun s e ⟨sound, sleepers, kept, awaited⟩ =>
      have st := next_step (code pid) s e
      ⟨sound.step code_discipline st, sound.sleepers sleepers st, kept.step distinct st,
        awaited.step code_heralds sound sleepers kept st⟩
  refine ⟨fun p q => kept.alone distinct, ⟨(kept.owned k).held, fun ⟨p, has⟩ => ?_⟩,
    fun p r at_ => ?_, fun free p slept chan => ?_⟩
  · rw [(kept.owned k).mine has]
  · have knows := kept.knows p
    rwa [Place.Knows, at_] at knows
  · exact awaited.reason_of_free code_heralds sound sleepers free slept chan

/-- Process 1 waits for the sleep lock of process 0, and is killed. -/
def waitAndKill : List (Sleep.Event (Fin 2) Input) :=
  List.replicate 4 (.run 0 (.acquiresleep 7)) ++ List.replicate 7 (.run 1 (.acquiresleep 7)) ++
    [.drop, .kill 1]

theorem sleeplock_excludes_waiting :
    let s := (exec (run (Sleep.step (code fun p : Fin 2 => (p : ℤ) + 1)) waitAndKill) init).2
    (s.places 0).mine 7 = true ∧ ∀ q, (s.places q).mine 7 = true → q = 0 := by
  have has : ((exec (run (Sleep.step (code fun p : Fin 2 => (p : ℤ) + 1)) waitAndKill)
      init).2.places 0).mine 7 = true := by decide +kernel
  have distinct : Injective fun p : Fin 2 => (p : ℤ) + 1 := fun p q eq => by
    have same : (p : ℤ) + 1 = q + 1 := eq
    omega
  exact ⟨has, fun q => (sleeplock_excludes distinct waitAndKill (exec_eq_of_ok rfl) 7).1 0 q has⟩

end Xv6.SleepLocks
