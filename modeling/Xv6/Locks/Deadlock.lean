import Xv6.Locks.Kernel

/-!
# Deadlock between CPUs

`ptable.lock` is taken with another lock held by `sleep` and `wakeup`, and nothing but `kmem.lock`
is taken with it held, except that `exit`, `waitx` and `cps` call `cprintf`, which takes
`cons.lock`.
-/

set_option linter.unusedSectionVars false

namespace Xv6.Locks

open Lib Proc SpinLocks

namespace Place

/-! ## Where functions return to -/

def Open : Place → Prop
  | .scheduler | .user _ | .exitClose _ => True
  | _ => False

def Between : Place → Prop
  | .scheduler | .user _ | .exitClose _ | .readAcquire _ _ _ => True
  | _ => False

def Prints : Place → Prop
  | .user _ | .cpsAcquire _ | .exitSched _ | .waitFree _ _ | .cpsLoop _ _ => True
  | .procdump next => next.Open
  | _ => False

def Frees : Place → Prop
  | .user _ | .exitClose _ | .waitFree _ _ => True
  | _ => False

def Sleeps (lk : Lock) : Place → Prop
  | .waitScan _ _ => lk = .ptable
  | .ticksLoop _ _ _ => lk = .ticks
  | .readLoop _ _ _ => lk = .cons
  | .otherBody _ i next => lk = .other i ∧ next.Between
  | _ => False

def Wakes : Place → Prop
  | .intrLoop _ _ next | .timerRelease _ next => next.Open
  | .otherBody _ _ next => next.Between
  | _ => False

def Holds : Place → Lock → Prop
  | .scan, l | .schedRelease, l | .forkret _, l | .exitWake _, l | .exitSched _, l | .zombie _, l
  | .waitScan _ _, l | .waitFree _ _, l | .waitRelease _, l | .cpsLoop _ _, l | .cpsRelease _, l
  | .killSet _ _, l | .killRelease _, l | .yieldSet _ _, l | .yieldBack _, l
  | .sleepSet _ _ _ _, l | .woken _ _ _, l | .wokenRelease _ _, l => l = .ptable
  | .readLoop _ _ _, l | .readRelease _ _, l | .intrLoop _ _ _, l | .intrRelease _ _, l => l = .cons
  | .ticksStart _ _, l | .ticksLoop _ _ _, l | .ticksRelease _, l | .timerTick _ _, l
  | .timerRelease _ _, l => l = .ticks
  | .otherBody _ i _, l | .otherRelease i _, l => l = .other i
  | .sleep _ _ lk _, l | .sleepAcquire _ _ lk _, l => l = lk
  | .sleepRelease _ _ lk _, l => l = .ptable ∨ l = lk
  | .cprintf next, l | .kfree next, l | .wakeup _ next, l => next.Holds l
  | .cprintfRelease next, l => l = .cons ∨ next.Holds l
  | .kfreeRelease next, l => l = .kmem ∨ next.Holds l
  | .wakeupLoop _ next, l | .wakeupRelease next, l => l = .ptable ∨ next.Holds l
  | _, _ => False

def Ok : Place → Prop
  | .intrAcquire _ next | .intrLoop _ _ next | .intrRelease _ next | .procdump next
  | .timerAcquire _ next | .timerTick _ next | .timerRelease _ next | .timerEnd _ next
  | .yieldAcquire _ next | .yieldSet _ next | .yieldBack next => next.Open
  | .cprintf next | .cprintfRelease next => next.Prints
  | .kfree next | .kfreeRelease next => next.Frees
  | .sleep _ _ lk next | .sleepSet _ _ lk next | .woken _ lk next => next.Sleeps lk
  | .sleepAcquire _ _ lk next | .sleepRelease _ _ lk next | .wokenRelease lk next
  | .reacquire lk next => lk ≠ .ptable ∧ next.Sleeps lk
  | .wakeup _ next | .wakeupLoop _ next | .wakeupRelease next => next.Wakes
  | .otherAcquire _ _ next | .otherBody _ _ next | .otherRelease _ next => next.Between
  | _ => True

variable {x : Place}

theorem Open.spec (h : x.Open) : x.Ok ∧ ∀ l, ¬ x.Holds l := by
  cases x <;> first | exact ⟨trivial, fun _ => id⟩ | exact h.elim

theorem Between.spec (h : x.Between) : x.Ok ∧ ∀ l, ¬ x.Holds l := by
  cases x <;> first | exact ⟨trivial, fun _ => id⟩ | exact h.elim

theorem Open.between (h : x.Open) : x.Between := by
  cases x <;> trivial

theorem Prints.spec (h : x.Prints) : x.Ok ∧ ∀ l, x.Holds l → l = .ptable := by
  cases x <;> try exact h.elim
  case user | cpsAcquire => exact ⟨trivial, fun _ => False.elim⟩
  case procdump => exact ⟨h, fun _ => False.elim⟩
  all_goals exact ⟨trivial, fun _ => id⟩

theorem Frees.spec (h : x.Frees) : x.Ok ∧ ∀ l, x.Holds l → l = .ptable := by
  cases x <;> try exact h.elim
  case waitFree => exact ⟨trivial, fun _ => id⟩
  all_goals exact ⟨trivial, fun _ => False.elim⟩

theorem Sleeps.spec {lk : Lock} (h : x.Sleeps lk) : x.Ok ∧ lk ≠ .kmem ∧ ∀ l, x.Holds l ↔ l = lk := by
  cases x <;> try exact h.elim
  case otherBody p i next => exact ⟨h.2, by rw [h.1]; nofun, fun l => by rw [h.1]; rfl⟩
  all_goals exact ⟨trivial, by rw [h]; nofun, fun l => by rw [h]; rfl⟩

theorem Wakes.spec (h : x.Wakes) : x.Ok ∧ ∀ l, x.Holds l → l ≠ .ptable ∧ l ≠ .kmem := by
  cases x <;> try exact h.elim
  all_goals
    refine ⟨h, fun l held => ?_⟩
    rw [show l = _ from held]
    exact ⟨nofun, nofun⟩

end Place

/-- The saved places of processes: with `ptable.lock` held. -/
def Parked (d : World) : Prop :=
  ∀ p, (d.task p).context.Ok ∧ ∀ l, (d.task p).context.Holds l ↔ l = .ptable

theorem Parked.setTask {d : World} (h : Parked d) {p : Slot} {f : Task → Task}
    (ctx : (f (d.task p)).context.Ok ∧ ∀ l, (f (d.task p)).context.Holds l ↔ l = .ptable) :
    Parked (d.setTask p f) := by
  intro q
  by_cases same : q = p
  · subst same
    simpa only [World.setTask, Function.update_self] using ctx
  · simpa only [World.setTask, Function.update_of_ne same] using h q

theorem Parked.wakeup1 {d : World} (h : Parked d) (chan : Chan) : Parked (d.wakeup1 chan) := by
  intro q
  rw [World.wakeup1]
  dsimp only
  split <;> exact h q

theorem Parked.wakeParent {d : World} (h : Parked d) (p : Slot) : Parked (d.wakeParent p) := by
  rw [World.wakeParent]
  split
  · exact h.wakeup1 _
  · exact h

theorem Parked.reparent {d : World} (h : Parked d) (p : Slot) : Parked (d.reparent p) := by
  have passed : Parked { d with
      task := fun q =>
        if (d.task q).parent = some p then { d.task q with parent := some d.initproc }
        else d.task q } := by
    intro q
    dsimp only
    split <;> exact h q
  rw [World.reparent]
  split
  · exact passed.wakeup1 _
  · exact passed

theorem Parked.exit {d : World} (h : Parked d) (p : Slot) : Parked (d.exit p) := by
  have before := (h.wakeParent p).reparent p
  exact before.setTask (f := fun t => { t with state := .ZOMBIE }) (before p)

theorem Parked.clear {d : World} (h : Parked d) (z : Slot) : Parked (d.clear z) :=
  h.setTask (f := fun t => { t with state := .UNUSED, parent := none, killed := false }) (h z)

theorem Parked.kill {d : World} (h : Parked d) (q : Slot) : Parked (d.kill q) :=
  h.setTask (f := fun t =>
    { t with killed := true, state := if t.state = .SLEEPING then .RUNNABLE else t.state }) (h q)

theorem Parked.switch {d : World} (h : Parked d) (p : Slot) (state : ProcState)
    (chan : Option Chan) {context : Place} (ok : context.Ok)
    (table : ∀ l, context.Holds l ↔ l = .ptable) : Parked (d.switch p state chan context) :=
  h.setTask (f := fun t => { t with state := state, chan := chan, context := context }) ⟨ok, table⟩

/-! ## The discipline -/

section

variable {policy : Policy} {x y : Place} {l : Lock}

theorem code_acquire (ok : x.Ok) (does : code policy x = .acquire l y) :
    y.Ok ∧ ¬ x.Holds l ∧ ∀ k, y.Holds k ↔ k = l ∨ x.Holds k := by
  cases x <;> try cases does
  case intrLoop cs _ _ => cases cs <;> cases does
  case cprintf next | kfree next =>
    obtain ⟨-, only⟩ := ok.spec
    exact ⟨ok, fun held => absurd (only _ held) nofun, fun _ => .rfl⟩
  case wakeup chan next =>
    obtain ⟨-, outer⟩ := ok.spec
    exact ⟨ok, fun held => (outer _ held).1 rfl, fun _ => .rfl⟩
  case sleepAcquire p chan lk next => exact ⟨ok, ok.1.symm, fun _ => .rfl⟩
  case reacquire =>
    obtain ⟨ok', -, holds⟩ := ok.2.spec
    exact ⟨ok', id, fun k => by simp [holds, Place.Holds]⟩
  -- the others take their first lock
  all_goals exact ⟨ok, id, fun k => (or_iff_left id).symm⟩

theorem code_release (ok : x.Ok) (does : code policy x = .release l y) :
    y.Ok ∧ x.Holds l ∧ ∀ k, y.Holds k ↔ k ≠ l ∧ x.Holds k := by
  cases x <;> try cases does
  case intrLoop cs _ _ => cases cs <;> cases does
  case cprintfRelease | kfreeRelease =>
    obtain ⟨ok', only⟩ := ok.spec
    refine ⟨ok', .inl rfl,
      fun k => ⟨fun held => ⟨?_, .inr held⟩, fun held => held.2.resolve_left held.1⟩⟩
    rw [only k held]
    nofun
  case wakeupRelease =>
    obtain ⟨ok', outer⟩ := ok.spec
    exact ⟨ok', .inl rfl, fun k =>
      ⟨fun held => ⟨(outer k held).1, .inr held⟩, fun held => held.2.resolve_left held.1⟩⟩
  case sleepRelease =>
    refine ⟨ok.2, .inr rfl, fun k => ⟨fun held => ?_, fun held => held.2.resolve_right held.1⟩⟩
    exact ⟨fun same => ok.1 (same.symm.trans held), .inl held⟩
  -- the others release their only lock
  case intrRelease doprocdump next =>
    obtain ⟨ok', none⟩ := ok.spec
    cases doprocdump
    · exact ⟨ok', rfl, fun k => ⟨fun held => absurd held (none k), fun held => absurd held.2 held.1⟩⟩
    · exact ⟨ok, rfl, fun k => ⟨False.elim, fun held => absurd held.2 held.1⟩⟩
  case yieldBack | otherRelease =>
    obtain ⟨ok', none⟩ := ok.spec
    exact ⟨ok', rfl, fun k => ⟨fun held => absurd held (none k), fun held => absurd held.2 held.1⟩⟩
  all_goals exact ⟨ok, rfl, fun k => ⟨False.elim, fun held => absurd held.2 held.1⟩⟩

theorem handler_spec (p : Option Slot) (next : Place) (r : Interrupt) (open_ : next.Open) :
    (handler p next r).Ok ∧ ∀ k, ¬ (handler p next r).Holds k := by
  cases r with
  | input cs => exact ⟨open_, fun _ => id⟩
  | timer cpu0 => cases cpu0 <;> exact ⟨open_, fun _ => id⟩
  | disk i => exact ⟨open_.between, fun _ => id⟩

theorem code_compute {f : World → Choice → World × Place} (ok : x.Ok)
    (does : code policy x = .compute f) (d : World) (i : Choice) (parked : Parked d) :
    Parked (f d i).1 ∧ (f d i).2.Ok ∧ ∀ k, (f d i).2.Holds k ↔ x.Holds k := by
  cases x <;> try cases does
  case scheduler | user p | exitClose p =>
    cases i
    case interrupt r =>
      exact ⟨parked, (handler_spec _ _ r (by trivial)).1,
        fun k => iff_of_false ((handler_spec _ _ r (by trivial)).2 k) id⟩
    all_goals exact ⟨parked, trivial, fun _ => .rfl⟩
  case scan =>
    cases i
    case pick p =>
      dsimp only
      split
      · have picked := parked.setTask (f := fun t => { t with state := .RUNNING }) (parked p)
        exact ⟨picked, (parked p).1, (parked p).2⟩
      · exact ⟨parked, trivial, fun _ => .rfl⟩
    all_goals exact ⟨parked, trivial, fun _ => .rfl⟩
  case exitWake p => exact ⟨parked.exit p, trivial, fun _ => .rfl⟩
  case exitSched p =>
    have left := parked.setTask (p := p) (f := fun t => { t with context := .zombie p })
      ⟨trivial, fun _ => .rfl⟩
    exact ⟨left, trivial, fun _ => .rfl⟩
  case waitScan p x =>
    dsimp only
    split
    · cases x <;> exact ⟨parked, trivial, fun _ => .rfl⟩
    split
    · exact ⟨parked, trivial, fun _ => .rfl⟩
    · exact ⟨parked, rfl, fun _ => .rfl⟩
  case waitFree p z =>
    cases i
    case kfree => exact ⟨parked, trivial, fun _ => .rfl⟩
    all_goals exact ⟨parked.clear z, trivial, fun _ => .rfl⟩
  case cpsLoop p n =>
    dsimp only
    repeat' split
    all_goals exact ⟨parked, trivial, fun _ => .rfl⟩
  case killSet p q => exact ⟨parked.kill q, trivial, fun _ => .rfl⟩
  case ticksLoop p n ticks0 =>
    dsimp only
    split
    · exact ⟨parked, rfl, fun _ => .rfl⟩
    · exact ⟨parked, trivial, fun _ => .rfl⟩
  case readLoop p j rd =>
    dsimp only
    repeat' split
    · exact ⟨parked, trivial, fun _ => .rfl⟩
    · exact ⟨parked, rfl, fun _ => .rfl⟩
    · exact ⟨parked, trivial, fun _ => .rfl⟩
  case intrLoop cs doprocdump next =>
    cases cs with
    | nil =>
      cases does
      exact ⟨parked, ok, fun _ => .rfl⟩
    | cons c cs =>
      cases does
      dsimp only
      split <;> exact ⟨parked, ok, fun _ => .rfl⟩
  case procdump next =>
    obtain ⟨ok', none⟩ := ok.spec
    cases i
    case cprintf => exact ⟨parked, ok, fun _ => .rfl⟩
    all_goals exact ⟨parked, ok', fun k => iff_of_false (none k) id⟩
  case timerEnd p next =>
    obtain ⟨ok', none⟩ := ok.spec
    dsimp only
    split
    · exact ⟨parked, ok, fun _ => .rfl⟩
    · exact ⟨parked, ok', fun k => iff_of_false (none k) id⟩
  case yieldSet p next | sleepSet p chan lk next =>
    exact ⟨parked.switch p _ _ ok fun _ => .rfl, trivial, fun _ => .rfl⟩
  case sleep p chan lk next =>
    dsimp only
    split
    next table => exact ⟨parked, ok, fun k => by rw [table]; rfl⟩
    next other => exact ⟨parked, ⟨other, ok⟩, fun _ => .rfl⟩
  case woken p lk next =>
    obtain ⟨ok', -, holds⟩ := ok.spec
    have awake := parked.setTask (f := fun t => { t with chan := none }) (parked p)
    dsimp only
    split
    next table => exact ⟨awake, ok', fun k => by rw [holds, table]; rfl⟩
    next other => exact ⟨awake, ⟨other, ok⟩, fun _ => .rfl⟩
  case wakeupLoop chan next => exact ⟨parked.wakeup1 chan, ok, fun _ => .rfl⟩
  case otherBody p j next =>
    dsimp only
    split
    · exact ⟨parked, ok, fun _ => .rfl⟩
    · exact ⟨parked, ⟨rfl, ok⟩, fun _ => .rfl⟩
    · exact ⟨parked, ok, fun _ => .rfl⟩
  all_goals exact ⟨parked, ok, fun _ => .rfl⟩

theorem code_discipline : Discipline (code policy) Place.Holds Place.Ok Parked where
  acquire := code_acquire
  release := code_release
  compute ok does d i parked := code_compute ok does d i parked

/-! ## The order -/

/-- `ptable.lock` comes after the locks of its callers, and `kmem.lock` comes last. -/
def rank : Lock → ℕ
  | .ptable => 1
  | .kmem => 2
  | _ => 0

/-- Before `acquire(&cons.lock)` in the `cprintf` of `exit`, `waitx` or `cps`, with
`ptable.lock`. -/
def PrintsLocked : Place → Prop
  | .cprintf (.exitSched _) | .cprintf (.waitFree _ _) | .cprintf (.cpsLoop _ _) => True
  | _ => False

/-- Before `acquire(&ptable.lock)` in the `wakeup` of `consoleintr` or in the `sleep` of
`consoleread`, with `cons.lock`. -/
def ConsoleWaits : Place → Prop
  | .wakeup _ (.intrLoop _ _ _) | .sleepAcquire _ _ .cons _ => True
  | _ => False

theorem rank_outer {k : Lock} (outer : k ≠ .ptable ∧ k ≠ .kmem) : rank k < rank .ptable := by
  cases k <;> simp_all [rank]

theorem code_order (ok : x.Ok) (before : Before (code policy) x l) {k : Lock} (held : x.Holds k) :
    rank k < rank l ∨ PrintsLocked x := by
  obtain ⟨y, does⟩ := before
  cases x <;> try cases does
  case intrLoop cs _ _ => cases cs <;> cases does
  case cprintf next =>
    right
    cases next <;> first | exact ok.elim | exact held.elim | trivial
  case kfree next =>
    obtain rfl := (Place.Frees.spec ok).2 k held
    exact .inl (by decide)
  case wakeup chan next => exact .inl (rank_outer ((Place.Wakes.spec ok).2 k held))
  case sleepAcquire p chan lk next =>
    obtain ⟨-, other, -⟩ := ok.2.spec
    obtain rfl : k = lk := held
    exact .inl (rank_outer ⟨ok.1, other⟩)
  all_goals exact held.elim

theorem PrintsLocked.spec (policy : Policy) (h : PrintsLocked x) :
    x.Holds .ptable ∧ Before (code policy) x .cons := by
  cases x <;> try exact h.elim
  case cprintf next => cases next <;> first | exact h.elim | exact ⟨rfl, _, rfl⟩

theorem code_cons (ok : x.Ok) (held : x.Holds .cons) (before : Before (code policy) x l) :
    ConsoleWaits x := by
  obtain ⟨y, does⟩ := before
  cases x <;> try cases does
  case intrLoop cs _ _ => cases cs <;> cases does
  case cprintf next => exact absurd ((Place.Prints.spec ok).2 _ held) nofun
  case kfree next => exact absurd ((Place.Frees.spec ok).2 _ held) nofun
  case wakeup chan next => cases next <;> first | exact ok.elim | trivial
  case sleepAcquire p chan lk next =>
    obtain rfl : Lock.cons = lk := held
    trivial
  all_goals exact held.elim

theorem ConsoleWaits.spec (policy : Policy) (h : ConsoleWaits x) :
    x.Holds .cons ∧ Before (code policy) x .ptable := by
  cases x <;> try exact h.elim
  case wakeup chan next => cases next <;> first | exact h.elim | exact ⟨rfl, _, rfl⟩
  case sleepAcquire p chan lk next => cases lk <;> first | exact h.elim | exact ⟨rfl, _, rfl⟩

end

section

variable {T : Type} [DecidableEq T] (policy : Policy) (live : Slot → Bool)
  (parent : Slot → Option Slot) (initproc : Slot) (line : Console.Line Slot) (ticks : Word)

theorem boot_sound : Sound Place.Holds Place.Ok Parked
    (boot live parent initproc line ticks : SpinLocks.Machine T Lock World Place) where
  inv _ := ⟨trivial, fun _ => Iff.rfl⟩
  ok _ := trivial
  locks _ _ := ⟨nofun, False.elim⟩

/-- CPUs wait for each other in a cycle exactly when one is about to print with `ptable.lock` held,
and another needs `ptable.lock` in the console code, with `cons.lock` held. -/
theorem spinlocks_deadlocked_iff (es : List (T × Choice)) {s : SpinLocks.Machine T Lock World Place}
    (reached : exec (run (SpinLocks.step (code policy)) es) (boot live parent initproc line ticks) =
      (.ok ⟨⟩, s)) :
    (Deadlocked (code policy) s ↔
      ∃ t u, PrintsLocked (s.place t) ∧ ConsoleWaits (s.place u)) ∧
    (Along (SpinLocks.step (code policy))
        (fun s e => ¬ PrintsLocked ((s.next (code policy) e.1 e.2).place e.1)) es
        (boot live parent initproc line ticks) →
      ¬ Deadlocked (code policy) s) := by
  have sound := Sound.run code_discipline reached (boot_sound live parent initproc line ticks)
  have iff : Deadlocked (code policy) s ↔
      ∃ t u, PrintsLocked (s.place t) ∧ ConsoleWaits (s.place u) := by
    constructor
    · intro dead
      obtain ⟨t, u, v, prints, tu, uv⟩ := exception_of_deadlocked
        (fun _ _ ok before _ held => code_order ok before held) sound dead
      obtain ⟨l, before, held⟩ := tu
      obtain rfl := before.unique (prints.spec policy).2
      obtain ⟨l', before', -⟩ := uv
      exact ⟨t, u, prints, code_cons (sound.ok u) ((sound.locks _ u).1 held) before'⟩
    rintro ⟨t, u, prints, waits⟩
    obtain ⟨table, cons⟩ := prints.spec policy
    obtain ⟨cons', table'⟩ := waits.spec policy
    have tu : WaitsFor (code policy) s t u := ⟨.cons, cons, (sound.locks _ _).2 cons'⟩
    have ut : WaitsFor (code policy) s u t := ⟨.ptable, table', (sound.locks _ _).2 table⟩
    exact ⟨t, .tail (.single tu) ut⟩
  refine ⟨iff, fun quiet dead => ?_⟩
  have keep (s : SpinLocks.Machine T Lock World Place) (e : T × Choice)
      (h : ∀ t, ¬ PrintsLocked (s.place t))
      (ok : ¬ PrintsLocked ((s.next (code policy) e.1 e.2).place e.1)) :
      wp (SpinLocks.step (code policy) e) (fun _ s => ∀ t, ¬ PrintsLocked (s.place t))
      anyStop s := by
    intro t
    by_cases same : t = e.1
    · subst same
      exact ok
    show ¬ PrintsLocked ((s.next (code policy) e.1 e.2).place t)
    rw [place_next_ne same]
    exact h t
  have never := wp_of_ok (quiet.wp_run keep fun _ => id) reached
  obtain ⟨t, -, prints, -⟩ := iff.1 dead
  exact never t prints

end

/-- Process 0 exits on CPU 0 while CPU 1 handles a typed newline. -/
def exitWhileTyping : List (Fin 2 × Choice) :=
  [(0, .go), (0, .go), (0, .pick 0), (0, .go), (0, .exit), (0, .go), (0, .go),
    (1, .interrupt (.input [Console.newline])), (1, .go), (1, .go), (0, .go)]

def stuck : SpinLocks.Machine (Fin 2) Lock World Place :=
  (exec (run (SpinLocks.step (code .DEFAULT)) exitWhileTyping)
    (boot (fun _ => true) (fun _ => none) 1 ⟨⟨fun _ => 0, 0, 0, 0⟩, [], []⟩ 0)).2

theorem spinlocks_deadlocked_iff_stuck :
    exec (run (SpinLocks.step (code .DEFAULT)) exitWhileTyping)
        (boot (fun _ => true) (fun _ => none) 1 ⟨⟨fun _ => 0, 0, 0, 0⟩, [], []⟩ 0) =
      (.ok ⟨⟩, stuck) ∧ ∃ t u, PrintsLocked (stuck.place t) ∧ ConsoleWaits (stuck.place u) := by
  have reached : exec (run (SpinLocks.step (code .DEFAULT)) exitWhileTyping)
      (boot (fun _ => true) (fun _ => none) 1 ⟨⟨fun _ => 0, 0, 0, 0⟩, [], []⟩ 0) =
    (.ok ⟨⟩, stuck) := exec_eq_of_ok rfl
  have iff := (spinlocks_deadlocked_iff .DEFAULT (fun _ => true) (fun _ => none) 1
    ⟨⟨fun _ => 0, 0, 0, 0⟩, [], []⟩ 0 exitWhileTyping reached).1
  exact ⟨reached, iff.1 ⟨0, .tail (.single ⟨.cons, ⟨_, rfl⟩, rfl⟩) ⟨.ptable, ⟨_, rfl⟩, rfl⟩⟩⟩

/-- CPU 0 waits for CPU 1, which waits for CPU 0. -/
theorem exit_deadlocks_console : WaitsFor (code .DEFAULT) stuck 0 1 ∧
    WaitsFor (code .DEFAULT) stuck 1 0 ∧ Deadlocked (code .DEFAULT) stuck := by
  have first : WaitsFor (code .DEFAULT) stuck 0 1 := ⟨.cons, ⟨_, rfl⟩, rfl⟩
  have second : WaitsFor (code .DEFAULT) stuck 1 0 := ⟨.ptable, ⟨_, rfl⟩, rfl⟩
  exact ⟨first, second, 0, .tail (.single first) second⟩

end Xv6.Locks
