import Xv6.Log.Reserve
import Xv6.Sleep.Waiting

/-!
# Group commit

`begin_op`, `log_write` and `end_op` of `log.c` with their lock, their waiting and the commit that
the last operation of a group runs without the lock.  The loops of `commit` only count here; what
they do to the disk is in `Xv6.Log.Crash`.
-/

set_option linter.unusedSectionVars false

namespace Xv6.GroupCommit

open Lib Sleep Function

/-! ## The code -/

/-- `struct log`, with a history of the blocks logged since `commit` cleared the log. -/
structure Group where
  log : Log
  group : List ℕ

inductive Panic where
  | tooBig
  | outside
  | committing
  deriving DecidableEq

inductive Place where
  /-- Outside of operations. -/
  | user
  /-- In `begin_op`. -/
  | beginAcquire
  | beginTest
  | beginSleep
  | beginRelease
  /-- In an operation. -/
  | op
  /-- In `log_write`; the first three places look at the log without its lock. -/
  | writeFull (b : ℕ)
  | writeSize (b : ℕ)
  | writeOutside (b : ℕ)
  | writeAcquire (b : ℕ)
  | writeRecord (b : ℕ)
  | writeRelease
  /-- In `end_op`. -/
  | endAcquire
  | endCount
  | endWakeup
  | endRelease (do_commit : Bool)
  /-- In `commit`. -/
  | commit
  | write_log (tail : ℕ)
  | write_head
  | install_trans (tail : ℕ)
  | commitClear
  | commitErase
  /-- In `end_op`, after `commit`. -/
  | doneAcquire
  | doneClear
  | doneWakeup
  | doneRelease
  | panic (msg : Panic)
  deriving DecidableEq

inductive Input where
  | begin_op
  | log_write (b : ℕ)
  | end_op

variable {b : Bool} {f : Bool → Group → Input → Group × Place} {i : Input} {P : Type}

def logLock : SpinLock := .other 0

/-- The code of all processes; the only channel is `&log`. -/
def code {P : Type} (_ : P) : Place → Instr Group Unit Input Place
  | .user => .compute fun _ d i =>
      match i with
      | .begin_op => (d, .beginAcquire)
      | _ => (d, .user)
  | .beginAcquire => .acquire logLock .beginTest
  | .beginTest => .compute fun _ d _ =>
      if d.log.committing then (d, .beginSleep)
      else if d.log.lh.n + (d.log.outstanding + 1) * MAXOPBLOCKS > LOGSIZE then (d, .beginSleep)
      else
        ({ d with log := { d.log with outstanding := d.log.outstanding + 1 } }, .beginRelease)
  | .beginSleep => .sleep () logLock .beginTest
  | .beginRelease => .release logLock .op
  | .op => .compute fun _ d i =>
      match i with
      | .log_write b => (d, .writeFull b)
      | .end_op => (d, .endAcquire)
      | .begin_op => (d, .op)
  | .writeFull b => .compute fun _ d _ =>
      (d, if d.log.lh.n ≥ LOGSIZE then .panic .tooBig else .writeSize b)
  | .writeSize b => .compute fun _ d _ =>
      (d, if d.log.lh.n ≥ (d.log.size : ℤ) - 1 then .panic .tooBig else .writeOutside b)
  | .writeOutside b => .compute fun _ d _ =>
      (d, if d.log.outstanding < 1 then .panic .outside else .writeAcquire b)
  | .writeAcquire b => .acquire logLock (.writeRecord b)
  | .writeRecord b => .compute fun _ d _ =>
      (⟨{ d.log with lh := d.log.lh.absorb b }, b :: d.group⟩, .writeRelease)
  | .writeRelease => .release logLock .op
  | .endAcquire => .acquire logLock .endCount
  | .endCount => .compute fun _ d _ =>
      let log := { d.log with outstanding := d.log.outstanding - 1 }
      if log.committing then ({ d with log := log }, .panic .committing)
      else if log.outstanding = 0 then
        ({ d with log := { log with committing := true } }, .endRelease true)
      else ({ d with log := log }, .endWakeup)
  | .endWakeup => .wakeup () (.endRelease false)
  | .endRelease do_commit => .release logLock (if do_commit then .commit else .user)
  | .commit => .compute fun _ d _ => (d, if d.log.lh.n > 0 then .write_log 0 else .doneAcquire)
  | .write_log tail => .compute fun _ d _ =>
      (d, if (tail : ℤ) < d.log.lh.n then .write_log (tail + 1) else .write_head)
  | .write_head => .compute fun _ d _ => (d, .install_trans 0)
  | .install_trans tail => .compute fun _ d _ =>
      (d, if (tail : ℤ) < d.log.lh.n then .install_trans (tail + 1) else .commitClear)
  | .commitClear => .compute fun _ d _ =>
      (⟨{ d.log with lh := { d.log.lh with n := 0 } }, []⟩, .commitErase)
  | .commitErase => .compute fun _ d _ => (d, .doneAcquire)
  | .doneAcquire => .acquire logLock .doneClear
  | .doneClear => .compute fun _ d _ =>
      ({ d with log := { d.log with committing := false } }, .doneWakeup)
  | .doneWakeup => .wakeup () .doneRelease
  | .doneRelease => .release logLock .user
  | .panic msg => .compute fun _ d _ => (d, .panic msg)

/-- The system after `recover_from_log`. -/
def init {P : Type} (start size : ℕ) : Sleep.Machine P Group Unit Place :=
  .start ⟨Log.init start size, []⟩ fun _ => .user

namespace Place

def Holds : Place → SpinLock → Prop
  | .beginTest | .beginSleep | .beginRelease | .writeRecord _ | .writeRelease | .endCount
  | .endWakeup | .endRelease _ | .doneClear | .doneWakeup | .doneRelease
  | .panic .committing => fun l => l = logLock
  | _ => fun _ => False

/-- Admitted by `begin_op`, and not yet counted off by `end_op`. -/
def InOp : Place → Prop
  | .beginRelease | .op | .writeFull _ | .writeSize _ | .writeOutside _ | .writeAcquire _
  | .writeRecord _ | .writeRelease | .endAcquire | .endCount | .panic .tooBig
  | .panic .outside => True
  | _ => False

def Commits : Place → Prop
  | .endRelease true | .commit | .write_log _ | .write_head | .install_trans _ | .commitClear
  | .commitErase | .doneAcquire | .doneClear => True
  | _ => False

def Cleared : Place → Prop
  | .commitErase | .doneAcquire | .doneClear => True
  | _ => False

theorem Commits.not_inOp {x : Place} (h : x.Commits) : ¬ x.InOp := by
  cases x <;> try exact h.elim
  all_goals exact id

theorem Cleared.commits {x : Place} (h : x.Cleared) : x.Commits := by
  cases x <;> try exact h.elim
  all_goals trivial

end Place

theorem code_discipline :
    Discipline (code : P → Place → Instr Group Unit Input Place) Place.Holds where
  acquire := by
    intro p x lk y does l held
    cases x <;> cases does
    all_goals exact .inr held
  release := by
    intro p x lk y does
    cases x <;> cases does
    case endRelease do_commit => cases do_commit <;> exact ⟨rfl, fun _ => False.elim⟩
    all_goals exact ⟨rfl, fun _ => False.elim⟩
  compute := by
    intro p x f does b d i l held
    cases x <;> cases does <;> dsimp only at held
    all_goals first | exact held | skip
    case user | op => cases i <;> exact held
    all_goals
      repeat' split at held
      all_goals exact held
  sleep := by
    intro p x chan lk y does
    cases x <;> cases does
    exact ⟨rfl, fun _ => id⟩
  wakeup := by
    intro p x chan y does
    cases x <;> cases does
    all_goals exact ⟨nofun, fun _ => id⟩
  wakeup1 := by
    intro p x chan y does
    cases x <;> cases does

/-! ## The counter and the commit flag -/

/-- What the log says about where the processes are. -/
structure Grouped {P : Type} (d : Group) (places : P → Place) : Prop where
  counted : ∃ S : Finset P, (∀ p, p ∈ S ↔ (places p).InOp) ∧ d.log.outstanding = S.card
  excluded : d.log.committing = true → d.log.outstanding = 0
  commits : ∀ p, (places p).Commits → d.log.committing = true
  single : ∀ p q, (places p).Commits → (places q).Commits → p = q
  idle : d.log.outstanding = 0 → d.log.committing = false → d.log.lh.n = 0
  cleared : ∀ p, (places p).Cleared → d.log.lh.n = 0
  nonneg : 0 ≤ d.log.lh.n
  nodup : d.log.lh.blocks.Nodup
  logged : ∀ b ∈ d.group, b ∈ d.log.lh.blocks
  calm : ∀ p, places p ≠ .panic .committing

namespace Grouped

variable {P : Type} [DecidableEq P] {d d' : Group} {places : P → Place} {p : P} {x y : Place}

section

variable (h : Grouped d places)
include h

theorem outstanding_pos (inOp : (places p).InOp) : 0 < d.log.outstanding := by
  obtain ⟨S, mem, card⟩ := h.counted
  have pos := Finset.card_pos.2 ⟨p, (mem p).2 inOp⟩
  omega

theorem not_inOp_of_commits {q : P} (commits : (places p).Commits) : ¬ (places q).InOp := by
  intro inOp
  have pos := h.outstanding_pos inOp
  have zero := h.excluded (h.commits p commits)
  omega

theorem move (here : places p = x) (outstanding : d'.log.outstanding = d.log.outstanding)
    (committing : d'.log.committing = d.log.committing) (inOp : y.InOp ↔ x.InOp)
    (commits : y.Commits → x.Commits) (calm : y ≠ .panic .committing)
    (idle : d.log.outstanding = 0 → d.log.lh.n = 0 → d'.log.lh.n = 0)
    (cleared : y.Cleared → d'.log.lh.n = 0) (nonneg : 0 ≤ d'.log.lh.n)
    (nodup : d'.log.lh.blocks.Nodup) (logged : ∀ b ∈ d'.group, b ∈ d'.log.lh.blocks) :
    Grouped d' (update places p y) := by
  have still (q : P) (there : (update places p y q).Commits) : (places q).Commits := by
    rw [update_apply] at there
    split at there
    next same =>
      rw [same, here]
      exact commits there
    · exact there
  constructor
  case counted =>
    obtain ⟨S, mem, card⟩ := h.counted
    refine ⟨S, fun q => ?_, outstanding.trans card⟩
    rw [update_apply, mem]
    split
    next same => rw [same, here, inOp]
    · rfl
  case excluded => rw [outstanding, committing]; exact h.excluded
  case commits => exact fun q there => committing.trans (h.commits q (still q there))
  case single => exact fun q r hq hr => h.single q r (still q hq) (still r hr)
  case idle =>
    rw [outstanding, committing]
    exact fun zero quiet => idle zero (h.idle zero quiet)
  case cleared =>
    intro q there
    rw [update_apply] at there
    split at there
    · exact cleared there
    have zero := h.excluded (h.commits q there.commits)
    exact idle zero (h.cleared q there)
  case nonneg => exact nonneg
  case nodup => exact nodup
  case logged => exact logged
  case calm =>
    intro q
    rw [update_apply]
    split
    · exact calm
    · exact h.calm q

theorem stay (here : places p = x) (inOp : y.InOp ↔ x.InOp)
    (commits : y.Commits → x.Commits) (calm : y ≠ .panic .committing)
    (cleared : y.Cleared → d.log.lh.n = 0) : Grouped d (update places p y) :=
  h.move here rfl rfl inOp commits calm (fun _ => id) cleared h.nonneg h.nodup h.logged

theorem begin_op (out : ¬ (places p).InOp) (open_ : d.log.committing = false) : Grouped
      { d with log := { d.log with outstanding := d.log.outstanding + 1 } }
      (update places p .beginRelease) := by
  have none (q : P) : ¬ (update places p .beginRelease q).Commits := by
    rw [update_apply]
    split
    · exact id
    intro there
    have flag := h.commits q there
    rw [open_] at flag
    cases flag
  obtain ⟨S, mem, card⟩ := h.counted
  constructor
  case counted =>
    refine ⟨insert p S, fun q => ?_, ?_⟩
    · rw [update_apply, Finset.mem_insert, mem]
      split
      next same => exact ⟨fun _ => trivial, fun _ => .inl same⟩
      next other => simp [other]
    rw [Finset.card_insert_of_notMem fun old => out ((mem p).1 old)]
    push_cast
    omega
  case excluded => simp [open_]
  case commits => exact fun q there => absurd there (none q)
  case single => exact fun q _ there => absurd there (none q)
  case idle =>
    intro zero
    dsimp only at zero
    omega
  case cleared => exact fun q there => absurd there.commits (none q)
  case nonneg => exact h.nonneg
  case nodup => exact h.nodup
  case logged => exact h.logged
  case calm =>
    intro q
    rw [update_apply]
    split
    · nofun
    · exact h.calm q

theorem end_op (inOp : (places p).InOp) (out : ¬ y.InOp)
    (calm : y ≠ .panic .committing) (cleared : ¬ y.Cleared) (flag : Bool)
    (flagged : flag = true ↔ d.log.outstanding = 1) (begins : y.Commits → flag = true) :
    Grouped
      { d with log := { d.log with outstanding := d.log.outstanding - 1, committing := flag } }
      (update places p y) := by
  have only (q : P) (there : (update places p y q).Commits) : q = p ∧ y.Commits := by
    rw [update_apply] at there
    split at there
    next same => exact ⟨same, there⟩
    · exact absurd inOp (h.not_inOp_of_commits there)
  obtain ⟨S, mem, card⟩ := h.counted
  constructor
  case counted =>
    refine ⟨S.erase p, fun q => ?_, ?_⟩
    · rw [update_apply, Finset.mem_erase, mem]
      split
      next same => simp [same, out]
      next other => simp [other]
    have one := Finset.card_erase_add_one ((mem p).2 inOp)
    dsimp only
    omega
  case excluded =>
    intro set
    have one := flagged.1 set
    dsimp only
    omega
  case commits => exact fun q there => begins (only q there).2
  case single =>
    intro q r hq hr
    exact (only q hq).1.trans (only r hr).1.symm
  case idle =>
    intro zero unset
    dsimp only at zero unset
    have set := flagged.2 (by omega)
    rw [unset] at set
    cases set
  case cleared =>
    intro q there
    rw [update_apply] at there
    split at there
    · exact absurd there cleared
    · exact absurd inOp (h.not_inOp_of_commits there.commits)
  case nonneg => exact h.nonneg
  case nodup => exact h.nodup
  case logged => exact h.logged
  case calm =>
    intro q
    rw [update_apply]
    split
    · exact calm
    · exact h.calm q

theorem done (there : (places p).Cleared) : Grouped
      { d with log := { d.log with committing := false } }
      (update places p .doneWakeup) := by
  have none (q : P) : ¬ (update places p .doneWakeup q).Commits := by
    rw [update_apply]
    split
    · exact id
    next other => exact fun also => other (h.single q p also there.commits)
  constructor
  case counted =>
    obtain ⟨S, mem, card⟩ := h.counted
    refine ⟨S, fun q => ?_, card⟩
    rw [update_apply, mem]
    split
    next same =>
      rw [same]
      exact ⟨fun inOp => there.commits.not_inOp inOp, False.elim⟩
    · rfl
  case excluded => nofun
  case commits => exact fun q also => absurd also (none q)
  case single => exact fun q _ also => absurd also (none q)
  case idle => exact fun _ _ => h.cleared p there
  case cleared => exact fun q also => absurd also.commits (none q)
  case nonneg => exact h.nonneg
  case nodup => exact h.nodup
  case logged => exact h.logged
  case calm =>
    intro q
    rw [update_apply]
    split
    · nofun
    · exact h.calm q

theorem compute (here : places p = x) (does : code p x = .compute f)
    (result : f b d i = (d', y)) : Grouped d' (update places p y) := by
  cases x <;> cases does <;> dsimp only at result
  case user | op => cases i <;> cases result <;> exact h.stay here .rfl nofun nofun nofun
  case beginTest =>
    split at result
    · cases result
      exact h.stay here .rfl nofun nofun nofun
    rename_i open_
    split at result
    · cases result
      exact h.stay here .rfl nofun nofun nofun
    cases result
    exact h.begin_op (by rw [here]; exact id) (by simpa using open_)
  case writeFull | writeSize | writeOutside =>
    cases result
    split <;> exact h.stay here .rfl nofun nofun nofun
  case writeRecord c =>
    cases result
    have pos := h.outstanding_pos (p := p) (by rw [here]; trivial)
    refine h.move here rfl rfl .rfl nofun nofun (fun zero => by omega) nofun
      (LogHeader.nonneg_absorb h.nonneg c) (LogHeader.nodup_absorb h.nonneg h.nodup c) ?_
    intro b' logged
    refine (LogHeader.mem_absorb h.nonneg).2 ?_
    rcases List.mem_cons.1 logged with new | old
    · exact .inl new
    · exact .inr (h.logged b' old)
  case endCount =>
    have inOp : (places p).InOp := by rw [here]; trivial
    have pos := h.outstanding_pos inOp
    split at result
    next committing =>
      have zero := h.excluded committing
      omega
    rename_i open_
    split at result
    next last =>
      cases result
      have one : d.log.outstanding = 1 := by omega
      exact h.end_op (y := .endRelease true) inOp id nofun id true (by simp [one]) fun _ => rfl
    rename_i more
    cases result
    have flag : d.log.committing = false := by simpa using open_
    have still : false = true ↔ d.log.outstanding = 1 := by
      constructor
      · nofun
      · omega
    have counted := h.end_op (y := .endWakeup) inOp id nofun id false still nofun
    rw [← flag] at counted
    exact counted
  case commit =>
    cases result
    split
    · exact h.stay here .rfl id nofun nofun
    next none =>
      have zero : d.log.lh.n = 0 := by have := h.nonneg; omega
      exact h.stay here .rfl id nofun fun _ => zero
  case write_head =>
    cases result
    exact h.stay here .rfl id nofun nofun
  case write_log | install_trans =>
    cases result
    split <;> exact h.stay here .rfl id nofun nofun
  case commitClear =>
    cases result
    exact h.move here rfl rfl .rfl id nofun (fun _ _ => rfl)
      (fun _ => rfl) le_rfl (by simp [LogHeader.blocks]) (by simp)
  case commitErase =>
    cases result
    exact h.stay here .rfl id nofun fun _ => h.cleared p (by rw [here]; trivial)
  case doneClear =>
    cases result
    exact h.done (by rw [here]; trivial)
  case panic msg =>
    cases result
    rw [← here, update_eq_self]
    exact h

theorem leads (here : places p = x) (goes : (code p x : Instr Group Unit Input Place).Leads y) :
    Grouped d (update places p y) := by
  cases x <;> cases goes
  case endRelease do_commit =>
    cases do_commit
    · exact h.stay here .rfl nofun nofun nofun
    · exact h.stay here .rfl id nofun nofun
  case doneAcquire =>
    exact h.stay here .rfl id nofun fun _ => h.cleared p (by rw [here]; trivial)
  all_goals exact h.stay here .rfl nofun nofun nofun

end

theorem step {s s' : Sleep.Machine P Group Unit Place} {e : Sleep.Event P Input}
    (h : Grouped s.data s.places) (st : Step code s e s') : Grouped s'.data s'.places := by
  rcases st.place with ⟨data, places⟩ | ⟨p, x, y, here, places, ⟨data, goes, -⟩ | ⟨f, i, does, eq⟩⟩
  · rwa [data, places]
  · rw [data, places]
    exact h.leads (by rw [Machine.places, here]; rfl) goes
  rw [places]
  exact h.compute (by rw [Machine.places, here]; rfl) does eq

theorem start (start size : ℕ) : Grouped (P := P) ⟨Log.init start size, []⟩ fun _ => .user where
  counted := ⟨∅, by simp [Place.InOp], rfl⟩
  excluded := nofun
  commits := nofun
  single := nofun
  idle _ _ := rfl
  cleared := nofun
  nonneg := le_rfl
  nodup := by simp [LogHeader.blocks, Log.init]
  logged := by simp
  calm := nofun

end Grouped

/-! ## Waiting in begin_op -/

/-- An operation is outstanding or a commit runs. -/
def Group.Busy (d : Group) : Prop := d.log.committing = true ∨ 0 < d.log.outstanding

namespace Grouped

variable {P : Type} [DecidableEq P] {d d' : Group} {places : P → Place} {p : P} {x y : Place}

theorem busy_of_waits (h : Grouped d places) (waits : ¬ OpState.Admits d.log) : d.Busy := by
  by_contra quiet
  obtain ⟨S, -, card⟩ := h.counted
  unfold Group.Busy at quiet
  push Not at quiet
  have none : d.log.outstanding = 0 := by omega
  have unset : d.log.committing = false := by simpa using quiet.1
  have empty := h.idle none unset
  exact waits ⟨unset, by simp [none, empty, LOGSIZE, MAXOPBLOCKS]⟩

theorem busy_compute (h : Grouped d places) (here : places p = x) (does : code p x = .compute f)
    (result : f b d i = (d', y)) (busy : d.Busy) : d'.Busy ∨ y = .doneWakeup := by
  cases x <;> cases does <;> dsimp only at result
  case user | op => cases i <;> cases result <;> exact .inl busy
  case beginTest =>
    obtain ⟨S, -, card⟩ := h.counted
    repeat' split at result
    all_goals cases result
    · exact .inl busy
    · exact .inl busy
    refine .inl (.inr ?_)
    dsimp only
    omega
  case endCount =>
    have pos := h.outstanding_pos (p := p) (by rw [here]; trivial)
    repeat' split at result
    all_goals cases result
    next committing => exact .inl (.inl committing)
    · exact .inl (.inl rfl)
    refine .inl (.inr ?_)
    dsimp only
    omega
  case doneClear =>
    cases result
    exact .inr rfl
  all_goals
    cases result
    exact .inl busy

theorem busy_of_beginSleep (h : Grouped d places) (here : places p = x)
    (does : code p x = .compute f) (result : f b d i = (d', .beginSleep)) : d'.Busy := by
  cases x <;> cases does <;> dsimp only at result
  case user | op => cases i <;> cases result
  case beginTest =>
    repeat' split at result
    next committing =>
      cases result
      exact .inl committing
    next full =>
      cases result
      exact h.busy_of_waits fun admits => absurd admits.2 (by omega)
    · cases result
  case endCount =>
    repeat' split at result
    all_goals cases result
  all_goals
    simp only [Prod.mk.injEq] at result
    obtain ⟨-, there⟩ := result
    try split at there
    all_goals cases there

end Grouped

theorem code_heralds [DecidableEq P] :
    Heralds (code : P → Place → Instr Group Unit Input Place) Place.Holds (fun _ => logLock)
      (fun _ d => d.Busy) (fun x _ => x = .doneWakeup) Grouped where
  other _ := nofun
  sleep := by
    intro p x c lk y does
    cases x <;> cases does
    exact ⟨rfl, rfl⟩
  wakeup := by
    rintro p x c rfl
    exact ⟨.doneRelease, rfl, rfl⟩
  holds := by
    rintro x c rfl
    rfl
  leads := by
    intro p x y goes c lk z does
    cases y <;> cases does
    cases x <;> try cases goes
    rename_i do_commit
    cases do_commit <;> cases goes
  falls := by
    intro d places p x f b i d' y h here does result c lk z sleeps
    cases y <;> cases sleeps
    exact h.busy_of_beginSleep here does result
  ends := by
    intro d places p x f b i d' y h here does result c _ busy
    exact h.busy_compute here does result busy

/-! ## Every interleaving -/

structure Orderly {P : Type} (s : Sleep.Machine P Group Unit Place) : Prop where
  sound : Sound code Place.Holds s
  sleepers : s.Sleepers code
  grouped : Grouped s.data s.places
  awaited : Awaited code Place.Holds (fun _ => logLock) (fun _ d => d.Busy)
    (fun x _ => x = .doneWakeup) s

theorem orderly_of_run [DecidableEq P] {start size : ℕ} {es : List (Sleep.Event P Input)}
    {s : Sleep.Machine P Group Unit Place}
    (reached : exec (run (Sleep.step code) es) (init start size) = (.ok ⟨⟩, s)) : Orderly s := by
  refine of_run reached ⟨Sound.start _ fun _ _ => id, Machine.sleepers_start _ _,
    Grouped.start start size, Awaited.start nofun⟩ fun s e h => ?_
  have st := next_step code s e
  exact ⟨h.sound.step code_discipline st, h.sound.sleepers h.sleepers st, h.grouped.step st,
    h.awaited.step code_heralds h.sound h.sleepers h.grouped st⟩

/-- In every state reached, no process is at the `panic` of `end_op`, and none is in an operation
during a commit. When `log.lock` is free `outstanding` counts the operations, with none and no
commit the log is empty and nobody sleeps, and the header names each block of the group once. -/
theorem group_commit_excludes_operations {P : Type} [DecidableEq P] (start size : ℕ)
    (es : List (Sleep.Event P Input)) {s : Sleep.Machine P Group Unit Place}
    (reached : exec (run (Sleep.step code) es) (init start size) = (.ok ⟨⟩, s)) :
    (∀ p, s.places p ≠ .panic .committing) ∧
    (∀ p q, (s.places p).Commits → ¬ (s.places q).InOp) ∧
    (s.lock logLock = none →
      (s.data.log.committing = true → s.data.log.outstanding = 0) ∧
      (∃ S : Finset P, (∀ p, p ∈ S ↔ (s.places p).InOp) ∧ s.data.log.outstanding = S.card) ∧
      (s.data.log.outstanding = 0 → s.data.log.committing = false →
        s.data.log.lh.n = 0 ∧ OpState.Admits s.data.log ∧ ∀ p, (s.task p).state ≠ .SLEEPING) ∧
      s.data.log.lh.blocks.Nodup ∧ ∀ b ∈ s.data.group, b ∈ s.data.log.lh.blocks) := by
  obtain ⟨sound, sleepers, grouped, awaited⟩ := orderly_of_run reached
  refine ⟨grouped.calm, fun p q => grouped.not_inOp_of_commits, fun free => ?_⟩
  refine ⟨grouped.excluded, grouped.counted, fun zero quiet => ?_, grouped.nodup, grouped.logged⟩
  have empty := grouped.idle zero quiet
  refine ⟨empty, ⟨quiet, by simp [zero, empty, LOGSIZE, MAXOPBLOCKS]⟩, fun p slept => ?_⟩
  obtain ⟨chan, -, -, -, is, -⟩ := sleepers p slept
  rcases awaited.reason_of_free code_heralds sound sleepers free slept is with committing | pos
  · rw [quiet] at committing
    cases committing
  · omega

/-- Process 0 logs block 40 in an operation and ends it; it is about to commit. -/
def loggedOperation : List (Sleep.Event (Fin 2) Input) :=
  List.replicate 4 (.run 0 .begin_op) ++ [.run 0 (.log_write 40)] ++
    List.replicate 6 (.run 0 .begin_op) ++ List.replicate 4 (.run 0 .end_op)

theorem group_commit_excludes_operations_one :
    (exec (run (Sleep.step code) loggedOperation) (init 2 30)).2.places 0 = .commit ∧
      (exec (run (Sleep.step code) loggedOperation) (init 2 30)).2.data.log.outstanding = 0 ∧
      40 ∈ (exec (run (Sleep.step code) loggedOperation) (init 2 30)).2.data.log.lh.blocks ∧
      ∀ q, ¬ ((exec (run (Sleep.step code) loggedOperation) (init 2 30)).2.places q).InOp := by
  obtain ⟨-, alone, whenFree⟩ :=
    group_commit_excludes_operations 2 30 loggedOperation (exec_eq_of_ok rfl)
  obtain ⟨excluded, -, -, -, logged⟩ := whenFree (by decide +kernel)
  have place : (exec (run (Sleep.step code) loggedOperation) (init 2 30)).2.places 0 = .commit := by
    decide +kernel
  refine ⟨place, excluded (by decide +kernel), logged 40 (by decide +kernel), fun q => ?_⟩
  exact alone 0 q (by rw [place]; trivial)

end Xv6.GroupCommit
