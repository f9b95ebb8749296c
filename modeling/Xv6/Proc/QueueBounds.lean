import Xv6.Proc.NoLoss

/-!
# Bounds of the queue indices

`allocproc` appends every new process to `queue0`, in every build.  Where the queues are not used
nothing takes the entry away again, so the 65th process ever created is stored behind the array.  In
the feedback build it goes away only when `wait` finds it in the queue that `current_queue` names.
-/

namespace Xv6

open Lib

variable {e : Event} {k : Level} {pol : Policy} {m p : Slot} {i : ℕ}

def InRange (s : Kernel) : Prop := ∀ k, -1 ≤ (s.queue k).last ∧ (s.queue k).last ≤ 63

/-- A process is about to call `allocproc`, which will find a slot. -/
def Creates (s : Kernel) : Event → Prop
  | .fork c => ∃ m, s.current c = some m ∧ inKernel s (s.procs m).pos ∧ (firstUnused s).isSome
  | _ => False

instance (s : Kernel) : ∀ e, Decidable (Creates s e)
  | .fork c =>
      inferInstanceAs (Decidable (∃ m, s.current c = some m ∧ inKernel s (s.procs m).pos ∧
        (firstUnused s).isSome))
  | .schedule _ | .resume _ | .timer _ | .trapNext _ | .wakeup _ | .syscall _ | .sysret _
  | .forkStack _ | .forkFail _ | .forkDone _ | .exit _ | .wait _ | .waitx _ | .kill _ _
  | .sleep _ _ => inferInstanceAs (Decidable False)

/-- The 64 processes for which `queue0` has room have not all been created. -/
def FewCreated (s : Kernel) (e : Event) : Prop := Creates s e → s.nextpid ≤ 64
  deriving Decidable

/-! ## Builds without feedback queues -/

/-- Every process ever created still has its entry in `queue0`. -/
structure Counted (s : Kernel) : Prop where
  tables : ∀ c, (s.cpu c).OnTable
  count : (s.queue 0).last = s.nextpid - 2
  high : (s.queue 0).last ≤ 63
  positive : 0 < s.nextpid
  rest : ∀ k, k ≠ 0 → (s.queue k).last = -1

theorem Life.Moves.nextpid {l l' : Life} (moves : Life.Moves l l') : l'.nextpid = l.nextpid := by
  induction moves with
  | refl => rfl
  | tail _ move ih =>
    refine Eq.trans ?_ ih
    cases move <;> rfl

namespace Counted

variable {s s' : Kernel}

theorem inRange (h : Counted s) : InRange s := by
  intro k
  by_cases e : k = 0
  · subst e
    have := h.count
    have := h.positive
    have := h.high
    omega
  · rw [h.rest k e]
    decide

theorem quiet (h : Counted s) (q : Quiet s s') : Counted s' := by
  have pid : s'.nextpid = s.nextpid := q.moves.nextpid
  exact ⟨q.tables h.tables, by rw [q.queue, pid, h.count], by rw [q.queue]; exact h.high,
    pid ▸ h.positive, by rw [q.queue]; exact h.rest⟩

theorem born {np : Slot} (h : Counted s) (b : Born s m np s') : Counted s' := by
  have pid : s'.nextpid = s.nextpid + 1 := congrArg Life.nextpid b.life
  have count := h.count
  have high := b.room.2
  have positive := h.positive
  refine ⟨by rw [b.cpu]; exact h.tables, ?_, ?_, by omega, fun k hk => ?_⟩
  · rw [b.queue, Function.update_self, pid]
    simp only [ArrayQueue.append]
    omega
  · rw [b.queue, Function.update_self]
    simp only [ArrayQueue.append]
    omega
  · rw [b.queue, Function.update_of_ne hk]
    exact h.rest k hk

theorem step (hpol : pol ≠ .MLFQ) (h : Counted s) (few : FewCreated s e) :
    wp (step pol e) (fun _ => Counted) NoOverrun s := by
  refine step_keeps pol e h (fun _ _ h => h) (fun _ _ h q => h.quiet q)
    (fun mlfq => absurd mlfq hpol) ⟨fun c m he hm enabled => ?_,
    fun _ _ _ _ mlfq => absurd mlfq hpol, fun c k i m _ hc => ?_⟩
  · refine wp_mono (forkAlloc_spec m enabled.2) (fun _ s' h' => ?_) fun x _ h' => ?_
    · rcases h' with ⟨rfl, -⟩ | ⟨np, -, b⟩
      · exact h
      · exact h.born b
    rcases h' with ⟨rfl, -⟩ | ⟨-, full, np, found⟩
    · simp
    have early := few (he ▸ ⟨m, hm, enabled, by simp [found]⟩)
    have := h.count
    have := h.positive
    exact absurd ⟨by omega, by omega⟩ full
  · have place := h.tables c
    simp [hc, Cpu.OnTable] at place

/-- The creation of one more process is stored behind the array. -/
theorem overrun (h : Counted s) (many : ¬ FewCreated s e) :
    wp (Xv6.step pol e) never (fun x _ => x = .overrun) s := by
  obtain ⟨creates, late⟩ := Classical.not_imp.1 many
  cases e with
  | fork c =>
    obtain ⟨m, hm, enabled, some⟩ := creates
    rw [Xv6.step, asCurrent, wp_bind, wp_get, hm]
    dsimp only
    rw [if_pos enabled]
    refine wp_mono (forkAlloc_spec m enabled.2) (fun _ s' h' => ?_) fun x _ h' => ?_
    · rcases h' with ⟨-, none⟩ | ⟨np, -, b⟩
      · simp [none] at some
      have := h.count
      have := b.room.2
      omega
    rcases h' with ⟨-, max⟩ | ⟨past, -⟩
    · have := h.count
      have := h.high
      omega
    · exact past
  | _ => exact creates.elim

theorem boot : Counted Kernel.boot where
  tables _ := trivial
  count := rfl
  high := by decide
  positive := by decide
  rest k hk := by
    rw [boot_queue, if_neg hk]
    rfl

end Counted

/-! ## The feedback build -/

def Ages (s : Kernel) : Event → Prop
  | .schedule c => s.cpu c = .top ∧ s.lock = none
  | _ => False

instance (s : Kernel) : ∀ e, Decidable (Ages s e)
  | .schedule c => inferInstanceAs (Decidable (s.cpu c = .top ∧ s.lock = none))
  | .fork _ | .resume _ | .timer _ | .trapNext _ | .wakeup _ | .syscall _ | .sysret _
  | .forkStack _ | .forkFail _ | .forkDone _ | .exit _ | .wait _ | .waitx _ | .kill _ _
  | .sleep _ _ => inferInstanceAs (Decidable False)

/-- No runnable process has entries in two neighbouring queues. -/
def Apart (s : Kernel) : Prop :=
  ∀ p, (s.procs p).state = .RUNNABLE →
    ∀ k : Fin 4, ¬ ((s.queue k.castSucc).Holds p ∧ (s.queue k.succ).Holds p)
  deriving Decidable

/-- Coming back from process `m`, the scheduler gives it no second entry. -/
def ReturnsOnce (s : Kernel) (k : Level) (i : ℕ) (m : Slot) : Prop :=
  if k = 4 then
    if (s.procs m).killed = true then (s.queue 4).last ≤ i else (s.queue 4).At i m
  else
    Deletes s k i m →
      0 ≤ (s.queue k).last ∧ ((s.procs m).killed = false → ¬ (s.queue (k + 1)).Holds m)
  deriving Decidable

/-- No process is given a second entry in a queue, by `allocproc`, `ageing` or the scheduler. -/
def NoSecondEntry (s : Kernel) (e : Event) : Prop :=
  (Creates s e → ∀ p ∈ firstUnused s, ¬ (s.queue 0).Holds p) ∧ (Ages s e → Apart s) ∧
    ∀ r ∈ s.returning e, ReturnsOnce s r.1 r.2.1 r.2.2
  deriving Decidable

/-- No process has two entries in a queue. -/
structure Once (s : Kernel) : Prop where
  low : ∀ k, -1 ≤ (s.queue k).last
  filled : ∀ k, (s.queue k).Filled
  distinct : ∀ k, (s.queue k).Distinct

namespace Once

variable {s s' : Kernel}

variable (h : Once s)
include h

theorem le (k : Level) : (s.queue k).last ≤ 63 := by
  have := ArrayQueue.last_lt_card (h.filled k) (h.distinct k)
  simp only [Fintype.card_fin, NPROC] at this
  omega

theorem inRange : InRange s := fun k => ⟨h.low k, h.le k⟩

theorem congr (queue : s'.queue = s.queue) : Once s' :=
  ⟨queue ▸ h.low, queue ▸ h.filled, queue ▸ h.distinct⟩

theorem hasRoom (new : ¬ (s.queue k).Holds p) : HasRoom (s.queue k) := by
  have := ArrayQueue.last_lt_card ((h.filled k).append p) ((h.distinct k).append (h.low k) new)
  simp only [Fintype.card_fin, NPROC, ArrayQueue.append] at this
  exact ⟨h.low k, by omega⟩

theorem update {q : ArrayQueue Slot} (low : -1 ≤ q.last) (filled : q.Filled)
    (distinct : q.Distinct) :
    Once { s with queue := Function.update s.queue k q } := by
  refine ⟨fun k' => ?_, fun k' => ?_, fun k' => ?_⟩
  all_goals
    simp only [Function.update_apply]
    split
  exacts [low, h.low k', filled, h.filled k', distinct, h.distinct k']

theorem append (new : ¬ (s.queue k).Holds p) :
    Once { s with queue := Function.update s.queue k ((s.queue k).append p) } := by
  refine h.update ?_ ((h.filled k).append p) ((h.distinct k).append (h.low k) new)
  have := h.low k
  simp only [ArrayQueue.append]
  omega

theorem removeAt (i : ℕ) (some : 0 ≤ (s.queue k).last) :
    Once { s with queue := Function.update s.queue k ((s.queue k).removeAt i) } := by
  refine h.update ?_ ((h.filled k).removeAt i) ((h.distinct k).removeAt i)
  simp only [ArrayQueue.removeAt]
  omega

theorem thinned {P : Slot → Prop}
    (thin : ∀ k, ArrayQueue.Thinned P (s.queue k) (s'.queue k)) : Once s' :=
  ⟨fun k => (thin k).low (h.low k), fun k => (thin k).filled (h.filled k),
    fun k => (thin k).distinct (h.distinct k)⟩

theorem born {np : Slot} (b : Born s m np s') (new : ¬ (s.queue 0).Holds np) :
    Once s' := (h.append new).congr b.queue

end Once

/-- During `ageing`: a runnable process in two neighbouring queues has just been promoted. -/
structure Aging (s : Kernel) : Prop where
  once : Once s
  moved : ∀ p, (s.procs p).state = .RUNNABLE → ∀ k : Fin 4,
    (s.queue k.castSucc).Holds p → (s.queue k.succ).Holds p → (s.procs p).start = s.ticks

namespace Aging

variable {s s' : Kernel}

theorem not_holds (h : Aging s) {j : Fin 4} (entry : (s.queue j.succ).At i p) (late : Late s p) :
    ¬ (s.queue j.castSucc).Holds p := by
  intro holds
  have start := h.moved p late.1 j holds ⟨i, entry⟩
  refine late.2 ?_
  rw [start, BitVec.sub_self]
  exact Nat.zero_le _

theorem promoted {j : Fin 4} (h : Aging s) (pr : Promoted s j.succ j.castSucc i p s') :
    Aging s' := by
  obtain ⟨l, thin⟩ := pr.queue
  have new := h.not_holds pr.entry pr.late
  refine ⟨(h.once.append new).thinned fun k => (thin k).1, fun b hb k low high => ?_⟩
  have state : (s'.procs b).state = (s.procs b).state := congrFun (congrArg Life.state pr.life) b
  rw [pr.start, pr.ticks]
  split
  · rfl
  rename_i ne
  have held (k' : Level) (hk : (s'.queue k').Holds b) : (s.queue k').Holds b := by
    have before := (thin k').1.holds_of hk
    rw [Function.update_apply] at before
    split at before
    next e =>
      subst e
      exact ((ArrayQueue.holds_append pr.room.1).1 before).resolve_right (Ne.symm ne)
    · exact before
  exact h.moved b (state ▸ hb) k (held _ low) (held _ high)

theorem ageing (h : Aging s) : wp ageing (fun _ => Aging) NoOverrun s :=
  ageing_keeps (fun _ _ _ _ _ _ _ _ h raised => h.promoted raised.promoted) (fun _ _ h => h)
    (fun _ _ _ _ h entry late full => absurd (h.once.hasRoom (h.not_holds entry late)) full) h

end Aging

namespace Once

variable {s s' : Kernel}

theorem demote {lower : Level} (hk : k ≠ 4) (ne : k ≠ lower) (h : Once s)
    (ok : Deletes s k i m → 0 ≤ (s.queue k).last ∧
      ((s.procs m).killed = false → ¬ (s.queue lower).Holds m)) :
    wp (demote k lower i m) (fun _ => Once) NoOverrun s := by
  refine wp_mono (demote_spec hk ne i m) (fun _ s' h' => ?_) fun x _ h' => ?_
  · obtain ⟨-, -, ⟨-, queue⟩ | ⟨del, -, queue⟩ | ⟨del, alive, room, queue⟩⟩ := h'
    · exact h.congr queue
    · exact (h.removeAt i (ok del).1).congr queue
    have appended := h.append ((ok del).2 alive)
    have removed := appended.removeAt (k := k) i
      (by simpa only [Function.update_of_ne ne] using (ok del).1)
    refine removed.congr ?_
    rw [queue]
    simp only [Function.update_of_ne ne]
  · obtain ⟨-, del, alive, full⟩ := h'
    exact absurd (h.hasRoom ((ok del).2 alive)) full

theorem requeue (h : Once s)
    (ok : if (s.procs m).killed = true then (s.queue 4).last ≤ i else (s.queue 4).At i m) :
    wp (requeue i m) (fun _ => Once) NoOverrun s := by
  refine wp_mono (requeue_spec i m) (fun _ s' h' => ?_) fun x _ h' => ?_
  · obtain ⟨-, -, ⟨killed, queue⟩ | ⟨alive, some, queue⟩⟩ := h'
    · rw [if_pos killed] at ok
      rw [ArrayQueue.closeGap_of_last_le ok, Function.update_eq_self] at queue
      exact h.congr queue
    rw [if_neg (by simp [alive])] at ok
    have removed := h.removeAt (k := 4) i some
    have appended := removed.append (k := 4) (p := m)
      (by simpa only [Function.update_self] using (h.distinct 4).not_holds_removeAt ok)
    refine appended.congr ?_
    rw [queue]
    simp
  · obtain ⟨-, alive, out⟩ := h'
    rw [if_neg (by simp [alive])] at ok
    have := ok.1
    have := h.le 4
    exact absurd ⟨by omega, by omega⟩ out

theorem afterSwtch (h : Once s) (ok : ReturnsOnce s k i m) :
    wp (afterSwtch (.queue k i) m) (fun _ => Once) NoOverrun s := by
  match k with
  | 0 | 1 | 2 | 3 => exact h.demote (by decide) (by decide) ok
  | 4 => exact h.requeue ok

theorem step (h : Once s) (ok : NoSecondEntry s e) :
    wp (step .MLFQ e) (fun _ => Once) NoOverrun s := by
  obtain ⟨fresh, apart, once⟩ := ok
  refine step_keeps .MLFQ e h (fun _ _ h => h) (fun _ _ h q => h.congr q.queue)
    (fun _ _ _ h r => r.queue.elim fun _ thin => h.thinned thin.2) ⟨fun c m he hm enabled => ?_,
    fun c he hc free _ => ?_, fun c k i m he hc => ?_⟩
  · have new (np : Slot) (found : firstUnused s = some np) : ¬ (s.queue 0).Holds np :=
      fresh (he ▸ ⟨m, hm, enabled, by simp [found]⟩) np found
    refine wp_mono (forkAlloc_spec m enabled.2) (fun _ s' h' => ?_) fun x _ h' => ?_
    · rcases h' with ⟨rfl, -⟩ | ⟨np, found, b⟩
      · exact h
      · exact h.born b (new np found)
    rcases h' with ⟨rfl, -⟩ | ⟨-, full, np, found⟩
    · simp
    · exact absurd (h.hasRoom (new np found)) full
  · have aging : Aging (s.setLock (some c)) := by
      refine ⟨h.congr rfl, fun p hp k low high => absurd ⟨low, high⟩ (apart ?_ p hp k)⟩
      rw [he]
      exact ⟨hc, free⟩
    refine wp_next aging.ageing fun _ s' h' => ?_
    exact h'.once.congr rfl
  · have back : s.returning e = some (k, i, m) := by
      rw [he, Kernel.returning, hc]
    refine wp_next (h.afterSwtch (once _ back)) fun _ s' h' => ?_
    exact h'.congr rfl

theorem boot : Once Kernel.boot := by
  have empty : (ArrayQueue.empty : ArrayQueue Slot).Filled ∧
      (ArrayQueue.empty : ArrayQueue Slot).Distinct ∧ ¬ ArrayQueue.empty.Holds (0 : Slot) := by
    refine ⟨fun i hi => ?_, fun i j a hi => ?_, by decide⟩
    · simp only [ArrayQueue.empty] at hi
      omega
    · simp [ArrayQueue.At, ArrayQueue.empty] at hi
  obtain ⟨filled, distinct, new⟩ := empty
  refine ⟨fun k => ?_, fun k => ?_, fun k => ?_⟩ <;> rw [boot_queue] <;> split
  exacts [by decide, by decide, filled.append 0, filled, distinct.append (by decide) new, distinct]

end Once

/-- No store of the run falls outside a queue array, and at its end the counters are in range. -/
def StaysInRange (pol : Policy) (es : List Event) : Prop :=
  (exec (run (step pol) es) Kernel.boot).1 ≠ .error .overrun ∧
    ((exec (run (step pol) es) Kernel.boot).1 = .ok ⟨⟩ →
      InRange (exec (run (step pol) es) Kernel.boot).2)

theorem staysInRange_iff {es : List Event} :
    StaysInRange pol es ↔ wp (run (step pol) es) (fun _ => InRange) NoOverrun Kernel.boot := by
  rw [wp_iff_exec]
  exact ⟨fun h => ⟨fun _ => h.2, fun x hx past => h.1 (past ▸ hx)⟩,
    fun h => ⟨fun past => h.2 _ past rfl, h.1 _⟩⟩

/-- Without feedback queues the indices stay in range exactly in the runs that create no process
after the 64th, and with them if no process gets a second entry in a queue. -/
theorem queue_indices_in_range (es : List Event) :
    (∀ pol : Policy, pol ≠ .MLFQ →
      (Along (step pol) FewCreated es Kernel.boot ↔ StaysInRange pol es)) ∧
    (Along (step .MLFQ) NoSecondEntry es Kernel.boot → StaysInRange .MLFQ es) := by
  refine ⟨fun pol hpol => ?_, fun ok => staysInRange_iff.2 ?_⟩
  · have keep (s : Kernel) (e : Event) (h : Counted s) (few : FewCreated s e) :
        wp (step pol e) (fun _ => Counted) (fun x _ => x ≠ .overrun) s := h.step hpol few
    have fail (s : Kernel) (e : Event) (h : Counted s) (many : ¬ FewCreated s e) :
        wp (step pol e) never (fun x _ => x = .overrun) s := h.overrun many
    refine ⟨fun few => staysInRange_iff.2 ?_, fun h => ?_⟩
    · exact wp_imp (few.wp_run keep Counted.boot) fun _ _ h => h.inRange
    exact (along_iff keep fail Counted.boot).2
      (wp_imp (staysInRange_iff.1 h) (fun _ _ _ => trivial))
  · exact wp_imp (ok.wp_run (fun _ _ h ok => h.step ok) Once.boot) fun _ _ h => h.inRange

/-- One process is created, in the round-robin build and in the feedback build. -/
theorem queue_indices_in_range_forkOnce :
    StaysInRange .DEFAULT forkOnce ∧ StaysInRange .MLFQ forkOnce := by
  have few : Along (step .DEFAULT) FewCreated forkOnce Kernel.boot := by decide +kernel
  have once : Along (step .MLFQ) NoSecondEntry forkOnce Kernel.boot := by decide +kernel
  exact ⟨((queue_indices_in_range forkOnce).1 .DEFAULT (by decide)).1 few,
    (queue_indices_in_range forkOnce).2 once⟩

/-- The first process calls `fork` 64 times while there is no memory for a child. -/
def failingForks : List Event :=
  [.schedule 0, .schedule 0, .resume 0, .sysret 0, .syscall 0] ++
    (List.replicate 63 [.fork 0, .forkFail 0]).flatten ++ [.fork 0]

/-- The last of the calls stores behind `queue0`, although never more than two slots are in use. -/
theorem failingForks_overrun :
    (exec (run (step .DEFAULT) failingForks) Kernel.boot).1 = .error .overrun ∧
      ((exec (run (step .DEFAULT) failingForks) Kernel.boot).2.queue 0).last = 64 := by
  decide +kernel

end Xv6
