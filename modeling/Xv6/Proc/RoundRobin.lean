import Xv6.Proc.Choice

/-!
# Round robin over the process table

On one CPU the scheduler goes round the process table: it passes over slots, starts again at the
end, and dispatches (`Move`).  Between two consecutive dispatches of a process it comes to every
other slot once.  In the PRIORITY build, at a process that is not one of the best, the loop jumps to
the first best process of the table.
-/

namespace Xv6

open Lib

/-! ## One CPU on the table -/

/-- Only CPU 0 has ever done anything, and its scheduler goes over the process table. -/
structure OneTable (s : Kernel) : Prop extends OneCpu s where
  tables : ∀ c, (s.cpu c).OnTable

namespace OneTable

variable {s : Kernel} {pol : Policy}

theorem boot : OneTable Kernel.boot := ⟨.boot, fun _ => trivial⟩

theorem step {e : Event} (h : OneTable s) (flat : pol ≠ .MLFQ) (cpu : e.cpu = 0) :
    wp (Xv6.step pol e) (fun _ => OneTable) anyStop s := by
  have both := wp_and (h.toOneCpu.step pol cpu) (onTable_step flat e h.tables)
  exact wp_mono both (fun _ _ h => ⟨h.1, h.2⟩) fun _ _ _ => trivial

theorem of_run {es : List Event} (flat : pol ≠ .MLFQ) (one : ∀ e ∈ es, e.cpu = 0)
    (reached : exec (run (Xv6.step pol) es) Kernel.boot = (.ok ⟨⟩, s)) : OneTable s := by
  have along : Along (Xv6.step pol) (fun _ e => e.cpu = 0) es Kernel.boot :=
    along_of_forall_mem Kernel.boot one
  have keep (s : Kernel) (e : Event) (h : OneTable s) (cpu : e.cpu = 0) :
      wp (Xv6.step pol e) (fun _ => OneTable) anyStop s := h.step flat cpu
  exact wp_of_ok (along.wp_run keep boot) reached

end OneTable

/-! ## Going round the table -/

def Cpu.nextSlot : Cpu → ℕ
  | .scan (.table i) => i
  | .running (.table i) _ | .back (.table i) _ => i + 1
  | _ => 0

/-- What a step does to the round of CPU 0, with the process that it dispatches. -/
inductive Move (pol : Policy) (s : Kernel) : List Slot → Kernel → Prop where
  | stay {s' : Kernel} (same : (s'.cpu 0).nextSlot = (s.cpu 0).nextSlot) : Move pol s [] s'
  | pass {s' : Kernel} (p : Slot) (scans : s.cpu 0 = .scan (.table p))
      (idle : (s.procs p).state ≠ .RUNNABLE) (next : (s'.cpu 0).nextSlot = p + 1) : Move pol s [] s'
  | wrap {s' : Kernel} (i : ℕ) (scans : s.cpu 0 = .scan (.table i)) (past : NPROC ≤ i)
      (next : (s'.cpu 0).nextSlot = 0) : Move pol s [] s'
  | dispatch {s' : Kernel} (p : Slot) (scans : s.cpu 0 = .scan (.table p))
      (runnable : (s.procs p).state = .RUNNABLE)
      (next : (s'.cpu 0).nextSlot = pol.choose s p + 1) : Move pol s [pol.choose s p] s'

section

variable {s : Kernel} {pol : Policy}

theorem scan_move {i : ℕ} (scans : s.cpu 0 = .scan (.table i)) :
    wp (scan pol 0 (.table i)) (fun _ s' => Move pol s (pick pol s (.table i)).toList s')
      anyStop s := by
  simp only [scan, pick, wp_bind, wp_get]
  split
  next inside =>
    simp only [wp_ite, wp_set, dispatch, modifyProc, wp_bind, wp_modify]
    refine ⟨fun runnable => ?_, fun idle => ?_⟩
    · rw [if_pos runnable]
      exact .dispatch ⟨i, inside⟩ scans runnable (by rw [setCpu_self]; rfl)
    rw [if_neg idle]
    exact .pass ⟨i, inside⟩ scans idle (by rw [setCpu_self]; rfl)
  next past => exact .wrap i scans (not_lt.1 past) (by rw [setCpu_self]; rfl)

theorem schedule_move (flat : pol ≠ .MLFQ) (tables : ∀ c, (s.cpu c).OnTable) :
    wp (schedule pol 0) (fun _ s' => Move pol s (dispatched pol 0 s).toList s') anyStop s := by
  have table := tables 0
  rw [schedule, wp_bind, wp_get]
  cases here : s.cpu 0 with
  | top =>
    rw [dispatched_eq_none (by simp [here])]
    simp only [wp_ite, wp_bind, wp_set, wp_pure, wp_modify]
    refine ⟨fun _ => ⟨fun mlfq => absurd mlfq flat, fun _ => ?_⟩, fun _ => .stay rfl⟩
    exact .stay (by rw [setCpu_self, here]; rfl)
  | scan at_ =>
    rw [here] at table
    cases at_ with
    | queue k i => exact table.elim
    | table i =>
      rw [dispatched_of_scan here]
      exact scan_move here
  | running at_ m =>
    rw [dispatched_eq_none (by simp [here])]
    exact .stay rfl
  | back at_ m =>
    rw [here] at table
    rw [dispatched_eq_none (by simp [here])]
    cases at_ with
    | queue k i => exact table.elim
    | table i => exact .stay (by rw [setCpu_self, here]; rfl)

theorem step_move {e : Event} (h : OneTable s) (flat : pol ≠ .MLFQ) (cpu : e.cpu = 0) :
    wp (step pol e) (fun _ s' => Move pol s (dispatches pol s e) s') anyStop s := by
  by_cases own : ∀ c, e ≠ .schedule c
  · have nobody : dispatches pol s e = [] := by
      cases e with
      | schedule c => exact absurd rfl (own c)
      | _ => rfl
    rw [nobody]
    apply wp_imp (process_turned pol own)
    intro _ s' turned
    rcases turned 0 with same | ⟨at_, m, run, back⟩
    · exact .stay (by rw [same])
    apply Move.stay
    rw [run, back]
    cases at_ <;> rfl
  · push Not at own
    obtain ⟨c, rfl⟩ := own
    obtain rfl : c = 0 := cpu
    exact schedule_move flat h.tables

end

/-- Process `p` is dispatched in `s` and, after the events `mid`, in `s₂`, and not in between. -/
structure Consecutive (pol : Policy) (p : Slot) (mid : List Event) (s s₁ s₂ : Kernel) : Prop where
  first : dispatched pol 0 s = some p
  start : exec (step pol (.schedule 0)) s = (.ok ⟨⟩, s₁)
  between : exec (run (step pol) mid) s₁ = (.ok ⟨⟩, s₂)
  again : dispatched pol 0 s₂ = some p
  apart : p ∉ observed (step pol) (dispatches pol) mid s₁

namespace Consecutive

variable {pol : Policy} {p : Slot} {mid : List Event} {s s₁ s₂ : Kernel}

variable (h : Consecutive pol p mid s s₁ s₂)
include h

theorem next (one : OneTable s) (flat : pol ≠ .MLFQ) : (s₁.cpu 0).nextSlot = p + 1 := by
  have moved := wp_of_ok (step_move one flat (e := .schedule 0) rfl) h.start
  rw [dispatches, h.first] at moved
  cases moved with
  | dispatch q scans runnable next => exact next

theorem oneTable (one : OneTable s) (flat : pol ≠ .MLFQ) :
    OneTable s₁ := wp_of_ok (one.step flat (e := .schedule 0) rfl) h.start

theorem along (one : ∀ e ∈ mid, e.cpu = 0) :
    Along (step pol) (fun s e => e.cpu = 0 ∧ ∀ m ∈ dispatches pol s e, m ≠ p) mid s₁ := by
  have cpu : Along (step pol) (fun _ e => e.cpu = 0) mid s₁ := along_of_forall_mem s₁ one
  apply cpu.and
  apply along_of_observed
  rintro m mem rfl
  exact h.apart mem

theorem of_moves (one : ∀ e ∈ mid, e.cpu = 0) (start : OneTable s)
    (flat : pol ≠ .MLFQ) {ok : Kernel → Prop} (allowed : Along (step pol) (fun s _ => ok s) mid s₁)
    {I : List Slot → Kernel → Prop}
    (keep : ∀ l d s s', OneTable s → ok s → Move pol s d s' → (∀ m ∈ d, m ≠ p) → I l s →
      I (l ++ d) s') (init : I [] s₁) :
    OneTable s₂ ∧ I (observed (step pol) (dispatches pol) mid s₁) s₂ := by
  apply ((h.along one).and allowed).of_observed
    (I := fun l s => OneTable s ∧ I l s) _ ⟨h.oneTable start flat, init⟩ h.between
  rintro l s e ⟨single, inv⟩ ⟨⟨cpu, others⟩, ok⟩
  apply wp_mono (wp_and (single.step flat cpu) (step_move single flat cpu)) _ fun _ _ _ => trivial
  rintro _ s' ⟨single', moved⟩
  exact ⟨single', keep l _ s s' single ok moved others inv⟩

end Consecutive

/-! ## DEFAULT -/

/-- How often `q` is dispatched until the scheduler, which has not come back to `p`, looks at slot
`x`. -/
def Tallied (p q : Slot) (l : List Slot) (x : ℕ) : Prop :=
  (p < x ∧ l.count q = if p < q ∧ q < x then 1 else 0) ∨
    (x ≤ p ∧ l.count q = if p < q ∨ q < x then 1 else 0)

section

variable {s s' : Kernel} {p q : Slot} {l d : List Slot}

theorem tallied_iff {x : ℕ} : Tallied p q l x ↔
    (p < x ∧ (p < q ∧ q < x ∧ l.count q = 1 ∨ ¬ (p < q ∧ q < x) ∧ l.count q = 0)) ∨
      (x ≤ p ∧ ((p < q ∨ q < x) ∧ l.count q = 1 ∨ ¬ (p < q ∨ q < x) ∧ l.count q = 0)) := by
  unfold Tallied
  grind

theorem Tallied.move (h : Tallied p q l (s.cpu 0).nextSlot) (single : OneTable s) (ready : Ready s q)
    (other : q ≠ p) (moved : Move .DEFAULT s d s') (apart : ∀ m ∈ d, m ≠ p) :
    Tallied p q (l ++ d) (s'.cpu 0).nextSlot ∨ (l ++ d).count q = 1 ∧ ¬ Ready s p := by
  have apart' : q.val ≠ p.val := fun same => other (Fin.ext same)
  cases moved with
  | stay same =>
    rw [List.append_nil, same]
    exact .inl h
  | pass r scans idle next =>
    have notq : r.val ≠ q.val := fun same => idle (Fin.ext same ▸ single.runnable scans ready)
    rw [scans, tallied_iff] at h
    simp only [Cpu.nextSlot, Fin.lt_def] at h
    rw [List.append_nil, next, tallied_iff, Fin.lt_def]
    by_cases back : r = p
    · subst back
      exact .inr ⟨by omega, fun there => idle (single.runnable scans there)⟩
    have notp : r.val ≠ p.val := fun same => back (Fin.ext same)
    exact .inl (by omega)
  | wrap i scans past next =>
    have inside : q.val < NPROC := q.isLt
    have inside' : p.val < NPROC := p.isLt
    rw [scans, tallied_iff] at h
    simp only [Cpu.nextSlot, Fin.lt_def] at h
    rw [List.append_nil, next, tallied_iff, Fin.lt_def]
    exact .inl (by omega)
  | dispatch r scans runnable next =>
    have notp : r.val ≠ p.val := fun same => apart r (List.mem_singleton_self r) (Fin.ext same)
    rw [scans, tallied_iff] at h
    simp only [Cpu.nextSlot, Fin.lt_def] at h
    have next : (s'.cpu 0).nextSlot = r + 1 := next
    rw [next, tallied_iff, Fin.lt_def, List.count_append]
    by_cases hit : r = q
    · subst hit
      have one : [Policy.DEFAULT.choose s r].count r = 1 := List.count_singleton_self
      exact .inl (by omega)
    have notq : r.val ≠ q.val := fun same => hit (Fin.ext same)
    have none : [Policy.DEFAULT.choose s r].count q = 0 := by
      simp [Policy.choose, hit]
    exact .inl (by omega)

theorem Tallied.again (h : Tallied p q l (s.cpu 0).nextSlot) (single : OneTable s) (other : q ≠ p)
    (again : dispatched .DEFAULT 0 s = some p) : l.count q = 1 := by
  obtain ⟨at_, scans, picked⟩ := dispatched_eq_some.1 again
  obtain ⟨r, rfl, -, same⟩ := pick_table (scans ▸ single.tables 0) picked
  have here : p = r := same
  have apart : q.val ≠ p.val := fun same => other (Fin.ext same)
  rw [scans, tallied_iff] at h
  simp only [Cpu.nextSlot, Fin.lt_def, ← here] at h
  omega

end

/-- In the DEFAULT build on one CPU, every process ready between two consecutive dispatches of `p`
is dispatched in between; once, if `p` is ready as well. -/
theorem default_round_robin {es mid : List Event} {s s₁ s₂ : Kernel} {p q : Slot}
    (one : ∀ e ∈ es ++ mid, e.cpu = 0)
    (reached : exec (run (step .DEFAULT) es) Kernel.boot = (.ok ⟨⟩, s))
    (consecutive : Consecutive .DEFAULT p mid s s₁ s₂) (other : q ≠ p)
    (ready : Along (step .DEFAULT) (fun s _ => Ready s q) mid s₁) :
    1 ≤ (observed (step .DEFAULT) (dispatches .DEFAULT) mid s₁).count q ∧
      (Along (step .DEFAULT) (fun s _ => Ready s p) mid s₁ →
        (observed (step .DEFAULT) (dispatches .DEFAULT) mid s₁).count q = 1) := by
  have flat : Policy.DEFAULT ≠ .MLFQ := by decide
  have single : OneTable s := .of_run flat (fun e mem => one e (by simp [mem])) reached
  have onMid (e : Event) (mem : e ∈ mid) : e.cpu = 0 := one e (by simp [mem])
  have start : Tallied p q [] (s₁.cpu 0).nextSlot := by
    rw [consecutive.next single flat]
    refine .inl ⟨by omega, ?_⟩
    rw [if_neg (by rw [Fin.lt_def]; omega)]
    exact List.count_nil
  constructor
  · have result := consecutive.of_moves onMid single flat ready
      (I := fun l s => Tallied p q l (s.cpu 0).nextSlot ∨ 1 ≤ l.count q) ?_ (.inl start)
    · rcases result.2 with tallied | done
      · exact (tallied.again result.1 other consecutive.again).ge
      · exact done
    rintro l d s s' single ready moved apart (tallied | done)
    · rcases tallied.move single ready other moved apart with tallied | ⟨done, -⟩
      · exact .inl tallied
      · exact .inr done.ge
    right
    rw [List.count_append]
    omega
  intro pReady
  have both : Along (step .DEFAULT) (fun s _ => Ready s q ∧ Ready s p) mid s₁ := ready.and pReady
  have result := consecutive.of_moves onMid single flat both
    (I := fun l s => Tallied p q l (s.cpu 0).nextSlot) ?_ start
  · exact result.2.again result.1 other consecutive.again
  rintro l d s s' single ⟨ready, pReady⟩ moved apart tallied
  rcases tallied.move single ready other moved apart with tallied | ⟨-, gone⟩
  · exact tallied
  · exact absurd pReady gone

/-- The first process forks a child and yields, and the scheduler comes to the child. -/
def toChild : List Event :=
  [.schedule 0, .schedule 0, .resume 0, .fork 0, .forkStack 0, .forkDone 0, .timer 0, .trapNext 0,
    .trapNext 0, .schedule 0]

/-- The child yields, the first process runs and yields, and the scheduler comes to the child
again. -/
def roundTrip : List Event :=
  [.resume 0, .timer 0, .trapNext 0, .trapNext 0] ++ List.replicate 66 (.schedule 0) ++
    [.resume 0, .trapNext 0, .timer 0, .trapNext 0, .trapNext 0, .schedule 0]

theorem default_round_robin_roundTrip :
    let s := (exec (run (step .DEFAULT) toChild) Kernel.boot).2
    let s₁ := (exec (step .DEFAULT (.schedule 0)) s).2
    (observed (step .DEFAULT) (dispatches .DEFAULT) roundTrip s₁).count 0 = 1 := by
  intro s s₁
  have reached : (exec (run (step .DEFAULT) toChild) Kernel.boot).1 = .ok ⟨⟩ := by decide +kernel
  have consecutive : Consecutive .DEFAULT 1 roundTrip s s₁
      (exec (run (step .DEFAULT) roundTrip) s₁).2 :=
    { first := by decide +kernel
      start := exec_eq_of_ok (by decide +kernel)
      between := exec_eq_of_ok (by decide +kernel)
      again := by decide +kernel
      apart := by decide +kernel }
  have one : ∀ e ∈ toChild ++ roundTrip, e.cpu = 0 := by decide
  have ready : Along (step .DEFAULT) (fun s _ => Ready s 0) roundTrip s₁ := by decide +kernel
  have childReady : Along (step .DEFAULT) (fun s _ => Ready s 1) roundTrip s₁ := by decide +kernel
  exact (default_round_robin one (exec_eq_of_ok reached) consecutive (by decide) ready).2 childReady

/-! ## PRIORITY -/

def PriorityEvent.cpu : PriorityEvent → ℕ
  | .kernel e => e.cpu
  | .setPriority c _ _ | .chpr c _ _ => c

theorem OneTable.withPriority {s : Kernel} (h : OneTable s) (pid priority : ℤ) :
    OneTable (withPriority s pid priority) := by
  unfold Xv6.withPriority
  split
  next p _ =>
    have same : (s.setProc p fun q => { q with priority := priority }).view = s.view :=
      view_setProc_same fun _ => rfl
    exact ⟨⟨same ▸ h.seated, h.others⟩, h.tables⟩
  · exact h

theorem OneTable.priorityStep {s : Kernel} {pol : Policy} {e : PriorityEvent} (h : OneTable s)
    (flat : pol ≠ .MLFQ) (cpu : e.cpu = 0) :
    wp (Xv6.priorityStep pol e) (fun _ => OneTable) anyStop s := by
  cases e with
  | kernel e => exact h.step flat cpu
  | setPriority c priority pid =>
    apply wp_asCurrent h
    intro _ _ _
    simp only [wp_bind, wp_pure]
    apply wp_mono (setPriority_spec priority pid) _ fun _ _ h => h.elim
    intro r s' result
    split_ifs at result
    · exact result.2 ▸ h
    · exact result.2 ▸ h.withPriority pid priority
    · exact result.2 ▸ h
  | chpr c pid priority =>
    apply wp_asCurrent h
    intro _ _ _
    simp only [wp_bind, wp_pure]
    apply wp_mono (chpr_spec pid priority) _ fun _ _ h => h.elim
    rintro r s' ⟨-, rfl⟩
    exact h.withPriority pid priority

theorem OneTable.of_priority_run {s : Kernel} {pol : Policy} {es : List PriorityEvent}
    (flat : pol ≠ .MLFQ) (one : ∀ e ∈ es, e.cpu = 0)
    (reached : exec (run (Xv6.priorityStep pol) es) Kernel.boot = (.ok ⟨⟩, s)) : OneTable s := by
  have along : Along (Xv6.priorityStep pol) (fun _ e => e.cpu = 0) es Kernel.boot :=
    along_of_forall_mem Kernel.boot one
  have keep (s : Kernel) (e : PriorityEvent) (h : OneTable s) (cpu : e.cpu = 0) :
      wp (Xv6.priorityStep pol e) (fun _ => OneTable) anyStop s := h.priorityStep flat cpu
  exact wp_of_ok (along.wp_run keep boot) reached

/-- The processes in `B` are ready and share the value `v`; other runnable ones have a larger one.
-/
structure Shares (B : Slot → Prop) (v : ℤ) (s : Kernel) : Prop where
  ready : ∀ b, B b → Ready s b
  priority : ∀ b, B b → (s.procs b).priority = v
  worse : ∀ q, ¬ B q → (s.procs q).state = .RUNNABLE → v < (s.procs q).priority

instance (B : Slot → Prop) [DecidablePred B] (v : ℤ) (s : Kernel) : Decidable (Shares B v s) :=
  decidable_of_iff ((∀ b, B b → Ready s b) ∧ (∀ b, B b → (s.procs b).priority = v) ∧
    ∀ q, ¬ B q → (s.procs q).state = .RUNNABLE → v < (s.procs q).priority)
    ⟨fun h => ⟨h.1, h.2.1, h.2.2⟩, fun h => ⟨h.ready, h.priority, h.worse⟩⟩

/-- No other process is runnable in a slot between two of `B`. -/
def Compact (B : Slot → Prop) (s : Kernel) : Prop :=
  ∀ b w b', B b → B b' → ¬ B w → (s.procs w).state = .RUNNABLE → ¬ (b < w ∧ w < b')

/-- The processes of `B` that the scheduler has come by since have been dispatched. -/
def Gathered (B : Slot → Prop) (p : Slot) (l : List Slot) (x : ℕ) : Prop :=
  (p < x ∧ ∀ q : Slot, B q → p.val < q → q < x → q ∈ l) ∨
    (x ≤ p ∧ ∀ q : Slot, B q → p.val < q ∨ q < x → q ∈ l)

section

variable {B : Slot → Prop} {v : ℤ} {s s' : Kernel} {p : Slot} {l d : List Slot}

theorem Shares.choose_self (h : Shares B v s) {r : Slot} (hr : B r) :
    Policy.PRIORITY.choose s r = r := by
  apply priorityChoice_self
  intro q runnable
  rw [h.priority r hr]
  by_cases hq : B q
  · exact (h.priority q hq).ge
  · exact (h.worse q hq runnable).le

theorem Shares.choose_first (h : Shares B v s) (awake : ∀ b, B b → (s.procs b).state = .RUNNABLE)
    {b r : Slot} (hb : B b) (hr : ¬ B r) (runnable : (s.procs r).state = .RUNNABLE) :
    B (Policy.PRIORITY.choose s r) ∧ ∀ b, B b → Policy.PRIORITY.choose s r ≤ b := by
  have best : IsBest s (priorityChoice s r) := priorityChoice_best runnable
  have small : (s.procs (priorityChoice s r)).priority ≤ v :=
    h.priority b hb ▸ best.least b (awake b hb)
  have one : B (priorityChoice s r) := by
    by_contra out
    exact absurd (h.worse _ out best.runnable) (not_lt.2 small)
  refine ⟨one, fun b' hb' => priorityChoice_first ?_ (awake b' hb') ?_⟩
  · exact small.trans_lt (h.worse r hr runnable)
  · rw [h.priority b' hb', h.priority _ one]

theorem Gathered.take {r : Slot} (h : Gathered B p l r) (notp : r.val ≠ p.val) :
    Gathered B p (l ++ [r]) (r + 1) := by
  have last (q : Slot) (before : q.val < r.val → q ∈ l) (here : q.val < r.val + 1) :
      q ∈ l ++ [r] := by
    rcases Nat.lt_succ_iff_lt_or_eq.1 here with lt | eq
    · exact List.mem_append_left _ (before lt)
    · exact List.mem_append_right _ (List.mem_singleton.2 (Fin.ext eq))
  rcases h with ⟨behind, taken⟩ | ⟨ahead, taken⟩
  · refine .inl ⟨Nat.lt_succ_of_lt behind, fun q hq after before => ?_⟩
    exact last q (fun lt => taken q hq after lt) before
  refine .inr ⟨by omega, fun q hq side => ?_⟩
  rcases side with after | before
  · exact List.mem_append_left _ (taken q hq (.inl after))
  · exact last q (fun lt => taken q hq (.inr lt)) before

theorem Gathered.behind {f r q : Slot} (h : Gathered B p l r) (compact : Compact B s) (one : B f)
    (first : f ≤ p) (hr : ¬ B r) (runnable : (s.procs r).state = .RUNNABLE) (hq : B q)
    (after : p.val < q) : q ∈ l := by
  rcases h with ⟨behind, taken⟩ | ⟨-, taken⟩
  · apply taken q hq after
    have notq : q.val ≠ r.val := fun same => hr (Fin.ext same ▸ hq)
    have inside : ¬ (f < r ∧ r < q) := compact f r q one hq hr runnable
    simp only [Fin.lt_def, Fin.le_def] at first inside
    omega
  · exact taken q hq (.inl after)

section

variable (h : Gathered B p l (s.cpu 0).nextSlot) (single : OneTable s) (best : B p)
  (shares : Shares B v s) (compact : Compact B s)
include h single best shares compact

theorem Gathered.move (moved : Move .PRIORITY s d s')
    (apart : ∀ m ∈ d, m ≠ p) : Gathered B p (l ++ d) (s'.cpu 0).nextSlot := by
  cases moved with
  | stay same =>
    rw [List.append_nil, same]
    exact h
  | pass r scans idle next =>
    have out (b : Slot) (hb : B b) : b.val ≠ r.val := fun same =>
      idle (Fin.ext same ▸ single.runnable scans (shares.ready b hb))
    have notp := out p best
    rw [scans] at h
    rw [List.append_nil, next]
    rcases h with ⟨behind, taken⟩ | ⟨ahead, taken⟩
    · refine .inl ⟨Nat.lt_succ_of_lt behind, fun q hq after before => taken q hq after ?_⟩
      have := out q hq
      simp only [Cpu.nextSlot]
      omega
    refine .inr ⟨?_, fun q hq side => taken q hq ?_⟩
    · simp only [Cpu.nextSlot] at ahead
      omega
    have := out q hq
    simp only [Cpu.nextSlot]
    omega
  | wrap i scans past next =>
    have inside (q : Slot) : q.val < NPROC := q.isLt
    rw [scans] at h
    rw [List.append_nil, next]
    rcases h with ⟨behind, taken⟩ | ⟨ahead, -⟩
    · refine .inr ⟨Nat.zero_le _, fun q hq side => taken q hq ?_ ?_⟩
      · exact side.resolve_right (Nat.not_lt_zero _)
      · exact (inside q).trans_le past
    · exact absurd (past.trans ahead) (not_le.2 (inside p))
  | dispatch r scans runnable next =>
    rw [scans] at h
    rw [next]
    by_cases hr : B r
    · rw [shares.choose_self hr] at apart ⊢
      exact h.take fun same => apart r (List.mem_singleton_self r) (Fin.ext same)
    obtain ⟨one, first⟩ := shares.choose_first
      (fun b hb => single.runnable scans (shares.ready b hb)) best hr runnable
    set f := Policy.PRIORITY.choose s r
    have notp : f ≠ p := apart f (List.mem_singleton_self f)
    refine .inr ⟨lt_of_le_of_ne (first p best) notp, fun q hq side => ?_⟩
    rcases side with after | here
    · exact List.mem_append_left _ (h.behind compact one (first p best) hr runnable hq after)
    have same : q = f := le_antisymm (Nat.lt_succ_iff.1 here) (first q hq)
    exact List.mem_append_right _ (List.mem_singleton.2 same)

theorem Gathered.again {q : Slot} (again : dispatched .PRIORITY 0 s = some p) (hq : B q)
    (other : q ≠ p) : q ∈ l := by
  obtain ⟨at_, scans, picked⟩ := dispatched_eq_some.1 again
  obtain ⟨r, rfl, runnable, chosen⟩ := pick_table (scans ▸ single.tables 0) picked
  have apart : q.val ≠ p.val := fun same => other (Fin.ext same)
  rw [scans] at h
  by_cases hr : B r
  · rw [shares.choose_self hr] at chosen
    subst chosen
    rcases h with ⟨behind, -⟩ | ⟨-, taken⟩
    · exact absurd behind (lt_irrefl _)
    · exact taken q hq (Nat.lt_or_gt_of_ne apart.symm)
  obtain ⟨-, first⟩ := shares.choose_first
    (fun b hb => single.runnable scans (shares.ready b hb)) best hr runnable
  rw [← chosen] at first
  exact h.behind compact best le_rfl hr runnable hq (lt_of_le_of_ne (first q hq) apart.symm)

end

theorem starved_move {w : Slot} (before : (s.cpu 0).nextSlot ≤ w) (single : OneTable s) (best : B p)
    (shares : Shares B v s) (pw : p < w) (hw : ¬ B w) (runnable : (s.procs w).state = .RUNNABLE)
    (moved : Move .PRIORITY s d s') : (s'.cpu 0).nextSlot ≤ w ∧ ∀ m ∈ d, m < w := by
  cases moved with
  | stay same => exact ⟨same ▸ before, by simp⟩
  | pass r scans idle next =>
    have notw : r.val ≠ w.val := fun same => idle (Fin.ext same ▸ runnable)
    rw [scans] at before
    rw [next]
    exact ⟨lt_of_le_of_ne before notw, by simp⟩
  | wrap i scans past next =>
    rw [next]
    exact ⟨Nat.zero_le _, by simp⟩
  | dispatch r scans there next =>
    have short : Policy.PRIORITY.choose s r < w := by
      by_cases hr : B r
      · rw [shares.choose_self hr]
        have notw : r ≠ w := fun same => hw (same ▸ hr)
        rw [scans] at before
        exact lt_of_le_of_ne before notw
      obtain ⟨-, first⟩ := shares.choose_first
        (fun b hb => single.runnable scans (shares.ready b hb)) best hr there
      exact (first p best).trans_lt pw
    rw [next]
    exact ⟨short, by simpa using short⟩

end

/-- In the PRIORITY build on one CPU, if the processes of `B` share the smallest value and are ready
between two consecutive dispatches of one of them: if no other runnable process is in a slot between
two of them, each of the others is dispatched in between. If another process behind `p` is runnable
all the time, none behind it is. -/
theorem priority_round_robin {es : List PriorityEvent} {mid : List Event} {s s₁ s₂ : Kernel}
    {p : Slot} {B : Slot → Prop} {v : ℤ} (before : ∀ e ∈ es, e.cpu = 0) (one : ∀ e ∈ mid, e.cpu = 0)
    (reached : exec (run (priorityStep .PRIORITY) es) Kernel.boot = (.ok ⟨⟩, s))
    (consecutive : Consecutive .PRIORITY p mid s s₁ s₂) (best : B p)
    (shares : Along (step .PRIORITY) (fun s _ => Shares B v s) (mid ++ [.schedule 0]) s₁) :
    (Along (step .PRIORITY) (fun s _ => Compact B s) (mid ++ [.schedule 0]) s₁ →
      ∀ q, B q → q ≠ p → q ∈ observed (step .PRIORITY) (dispatches .PRIORITY) mid s₁) ∧
    ∀ w, ¬ B w → p < w →
      Along (step .PRIORITY) (fun s _ => (s.procs w).state = .RUNNABLE) mid s₁ →
      ∀ q ∈ observed (step .PRIORITY) (dispatches .PRIORITY) mid s₁, q < w := by
  have flat : Policy.PRIORITY ≠ .MLFQ := by decide
  have single : OneTable s := .of_priority_run flat before reached
  have next := consecutive.next single flat
  constructor
  · intro compact q hq other
    have both : Along (step .PRIORITY) (fun s _ => Shares B v s ∧ Compact B s) mid s₁ :=
      shares.init.and compact.init
    have start : Gathered B p [] (s₁.cpu 0).nextSlot := by
      rw [next]
      refine .inl ⟨Nat.lt_succ_self _, fun q _ after short => ?_⟩
      exact absurd after (not_lt.2 (Nat.lt_succ_iff.1 short))
    have result := consecutive.of_moves one single flat both
      (I := fun l s => Gathered B p l (s.cpu 0).nextSlot) ?_ start
    · exact result.2.again result.1 best (shares.last consecutive.between)
        (compact.last consecutive.between) consecutive.again hq other
    rintro l d s s' single ⟨shares, compact⟩ moved apart gathered
    exact gathered.move single best shares compact moved apart
  intro w hw pw runnable
  have both : Along (step .PRIORITY) (fun s _ => Shares B v s ∧ (s.procs w).state = .RUNNABLE) mid
      s₁ := shares.init.and runnable
  have result := consecutive.of_moves one single flat both
    (I := fun l s => (s.cpu 0).nextSlot ≤ w ∧ ∀ m ∈ l, m < w) ?_ ⟨next ▸ pw, by simp⟩
  · exact result.2.2
  rintro l d s s' single ⟨shares, runnable⟩ moved - ⟨short, earlier⟩
  obtain ⟨short', now⟩ := starved_move short single best shares pw hw runnable moved
  refine ⟨short', fun m mem => ?_⟩
  rcases List.mem_append.1 mem with mem | mem
  · exact earlier m mem
  · exact now m mem

/-- The first process, of priority 1, forks two children, sets their priorities and yields. -/
def twoChildren (first second : ℤ) : List PriorityEvent :=
  [.kernel (.schedule 0), .kernel (.schedule 0), .kernel (.resume 0), .kernel (.fork 0),
    .kernel (.forkStack 0), .kernel (.forkDone 0), .kernel (.fork 0), .kernel (.forkStack 0),
    .kernel (.forkDone 0), .chpr 0 2 first, .chpr 0 3 second, .kernel (.timer 0),
    .kernel (.trapNext 0), .kernel (.trapNext 0), .kernel (.schedule 0)]

/-- The first child yields, and so does the first process. -/
def bothYield : List Event :=
  [.resume 0, .timer 0, .trapNext 0, .trapNext 0, .schedule 0, .schedule 0, .resume 0, .trapNext 0,
    .timer 0, .trapNext 0, .trapNext 0, .schedule 0]

theorem priority_round_robin_bothYield :
    let s := (exec (run (priorityStep .PRIORITY) (twoChildren 1 70)) Kernel.boot).2
    let s₁ := (exec (step .PRIORITY (.schedule 0)) s).2
    0 ∈ observed (step .PRIORITY) (dispatches .PRIORITY) bothYield s₁ := by
  intro s s₁
  have reached : (exec (run (priorityStep .PRIORITY) (twoChildren 1 70)) Kernel.boot).1 = .ok ⟨⟩ :=
    by decide +kernel
  have consecutive : Consecutive .PRIORITY 1 bothYield s s₁
      (exec (run (step .PRIORITY) bothYield) s₁).2 :=
    { first := by decide +kernel
      start := exec_eq_of_ok (by decide +kernel)
      between := exec_eq_of_ok (by decide +kernel)
      again := by decide +kernel
      apart := by decide +kernel }
  have shares : Along (step .PRIORITY) (fun s _ => Shares (· < 2) 1 s)
      (bothYield ++ [.schedule 0]) s₁ := by decide +kernel
  have compact : Along (step .PRIORITY) (fun s _ => Compact (· < 2) s)
      (bothYield ++ [.schedule 0]) s₁ := by
    apply along_of_forall
    exact fun s _ b w b' _ hb' hw _ inside => hw (inside.2.trans hb')
  have turns := priority_round_robin (by decide) (by decide) (exec_eq_of_ok reached) consecutive
    (by decide) shares
  exact turns.1 compact 0 (by decide) (by decide)

def firstYields : List Event :=
  [.resume 0, .trapNext 0, .timer 0, .trapNext 0, .trapNext 0, .schedule 0]

/-- With a worse process between them, the second child is not dispatched in its turn. -/
theorem priority_starves_second :
    let s := (exec (run (priorityStep .PRIORITY) (twoChildren 70 1)) Kernel.boot).2
    let s₁ := (exec (step .PRIORITY (.schedule 0)) s).2
    let s₂ := (exec (run (step .PRIORITY) firstYields) s₁).2
    Consecutive .PRIORITY 0 firstYields s s₁ s₂ ∧
      Along (step .PRIORITY) (fun s _ => Shares (fun b => b = 0 ∨ b = 2) 1 s)
        (firstYields ++ [.schedule 0]) s₁ ∧
      2 ∉ observed (step .PRIORITY) (dispatches .PRIORITY) firstYields s₁ := by
  intro s s₁ s₂
  refine ⟨⟨?_, exec_eq_of_ok ?_, exec_eq_of_ok ?_, ?_, ?_⟩, ?_, ?_⟩ <;> decide +kernel

end Xv6
