import Xv6.Proc.Feedback
import Xv6.Proc.Turns

/-!
# Round robin in the lowest queue

After a process of queue 4 has run, the scheduler moves its entry to the end of the queue and goes
on with the next index, at which there is now the entry that was two places further.  The process at
the last index but one moves to the last index and is dispatched again at once.
-/

namespace Xv6

open Lib

/-! ## Steps of the feedback scheduler -/

/-- What a step does to the scheduler of CPU 0, with the process that it dispatches. -/
inductive QueueMove (s : Kernel) : List Slot → Kernel → Prop where
  /-- Nothing changes while the scheduler looks for a process. -/
  | stay {s' : Kernel} (same : s'.cpu 0 = s.cpu 0)
      (still : ∀ at_, s.cpu 0 = .scan at_ → s' = s) : QueueMove s [] s'
  | enter {s' : Kernel} (top : s.cpu 0 = .top) (next : s'.cpu 0 = .scan (.queue 0 0)) :
      QueueMove s [] s'
  /-- The running process gives the CPU back. -/
  | give {s' : Kernel} (at_ : Place) (m : Slot) (runs : s.cpu 0 = .running at_ m)
      (next : s'.cpu 0 = .back at_ m) : QueueMove s [] s'
  /-- A queue has been gone through. -/
  | down {s' : Kernel} (k : Level) (i : ℕ) (scans : s.cpu 0 = .scan (.queue k i))
      (past : (s.queue k).last < i) (below : k.val + 1 < 5)
      (next : s'.cpu 0 = .scan (.queue ⟨k.val + 1, below⟩ 0)) : QueueMove s [] s'
  | leave {s' : Kernel} (i : ℕ) (scans : s.cpu 0 = .scan (.queue 4 i))
      (past : (s.queue 4).last < i) (next : s'.cpu 0 = .top) : QueueMove s [] s'
  | skip {s' : Kernel} (k : Level) (i : ℕ) (m : Slot) (scans : s.cpu 0 = .scan (.queue k i))
      (entry : (s.queue k).At i m) (idle : (s.procs m).state ≠ .RUNNABLE)
      (next : s'.cpu 0 = .scan (.queue k (i + 1))) : QueueMove s [] s'
  | dispatch {s' : Kernel} (k : Level) (i : ℕ) (m : Slot) (scans : s.cpu 0 = .scan (.queue k i))
      (entry : (s.queue k).At i m) (runnable : (s.procs m).state = .RUNNABLE)
      (next : s'.cpu 0 = .running (.queue k i) m) : QueueMove s [m] s'
  /-- The scheduler goes on behind the process that came back. -/
  | next {s' : Kernel} (k : Level) (i : ℕ) (m : Slot) (back : s.cpu 0 = .back (.queue k i) m)
      (next : s'.cpu 0 = .scan (.queue k (i + 1)))
      (moved : k = 4 → (s.procs m).killed = false →
        (s'.queue 4).slot (s.queue 4).last.toNat = some m) : QueueMove s [] s'

/-- The scheduler, if it is inside its loop, goes over the queues. -/
def Cpu.OnQueue : Cpu → Prop
  | .scan (.table _) | .running (.table _) _ | .back (.table _) _ => False
  | _ => True

section

variable {s : Kernel}

theorem scan_queueMove {k : Level} {i : ℕ} (scans : s.cpu 0 = .scan (.queue k i)) :
    wp (scan .MLFQ 0 (.queue k i)) (fun _ s' => QueueMove s (pick .MLFQ s (.queue k i)).toList s')
      anyStop s := by
  simp only [scan, entry, pick, wp_bind, wp_get, wp_ite]
  refine ⟨fun inside => ?_, fun past => ?_⟩
  · rw [if_pos inside]
    split
    next m here =>
      have there : (s.queue k).At i m := ⟨by omega, here⟩
      simp only [wp_pure, dispatch, modifyProc, wp_bind, wp_modify, wp_set, here, Option.filter]
      refine ⟨fun runnable => ?_, fun idle => ?_⟩
      · rw [if_pos (by simpa using runnable)]
        exact .dispatch k i m scans there runnable (setCpu_self ..)
      rw [if_neg (by simpa using idle)]
      exact .skip k i m scans there idle (setCpu_self ..)
    · trivial
  rw [if_neg past]
  split
  next below => exact .down k i scans (by omega) below (setCpu_self ..)
  next last =>
    have bound : k.val < 5 := k.isLt
    have four : k.val = 4 := by omega
    obtain rfl : k = 4 := Fin.ext four
    exact .leave i scans (by omega) (setCpu_self ..)

theorem afterSwtch_moved (k : Level) (i : ℕ) (m : Slot) :
    wp (afterSwtch (.queue k i) m) (fun _ s' => k = 4 → (s.procs m).killed = false →
      (s'.queue 4).slot (s.queue 4).last.toNat = some m) anyStop s := by
  by_cases lowest : k = 4
  · subst lowest
    apply wp_mono (requeue_spec i m) _ fun _ _ _ => trivial
    rintro _ s' ⟨-, -, ⟨killed, -⟩ | ⟨-, low, queue⟩⟩ _ alive
    · simp [killed] at alive
    have last : (((s.queue 4).removeAt i).last + 1).toNat = (s.queue 4).last.toNat := by
      simp [ArrayQueue.removeAt]
    rw [queue, Function.update_self, ← last]
    exact Function.update_self ..
  · exact wp_imp (wp_any _ s) fun _ _ _ four => absurd four lowest

theorem schedule_queueMove (queues : (s.cpu 0).OnQueue) :
    wp (schedule .MLFQ 0) (fun _ s' => QueueMove s (dispatched .MLFQ 0 s).toList s') anyStop s := by
  rw [schedule, wp_bind, wp_get]
  cases here : s.cpu 0 with
  | top =>
    rw [dispatched_eq_none (by simp [here])]
    simp only [wp_ite, wp_bind, wp_set, wp_pure, wp_modify]
    refine ⟨fun _ => ⟨fun _ => ?_, fun flat => absurd trivial flat⟩, fun _ => .stay rfl (by simp)⟩
    exact wp_imp (wp_any _ _) fun _ _ _ => .enter here (setCpu_self ..)
  | scan at_ =>
    rw [here] at queues
    cases at_ with
    | queue k i =>
      rw [dispatched_of_scan here]
      exact scan_queueMove here
    | table i => exact queues.elim
  | running at_ m =>
    rw [dispatched_eq_none (by simp [here])]
    exact .stay rfl (by simp)
  | back at_ m =>
    rw [here] at queues
    rw [dispatched_eq_none (by simp [here])]
    cases at_ with
    | queue k i =>
      apply wp_next (afterSwtch_moved k i m)
      intro _ s₁ moved
      exact .next k i m here (setCpu_self ..) moved
    | table i => exact queues.elim

theorem step_queueMove {e : Event} (single : OneCpu s) (queues : (s.cpu 0).OnQueue)
    (cpu : e.cpu = 0) :
    wp (step .MLFQ e) (fun _ s' => QueueMove s (dispatches .MLFQ s e) s') anyStop s := by
  by_cases own : ∀ c, e ≠ .schedule c
  · have nobody : dispatches .MLFQ s e = [] := by
      cases e with
      | schedule c => exact absurd rfl (own c)
      | _ => rfl
    rw [nobody]
    by_cases scanning : ∃ at_, s.cpu 0 = .scan at_
    · have held : s.lock = some 0 := single.seated.held 0 (.inl scanning)
      obtain ⟨at_, scans⟩ := scanning
      apply wp_imp (step_scanning own cpu scans held)
      rintro _ _ rfl
      exact .stay rfl fun _ _ => rfl
    apply wp_imp (process_turned .MLFQ own)
    intro _ s' turned
    rcases turned 0 with same | ⟨at_, m, run, back⟩
    · exact .stay same fun at_ scans => absurd ⟨at_, scans⟩ scanning
    · exact .give at_ m run back
  · push Not at own
    obtain ⟨c, rfl⟩ := own
    obtain rfl : c = 0 := cpu
    exact schedule_queueMove queues

theorem QueueMove.onQueue {s' : Kernel} {d : List Slot} (h : QueueMove s d s')
    (queues : (s.cpu 0).OnQueue) : (s'.cpu 0).OnQueue := by
  cases h with
  | stay same _ => exact same ▸ queues
  | give at_ m runs next =>
    rw [runs] at queues
    rw [next]
    cases at_ with
    | queue k i => trivial
    | table i => exact queues
  | enter _ next | down _ _ _ _ _ next | leave _ _ _ next | skip _ _ _ _ _ _ next
  | dispatch _ _ _ _ _ _ next | next _ _ _ _ next _ =>
    rw [next]
    trivial

end

/-! ## A pass over the lowest queue -/

/-- Only queue 4 has entries, `n` of them, for the processes in `P`, ready and not killed. -/
structure Lowest (P : Slot → Prop) (n : ℕ) (s : Kernel) : Prop where
  upper : ∀ k, k ≠ 4 → (s.queue k).last = -1
  size : (s.queue 4).last = n - 1
  holds : ∀ p, (s.queue 4).Holds p ↔ P p
  ready : ∀ p, P p → Ready s p
  alive : ∀ p, P p → (s.procs p).killed = false

instance (P : Slot → Prop) [DecidablePred P] (n : ℕ) (s : Kernel) : Decidable (Lowest P n s) :=
  decidable_of_iff ((∀ k, k ≠ 4 → (s.queue k).last = -1) ∧ (s.queue 4).last = n - 1 ∧
    (∀ p, (s.queue 4).Holds p ↔ P p) ∧ (∀ p, P p → Ready s p) ∧
    ∀ p, P p → (s.procs p).killed = false)
    ⟨fun h => ⟨h.1, h.2.1, h.2.2.1, h.2.2.2.1, h.2.2.2.2⟩,
      fun h => ⟨h.upper, h.size, h.holds, h.ready, h.alive⟩⟩

/-- Between two dispatches of a process every other process of `P` is dispatched once. -/
def TakeTurns (P : Slot → Prop) (log : List Slot) : Prop :=
  ∀ a p b c, log = a ++ p :: (b ++ p :: c) → p ∉ b → ∀ q, P q → q ≠ p → b.count q = 1

/-- What the scheduler does in a pass over queue 4 that has `n` entries, after the dispatches
`l`. -/
inductive InPass (n : ℕ) (s : Kernel) (l : List Slot) : Cpu → Prop where
  | top (none : l = []) : InPass n s l .top
  | upper (k : Level) (above : k ≠ 4) (none : l = []) : InPass n s l (.scan (.queue k 0))
  /-- The process that ran last is the one at the last index. -/
  | scan (index : l.length < n)
      (last : l.length + 1 = n → ∀ m, l.getLast? = some m → (s.queue 4).slot l.length = some m) :
      InPass n s l (.scan (.queue 4 l.length))
  | running (i : ℕ) (m : Slot) (index : l.length = i + 1) (short : l.length < n)
      (last : l.getLast? = some m) : InPass n s l (.running (.queue 4 i) m)
  | back (i : ℕ) (m : Slot) (index : l.length = i + 1) (short : l.length < n)
      (last : l.getLast? = some m) : InPass n s l (.back (.queue 4 i) m)

theorem InPass.short {n : ℕ} {s : Kernel} {l : List Slot} {x : Cpu} (h : InPass n s l x)
    (some : 0 < n) : l.length < n := by
  cases h with
  | top none | upper _ _ none => simpa [none] using some
  | scan index _ => exact index
  | running _ _ _ short _ | back _ _ _ short _ => exact short

def Twice (n : ℕ) (l : List Slot) : Prop :=
  n ≤ l.length ∧ (2 ≤ n → ∃ x, l[n - 2]? = some x ∧ l[n - 1]? = some x)

theorem Twice.append {n : ℕ} {l : List Slot} (h : Twice n l) (d : List Slot) :
    Twice n (l ++ d) := by
  have long := h.1
  refine ⟨by simp; omega, fun two => ?_⟩
  obtain ⟨x, first, second⟩ := h.2 two
  refine ⟨x, ?_, ?_⟩
  · rwa [List.getElem?_append_left (by omega)]
  · rwa [List.getElem?_append_left (by omega)]

section

variable {P : Slot → Prop} {n : ℕ} {s s' : Kernel} {l d : List Slot}

theorem Lowest.no_entry (low : Lowest P n s) {k : Level} (above : k ≠ 4) {i : ℕ} {m : Slot} :
    ¬ (s.queue k).At i m := by
  intro entry
  have short := entry.1
  rw [low.upper k above] at short
  omega

theorem pass_dispatch {m : Slot} (short : l.length < n)
    (last : l.length + 1 = n → ∀ m, l.getLast? = some m → (s.queue 4).slot l.length = some m)
    (entry : (s.queue 4).At l.length m) (next : s'.cpu 0 = .running (.queue 4 l.length) m) :
    InPass n s' (l ++ [m]) (s'.cpu 0) ∨ Twice n (l ++ [m]) := by
  have size : (l ++ [m]).length = l.length + 1 := by simp
  by_cases whole : l.length + 1 = n
  · right
    refine ⟨by omega, fun two => ⟨m, ?_, ?_⟩⟩
    · obtain ⟨x, before⟩ : ∃ x, l.getLast? = some x := by
        rw [← Option.isSome_iff_exists, List.getLast?_isSome]
        rintro rfl
        simp at whole
        omega
      have same : x = m := Option.some.inj ((last whole x before).symm.trans entry.2)
      rw [List.getElem?_append_left (by omega), ← same, ← before, List.getLast?_eq_getElem?]
      congr 1
      omega
    · rw [List.getElem?_append_right (by omega)]
      have zero : n - 1 - l.length = 0 := by omega
      rw [zero]
      rfl
  · left
    rw [next]
    exact .running l.length m size (by omega) (by simp)

theorem pass_move (h : InPass n s l (s.cpu 0)) (some : 0 < n) (single : OneCpu s)
    (low : Lowest P n s) (members : ∀ m ∈ l, P m) (moved : QueueMove s d s') :
    InPass n s' (l ++ d) (s'.cpu 0) ∨ Twice n (l ++ d) := by
  cases moved with
  | stay same still =>
    left
    rw [List.append_nil, same]
    cases here : s.cpu 0 with
    | scan at_ =>
      rw [still at_ here, ← here]
      exact h
    | top =>
      rw [here] at h
      cases h with
      | top none => exact .top none
    | running at_ m =>
      rw [here] at h
      cases h with
      | running i _ index short last => exact .running i m index short last
    | back at_ m =>
      rw [here] at h
      cases h with
      | back i _ index short last => exact .back i m index short last
  | enter top next =>
    rw [top] at h
    cases h with
    | top none =>
      left
      rw [List.append_nil, next]
      exact .upper 0 (by decide) none
  | give at_ m runs next =>
    rw [runs] at h
    cases h with
    | running i _ index short last =>
      left
      rw [List.append_nil, next]
      exact .back i m index short last
  | down k i scans past below next =>
    rw [scans] at h
    cases h with
    | scan => exact absurd below (by decide)
    | upper _ above none =>
      left
      rw [List.append_nil, next]
      subst none
      by_cases four : (⟨k.val + 1, below⟩ : Level) = 4
      · rw [four]
        exact .scan some (by simp)
      · exact .upper _ four rfl
  | leave i scans past next =>
    rw [scans] at h
    cases h with
    | upper _ above none => exact absurd rfl above
    | scan index last =>
      rw [low.size] at past
      omega
  | skip k i m scans entry idle next =>
    rw [scans] at h
    cases h with
    | upper _ above none => exact absurd entry (low.no_entry above)
    | scan index last =>
      have member : P m := (low.holds m).1 ⟨_, entry⟩
      exact absurd (single.runnable scans (low.ready m member)) idle
  | dispatch k i m scans entry runnable next =>
    rw [scans] at h
    cases h with
    | upper _ above none => exact absurd entry (low.no_entry above)
    | scan index last => exact pass_dispatch index last entry next
  | next k i m back next moved =>
    rw [back] at h
    cases h with
    | back _ _ index short last =>
      left
      rw [List.append_nil, next, ← index]
      refine .scan short fun whole m' last' => ?_
      have same : m = m' := Option.some.inj (last.symm.trans last')
      have here := moved rfl (low.alive m (members m (List.mem_of_getLast? last)))
      have index' : (s.queue 4).last.toNat = l.length := by
        rw [low.size]
        omega
      rw [← same, ← index']
      exact here

theorem QueueMove.members (h : QueueMove s d s') (low : Lowest P n s) : ∀ m ∈ d, P m := by
  cases h with
  | dispatch k i m scans entry runnable next =>
    intro m' mem
    rw [List.mem_singleton.1 mem]
    by_cases four : k = 4
    · subst four
      exact (low.holds m).1 ⟨i, entry⟩
    · exact absurd entry (low.no_entry four)
  | _ => simp

/-- Where a run is that started at the top of the scheduler's loop, after the dispatches `l`. -/
structure OnPass (P : Slot → Prop) (n : ℕ) (l : List Slot) (s : Kernel) : Prop where
  single : OneCpu s
  queues : (s.cpu 0).OnQueue
  members : ∀ m ∈ l, P m
  progress : InPass n s l (s.cpu 0) ∨ Twice n l

theorem OnPass.step {e : Event} (h : OnPass P n l s) (some : 0 < n) (cpu : e.cpu = 0)
    (low : Lowest P n s) : wp (Xv6.step .MLFQ e)
      (fun _ => OnPass P n (l ++ dispatches .MLFQ s e)) anyStop s := by
  apply wp_mono (wp_and (h.single.step .MLFQ cpu) (step_queueMove h.single h.queues cpu)) _
    fun _ _ _ => trivial
  rintro _ s' ⟨single, moved⟩
  refine ⟨single, moved.onQueue h.queues, fun m mem => ?_, ?_⟩
  · rcases List.mem_append.1 mem with mem | mem
    · exact h.members m mem
    · exact moved.members low m mem
  rcases h.progress with inside | twice
  · exact pass_move inside some h.single low h.members moved
  · exact .inr (twice.append _)

theorem Twice.same (h : Twice n l) (two : 2 ≤ n) (turns : TakeTurns P l) {p q : Slot} (hp : P p)
    (hq : P q) : p = q := by
  obtain ⟨k, rfl⟩ : ∃ k, n = k + 2 := ⟨n - 2, by omega⟩
  obtain ⟨x, first, second⟩ := h.2 two
  have first : l[k]? = some x := first
  have second : l[k + 1]? = some x := second
  obtain ⟨inside, here⟩ := List.getElem?_eq_some_iff.1 first
  obtain ⟨inside', here'⟩ := List.getElem?_eq_some_iff.1 second
  have split : l = l.take k ++ x :: ([] ++ x :: l.drop (k + 2)) :=
    calc
      l = l.take k ++ l.drop k := (List.take_append_drop k l).symm
      _ = l.take k ++ l[k] :: l[k + 1] :: l.drop (k + 2) := by
        rw [List.drop_eq_getElem_cons inside, List.drop_eq_getElem_cons inside']
      _ = l.take k ++ x :: ([] ++ x :: l.drop (k + 2)) := by rw [here, here', List.nil_append]
  have only (q : Slot) (hq : P q) : q = x := by
    by_contra other
    have none := turns _ x [] _ split (by simp) q hq other
    simp at none
  rw [only p hp, only q hq]

end

/-- On one CPU, with ready processes in queue 4 only, in every run that goes on for a pass over that
queue: the processes take turns exactly if there is only one. -/
theorem lowest_round_robin_iff {es mid : List Event} {s s' : Kernel} {P : Slot → Prop} {n : ℕ}
    (one : ∀ e ∈ es ++ mid, e.cpu = 0)
    (reached : exec (run (step .MLFQ) es) Kernel.boot = (.ok ⟨⟩, s)) (top : s.cpu 0 = .top)
    (some : 0 < n) (lowest : Along (step .MLFQ) (fun s _ => Lowest P n s) mid s)
    (goes : exec (run (step .MLFQ) mid) s = (.ok ⟨⟩, s'))
    (pass : n ≤ (observed (step .MLFQ) (dispatches .MLFQ) mid s).length) :
    TakeTurns P (observed (step .MLFQ) (dispatches .MLFQ) mid s) ↔ ∀ p q, P p → P q → p = q := by
  have single : OneCpu s := by
    have along : Along (step .MLFQ) (fun _ e => e.cpu = 0) es Kernel.boot :=
      along_of_forall_mem Kernel.boot fun e mem => one e (by simp [mem])
    have keep (s : Kernel) (e : Event) (h : OneCpu s) (cpu : e.cpu = 0) :
        wp (step .MLFQ e) (fun _ => OneCpu) anyStop s := h.step .MLFQ cpu
    exact wp_of_ok (along.wp_run keep .boot) reached
  have onMid : Along (step .MLFQ) (fun _ e => e.cpu = 0) mid s :=
    along_of_forall_mem s fun e mem => one e (by simp [mem])
  have start : OnPass P n [] s :=
    ⟨single, by rw [top]; trivial, by simp, .inl (by rw [top]; exact .top rfl)⟩
  have result : OnPass P n (observed (step .MLFQ) (dispatches .MLFQ) mid s) s' :=
    (onMid.and lowest).of_observed (fun _ _ _ h both => h.step some both.1 both.2) start goes
  have low : Lowest P n s := by
    cases mid with
    | nil => exact absurd pass (by simp [observed]; omega)
    | cons e mid => exact lowest.1
  generalize observed (step .MLFQ) (dispatches .MLFQ) mid s = log at *
  have twice : Twice n log := by
    apply result.progress.resolve_left
    intro inside
    have short := inside.short some
    omega
  constructor
  · intro turns p q hp hq
    by_cases two : 2 ≤ n
    · exact twice.same two turns hp hq
    -- there is a single entry
    obtain ⟨i, atp⟩ := (low.holds p).2 hp
    obtain ⟨j, atq⟩ := (low.holds q).2 hq
    have hi := atp.1
    have hj := atq.1
    rw [low.size] at hi hj
    have same : i = j := by omega
    subst same
    exact Option.some.inj (atp.2.symm.trans atq.2)
  · intro all a p b c log_eq _ q hq other
    have hp : P p := result.members p (by simp [log_eq])
    exact absurd (all q p hq hp) other

def oneTick : List Event :=
  List.replicate 8 (.schedule 0) ++ [.resume 0, .trapNext 0, .timer 0, .trapNext 0, .trapNext 0]

/-- The first process forks a child, both come down to queue 4, and a pass over that queue ends. -/
def bothDown : List Event :=
  [.schedule 0, .schedule 0, .resume 0, .fork 0, .forkStack 0, .forkDone 0, .timer 0, .trapNext 0,
    .trapNext 0] ++ (List.replicate 35 oneTick).flatten ++ [.schedule 0, .schedule 0]

theorem lowest_round_robin_iff_bothDown :
    let s := (exec (run (step .MLFQ) bothDown) Kernel.boot).2
    ¬ TakeTurns (· < 2) (observed (step .MLFQ) (dispatches .MLFQ) (oneTick ++ oneTick) s) := by
  intro s turns
  have facts : ((exec (run (step .MLFQ) bothDown) Kernel.boot).1 = .ok ⟨⟩ ∧ s.cpu 0 = .top) ∧
      (exec (run (step .MLFQ) (oneTick ++ oneTick)) s).1 = .ok ⟨⟩ ∧
      Along (step .MLFQ) (fun s _ => Lowest (· < 2) 2 s) (oneTick ++ oneTick) s ∧
      2 ≤ (observed (step .MLFQ) (dispatches .MLFQ) (oneTick ++ oneTick) s).length := by
    decide +kernel
  obtain ⟨⟨reached, top⟩, goes, lowest, pass⟩ := facts
  have one : ∀ e ∈ bothDown ++ (oneTick ++ oneTick), e.cpu = 0 := by decide +kernel
  have same := (lowest_round_robin_iff (s := s) one (exec_eq_of_ok reached) top (by decide) lowest
    (exec_eq_of_ok goes) pass).1 turns 0 1 (by decide) (by decide)
  exact absurd same (by decide)

/-- With two processes in queue 4, one is dispatched twice in a row. -/
theorem lowest_dispatches_twice :
    let s := (exec (run (step .MLFQ) bothDown) Kernel.boot).2
    Along (step .MLFQ) (fun s _ => Lowest (· < 2) 2 s) (oneTick ++ oneTick) s ∧
      observed (step .MLFQ) (dispatches .MLFQ) (oneTick ++ oneTick) s = [1, 1] := by
  decide +kernel

end Xv6
