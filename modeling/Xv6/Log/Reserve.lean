import Xv6.Lib.Run
import Xv6.Log.Log

/-!
# Log space

`begin_op` admits an operation when `MAXOPBLOCKS` blocks for it and for every outstanding operation
fit into `LOGSIZE`; `log_write` tests the space without `log.lock`.  A log of `log.size` blocks has
room for `log.size - 1` of them, and the test wants one to be left over, so that an operation
admitted by `begin_op` can find the log full.  It does not when `begin_op` admits only what fits
into `log.size - 2`.
-/

namespace Xv6

open Lib Function

/-- Blocks of the log on a disk made by `mkfs`, its header included. -/
def nlog : ℕ := LOGSIZE

/-- Where a process stands with its file-system operation. -/
inductive OpPc where
  /-- No operation, or waiting in `begin_op`. -/
  | out
  /-- Between `begin_op` and `end_op`. -/
  | running
  /-- The tests of `log_write` for a block, in order. -/
  | testLogsize (b : ℕ)
  | testSize (b : ℕ)
  | testOutstanding (b : ℕ)
  /-- About to take `log.lock` and record the block. -/
  | recording (b : ℕ)
  /-- In `end_op` with `do_commit` set: before `commit`, and after it. -/
  | committing
  | committed
  deriving DecidableEq

/-- The log and its users; `wrote p` are the blocks that the operation of `p` has recorded. -/
structure OpState where
  log : Log
  pc : ℕ → OpPc
  wrote : ℕ → Finset ℕ

inductive OpEvent where
  | begin_op (p : ℕ)
  | log_write (p b : ℕ)
  /-- The next step of `p` inside `log_write` or `end_op`. -/
  | next (p : ℕ)
  | end_op (p : ℕ)

namespace OpState

def Admits (log : Log) : Prop :=
  log.committing = false ∧ log.lh.n + (log.outstanding + 1) * MAXOPBLOCKS ≤ LOGSIZE
  deriving Decidable

def setPc (s : OpState) (p : ℕ) (pc : OpPc) : OpState := { s with pc := update s.pc p pc }

def setLog (s : OpState) (log : Log) : OpState := { s with log := log }

/-- A freshly booted system over a disk made by `mkfs`. -/
def init (start : ℕ) : OpState where
  log := Log.init start nlog
  pc := fun _ => .out
  wrote := fun _ => ∅

def next (s : OpState) (p : ℕ) : Prog OpState Halt PUnit :=
  match s.pc p with
  | .out => pure ⟨⟩
  | .running => pure ⟨⟩
  | .testLogsize b =>
      if s.log.lh.n ≥ LOGSIZE then throw (.panic "too big a transaction")
      else set (s.setPc p (.testSize b))
  | .testSize b =>
      if s.log.lh.n ≥ s.log.size - 1 then throw (.panic "too big a transaction")
      else set (s.setPc p (.testOutstanding b))
  | .testOutstanding b =>
      if s.log.outstanding < 1 then throw (.panic "log_write outside of trans")
      else set (s.setPc p (.recording b))
  | .recording b =>
      set { s.setPc p .running with
        log := { s.log with lh := s.log.lh.absorb b }
        wrote := update s.wrote p (insert b (s.wrote p)) }
  | .committing =>
      set ((s.setPc p .committed).setLog { s.log with lh := { s.log.lh with n := 0 } })
  | .committed => set ((s.setPc p .out).setLog { s.log with committing := false })

def step : OpEvent → Prog OpState Halt PUnit
  | .begin_op p => do
      let s ← get
      if s.pc p = .out ∧ Admits s.log then
        set { s.setPc p .running with
          log := { s.log with outstanding := s.log.outstanding + 1 }
          wrote := update s.wrote p ∅ }
      else pure ⟨⟩
  | .log_write p b => do
      let s ← get
      if s.pc p = .running then set (s.setPc p (.testLogsize b)) else pure ⟨⟩
  | .next p => do
      let s ← get
      s.next p
  | .end_op p => do
      let s ← get
      if s.pc p = .running then
        if s.log.committing = true then
          throw (.panic "log.committing")
        else if s.log.outstanding - 1 = 0 then
          set ((s.setPc p .committing).setLog { s.log with outstanding := 0, committing := true })
        else
          set ((s.setPc p .out).setLog { s.log with outstanding := s.log.outstanding - 1 })
      else pure ⟨⟩

/-- No operation logs more than `MAXOPBLOCKS` distinct blocks. -/
def WithinBudget (s : OpState) : OpEvent → Prop
  | .log_write p b => (insert b (s.wrote p)).card ≤ MAXOPBLOCKS
  | _ => True

/-- An admitted operation leaves a log block to spare. -/
def LeavesRoom (s : OpState) : OpEvent → Prop
  | .begin_op _ =>
      Admits s.log → s.log.lh.n + (s.log.outstanding + 1) * MAXOPBLOCKS ≤ (s.log.size : ℤ) - 2
  | _ => True

instance (s : OpState) : ∀ e, Decidable (s.WithinBudget e)
  | .log_write _ _ => inferInstanceAs (Decidable (_ ≤ _))
  | .begin_op _ | .next _ | .end_op _ => inferInstanceAs (Decidable True)

instance (s : OpState) : ∀ e, Decidable (s.LeavesRoom e)
  | .begin_op _ => inferInstanceAs (Decidable (_ → _))
  | .log_write _ _ | .next _ | .end_op _ => inferInstanceAs (Decidable True)

end OpState

/-! ## The reservation invariant -/

namespace OpPc

def Active : OpPc → Prop
  | .out | .committing | .committed => False
  | _ => True

/-- The block that a call of `log_write` in progress will record. -/
def pending : OpPc → Option ℕ
  | .testLogsize b | .testSize b | .testOutstanding b | .recording b => some b
  | _ => none

/-- The process is in the committing part of `end_op`. -/
def Committer (pc : OpPc) : Prop := pc = .committing ∨ pc = .committed

end OpPc

def reserved (s : OpState) (A : Finset ℕ) : ℕ := ∑ p ∈ A, (MAXOPBLOCKS - (s.wrote p).card)

/-- `A` are the outstanding operations: what they may still add fits. -/
structure Reserve (s : OpState) (A : Finset ℕ) : Prop where
  active : ∀ p, p ∈ A ↔ (s.pc p).Active
  count : s.log.outstanding = A.card
  nonneg : 0 ≤ s.log.lh.n
  logged : ∀ p ∈ A, ∀ b ∈ s.wrote p, b ∈ s.log.lh.blocks
  pending : ∀ p b, (s.pc p).pending = some b → (insert b (s.wrote p)).card ≤ MAXOPBLOCKS
  room : s.log.lh.n + reserved s A ≤ (s.log.size : ℤ) - 2
  size : s.log.size = nlog
  committer : ∀ p, (s.pc p).Committer → s.log.committing = true
  unique : ∀ p q, (s.pc p).Committer → (s.pc q).Committer → p = q
  quiet : s.log.committing = true → A = ∅

namespace Reserve

variable {s : OpState} {A : Finset ℕ}

theorem reserved_le (s : OpState) (A : Finset ℕ) : reserved s A ≤ A.card * MAXOPBLOCKS := by
  unfold reserved
  exact Finset.sum_le_card_nsmul _ _ _ fun p _ => Nat.sub_le ..

theorem setPc_committer {p q : ℕ} {pc : OpPc} (com : pc.Committer → (s.pc p).Committer)
    (hq : ((s.setPc p pc).pc q).Committer) : (s.pc q).Committer := by
  by_cases hp : q = p
  · subst hp
    simp only [OpState.setPc, update_self] at hq
    exact com hq
  · simpa only [OpState.setPc, update_of_ne hp] using hq

variable (h : Reserve s A)
include h

theorem setPc {p : ℕ} {pc : OpPc} (act : pc.Active ↔ (s.pc p).Active)
    (pend : ∀ b, pc.pending = some b → (insert b (s.wrote p)).card ≤ MAXOPBLOCKS)
    (com : pc.Committer → (s.pc p).Committer) : Reserve (s.setPc p pc) A where
  active q := by
    by_cases hq : q = p
    · subst hq
      simp only [OpState.setPc, update_self, act, h.active]
    · simp only [OpState.setPc, update_of_ne hq, h.active]
  count := h.count
  nonneg := h.nonneg
  logged := h.logged
  pending q b hb := by
    by_cases hq : q = p
    · subst hq
      simp only [OpState.setPc, update_self] at hb
      exact pend b hb
    simp only [OpState.setPc, update_of_ne hq] at hb
    exact h.pending q b hb
  room := h.room
  size := h.size
  committer q hq := h.committer q (setPc_committer com hq)
  unique q r hq hr := h.unique q r (setPc_committer com hq) (setPc_committer com hr)
  quiet := h.quiet

theorem begin_op {p : ℕ} (idle : s.pc p = .out) (admits : OpState.Admits s.log)
    (room : s.log.lh.n + (s.log.outstanding + 1) * MAXOPBLOCKS ≤ (s.log.size : ℤ) - 2) :
    Reserve { s.setPc p .running with
      log := { s.log with outstanding := s.log.outstanding + 1 }
      wrote := update s.wrote p ∅ } (insert p A) where
  active q := by
    by_cases hq : q = p
    · subst hq
      simp [OpState.setPc, OpPc.Active]
    · simp [OpState.setPc, Finset.mem_insert, hq, h.active]
  count := by
    have new : p ∉ A := by simp [h.active, idle, OpPc.Active]
    simp [Finset.card_insert_of_notMem new, h.count]
  nonneg := h.nonneg
  logged q hq b hb := by
    by_cases hp : q = p
    · subst hp
      simp at hb
    simp only [update_of_ne hp] at hb
    exact h.logged q (Finset.mem_of_mem_insert_of_ne hq hp) b hb
  pending q b hb := by
    by_cases hp : q = p
    · subst hp
      simp [OpState.setPc, OpPc.pending] at hb
    simp only [OpState.setPc, update_of_ne hp] at hb ⊢
    exact h.pending q b hb
  room := by
    refine le_trans ?_ room
    have le := reserved_le { s.setPc p .running with
      log := { s.log with outstanding := s.log.outstanding + 1 }
      wrote := update s.wrote p ∅ } (insert p A)
    have card := Finset.card_insert_le p A
    have := h.count
    simp only [MAXOPBLOCKS] at le ⊢
    omega
  size := h.size
  committer q hq := h.committer q (setPc_committer (by simp [OpPc.Committer]) hq)
  unique q r hq hr := h.unique q r (setPc_committer (by simp [OpPc.Committer]) hq)
    (setPc_committer (by simp [OpPc.Committer]) hr)
  quiet hc := by simp [admits.1] at hc

theorem record {p b : ℕ} (at_ : s.pc p = .recording b) :
    Reserve { s.setPc p .running with
      log := { s.log with lh := s.log.lh.absorb b }
      wrote := update s.wrote p (insert b (s.wrote p)) } A := by
  have mem : p ∈ A := by simp [h.active, at_, OpPc.Active]
  have moved : Reserve (s.setPc p .running) A :=
    h.setPc (by simp [at_, OpPc.Active]) (by simp [OpPc.pending]) (by simp [OpPc.Committer])
  have budget := h.pending p b (by rw [at_]; rfl)
  refine ⟨moved.active, h.count, LogHeader.nonneg_absorb h.nonneg b, ?_, ?_, ?_, h.size,
    moved.committer, moved.unique, h.quiet⟩
  · intro q hq c hc
    rw [LogHeader.mem_absorb h.nonneg]
    by_cases hp : q = p
    · subst hp
      simp only [update_self, Finset.mem_insert] at hc
      exact hc.imp_right (h.logged q hq c)
    simp only [update_of_ne hp] at hc
    exact .inr (h.logged q hq c hc)
  · intro q c hc
    by_cases hp : q = p
    · subst hp
      simp [OpState.setPc, OpPc.pending] at hc
    simp only [update_of_ne hp]
    exact moved.pending q c hc
  have room := h.room
  simp only [reserved] at room ⊢
  rw [← Finset.add_sum_erase A _ mem] at room ⊢
  have others : ∑ q ∈ A.erase p, (MAXOPBLOCKS - (update s.wrote p (insert b (s.wrote p)) q).card) =
      ∑ q ∈ A.erase p, (MAXOPBLOCKS - (s.wrote q).card) :=
    Finset.sum_congr rfl fun q hq => by rw [update_of_ne (Finset.ne_of_mem_erase hq)]
  rw [others, update_self]
  by_cases old : b ∈ s.wrote p
  · rw [Finset.insert_eq_of_mem old, LogHeader.absorb_of_mem (h.logged p mem b old)]
    exact room
  rw [Finset.card_insert_of_notMem old] at budget ⊢
  have grows : (s.log.lh.absorb b).n ≤ s.log.lh.n + 1 := by
    simp only [LogHeader.absorb]
    split <;> omega
  push_cast at room ⊢
  simp only [MAXOPBLOCKS] at budget room ⊢
  omega

theorem leave {p : ℕ} {pc : OpPc} {B : Finset ℕ} {log : Log}
    (inactive : ¬ pc.Active) (B_eq : B = A.erase p) (count : log.outstanding = B.card)
    (lh : log.lh = s.log.lh ∨ B = ∅ ∧ log.lh.n = 0) (size : log.size = s.log.size)
    (committer : ∀ q, ((s.setPc p pc).pc q).Committer → log.committing = true ∧ q = p)
    (quiet : log.committing = true → B = ∅) : Reserve ((s.setPc p pc).setLog log) B := by
  have none_pending : pc.pending = none := by
    cases pc <;> simp_all [OpPc.Active, OpPc.pending]
  refine ⟨?_, count, ?_, ?_, ?_, ?_, size.trans h.size, fun q hq => (committer q hq).1,
    fun q r hq hr => (committer q hq).2.trans (committer r hr).2.symm, quiet⟩
  · intro q
    rw [B_eq]
    by_cases hp : q = p
    · subst hp
      simp [OpState.setPc, OpState.setLog, inactive]
    · simp [OpState.setPc, OpState.setLog, hp, h.active]
  · rcases lh with lh | ⟨-, zero⟩
    · simpa only [OpState.setLog, lh] using h.nonneg
    · exact zero.ge
  · intro q hq b hb
    rcases lh with lh | ⟨none, -⟩
    · simp only [OpState.setLog, lh]
      exact h.logged q (Finset.mem_of_mem_erase (B_eq ▸ hq)) b hb
    · simp [none] at hq
  · intro q b hb
    by_cases hp : q = p
    · subst hp
      simp [OpState.setPc, OpState.setLog, none_pending] at hb
    simp only [OpState.setPc, OpState.setLog, update_of_ne hp] at hb
    exact h.pending q b hb
  · have room := h.room
    have sub : reserved s B ≤ reserved s A :=
      Finset.sum_le_sum_of_subset (B_eq ▸ Finset.erase_subset p A)
    simp only [OpState.setLog, size]
    have same : reserved ((s.setPc p pc).setLog log) B = reserved s B := rfl
    simp only [OpState.setLog] at same
    rw [same]
    rcases lh with lh | ⟨none, zero⟩
    · rw [lh]
      omega
    have := h.nonneg
    rw [zero]
    omega

theorem next (p : ℕ) :
    wp (s.next p) (fun _ s' => ∃ B, Reserve s' B)
      (fun e _ => e ≠ .panic "too big a transaction") s := by
  have small : s.log.lh.n ≤ (s.log.size : ℤ) - 2 := by
    have := h.room
    omega
  have size : s.log.size = 30 := h.size
  unfold OpState.next
  cases at_ : s.pc p with
  | out | running => exact ⟨A, h⟩
  | testLogsize b =>
    dsimp only
    rw [if_neg (by simp only [LOGSIZE, MAXOPBLOCKS]; omega), wp_set]
    exact ⟨A, h.setPc (by simp [at_, OpPc.Active]) (fun c hc => h.pending p c (by rwa [at_]))
      (by simp [OpPc.Committer])⟩
  | testSize b =>
    dsimp only
    rw [if_neg (by omega), wp_set]
    exact ⟨A, h.setPc (by simp [at_, OpPc.Active]) (fun c hc => h.pending p c (by rwa [at_]))
      (by simp [OpPc.Committer])⟩
  | testOutstanding b =>
    dsimp only
    rw [wp_ite, wp_throw, wp_set]
    refine ⟨fun _ => by simp, fun _ => ⟨A, ?_⟩⟩
    exact h.setPc (by simp [at_, OpPc.Active]) (fun c hc => h.pending p c (by rwa [at_]))
      (by simp [OpPc.Committer])
  | recording b => exact ⟨A, h.record at_⟩
  | committing =>
    have busy := h.committer p (.inl at_)
    have none := h.quiet busy
    refine ⟨A, h.leave (by simp [OpPc.Active]) (by simp [none]) h.count (.inr ⟨none, rfl⟩) rfl
      (fun q hq => ⟨busy, h.unique q p (setPc_committer (fun _ => .inl at_) hq) (.inl at_)⟩)
      h.quiet⟩
  | committed =>
    have none := h.quiet (h.committer p (.inr at_))
    refine ⟨A, h.leave (by simp [OpPc.Active]) (by simp [none]) h.count (.inl rfl) rfl
      (fun q hq => ?_) (by simp)⟩
    have same := h.unique q p (setPc_committer (by simp [OpPc.Committer]) hq) (.inr at_)
    subst same
    simp [OpState.setPc, OpPc.Committer] at hq

theorem end_op {p : ℕ} (at_ : s.pc p = .running) (calm : s.log.committing = false) :
    wp (if s.log.outstanding - 1 = 0 then
          set ((s.setPc p .committing).setLog { s.log with outstanding := 0, committing := true })
        else
          set ((s.setPc p .out).setLog { s.log with outstanding := s.log.outstanding - 1 }) :
        Prog OpState Halt PUnit)
      (fun _ s' => ∃ B, Reserve s' B) (fun e _ => e ≠ .panic "too big a transaction") s := by
  have mem : p ∈ A := by simp [h.active, at_, OpPc.Active]
  have card := Finset.card_erase_add_one mem
  have count := h.count
  have none (q : ℕ) : ¬ (s.pc q).Committer := fun hq => by
    simpa [calm] using h.committer q hq
  rw [wp_ite, wp_set, wp_set]
  refine ⟨fun last => ⟨∅, ?_⟩, fun more => ⟨A.erase p, ?_⟩⟩
  · have empty : A.erase p = ∅ := Finset.card_eq_zero.1 (by omega)
    refine h.leave (by simp [OpPc.Active]) empty.symm (by simp) (.inl rfl) rfl (fun q hq => ?_)
      (by simp)
    refine ⟨rfl, by_contra fun hp => none q ?_⟩
    simpa only [OpState.setPc, update_of_ne hp] using hq
  · refine h.leave (by simp [OpPc.Active]) rfl (by simp only; omega) (.inl rfl) rfl
      (fun q hq => ?_) (by simp [calm])
    exact absurd (setPc_committer (by simp [OpPc.Committer]) hq) (none q)

theorem step {e : OpEvent} (budget : s.WithinBudget e) (room : s.LeavesRoom e) :
    wp (OpState.step e) (fun _ s' => ∃ B, Reserve s' B)
      (fun e _ => e ≠ .panic "too big a transaction") s := by
  cases e with
  | begin_op p =>
    rw [OpState.step, wp_bind, wp_get, wp_ite, wp_set, wp_pure]
    refine ⟨fun enabled => ⟨insert p A, ?_⟩, fun _ => ⟨A, h⟩⟩
    exact h.begin_op enabled.1 enabled.2 (room enabled.2)
  | log_write p b =>
    rw [OpState.step, wp_bind, wp_get, wp_ite, wp_set, wp_pure]
    refine ⟨fun at_ => ⟨A, ?_⟩, fun _ => ⟨A, h⟩⟩
    refine h.setPc (by simp [at_, OpPc.Active]) (fun c hc => ?_) (by simp [OpPc.Committer])
    obtain rfl : b = c := Option.some.inj hc
    exact budget
  | next p =>
    rw [OpState.step, wp_bind, wp_get]
    exact h.next p
  | end_op p =>
    rw [OpState.step, wp_bind, wp_get, wp_ite, wp_ite, wp_throw, wp_pure]
    exact ⟨fun at_ => ⟨fun _ => by simp, fun calm => h.end_op at_ (by simpa using calm)⟩,
      fun _ => ⟨A, h⟩⟩

end Reserve

theorem reserve_init (start : ℕ) : Reserve (OpState.init start) ∅ where
  active p := by simp [OpState.init, OpPc.Active]
  count := rfl
  nonneg := le_rfl
  logged p hp := by simp at hp
  pending p b hb := by simp [OpState.init, OpPc.pending] at hb
  room := by simp [reserved, OpState.init, Log.init, nlog]
  size := rfl
  committer p hp := by simp [OpState.init, OpPc.Committer] at hp
  unique p q hp := by simp [OpState.init, OpPc.Committer] at hp
  quiet _ := rfl

/-- As long as every admission leaves a block to spare, no interleaving finds the log full. -/
theorem log_write_finds_room (start : ℕ) (es : List OpEvent)
    (budget : Along OpState.step OpState.WithinBudget es (OpState.init start))
    (room : Along OpState.step OpState.LeavesRoom es (OpState.init start)) :
    (exec (run OpState.step es) (OpState.init start)).1 ≠
      .error (.panic "too big a transaction") := by
  intro full
  have keep (s : OpState) (e : OpEvent) (h : ∃ A, Reserve s A)
      (ok : s.WithinBudget e ∧ s.LeavesRoom e) :
      wp (OpState.step e) (fun _ s' => ∃ B, Reserve s' B)
        (fun e _ => e ≠ .panic "too big a transaction") s :=
    h.elim fun _ h => h.step ok.1 ok.2
  exact wp_of_error ((budget.and room).wp_run keep ⟨∅, reserve_init start⟩) (exec_eq_of_error full) rfl

/-- A call of `log_write` of `p` for block `b`, run without interruption. -/
def wholeLogWrite (p b : ℕ) : List OpEvent :=
  [.log_write p b, .next p, .next p, .next p, .next p]

/-- Two operations at once, one of which writes its block twice. -/
theorem log_write_finds_room_two :
    (exec (run OpState.step ([.begin_op 0, .begin_op 1] ++ wholeLogWrite 0 100 ++
      wholeLogWrite 1 101 ++ wholeLogWrite 0 100 ++ [.end_op 0, .end_op 1, .next 1, .next 1]))
      (OpState.init 2)).1 ≠ .error (.panic "too big a transaction") :=
  log_write_finds_room 2 _ (by decide +kernel) (by decide +kernel)

/-- Three operations that log `MAXOPBLOCKS` blocks each. -/
def threeFullOps : List OpEvent :=
  [.begin_op 0, .begin_op 1, .begin_op 2] ++
    (List.range 30).flatMap fun i => wholeLogWrite (i / 10) (100 + i)

/-- No operation exceeds its budget, and the thirtieth block finds the log full. -/
theorem threeFullOps_panics :
    Along OpState.step OpState.WithinBudget threeFullOps (OpState.init 2) ∧
      (exec (run OpState.step threeFullOps) (OpState.init 2)).1 =
        .error (.panic "too big a transaction") := by
  decide +kernel

end Xv6
