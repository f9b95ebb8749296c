import Xv6.Proc.Ageing

/-!
# The queue entries that `ageing` follows

`ageing` clears `waittime` through an entry of the queue above, whether that entry is live or not,
and it counts `current_queue` down every time a process is due, although the process stays in its
queue.  `ageingWith` is `ageing` over a given way to follow a queue entry; with `liveEntry` it stops
where it would follow one that is not live.
-/

namespace Xv6

open Lib Function

variable {s : Kernel} {k : Level} {r : Rank} {p : Slot}

/-! ## One promotion -/

section

variable {deref : Level → ℕ → KM Slot} {s : Kernel}

theorem ageEntryWith_raises (reads : ReadsLive deref) {j : Fin 4} {w : Level × ℕ} {i : ℕ}
    {other : Slot} (sane : s.life.Sane) (filled : (s.queue j.castSucc).Filled)
    (entry : (s.queue j.succ).At i p) (late : Late s p)
    (current : (s.procs p).current_queue = j.succ.val) (above : (s.queue w.1).At w.2 other)
    (room : HasRoom (s.queue j.castSucc)) (away : ¬ (s.queue j.castSucc).Holds p) :
    wp (ageEntryWith deref j.succ j.castSucc w i)
      (fun _ s' => s' = (s.raise p other j.castSucc).setQueue j.castSucc
        (((s.queue j.castSucc).append p).removeAt ((s.queue j.castSucc).last + 1).toNat))
      never s := by
  have curq : (s.procs p).current_queue - 1 = j.castSucc.val := by
    rw [current, Fin.val_succ, Fin.val_castSucc]
    omega
  rw [ageEntryWith, wp_bind, wp_get]
  apply reads.wp entry
  rw [if_neg (not_not.2 late.1), if_neg late.2]
  apply reads.wp above
  simp only [wp_bind, modifyProc, wp_modify, curq, level_val]
  refine wp_mono (push_spec j.castSucc p) (fun _ s₁ pushed => ?_) fun _ _ full => full.2 room
  obtain ⟨-, hs₁⟩ := pushed
  -- the state after the push, by the names used so far
  have hs₁ : s₁ = (s.raise p other j.castSucc).setQueue j.castSucc
    ((s.queue j.castSucc).append p) := by
    rw [hs₁, Kernel.raise, ← curq]
    rfl
  have queue : s₁.queue j.castSucc = (s.queue j.castSucc).append p := by
    rw [hs₁]
    exact update_self ..
  have pid (q : Slot) : (s₁.procs q).pid = (s.procs q).pid := by
    rw [hs₁]
    exact pid_raise p other q j.castSucc
  have low := room.1
  have high := room.2
  have n : (((s.queue j.castSucc).last + 1).toNat : ℤ) = (s.queue j.castSucc).last + 1 := by omega
  have size : NPROC = 64 := rfl
  have own : (s₁.queue j.castSucc).At ((s.queue j.castSucc).last + 1).toNat p := by
    rw [queue, ArrayQueue.at_append low]
    exact .inr ⟨n, rfl⟩
  have others (i' : ℕ) (a : Slot) (ha : (s₁.queue j.castSucc).At i' a)
      (same : (s₁.procs a).pid = (s₁.procs p).pid) : i' = ((s.queue j.castSucc).last + 1).toNat := by
    rw [queue, ArrayQueue.at_append low] at ha
    rw [pid, pid] at same
    rcases ha with old | ⟨new, -⟩
    · -- an older entry with this pid would be one of the process itself
      have named : s.life.pid p ≠ 0 := sane.named p (by simp [Kernel.life, late.1])
      have eq : a = p := sane.pids a p same (by rwa [show s.life.pid a = s.life.pid p from same])
      exact absurd ⟨i', eq ▸ old⟩ away
    · omega
  rw [← pid p]
  apply wp_imp (rem_processWith_spec _ reads (by rw [queue]; exact filled.append p)
    fun i' j' a b ha hb ea eb => (others i' a ha ea).trans (others j' b hb eb).symm)
  rintro _ s₂ (⟨i', a, -, ha, same, rfl⟩ | ⟨none, -⟩)
  · rw [others i' a ha same, queue, hs₁]
    simp [Kernel.setQueue]
  · exact absurd rfl (none _ p (by omega) own)

end

/-! ## Levels -/

theorem clockperiod_pos : ∀ k : Level, 0 < clockperiod k := by decide

/-- `current_queue` is a level, and a time slice is used up at most at that level. -/
structure Rank.Ok (r : Rank) : Prop where
  range : 0 ≤ r.current_queue ∧ r.current_queue ≤ 4
  ripe : ∀ k : Level, k ≠ 4 → clockperiod k ≤ r.ticks k → r.current_queue = k.val

theorem Rank.Ok.new (priority : ℤ) : Rank.Ok ⟨0, fun _ => 0, priority⟩ where
  range := by simp
  ripe k _ used := absurd used (clockperiod_pos k).not_ge

theorem Rank.Ok.restart (h : r.Ok) (k : Level) :
    Rank.Ok { r with ticks := update r.ticks k 0 } where
  range := h.range
  ripe k' hk' used := by
    by_cases e : k' = k
    · subst e
      simp only [update_self] at used
      exact absurd used (clockperiod_pos k').not_ge
    · exact h.ripe k' hk' (by simpa only [update_of_ne e] using used)

theorem Rank.Ok.move {z : ℤ} (h : r.Ok) (range : 0 ≤ z ∧ z ≤ 4)
    (early : ∀ k' : Level, k' ≠ 4 → k' ≠ k → r.current_queue = k'.val → r.ticks k' < clockperiod k') :
    Rank.Ok { r with current_queue := z, ticks := update r.ticks k 0 } where
  range := range
  ripe k' hk' used := by
    by_cases e : k' = k
    · subst e
      simp only [update_self] at used
      exact absurd used (clockperiod_pos k').not_ge
    simp only [update_of_ne e] at used
    exact absurd used (early k' hk' e (h.ripe k' hk' used)).not_ge

theorem Rank.Ok.tick (h : r.Ok) (here : r.current_queue = k.val) :
    Rank.Ok { r with ticks := update r.ticks k (r.ticks k + 1) } where
  range := h.range
  ripe k' hk' used := by
    by_cases e : k' = k
    · rw [e]
      exact here
    · exact h.ripe k' hk' (by simpa only [update_of_ne e] using used)

def Ranked (s : Kernel) : Prop := ∀ p, (s.procs p).rank.Ok

namespace Ranked

variable {s s' : Kernel}

theorem same (h : Ranked s) (ranks : SameRanks s s') : Ranked s' := by
  intro p
  rw [ranks p]
  exact h p

theorem setProc {f : Proc → Proc} (h : Ranked s) (ok : (f (s.procs p)).rank.Ok) :
    Ranked (s.setProc p f) := by
  intro q
  simp only [Kernel.setProc, update_apply]
  split
  · exact ok
  · exact h q

theorem forkAlloc (h : Ranked s) (m : Slot) :
    wp (forkAlloc m) (fun _ => Ranked) (fun x _ => x ≠ .index) s := by
  simp only [Xv6.forkAlloc, allocproc, wp_bind, wp_get, modifyProc]
  split
  · exact h
  rename_i np _
  rw [wp_ite, wp_throw]
  refine ⟨fun _ => by simp, fun _ => ?_⟩
  simp only [wp_bind, wp_modify, wp_pure]
  refine wp_mono (push_spec 0 np) (fun _ s₁ pushed => ?_) fun x _ full => ?_
  · rw [pushed.2]
    have born := h.setProc (p := np) (f := fun q => { q with
      state := .EMBRYO, pid := s.nextpid, current_queue := 0, ticks := fun _ => 0, waittime := 5 })
      (Rank.Ok.new _)
    have done := born.setProc (p := m) (f := fun q => { q with pos := .forking np }) (born m)
    exact done
  · rw [full.1]
    decide

theorem forkStack (h : Ranked s) (m np : Slot) :
    wp (forkStack m np) (fun _ => Ranked) (fun x _ => x ≠ .index) s := by
  simp only [Xv6.forkStack, allocprocStack, modifyProc, wp_bind, wp_get, wp_modify]
  have ok : (s.procs np).rank.Ok := h np
  have set := h.setProc (p := np) (f := fun q => { q with
    resume := .forkret, trap := .none, ctime := s.ticks.toInt, etime := 0, rtime := 0, iotime := 0,
    num_r := 0, priority := if q.pid = 1 ∨ q.pid = 2 then 1 else 60 }) ⟨ok.range, ok.ripe⟩
  exact set.setProc (set m)

theorem countTick (h : Ranked s) (m : Slot) :
    wp (countTick m) (fun _ => Ranked) (fun x _ => x ≠ .index) s := by
  simp only [Xv6.countTick, wp_bind, wp_get]
  split <;> simp only [wp_bind, modifyProc, wp_modify, wp_pure]
  · exact h.setProc (h m)
  · have run : Ranked (s.setProc m fun q => { q with rtime := q.rtime + 1 }) := h.setProc (h m)
    obtain ⟨low, high⟩ := (h m).range
    split
    next none =>
      have bounds : 0 ≤ (s.procs m).current_queue ∧ (s.procs m).current_queue < 5 := by
        simp only [Proc.rank] at low high
        omega
      rw [level, dif_pos bounds] at none
      simp at none
    next k hk =>
      rw [wp_modify]
      refine run.setProc ((run m).tick ?_)
      simpa [Kernel.setProc, Proc.rank] using level_some hk
  · exact h

theorem demote {lower : Level} (hk : k ≠ 4) (h : Ranked s) (i : ℕ) (m : Slot) :
    wp (demote k lower i m) (fun _ => Ranked) (fun x _ => x ≠ .index) s := by
  simp only [Xv6.demote, modifyProc, wp_bind, wp_get, wp_ite, wp_pure, wp_modify]
  refine ⟨fun deletes => ⟨fun alive => ?_, fun _ => ?_⟩, fun _ => h⟩
  · have used := deletes.resolve_right (by simp [alive])
    have here : (s.procs m).current_queue = k.val := (h m).ripe k hk used
    refine wp_mono (push_spec lower m) (fun _ s₁ pushed => ?_) fun x _ full => ?_
    · -- the process was at level `k`, so no other slice is used up
      have top : k.val ≠ 4 := fun e => hk (Fin.ext e)
      have moved := Rank.Ok.move (k := k) (z := (s.procs m).current_queue + 1) (h m)
        (by rw [here]; omega) fun k' _ ne at_ => absurd (Fin.ext (by
          simp only [Proc.rank] at at_
          omega)) ne
      rw [pushed.2]
      intro q
      simp only [Kernel.setProc, Kernel.setQueue, update_apply]
      by_cases e : q = m
      · subst e
        simpa [Proc.rank] using moved
      · simpa [e] using h q
    · rw [full.1]
      decide
  · exact setProc (s := s.setQueue k _) h ((h m).restart k)

theorem afterSwtch (h : Ranked s) (at_ : Place) (m : Slot) :
    wp (afterSwtch at_ m) (fun _ => Ranked) (fun x _ => x ≠ .index) s := by
  match at_ with
  | .queue 0 i => exact h.demote (k := 0) (by decide) i m
  | .queue 1 i => exact h.demote (k := 1) (by decide) i m
  | .queue 2 i => exact h.demote (k := 2) (by decide) i m
  | .queue 3 i => exact h.demote (k := 3) (by decide) i m
  | .queue 4 i =>
    simp only [Xv6.afterSwtch, requeue, store, wp_bind, wp_get, wp_modify, wp_ite, wp_pure, wp_set,
      wp_throw]
    exact ⟨fun _ => h, fun _ => ⟨fun _ => h, fun _ => by decide⟩⟩
  | .table _ => exact h

end Ranked

/-! ## A whole call -/

/-- The entry through which `ageing` clears `waittime` when it promotes index `i` of a queue. -/
def cleared (j : Fin 4) (i : ℕ) : Level × ℕ := if j = 0 then (1, 0) else (j.castSucc, i)

/-- Process `p` stands in its queue `j + 1`, has not used up its slice, and has a live entry at its
index in the queue above; for queue 1 any index will do. -/
def DuePlace (s : Kernel) (j : Fin 4) (i : ℕ) (p : Slot) : Prop :=
  (s.procs p).current_queue = j.succ.val ∧
    (j.succ ≠ 4 → (s.procs p).ticks j.succ < clockperiod j.succ) ∧
    (j ≠ 0 → (i : ℤ) ≤ (s.queue j.castSucc).last)
  deriving Decidable

structure AgesSafely (s : Kernel) : Prop where
  tidy : Tidy s
  due : ∀ (j : Fin 4) i p, (s.queue j.succ).At i p → Late s p → DuePlace s j i p

/-- `ageing`, called in state `s₀`, has come to index `i` of the queue `j + 1`. -/
structure Passing (s₀ : Kernel) (j : Fin 4) (i : ℕ) (s : Kernel) : Prop where
  life : s.life = s₀.life
  ticks : s.ticks = s₀.ticks
  queue : ∀ k, (s.queue k).SameLive (s₀.queue k)
  ahead : ∀ (j' : Fin 4) i' p, j < j' ∨ j' = j ∧ i ≤ i' → (s₀.queue j'.succ).At i' p →
    s.procs p = s₀.procs p
  ranks : Ranked s

section

variable {s : Kernel}

theorem procs_raise {other q : Slot} (l : Level) (ne : q ≠ p) (ne' : q ≠ other) :
    (s.raise p other l).procs q = s.procs q := by
  simp only [Kernel.raise, Kernel.setProc, update_of_ne ne, update_of_ne ne']

theorem rank_raise (p other q : Slot) (l : Level) : ((s.raise p other l).procs q).rank =
    if q = p then
      { (s.procs p).rank with
        current_queue := (s.procs p).current_queue - 1
        ticks := update (s.procs p).ticks l 0 }
    else (s.procs q).rank := by
  simp only [Kernel.raise, Kernel.setProc, update_apply]
  by_cases e : q = p
  · by_cases e' : p = other <;> simp [e, e', Proc.rank]
  by_cases e' : q = other
  · subst e'
    simp [e, Proc.rank]
  · simp only [if_neg e, if_neg e']

end

namespace Passing

variable {deref : Level → ℕ → KM Slot} {s₀ s : Kernel} {j : Fin 4} {i : ℕ}

theorem start (ranks : Ranked s₀) : Passing s₀ 0 0 s₀ :=
  ⟨rfl, rfl, fun _ => .refl _, fun _ _ _ _ _ => rfl, ranks⟩

theorem skip (h : Passing s₀ j i s) : Passing s₀ j (i + 1) s where
  life := h.life
  ticks := h.ticks
  queue := h.queue
  ahead j' i' p later := h.ahead j' i' p (later.imp_right fun same => ⟨same.1, by omega⟩)
  ranks := h.ranks

theorem next (h : Passing s₀ j i s) (j' : Fin 4) (lt : j < j') : Passing s₀ j' 0 s where
  life := h.life
  ticks := h.ticks
  queue := h.queue
  ahead j'' i' p later := h.ahead j'' i' p (.inl (later.elim lt.trans fun same => same.1 ▸ lt))
  ranks := h.ranks

theorem late_iff (h : Passing s₀ j i s) (same : s.procs p = s₀.procs p) : Late s p ↔ Late s₀ p := by
  rw [Late, Late, same, h.ticks]

theorem cleared_at (safe : AgesSafely s₀) (entry : (s₀.queue j.succ).At i p) (late : Late s₀ p) :
    ∃ other, (s₀.queue (cleared j i).1).At (cleared j i).2 other ∧
      ∀ (j' : Fin 4) i', j < j' ∨ j' = j ∧ i + 1 ≤ i' → ¬ (s₀.queue j'.succ).At i' other := by
  have live : (((cleared j i).2 : ℕ) : ℤ) ≤ (s₀.queue (cleared j i).1).last := by
    have le := entry.1
    unfold cleared
    split
    next first =>
      subst first
      exact (Int.natCast_nonneg i).trans le
    next ne => exact (safe.due j i p entry late).2.2 ne
  obtain ⟨other, here⟩ := safe.tidy.filled _ _ live
  refine ⟨other, ⟨live, here⟩, fun j' i' later there => ?_⟩
  obtain ⟨level, index⟩ := safe.tidy.single other _ _ _ _ ⟨live, here⟩ there
  have val := congrArg Fin.val level
  unfold cleared at val index
  split at val
  next first =>
    rw [if_pos first] at index
    simp only [Fin.val_one, Fin.val_succ] at val
    rcases later with lt | ⟨rfl, le⟩
    · have := Fin.lt_def.1 lt
      omega
    dsimp only at index
    omega
  · simp only [Fin.val_castSucc, Fin.val_succ] at val
    rcases later with lt | ⟨rfl, -⟩
    · have := Fin.lt_def.1 lt
      omega
    · omega

theorem entry (reads : ReadsLive deref) (safe : AgesSafely s₀) (sane : s₀.life.Sane)
    (h : Passing s₀ j i s) (live : (i : ℤ) ≤ (s.queue j.succ).last) :
    wp (ageEntryWith deref j.succ j.castSucc (cleared j i) i) (fun _ => Passing s₀ j (i + 1))
      never s := by
  have filled (k : Level) : (s.queue k).Filled := (h.queue k).filled (safe.tidy.filled k)
  obtain ⟨p, hp⟩ := filled j.succ i live
  have here : (s.queue j.succ).At i p := ⟨live, hp⟩
  have here₀ := ((h.queue _).at_iff i p).1 here
  have same := h.ahead j i p (.inr ⟨rfl, le_rfl⟩) here₀
  by_cases late : Late s p
  · have late₀ := (h.late_iff same).1 late
    obtain ⟨current, early, -⟩ := safe.due j i p here₀ late₀
    obtain ⟨other, above, past⟩ := cleared_at safe here₀ late₀
    have away₀ : ¬ (s₀.queue j.castSucc).Holds p := fun ⟨i', there⟩ =>
      absurd (safe.tidy.single p _ _ _ _ there here₀).1 (Fin.castSucc_lt_succ (i := j)).ne
    have room : HasRoom (s.queue j.castSucc) := by
      have := safe.tidy.once.hasRoom away₀
      rwa [HasRoom, ← (h.queue _).last] at this
    have away : ¬ (s.queue j.castSucc).Holds p := fun holds =>
      away₀ (((h.queue _).holds_iff p).1 holds)
    apply wp_imp (ageEntryWith_raises reads (h.life ▸ sane) (filled _) here late (same ▸ current)
      (((h.queue _).at_iff _ other).2 above) room away)
    rintro _ s' rfl
    refine ⟨(life_raise p other _).trans h.life, h.ticks, fun k => ?_, fun j' i' q later there => ?_,
      fun q => ?_⟩
    · simp only [Kernel.setQueue, update_apply]
      split
      next e =>
        rw [e]
        exact (ArrayQueue.sameLive_append_removeAt room.1 p).trans (h.queue _)
      · exact h.queue k
    · have ne : q ≠ p := by
        rintro rfl
        obtain ⟨level, index⟩ := safe.tidy.single q _ _ _ _ there here₀
        have := Fin.succ_injective _ level
        rcases later with lt | ⟨-, le⟩
        · exact absurd this lt.ne'
        · omega
      have ne' : q ≠ other := by
        rintro rfl
        exact past j' i' later there
      exact (procs_raise _ ne ne').trans
        (h.ahead j' i' q (later.imp_right fun same => ⟨same.1, by omega⟩) there)
    show ((s.raise p other j.castSucc).procs q).rank.Ok
    rw [rank_raise]
    split
    next e =>
      subst e
      have range := (h.ranks q).range
      have current' : (s.procs q).current_queue = j.succ.val := same ▸ current
      rw [Fin.val_succ] at current'
      refine (h.ranks q).move ⟨by omega, ?_⟩ fun k' hk' _ at_ => ?_
      · simp only [Proc.rank] at range
        omega
      have level : k' = j.succ := Fin.ext (by
        simp only [Proc.rank] at at_
        rw [Fin.val_succ]
        omega)
      rw [level] at hk' ⊢
      simp only [Proc.rank, same]
      exact early hk'
    · exact h.ranks q
  · apply wp_imp (ageEntryWith_idle reads here late)
    rintro _ s' rfl
    exact h.skip

theorem queueLoop (reads : ReadsLive deref) (safe : AgesSafely s₀) (sane : s₀.life.Sane)
    {lower : Level} {w : ℕ → Level × ℕ} (h : Passing s₀ j 0 s) (hk : j.succ = k)
    (hlower : j.castSucc = lower) (hw : cleared j = w) :
    wp (ageQueueWith deref k lower w) (fun _ => Passing s₀ j NPROC) never s := by
  subst hk hlower hw
  apply wp_forRange (I := fun i => Passing s₀ j i) _ (Nat.zero_le _) h
  intro i s₁ _ h₁
  rw [wp_bind, wp_get, wp_ite, wp_pure]
  exact ⟨fun live => h₁.entry reads safe sane (by omega), fun _ => h₁.skip⟩

end Passing

theorem AgesSafely.ageingWith {deref : Level → ℕ → KM Slot} (safe : AgesSafely s)
    (reads : ReadsLive deref) (sane : s.life.Sane) (ranks : Ranked s) :
    wp (ageingWith deref) (fun _ => Ranked) never s := by
  simp only [Xv6.ageingWith, wp_bind]
  refine wp_imp ((Passing.start ranks).queueLoop reads safe sane rfl rfl rfl) fun _ s₁ h₁ => ?_
  refine wp_imp ((h₁.next 1 (by decide)).queueLoop reads safe sane rfl rfl rfl) fun _ s₂ h₂ => ?_
  refine wp_imp ((h₂.next 2 (by decide)).queueLoop reads safe sane rfl rfl rfl) fun _ s₃ h₃ => ?_
  exact wp_imp ((h₃.next 3 (by decide)).queueLoop reads safe sane rfl rfl rfl) fun _ _ h => h.ranks

/-! ## Every run -/

/-- The scheduler calls `ageing` only where that is safe. -/
def SafeAgeing (s : Kernel) (e : Event) : Prop := Ages s e → AgesSafely s

theorem AgesSafely.setLock (h : AgesSafely s) (l : Option ℕ) : AgesSafely (s.setLock l) :=
  ⟨h.tidy.congr rfl, h.due⟩

theorem Ranked.step {e : Event} (h : Ranked s) (sane : s.life.Sane) (safe : SafeAgeing s e) :
    wp (step .MLFQ e) (fun _ => Ranked) (fun x _ => x ≠ .index) s := by
  apply step_ranks .MLFQ e h (fun _ _ ne => ne) (fun _ _ h ranks => h.same ranks)
    (fun m _ h => h.forkAlloc m) (fun m np _ h => h.forkStack m np) (fun m _ h => h.countTick m)
    _ fun at_ m _ h => h.afterSwtch at_ m
  intro c he top free _
  have safe := (safe (he ▸ ⟨top, free⟩)).setLock (some c)
  rw [← ageingWith_entry]
  exact wp_mono (safe.ageingWith readsLive_entry sane h) (fun _ _ h => h) fun _ _ no => no.elim

theorem Ranked.boot : Ranked Kernel.boot := by
  have table : ∀ p, (Kernel.boot.procs p).current_queue = 0 ∧
      ∀ k, (Kernel.boot.procs p).ticks k = 0 := by decide +kernel
  intro p
  obtain ⟨current, ticks⟩ := table p
  have ticks : (Kernel.boot.procs p).ticks = fun _ => 0 := funext ticks
  rw [Proc.rank, current, ticks]
  exact Rank.Ok.new _

/-- From state `s`, `ageing` follows live queue entries only, and leaves every `current_queue` a
level. -/
def FollowsLive (s : Kernel) : Prop :=
  wp (ageingWith liveEntry)
    (fun _ s' => ∀ p, 0 ≤ (s'.procs p).current_queue ∧ (s'.procs p).current_queue ≤ 4)
    (fun _ _ => False) s

/-- Where `ageing` is called safely, no index of `ticks` is out of bounds, `current_queue` stays
within 0 to 4, and `ageing` follows live entries only. -/
theorem follows_live_slots (es : List Event) (safe : Along (step .MLFQ) SafeAgeing es Kernel.boot) :
    wp (run (step .MLFQ) es)
      (fun _ s => (∀ p, 0 ≤ (s.procs p).current_queue ∧ (s.procs p).current_queue ≤ 4) ∧
        ∀ t : Word, AgesSafely { s with ticks := t } → FollowsLive { s with ticks := t })
      (fun x _ => x ≠ .index) Kernel.boot := by
  have keep (s : Kernel) (e : Event) (h : Seated s.view ∧ Ranked s) (safe : SafeAgeing s e) :
      wp (step .MLFQ e) (fun _ s' => Seated s'.view ∧ Ranked s') (fun x _ => x ≠ .index) s :=
    wp_mono (wp_and (h.1.step .MLFQ e) (h.2.step h.1.sane safe)) (fun _ _ h => h) fun _ _ h => h.2
  apply wp_imp (safe.wp_run keep ⟨Seated.boot, Ranked.boot⟩)
  rintro _ s ⟨seated, ranks⟩
  refine ⟨fun p => (ranks p).range, fun t safe => ?_⟩
  exact wp_imp (safe.ageingWith readsLive_liveEntry seated.sane ranks) fun _ _ ranks' p =>
    (ranks' p).range

def Kernel.liveIndices (s : Kernel) (k : Level) : List ℕ := List.range ((s.queue k).last + 1).toNat

theorem mem_liveIndices {s : Kernel} {k : Level} {i : ℕ} :
    i ∈ s.liveIndices k ↔ (i : ℤ) ≤ (s.queue k).last := by
  rw [Kernel.liveIndices, List.mem_range]
  omega

/-- `AgesSafely` over the live indices only. -/
def Kernel.ChecksAgeing (s : Kernel) : Prop :=
  (∀ k, -1 ≤ (s.queue k).last) ∧ (∀ k, ∀ i ∈ s.liveIndices k, (s.queue k).slot i ≠ none) ∧
    (∀ k k', ∀ i ∈ s.liveIndices k, ∀ i' ∈ s.liveIndices k',
      (s.queue k).slot i = (s.queue k').slot i' → k = k' ∧ i = i') ∧
    ∀ j : Fin 4, ∀ i ∈ s.liveIndices j.succ, ∀ p, (s.queue j.succ).At i p → Late s p →
      DuePlace s j i p
  deriving Decidable

theorem Kernel.ChecksAgeing.agesSafely {s : Kernel} (h : s.ChecksAgeing) : AgesSafely s := by
  obtain ⟨low, filled, single, due⟩ := h
  simp only [mem_liveIndices] at filled single due
  refine ⟨⟨low, fun k i live => ?_, fun p k i k' i' here there => ?_⟩, fun j i p here => ?_⟩
  · exact Option.ne_none_iff_exists'.1 (filled k i live)
  · exact single k k' i here.1 i' there.1 (here.2.trans there.2.symm)
  · exact due j i here.1 p here

/-- The scheduler finds a process, which computes until the clock ticks. -/
def slice (waits : ℕ) : Bool → List Event
  | false => List.replicate waits (.schedule 0) ++ [.resume 0, .timer 0, .trapNext 0, .trapNext 0]
  | true => List.replicate waits (.schedule 0) ++ [.resume 0, .trapNext 0, .timer 0, .trapNext 0,
      .trapNext 0]

/-- The first process forks four times, and then it and its children only compute. -/
def fiveComputing : List Event :=
  forks ++ slices.flatMap (fun t => slice t.1 t.2) ++ List.replicate 5 (.schedule 0)
where
  forks : List Event := [.schedule 0, .schedule 0, .resume 0, .fork 0, .forkStack 0, .forkDone 0,
    .fork 0, .forkStack 0, .forkDone 0, .fork 0, .forkStack 0, .forkDone 0, .fork 0, .forkStack 0,
    .forkDone 0, .timer 0, .trapNext 0, .trapNext 0]
  slices : List (ℕ × Bool) := [(2, false), (2, false), (3, true), (2, true), (2, true), (7, false),
    (3, true), (2, true), (3, true), (2, true), (6, false), (3, true), (2, true), (2, true), (3, true),
    (2, true)]

section

attribute [local irreducible] wp

/-- The first process that is due in this run is moved up safely. -/
theorem follows_live_slots_due :
    Due (exec (run (step .MLFQ) (fiveComputing.take 97)) Kernel.boot).2 1 2 ∧
    wp (run (step .MLFQ) (fiveComputing.take 98))
      (fun _ s => (∀ p, 0 ≤ (s.procs p).current_queue ∧ (s.procs p).current_queue ≤ 4) ∧
        ∀ t : Word, AgesSafely { s with ticks := t } → FollowsLive { s with ticks := t })
      (fun x _ => x ≠ .index) Kernel.boot := by
  have checked : Along (step .MLFQ) (fun s e => Ages s e → s.ChecksAgeing) (fiveComputing.take 98)
      Kernel.boot := by decide +kernel
  have safe : Along (step .MLFQ) SafeAgeing (fiveComputing.take 98) Kernel.boot :=
    checked.of_inv (I := fun _ => True) (fun s e _ _ => wp_any _ s)
      (fun s e _ check ages => (check ages).agesSafely) trivial
  exact ⟨by decide +kernel, follows_live_slots _ safe⟩

end

/-- A process that was promoted before is promoted once more, to level -1. -/
theorem fiveComputing_below_zero :
    (exec (run (step .MLFQ) fiveComputing) Kernel.boot).1 = .error .index ∧
      ∃ p, ((exec (run (step .MLFQ) fiveComputing) Kernel.boot).2.procs p).current_queue = -1 := by
  decide +kernel

end Xv6
