import Xv6.Lib.Hoare

/-!
# Threads over a shared state

A program that runs beside others is the sequence of its atomic actions: each waits until it is
ready, changes the shared state, and goes on with a rest that may depend on what it saw.

What a thread knows is a ghost value.  The invariant `Inv G s` relates the ghosts of all threads to
the state; `Safe` says that a thread's code keeps it at every action, changing no ghost but its own,
whatever the other threads do in between.  `ok s s'` restricts the runs a proof is about.
-/

namespace Xv6.Lib

open Function

/-- A program as its atomic actions on a shared state `σ`; it may stop for good with an `ε`. -/
inductive Code (σ ε α : Type) where
  | ret (a : α)
  | stop (e : ε)
  | act (ready : σ → Bool) (next : σ → σ) (rest : σ → Code σ ε α)

namespace Code

variable {σ ε α β : Type}

protected def bind : Code σ ε α → (α → Code σ ε β) → Code σ ε β
  | ret a, k => k a
  | stop e, _ => stop e
  | act ready next rest, k => act ready next fun s => (rest s).bind k

instance : Monad (Code σ ε) where
  pure := ret
  bind := Code.bind

def read (f : σ → α) : Code σ ε α := act (fun _ => true) id fun s => ret (f s)

/-- Wait until `ready`, then change the shared state in the same action. -/
def await (ready : σ → Bool) (f : σ → σ) : Code σ ε Unit := act ready f fun _ => ret ()

def change (f : σ → σ) : Code σ ε Unit := await (fun _ => true) f

/-- Run a program without interruption. -/
def atomically (m : Prog σ ε α) : Code σ ε α :=
  act (fun _ => true) (fun s => (exec m s).2) fun s =>
    match (exec m s).1 with
    | .ok a => ret a
    | .error e => stop e

def forCount : ℕ → ℕ → (ℕ → Code σ ε Unit) → Code σ ε Unit
  | 0, _, _ => pure ()
  | n + 1, i, body => do
      body i
      forCount n (i + 1) body

def done : Code σ ε α → Bool
  | ret _ => true
  | _ => false

end Code

/-! ## A program by itself -/

section Alone

variable {σ ε α β : Type}

/-- Run a program with no other thread at work; `none` is that it waits for ever. -/
def Code.alone : Code σ ε α → Prog σ (Option ε) α
  | .ret a => pure a
  | .stop e => throw (some e)
  | .act ready next rest => do
      let s ← get
      if ready s then do
        set (next s)
        (rest s).alone
      else throw none

variable {Q : α → σ → Prop} {E : Option ε → σ → Prop} {s : σ}

@[simp] theorem wp_alone_pure {a : α} : wp (pure a : Code σ ε α).alone Q E s ↔ Q a s := Iff.rfl

theorem wp_alone_act {ready : σ → Bool} {next : σ → σ} {rest : σ → Code σ ε α} :
    wp (Code.act ready next rest).alone Q E s ↔
      if ready s then wp (rest s).alone Q E (next s) else E none s := by
  rw [Code.alone, wp_bind, wp_get]
  split <;> simp

@[simp] theorem wp_alone_bind {k : α → Code σ ε β} {Q : β → σ → Prop} :
    ∀ {c : Code σ ε α} {s : σ}, wp (c >>= k).alone Q E s ↔
      wp c.alone (fun a s' => wp (k a).alone Q E s') E s
  | .ret _, _ => Iff.rfl
  | .stop _, _ => Iff.rfl
  | .act ready next rest, s => by
      show wp (Code.act ready next fun s => rest s >>= k).alone Q E s ↔ _
      rw [wp_alone_act, wp_alone_act]
      split
      · exact wp_alone_bind
      · rfl

@[simp] theorem wp_alone_map {f : α → β} {Q : β → σ → Prop} {c : Code σ ε α} :
    wp (f <$> c).alone Q E s ↔ wp c.alone (fun a => Q (f a)) E s :=
  wp_alone_bind

@[simp] theorem wp_alone_read {f : σ → α} :
    wp (Code.read f : Code σ ε α).alone Q E s ↔ Q (f s) s := Iff.rfl

@[simp] theorem wp_alone_change {f : σ → σ} {Q : Unit → σ → Prop} :
    wp (Code.change f : Code σ ε Unit).alone Q E s ↔ Q () (f s) := Iff.rfl

theorem wp_alone_await {ready : σ → Bool} {f : σ → σ} {Q : Unit → σ → Prop}
    (go : ready s = true) : wp (Code.await ready f : Code σ ε Unit).alone Q E s ↔ Q () (f s) := by
  rw [Code.await, wp_alone_act, if_pos go]
  rfl

@[simp] theorem wp_alone_atomically {m : Prog σ ε α} :
    wp (Code.atomically m).alone Q E s ↔ wp m Q (fun e => E (some e)) s := by
  rw [Code.atomically, wp_alone_act, if_pos rfl]
  unfold wp
  rcases exec m s with ⟨_ | _, _⟩ <;> rfl

theorem wp_alone_ite {c : Prop} [Decidable c] {x y : Code σ ε α} :
    wp (if c then x else y).alone Q E s ↔
      (c → wp x.alone Q E s) ∧ (¬ c → wp y.alone Q E s) := by
  by_cases h : c <;> simp [h]

/-! Comparing a program with another one takes the outcome of a run as a statement. -/

/-- By itself the program returns `a` and leaves the state `s'`. -/
def Code.Does (c : Code σ ε α) (s : σ) (a : α) (s' : σ) : Prop :=
  wp c.alone (fun b s₁ => b = a ∧ s₁ = s') (fun _ _ => False) s

/-- By itself the program does not return. -/
def Code.Fails (c : Code σ ε α) (s : σ) : Prop :=
  wp c.alone (fun _ _ => False) (fun _ _ => True) s

namespace Code

variable {c : Code σ ε α} {k : α → Code σ ε β} {s₁ s₂ : σ} {a : α} {b : β}

theorem Does.bind (first : c.Does s a s₁) (rest : (k a).Does s₁ b s₂) : (c >>= k).Does s b s₂ := by
  rw [Does, wp_alone_bind]
  refine wp_total first ?_
  rintro _ _ ⟨rfl, rfl⟩
  exact rest

theorem Does.fails (first : c.Does s a s₁) (rest : (k a).Fails s₁) : (c >>= k).Fails s := by
  rw [Fails, wp_alone_bind]
  refine wp_total first ?_
  rintro _ _ ⟨rfl, rfl⟩
  exact rest

theorem Fails.bind (first : c.Fails s) : (c >>= k).Fails s := by
  rw [Fails, wp_alone_bind]
  exact wp_mono first (fun _ _ => False.elim) fun _ _ _ => trivial

theorem Does.of_wp (run : c.Does s a s₁) (spec : wp c.alone Q E s) : Q a s₁ := by
  obtain ⟨_, _, ended, rfl, rfl⟩ := exists_ok_of_wp run
  exact wp_of_ok spec ended

theorem Fails.of_wp (run : c.Fails s) (spec : wp c.alone Q E s) : ∃ e s', E e s' := by
  by_contra none
  simp only [not_exists] at none
  exact wp_false (wp_mono (wp_and run spec) (fun _ _ both => both.1) fun e s' both => none e s' both.2)

end Code

end Alone

/-! ## What a thread may rely on -/

section Safe

variable {σ ε α β Γ T : Type} [DecidableEq T] (Inv : (T → Γ) → σ → Prop) (ok guar : σ → σ → Prop)
  (E : ε → Prop) (t : T)

/-- Thread `t` keeps `Inv`, changes what `guar` allows, stops as `E` allows, and returns with `Q`.
-/
def Safe : Code σ ε α → (α → Γ → Prop) → Γ → Prop
  | .ret a, Q, g => Q a g
  | .stop e, _, _ => E e
  | .act ready next rest, Q, g => ∀ s G, Inv G s → G t = g → ready s = true → ok s (next s) →
      guar s (next s) ∧
        ∃ g', Inv (update G t g') (next s) ∧ Safe (rest s) Q g'

variable {Inv ok guar E t} {g : Γ} {Q : α → Γ → Prop} {f : σ → σ} {c : Code σ ε α}

theorem safe_pure {a : α} (h : Q a g) :
    Safe Inv ok guar E t (pure a : Code σ ε α) Q g := h

theorem safe_bind {k : α → Code σ ε β} {Q : β → Γ → Prop} :
    ∀ {c : Code σ ε α} {g : Γ}, Safe Inv ok guar E t c (fun a => Safe Inv ok guar E t (k a) Q) g →
      Safe Inv ok guar E t (c >>= k) Q g
  | .ret _, _, h => h
  | .stop _, _, h => h
  | .act _ _ rest, _, h => fun s G inv here ready fits => by
      obtain ⟨allowed, g', inv', tail⟩ := h s G inv here ready fits
      exact ⟨allowed, g', inv', safe_bind tail⟩

theorem safe_mono {Q' : α → Γ → Prop} (weaken : ∀ a g, Q a g → Q' a g) :
    ∀ {c : Code σ ε α} {g : Γ}, Safe Inv ok guar E t c Q g → Safe Inv ok guar E t c Q' g
  | .ret _, _, h => weaken _ _ h
  | .stop _, _, h => h
  | .act _ _ _, _, h => fun s G inv here ready fits => by
      obtain ⟨allowed, g', inv', tail⟩ := h s G inv here ready fits
      exact ⟨allowed, g', inv', safe_mono weaken tail⟩

theorem safe_seq {c : Code σ ε α} {k : α → Code σ ε β} {Q' : β → Γ → Prop}
    (next : ∀ a g', Q a g' → Safe Inv ok guar E t (k a) Q' g') (h : Safe Inv ok guar E t c Q g) :
    Safe Inv ok guar E t (c >>= k) Q' g :=
  safe_bind (safe_mono next h)

theorem safe_ite {c : Prop} [Decidable c] {x y : Code σ ε α} (yes : c → Safe Inv ok guar E t x Q g)
    (no : ¬ c → Safe Inv ok guar E t y Q g) : Safe Inv ok guar E t (if c then x else y) Q g := by
  by_cases h : c
  · rw [if_pos h]
    exact yes h
  rw [if_neg h]
  exact no h

theorem safe_look {f : σ → α}
    (h : ∀ s G, Inv G s → G t = g → guar s s ∧ ∃ g', Inv (update G t g') s ∧ Q (f s) g') :
    Safe Inv ok guar E t (Code.read f : Code σ ε α) Q g :=
  fun s G inv here _ _ => h s G inv here

theorem safe_read {f : σ → α} (still : ∀ s, guar s s) (h : ∀ s G, Inv G s → G t = g → Q (f s) g) :
    Safe Inv ok guar E t (Code.read f : Code σ ε α) Q g := by
  refine safe_look fun s G inv here => ⟨still s, g, ?_, h s G inv here⟩
  rw [← here, update_eq_self]
  exact inv

/-! Each rule for a change comes in two forms; the first also says that the change is `ok`. -/

theorem safe_await_if {ready : σ → Bool} {Q : Unit → Γ → Prop}
    (h : ∀ s G, Inv G s → G t = g → ready s = true → ok s (f s) →
      guar s (f s) ∧ ∃ g', Inv (update G t g') (f s) ∧ Q () g') :
    Safe Inv ok guar E t (Code.await ready f : Code σ ε Unit) Q g := h

theorem safe_await {ready : σ → Bool} {Q : Unit → Γ → Prop}
    (h : ∀ s G, Inv G s → G t = g → ready s = true →
      guar s (f s) ∧ ∃ g', Inv (update G t g') (f s) ∧ Q () g') :
    Safe Inv ok guar E t (Code.await ready f : Code σ ε Unit) Q g :=
  safe_await_if fun s G inv here ready _ => h s G inv here ready

theorem safe_change_if {Q : Unit → Γ → Prop}
    (h : ∀ s G, Inv G s → G t = g → ok s (f s) →
      guar s (f s) ∧ ∃ g', Inv (update G t g') (f s) ∧ Q () g') :
    Safe Inv ok guar E t (Code.change f : Code σ ε Unit) Q g :=
  safe_await_if fun s G inv here _ => h s G inv here

theorem safe_change {Q : Unit → Γ → Prop}
    (h : ∀ s G, Inv G s → G t = g → guar s (f s) ∧ ∃ g', Inv (update G t g') (f s) ∧ Q () g') :
    Safe Inv ok guar E t (Code.change f : Code σ ε Unit) Q g :=
  safe_change_if fun s G inv here _ => h s G inv here

theorem safe_atomically_if {m : Prog σ ε α}
    (h : ∀ s G, Inv G s → G t = g →
      wp m (fun a s' => ok s s' → guar s s' ∧ ∃ g', Inv (update G t g') s' ∧ Q a g')
        (fun e s' => ok s s' → guar s s' ∧ E e ∧ ∃ g', Inv (update G t g') s') s) :
    Safe Inv ok guar E t (Code.atomically m) Q g := by
  intro s G inv here _ fits
  have ends := h s G inv here
  unfold wp at ends
  split at ends <;> rename_i out
  · simp only [out] at fits ⊢
    exact ends fits
  simp only [out] at fits ⊢
  obtain ⟨allowed, stops, g', inv'⟩ := ends fits
  exact ⟨allowed, g', inv', stops⟩

theorem safe_atomically {m : Prog σ ε α}
    (h : ∀ s G, Inv G s → G t = g →
      wp m (fun a s' => guar s s' ∧ ∃ g', Inv (update G t g') s' ∧ Q a g')
        (fun e s' => guar s s' ∧ E e ∧ ∃ g', Inv (update G t g') s') s) :
    Safe Inv ok guar E t (Code.atomically m) Q g :=
  safe_atomically_if fun s G inv here =>
    wp_mono (h s G inv here) (fun _ _ done _ => done) fun _ _ stops _ => stops

theorem safe_forCount {body : ℕ → Code σ ε Unit} {I : ℕ → Γ → Prop} {m : ℕ}
    (keep : ∀ i g, i < m → I i g → Safe Inv ok guar E t (body i) (fun _ => I (i + 1)) g) :
    ∀ {n i : ℕ} {g : Γ}, i + n = m → I i g →
      Safe Inv ok guar E t (Code.forCount n i body) (fun _ => I m) g
  | 0, i, g, last, h => by
      rw [Nat.add_zero] at last
      subst last
      exact safe_pure h
  | n + 1, i, g, last, h => by
      refine safe_bind (safe_mono (fun _ g' h' => ?_) (keep i g (by omega) h))
      exact safe_forCount keep (by omega) h'

end Safe

/-! ## Pools of threads -/

/-- A thread takes up an operation, or takes the next action of the one it is at. -/
inductive Sched (T ι : Type) where
  | start (t : T) (op : ι)
  | step (t : T)

/-- The shared state, the operation each thread took up last, and what is left of it. -/
structure Pool (T ι σ ε : Type) where
  shared : σ
  doing : T → Option ι
  code : T → Code σ ε Unit

namespace Pool

variable {σ ε Γ T ι : Type} [DecidableEq T]

def idle (s : σ) : Pool T ι σ ε where
  shared := s
  doing := fun _ => none
  code := fun _ => .ret ()

/-- One scheduling decision; an action that is not ready leaves everything as it is. -/
def sched (prog : T → ι → Code σ ε Unit) (M : Pool T ι σ ε) :
    Sched T ι → Pool T ι σ ε
  | .start t op =>
      if (M.code t).done then
        { M with
          doing := update M.doing t (some op)
          code := update M.code t (prog t op) }
      else M
  | .step t =>
      match M.code t with
      | .act ready next rest =>
          if ready M.shared then
            { M with
              shared := next M.shared
              code := update M.code t (rest M.shared) }
          else M
      | _ => M

def run (prog : T → ι → Code σ ε Unit) (M : Pool T ι σ ε) (es : List (Sched T ι)) : Pool T ι σ ε :=
  es.foldl (sched prog) M

def Quiet (M : Pool T ι σ ε) : Prop := ∀ t, (M.code t).done = true

/-- Every change of the run is one that `ok` allows. -/
def Along (prog : T → ι → Code σ ε Unit) (ok : σ → σ → Prop) :
    List (Sched T ι) → Pool T ι σ ε → Prop
  | [], _ => True
  | e :: es, M => ok M.shared (M.sched prog e).shared ∧ Along prog ok es (M.sched prog e)

theorem along_of_forall {prog : T → ι → Code σ ε Unit} {ok : σ → σ → Prop} (h : ∀ s s', ok s s') :
    ∀ (es : List (Sched T ι)) (M : Pool T ι σ ε), Along prog ok es M
  | [], _ => trivial
  | _ :: es, _ => ⟨h _ _, along_of_forall h es _⟩

variable {Inv : (T → Γ) → σ → Prop} {ok : σ → σ → Prop} {guar : ι → σ → σ → Prop} {E : ε → Prop}
  {rest : Γ}

/-- With some ghosts the invariant holds, and every thread is idle or safe in what is left to do. -/
def Within (Inv : (T → Γ) → σ → Prop) (ok : σ → σ → Prop) (guar : ι → σ → σ → Prop) (E : ε → Prop)
    (rest : Γ) (M : Pool T ι σ ε) : Prop :=
  ∃ G, Inv G M.shared ∧ ∀ t, match M.doing t with
    | none => M.code t = .ret () ∧ G t = rest
    | some op => Safe Inv ok (guar op) E t (M.code t) (fun _ g => g = rest) (G t)

theorem within_idle {s : σ} (h : Inv (fun _ => rest) s) :
    Within Inv ok guar E rest (idle s : Pool T ι σ ε) :=
  ⟨fun _ => rest, h, fun _ => ⟨rfl, rfl⟩⟩

theorem Within.rest_of_done {M : Pool T ι σ ε} {G : T → Γ} {t : T}
    (h : match M.doing t with
      | none => M.code t = .ret () ∧ G t = rest
      | some op => Safe Inv ok (guar op) E t (M.code t) (fun _ g => g = rest) (G t))
    (finished : (M.code t).done = true) : G t = rest := by
  split at h
  · exact h.2
  cases c : M.code t <;> rw [c] at h finished
  · exact h
  all_goals exact absurd finished (by simp [Code.done])

variable {prog : T → ι → Code σ ε Unit}

section

variable (safe : ∀ t op, Safe Inv ok (guar op) E t (prog t op) (fun _ g => g = rest) rest)
include safe

theorem Within.sched
    {M : Pool T ι σ ε} (h : Within Inv ok guar E rest M) {e : Sched T ι}
    (fits : ok M.shared (M.sched prog e).shared) :
    Within Inv ok guar E rest (M.sched prog e) := by
  obtain ⟨G, inv, threads⟩ := h
  cases e with
  | start t op =>
    simp only [Pool.sched]
    split
    next finished =>
      refine ⟨G, inv, fun u => ?_⟩
      by_cases same : u = t
      · subst same
        simp only [update_self]
        rw [rest_of_done (threads u) finished]
        exact safe u op
      · simp only [update_of_ne same]
        exact threads u
    · exact ⟨G, inv, threads⟩
  | step t =>
    revert fits
    simp only [Pool.sched]
    split
    next ready next tail code =>
      split
      next go =>
        intro fits
        have mine := threads t
        rw [code] at mine
        split at mine
        · exact absurd mine.1 (by simp)
        rename_i op doing
        obtain ⟨-, g', inv', later⟩ := mine M.shared G inv rfl go fits
        refine ⟨_, inv', fun u => ?_⟩
        by_cases same : u = t
        · subst same
          simp only [update_self, doing]
          exact later
        simp only [update_of_ne same]
        exact threads u
      · exact fun _ => ⟨G, inv, threads⟩
    · exact fun _ => ⟨G, inv, threads⟩

theorem Within.run
    {es : List (Sched T ι)} : ∀ {M : Pool T ι σ ε}, Within Inv ok guar E rest M →
      Along prog ok es M → Within Inv ok guar E rest (M.run prog es) := by
  induction es with
  | nil => exact fun h _ => h
  | cons e es ih => exact fun h along => ih (h.sched safe along.1) along.2

end

theorem Within.quiet {M : Pool T ι σ ε} (h : Within Inv ok guar E rest M) (quiet : M.Quiet) :
    Inv (fun _ => rest) M.shared := by
  obtain ⟨G, inv, threads⟩ := h
  rwa [show G = fun _ => rest from funext fun t => rest_of_done (threads t) (quiet t)] at inv

theorem Within.stop {M : Pool T ι σ ε} (h : Within Inv ok guar E rest M) {t : T} {e : ε}
    (stopped : M.code t = .stop e) : E e := by
  obtain ⟨G, -, threads⟩ := h
  have mine := threads t
  rw [stopped] at mine
  split at mine
  · exact absurd mine.1 (by simp)
  · exact mine

theorem Within.step {M : Pool T ι σ ε} (h : Within Inv ok guar E rest M) {t : T} {op : ι}
    (doing : M.doing t = some op) (still : ∀ s, guar op s s)
    (fits : ok M.shared (M.sched prog (.step t)).shared) :
    guar op M.shared (M.sched prog (.step t)).shared := by
  obtain ⟨G, inv, threads⟩ := h
  have mine := threads t
  rw [doing] at mine
  revert fits
  simp only [Pool.sched]
  split
  next ready next tail code =>
    rw [code] at mine
    split
    next go => exact fun fits => (mine M.shared G inv rfl go fits).1
    · exact fun _ => still _
  · exact fun _ => still _

end Pool

end Xv6.Lib
