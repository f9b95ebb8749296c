import Xv6.Ide.Locked
import Xv6.Lib.Linked

/-!
# The interrupt-driven disk queue

What `idequeue` holds and what the device does, for every interleaving of the processes, the device
and its interrupt handler.  Serving the requests one by one with `iderw` of `memide.c` leaves the
same buffers and the same disk.
-/

set_option linter.unusedSectionVars false

namespace Xv6.Ide

open Lib Sleep
open Function (update update_apply update_eq_self update_of_ne update_self)

section

variable {A B : Type} [DecidableEq A] [DecidableEq B]

def Op.request : Op A B → Option (Request A B)
  | .iderw r => some r
  | _ => none

/-- The requests that have been served. -/
def finished (history : List (Op A B)) : List (Request A B) := history.filterMap Op.request

/-- The buffers and disks if every request is served at once. -/
def served (s : Store A B) (history : List (Op A B)) : Store A B := history.foldl Store.effect s

theorem finished_snoc (history : List (Op A B)) (o : Op A B) :
    finished (history ++ [o]) = finished history ++ o.request.toList := by
  rw [finished, List.filterMap_append]
  cases o <;> rfl

theorem served_snoc (s : Store A B) (history : List (Op A B)) (o : Op A B) :
    served s (history ++ [o]) = (served s history).effect o := by
  rw [served, List.foldl_append]
  rfl

/-- `iderw` of `memide.c` serves a request that is for its disk. -/
theorem Memide.iderw_spec {disksize : ℕ} {s : Store A B} {a : A} {b : B} (own : s.owner b = some a)
    (todo : ToDo (s.buf b)) (dev : (s.buf b).dev = 1) (inside : (s.buf b).blockno < disksize) :
    exec (Memide.iderw disksize a b) s = (.ok ⟨⟩, s.transfer b) := by
  have look : exec (get : Prog (Store A B) Halt (Store A B)) s = (.ok s, s) := rfl
  unfold Memide.iderw
  rw [exec_bind, look]
  dsimp only
  rw [if_neg (not_not.2 own), if_neg todo, if_neg (not_not.2 dev), if_neg (by omega)]
  split <;> rename_i dirty
  · have same : s.transfer b = (s.setBlock 1 (s.buf b).blockno (s.buf b).data).setBuf b
        { s.buf b with dirty := false, valid := true } := by
      simp [Store.transfer, Store.write, Store.fill, Store.settle, Store.setBlock, dirty, dev]
    rw [same]
    rfl
  have same : s.transfer b = s.setBuf b
      { s.buf b with data := s.disk 1 (s.buf b).blockno, valid := true } := by
    simp [Store.transfer, Store.write, Store.fill, Store.settle, Store.setBuf, dirty, dev]
  rw [same]
  rfl

end

/-! ## Where the parties are -/

section

variable {P B : Type} [DecidableEq P] [DecidableEq B]

namespace Place

/-- A place where `idequeue` may be in the middle of a change, or the device about to be started. -/
def Inside : Place B → Prop
  | .append _ | .walk _ _ | .first _ | .start _ | .intrHead | .intrRead _ | .intrFlags _
  | .intrWakeup _ | .intrNext | .intrStart _ => True
  | _ => False

def Waiting (b : B) : Place B → Prop
  | .first c | .start c | .test c | .sleep c => c = b
  | _ => False

def Rests : Place B → Prop
  | .intrEnter | .intrHead | .intrRead _ | .intrFlags _ => False
  | _ => True

/-- On the way to start the device. -/
def Starts : Place B → Prop
  | .first _ | .start _ | .intrWakeup _ | .intrNext | .intrStart _ => True
  | _ => False

theorem Waiting.at {b : B} {x : Place B} (h : x.Waiting b) : x.At b := by
  cases x <;> first | exact h | exact h.elim

theorem Inside.holds {x : Place B} (h : x.Inside) : x.Holds idelock := by
  cases x <;> first | rfl | exact h.elim

theorem Starts.inside {x : Place B} (h : x.Starts) : x.Inside := by
  cases x <;> trivial

end Place

/-- The places of each party, as long as `idestart` does not panic. -/
def Role : Party P → Place B → Prop
  | .proc _, .user | .proc _, .check _ | .proc _, .enter _ | .proc _, .append _
  | .proc _, .walk _ _ | .proc _, .first _ | .proc _, .start _ | .proc _, .test _
  | .proc _, .sleep _ | .proc _, .leave _ => True
  | .proc _, .panic msg => msg ≠ "incorrect blockno"
  | .intr, .intrIdle | .intr, .intrEnter | .intr, .intrHead | .intr, .intrRead _
  | .intr, .intrFlags _ | .intr, .intrWakeup _ | .intr, .intrNext | .intr, .intrStart _
  | .intr, .intrLeave => True
  | .device, .device => True
  | _, _ => False

variable {s₀ m : Store (Party P) B} {d d' : Driver (Party P) B} {places : Party P → Place B}
  {a : Party P} {x y z : Place B} {q : List (Request (Party P) B)} {done : List B} {b : B} {p : P}
  {r : Request (Party P) B} {q' : List (Request (Party P) B)} {c : Bool} {i : Input B}
  {f : Bool → Driver (Party P) B → Input B → Driver (Party P) B × Place B}
  {s s' : Sleep.Machine (Party P) (Driver (Party P) B) B (Place B)}

/-- No request is with the device or the handler, which is at `x`. -/
def Idle (d : Driver (Party P) B) (x : Place B) : Prop :=
  d.device.busy = none ∧ d.device.irq = false ∧ x.Rests

/-- What a party at a place can count on, with the handler at `x` and the requests `q` not done. -/
def Mine (d : Driver (Party P) B) (x : Place B) (q : List (Request (Party P) B)) : Place B → Prop
  | .enter b | .append b => ToDo (d.store.buf b)
  | .walk b pp => ToDo (d.store.buf b) ∧ d.qnext b = none ∧ ∀ c, pp = some c → ∃ r ∈ q, r.b = c
  | .first b => ∃ q' r, q = q' ++ [r] ∧ r.b = b ∧ (q' = [] ↔ Idle d x)
  | .start b => Idle d x ∧ ∃ r, q = [r] ∧ r.b = b
  | .test b | .sleep b => (∀ r ∈ q, r.b ≠ b) → ¬ ToDo (d.store.buf b)
  | .intrWakeup _ | .intrNext => Idle d x
  | .intrStart c => Idle d x ∧ ∃ r q', q = r :: q' ∧ r.b = c
  | _ => True

/-- How far the first request `r` is; `m` is the store after the finished requests `done`. -/
inductive Stage (m : Store (Party P) B) (done : List B) (d : Driver (Party P) B) (x : Place B) :
    List (Request (Party P) B) → Prop where
  | idle {q : List (Request (Party P) B)} (rests : x.Rests) (busy : d.device.busy = none)
      (irq : d.device.irq = false) (store : d.store = m) (started : d.started = done)
      (linked : Linked d.qnext d.idequeue (q.map (·.b))) : Stage m done d x q
  | working {r : Request (Party P) B} {q : List (Request (Party P) B)} (rests : x.Rests)
      (busy : d.device.busy = some (command (m.buf r.b))) (irq : d.device.irq = false)
      (store : d.store = m) (started : d.started = done ++ [r.b])
      (linked : Linked d.qnext d.idequeue ((r :: q).map (·.b))) : Stage m done d x (r :: q)
  | ready {r : Request (Party P) B} {q : List (Request (Party P) B)}
      (busy : d.device.busy = none)
      (alert : d.device.irq = true ∧ x.Rests ∨
        d.device.irq = false ∧ (x = .intrEnter ∨ x = .intrHead))
      (store : d.store = m.write r.b)
      (data : (m.buf r.b).dirty = false →
        d.device.data = m.disk ((m.buf r.b).dev % 2) (m.buf r.b).blockno)
      (started : d.started = done ++ [r.b])
      (linked : Linked d.qnext d.idequeue ((r :: q).map (·.b))) : Stage m done d x (r :: q)
  | serving {r : Request (Party P) B} {q : List (Request (Party P) B)} (here : x = .intrRead r.b)
      (busy : d.device.busy = none) (irq : d.device.irq = false) (store : d.store = m.write r.b)
      (data : (m.buf r.b).dirty = false →
        d.device.data = m.disk ((m.buf r.b).dev % 2) (m.buf r.b).blockno)
      (started : d.started = done ++ [r.b])
      (linked : Linked d.qnext d.idequeue (q.map (·.b))) : Stage m done d x (r :: q)
  | filled {r : Request (Party P) B} {q : List (Request (Party P) B)} (here : x = .intrFlags r.b)
      (busy : d.device.busy = none) (irq : d.device.irq = false)
      (store : d.store =
        (m.write r.b).fill r.b (m.disk ((m.buf r.b).dev % 2) (m.buf r.b).blockno))
      (started : d.started = done ++ [r.b])
      (linked : Linked d.qnext d.idequeue (q.map (·.b))) : Stage m done d x (r :: q)

namespace Stage

variable (st : Stage m done d x q)
include st

theorem owner : d.store.owner = m.owner := by
  cases st with
  | idle _ _ _ store | working _ _ _ store => rw [store]
  | ready _ _ store | serving _ _ _ store => rw [store, Store.owner_write]
  | filled _ _ _ store => rw [store, Store.owner_fill, Store.owner_write]

theorem buf (off : x ≠ .intrFlags b) : d.store.buf b = m.buf b := by
  cases st with
  | idle _ _ _ store | working _ _ _ store => rw [store]
  | ready _ _ store | serving _ _ _ store => rw [store, Store.buf_write]
  | filled here _ _ store =>
    have ne : b ≠ _ := fun same => off (same ▸ here)
    rw [store, Store.buf_fill_ne _ _ ne, Store.buf_write]

theorem todo (b : B) : ToDo (d.store.buf b) ↔ ToDo (m.buf b) := by
  cases st with
  | idle _ _ _ store | working _ _ _ store => rw [store]
  | ready _ _ store | serving _ _ _ store => rw [store, Store.buf_write]
  | filled _ _ _ store => rw [store, Store.todo_fill, Store.buf_write]

theorem linked_of_outside (outside : ¬ x.Inside) : Linked d.qnext d.idequeue (q.map (·.b)) := by
  cases st with
  | idle _ _ _ _ _ linked | working _ _ _ _ _ linked | ready _ _ _ _ _ linked => exact linked
  | serving here | filled here => exact absurd (here ▸ trivial) outside

theorem eq_idle (idle : Idle d x) : d.store = m ∧ d.started = done ∧
    Linked d.qnext d.idequeue (q.map (·.b)) := by
  obtain ⟨none, low, rests⟩ := idle
  cases st with
  | idle _ _ _ store started linked => exact ⟨store, started, linked⟩
  | working _ busy => cases none.symm.trans busy
  | ready _ alert =>
    rcases alert with ⟨irq, -⟩ | ⟨-, here⟩
    · cases low.symm.trans irq
    · rcases here with rfl | rfl <;> exact rests.elim
  | serving here | filled here => subst here; exact rests.elim

end Stage

theorem Stage.user (st : Stage m done d x q) {c : Party P} {o : Op (Party P) B} (by_ : o.By c)
    (others : ∀ r ∈ q, m.owner r.b = some r.caller ∧ r.caller ≠ c) :
    Stage (m.effect o) done
      { d with store := d.store.effect o, history := d.history ++ [o] } x q := by
  cases st with
  | idle rests busy irq store started linked =>
    exact .idle rests busy irq (by rw [store]) started linked
  | @working r q rests busy irq store started linked =>
    obtain ⟨own, ne⟩ := others r List.mem_cons_self
    refine .working rests ?_ irq (by rw [store]) started linked
    rw [(Store.spared by_ own ne).2.1]
    exact busy
  | @ready r q busy alert store data started linked =>
    obtain ⟨own, ne⟩ := others r List.mem_cons_self
    obtain ⟨-, buf, disk, write, -⟩ := Store.spared by_ own ne
    refine .ready busy alert ?_ ?_ started linked
    · rw [store, write]
    · rwa [buf, disk]
  | @serving r q here busy irq store data started linked =>
    obtain ⟨own, ne⟩ := others r List.mem_cons_self
    obtain ⟨-, buf, disk, write, -⟩ := Store.spared by_ own ne
    refine .serving here busy irq ?_ ?_ started linked
    · rw [store, write]
    · rwa [buf, disk]
  | @filled r q here busy irq store started linked =>
    obtain ⟨own, ne⟩ := others r List.mem_cons_self
    obtain ⟨-, buf, disk, -, fill⟩ := Store.spared by_ own ne
    refine .filled here busy irq ?_ started linked
    rw [store, fill, buf, disk]

theorem Stage.setNext (st : Stage m done d x q) (out : b ∉ q.map (·.b)) (o : Option B) :
    Stage m done { d with qnext := update d.qnext b o } x q := by
  cases st with
  | idle rests busy irq store started linked =>
    exact .idle rests busy irq store started (linked.update out o)
  | working rests busy irq store started linked =>
    exact .working rests busy irq store started (linked.update out o)
  | ready busy alert store data started linked =>
    exact .ready busy alert store data started (linked.update out o)
  | serving here busy irq store data started linked =>
    exact .serving here busy irq store data started
      (linked.update (fun mem => out (List.mem_cons_of_mem _ mem)) o)
  | filled here busy irq store started linked =>
    exact .filled here busy irq store started
      (linked.update (fun mem => out (List.mem_cons_of_mem _ mem)) o)

theorem Stage.enqueue (st : Stage m done d x q) (outside : ¬ x.Inside) {idequeue : Option B}
    {qnext : B → Option B} (enqueued : List (Request (Party P) B))
    (linked : Linked qnext idequeue ((q ++ [r]).map (·.b))) :
    Stage m done { d with idequeue := idequeue, qnext := qnext, enqueued := enqueued } x
      (q ++ [r]) := by
  cases st with
  | idle rests busy irq store started => exact .idle rests busy irq store started linked
  | working rests busy irq store started => exact .working rests busy irq store started linked
  | ready busy alert store data started => exact .ready busy alert store data started linked
  | serving here | filled here => exact absurd (here ▸ trivial) outside

theorem Stage.idle_of_nil (st : Stage m done d x []) : Idle d x := by
  cases st with
  | idle rests busy irq => exact ⟨busy, irq, rests⟩

namespace Mine

theorem same (mine : Mine d x q z)
    (todo : ∀ b, z.At b → (ToDo (d'.store.buf b) ↔ ToDo (d.store.buf b)))
    (qnext : d'.qnext = d.qnext) (idle : Idle d' y ↔ Idle d x) : Mine d' y q z := by
  cases z with
  | enter b | append b => exact (todo b rfl).2 mine
  | walk b pp => exact ⟨(todo b rfl).2 mine.1, qnext ▸ mine.2⟩
  | first b =>
    obtain ⟨q', r, eq, at_, first⟩ := mine
    exact ⟨q', r, eq, at_, first.trans idle.symm⟩
  | start b | intrStart b => exact ⟨idle.2 mine.1, mine.2⟩
  | test b | sleep b => exact fun none => mt (todo b rfl).1 (mine none)
  | intrWakeup b | intrNext => exact idle.2 mine
  | _ => trivial

theorem outside (mine : Mine d x q z) (out : ¬ z.Inside)
    (fresh : ∀ b, z = .enter b → ToDo (d.store.buf b) → ToDo (d'.store.buf b))
    (waits : ∀ b, z.Waiting b → ((∀ r ∈ q, r.b ≠ b) → ¬ ToDo (d.store.buf b)) →
      (∀ r ∈ q', r.b ≠ b) → ¬ ToDo (d'.store.buf b)) :
    Mine d' y q' z := by
  cases z with
  | enter b => exact fresh b rfl mine
  | test b | sleep b => exact waits b rfl mine
  | append b | walk b pp | first b | start b | intrWakeup b | intrNext | intrStart b =>
    exact absurd trivial out
  | _ => trivial

end Mine

/-! ## The queue -/

/-- The requests `q` are not done, in this order. -/
structure Queued (s₀ : Store (Party P) B) (d : Driver (Party P) B) (places : Party P → Place B)
    (q : List (Request (Party P) B)) : Prop where
  roles : ∀ a, Role a (places a)
  inside : ∀ a a', (places a).Inside → (places a').Inside → a = a'
  mine : ∀ a, Mine d (places .intr) q (places a)
  requests : d.enqueued = finished d.history ++ q
  waiting : ∀ r ∈ q, (places r.caller).Waiting r.b
  todo : ∀ r ∈ q, ToDo (d.store.buf r.b)
  contents : ∀ r ∈ q, (served s₀ d.history).buf r.b = r.contents
  distinct : (q.map (·.b)).Nodup
  stage : Stage (served s₀ d.history) ((finished d.history).map (·.b)) d (places .intr) q
  why : Idle d (places .intr) → q = [] ∨ ∃ a, (places a).Starts
  accepts : ∀ disksize, (∀ r ∈ finished d.history, r.contents.dev = 1 ∧
      r.contents.blockno < disksize) →
    exec (run (Memide.perform disksize) d.history) s₀ = (.ok ⟨⟩, served s₀ d.history)

namespace Queued

section

variable (h : Queued s₀ d places q)
include h

theorem owner (owned : Owned d places) (mem : r ∈ q) : d.store.owner r.b = some r.caller :=
  owned r.caller r.b (h.waiting r mem).at

theorem calm (a : Party P) : places a ≠ .panic "incorrect blockno" := by
  intro panics
  have role := h.roles a
  rw [panics] at role
  cases a with
  | proc p => exact role rfl
  | intr | device => exact role

theorem caller (owned : Owned d places) (mem : r ∈ q)
    (at_ : (places a).At b) (same : r.b = b) : r.caller = a := by
  have theirs := h.owner owned mem
  rw [same, owned a b at_] at theirs
  simpa using theirs.symm

theorem user (owned : Owned d places) (here : places a = .user)
    {o : Op (Party P) B} (by_ : o.By a) :
    Queued s₀ { d with store := d.store.effect o, history := d.history ++ [o] } places q := by
  have own {a' : Party P} {b : B} (at_ : (places a').At b) :
      (d.store.effect o).buf b = d.store.buf b := by
    have ne : a' ≠ a := by
      rintro rfl
      rw [here] at at_
      exact at_
    exact (Store.spared by_ (owned a' b at_) ne).2.1
  have others (r : Request (Party P) B) (mem : r ∈ q) :
      (served s₀ d.history).owner r.b = some r.caller ∧ r.caller ≠ a := by
    refine ⟨h.stage.owner ▸ h.owner owned mem, fun same => ?_⟩
    have waits := h.waiting r mem
    rw [same, here] at waits
    exact waits
  have none : o.request = .none := by
    cases o <;> first | rfl | exact by_.elim
  have fin : finished (d.history ++ [o]) = finished d.history := by
    rw [finished_snoc, none, Option.toList_none, List.append_nil]
  constructor
  case roles => exact h.roles
  case inside => exact h.inside
  case mine => exact fun a' => (h.mine a').same (fun b at_ => by rw [own at_]) rfl .rfl
  case requests => rw [fin]; exact h.requests
  case waiting => exact h.waiting
  case todo =>
    intro r mem
    rw [own (h.waiting r mem).at]
    exact h.todo r mem
  case contents =>
    intro r mem
    obtain ⟨owner, ne⟩ := others r mem
    rw [served_snoc, (Store.spared by_ owner ne).2.1]
    exact h.contents r mem
  case distinct => exact h.distinct
  case stage =>
    rw [served_snoc, fin]
    exact h.stage.user by_ others
  case why => exact h.why
  case accepts =>
    intro disksize fits
    rw [fin] at fits
    rw [served_snoc]
    refine exec_run_snoc (h.accepts disksize fits) ?_
    cases o <;> first | rfl | exact by_.elim

theorem rebuild (role : Role a y)
    (inside : y.Inside → ∀ a', (places a').Inside → a' = a)
    (mine : Mine d' (update places a y .intr) q' y)
    (others : ∀ a', a' ≠ a → Mine d' (update places a y .intr) q' (places a'))
    (requests : d'.enqueued = finished d'.history ++ q')
    (waiting : ∀ r ∈ q', (update places a y r.caller).Waiting r.b)
    (todo : ∀ r ∈ q', ToDo (d'.store.buf r.b))
    (contents : ∀ r ∈ q', (served s₀ d'.history).buf r.b = r.contents)
    (distinct : (q'.map (·.b)).Nodup)
    (stage : Stage (served s₀ d'.history) ((finished d'.history).map (·.b)) d'
      (update places a y .intr) q')
    (why : Idle d' (update places a y .intr) →
      q' = [] ∨ y.Starts ∨ ∃ a', a' ≠ a ∧ (places a').Starts)
    (accepts : ∀ disksize, (∀ r ∈ finished d'.history, r.contents.dev = 1 ∧
        r.contents.blockno < disksize) →
      exec (run (Memide.perform disksize) d'.history) s₀ = (.ok ⟨⟩, served s₀ d'.history)) :
    Queued s₀ d' (update places a y) q' := by
  have own (a' : Party P) : update places a y a' = if a' = a then y else places a' :=
    update_apply ..
  constructor
  case roles =>
    intro a'
    rw [own]
    split
    next same => exact same ▸ role
    · exact h.roles a'
  case inside =>
    intro a₁ a₂ h₁ h₂
    rw [own] at h₁ h₂
    split at h₁ <;> split at h₂ <;> rename_i e₁ e₂
    · exact e₁.trans e₂.symm
    · exact e₁.trans (inside h₁ a₂ h₂).symm
    · exact (inside h₂ a₁ h₁).trans e₂.symm
    · exact h.inside a₁ a₂ h₁ h₂
  case mine =>
    intro a'
    rw [own a']
    split
    · exact mine
    next other => exact others a' other
  case requests => exact requests
  case waiting => exact waiting
  case todo => exact todo
  case contents => exact contents
  case distinct => exact distinct
  case stage => exact stage
  case why =>
    intro idle
    rcases why idle with none | going | ⟨a', other, going⟩
    · exact .inl none
    · exact .inr ⟨a, by rwa [own, if_pos rfl]⟩
    · exact .inr ⟨a', by rwa [own, if_neg other]⟩
  case accepts => exact accepts

theorem redo (here : places a = x) (enqueued : d'.enqueued = d.enqueued)
    (history : d'.history = d.history) (role : Role a y)
    (inside : y.Inside → ∀ a', (places a').Inside → a' = a)
    (mine : Mine d' (update places a y .intr) q y)
    (others : ∀ a', a' ≠ a → Mine d' (update places a y .intr) q (places a'))
    (waits : ∀ r ∈ q, x.Waiting r.b → y.Waiting r.b)
    (stage : Stage (served s₀ d.history) ((finished d.history).map (·.b)) d'
      (update places a y .intr) q)
    (why : Idle d' (update places a y .intr) →
      q = [] ∨ y.Starts ∨ ∃ a', a' ≠ a ∧ (places a').Starts) :
    Queued s₀ d' (update places a y) q := by
  refine h.rebuild role inside mine others ?_ ?_ ?_ ?_ h.distinct ?_ why ?_
  · rw [enqueued, history]
    exact h.requests
  · intro r mem
    have before := h.waiting r mem
    by_cases same : r.caller = a
    · rw [same, here] at before
      rw [same, update_self]
      exact waits r mem before
    · rwa [update_of_ne same]
  · intro r mem
    exact (stage.todo r.b).2 ((h.stage.todo r.b).1 (h.todo r mem))
  · rw [history]
    exact h.contents
  · rwa [history]
  · rw [history]
    exact h.accepts

theorem move (here : places a = x) (role : Role a y)
    (inside : y.Inside → ∀ a', (places a').Inside → a' = a)
    (mine : Mine d (update places a y .intr) q y)
    (waits : ∀ r ∈ q, x.Waiting r.b → y.Waiting r.b)
    (stage : Stage (served s₀ d.history) ((finished d.history).map (·.b)) d
      (update places a y .intr) q)
    (idle : Idle d (update places a y .intr) ↔ Idle d (places .intr))
    (starts : Idle d (places .intr) → x.Starts → q = [] ∨ y.Starts) :
    Queued s₀ d (update places a y) q := by
  refine h.redo here rfl rfl role inside mine (fun a' _ => ?_) waits stage fun now => ?_
  · exact (h.mine a').same (fun _ _ => .rfl) rfl idle
  have before := idle.1 now
  rcases h.why before with none | ⟨a', going⟩
  · exact .inl none
  by_cases same : a' = a
  · rw [same, here] at going
    exact (starts before going).imp_right .inl
  · exact .inr (.inr ⟨a', same, going⟩)

end

theorem intr_proc : update places (.proc p) y .intr = places .intr := update_of_ne (by simp) ..

section

variable (h : Queued s₀ d places q)
include h

theorem moveProc (here : places (.proc p) = x) (role : Role (.proc p : Party P) y)
    (inside : y.Inside → ∀ a', (places a').Inside → a' = .proc p) (mine : Mine d (places .intr) q y)
    (waits : ∀ r ∈ q, x.Waiting r.b → y.Waiting r.b)
    (starts : Idle d (places .intr) → x.Starts → q = [] ∨ y.Starts) :
    Queued s₀ d (update places (.proc p) y) q := by
  refine h.move here role inside ?_ waits ?_ ?_ starts
  · rwa [intr_proc]
  · rw [intr_proc]
    exact h.stage
  · rw [intr_proc]

theorem moveIntr (here : places .intr = x) (role : Role (.intr : Party P) y)
    (inside : y.Inside → ∀ a', (places a').Inside → a' = .intr) (mine : Mine d y q y)
    (stage : Stage (served s₀ d.history) ((finished d.history).map (·.b)) d y q)
    (idle : Idle d y ↔ Idle d x) (starts : Idle d x → x.Starts → q = [] ∨ y.Starts) :
    Queued s₀ d (update places .intr y) q := by
  refine h.move here role inside ?_ ?_ ?_ ?_ ?_
  · rwa [update_self]
  · intro r _ waits
    have role := h.roles .intr
    rw [here] at role
    cases x <;> first | exact waits.elim | exact role.elim
  · rwa [update_self]
  · rw [update_self, here]
    exact idle
  · rw [here]
    exact starts

theorem alone (here : places a = x) (inside : x.Inside) (a' : Party P)
    (also : (places a').Inside) : a' = a := h.inside a' a also (here ▸ inside)

theorem apart (here : places a = x) (inside : x.Inside) {a' : Party P}
    (ne : a' ≠ a) : ¬ (places a').Inside :=
  fun also => ne (h.alone here inside a' also)

theorem handler_outside (here : places (.proc p) = x)
    (inside : x.Inside) : ¬ (places .intr).Inside := h.apart here inside nofun

theorem empty_of_idle (here : places a = x) (inside : x.Inside)
    (off : ¬ x.Starts) (idle : Idle d (places .intr)) : q = [] := by
  rcases h.why idle with none | ⟨a', going⟩
  · exact none
  rw [h.alone here inside a' going.inside, here] at going
  exact absurd going off

theorem not_queued (owned : Owned d places) (here : places a = x)
    (at_ : x.At b) (off : ¬ x.Waiting b) : b ∉ q.map (·.b) := by
  intro mem
  obtain ⟨r, mem, same⟩ := List.mem_map.1 mem
  have waits := h.waiting r mem
  rw [h.caller owned mem (here ▸ at_) same, here, same] at waits
  exact off waits

/-! ### Putting a request on the queue -/

theorem append (owned : Owned d places) (here : places (.proc p) = .append b) :
    Queued s₀ { d with qnext := update d.qnext b none }
      (update places (.proc p) (.walk b none)) q := by
  have mine := h.mine (.proc p)
  rw [here] at mine
  refine h.redo here rfl rfl trivial (fun _ => h.alone here trivial) ?_ (fun a' ne => ?_)
    (fun _ _ => False.elim) ?_ fun idle => ?_
  · exact ⟨mine, update_self .., nofun⟩
  · exact (h.mine a').outside (h.apart here trivial ne) (fun _ _ => id) fun _ _ => id
  · rw [intr_proc]
    exact h.stage.setNext (h.not_queued owned here rfl id) none
  · rw [intr_proc] at idle
    exact .inl (h.empty_of_idle here trivial id idle)

theorem walk {c : B} {pp : Option B} (here : places (.proc p) = .walk b pp)
    (next : d.deref pp = some c) : Queued s₀ d (update places (.proc p) (.walk b (some c))) q := by
  obtain ⟨todo, last, on⟩ : Mine d (places .intr) q (.walk b pp) := here ▸ h.mine (.proc p)
  have linked := h.stage.linked_of_outside (h.handler_outside here trivial)
  refine h.moveProc here trivial (fun _ => h.alone here trivial) ⟨todo, last, ?_⟩
    (fun _ _ => False.elim) fun _ => False.elim
  intro c' eq
  cases eq
  have mem : c ∈ q.map (·.b) := by
    cases pp with
    | none =>
      rw [show d.idequeue = some c from next] at linked
      obtain ⟨l, eq⟩ := linked.eq_cons
      simp [eq]
    | some c₀ =>
      obtain ⟨r, mem, rfl⟩ := on c₀ rfl
      obtain ⟨l₁, l₂, eq⟩ := List.append_of_mem (List.mem_map_of_mem (f := (·.b)) mem)
      rw [eq] at linked
      have rest := linked.after
      rw [show d.qnext r.b = some c from next] at rest
      obtain ⟨l, rfl⟩ := rest.eq_cons
      simp [eq]
  simpa using mem

end

theorem linked_assign (linked : Linked d.qnext d.idequeue (q.map (·.b)))
    (distinct : (q.map (·.b)).Nodup) (out : b ∉ q.map (·.b)) (last : d.qnext b = none)
    {pp : Option B} (on : ∀ c, pp = some c → ∃ r ∈ q, r.b = c) (end_ : d.deref pp = none)
    (is : r.b = b) :
    Linked (d.assign pp b).qnext (d.assign pp b).idequeue ((q ++ [r]).map (·.b)) := by
  rw [List.map_append, List.map_singleton, is]
  cases pp with
  | none =>
    rw [show d.idequeue = none from end_] at linked
    rw [linked.eq_nil]
    exact ⟨rfl, last⟩
  | some c =>
    obtain ⟨r', mem, rfl⟩ := on c rfl
    obtain ⟨l₁, l₂, eq⟩ := List.append_of_mem (List.mem_map_of_mem (f := (·.b)) mem)
    rw [eq] at linked distinct out ⊢
    have rest := linked.after
    rw [show d.qnext r'.b = none from end_] at rest
    cases rest.eq_nil
    exact linked.snoc distinct out last

section

variable (h : Queued s₀ d places q)
include h

theorem enqueue (owned : Owned d places) {pp : Option B}
    (here : places (.proc p) = .walk b pp) (end_ : d.deref pp = none) :
    Queued s₀
      { d.assign pp b with enqueued := d.enqueued ++ [⟨.proc p, b, d.store.buf b⟩] }
      (update places (.proc p) (.first b)) (q ++ [⟨.proc p, b, d.store.buf b⟩]) := by
  obtain ⟨todo, last, on⟩ : Mine d (places .intr) q (.walk b pp) := here ▸ h.mine (.proc p)
  have outside := h.handler_outside here trivial
  have out := h.not_queued owned here rfl id
  have linked := linked_assign (h.stage.linked_of_outside outside) h.distinct out last on end_
    (r := ⟨.proc p, b, d.store.buf b⟩) rfl
  obtain ⟨store, device, history⟩ : (d.assign pp b).store = d.store ∧
      (d.assign pp b).device = d.device ∧ (d.assign pp b).history = d.history := by
    cases pp <;> exact ⟨rfl, rfl, rfl⟩
  have first : q = [] ↔ Idle d (places .intr) := by
    constructor
    · rintro rfl
      exact h.stage.idle_of_nil
    · exact h.empty_of_idle here trivial id
  refine h.rebuild trivial (fun _ => h.alone here trivial) ?_ ?_ ?_ ?_ ?_ ?_ ?_ ?_ ?_ ?_
  · refine ⟨q, _, rfl, rfl, first.trans ?_⟩
    rw [intr_proc]
    unfold Idle
    rw [device]
  · intro a' ne
    refine (h.mine a').outside (h.apart here trivial ne) (fun b' _ todo => ?_)
      fun b' _ mine none => ?_
    · rwa [store]
    rw [store]
    exact mine fun r mem => none r (List.mem_append_left _ mem)
  · rw [history, h.requests, List.append_assoc]
  · intro r mem
    rcases List.mem_append.1 mem with old | new
    · have before := h.waiting r old
      have ne : r.caller ≠ .proc p := by
        intro same
        rw [same, here] at before
        exact before
      rwa [update_of_ne ne]
    · cases List.mem_singleton.1 new
      rw [update_self]
      rfl
  · intro r mem
    rw [store]
    rcases List.mem_append.1 mem with old | new
    · exact h.todo r old
    cases List.mem_singleton.1 new
    exact todo
  · intro r mem
    rw [history]
    rcases List.mem_append.1 mem with old | new
    · exact h.contents r old
    cases List.mem_singleton.1 new
    refine (h.stage.buf fun at_ => ?_).symm
    rw [at_] at outside
    exact outside trivial
  · rw [List.map_append, List.map_singleton, ← List.concat_eq_append]
    exact (List.nodup_concat ..).2 ⟨out, h.distinct⟩
  · rw [intr_proc, history]
    have joined := h.stage.enqueue outside (d.enqueued ++ [⟨.proc p, b, d.store.buf b⟩]) linked
    cases pp <;> exact joined
  · exact fun _ => .inr (.inl trivial)
  · rw [history]
    exact h.accepts

theorem first (here : places (.proc p) = .first b) :
    Queued s₀ d
      (update places (.proc p) (if d.idequeue = some b then .start b else .test b)) q := by
  obtain ⟨q', r, eq, at_, first⟩ : Mine d (places .intr) q (.first b) := here ▸ h.mine (.proc p)
  have linked := h.stage.linked_of_outside (h.handler_outside here trivial)
  have head := linked.head
  split
  next mine =>
    have none : q' = [] := by
      cases q' with
      | nil => rfl
      | cons r' q' =>
        have distinct := h.distinct
        rw [mine, eq] at head
        rw [eq] at distinct
        simp only [List.cons_append, List.map_cons, List.head?_cons, Option.some.injEq] at head
        simp [← head, at_] at distinct
    subst none
    refine h.moveProc here trivial (fun _ => h.alone here trivial) ?_ (fun _ _ => id)
      fun _ _ => .inr trivial
    exact ⟨first.1 rfl, r, eq, at_⟩
  next other =>
    have some : q' ≠ [] := by
      rintro rfl
      rw [eq] at head
      exact other (by rw [head]; simp [at_])
    refine h.moveProc here trivial False.elim (fun none => ?_) (fun _ _ => id)
      fun idle => absurd (first.2 idle) some
    exact absurd at_ (none r (by simp [eq]))

/-! ### The device at work -/

theorem launch (here : places a = x) (inside : x.Inside)
    (idle : Idle d (places .intr)) (eq : q = r :: q') (role : Role a y) (out : ¬ y.Inside)
    (rests : (update places a y .intr).Rests) (waits : ∀ b, x.Waiting b → y.Waiting b)
    (mine : Mine d (update places a y .intr) q y) :
    Queued s₀
      { d with
        device := { d.device with busy := some (command (d.store.buf r.b)) }
        started := d.started ++ [r.b] } (update places a y) q := by
  obtain ⟨store, started, linked⟩ := h.stage.eq_idle idle
  refine h.redo here rfl rfl role (fun inside => absurd inside out) ?_ (fun a' ne => ?_)
    (fun r _ => waits r.b) ?_ fun idle => ?_
  · exact mine.outside out (fun _ _ => id) fun _ _ => id
  · exact (h.mine a').outside (h.apart here inside ne) (fun _ _ => id) fun _ _ => id
  · subst eq
    refine .working rests ?_ idle.2.1 store ?_ linked
    · rw [← store]
    · rw [← started]
  · cases idle.1

theorem notify (here : places .intr = .intrIdle) (irq : d.device.irq = true) :
    Queued s₀ { d with device := { d.device with irq := false } }
      (update places .intr .intrEnter) q := by
  have before : ¬ Idle d (places .intr) := fun idle => by
    cases idle.2.1.symm.trans irq
  have after : ¬ Idle { d with device := { d.device with irq := false } } (.intrEnter : Place B) :=
    fun idle => idle.2.2
  refine h.redo here rfl rfl trivial False.elim trivial (fun a' _ => ?_)
    (fun _ _ => False.elim) ?_ fun idle => ?_
  · rw [update_self]
    exact (h.mine a').same (fun _ _ => .rfl) rfl (iff_of_false after before)
  · have stage := h.stage
    rw [here] at stage
    rw [update_self]
    cases stage with
    | idle _ _ low | working _ _ low => cases low.symm.trans irq
    | ready busy _ store data started linked =>
      exact .ready busy (.inr ⟨rfl, .inl rfl⟩) store data started linked
    | serving at_ | filled at_ => cases at_
  · rw [update_self] at idle
    exact absurd idle after

theorem pop (here : places .intr = .intrHead) :
    ∃ b, d.idequeue = some b ∧
      Queued s₀ { d with idequeue := d.qnext b } (update places .intr (.intrRead b)) q := by
  have stage := h.stage
  rw [here] at stage
  cases stage with
  | idle rests | working rests => exact rests.elim
  | serving at_ | filled at_ => cases at_
  | @ready r q busy alert store data started linked =>
    have low : d.device.irq = false := by
      rcases alert with ⟨-, rests⟩ | ⟨low, -⟩
      · exact rests.elim
      · exact low
    refine ⟨r.b, linked.1, h.redo here rfl rfl trivial (fun _ => h.alone here trivial) trivial
      (fun a' ne => ?_) (fun _ _ => False.elim) ?_ fun idle => ?_⟩
    · exact (h.mine a').outside (h.apart here trivial ne) (fun _ _ => id) fun _ _ => id
    · rw [update_self]
      exact .serving rfl busy low store data started linked.2
    rw [update_self] at idle
    exact idle.2.2.elim

theorem fill (here : places .intr = .intrRead b) :
    d.device.busy = none ∧ Queued s₀ { d with store := d.store.fill b d.device.data }
      (update places .intr (.intrFlags b)) q := by
  have stage := h.stage
  rw [here] at stage
  cases stage with
  | idle rests | working rests => exact rests.elim
  | filled at_ => cases at_
  | ready _ alert =>
    rcases alert with ⟨-, rests⟩ | ⟨-, at_⟩
    · exact rests.elim
    · rcases at_ with at_ | at_ <;> cases at_
  | @serving r q at_ busy irq store data started linked =>
    cases at_
    refine ⟨busy, h.redo here rfl rfl trivial (fun _ => h.alone here trivial) trivial
      (fun a' ne => ?_) (fun _ _ => False.elim) ?_ fun idle => ?_⟩
    · refine (h.mine a').outside (h.apart here trivial ne) (fun b' _ todo => ?_)
        fun b' _ mine none => ?_
      · exact (Store.todo_fill ..).2 todo
      · exact mt (Store.todo_fill ..).1 (mine none)
    · rw [update_self]
      refine .filled rfl busy irq ?_ started linked
      show d.store.fill r.b d.device.data = _
      rw [store]
      cases dirty : ((served s₀ d.history).buf r.b).dirty with
      | false => rw [data dirty]
      | true =>
        unfold Store.fill
        rw [Store.buf_write, if_pos dirty, if_pos dirty]
    · rw [update_self] at idle
      exact idle.2.2.elim

theorem complete {cmd : Cmd} (busy : d.device.busy = some cmd) :
    Queued s₀ (d.complete cmd) places q := by
  have stage := h.stage
  have before : ¬ Idle d (places .intr) := fun idle => by cases idle.1.symm.trans busy
  have after : ¬ Idle (d.complete cmd) (places .intr) := fun idle => by
    unfold Driver.complete at idle
    split at idle <;> cases idle.2.1
  obtain ⟨buf, qnext, enqueued, history⟩ : (d.complete cmd).store.buf = d.store.buf ∧
      (d.complete cmd).qnext = d.qnext ∧ (d.complete cmd).enqueued = d.enqueued ∧
      (d.complete cmd).history = d.history := by
    unfold Driver.complete
    split <;> exact ⟨rfl, rfl, rfl, rfl⟩
  have still : update places .device (places .device) = places := update_eq_self ..
  rw [← still]
  refine h.redo rfl enqueued history (h.roles .device) (fun inside a' also => ?_) ?_
    (fun a' ne => ?_) (fun _ _ => id) ?_ fun idle => ?_
  · exact h.inside a' .device also inside
  · rw [still]
    exact (h.mine .device).same (fun b _ => by rw [buf]) qnext (iff_of_false after before)
  · rw [still]
    exact (h.mine a').same (fun b _ => by rw [buf]) qnext (iff_of_false after before)
  · rw [still]
    cases stage with
    | idle _ none | ready none | serving _ none | filled _ none => cases none.symm.trans busy
    | @working r q rests started irq store launched linked =>
      cases busy.symm.trans started
      unfold Driver.complete
      cases dirty : ((served s₀ d.history).buf r.b).dirty with
      | true =>
        have write : (command ((served s₀ d.history).buf r.b)).write =
            some ((served s₀ d.history).buf r.b).data := by simp [command, dirty]
        rw [write]
        refine .ready rfl (.inl ⟨rfl, rests⟩) ?_ (fun clean => ?_) launched linked
        · dsimp only
          rw [store, Store.write, if_pos dirty]
          simp [command]
        rw [dirty] at clean
        cases clean
      | false =>
        have write : (command ((served s₀ d.history).buf r.b)).write = none := by
          simp [command, dirty]
        rw [write]
        refine .ready rfl (.inl ⟨rfl, rests⟩) ?_ (fun _ => ?_) launched linked
        · dsimp only
          rw [store, Store.write, if_neg (by simp [dirty])]
        dsimp only
        rw [store]
        simp [command]
  · rw [still] at idle
    exact absurd idle after

end

theorem find_request (fin : List (Request (Party P) B)) (distinct : ((r :: q').map (·.b)).Nodup) :
    ((fin ++ r :: q').reverse.find? fun r' => r'.b = r.b) = some r := by
  rw [List.reverse_append, List.reverse_cons, List.append_assoc, List.find?_append]
  have none : (q'.reverse.find? fun r' => decide (r'.b = r.b)) = none := by
    refine List.find?_eq_none.2 fun r' mem same => ?_
    rw [List.map_cons, List.nodup_cons] at distinct
    refine distinct.1 (List.mem_map.2 ⟨r', List.mem_reverse.1 mem, ?_⟩)
    exact of_decide_eq_true same
  rw [none]
  simp

theorem finish (h : Queued s₀ d places q) (owned : Owned d places)
    (here : places .intr = .intrFlags b) :
    ∃ q', Queued s₀ (d.finish b) (update places .intr (.intrWakeup b)) q' := by
  have stage := h.stage
  rw [here] at stage
  cases stage with
  | idle rests | working rests => exact rests.elim
  | serving at_ => cases at_
  | ready _ alert =>
    rcases alert with ⟨-, rests⟩ | ⟨-, at_⟩
    · exact rests.elim
    · rcases at_ with at_ | at_ <;> cases at_
  | @filled r q at_ busy irq store started linked =>
    cases at_
    have found := find_request (finished d.history) h.distinct
    rw [← h.requests] at found
    have history : (d.finish r.b).history = d.history ++ [.iderw r] := by
      rw [Driver.finish, found]
      rfl
    have settled : (d.finish r.b).store = d.store.settle r.b := rfl
    have fin : finished (d.history ++ [.iderw r]) = finished d.history ++ [r] := by
      rw [finished_snoc]
      rfl
    have after : served s₀ (d.history ++ [.iderw r]) = d.store.settle r.b := by
      rw [served_snoc, store]
      rfl
    have away {r' : Request (Party P) B} (mem : r' ∈ q) : r'.b ≠ r.b := by
      have distinct := h.distinct
      rw [List.map_cons, List.nodup_cons] at distinct
      exact fun same => distinct.1 (List.mem_map.2 ⟨r', mem, same⟩)
    have mem := List.mem_cons_self (a := r) (l := q)
    refine ⟨q, h.rebuild trivial (fun _ => h.alone here trivial) ?_ ?_ ?_ ?_ ?_ ?_ ?_ ?_ ?_ ?_⟩
    · rw [update_self]
      exact ⟨busy, irq, trivial⟩
    · intro a' ne
      refine (h.mine a').outside (h.apart here trivial ne) (fun b' enters todo => ?_)
        fun b' waits mine none => ?_
      · have off : b' ∉ (r :: q).map (·.b) := h.not_queued owned enters rfl id
        have ne : b' ≠ r.b := fun same => off (by simp [same])
        rwa [settled, Store.buf_settle_ne _ ne]
      rw [settled]
      by_cases same : b' = r.b
      · rw [same]
        exact Store.not_todo_settle d.store r.b
      rw [Store.buf_settle_ne _ same]
      refine mine fun r' mem => ?_
      rcases List.mem_cons.1 mem with rfl | mem
      · exact fun eq => same eq.symm
      · exact none r' mem
    · rw [history, fin, List.append_assoc]
      exact h.requests
    · intro r' mem'
      have before := h.waiting r' (List.mem_cons_of_mem r mem')
      have ne : r'.caller ≠ .intr := by
        intro same
        rw [same, here] at before
        exact before
      rwa [update_of_ne ne]
    · intro r' mem'
      rw [settled, Store.buf_settle_ne _ (away mem')]
      exact h.todo r' (List.mem_cons_of_mem r mem')
    · intro r' mem'
      rw [history, served_snoc]
      refine (Store.buf_transfer_ne _ (away mem')).trans ?_
      exact h.contents r' (List.mem_cons_of_mem r mem')
    · have distinct := h.distinct
      rw [List.map_cons, List.nodup_cons] at distinct
      exact distinct.2
    · rw [update_self, history, fin]
      refine .idle trivial busy irq ?_ ?_ linked
      · rw [settled, after]
      rw [List.map_append]
      exact started
    · exact fun _ => .inr (.inl trivial)
    · intro disksize fits
      rw [history, fin] at fits
      rw [history, served_snoc]
      have own : (served s₀ d.history).owner r.b = some r.caller :=
        h.stage.owner ▸ h.owner owned mem
      obtain ⟨dev, inside⟩ := fits r (by simp)
      rw [← h.contents r mem] at dev inside
      refine exec_run_snoc (h.accepts disksize fun r' mem' => fits r' (by simp [mem'])) ?_
      exact Memide.iderw_spec own ((h.stage.todo r.b).1 (h.todo r mem)) dev inside

end Queued

/-! ## Every interleaving -/

/-- The instruction of party `a` at `x`, in a system with processes `P` and buffers `B`. -/
abbrev codeAt (a : Party P) (x : Place B) : Instr (Driver (Party P) B) B (Input B) (Place B) :=
  code a x

/-- `idestart` has found a request for a block that the disk does not have. -/
def Panicked (d : Driver (Party P) B) (places : Party P → Place B) : Prop :=
  (∃ a, places a = .panic "incorrect blockno") ∧ ∃ r ∈ d.enqueued, FSSIZE ≤ r.contents.blockno

/-- The queue is in order, unless `idestart` has panicked. -/
def Running (s₀ : Store (Party P) B) (d : Driver (Party P) B) (places : Party P → Place B) : Prop :=
  Panicked d places ∨ ∃ q, Queued s₀ d places q

theorem enqueued_compute (does : code a x = .compute f) (result : f c d i = (d', y)) :
    d.enqueued <+: d'.enqueued := by
  cases x <;> cases does <;> dsimp only at result
  case user => cases i <;> cases result <;> exact List.prefix_rfl
  case walk b pp =>
    split at result
    · cases result
      exact List.prefix_rfl
    cases result
    exact List.prefix_append ..
  case start b | intrStart b =>
    rcases idestart_cases result with ⟨-, rfl, -⟩ | ⟨-, -, rfl, -⟩ | ⟨-, -, -, rfl⟩
    all_goals exact List.prefix_rfl
  case device =>
    split at result
    · cases result
      exact List.prefix_rfl
    cases result
    unfold Driver.complete
    split <;> exact List.prefix_rfl
  all_goals
    repeat' split at result
    all_goals
      cases result
      exact List.prefix_rfl

theorem Panicked.compute (h : Panicked d places) (here : places a = x)
    (does : code a x = .compute f) (result : f c d i = (d', y)) :
    Panicked d' (update places a y) := by
  obtain ⟨⟨a', panics⟩, r, mem, out⟩ := h
  refine ⟨⟨a', ?_⟩, r, (enqueued_compute does result).subset mem, out⟩
  by_cases same : a' = a
  · subst same
    rw [here] at panics
    subst panics
    cases does
    cases result
    exact update_self ..
  · rwa [update_of_ne same]

theorem Panicked.leads (h : Panicked d places) (here : places a = x)
    (goes : (codeAt a x).Leads y) : Panicked d (update places a y) := by
  obtain ⟨⟨a', panics⟩, out⟩ := h
  refine ⟨⟨a', ?_⟩, out⟩
  by_cases same : a' = a
  · subst same
    rw [here] at panics
    subst panics
    exact goes.elim
  · rwa [update_of_ne same]

namespace Queued

variable (h : Queued s₀ d places q)
include h

theorem idestart (here : places a = x) (inside : x.Inside)
    (idle : Idle d (places .intr)) (eq : q = r :: q') (role : Role a z) (out : ¬ z.Inside)
    (rests : (update places a z .intr).Rests) (waits : ∀ b, x.Waiting b → z.Waiting b)
    (mine : Mine d (update places a z .intr) q z) (result : Ide.idestart d r.b x z = (d', y)) :
    Running s₀ d' (update places a y) := by
  rcases idestart_cases result with ⟨out, rfl, rfl⟩ | ⟨-, busy, -⟩ | ⟨-, -, rfl, rfl⟩
  · have mem : r ∈ q := by simp [eq]
    refine .inl ⟨⟨a, update_self ..⟩, r, ?_, ?_⟩
    · simp [h.requests, mem]
    · rwa [← h.contents r mem, ← (h.stage.eq_idle idle).1]
  · rw [idle.1] at busy
    cases busy
  · exact .inr ⟨q, h.launch here inside idle eq role out rests waits mine⟩

theorem computeProc (owned : Owned d places) (here : places (.proc p) = x)
    (does : code (.proc p) x = .compute f) (result : f c d i = (d', y)) :
    Running s₀ d' (update places (.proc p) y) := by
  have role : Role (.proc p) x := here ▸ h.roles (.proc p)
  have mine : Mine d (places .intr) q x := here ▸ h.mine (.proc p)
  cases x
  case user =>
    rcases user_cases does result with ⟨b, rfl, rfl⟩ | ⟨o, by_, rfl, rfl⟩
    · exact .inr ⟨q, h.moveProc here trivial False.elim trivial
        (fun _ _ => False.elim) fun _ => False.elim⟩
    rw [← here, update_eq_self]
    exact .inr ⟨q, h.user owned here by_⟩
  case check b =>
    cases does
    dsimp only at result
    have stop (msg : String) (other : msg ≠ "incorrect blockno") :
        Queued s₀ d (update places (.proc p) (.panic msg)) q :=
      h.moveProc here other False.elim trivial (fun _ _ => False.elim)
        fun _ => False.elim
    repeat' split at result
    all_goals cases result
    · exact .inr ⟨q, stop _ (by decide)⟩
    · exact .inr ⟨q, stop _ (by decide)⟩
    · exact .inr ⟨q, stop _ (by decide)⟩
    next todo _ =>
      exact .inr ⟨q, h.moveProc here trivial False.elim todo
        (fun _ _ => False.elim) fun _ => False.elim⟩
  case append b =>
    cases does
    cases result
    exact .inr ⟨q, h.append owned here⟩
  case walk b pp =>
    cases does
    dsimp only at result
    split at result
    next next =>
      cases result
      exact .inr ⟨q, h.walk here next⟩
    next end_ =>
      cases result
      exact .inr ⟨_, h.enqueue owned here end_⟩
  case first b =>
    cases does
    cases result
    exact .inr ⟨q, h.first here⟩
  case start b =>
    cases does
    obtain ⟨idle, r, eq, rfl⟩ := mine
    refine h.idestart (z := .test r.b) here trivial idle eq trivial id ?_ (fun _ => id)
      (fun none => ?_) result
    · rw [intr_proc]
      exact idle.2.2
    · exact absurd rfl (none r (by simp [eq]))
  case test b =>
    cases does
    cases result
    split
    · exact .inr ⟨q, h.moveProc here trivial False.elim mine (fun _ _ => id)
        fun _ => False.elim⟩
    next done =>
      refine .inr ⟨q, h.moveProc here trivial False.elim trivial
        (fun r mem waits => ?_) fun _ => False.elim⟩
      exact absurd (waits ▸ h.todo r mem) done
  case panic msg =>
    cases does
    cases result
    rw [← here, update_eq_self]
    exact .inr ⟨q, h⟩
  all_goals first | exact role.elim | cases does

theorem computeIntr (owned : Owned d places) (here : places .intr = x)
    (does : code .intr x = .compute f) (result : f c d i = (d', y)) :
    Running s₀ d' (update places .intr y) := by
  have role : Role (.intr : Party P) x := here ▸ h.roles .intr
  have mine : Mine d (places .intr) q x := here ▸ h.mine .intr
  rw [here] at mine
  cases x
  case intrIdle =>
    cases does
    dsimp only at result
    split at result
    next irq =>
      cases result
      exact .inr ⟨q, h.notify here irq⟩
    · cases result
      rw [← here, update_eq_self]
      exact .inr ⟨q, h⟩
  case intrHead =>
    cases does
    dsimp only at result
    obtain ⟨b, head, popped⟩ := h.pop here
    rw [head] at result
    cases result
    exact .inr ⟨q, popped⟩
  case intrRead b =>
    cases does
    dsimp only at result
    obtain ⟨idle, filled⟩ := h.fill here
    unfold Store.fill at filled
    split at result
    next dirty =>
      cases result
      rw [if_pos dirty] at filled
      exact .inr ⟨q, filled⟩
    next clean =>
      rw [idle] at result
      cases result
      rw [if_neg clean] at filled
      exact .inr ⟨q, filled⟩
  case intrFlags b =>
    cases does
    cases result
    exact .inr (h.finish owned here)
  case intrNext =>
    cases does
    dsimp only at result
    have idle : Idle d (places .intr) := here ▸ mine
    obtain ⟨store, started, linked⟩ := h.stage.eq_idle idle
    have rests (z : Place B) (rests : z.Rests) :
        Stage (served s₀ d.history) ((finished d.history).map (·.b)) d z q :=
      .idle rests idle.1 idle.2.1 store started linked
    split at result
    next none =>
      cases result
      rw [none] at linked
      have empty : q = [] := List.map_eq_nil_iff.1 linked.eq_nil
      exact .inr ⟨q, h.moveIntr here trivial False.elim trivial
        (rests _ trivial) .rfl fun _ _ => .inl empty⟩
    rename_i b some
    cases result
    rw [some] at linked
    obtain ⟨l, eq⟩ := linked.eq_cons
    obtain ⟨r, q', rfl, at_, -⟩ := List.map_eq_cons_iff.1 eq
    exact .inr ⟨_, h.moveIntr here trivial (fun _ => h.alone here trivial)
      ⟨mine, r, q', rfl, at_⟩ (rests _ trivial) .rfl fun _ _ => .inr trivial⟩
  case intrStart b =>
    cases does
    obtain ⟨idle, r, q', eq, rfl⟩ := mine
    refine h.idestart (z := .intrLeave) here trivial (here ▸ idle) eq trivial id ?_ (fun _ => id)
      trivial result
    rw [update_self]
    trivial
  all_goals first | exact role.elim | cases does

theorem compute (owned : Owned d places) (here : places a = x) (does : code a x = .compute f)
    (result : f c d i = (d', y)) : Running s₀ d' (update places a y) := by
  cases a with
  | proc p => exact h.computeProc owned here does result
  | intr => exact h.computeIntr owned here does result
  | device =>
    have role : Role (.device : Party P) x := here ▸ h.roles .device
    cases x <;> try exact role.elim
    cases does
    dsimp only at result
    split at result
    · cases result
      rw [← here, update_eq_self]
      exact .inr ⟨q, h⟩
    next busy =>
      cases result
      rw [← here, update_eq_self]
      exact .inr ⟨q, h.complete busy⟩

theorem leadsProc (here : places (.proc p) = x) (goes : (codeAt (.proc p) x).Leads y)
    (free : ∀ lk, codeAt (.proc p) x = .acquire lk y → ∀ a', ¬ (places a').Inside) :
    Queued s₀ d (update places (.proc p) y) q := by
  have role : Role (.proc p) x := here ▸ h.roles (.proc p)
  have mine : Mine d (places .intr) q x := here ▸ h.mine (.proc p)
  cases x <;> try exact role.elim
  all_goals cases goes
  case enter b =>
    exact h.moveProc here trivial (fun _ a' also => absurd also (free _ rfl a')) mine
      (fun _ _ => False.elim) fun _ => False.elim
  case sleep b =>
    exact h.moveProc here trivial False.elim mine (fun _ _ => id)
      fun _ => False.elim
  case leave b =>
    exact h.moveProc here trivial False.elim trivial (fun _ _ => False.elim)
      fun _ => False.elim

theorem leadsIntr (here : places .intr = x) (goes : (codeAt (.intr : Party P) x).Leads y)
    (free : ∀ lk, codeAt (.intr : Party P) x = .acquire lk y → ∀ a', ¬ (places a').Inside) :
    Queued s₀ d (update places .intr y) q := by
  have role : Role (.intr : Party P) x := here ▸ h.roles .intr
  have mine : Mine d (places .intr) q x := here ▸ h.mine .intr
  have stage := h.stage
  rw [here] at stage mine
  cases x <;> try exact role.elim
  all_goals cases goes
  case intrEnter =>
    refine h.moveIntr here trivial (fun _ a' also => absurd also (free _ rfl a')) trivial ?_
      ⟨fun idle => idle.2.2.elim, fun idle => idle.2.2.elim⟩ fun _ => False.elim
    cases stage with
    | idle rests | working rests => exact rests.elim
    | serving at_ | filled at_ => cases at_
    | ready busy alert store data started linked =>
      refine .ready busy (.inr ?_) store data started linked
      rcases alert with ⟨-, rests⟩ | ⟨irq, -⟩
      · exact rests.elim
      · exact ⟨irq, .inr rfl⟩
  case intrWakeup b =>
    obtain ⟨store, started, linked⟩ := stage.eq_idle mine
    exact h.moveIntr here trivial (fun _ => h.alone here trivial) mine
      (.idle trivial mine.1 mine.2.1 store started linked) .rfl fun _ _ => .inr trivial
  case intrLeave =>
    refine h.moveIntr here trivial False.elim trivial ?_ .rfl fun _ => False.elim
    cases stage with
    | idle _ busy irq store started linked =>
      exact .idle trivial busy irq store started linked
    | working _ busy irq store started linked =>
      exact .working trivial busy irq store started linked
    | serving at_ | filled at_ => cases at_
    | ready busy alert store data started linked =>
      refine .ready busy ?_ store data started linked
      rcases alert with ⟨irq, -⟩ | ⟨-, at_⟩
      · exact .inl ⟨irq, trivial⟩
      · rcases at_ with at_ | at_ <;> cases at_

theorem leads (here : places a = x) (goes : (codeAt a x).Leads y)
    (free : ∀ lk, codeAt a x = .acquire lk y → ∀ a', ¬ (places a').Inside) :
    Queued s₀ d (update places a y) q := by
  cases a with
  | proc p => exact h.leadsProc here goes free
  | intr => exact h.leadsIntr here goes free
  | device =>
    have role : Role (.device : Party P) x := here ▸ h.roles .device
    cases x <;> first | exact role.elim | exact goes.elim

theorem stage_of_outside (outside : ∀ a, ¬ (places a).Inside) :
    (q = [] ∧ Idle d (places .intr) ∧ d.store = served s₀ d.history ∧
      d.started = (finished d.history).map (·.b)) ∨
    (∃ r q', q = r :: q' ∧
      d.device.busy = some (command ((served s₀ d.history).buf r.b)) ∧
      d.store = served s₀ d.history ∧ d.started = (finished d.history).map (·.b) ++ [r.b]) ∨
    ∃ r q', q = r :: q' ∧ d.device.busy = none ∧
      (d.device.irq = true ∨ places .intr = .intrEnter) ∧
      d.store = (served s₀ d.history).write r.b ∧
      d.started = (finished d.history).map (·.b) ++ [r.b] := by
  have stage := h.stage
  cases stage with
  | idle rests busy irq store started =>
    have empty : q = [] := by
      rcases h.why ⟨busy, irq, rests⟩ with none | ⟨a, going⟩
      · exact none
      · exact absurd going.inside (outside a)
    exact .inl ⟨empty, ⟨busy, irq, rests⟩, store, started⟩
  | @working r q _ busy _ store started => exact .inr (.inl ⟨r, q, rfl, busy, store, started⟩)
  | @ready r q busy alert store _ started =>
    refine .inr (.inr ⟨r, q, rfl, busy, ?_, store, started⟩)
    rcases alert with ⟨high, -⟩ | ⟨-, at_ | at_⟩
    · exact .inl high
    · exact .inr at_
    · exact absurd (at_ ▸ trivial) (outside .intr)
  | serving at_ | filled at_ => exact absurd (at_ ▸ trivial) (outside .intr)

end Queued

theorem holds_of_inside (sound : Sound code Place.Holds s) (inside : (s.places a).Inside) :
    (s.task a).phase.Holds Place.Holds idelock := by
  refine sound.holds_of_place nofun inside.holds fun x chan lk does => ?_
  generalize s.places a = y at inside does
  cases x <;> cases does
  exact inside

theorem not_inside_of_free (sound : Sound code Place.Holds s) (free : s.lock idelock = none)
    (a : Party P) : ¬ (s.places a).Inside := by
  intro inside
  have taken := sound.locks a idelock (holds_of_inside sound inside)
  rw [free] at taken
  cases taken

structure Orderly (s₀ : Store (Party P) B)
    (s : Sleep.Machine (Party P) (Driver (Party P) B) B (Place B)) : Prop where
  sound : Sound code Place.Holds s
  sleepers : s.Sleepers code
  owned : Owned s.data s.places
  running : Running s₀ s.data s.places
  awaited : Awaited code Place.Holds (fun _ => idelock) (fun b d => ToDo (d.store.buf b))
    (fun x b => x = .intrWakeup b) s

theorem Orderly.step {e : Sleep.Event (Party P) (Input B)} (h : Orderly s₀ s)
    (st : Step code s e s') : Orderly s₀ s' where
  sound := h.sound.step code_discipline st
  sleepers := h.sound.sleepers h.sleepers st
  owned := h.owned.step st
  running := by
    rcases st.place with
      ⟨data, places⟩ | ⟨a, x, y, here, places, ⟨data, goes, free⟩ | ⟨f, i, does, eq⟩⟩
    · rw [data, places]
      exact h.running
    · have at_ : s.places a = x := by rw [Machine.places, here]; rfl
      rw [data, places]
      rcases h.running with panicked | ⟨q, queued⟩
      · exact .inl (panicked.leads at_ goes)
      refine .inr ⟨q, queued.leads at_ goes fun lk does => ?_⟩
      have lock : lk = idelock := by cases x <;> cases does <;> rfl
      exact not_inside_of_free h.sound (lock ▸ free lk does)
    · have at_ : s.places a = x := by rw [Machine.places, here]; rfl
      rw [places]
      rcases h.running with panicked | ⟨q, queued⟩
      · exact .inl (panicked.compute at_ does eq)
      · exact queued.compute h.owned at_ does eq
  awaited := h.awaited.step code_heralds h.sound h.sleepers h.owned st

theorem Orderly.start (store : Store (Party P) B) (havedisk1 : Bool) (qnext : B → Option B)
    (data : Block) : Orderly store
      (Machine.start (Driver.init store havedisk1 qnext data) home :
        Sleep.Machine (Party P) (Driver (Party P) B) B (Place B)) where
  sound := Sound.start _ fun a _ => by cases a <;> exact id
  sleepers := Machine.sleepers_start _ _
  owned := fun a b => by cases a <;> exact False.elim
  running := by
    refine .inr ⟨[], ?_⟩
    constructor
    case roles | mine => exact fun a => by cases a <;> trivial
    case inside => exact fun a _ inside => by cases a <;> exact inside.elim
    case requests => rfl
    case waiting | todo | contents => nofun
    case distinct => exact List.nodup_nil
    case stage => exact .idle trivial rfl rfl rfl rfl rfl
    case why => exact fun _ => .inl rfl
    case accepts => exact fun _ _ => rfl
  awaited := Awaited.start fun a c lk y does => by cases a <;> cases does

/-- In every state reached, `idestart` has panicked only for a block that the disk does not have.
Otherwise requests finish in the order in which they were made; `idequeue` leads through the
unfinished ones, of which the first alone was started; and the store is the one that `memide.c`
leaves, but for a write that the device has completed. -/
theorem ide_refines_memide (store : Store (Party P) B) (havedisk1 : Bool) (qnext : B → Option B)
    (data : Block) (es : List (Sleep.Event (Party P) (Input B)))
    {s : Sleep.Machine (Party P) (Driver (Party P) B) B (Place B)}
    (reached : exec (run (Sleep.step code) es)
      (Machine.start (Driver.init store havedisk1 qnext data) home) = (.ok ⟨⟩, s)) :
    (∀ a, s.places a = .panic "incorrect blockno" →
      ∃ r ∈ s.data.enqueued, FSSIZE ≤ r.contents.blockno) ∧
    ((∀ a, s.places a ≠ .panic "incorrect blockno") →
      ∃ q : List (Request (Party P) B),
        s.data.enqueued = finished s.data.history ++ q ∧
        (∀ r ∈ q, (s.places r.caller).Waiting r.b) ∧
        (s.lock idelock = none →
          Linked s.data.qnext s.data.idequeue (q.map (·.b)) ∧
          s.data.started = (finished s.data.history ++ q.take 1).map (·.b) ∧
          (∀ cmd, s.data.device.busy = some cmd →
            ∃ r, q.head? = some r ∧ cmd = command r.contents) ∧
          (q = [] ↔ s.data.device.busy = none ∧ s.data.device.irq = false ∧
            s.places .intr ≠ .intrEnter) ∧
          (∀ a b, (s.task a).state = .SLEEPING → (s.task a).chan = some b →
            ∃ r ∈ q, r.caller = a ∧ r.b = b) ∧
          ∀ disksize, (∀ r ∈ finished s.data.history,
              r.contents.dev = 1 ∧ r.contents.blockno < disksize) →
            ∃ m, exec (run (Memide.perform disksize) s.data.history) store = (.ok ⟨⟩, m) ∧
              s.data.store.owner = m.owner ∧ s.data.store.buf = m.buf ∧
              (s.data.store.disk = m.disk ∨ s.data.device.busy = none ∧
                ∃ r, q.head? = some r ∧ s.data.store.disk = (m.transfer r.b).disk))) := by
  have h : Orderly store s :=
    of_run reached (Orderly.start store havedisk1 qnext data) fun s e h => h.step (next_step code s e)
  rcases h.running with ⟨⟨a, panics⟩, out⟩ | ⟨q, queued⟩
  · exact ⟨fun _ _ => out, fun calm => absurd panics (calm a)⟩
  refine ⟨fun a panics => absurd panics (queued.calm a), fun _ => ⟨q, queued.requests,
    queued.waiting, fun free => ?_⟩⟩
  have outside := not_inside_of_free h.sound free
  refine ⟨queued.stage.linked_of_outside (outside .intr), ?_, ?_, ?_, fun a b slept chan => ?_,
    fun disksize fits => ⟨_, queued.accepts disksize fits, queued.stage.owner, ?_, ?_⟩⟩
  · rw [List.map_append]
    rcases queued.stage_of_outside outside with
      ⟨rfl, -, -, started⟩ | ⟨r, q', rfl, -, -, started⟩ | ⟨r, q', rfl, -, -, -, started⟩
    · simp [started]
    · simp [started]
    · simp [started]
  · intro cmd busy
    rcases queued.stage_of_outside outside with
      ⟨-, idle, -⟩ | ⟨r, q', rfl, works, -⟩ | ⟨r, q', -, none, -⟩
    · cases idle.1.symm.trans busy
    · cases works.symm.trans busy
      exact ⟨r, rfl, by rw [queued.contents r List.mem_cons_self]⟩
    · cases none.symm.trans busy
  · rcases queued.stage_of_outside outside with
      ⟨rfl, ⟨none, low, rests⟩, -⟩ | ⟨r, q', rfl, works, -⟩ | ⟨r, q', rfl, -, alert, -⟩
    · refine ⟨fun _ => ⟨none, low, fun at_ => ?_⟩, fun _ => rfl⟩
      rw [at_] at rests
      exact rests
    · refine ⟨nofun, fun idle => ?_⟩
      cases works.symm.trans idle.1
    refine ⟨nofun, fun idle => ?_⟩
    rcases alert with high | at_
    · cases high.symm.trans idle.2.1
    · exact absurd at_ idle.2.2
  · have todo := h.awaited.reason_of_free code_heralds h.sound h.sleepers free slept chan
    obtain ⟨chan', x, lk, y, is, phase, does⟩ := h.sleepers a slept
    cases chan.symm.trans is
    have place : s.places a = .test b := by
      rw [Machine.places, phase]
      cases x <;> cases does
      rfl
    have mine := queued.mine a
    rw [place] at mine
    by_contra none
    refine mine (fun r mem same => none ⟨r, mem, ?_, same⟩) todo
    exact queued.caller h.owned mem (by rw [place]; exact rfl) same
  · funext b
    refine queued.stage.buf fun at_ => outside .intr ?_
    rw [at_]
    trivial
  · rcases queued.stage_of_outside outside with
      ⟨-, -, same, -⟩ | ⟨r, q', -, -, same, -⟩ | ⟨r, q', rfl, none, -, write, -⟩
    · exact .inl (by rw [same])
    · exact .inl (by rw [same])
    · exact .inr ⟨none, r, rfl, by rw [write, Store.disk_transfer]⟩

end

/-- Process 0 reads block 3 into buffer 0 and sleeps until the handler has served its request. -/
def oneRead : List (Sleep.Event (Party (Fin 1)) (Input (Fin 2))) :=
  [.run (.proc 0) (.lock 0), .run (.proc 0) (.edit 0 ⟨1, 3, false, false, 1, Block.zero⟩)] ++
    List.replicate 12 (.run (.proc 0) (.iderw 0)) ++ [.drop, .run .device (.lock 0)] ++
    List.replicate 11 (.run .intr (.lock 0))

def oneReadStart : Sleep.Machine (Party (Fin 1)) (Driver (Party (Fin 1)) (Fin 2)) (Fin 2)
    (Place (Fin 2)) :=
  .start (.init ⟨fun _ => none, fun _ => ⟨0, 0, false, false, 0, Block.zero⟩,
    fun _ _ => Block.zero⟩ true (fun _ => none) Block.zero) home

theorem ide_refines_memide_oneRead :
    ((exec (run (Sleep.step code) oneRead) oneReadStart).2.data.store.buf 0).valid = true ∧
      (exec (run (Sleep.step code) oneRead) oneReadStart).2.data.started = [0] ∧
      ∃ m, exec (run (Memide.perform 1000)
          (exec (run (Sleep.step code) oneRead) oneReadStart).2.data.history)
          oneReadStart.data.store = (.ok ⟨⟩, m) ∧
        (exec (run (Sleep.step code) oneRead) oneReadStart).2.data.store.buf = m.buf := by
  obtain ⟨-, result⟩ := ide_refines_memide _ true (fun _ => none) Block.zero oneRead
    (s := (exec (run (Sleep.step code) oneRead) oneReadStart).2) (exec_eq_of_ok rfl)
  obtain ⟨q, -, -, whenFree⟩ := result fun a => by
    cases a with
    | proc p => revert p; decide +kernel
    | intr | device => decide +kernel
  obtain ⟨-, -, -, -, -, memide⟩ := whenFree (by decide +kernel)
  obtain ⟨m, accepted, -, same, -⟩ := memide 1000 (by decide +kernel)
  exact ⟨by decide +kernel, by decide +kernel, m, accepted, same⟩

end Xv6.Ide
