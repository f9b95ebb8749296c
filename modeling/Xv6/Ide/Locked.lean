import Xv6.Ide.Driver

/-!
# Locked buffers

What a request does to the buffers and the disks, part by part; a process in `iderw` has its buffer
locked, and it sleeps there only while its request is not done.
-/

set_option linter.unusedSectionVars false

namespace Xv6.Ide

open Lib Sleep Function

/-! ## Requests served at once -/

def Op.By {A B : Type} (c : A) : Op A B → Prop
  | .lock a _ | .unlock a _ | .edit a _ _ => a = c
  | .iderw _ => False

namespace Store

variable {A B : Type} [DecidableEq A] [DecidableEq B]

def write (s : Store A B) (b : B) : Store A B :=
  if (s.buf b).dirty then s.setBlock ((s.buf b).dev % 2) (s.buf b).blockno (s.buf b).data else s

/-- The buffer after the data have arrived, unless it was to be written. -/
def fill (s : Store A B) (b : B) (w : Block) : Store A B :=
  if (s.buf b).dirty then s else s.setBuf b { s.buf b with data := w }

def settle (s : Store A B) (b : B) : Store A B :=
  s.setBuf b { s.buf b with valid := true, dirty := false }

def transfer (s : Store A B) (b : B) : Store A B :=
  ((s.write b).fill b (s.disk ((s.buf b).dev % 2) (s.buf b).blockno)).settle b

def effect (s : Store A B) : Op A B → Store A B
  | .lock a b => s.lock a b
  | .unlock a b => s.unlock a b
  | .edit a b contents => s.edit a b contents
  | .iderw r => s.transfer r.b

section

variable (s : Store A B)
include s

@[simp] theorem buf_write (b : B) : (s.write b).buf = s.buf := by
  unfold write
  split <;> rfl

@[simp] theorem owner_write (b : B) : (s.write b).owner = s.owner := by
  unfold write
  split <;> rfl

@[simp] theorem owner_fill (b : B) (w : Block) : (s.fill b w).owner = s.owner := by
  unfold fill
  split <;> rfl

theorem buf_fill_ne {b c : B} (w : Block) (ne : c ≠ b) : (s.fill b w).buf c = s.buf c := by
  unfold fill
  split
  · rfl
  · exact update_of_ne ne ..

theorem todo_fill (b c : B) (w : Block) : ToDo ((s.fill b w).buf c) ↔ ToDo (s.buf c) := by
  unfold fill
  split
  · rfl
  by_cases same : c = b
  · subst same
    simp [setBuf, ToDo]
  · simp [setBuf, same]

theorem buf_settle_ne {b c : B} (ne : c ≠ b) : (s.settle b).buf c = s.buf c :=
  update_of_ne ne ..

theorem not_todo_settle (b : B) : ¬ ToDo ((s.settle b).buf b) := by
  simp [settle, setBuf, ToDo]

theorem disk_transfer (b : B) : (s.transfer b).disk = (s.write b).disk := by
  show (fill _ b _).disk = _
  unfold fill
  split <;> rfl

theorem buf_transfer_ne {b c : B} (ne : c ≠ b) : (s.transfer b).buf c = s.buf c := by
  rw [transfer, buf_settle_ne _ ne, buf_fill_ne _ _ ne, buf_write]

end

/-! What the others do leaves a locked buffer alone, and does not mind its request. -/

section

variable (s : Store A B) {b b' : B} (o : Option A) (k : Buf) (w : Block)

theorem write_setOwner : (s.setOwner b' o).write b = (s.write b).setOwner b' o := by
  unfold write
  split <;> rename_i dirty
  · rw [if_pos (show (s.buf b).dirty = true from dirty)]
    rfl
  · rw [if_neg (show ¬ (s.buf b).dirty = true from dirty)]

theorem fill_setOwner : (s.setOwner b' o).fill b w = (s.fill b w).setOwner b' o := by
  unfold fill
  split <;> rename_i dirty
  · rw [if_pos (show (s.buf b).dirty = true from dirty)]
  rw [if_neg (show ¬ (s.buf b).dirty = true from dirty)]
  rfl

theorem buf_setBuf_ne (ne : b ≠ b') : (s.setBuf b' k).buf b = s.buf b := update_of_ne ne ..

theorem write_setBuf (ne : b ≠ b') : (s.setBuf b' k).write b = (s.write b).setBuf b' k := by
  unfold write
  rw [s.buf_setBuf_ne k ne]
  split <;> rfl

theorem fill_setBuf (ne : b ≠ b') : (s.setBuf b' k).fill b w = (s.fill b w).setBuf b' k := by
  unfold fill
  rw [s.buf_setBuf_ne k ne]
  split
  · rfl
  · simp only [setBuf, update_comm ne]

end

theorem effect_by {s : Store A B} {c : A} {o : Op A B} (by_ : o.By c) :
    (∀ t : Store A B, t.owner = s.owner → t.effect o = t) ∨
      ∃ b', (s.owner b' = none ∨ s.owner b' = some c) ∧
        ((∃ v, (v = none ∨ v = some c) ∧
            ∀ t : Store A B, t.owner = s.owner → t.effect o = t.setOwner b' v) ∨
          ∃ k, ∀ t : Store A B, t.owner = s.owner → t.effect o = t.setBuf b' k) := by
  cases o with
  | lock a b' =>
    cases by_
    by_cases free : s.owner b' = none
    · refine .inr ⟨b', .inl free, .inl ⟨some c, .inr rfl, fun t same => ?_⟩⟩
      rw [effect, lock, same, if_pos free]
    refine .inl fun t same => ?_
    rw [effect, lock, same, if_neg free]
  | unlock a b' =>
    cases by_
    by_cases mine : s.owner b' = some c
    · refine .inr ⟨b', .inr mine, .inl ⟨none, .inl rfl, fun t same => ?_⟩⟩
      rw [effect, unlock, same, if_pos mine]
    refine .inl fun t same => ?_
    rw [effect, unlock, same, if_neg mine]
  | edit a b' k =>
    cases by_
    by_cases mine : s.owner b' = none ∨ s.owner b' = some c
    · refine .inr ⟨b', mine, .inr ⟨k, fun t same => ?_⟩⟩
      rw [effect, edit, same, if_pos mine]
    refine .inl fun t same => ?_
    rw [effect, edit, same, if_neg mine]
  | iderw r => exact by_.elim

theorem spared {s : Store A B} {a c : A} {b : B} {o : Op A B} (by_ : o.By c)
    (own : s.owner b = some a) (ne : a ≠ c) :
    (s.effect o).owner b = some a ∧ (s.effect o).buf b = s.buf b ∧ (s.effect o).disk = s.disk ∧
      (s.write b).effect o = (s.effect o).write b ∧
      ∀ w, ((s.write b).fill b w).effect o = ((s.effect o).write b).fill b w := by
  rcases effect_by (s := s) by_ with same | ⟨b', free, set⟩
  · rw [same s rfl, same (s.write b) (by simp)]
    exact ⟨own, rfl, rfl, rfl, fun w => same _ (by simp)⟩
  have other : b ≠ b' := by
    rintro rfl
    rw [own] at free
    rcases free with free | mine
    · cases free
    cases mine
    exact ne rfl
  rcases set with ⟨v, -, set⟩ | ⟨k, set⟩
  · rw [set s rfl, set (s.write b) (by simp)]
    refine ⟨?_, rfl, rfl, (s.write_setOwner v).symm, fun w => ?_⟩
    · exact (update_of_ne other ..).trans own
    · rw [set _ (by simp), s.write_setOwner, fill_setOwner]
  rw [set s rfl, set (s.write b) (by simp)]
  refine ⟨own, s.buf_setBuf_ne k other, rfl, (s.write_setBuf k other).symm, fun w => ?_⟩
  rw [set _ (by simp), s.write_setBuf k other, fill_setBuf _ _ _ other]

end Store

/-! ## Locked buffers -/

section

variable {P B : Type} [DecidableEq P] [DecidableEq B]

/-- In `iderw` with buffer `b`, past the checks. -/
def Place.At (b : B) : Place B → Prop
  | .enter c | .append c | .walk c _ | .first c | .start c | .test c | .sleep c | .leave c => c = b
  | _ => False

/-- A process has the buffer locked for which it is in `iderw`. -/
def Owned (d : Driver (Party P) B) (places : Party P → Place B) : Prop :=
  ∀ a b, (places a).At b → d.store.owner b = some a

variable {d d' : Driver (Party P) B} {places : Party P → Place B} {a : Party P} {x y : Place B}
  {b : B} {c : Bool} {i : Input B}
  {f : Bool → Driver (Party P) B → Input B → Driver (Party P) B × Place B}

theorem idestart_cases {here next : Place B} (result : idestart d b here next = (d', y)) :
    FSSIZE ≤ (d.store.buf b).blockno ∧ d' = d ∧ y = .panic "incorrect blockno" ∨
      (d.store.buf b).blockno < FSSIZE ∧ d.device.busy.isSome ∧ d' = d ∧ y = here ∨
      (d.store.buf b).blockno < FSSIZE ∧ d.device.busy = none ∧ y = next ∧
        d' = { d with
          device := { d.device with busy := some (command (d.store.buf b)) }
          started := d.started ++ [b] } := by
  unfold idestart at result
  split at result
  next out =>
    cases result
    exact .inl ⟨out, rfl, rfl⟩
  rename_i inside
  split at result
  next busy =>
    cases result
    exact .inr (.inl ⟨by omega, busy, rfl, rfl⟩)
  next idle =>
    cases result
    exact .inr (.inr ⟨by omega, by simpa using idle, rfl, rfl⟩)

theorem user_cases (does : code a .user = .compute f) (result : f c d i = (d', y)) :
    (∃ b, d' = d ∧ y = .check b) ∨ ∃ o : Op (Party P) B, o.By a ∧ y = .user ∧
      d' = { d with store := d.store.effect o, history := d.history ++ [o] } := by
  cases does
  cases i with
  | lock b => cases result; exact .inr ⟨.lock a b, rfl, rfl, rfl⟩
  | unlock b => cases result; exact .inr ⟨.unlock a b, rfl, rfl, rfl⟩
  | edit b k => cases result; exact .inr ⟨.edit a b k, rfl, rfl, rfl⟩
  | iderw b => cases result; exact .inl ⟨b, rfl, rfl⟩

theorem owner_compute (does : code a x = .compute f) (result : f c d i = (d', y))
    (inside : x ≠ .user) :
    d'.store.owner = d.store.owner ∧ ∀ b, y.At b → x.At b ∨ d.store.owner b = some a := by
  cases x <;> cases does <;> dsimp only at result
  case user => exact absurd rfl inside
  case check b =>
    repeat' split at result
    all_goals cases result
    · exact ⟨rfl, fun _ => False.elim⟩
    · exact ⟨rfl, fun _ => False.elim⟩
    · exact ⟨rfl, fun _ => False.elim⟩
    next locked _ _ =>
      refine ⟨rfl, ?_⟩
      rintro _ rfl
      exact .inr (not_not.1 locked)
  case walk b pp =>
    split at result
    · cases result
      exact ⟨rfl, fun _ => .inl⟩
    cases result
    refine ⟨?_, fun _ => .inl⟩
    cases pp <;> rfl
  case first b | test b =>
    cases result
    refine ⟨rfl, ?_⟩
    split <;> exact fun _ => .inl
  case start b =>
    rcases idestart_cases result with ⟨-, rfl, rfl⟩ | ⟨-, -, rfl, rfl⟩ | ⟨-, -, rfl, rfl⟩
    · exact ⟨rfl, fun _ => False.elim⟩
    · exact ⟨rfl, fun _ => .inl⟩
    · exact ⟨rfl, fun _ => .inl⟩
  case intrStart b =>
    rcases idestart_cases result with ⟨-, rfl, rfl⟩ | ⟨-, -, rfl, rfl⟩ | ⟨-, -, rfl, rfl⟩
    all_goals exact ⟨rfl, fun _ => False.elim⟩
  case append b =>
    cases result
    exact ⟨rfl, fun _ => .inl⟩
  case device =>
    split at result
    · cases result
      exact ⟨rfl, fun _ => False.elim⟩
    cases result
    refine ⟨?_, fun _ => False.elim⟩
    unfold Driver.complete
    split <;> rfl
  all_goals
    repeat' split at result
    all_goals
      cases result
      exact ⟨rfl, fun _ => False.elim⟩

namespace Owned

theorem compute (h : Owned d places) (here : places a = x) (does : code a x = .compute f)
    (result : f c d i = (d', y)) : Owned d' (update places a y) := by
  intro a' b at_
  by_cases user : x = .user
  · subst user
    rcases user_cases does result with ⟨b', rfl, rfl⟩ | ⟨o, by_, rfl, rfl⟩
    · by_cases same : a' = a
      · subst same
        rw [update_self] at at_
        exact at_.elim
      rw [update_of_ne same] at at_
      exact h a' b at_
    by_cases same : a' = a
    · subst same
      rw [update_self] at at_
      exact at_.elim
    rw [update_of_ne same] at at_
    exact (Store.spared by_ (h a' b at_) same).1
  obtain ⟨owner, enters⟩ := owner_compute does result user
  rw [owner]
  by_cases same : a' = a
  · subst same
    rw [update_self] at at_
    rcases enters b at_ with before | own
    · exact h a' b (here ▸ before)
    · exact own
  · rw [update_of_ne same] at at_
    exact h a' b at_

theorem leads (h : Owned d places) (here : places a = x)
    (goes : (code a x : Instr (Driver (Party P) B) B (Input B) (Place B)).Leads y) :
    Owned d (update places a y) := by
  have before : ∀ b, y.At b → x.At b := by
    intro b at_
    cases x <;> cases goes <;> first | exact at_ | exact at_.elim
  intro a' b at_
  by_cases same : a' = a
  · subst same
    rw [update_self] at at_
    exact h a' b (here ▸ before b at_)
  rw [update_of_ne same] at at_
  exact h a' b at_

theorem step {s s' : Sleep.Machine (Party P) (Driver (Party P) B) B (Place B)}
    {e : Sleep.Event (Party P) (Input B)} (h : Owned s.data s.places) (st : Step code s e s') :
    Owned s'.data s'.places := by
  rcases st.place with ⟨data, places⟩ | ⟨a, x, y, here, places, ⟨data, goes, -⟩ | ⟨f, i, does, eq⟩⟩
  · rwa [data, places]
  · rw [data, places]
    exact h.leads (by rw [Machine.places, here]; rfl) goes
  rw [places]
  exact h.compute (by rw [Machine.places, here]; rfl) does eq

end Owned

theorem todo_of_sleep (does : code a x = .compute f) (result : f c d i = (d', .sleep b)) :
    x = .test b ∧ d' = d ∧ ToDo (d.store.buf b) := by
  cases x <;> cases does <;> dsimp only at result
  case user => cases i <;> cases result
  case test b' =>
    simp only [Prod.mk.injEq] at result
    obtain ⟨rfl, there⟩ := result
    split at there
    next todo =>
      cases there
      exact ⟨rfl, rfl, todo⟩
    · cases there
  case first b' =>
    simp only [Prod.mk.injEq] at result
    obtain ⟨-, there⟩ := result
    split at there <;> cases there
  case start b' | intrStart b' =>
    rcases idestart_cases result with ⟨-, -, eq⟩ | ⟨-, -, -, eq⟩ | ⟨-, -, eq, -⟩ <;> cases eq
  all_goals
    repeat' split at result
    all_goals cases result

theorem todo_compute (does : code a x = .compute f) (result : f c d i = (d', y))
    (inside : x ≠ .user) (todo : ToDo (d.store.buf b)) :
    ToDo (d'.store.buf b) ∨ y = .intrWakeup b := by
  cases x <;> cases does <;> dsimp only at result
  case user => exact absurd rfl inside
  case walk b' pp =>
    split at result
    · cases result
      exact .inl todo
    cases result
    cases pp <;> exact .inl todo
  case start b' | intrStart b' =>
    rcases idestart_cases result with ⟨-, rfl, -⟩ | ⟨-, -, rfl, -⟩ | ⟨-, -, -, rfl⟩ <;> exact .inl todo
  case intrRead b' =>
    repeat' split at result
    · cases result
      exact .inl todo
    · cases result
      exact .inl todo
    next clean _ =>
      cases result
      have filled := (Store.todo_fill d.store b' b d.device.data).2 todo
      rw [Store.fill, if_neg clean] at filled
      exact .inl filled
  case intrFlags b' =>
    cases result
    by_cases same : b = b'
    · exact .inr (same ▸ rfl)
    left
    show ToDo ((d.store.settle b').buf b)
    rwa [Store.buf_settle_ne _ same]
  case device =>
    split at result
    · cases result
      exact .inl todo
    cases result
    unfold Driver.complete
    split <;> exact .inl todo
  all_goals
    repeat' split at result
    all_goals
      cases result
      exact .inl todo

/-- Who waits in `iderw` is woken up when `ideintr` has set the flags. -/
theorem code_heralds :
    Heralds (code : Party P → Place B → Instr (Driver (Party P) B) B (Input B) (Place B))
      Place.Holds (fun _ => idelock) (fun b d => ToDo (d.store.buf b))
      (fun x b => x = .intrWakeup b) Owned where
  other _ := nofun
  sleep := by
    intro p x c lk y does
    cases x <;> cases does
    exact ⟨rfl, rfl⟩
  wakeup := by
    rintro p x c rfl
    exact ⟨.intrNext, rfl, rfl⟩
  holds := by
    rintro x c rfl
    rfl
  leads := by
    intro p x y goes c lk z does
    cases y <;> cases does
    cases x <;> cases goes
  falls := by
    intro d places p x f b i d' y h here does result c lk z sleeps
    cases y <;> cases sleeps
    obtain ⟨-, rfl, todo⟩ := todo_of_sleep does result
    exact todo
  ends := by
    intro d places p x f b i d' y h here does result c waits todo
    by_cases user : x = .user
    · subst user
      rcases user_cases does result with ⟨-, rfl, -⟩ | ⟨o, by_, -, rfl⟩
      · exact .inl todo
      -- the buffer is locked by the process that waits
      obtain ⟨q, x, lk, z, sleeps, at_⟩ := waits
      have inside : (places q).At c := by
        cases x <;> cases sleeps
        rcases at_ with at_ | at_ <;> rw [at_] <;> rfl
      have ne : q ≠ p := by
        rintro rfl
        rw [here] at inside
        exact inside
      refine .inl ?_
      rwa [(Store.spared by_ (h q c inside) ne).2.1]
    · exact todo_compute does result user todo

end

end Xv6.Ide
