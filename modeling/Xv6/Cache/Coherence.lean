import Xv6.Cache.Model
import Xv6.Lib.Run

/-!
# Coherence of the buffer cache

For every interleaving of the callers: the list is one ring of all buffers, a block has at most one
buffer, `refcnt` counts the users, and `bread` returns what was last published.
-/

set_option linter.unusedSectionVars false

namespace Xv6.Cache

open Lib Function

section

variable {P : Type} [DecidableEq P] {s s' : State P} {l l' : List (Fin NBUF)} {p : P}
  {i : Fin NBUF} {a : Act} {b : ℕ}

/-! ## Users of a buffer -/

/-- A process that uses buffer `i` without having it locked. -/
def Act.Counts (i : Fin NBUF) : Act → Prop
  | .wait j _ | .release j => j = i
  | _ => False

/-- `n` processes use buffer `i` without having it locked. -/
def Counted (act : P → Act) (i : Fin NBUF) (n : ℕ) : Prop :=
  ∃ S : Finset P, (∀ p, p ∈ S ↔ (act p).Counts i) ∧ S.card = n

namespace Counted

variable {act : P → Act} {n : ℕ}

theorem same (h : Counted act i n) (eq : a.Counts i ↔ (act p).Counts i) :
    Counted (update act p a) i n := by
  obtain ⟨S, mem, card⟩ := h
  refine ⟨S, fun q => ?_, card⟩
  by_cases is : q = p
  · subst is
    rw [update_self, eq, mem]
  · rw [update_of_ne is, mem]

theorem insert (h : Counted act i n) (out : ¬ (act p).Counts i) (now : a.Counts i) :
    Counted (update act p a) i (n + 1) := by
  obtain ⟨S, mem, card⟩ := h
  refine ⟨Insert.insert p S, fun q => ?_, ?_⟩
  · rw [Finset.mem_insert, mem]
    by_cases is : q = p
    · subst is
      rw [update_self]
      exact ⟨fun _ => now, fun _ => .inl rfl⟩
    rw [update_of_ne is]
    simp [is]
  · rw [Finset.card_insert_of_notMem (fun old => out ((mem p).1 old)), card]

theorem erase (h : Counted act i (n + 1)) (was : (act p).Counts i) (out : ¬ a.Counts i) :
    Counted (update act p a) i n := by
  obtain ⟨S, mem, card⟩ := h
  refine ⟨S.erase p, fun q => ?_, ?_⟩
  · rw [Finset.mem_erase, mem]
    by_cases is : q = p
    · subst is
      rw [update_self]
      simp [out]
    rw [update_of_ne is]
    simp [is]
  · rw [Finset.card_erase_of_mem ((mem p).2 was), card]
    rfl

theorem pos (h : Counted act i n) (was : (act p).Counts i) : ∃ m, n = m + 1 := by
  obtain ⟨S, mem, card⟩ := h
  have pos := Finset.card_pos.2 ⟨p, (mem p).2 was⟩
  exact ⟨n - 1, by omega⟩

end Counted

/-! ## The invariant -/

def locked (o : Option P) : ℕ := if o.isSome then 1 else 0

/-- What a process in a call can count on. -/
def Mine (s : State P) (p : P) : Act → Prop
  | .wait i b => (s.buf i).dev = ROOTDEV ∧ (s.buf i).blockno = b
  | .test i b =>
      s.owner i = some p ∧ (s.buf i).dev = ROOTDEV ∧ (s.buf i).blockno = b ∧ s.edited i = false
  | .read i b =>
      s.owner i = some p ∧ (s.buf i).dev = ROOTDEV ∧ (s.buf i).blockno = b ∧
        (s.buf i).valid = false
  | .write i => s.owner i = some p ∧ (s.buf i).dirty = true ∧ s.edited i = false
  | _ => True

/-- In `bread`, with buffer `i` locked. -/
def Act.Reads (i : Fin NBUF) : Act → Prop
  | .test j _ | .read j _ => j = i
  | _ => False

theorem not_reads_of_idle (idle : s.act p = .idle) (j : Fin NBUF) : ¬ (s.act p).Reads j := by
  rw [idle]
  exact id

theorem ne_idle_of_reads (reads : s.act p = .test i b ∨ s.act p = .read i b) : s.act p ≠ .idle := by
  rcases reads with reads | reads <;> rw [reads] <;> nofun

/-- The cache without its users, and the list as `l`. -/
def State.flat (s : State P) (l : List (Fin NBUF)) : Machine Unit := ⟨s.disk, s.buf, l, 0, [], ⟨⟩⟩

/-- The list is `l`, from the most recently released buffer on. -/
structure Coherent (s : State P) (l : List (Fin NBUF)) : Prop where
  ring : Ring s.links none (l.map some)
  all : ∀ i, i ∈ l
  unique : ∀ i j, (s.buf i).dev = ROOTDEV → (s.buf j).dev = ROOTDEV →
    (s.buf i).blockno = (s.buf j).blockno → i = j
  count : ∀ i, ∃ n, Counted s.act i n ∧ (s.buf i).refcnt = n + locked (s.owner i)
  mine : ∀ p, Mine s p (s.act p)
  held : ∀ i p, s.owner i = some p → (s.buf i).dev = ROOTDEV ∧
    ((s.buf i).valid = true ∨ (s.act p).Reads i)
  fresh : ∀ i, (s.buf i).valid = false → (s.buf i).dirty = false ∧ s.edited i = false
  editor : ∀ i, s.edited i = true → s.owner i ≠ none
  contents : ∀ i, (s.buf i).dev = ROOTDEV → (s.buf i).valid = true → s.edited i = false →
    (s.buf i).data = s.published (s.buf i).blockno
  clean : ∀ b, (∀ i, (s.buf i).dev = ROOTDEV → (s.buf i).blockno = b → (s.buf i).dirty = false) →
    s.disk b = s.published b
  order : l.Pairwise fun i j => (s.buf j).refcnt = 0 → s.released j ≤ s.released i
  stamps : ∀ i, s.released i ≤ s.clock

namespace Coherent

variable (h : Coherent s l)
include h

theorem owner_of_unused (unused : (s.buf i).refcnt = 0) : s.owner i = none := by
  obtain ⟨n, -, count⟩ := h.count i
  rw [unused] at count
  cases own : s.owner i with
  | none => rfl
  | some p =>
    rw [own] at count
    simp [locked] at count

theorem clear_of_free (free : s.owner i = none) : s.edited i = false := by
  by_contra edited
  exact h.editor i (by simpa using edited) free

theorem not_counts_of_unused (unused : (s.buf i).refcnt = 0) (p : P) : ¬ (s.act p).Counts i := by
  intro counts
  obtain ⟨n, counted, count⟩ := h.count i
  obtain ⟨m, rfl⟩ := counted.pos counts
  omega

theorem held_of_quiet (quiet : ∀ j, ¬ (s.act p).Reads j)
    (own : s.owner i = some p) : (s.buf i).dev = ROOTDEV ∧ ((s.buf i).valid = true ∨ a.Reads i) :=
  ⟨(h.held i p own).1, .inl ((h.held i p own).2.resolve_right (quiet i))⟩

theorem nodup : l.Nodup :=
  (List.nodup_cons.1 h.ring.nodup).2.of_map

theorem length_lt : (l.map some).length < NBUF + 1 := by
  have le := h.nodup.length_le_card
  rw [Fintype.card_fin] at le
  rw [List.length_map]
  omega

theorem lookup_eq (dev blockno : ℕ) : s.lookup dev blockno =
    (l.find? fun i => (s.buf i).dev = dev ∧ (s.buf i).blockno = blockno).map some := by
  rw [State.lookup, h.ring.forth.walk (List.nodup_cons.1 h.ring.nodup).1 _ h.length_lt,
    List.find?_map]
  rfl

theorem victim_eq : s.victim =
    (l.reverse.find? fun i => (s.buf i).refcnt = 0 ∧ (s.buf i).dirty = false).map some := by
  have off : none ∉ (l.map some).reverse := by simp
  have enough := h.length_lt
  rw [← List.length_reverse] at enough
  rw [State.victim, h.ring.back.walk off _ enough, ← List.map_reverse, List.find?_map]
  rfl

/-- `bget` is that of `Disk.Bio`, and so is `brelse` (`put`), with the ring as a list. -/
theorem bget_eq (dev blockno : ℕ) : exec (Xv6.bget dev blockno) (s.flat l) =
    (exec (bget dev blockno) s).map id (State.flat · l) := by
  have look {σ : Type} (s : σ) : exec (get : Prog σ Halt σ) s = (.ok s, s) := rfl
  rw [Xv6.bget, bget, exec_bind, exec_bind, look, look]
  dsimp only [State.flat]
  rw [h.lookup_eq, h.victim_eq]
  cases l.find? fun i => decide ((s.buf i).dev = dev ∧ (s.buf i).blockno = blockno) with
  | some i => rfl
  | none =>
    cases l.reverse.find? fun i => decide ((s.buf i).refcnt = 0 ∧ (s.buf i).dirty = false) <;> rfl

end Coherent

/-- Only the users and their counts change. -/
structure SameData (s s' : State P) : Prop where
  dev : ∀ j, (s'.buf j).dev = (s.buf j).dev
  blockno : ∀ j, (s'.buf j).blockno = (s.buf j).blockno
  valid : ∀ j, (s'.buf j).valid = (s.buf j).valid
  dirty : ∀ j, (s'.buf j).dirty = (s.buf j).dirty
  data : ∀ j, (s'.buf j).data = (s.buf j).data
  disk : s'.disk = s.disk
  published : s'.published = s.published
  edited : s'.edited = s.edited

theorem SameData.of_buf (buf : s'.buf = s.buf) (disk : s'.disk = s.disk)
    (published : s'.published = s.published) (edited : s'.edited = s.edited) : SameData s s' := by
  constructor
  case disk => exact disk
  case published => exact published
  case edited => exact edited
  all_goals
    rw [buf]
    exact fun _ => rfl

theorem SameData.of_refcnt {n : ℕ}
    (buf : s'.buf = (s.setBuf i { s.buf i with refcnt := n }).buf) (disk : s'.disk = s.disk)
    (published : s'.published = s.published) (edited : s'.edited = s.edited) : SameData s s' := by
  constructor
  case disk => exact disk
  case published => exact published
  case edited => exact edited
  all_goals
    intro j
    rw [buf, State.buf_setBuf]
    split
    next same => rw [same]
    · rfl

theorem refcnt_setRefcnt (s : State P) (i : Fin NBUF) (n : ℕ) (j : Fin NBUF) :
    ((s.setBuf i { s.buf i with refcnt := n }).buf j).refcnt =
      if j = i then n else (s.buf j).refcnt := by
  rw [State.buf_setBuf]
  split <;> rfl

theorem Mine.same (h : Mine s p a) (data : SameData s s')
    (owner : ∀ i, s.owner i = some p → s'.owner i = some p) : Mine s' p a := by
  cases a with
  | wait i b =>
    rw [Mine, data.dev, data.blockno]
    exact h
  | test i b =>
    rw [Mine, data.dev, data.blockno, data.edited]
    exact ⟨owner i h.1, h.2⟩
  | read i b =>
    rw [Mine, data.dev, data.blockno, data.valid]
    exact ⟨owner i h.1, h.2⟩
  | write i =>
    rw [Mine, data.dirty, data.edited]
    exact ⟨owner i h.1, h.2⟩
  | idle | release i => trivial

/-- What `brelse` makes of the cache under `bcache.lock`. -/
def State.put (s : State P) (i : Fin NBUF) : State P :=
  { s.setBuf i { s.buf i with refcnt := (s.buf i).refcnt - 1 } with
    links := if (s.buf i).refcnt - 1 = 0 then s.links.moveToFront none (some i) else s.links
    released := update s.released i (s.clock + 1)
    clock := s.clock + 1 }

namespace Coherent

variable (h : Coherent s l)
include h

theorem regroup (data : SameData s s') (act : s'.act = update s.act p a)
    (ring : Ring s'.links none (l'.map some)) (all : ∀ j, j ∈ l')
    (count : ∀ j, ∃ n, Counted (update s.act p a) j n ∧
      (s'.buf j).refcnt = n + locked (s'.owner j))
    (mine : Mine s' p a)
    (owners : ∀ j q, q ≠ p → (s'.owner j = some q ↔ s.owner j = some q))
    (own : ∀ j, s'.owner j = some p → (s.buf j).dev = ROOTDEV ∧
      ((s.buf j).valid = true ∨ a.Reads j))
    (editor : ∀ j, s.edited j = true → s'.owner j ≠ none)
    (order : l'.Pairwise fun i j => (s'.buf j).refcnt = 0 → s'.released j ≤ s'.released i)
    (stamps : ∀ j, s'.released j ≤ s'.clock) : Coherent s' l' := by
  constructor
  case ring => exact ring
  case all => exact all
  case unique =>
    intro i j
    rw [data.dev, data.dev, data.blockno, data.blockno]
    exact h.unique i j
  case count =>
    rw [act]
    exact count
  case mine =>
    intro q
    rw [act]
    by_cases same : q = p
    · subst same
      rwa [update_self]
    rw [update_of_ne same]
    exact (h.mine q).same data fun j => (owners j q same).2
  case held =>
    intro j q owner
    rw [act, data.dev, data.valid]
    by_cases same : q = p
    · subst same
      rw [update_self]
      exact own j owner
    rw [update_of_ne same]
    exact h.held j q ((owners j q same).1 owner)
  case fresh =>
    intro j
    rw [data.valid, data.dirty, data.edited]
    exact h.fresh j
  case editor =>
    intro j
    rw [data.edited]
    exact editor j
  case contents =>
    intro j
    rw [data.dev, data.valid, data.edited, data.data, data.published, data.blockno]
    exact h.contents j
  case clean =>
    intro b unpinned
    rw [data.disk, data.published]
    refine h.clean b fun j => ?_
    have now := unpinned j
    rwa [data.dev, data.blockno, data.dirty] at now
  case order => exact order
  case stamps => exact stamps

theorem hit (idle : s.act p = .idle) (dev : (s.buf i).dev = ROOTDEV)
    (blockno : (s.buf i).blockno = b) : Coherent
      ((s.setBuf i { s.buf i with refcnt := (s.buf i).refcnt + 1 }).setAct p (.wait i b)) l := by
  have data : SameData s
      ((s.setBuf i { s.buf i with refcnt := (s.buf i).refcnt + 1 }).setAct p (.wait i b)) :=
    .of_refcnt rfl rfl rfl rfl
  have refcnt := refcnt_setRefcnt s i ((s.buf i).refcnt + 1)
  refine h.regroup data rfl h.ring h.all (fun j => ?_) ?_ (fun _ _ _ => .rfl)
    (fun _ => h.held_of_quiet (not_reads_of_idle idle)) h.editor ?_ h.stamps
  · obtain ⟨n, counted, count⟩ := h.count j
    by_cases same : j = i
    · subst same
      refine ⟨n + 1, counted.insert (by rw [idle]; exact id) rfl, ?_⟩
      refine (refcnt j).trans ?_
      rw [if_pos rfl, count]
      exact Nat.add_right_comm ..
    refine ⟨n, counted.same ?_, ?_⟩
    · rw [idle]
      exact ⟨fun eq => same eq.symm, False.elim⟩
    refine (refcnt j).trans ?_
    rw [if_neg same, count]
    rfl
  · exact ⟨(data.dev i).trans dev, (data.blockno i).trans blockno⟩
  · refine h.order.imp fun {j k} before zero => before ?_
    have now := (refcnt k).symm.trans zero
    split at now
    · omega
    · exact now

theorem recycle (idle : s.act p = .idle) (unused : (s.buf i).refcnt = 0)
    (unpinned : (s.buf i).dirty = false)
    (miss : ∀ j, (s.buf j).dev = ROOTDEV → (s.buf j).blockno ≠ b) : Coherent
      ((s.setBuf i ⟨ROOTDEV, b, false, false, 1, (s.buf i).data⟩).setAct p (.wait i b)) l := by
  have free := h.owner_of_unused unused
  have unwanted := h.not_counts_of_unused unused
  generalize next : (s.setBuf i _).setAct p (.wait i b) = s'
  obtain ⟨links, act, owner, edited⟩ : s'.links = s.links ∧ s'.act = update s.act p (.wait i b) ∧
      s'.owner = s.owner ∧ s'.edited = s.edited := by
    subst next
    exact ⟨rfl, rfl, rfl, rfl⟩
  obtain ⟨published, disk, released, clock⟩ : s'.published = s.published ∧ s'.disk = s.disk ∧
      s'.released = s.released ∧ s'.clock = s.clock := by
    subst next
    exact ⟨rfl, rfl, rfl, rfl⟩
  have self : s'.buf i = ⟨ROOTDEV, b, false, false, 1, (s.buf i).data⟩ := by
    subst next
    exact update_self ..
  have other (j : Fin NBUF) (ne : j ≠ i) : s'.buf j = s.buf j := by
    subst next
    exact update_of_ne ne ..
  have ownedNe {j q} (own : s.owner j = some q) : j ≠ i := by
    rintro rfl
    rw [free] at own
    cases own
  constructor
  case ring =>
    rw [links]
    exact h.ring
  case all => exact h.all
  case unique =>
    intro j k
    by_cases hj : j = i <;> by_cases hk : k = i
    · exact fun _ _ _ => hj.trans hk.symm
    · rw [hj, self, other k hk]
      exact fun _ dev same => absurd same.symm (miss k dev)
    · rw [hk, self, other j hj]
      exact fun dev _ same => absurd same (miss j dev)
    · rw [other j hj, other k hk]
      exact h.unique j k
  case count =>
    intro j
    rw [act, owner]
    obtain ⟨n, counted, count⟩ := h.count j
    by_cases same : j = i
    · subst same
      rw [self, free]
      rw [unused, free] at count
      refine ⟨n + 1, counted.insert (by rw [idle]; exact id) rfl, ?_⟩
      simp only [locked, Option.isSome_none, Bool.false_eq_true, if_false] at count ⊢
      omega
    refine ⟨n, counted.same ?_, ?_⟩
    · rw [idle]
      exact ⟨fun eq => same eq.symm, False.elim⟩
    · rw [other j same, count]
  case mine =>
    intro q
    rw [act]
    by_cases same : q = p
    · subst same
      rw [update_self, Mine, self]
      exact ⟨rfl, rfl⟩
    rw [update_of_ne same]
    have mine := h.mine q
    have off := unwanted q
    cases act : s.act q with
    | idle | release j => trivial
    | wait j c =>
      rw [act] at mine off
      have ne : j ≠ i := fun eq => off eq
      rw [Mine, other j ne]
      exact mine
    | test j c | write j =>
      rw [act] at mine
      rw [Mine, owner, edited, other j (ownedNe mine.1)]
      exact mine
    | read j c =>
      rw [act] at mine
      rw [Mine, owner, other j (ownedNe mine.1)]
      exact mine
  case held =>
    intro j q own
    rw [owner] at own
    rw [act, other j (ownedNe own)]
    obtain ⟨dev, reads⟩ := h.held j q own
    refine ⟨dev, reads.imp_right fun reads => ?_⟩
    have ne : q ≠ p := by
      rintro rfl
      exact not_reads_of_idle idle j reads
    rwa [update_of_ne ne]
  case fresh =>
    intro j
    rw [edited]
    by_cases same : j = i
    · subst same
      rw [self]
      exact fun _ => ⟨rfl, h.clear_of_free free⟩
    rw [other j same]
    exact h.fresh j
  case editor =>
    rw [edited, owner]
    exact h.editor
  case contents =>
    intro j
    rw [edited, published]
    by_cases same : j = i
    · subst same
      rw [self]
      exact fun _ => nofun
    rw [other j same]
    exact h.contents j
  case clean =>
    intro c pinned
    rw [disk, published]
    refine h.clean c fun j dev blockno => ?_
    by_cases same : j = i
    · rw [same]
      exact unpinned
    have now := pinned j
    rw [other j same] at now
    exact now dev blockno
  case order =>
    rw [released]
    refine h.order.imp fun {j k} before zero => before ?_
    by_cases same : k = i
    · subst same
      exact unused
    · rwa [other k same] at zero
  case stamps =>
    rw [released, clock]
    exact h.stamps

theorem relock {o : Option P}
    (owner : s.owner i = none ∧ o = some p ∨ s.owner i = some p ∧ o = none)
    (count : ∀ n, Counted s.act i n → ∃ m, Counted (update s.act p a) i m ∧
      m + locked o = n + locked (s.owner i))
    (others : ∀ j, j ≠ i → (a.Counts j ↔ (s.act p).Counts j))
    (mine : Mine (s.setOwner i o) p a)
    (own : o = some p → (s.buf i).dev = ROOTDEV ∧ ((s.buf i).valid = true ∨ a.Reads i))
    (reads : ∀ j, j ≠ i → s.owner j = some p → (s.act p).Reads j → a.Reads j)
    (editor : o = none → s.edited i = false) : Coherent ((s.setOwner i o).setAct p a) l := by
  have now (j : Fin NBUF) : (s.setOwner i o).owner j = if j = i then o else s.owner j :=
    update_apply ..
  refine h.regroup (.of_buf rfl rfl rfl rfl) rfl h.ring h.all (fun j => ?_) mine (fun j q ne => ?_)
    (fun j own' => ?_) (fun j edited => ?_) h.order h.stamps
  · show ∃ n, _ ∧ (s.buf j).refcnt = n + locked ((s.setOwner i o).owner j)
    obtain ⟨n, counted, eq⟩ := h.count j
    rw [now]
    split
    next same =>
      subst same
      obtain ⟨m, counted, eq'⟩ := count n counted
      exact ⟨m, counted, eq.trans eq'.symm⟩
    next other => exact ⟨n, counted.same (others j other), eq⟩
  · show (s.setOwner i o).owner j = some q ↔ _
    rw [now]
    split
    next same =>
      subst same
      rcases owner with ⟨free, rfl⟩ | ⟨held, rfl⟩
      · simp [free, Ne.symm ne]
      · simp [held, Ne.symm ne]
    · rfl
  · change (s.setOwner i o).owner j = some p at own'
    rw [now] at own'
    split at own'
    next same =>
      subst same
      exact own own'
    next other =>
      obtain ⟨dev, valid | reads'⟩ := h.held j p own'
      · exact ⟨dev, .inl valid⟩
      · exact ⟨dev, .inr (reads j other own' reads')⟩
  · show (s.setOwner i o).owner j ≠ none
    rw [now]
    split
    next same =>
      subst same
      rintro rfl
      rw [editor rfl] at edited
      cases edited
    · exact h.editor j edited

theorem lock (waits : s.act p = .wait i b) (free : s.owner i = none) :
    Coherent ((s.setOwner i (some p)).setAct p (.test i b)) l := by
  have mine := h.mine p
  rw [waits] at mine
  refine h.relock (.inl ⟨free, rfl⟩) (fun n counted => ?_) (fun j ne => ?_) ?_
    (fun _ => ⟨mine.1, .inr rfl⟩) (fun j _ _ reads => ?_) nofun
  · obtain ⟨m, rfl⟩ := counted.pos (p := p) (by rw [waits]; rfl)
    refine ⟨m, counted.erase (by rw [waits]; rfl) id, ?_⟩
    rw [free]
    simp [locked]
  · rw [waits]
    exact ⟨False.elim, fun same => ne same.symm⟩
  · exact ⟨update_self .., mine.1, mine.2, h.clear_of_free free⟩
  · rw [waits] at reads
    exact reads.elim

theorem unlock (idle : s.act p = .idle) (own : s.owner i = some p)
    (published : s.edited i = false) : Coherent ((s.setOwner i none).setAct p (.release i)) l := by
  refine h.relock (.inr ⟨own, rfl⟩) (fun n counted => ?_) (fun j ne => ?_) trivial nofun
    (fun j _ _ reads => ?_) fun _ => published
  · refine ⟨n + 1, counted.insert (by rw [idle]; exact id) rfl, ?_⟩
    rw [own]
    simp [locked]
  · rw [idle]
    exact ⟨fun same => ne same.symm, False.elim⟩
  · rw [idle] at reads
    exact reads.elim

theorem go (test : s.act p = .test i b)
    (next : a = .read i b ∧ (s.buf i).valid = false ∨ a = .idle ∧ (s.buf i).valid = true) :
    Coherent (s.setAct p a) l := by
  have mine := h.mine p
  rw [test] at mine
  refine h.regroup (.of_buf rfl rfl rfl rfl) rfl h.ring h.all (fun j => ?_) ?_ (fun _ _ _ => .rfl)
    (fun j own => ?_) h.editor h.order h.stamps
  · obtain ⟨n, counted, eq⟩ := h.count j
    refine ⟨n, counted.same ?_, eq⟩
    rw [test]
    rcases next with ⟨rfl, -⟩ | ⟨rfl, -⟩ <;> rfl
  · rcases next with ⟨rfl, valid⟩ | ⟨rfl, -⟩
    · exact ⟨mine.1, mine.2.1, mine.2.2.1, valid⟩
    · trivial
  obtain ⟨dev, valid | reads⟩ := h.held j p own
  · exact ⟨dev, .inl valid⟩
  rw [test] at reads
  refine ⟨dev, ?_⟩
  rcases next with ⟨rfl, -⟩ | ⟨rfl, valid⟩
  · exact .inr reads
  · exact .inl (reads ▸ valid)

theorem put (releases : s.act p = .release i) : ∃ l', Coherent ((s.put i).setAct p .idle) l' ∧
    exec (Xv6.brelse i) (s.flat l) = (.ok ⟨⟩, (s.put i).flat l') := by
  have quiet (j : Fin NBUF) : ¬ (s.act p).Reads j := by
    rw [releases]
    exact id
  have refcnt := refcnt_setRefcnt s i ((s.buf i).refcnt - 1)
  have stamp (j : Fin NBUF) : update s.released i (s.clock + 1) j =
      if j = i then s.clock + 1 else s.released j := update_apply ..
  have stamps (j : Fin NBUF) : update s.released i (s.clock + 1) j ≤ s.clock + 1 := by
    rw [stamp]
    have before := h.stamps j
    split <;> omega
  have later {j k : Fin NBUF} (ne : k ≠ i)
      (before : (s.buf k).refcnt = 0 → s.released k ≤ s.released j) :
      (if k = i then (s.buf i).refcnt - 1 else (s.buf k).refcnt) = 0 →
        update s.released i (s.clock + 1) k ≤
          update s.released i (s.clock + 1) j := by
    intro zero
    rw [if_neg ne] at zero
    rw [stamp k, stamp j, if_neg ne]
    have old := before zero
    have old' := h.stamps k
    split <;> omega
  obtain ⟨l', ring, all, order, list⟩ : ∃ l' : List (Fin NBUF),
      Ring (s.put i).links none (l'.map some) ∧ (∀ j, j ∈ l') ∧
        (l'.Pairwise fun j k => ((s.put i).buf k).refcnt = 0 →
          (s.put i).released k ≤ (s.put i).released j) ∧
        l' = if (s.buf i).refcnt - 1 = 0 then i :: l.erase i else l := by
    by_cases last : (s.buf i).refcnt - 1 = 0
    · obtain ⟨l₁, l₂, rfl⟩ := List.append_of_mem (h.all i)
      have nodup := h.nodup
      have ring := h.ring
      rw [List.map_append, List.map_cons] at ring
      have out : i ∉ l₁ ++ l₂ := (List.nodup_cons.1 (List.nodup_middle.1 nodup)).1
      refine ⟨i :: (l₁ ++ l₂), ?_, fun j => ?_, ?_, ?_⟩
      · rw [State.put, if_pos last, List.map_cons, List.map_append]
        exact ring.moveToFront
      · have mem := h.all j
        simp only [List.mem_append, List.mem_cons] at mem ⊢
        tauto
      · rw [List.pairwise_cons]
        constructor
        · intro k _ _
          refine (stamps k).trans ?_
          show s.clock + 1 ≤ update s.released i (s.clock + 1) i
          rw [update_self]
        have sub : (l₁ ++ l₂).Sublist (l₁ ++ i :: l₂) := by simp
        refine (h.order.sublist sub).imp_of_mem fun {j k} _ mem before zero => ?_
        have ne : k ≠ i := fun same => out (same ▸ mem)
        exact later ne before ((refcnt k).symm.trans zero)
      · rw [if_pos last, List.erase_append_right _ fun mem => out (by simp [mem]),
          List.erase_cons_head]
    · refine ⟨l, ?_, h.all, ?_, (if_neg last).symm⟩
      · rw [State.put, if_neg last]
        exact h.ring
      refine h.order.imp fun {j k} before zero => ?_
      have zero' := (refcnt k).symm.trans zero
      by_cases same : k = i
      · rw [if_pos same] at zero'
        exact absurd zero' last
      · exact later same before zero'
  refine ⟨l', h.regroup (.of_refcnt rfl rfl rfl rfl) rfl ring all (fun j => ?_) trivial
    (fun _ _ _ => .rfl) (fun _ => h.held_of_quiet quiet) h.editor order stamps, ?_⟩
  · obtain ⟨n, counted, count⟩ := h.count j
    show ∃ n, _ ∧ ((s.setBuf i _).buf j).refcnt = n + locked (s.owner j)
    rw [refcnt]
    by_cases same : j = i
    · subst same
      obtain ⟨m, rfl⟩ := counted.pos (p := p) (by rw [releases]; rfl)
      refine ⟨m, counted.erase (by rw [releases]; rfl) id, ?_⟩
      rw [if_pos rfl]
      omega
    refine ⟨n, counted.same ?_, ?_⟩
    · rw [releases]
      exact ⟨False.elim, fun eq => same eq.symm⟩
    · rw [if_neg same, count]
  refine Prod.ext rfl ?_
  show (if (s.buf i).refcnt - 1 = 0 then _ else _) = _
  rw [list]
  split <;> rfl

end Coherent

/-- Process `p` changes buffer `i`, which it has locked, and what belongs to its block. -/
structure Touch (s s' : State P) (p : P) (i : Fin NBUF) (a : Act) : Prop where
  links : s'.links = s.links
  owner : s'.owner = s.owner
  released : s'.released = s.released
  clock : s'.clock = s.clock
  act : s'.act = update s.act p a
  dev : (s'.buf i).dev = (s.buf i).dev
  blockno : (s'.buf i).blockno = (s.buf i).blockno
  refcnt : (s'.buf i).refcnt = (s.buf i).refcnt
  bufs : ∀ j, j ≠ i → s'.buf j = s.buf j
  edits : ∀ j, j ≠ i → s'.edited j = s.edited j
  blocks : ∀ c, c ≠ (s.buf i).blockno → s'.disk c = s.disk c ∧ s'.published c = s.published c

namespace Touch

theorem of_buf {x : Buf} (buf : s'.buf = update s.buf i x) (links : s'.links = s.links)
    (owner : s'.owner = s.owner) (released : s'.released = s.released) (clock : s'.clock = s.clock)
    (act : s'.act = update s.act p a) (dev : x.dev = (s.buf i).dev)
    (blockno : x.blockno = (s.buf i).blockno) (refcnt : x.refcnt = (s.buf i).refcnt)
    (edits : ∀ j, j ≠ i → s'.edited j = s.edited j)
    (blocks : ∀ c, c ≠ (s.buf i).blockno →
      s'.disk c = s.disk c ∧ s'.published c = s.published c) : Touch s s' p i a := by
  have self : s'.buf i = x := by rw [buf, update_self]
  refine ⟨links, owner, released, clock, act, ?_, ?_, ?_, fun j ne => ?_, edits, blocks⟩
  · rw [self, dev]
  · rw [self, blockno]
  · rw [self, refcnt]
  · rw [buf, update_of_ne ne]

theorem ids (t : Touch s s' p i a) (j : Fin NBUF) : (s'.buf j).dev = (s.buf j).dev ∧
    (s'.buf j).blockno = (s.buf j).blockno ∧ (s'.buf j).refcnt = (s.buf j).refcnt := by
  by_cases same : j = i
  · rw [same]
    exact ⟨t.dev, t.blockno, t.refcnt⟩
  rw [t.bufs j same]
  exact ⟨rfl, rfl, rfl⟩

theorem mine (t : Touch s s' p i a) (own : s.owner i = some p) {q : P} (ne : q ≠ p) {a' : Act}
    (mine : Mine s q a') : Mine s' q a' := by
  have other {j : Fin NBUF} (own' : s.owner j = some q) : j ≠ i := by
    rintro rfl
    rw [own] at own'
    cases own'
    exact ne rfl
  cases a' with
  | idle | release j => trivial
  | wait j c => exact ⟨(t.ids j).1.trans mine.1, (t.ids j).2.1.trans mine.2⟩
  | test j c | write j =>
    rw [Mine, t.owner, t.bufs j (other mine.1), t.edits j (other mine.1)]
    exact mine
  | read j c =>
    rw [Mine, t.owner, t.bufs j (other mine.1)]
    exact mine

end Touch

theorem Coherent.touch {x : Buf} (h : Coherent s l) (t : Touch s s' p i a)
    (own : s.owner i = some p) (self : s'.buf i = x) (valid : x.valid = true)
    (contents : s'.edited i = false → x.data = s'.published (s.buf i).blockno)
    (clean : x.dirty = false → s'.disk (s.buf i).blockno = s'.published (s.buf i).blockno)
    (before : ∀ j, ¬ (s.act p).Counts j) (reads : ∀ j, (s.act p).Reads j → j = i)
    (after : a = .idle ∨ a = .write i ∧ x.dirty = true ∧ s'.edited i = false) : Coherent s' l := by
  subst self
  have rootdev := (h.held i p own).1
  constructor
  case ring =>
    rw [t.links]
    exact h.ring
  case all => exact h.all
  case unique =>
    intro j k
    rw [(t.ids j).1, (t.ids k).1, (t.ids j).2.1, (t.ids k).2.1]
    exact h.unique j k
  case count =>
    intro j
    obtain ⟨n, counted, count⟩ := h.count j
    rw [t.act, t.owner, (t.ids j).2.2]
    refine ⟨n, counted.same (iff_of_false ?_ (before j)), count⟩
    rcases after with rfl | ⟨rfl, -⟩ <;> exact id
  case mine =>
    intro q
    rw [t.act]
    by_cases same : q = p
    · subst same
      rw [update_self]
      rcases after with rfl | ⟨rfl, dirty, clear⟩
      · trivial
      · exact ⟨by rw [t.owner]; exact own, dirty, clear⟩
    · rw [update_of_ne same]
      exact t.mine own same (h.mine q)
  case held =>
    intro j q own'
    rw [t.owner] at own'
    obtain ⟨dev', valid'⟩ := h.held j q own'
    refine ⟨(t.ids j).1.trans dev', ?_⟩
    by_cases same : j = i
    · rw [same]
      exact .inl valid
    rw [t.bufs j same, t.act]
    refine valid'.imp_right fun reads' => ?_
    have other : q ≠ p := by
      rintro rfl
      exact same (reads j reads')
    rwa [update_of_ne other]
  case fresh =>
    intro j
    by_cases same : j = i
    · rw [same, valid]
      nofun
    rw [t.bufs j same, t.edits j same]
    exact h.fresh j
  case editor =>
    intro j
    rw [t.owner]
    by_cases same : j = i
    · rw [same, own]
      nofun
    rw [t.edits j same]
    exact h.editor j
  case contents =>
    intro j
    by_cases same : j = i
    · rw [same, t.blockno]
      exact fun _ _ => contents
    rw [t.bufs j same, t.edits j same]
    intro dev' valid' clear
    have away : (s.buf j).blockno ≠ (s.buf i).blockno :=
      fun eq => same (h.unique j i dev' rootdev eq)
    rw [(t.blocks _ away).2]
    exact h.contents j dev' valid' clear
  case clean =>
    intro c unpinned
    by_cases same : c = (s.buf i).blockno
    · rw [same]
      exact clean (unpinned i (t.dev.trans rootdev) (t.blockno.trans same.symm))
    rw [(t.blocks c same).1, (t.blocks c same).2]
    refine h.clean c fun j dev' blockno' => ?_
    have ne : j ≠ i := by
      rintro rfl
      exact same blockno'.symm
    have now := unpinned j
    rw [t.bufs j ne] at now
    exact now dev' blockno'
  case order =>
    rw [t.released]
    refine h.order.imp fun {j k} before zero => before ?_
    exact (t.ids k).2.2.symm.trans zero
  case stamps =>
    rw [t.released, t.clock]
    exact h.stamps

/-! ## Steps -/

/-- A recycled buffer was unused and not pinned for longest; `bread` returns the last published
contents, locked. -/
structure Orderly (s s' : State P) : Prop where
  coherent : ∃ l, Coherent s' l
  recycled : ∀ i, ((s'.buf i).dev ≠ (s.buf i).dev ∨ (s'.buf i).blockno ≠ (s.buf i).blockno) →
    (s.buf i).refcnt = 0 ∧ (s.buf i).dirty = false ∧
      ∀ j, (s.buf j).refcnt = 0 → (s.buf j).dirty = false → s.released i ≤ s.released j
  returned : ∀ p i b, s.act p = .test i b ∨ s.act p = .read i b → s'.act p = .idle →
    s'.owner i = some p ∧ (s'.buf i).dev = ROOTDEV ∧ (s'.buf i).blockno = b ∧
      (s'.buf i).valid = true ∧ (s'.buf i).data = s'.published b

namespace Coherent

theorem orderly (h : ∃ l, Coherent s' l)
    (ids : ∀ j, (s'.buf j).dev = (s.buf j).dev ∧ (s'.buf j).blockno = (s.buf j).blockno)
    (acts : ∀ q j c, s.act q = .test j c ∨ s.act q = .read j c → s'.act q ≠ .idle) :
    Orderly s s' where
  coherent := h
  recycled := fun j changed =>
    absurd changed (by rw [(ids j).1, (ids j).2]; simp)
  returned := fun q j c reads idle => absurd idle (acts q j c reads)

theorem still (h : Coherent s l) : Orderly s s :=
  orderly ⟨l, h⟩ (fun _ => ⟨rfl, rfl⟩) fun _ _ _ => ne_idle_of_reads

theorem acts_update (out : ∀ j, ¬ (s.act p).Reads j) (q : P) (j : Fin NBUF) (c : ℕ)
    (reads : s.act q = .test j c ∨ s.act q = .read j c) : update s.act p a q ≠ .idle := by
  have ne : q ≠ p := by
    rintro rfl
    refine out j ?_
    rcases reads with reads | reads <;> rw [reads] <;> rfl
  rw [update_of_ne ne]
  exact ne_idle_of_reads reads

theorem victim_spec (h : Coherent s l)
    (found : (l.reverse.find? fun i => (s.buf i).refcnt = 0 ∧ (s.buf i).dirty = false) = some i) :
    (s.buf i).refcnt = 0 ∧ (s.buf i).dirty = false ∧
      ∀ j, (s.buf j).refcnt = 0 → (s.buf j).dirty = false → s.released i ≤ s.released j := by
  obtain ⟨eligible, l₂, l₁, eq, none⟩ := List.find?_eq_some_iff_append.1 found
  obtain ⟨unused, unpinned⟩ := of_decide_eq_true eligible
  refine ⟨unused, unpinned, fun j unused' unpinned' => ?_⟩
  have list : l = l₁.reverse ++ i :: l₂.reverse := by
    rw [← List.reverse_reverse l, eq]
    simp
  have order := h.order
  rw [list, List.pairwise_append] at order
  have mem := h.all j
  rw [list, List.mem_append, List.mem_cons, List.mem_reverse, List.mem_reverse] at mem
  rcases mem with before | rfl | after
  · exact order.2.2 j (List.mem_reverse.2 before) i List.mem_cons_self unused
  · exact le_rfl
  have not := none j after
  simp [unused', unpinned'] at not

theorem wp_bread (h : Coherent s l) (p : P) (b : ℕ) :
    wp (step (.bread p b)) (fun _ => Orderly s) anyStop s := by
  simp only [step, wp_bind, wp_get]
  split
  case isFalse => exact h.still
  case isTrue idle =>
    rw [wp_bind, bget, wp_bind, wp_get, h.lookup_eq]
    have out := not_reads_of_idle idle
    cases found : l.find? fun i => decide ((s.buf i).dev = ROOTDEV ∧ (s.buf i).blockno = b) with
    | some i =>
      have hit := List.find?_some found
      have is := of_decide_eq_true hit
      have data : SameData s (s.setBuf i { s.buf i with refcnt := (s.buf i).refcnt + 1 }) :=
        .of_refcnt rfl rfl rfl rfl
      simp only [Option.map_some, wp_bind, wp_set, wp_pure, wp_modify]
      exact orderly ⟨l, h.hit idle is.1 is.2⟩ (fun j => ⟨data.dev j, data.blockno j⟩)
        (acts_update out)
    | none =>
      have miss (j : Fin NBUF) (dev : (s.buf j).dev = ROOTDEV) : (s.buf j).blockno ≠ b := by
        have not := List.find?_eq_none.1 found j (h.all j)
        simpa [dev] using not
      simp only [Option.map_none, h.victim_eq]
      cases taken : l.reverse.find? fun i =>
          decide ((s.buf i).refcnt = 0 ∧ (s.buf i).dirty = false) with
      | none => simp
      | some i =>
        obtain ⟨unused, unpinned, oldest⟩ := h.victim_spec taken
        simp only [Option.map_some, wp_bind, wp_set, wp_pure, wp_modify]
        constructor
        case coherent => exact ⟨l, h.recycle idle unused unpinned miss⟩
        case recycled =>
          intro j changed
          have same : j = i := by
            by_contra ne
            have buf : (s.setBuf i ⟨ROOTDEV, b, false, false, 1, (s.buf i).data⟩).buf j =
                s.buf j := update_of_ne ne ..
            change (State.buf (s.setBuf i _) j).dev ≠ _ ∨
              (State.buf (s.setBuf i _) j).blockno ≠ _ at changed
            rw [buf] at changed
            simp at changed
          subst same
          exact ⟨unused, unpinned, oldest⟩
        case returned =>
          intro q j c reads now
          exact absurd now (acts_update out q j c reads)

theorem wp_iderw {Q : PUnit → State P → Prop} (own : s.owner i = some p)
    (todo : ¬ ((s.buf i).valid = true ∧ (s.buf i).dirty = false))
    (write : (s.buf i).dirty = true → Q ⟨⟩
      { s.setBuf i { s.buf i with valid := true, dirty := false } with
        disk := update s.disk (s.buf i).blockno (s.buf i).data })
    (read : (s.buf i).dirty = false → Q ⟨⟩
      (s.setBuf i { s.buf i with valid := true, data := s.disk (s.buf i).blockno })) :
    wp (iderw p i) Q anyStop s := by
  rw [iderw, wp_bind, wp_get, if_neg (not_not.2 own), if_neg todo]
  split
  · simp
  split
  next dirty => exact write dirty
  next clean => exact read (by simpa using clean)

variable (h : Coherent s l)
include h

theorem wp_read (reads : s.act p = .read i b) :
    wp (next p) (fun _ => Orderly s) anyStop s := by
  obtain ⟨own, dev, blockno, valid⟩ : Mine s p (.read i b) := reads ▸ h.mine p
  obtain ⟨clean, clear⟩ := h.fresh i valid
  have published : s.disk (s.buf i).blockno = s.published (s.buf i).blockno := by
    refine h.clean _ fun j dev' same => ?_
    rw [h.unique j i dev' dev same]
    exact clean
  rw [next, wp_bind, wp_get, reads]
  simp only [wp_bind]
  refine wp_iderw own (by simp [valid]) (fun dirty => ?_) fun _ => ?_
  · rw [clean] at dirty
    cases dirty
  rw [wp_modify]
  have self : update s.buf i { s.buf i with valid := true, data := s.disk (s.buf i).blockno } i =
      { s.buf i with valid := true, data := s.disk (s.buf i).blockno } := update_self ..
  have t : Touch s ((s.setBuf i { s.buf i with
      valid := true, data := s.disk (s.buf i).blockno }).setAct p .idle) p i .idle :=
    .of_buf rfl rfl rfl rfl rfl rfl rfl rfl rfl (fun _ _ => rfl) fun _ _ => ⟨rfl, rfl⟩
  constructor
  case coherent =>
    refine ⟨l, h.touch t own self rfl (fun _ => published) (fun _ => published) ?_ ?_ (.inl rfl)⟩
    · rw [reads]
      exact fun _ => id
    rw [reads]
    exact fun _ eq => eq.symm
  case recycled =>
    intro j changed
    rw [(t.ids j).1, (t.ids j).2.1] at changed
    simp at changed
  case returned =>
    intro q j c reads' idle
    by_cases same : q = p
    · subst same
      rw [reads] at reads'
      rcases reads' with eq | eq
      · cases eq
      cases eq
      refine ⟨own, t.dev.trans dev, t.blockno.trans blockno, ?_, ?_⟩
      · show (update s.buf i _ i).valid = true
        rw [self]
      show (update s.buf i _ i).data = _
      rw [self, ← blockno]
      exact published
    · change update s.act p .idle q = .idle at idle
      rw [update_of_ne same] at idle
      exact absurd idle (ne_idle_of_reads reads')

theorem wp_write (writes : s.act p = .write i) :
    wp (next p) (fun _ => Orderly s) anyStop s := by
  obtain ⟨own, dirty, clear⟩ : Mine s p (.write i) := writes ▸ h.mine p
  have valid : (s.buf i).valid = true := by
    by_contra invalid
    have clean := (h.fresh i (by simpa using invalid)).1
    rw [dirty] at clean
    cases clean
  have dev := (h.held i p own).1
  rw [next, wp_bind, wp_get, writes]
  simp only [wp_bind]
  refine wp_iderw own (by simp [dirty]) (fun _ => ?_) fun clean => ?_
  · rw [wp_modify]
    have t : Touch s (State.setAct { s.setBuf i { s.buf i with valid := true, dirty := false } with
        disk := update s.disk (s.buf i).blockno (s.buf i).data } p .idle) p i .idle :=
      .of_buf rfl rfl rfl rfl rfl rfl rfl rfl rfl (fun _ _ => rfl)
        fun _ ne => ⟨update_of_ne ne .., rfl⟩
    refine orderly ⟨l, h.touch t own (update_self ..) rfl
      (fun _ => h.contents i dev valid clear) (fun _ => ?_) ?_ ?_ (.inl rfl)⟩
      (fun j => ⟨(t.ids j).1, (t.ids j).2.1⟩) (acts_update ?_)
    · show update s.disk (s.buf i).blockno (s.buf i).data (s.buf i).blockno = _
      rw [update_self]
      exact h.contents i dev valid clear
    · rw [writes]
      exact fun _ => id
    · rw [writes]
      exact fun _ => False.elim
    · rw [writes]
      exact fun _ => id
  · rw [clean] at dirty
    cases dirty

theorem wp_next (p : P) : wp (next p) (fun _ => Orderly s) anyStop s := by
  cases act : s.act p with
  | idle =>
    rw [next, wp_bind, wp_get, act]
    exact h.still
  | read i b => exact h.wp_read act
  | write i => exact h.wp_write act
  | wait i b =>
    rw [next, wp_bind, wp_get, act]
    dsimp only
    split
    next free =>
      refine orderly ⟨l, h.lock act free⟩ (fun _ => ⟨rfl, rfl⟩) (acts_update ?_)
      rw [act]
      exact fun _ => id
    · exact h.still
  | test i b =>
    obtain ⟨own, dev, blockno, clear⟩ : Mine s p (.test i b) := act ▸ h.mine p
    rw [next, wp_bind, wp_get, act]
    dsimp only
    split
    next invalid =>
      refine orderly ⟨l, h.go act (.inl ⟨rfl, invalid⟩)⟩ (fun _ => ⟨rfl, rfl⟩) ?_
      intro q j c reads idle
      change update s.act p (.read i b) q = .idle at idle
      by_cases same : q = p
      · subst same
        rw [update_self] at idle
        cases idle
      rw [update_of_ne same] at idle
      exact ne_idle_of_reads reads idle
    rename_i valid
    have valid : (s.buf i).valid = true := by simpa using valid
    constructor
    case coherent => exact ⟨l, h.go act (.inr ⟨rfl, valid⟩)⟩
    case recycled => exact fun j changed => absurd changed (by simp [State.setAct])
    case returned =>
      intro q j c reads idle
      change update s.act p .idle q = .idle at idle
      by_cases same : q = p
      · subst same
        rw [act] at reads
        rcases reads with eq | eq
        · cases eq
          refine ⟨own, dev, blockno, valid, ?_⟩
          rw [← blockno]
          exact h.contents i dev valid clear
        · cases eq
      · rw [update_of_ne same] at idle
        exact absurd idle (ne_idle_of_reads reads)
  | release i =>
    rw [next, wp_bind, wp_get, act]
    simp only [wp_bind, Cache.put, wp_get, wp_set, wp_modify]
    refine orderly ((h.put act).imp fun _ => And.left) (fun j => ?_) (acts_update ?_)
    · have data : SameData s (s.put i) := .of_refcnt rfl rfl rfl rfl
      exact ⟨data.dev j, data.blockno j⟩
    rw [act]
    exact fun _ => id

theorem edit (idle : s.act p = .idle) (own : s.owner i = some p) (data : Block) :
    Orderly s { s.setBuf i { s.buf i with data := data } with
      edited := update s.edited i true } := by
  have reads := not_reads_of_idle idle
  have valid : (s.buf i).valid = true := (h.held i p own).2.resolve_right (reads i)
  have t : Touch s { s.setBuf i { s.buf i with data := data } with
      edited := update s.edited i true } p i .idle :=
    .of_buf rfl rfl rfl rfl rfl (by rw [← idle, update_eq_self]; rfl) rfl rfl rfl
      (fun _ ne => update_of_ne ne ..) fun _ _ => ⟨rfl, rfl⟩
  refine orderly ⟨l, h.touch t own (update_self ..) valid (fun clear => ?_) (fun clean => ?_) ?_ ?_
    (.inl rfl)⟩ (fun j => ⟨(t.ids j).1, (t.ids j).2.1⟩) fun _ _ _ => ne_idle_of_reads
  · change update s.edited i true i = false at clear
    rw [update_self] at clear
    cases clear
  · refine h.clean _ fun j dev same => ?_
    rw [h.unique j i dev (h.held i p own).1 same]
    exact clean
  · rw [idle]
    exact fun _ => id
  · exact fun j now => absurd now (reads j)

theorem publish (idle : s.act p = .idle) (own : s.owner i = some p)
    (next : a = .idle ∨ a = .write i) :
    Orderly s (((s.publish i).setBuf i { s.buf i with dirty := true }).setAct p a) := by
  have reads := not_reads_of_idle idle
  have valid : (s.buf i).valid = true := (h.held i p own).2.resolve_right (reads i)
  have t : Touch s (((s.publish i).setBuf i { s.buf i with dirty := true }).setAct p a) p i a :=
    .of_buf rfl rfl rfl rfl rfl rfl rfl rfl rfl (fun _ ne => update_of_ne ne ..)
      fun _ ne => ⟨rfl, update_of_ne ne ..⟩
  refine orderly ⟨l, h.touch t own (update_self ..) valid (fun _ => ?_) nofun ?_ ?_ ?_⟩
    (fun j => ⟨(t.ids j).1, (t.ids j).2.1⟩) (acts_update reads)
  · show _ = update s.published (s.buf i).blockno (s.buf i).data (s.buf i).blockno
    rw [update_self]
  · rw [idle]
    exact fun _ => id
  · exact fun j now => absurd now (reads j)
  · exact next.imp_right fun eq => ⟨eq, rfl, update_self ..⟩

theorem wp_step (e : Event P) : wp (step e) (fun _ => Orderly s) anyStop s := by
  cases e with
  | bread p b => exact h.wp_bread p b
  | next p => exact h.wp_next p
  | edit p i data =>
    rw [step, wp_modify]
    split
    next can => exact h.edit can.1 can.2 data
    · exact h.still
  | copy p i j =>
    rw [step, wp_modify]
    split
    next can => exact h.edit can.1 can.2.2 (s.buf i).data
    · exact h.still
  | log_write p i =>
    rw [step, wp_modify]
    split
    next can =>
      have published := h.publish can.1 can.2 (.inl rfl)
      have same : ((s.publish i).setBuf i { s.buf i with dirty := true }).act p = .idle := can.1
      rwa [State.setAct_self same] at published
    · exact h.still
  | bwrite p i =>
    simp only [step, wp_bind, wp_get]
    split
    next idle =>
      split
      · simp
      next own => exact h.publish idle (not_not.1 own) (.inr rfl)
    · exact h.still
  | brelse p i =>
    simp only [step, wp_bind, wp_get]
    split
    next idle =>
      split
      · simp
      rename_i own
      split
      next clear =>
        rw [wp_set]
        exact orderly ⟨l, h.unlock idle (not_not.1 own) clear⟩ (fun _ => ⟨rfl, rfl⟩)
          (acts_update (not_reads_of_idle idle))
      · exact h.still
    · exact h.still

end Coherent

/-! ## Every interleaving -/

theorem ring_insert {k : Links Node} {l : List (Fin NBUF)} (ring : Ring k none (l.map some))
    {i : Fin NBUF} (new : i ∉ l) : Ring (k.insert none (some i)) none ((i :: l).map some) := by
  rw [List.map_cons]
  exact ring.insert (by simpa using new)

theorem ring_binit : Ring binit none ((List.finRange NBUF).reverse.map some) := by
  have grow (l : List (Fin NBUF)) : ∀ (k : Links Node) (l₀ : List (Fin NBUF)),
      Ring k none (l₀.map some) → (l ++ l₀).Nodup →
        Ring (l.foldl (fun k i => k.insert none (some i)) k) none ((l.reverse ++ l₀).map some) := by
    induction l with
    | nil => exact fun k l₀ ring _ => ring
    | cons i l ih =>
      intro k l₀ ring nodup
      rw [List.cons_append, List.nodup_cons, List.mem_append] at nodup
      rw [List.foldl_cons, List.reverse_cons, List.append_assoc]
      refine ih _ (i :: l₀) (ring_insert ring fun mem => nodup.1 (.inr mem)) ?_
      refine List.nodup_middle.2 (List.nodup_cons.2 ⟨?_, nodup.2⟩)
      simpa using nodup.1
  have empty : Ring (⟨id, id⟩ : Links Node) none (([] : List (Fin NBUF)).map some) :=
    ⟨by simp, rfl, rfl⟩
  have ring := grow (List.finRange NBUF) _ [] empty (by simpa using List.nodup_finRange NBUF)
  rwa [List.append_nil] at ring

theorem Coherent.start (disk : Disk) :
    Coherent (init disk : State P) (List.finRange NBUF).reverse where
  ring := ring_binit
  all := by simp
  unique := nofun
  count := fun _ => ⟨0, ⟨∅, by simp [init, Act.Counts], rfl⟩, rfl⟩
  mine := fun _ => trivial
  held := nofun
  fresh := fun _ _ => ⟨rfl, rfl⟩
  editor := nofun
  contents := nofun
  clean := fun _ _ => rfl
  order := List.pairwise_of_forall fun _ _ _ => le_rfl
  stamps := fun _ => le_rfl

/-- In every state reached the links are one ring, each block has at most one buffer and `refcnt`
counts its users.  A buffer recycled next is the least recently used of those unused and not dirty,
and `bread` returns what was last published. -/
theorem cache_coherent (disk : Disk) (es : List (Event P)) {s : State P}
    (reached : exec (run step es) (init disk) = (.ok ⟨⟩, s)) :
    (∃ l : List (Fin NBUF), Ring s.links none (l.map some) ∧ l.Nodup ∧ ∀ i, i ∈ l) ∧
    (∀ i j, (s.buf i).dev = ROOTDEV → (s.buf j).dev = ROOTDEV →
      (s.buf i).blockno = (s.buf j).blockno → i = j) ∧
    (∀ i, ∃ n, Counted s.act i n ∧ (s.buf i).refcnt = n + locked (s.owner i)) ∧
    ∀ e s', exec (step e) s = (.ok ⟨⟩, s') →
      (∀ i, ((s'.buf i).dev ≠ (s.buf i).dev ∨ (s'.buf i).blockno ≠ (s.buf i).blockno) →
        (s.buf i).refcnt = 0 ∧ (s.buf i).dirty = false ∧
          ∀ j, (s.buf j).refcnt = 0 → (s.buf j).dirty = false → s.released i ≤ s.released j) ∧
      ∀ p i b, s.act p = .test i b ∨ s.act p = .read i b → s'.act p = .idle →
        s'.owner i = some p ∧ (s'.buf i).dev = ROOTDEV ∧ (s'.buf i).blockno = b ∧
          (s'.buf i).data = s'.published b := by
  obtain ⟨l, h⟩ : ∃ l, Coherent s l := by
    refine of_run (I := fun s => ∃ l, Coherent s l) reached ⟨_, Coherent.start disk⟩
      fun s e ⟨l, h⟩ => ?_
    exact wp_mono (h.wp_step e) (fun _ _ orderly => orderly.coherent) fun _ _ _ => trivial
  refine ⟨⟨l, h.ring, h.nodup, h.all⟩, h.unique, h.count, fun e s' next => ?_⟩
  have orderly : Orderly s s' := wp_of_ok (Q := fun _ => Orderly s) (h.wp_step e) next
  refine ⟨orderly.recycled, fun p i b reads idle => ?_⟩
  obtain ⟨own, dev, blockno, -, data⟩ := orderly.returned p i b reads idle
  exact ⟨own, dev, blockno, data⟩

end

/-- One process reads a block, changes it, logs and releases it, and reads it again. -/
def readTwice : List (Event PUnit) :=
  [.bread ⟨⟩ 7, .next ⟨⟩, .next ⟨⟩, .next ⟨⟩, .edit ⟨⟩ 0 1, .log_write ⟨⟩ 0, .brelse ⟨⟩ 0, .next ⟨⟩,
    .bread ⟨⟩ 7, .next ⟨⟩]

theorem cache_coherent_readTwice :
    ((exec (step (.next ⟨⟩)) (exec (run step readTwice) (init fun _ => Block.zero)).2).2.buf 0).data =
      1 := by
  have done : (exec (run step readTwice) (init fun _ => Block.zero)).1 = .ok ⟨⟩ := by decide +kernel
  obtain ⟨-, -, -, after⟩ := cache_coherent (fun _ => Block.zero) readTwice (exec_eq_of_ok done)
  have last : (exec (step (.next ⟨⟩))
      (exec (run step readTwice) (init fun _ => Block.zero)).2).1 = .ok ⟨⟩ := by decide +kernel
  obtain ⟨-, returns⟩ := after (.next ⟨⟩) _ (exec_eq_of_ok last)
  obtain ⟨-, -, -, data⟩ := returns ⟨⟩ 0 7 (by decide +kernel) (by decide +kernel)
  rw [data]
  decide +kernel

end Xv6.Cache
