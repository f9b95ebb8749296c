import Xv6.Lib.Hoare
import Xv6.Disk.Block

/-!
# The buffer cache and the disk below it

`bget`, `bread`, `bwrite` and `brelse` over the cache and its list in order of use, with a
synchronous `iderw`.  The machine has `power` for a given number of block writes.

`Rep m V S` is the invariant: through the cache a reader sees the contents `V`, and the disk may
differ from `V` only at the blocks of `S`, each of which is pinned by a dirty buffer.
-/

namespace Xv6

open Lib Function

/-- Max number of blocks any file system operation writes. -/
abbrev MAXOPBLOCKS : ℕ := 10

abbrev LOGSIZE : ℕ := MAXOPBLOCKS * 3

abbrev NBUF : ℕ := MAXOPBLOCKS * 3

variable {V : Disk} {i : Fin NBUF} {S : Set ℕ} {b : ℕ}

/-- A buffer; `valid` and `dirty` are its flags `B_VALID` and `B_DIRTY`. -/
structure Buf where
  dev : ℕ
  blockno : ℕ
  valid : Bool
  dirty : Bool
  refcnt : ℕ
  data : Block

inductive Halt where
  | powerLoss
  | panic (msg : String)
  | overrun
  deriving DecidableEq, Repr

/-- The disk, the buffer cache and the rest of memory; `order` is the list, most recently used
first. -/
structure Machine (κ : Type) where
  disk : Disk
  buf : Fin NBUF → Buf
  order : List (Fin NBUF)
  power : ℕ
  written : List (ℕ × Block)
  kernel : κ

variable {κ : Type}

/-- The machine after power-on: empty cache, `binit`'s list, and the disk as it was left. -/
def Machine.boot (d : Disk) (power : ℕ) (kernel : κ) : Machine κ where
  disk := d
  buf := fun _ => ⟨0, 0, false, false, 0, Block.zero⟩
  order := (List.finRange NBUF).reverse
  power := power
  written := []
  kernel := kernel

def Machine.setBuf (m : Machine κ) (i : Fin NBUF) (b : Buf) : Machine κ :=
  { m with buf := update m.buf i b }

/-- The look-up and recycling of `bget`; the buffer it returns has one more user. -/
def bget (dev blockno : ℕ) : Prog (Machine κ) Halt (Fin NBUF) := do
  let m ← get
  match m.order.find? fun i => (m.buf i).dev = dev ∧ (m.buf i).blockno = blockno with
  | some i =>
      set (m.setBuf i { m.buf i with refcnt := (m.buf i).refcnt + 1 })
      return i
  | none =>
      -- recycle the least recently used buffer that nobody uses and the log has not pinned
      match m.order.reverse.find? fun i => (m.buf i).refcnt = 0 ∧ (m.buf i).dirty = false with
      | some i =>
          set (m.setBuf i ⟨dev, blockno, false, false, 1, (m.buf i).data⟩)
          return i
      | none => throw (.panic "bget: no buffers")

/-- Sync a buffer with the disk: write it if it is dirty, else read it. -/
def iderw (i : Fin NBUF) : Prog (Machine κ) Halt PUnit := do
  let m ← get
  let b := m.buf i
  if b.valid = true ∧ b.dirty = false then
    throw (.panic "iderw: nothing to do")
  else if FSSIZE ≤ b.blockno then
    throw (.panic "incorrect blockno")
  else if b.dirty = true then
    if m.power = 0 then
      throw .powerLoss
    else
      set { m.setBuf i { b with valid := true, dirty := false } with
        disk := update m.disk b.blockno b.data
        power := m.power - 1
        written := m.written ++ [(b.blockno, b.data)] }
  else
    set (m.setBuf i { b with valid := true, data := m.disk b.blockno })

def bread (dev blockno : ℕ) : Prog (Machine κ) Halt (Fin NBUF) := do
  let i ← bget dev blockno
  let m ← get
  if (m.buf i).valid = false then
    iderw i
    return i
  else
    return i

def bwrite (i : Fin NBUF) : Prog (Machine κ) Halt PUnit := do
  modify fun m => m.setBuf i { m.buf i with dirty := true }
  iderw i

/-- Release a buffer; one that nobody uses any more moves to the head of the list. -/
def brelse (i : Fin NBUF) : Prog (Machine κ) Halt PUnit :=
  modify fun m =>
    let m' := m.setBuf i { m.buf i with refcnt := (m.buf i).refcnt - 1 }
    if (m.buf i).refcnt - 1 = 0 then { m' with order := i :: m.order.erase i } else m'

/-- Change the data of a buffer (`memmove(b->data, ...)` or any other store into it). -/
def setData (i : Fin NBUF) (x : Block) : Prog (Machine κ) Halt PUnit :=
  modify fun m => m.setBuf i { m.buf i with data := x }

/-! ## The cache invariant -/

/-- Through the cache a reader sees `V`; exactly the blocks of `S` wait to be written. -/
structure Rep (m : Machine κ) (V : Disk) (S : Set ℕ) : Prop where
  all : ∀ i, i ∈ m.order
  unique : ∀ i j, (m.buf i).dev = ROOTDEV → (m.buf j).dev = ROOTDEV →
    (m.buf i).blockno = (m.buf j).blockno → i = j
  cached : ∀ i, (m.buf i).dev = ROOTDEV → (m.buf i).valid = true →
    (m.buf i).blockno < FSSIZE ∧ (m.buf i).data = V (m.buf i).blockno
  clean : ∀ b, b ∉ S → m.disk b = V b
  pinned : ∀ b ∈ S, ∃ i, (m.buf i).dev = ROOTDEV ∧ (m.buf i).blockno = b ∧
    (m.buf i).valid = true ∧ (m.buf i).dirty = true
  dirty : ∀ i, (m.buf i).dirty = true →
    (m.buf i).dev = ROOTDEV ∧ (m.buf i).valid = true ∧ (m.buf i).blockno ∈ S

/-- The caller has buffer `i` for block `b`, between `bread` and `brelse`. -/
structure Held (m : Machine κ) (i : Fin NBUF) (b : ℕ) : Prop where
  dev : (m.buf i).dev = ROOTDEV
  blockno : (m.buf i).blockno = b
  valid : (m.buf i).valid = true
  used : 0 < (m.buf i).refcnt

/-- Only the cache changed. -/
structure SameStore (m m' : Machine κ) : Prop where
  disk : m'.disk = m.disk
  power : m'.power = m.power
  written : m'.written = m.written
  kernel : m'.kernel = m.kernel

theorem SameStore.refl (m : Machine κ) : SameStore m m := ⟨rfl, rfl, rfl, rfl⟩

theorem SameStore.trans {m₁ m₂ m₃ : Machine κ} (h : SameStore m₁ m₂) (h' : SameStore m₂ m₃) :
    SameStore m₁ m₃ :=
  ⟨h'.disk.trans h.disk, h'.power.trans h.power, h'.written.trans h.written,
    h'.kernel.trans h.kernel⟩

theorem Held.data {m : Machine κ} (h : Held m i b) (rep : Rep m V S) : (m.buf i).data = V b := by
  rw [(rep.cached i h.dev h.valid).2, h.blockno]

theorem Held.lt {m : Machine κ} (h : Held m i b) (rep : Rep m V S) : b < FSSIZE := by
  have := (rep.cached i h.dev h.valid).1
  rwa [h.blockno] at this

theorem Held.of_eq {m m' : Machine κ} (h : Held m i b) (same : m'.buf i = m.buf i) :
    Held m' i b := by
  constructor <;> rw [same]
  exacts [h.dev, h.blockno, h.valid, h.used]

theorem rep_boot (d : Disk) (power : ℕ) (kernel : κ) : Rep (Machine.boot d power kernel) d ∅ where
  all := by simp [Machine.boot]
  unique := by simp [Machine.boot]
  cached := by simp [Machine.boot]
  clean := fun _ _ => rfl
  pinned := by simp
  dirty := by simp [Machine.boot]

theorem Rep.of_same {m m' : Machine κ} (rep : Rep m V S) (all : ∀ i, i ∈ m'.order)
    (disk : m'.disk = m.disk) (same : ∀ i, m'.buf i = { m.buf i with refcnt := (m'.buf i).refcnt }) :
    Rep m' V S where
  all := all
  unique := fun i j => by
    rw [same i, same j]
    exact rep.unique i j
  cached := fun i => by
    rw [same i]
    exact rep.cached i
  clean := fun b hb => by
    rw [disk]
    exact rep.clean b hb
  pinned := fun b hb => by
    obtain ⟨i, hi⟩ := rep.pinned b hb
    refine ⟨i, ?_⟩
    rw [same i]
    exact hi
  dirty := fun i => by
    rw [same i]
    exact rep.dirty i

theorem Rep.kernel {m : Machine κ} (rep : Rep m V S) (k : κ) : Rep { m with kernel := k } V S :=
  rep.of_same rep.all rfl fun _ => rfl

theorem setBuf_same (m : Machine κ) (i : Fin NBUF) (b : Buf) : (m.setBuf i b).buf i = b :=
  update_self ..

theorem setBuf_ne (m : Machine κ) {j : Fin NBUF} (b : Buf) (h : j ≠ i) :
    (m.setBuf i b).buf j = m.buf j :=
  update_of_ne h ..

theorem SameStore.setBuf (m : Machine κ) (i : Fin NBUF) (b : Buf) : SameStore m (m.setBuf i b) :=
  ⟨rfl, rfl, rfl, rfl⟩

theorem Rep.rewrite {m m' : Machine κ} {V' : Disk} {S' : Set ℕ} (rep : Rep m V S)
    (dev : (m.buf i).dev = ROOTDEV) (no : (m.buf i).blockno = b) (nb : Buf)
    (ndev : nb.dev = ROOTDEV) (nno : nb.blockno = b) (all : ∀ j, j ∈ m'.order)
    (buf : m'.buf = update m.buf i nb) (view : ∀ c, c ≠ b → V' c = V c)
    (disk : ∀ c, c ≠ b → m'.disk c = m.disk c) (wait : ∀ c, c ≠ b → (c ∈ S' ↔ c ∈ S))
    (data : nb.valid = true → b < FSSIZE ∧ nb.data = V' b) (pin : b ∈ S' ↔ nb.dirty = true)
    (sound : nb.dirty = true → nb.valid = true) (clean : b ∉ S' → m'.disk b = V' b) :
    Rep m' V' S' := by
  have at_i : m'.buf i = nb := by rw [buf, update_self]
  have off_i {j : Fin NBUF} (hj : j ≠ i) : m'.buf j = m.buf j := by
    rw [buf, update_of_ne hj]
  -- no other buffer stands for `b`
  have off_b {j : Fin NBUF} (hj : j ≠ i) (hdev : (m.buf j).dev = ROOTDEV) :
      (m.buf j).blockno ≠ b := fun h => hj (rep.unique j i hdev dev (h.trans no.symm))
  constructor
  · exact all
  · intro j k
    by_cases hj : j = i <;> by_cases hk : k = i
    · intros
      rw [hj, hk]
    · subst hj
      rw [at_i, off_i hk]
      intro _ hdev h
      exact absurd (h.symm.trans nno) (off_b hk hdev)
    · subst hk
      rw [at_i, off_i hj]
      intro hdev _ h
      exact absurd (h.trans nno) (off_b hj hdev)
    · rw [off_i hj, off_i hk]
      exact rep.unique j k
  · intro j
    by_cases hj : j = i
    · subst hj
      rw [at_i, nno]
      exact fun _ => data
    rw [off_i hj]
    intro hdev valid
    rw [view _ (off_b hj hdev)]
    exact rep.cached j hdev valid
  · intro c hc
    by_cases h : c = b
    · subst h
      exact clean hc
    rw [disk c h, view c h]
    exact rep.clean c fun hs => hc ((wait c h).2 hs)
  · intro c hc
    by_cases h : c = b
    · subst h
      have dirty := pin.1 hc
      exact ⟨i, by rw [at_i]; exact ⟨ndev, nno, sound dirty, dirty⟩⟩
    obtain ⟨j, hdev, hno, valid, dirty⟩ := rep.pinned c ((wait c h).1 hc)
    have hj : j ≠ i := by
      rintro rfl
      exact h (hno.symm.trans no)
    exact ⟨j, by rw [off_i hj]; exact ⟨hdev, hno, valid, dirty⟩⟩
  · intro j
    by_cases hj : j = i
    · subst hj
      rw [at_i, nno]
      exact fun dirty => ⟨ndev, sound dirty, pin.2 dirty⟩
    rw [off_i hj]
    intro dirty
    obtain ⟨hdev, valid, hs⟩ := rep.dirty j dirty
    exact ⟨hdev, valid, (wait _ (off_b hj hdev)).2 hs⟩

theorem Rep.recycle {m : Machine κ} (rep : Rep m V S) {n : ℕ} {x : Block}
    (free : (m.buf i).dirty = false)
    (absent : ∀ j, ¬ ((m.buf j).dev = ROOTDEV ∧ (m.buf j).blockno = b)) :
    Rep (m.setBuf i ⟨ROOTDEV, b, false, false, n, x⟩) V S where
  all := rep.all
  unique := fun j k => by
    by_cases hj : j = i <;> by_cases hk : k = i
    · intros
      rw [hj, hk]
    · subst hj
      rw [setBuf_same, setBuf_ne _ _ hk]
      intro _ dev no
      exact absurd ⟨dev, no.symm⟩ (absent k)
    · subst hk
      rw [setBuf_same, setBuf_ne _ _ hj]
      intro dev _ no
      exact absurd ⟨dev, no⟩ (absent j)
    · rw [setBuf_ne _ _ hj, setBuf_ne _ _ hk]
      exact rep.unique j k
  cached := fun j => by
    by_cases hj : j = i
    · subst hj
      rw [setBuf_same]
      intro _ h
      cases h
    · rw [setBuf_ne _ _ hj]
      exact rep.cached j
  clean := rep.clean
  pinned := fun c hc => by
    obtain ⟨j, dev, no, valid, dirty⟩ := rep.pinned c hc
    have hj : j ≠ i := by
      rintro rfl
      rw [free] at dirty
      cases dirty
    exact ⟨j, by rw [setBuf_ne _ _ hj]; exact ⟨dev, no, valid, dirty⟩⟩
  dirty := fun j => by
    by_cases hj : j = i
    · subst hj
      rw [setBuf_same]
      intro h
      cases h
    · rw [setBuf_ne _ _ hj]
      exact rep.dirty j

/-- What `bget` leaves: a buffer for block `b` with a user more, all other buffers as before. -/
structure Got (m m' : Machine κ) (i : Fin NBUF) (b : ℕ) : Prop where
  dev : (m'.buf i).dev = ROOTDEV
  blockno : (m'.buf i).blockno = b
  used : 0 < (m'.buf i).refcnt
  others : ∀ j, j ≠ i → m'.buf j = m.buf j
  own : 0 < (m.buf i).refcnt → (m.buf i).blockno = b
  store : SameStore m m'

theorem bget_spec {m : Machine κ} (rep : Rep m V S) (b : ℕ) :
    wp (bget ROOTDEV b) (fun i m' => Rep m' V S ∧ Got m m' i b) (fun _ m' => SameStore m m') m := by
  simp only [bget, wp_bind, wp_get]
  split
  case h_1 i found =>
    have hit := List.find?_some found
    obtain ⟨dev, no⟩ := of_decide_eq_true hit
    simp only [wp_bind, wp_set, wp_pure]
    refine ⟨rep.of_same rep.all rfl fun j => ?_, ?_⟩
    · by_cases hj : j = i
      · subst hj
        rw [setBuf_same]
      · rw [setBuf_ne _ _ hj]
    refine ⟨?_, ?_, ?_, fun j hj => setBuf_ne _ _ hj, fun _ => no, SameStore.setBuf ..⟩
    all_goals rw [setBuf_same]
    exacts [dev, no, Nat.succ_pos _]
  case h_2 missing =>
    split
    case h_1 i found =>
      have hit := List.find?_some found
      obtain ⟨unused, free⟩ := of_decide_eq_true hit
      have absent (j : Fin NBUF) : ¬ ((m.buf j).dev = ROOTDEV ∧ (m.buf j).blockno = b) := by
        have := List.find?_eq_none.1 missing j (rep.all j)
        simpa using this
      simp only [wp_bind, wp_set, wp_pure]
      refine ⟨rep.recycle free absent, ?_⟩
      refine ⟨?_, ?_, ?_, fun j hj => setBuf_ne _ _ hj, fun h => ?_, SameStore.setBuf ..⟩
      · rw [setBuf_same]
      · rw [setBuf_same]
      · rw [setBuf_same]
        exact Nat.one_pos
      · omega
    case h_2 => exact SameStore.refl _

/-- What `bread` leaves: the buffer holds block `b`, all other buffers are as before. -/
structure Read (m m' : Machine κ) (i : Fin NBUF) (b : ℕ) : Prop where
  held : Held m' i b
  others : ∀ j, j ≠ i → m'.buf j = m.buf j
  own : 0 < (m.buf i).refcnt → (m.buf i).blockno = b
  store : SameStore m m'

theorem bread_spec {m : Machine κ} (rep : Rep m V S) (b : ℕ) :
    wp (bread ROOTDEV b) (fun i m' => Rep m' V S ∧ Read m m' i b)
      (fun _ m' => SameStore m m') m := by
  simp only [bread, wp_bind, wp_get]
  refine wp_imp (bget_spec rep b) fun i m₁ got => ?_
  obtain ⟨rep₁, got⟩ := got
  rw [wp_ite]
  refine ⟨fun invalid => ?_, fun valid => ?_⟩
  · have clean : (m₁.buf i).dirty = false := by
      by_contra h
      rw [Bool.not_eq_false] at h
      rw [(rep₁.dirty i h).2.1] at invalid
      cases invalid
    -- an uncached block is not waiting to be written
    have fresh : b ∉ S := by
      intro hb
      obtain ⟨j, dev, no, valid, -⟩ := rep₁.pinned b hb
      rw [rep₁.unique j i dev got.dev (no.trans got.blockno.symm), invalid] at valid
      cases valid
    simp only [iderw, wp_bind, wp_get]
    rw [if_neg (by simp [invalid]), wp_ite]
    refine ⟨fun _ => got.store, fun small => ?_⟩
    rw [if_neg (by simp [clean])]
    simp only [wp_set, wp_pure]
    refine ⟨?_, ?_, fun j hj => ?_, got.own, got.store.trans (SameStore.setBuf ..)⟩
    · refine rep₁.rewrite got.dev got.blockno
        { m₁.buf i with valid := true, data := m₁.disk (m₁.buf i).blockno } got.dev got.blockno
        rep₁.all rfl (fun _ _ => rfl) (fun _ _ => rfl) (fun _ _ => Iff.rfl) (fun _ => ?_) ?_
        (fun _ => rfl) (rep₁.clean b)
      · rw [← rep₁.clean b fresh, ← got.blockno]
        exact ⟨Nat.lt_of_not_le small, rfl⟩
      · simp [fresh, clean]
    · constructor <;> rw [setBuf_same]
      exacts [got.dev, got.blockno, got.used]
    · rw [setBuf_ne _ _ hj]
      exact got.others j hj
  · rw [wp_pure]
    rw [Bool.not_eq_false] at valid
    exact ⟨rep₁, ⟨got.dev, got.blockno, valid, got.used⟩, got.others, got.own, got.store⟩

theorem setData_bwrite_spec {m : Machine κ} (rep : Rep m V S) (held : Held m i b) (x : Block) :
    wp (do setData i x; bwrite i)
      (fun _ m' => Rep m' (update V b x) (S \ {b}) ∧ Held m' i b ∧
        (∀ j, j ≠ i → m'.buf j = m.buf j) ∧ m'.disk = update m.disk b x ∧
        m'.written = m.written ++ [(b, x)] ∧ m'.kernel = m.kernel)
      (fun _ m' => m'.disk = m.disk ∧ m'.written = m.written) m := by
  simp only [setData, bwrite, iderw, wp_bind, wp_modify, wp_get, setBuf_same]
  rw [if_neg (by simp), wp_ite]
  refine ⟨fun _ => ⟨rfl, rfl⟩, fun _ => ?_⟩
  rw [if_pos trivial, wp_ite]
  refine ⟨fun _ => ⟨rfl, rfl⟩, fun _ => ?_⟩
  simp only [wp_set, held.blockno]
  refine ⟨?_, ?_, fun j hj => ?_, rfl, rfl, rfl⟩
  · refine rep.rewrite held.dev held.blockno
      { m.buf i with data := x, valid := true, dirty := false } held.dev held.blockno
      rep.all ?_ (fun c hc => update_of_ne hc ..) (fun c hc => update_of_ne hc ..)
      (fun c hc => by simp [hc]) (fun _ => ⟨held.lt rep, by simp⟩) (by simp)
      (fun h => by cases h) fun _ => ?_
    · simp [Machine.setBuf, held.blockno]
    · simp only [update_self]
  · constructor <;> simp only [Machine.setBuf, update_self]
    exacts [held.dev, held.used]
  · simp only [Machine.setBuf, update_of_ne hj]

theorem rep_pin {m : Machine κ} (rep : Rep m V S) (held : Held m i b) (x : Block) :
    Rep (m.setBuf i { m.buf i with data := x, dirty := true }) (update V b x)
      (insert b S) := by
  refine rep.rewrite held.dev held.blockno { m.buf i with data := x, dirty := true } held.dev
    held.blockno rep.all rfl (fun c hc => update_of_ne hc ..) (fun _ _ => rfl)
    (fun c hc => by simp [hc]) (fun _ => ⟨held.lt rep, by simp⟩) (by simp)
    (fun _ => held.valid) fun h => absurd (Set.mem_insert b S) h

theorem brelse_spec {m : Machine κ} (rep : Rep m V S) (i : Fin NBUF) (E : Halt → Machine κ → Prop) :
    wp (brelse i) (fun _ m' => Rep m' V S ∧ (∀ j, j ≠ i → m'.buf j = m.buf j) ∧ SameStore m m')
      E m := by
  simp only [brelse, wp_modify]
  have same (j : Fin NBUF) : (m.setBuf i { m.buf i with refcnt := (m.buf i).refcnt - 1 }).buf j =
      { m.buf j with refcnt := ((m.setBuf i
        { m.buf i with refcnt := (m.buf i).refcnt - 1 }).buf j).refcnt } := by
    by_cases hj : j = i
    · subst hj
      rw [setBuf_same]
    · rw [setBuf_ne _ _ hj]
  split
  · refine ⟨rep.of_same (fun j => ?_) rfl same, fun j hj => setBuf_ne _ _ hj, rfl, rfl, rfl, rfl⟩
    rw [List.mem_cons]
    by_cases hj : j = i
    · exact Or.inl hj
    · exact Or.inr ((List.mem_erase_of_ne hj).2 (rep.all j))
  · exact ⟨rep.of_same rep.all rfl same, fun j hj => setBuf_ne _ _ hj, SameStore.setBuf ..⟩

end Xv6
