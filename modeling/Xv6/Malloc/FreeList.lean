import Xv6.Malloc.Umalloc

/-!
# The free list

The free blocks in the order of their addresses, no two of which touch: putting a block in joins it
to its neighbours.  `Chained` says that the headers in memory form this list, as a circle through
`base`.
-/

namespace Xv6.Umalloc

open Lib Function

variable {b' c : Block} {B' l : List Block} {Q : PUnit → Heap → Prop} {E : Stuck → Heap → Prop}
  {n y : ℕ}

/-! ## Blocks -/

namespace Block

def stop (b : Block) : ℕ := advance b.addr b.size

def Has (b : Block) (y : ℕ) : Prop := b.addr ≤ y ∧ y < b.stop

def Apart (a b : Block) : Prop := ∀ y, a.Has y → ¬ b.Has y

def Before (a b : Block) : Prop := a.stop < b.addr

variable {a b c x : Block} {l : List Block}

theorem addr_le_stop (b : Block) : b.addr ≤ b.stop := Nat.le_add_right ..

theorem has_addr (pos : 0 < b.size) : b.Has b.addr := by
  refine ⟨le_rfl, ?_⟩
  simp only [stop, advance, headerSize]
  omega

theorem Before.addr_lt (h : a.Before b) : a.addr < b.addr := lt_of_le_of_lt a.addr_le_stop h

theorem Apart.symm (h : a.Apart b) : b.Apart a := fun y there here => h y here there

theorem Apart.addr_ne (h : a.Apart b) (pos : 0 < a.size) (pos' : 0 < b.size) : a.addr ≠ b.addr := by
  intro same
  refine h a.addr (has_addr pos) ?_
  rw [same]
  exact has_addr pos'

theorem Apart.stop_le (h : a.Apart b) (pos : 0 < b.size) (le : a.addr ≤ b.addr) :
    a.stop ≤ b.addr := by
  by_contra less
  exact h b.addr ⟨le, by omega⟩ (has_addr pos)

def merge (a b : Block) : Block := ⟨a.addr, a.size + b.size⟩

theorem stop_merge (touch : a.stop = b.addr) : (a.merge b).stop = b.stop := by
  simp only [stop, advance, merge, headerSize] at touch ⊢
  omega

theorem has_merge (touch : a.stop = b.addr) : (a.merge b).Has y ↔ a.Has y ∨ b.Has y := by
  have left := a.addr_le_stop
  have right := b.addr_le_stop
  rw [Has, stop_merge touch, Has, Has]
  show a.addr ≤ y ∧ _ ↔ _
  omega

/-- Put a block before a list of blocks, joined to the first of them if they touch. -/
def join (b : Block) : List Block → List Block
  | [] => [b]
  | q :: l => if b.stop = q.addr then b.merge q :: l else b :: q :: l

theorem has_join : (∃ c ∈ b.join l, c.Has y) ↔ b.Has y ∨ ∃ c ∈ l, c.Has y := by
  cases l with
  | nil => simp [join]
  | cons q l =>
    rw [join]
    split
    next touch => simp only [List.exists_mem_cons_iff, has_merge touch, or_assoc]
    · simp only [List.exists_mem_cons_iff]

theorem length_join (b : Block) (l : List Block) : (b.join l).length ≤ l.length + 1 := by
  cases l with
  | nil => rfl
  | cons q l =>
    rw [join]
    split <;> simp

theorem pos_join (pos : ∀ c ∈ l, 0 < c.size) : ∀ c ∈ b.join l, c = b ∨ 0 < c.size := by
  cases l with
  | nil => simp [join]
  | cons q l =>
    intro c mem
    rw [join] at mem
    split at mem
    · rcases List.mem_cons.1 mem with rfl | mem
      · have := pos q (by simp)
        exact .inr (Nat.add_pos_right _ this)
      · exact .inr (pos c (by simp [mem]))
    rcases List.mem_cons.1 mem with rfl | mem
    · exact .inl rfl
    · exact .inr (pos c mem)

theorem sorted_join (sorted : l.Pairwise Before) (after : ∀ c ∈ l, b.stop ≤ c.addr) :
    (b.join l).Pairwise Before := by
  cases l with
  | nil => simp [join]
  | cons q l =>
    obtain ⟨first, rest⟩ := List.pairwise_cons.1 sorted
    have touchOrNot := after q (by simp)
    rw [join]
    split
    next touch =>
      refine List.pairwise_cons.2 ⟨fun c mem => ?_, rest⟩
      rw [Before, stop_merge touch]
      exact first c mem
    rename_i apart
    refine List.pairwise_cons.2 ⟨fun c mem => ?_, sorted⟩
    have gap : b.stop < q.addr := lt_of_le_of_ne touchOrNot apart
    rcases List.mem_cons.1 mem with rfl | mem
    · exact gap
    · exact lt_of_lt_of_le gap (le_of_lt (first c mem).addr_lt)

theorem join_eq (b : Block) (l : List Block) : ∃ b' l', b.join l = b' :: l' ∧ b'.addr = b.addr ∧
    b.size ≤ b'.size ∧ (b' = b ∧ l' = l ∨ ∃ q, l = q :: l' ∧ b.stop = q.addr ∧ b' = b.merge q) := by
  cases l with
  | nil => exact ⟨b, [], rfl, rfl, le_rfl, .inl ⟨rfl, rfl⟩⟩
  | cons q l =>
    rw [join]
    split
    next touch => exact ⟨b.merge q, l, rfl, rfl, Nat.le_add_right .., .inr ⟨q, rfl, touch, rfl⟩⟩
    · exact ⟨b, q :: l, rfl, rfl, le_rfl, .inl ⟨rfl, rfl⟩⟩

theorem sorted_insert {A B : List Block} (sorted : (A ++ x :: B).Pairwise Before)
    (before : x.stop ≤ b.addr) (after : ∀ c ∈ B, b.stop ≤ c.addr) :
    (A ++ x.join (b.join B)).Pairwise Before := by
  rw [List.pairwise_append, List.pairwise_cons] at sorted
  obtain ⟨sortedA, ⟨-, sortedB⟩, gap⟩ := sorted
  have inner := sorted_join sortedB after
  have least {c : Block} {l : List Block} (sortedL : (c.join l).Pairwise Before) :
      ∀ d ∈ c.join l, c.addr ≤ d.addr := by
    obtain ⟨c', l', eq, addr, -, -⟩ := c.join_eq l
    rw [eq] at sortedL ⊢
    intro d mem
    rcases List.mem_cons.1 mem with rfl | mem
    · exact addr.ge
    · exact addr.ge.trans (le_of_lt ((List.pairwise_cons.1 sortedL).1 d mem).addr_lt)
  have outer := sorted_join inner fun c mem => before.trans (least inner c mem)
  exact List.pairwise_append.2 ⟨sortedA, outer, fun a memA c memC =>
    lt_of_lt_of_le (gap a memA x (by simp)) (least outer c memC)⟩

theorem split_sorted {k : ℕ} : ∀ {m : Block} {l : List Block}, (m :: l).Pairwise Before →
    m.addr < k → (∀ c ∈ l, c.addr ≠ k) → ∃ A x B, m :: l = A ++ x :: B ∧
      (∀ c ∈ A, c.addr < k) ∧ x.addr < k ∧ ∀ c ∈ B, k < c.addr := by
  intro m l
  induction l generalizing m with
  | nil => exact fun _ lt _ => ⟨[], m, [], rfl, by simp, lt, by simp⟩
  | cons q l ih =>
    intro sorted lt ne
    obtain ⟨first, rest⟩ := List.pairwise_cons.1 sorted
    by_cases before : q.addr < k
    · obtain ⟨A, x, B, eq, left, here, right⟩ := ih rest before fun c mem => ne c (by simp [mem])
      refine ⟨m :: A, x, B, by rw [eq]; rfl, ?_, here, right⟩
      intro c mem
      rcases List.mem_cons.1 mem with rfl | mem
      · exact lt
      · exact left c mem
    refine ⟨[], m, q :: l, rfl, by simp, lt, fun c mem => ?_⟩
    have behind : k < q.addr := lt_of_le_of_ne (by omega) (Ne.symm (ne q (by simp)))
    rcases List.mem_cons.1 mem with rfl | mem
    · exact behind
    · exact lt_trans behind ((List.pairwise_cons.1 rest).1 c mem).addr_lt

end Block

open Xv6.Umalloc.Block

/-! ## The list in memory -/

def Heap.next (s : Heap) (a : ℕ) : ℕ := (s.hdr a).ptr

/-- The headers in memory form the free list. -/
structure Chained (base : ℕ) (s : Heap) (free : List Block) : Prop where
  sorted : (⟨base, 0⟩ :: free).Pairwise Before
  cycle : Cycle s.next (base :: free.map addr)
  sizes : ∀ b ∈ ⟨base, 0⟩ :: free, (s.hdr b.addr).size = b.size
  pos : ∀ b ∈ free, 0 < b.size
  freep : s.freep ∈ base :: free.map addr

section

variable {base : ℕ} {s s' : Heap} {free : List Block} {b : Block} {bp p : ℕ} {fuel : ℕ}
  {A B : List Block} {x : Block}

theorem nodup_addr (sorted : l.Pairwise Before) : (l.map addr).Nodup := by
  rw [List.nodup_iff_pairwise_ne, List.pairwise_map]
  exact sorted.imp fun h => ne_of_lt h.addr_lt

theorem Chained.congr (h : Chained base s free) (freep : s'.freep ∈ base :: free.map addr)
    (same : ∀ b ∈ ⟨base, 0⟩ :: free, s'.hdr b.addr = s.hdr b.addr) : Chained base s' free where
  sorted := h.sorted
  cycle := by
    refine h.cycle.congr fun a mem => ?_
    obtain ⟨c, memC, rfl⟩ := List.mem_map.1 (show a ∈ (⟨base, 0⟩ :: free).map addr from mem)
    rw [Heap.next, Heap.next, same c memC]
  sizes c mem := by rw [same c mem, h.sizes c mem]
  pos := h.pos
  freep := freep

/-- The test of the loop in `free`. -/
def Stops (s : Heap) (bp p : ℕ) : Prop :=
  bp > p ∧ bp < s.next p ∨ p ≥ s.next p ∧ (bp > p ∨ bp < s.next p)

instance : Decidable (Stops s bp p) := inferInstanceAs (Decidable (_ ∨ _))

theorem wp_place {Q : ℕ → Heap → Prop} {r : ℕ}
    (found : seek s.next (fun p => Stops s bp p) fuel p = some r) (h : Q r s) :
    wp (place bp fuel p) Q E s := by
  induction fuel generalizing p with
  | zero => cases found
  | succ fuel ih =>
    rw [seek] at found
    rw [place, wp_bind, wp_get, wp_ite, wp_ite, wp_pure]
    have hit (stops : Stops s bp p) : Q p s := by
      rw [if_pos (decide_eq_true stops)] at found
      cases found
      exact h
    refine ⟨fun between => hit (.inl between), fun outside => ⟨fun wrap => hit (.inr wrap), ?_⟩⟩
    intro inner
    have goes : ¬ Stops s bp p := fun stops => stops.elim outside inner
    rw [if_neg (by simpa using goes)] at found
    exact ih found

/-- Of the nodes of the list only the one before `bp` passes the test. -/
theorem stops_iff (cycle : Cycle s.next ((A ++ x :: B).map addr))
    (sorted : (A ++ x :: B).Pairwise Before) (first : (A ++ x :: B).head? = some ⟨base, 0⟩)
    (above : base < bp) (here : x.addr < bp) (right : ∀ c ∈ B, bp < c.addr) {a : ℕ}
    (mem : a ∈ (A ++ x :: B).map addr) : Stops s bp a ↔ a = x.addr := by
  obtain ⟨c, memC, rfl⟩ := List.mem_map.1 mem
  have left : ∀ a ∈ A, a.addr < x.addr := fun a mem =>
    ((List.pairwise_append.1 sorted).2.2 a mem x (by simp)).addr_lt
  have behind : ∀ e ∈ A ++ x :: B, x.addr < e.addr → bp < e.addr := by
    intro e memE after
    rcases List.mem_append.1 memE with memA | memB
    · have := left e memA
      omega
    rcases List.mem_cons.1 memB with rfl | memB
    · omega
    · exact right e memB
  obtain ⟨L, R, split⟩ := List.append_of_mem memC
  have behindC := behind c memC
  rw [split] at sorted first behind
  have memX : x ∈ L ++ c :: R := by rw [← split]; simp
  rw [List.pairwise_append, List.pairwise_cons] at sorted
  have next := (show Cycle s.next (L.map addr ++ c.addr :: R.map addr) by
    rw [← List.map_cons, ← List.map_append, ← split]; exact cycle).next_of_split
  cases R with
  | nil =>
    -- the node after the last one is `base`
    have wraps : s.next c.addr = base ∧ base ≤ c.addr := by
      rw [List.map_nil, List.nil_append] at next
      cases L with
      | nil =>
        obtain rfl : c = ⟨base, 0⟩ := by simpa using first
        exact ⟨by simpa using next.symm, le_rfl⟩
      | cons d L =>
        obtain rfl : d = ⟨base, 0⟩ := by simpa using first
        have lt := (sorted.2.2 ⟨base, 0⟩ (by simp) c (by simp)).addr_lt
        exact ⟨by simpa using next.symm, le_of_lt lt⟩
    have last : x.addr ≤ c.addr := by
      rcases List.mem_append.1 memX with memL | same
      · exact le_of_lt (sorted.2.2 x memL c (by simp)).addr_lt
      · rw [List.mem_singleton.1 same]
    rw [Stops, wraps.1]
    omega
  | cons d R =>
    have goes : s.next c.addr = d.addr := by simpa using next.symm
    have lt : c.addr < d.addr := (sorted.2.1.1 d (by simp)).addr_lt
    have behindD := behind d (by simp)
    have between : ¬ (c.addr < x.addr ∧ x.addr < d.addr) := by
      rintro ⟨after, before⟩
      rcases List.mem_append.1 memX with memL | memR
      · have := (sorted.2.2 x memL c (by simp)).addr_lt
        omega
      rcases List.mem_cons.1 memR with rfl | memR
      · omega
      rcases List.mem_cons.1 memR with rfl | memR
      · omega
      have := ((List.pairwise_cons.1 sorted.2.1.2).1 x memR).addr_lt
      omega
    rw [Stops, goes]
    omega

theorem wp_setHdr {h : Header} :
    wp (setHdr p h) Q E s ↔ Q ⟨⟩ { s with hdr := update s.hdr p h } := Iff.rfl

theorem wp_joinNext (cycle : Cycle s.next ((x :: B ++ A).map addr))
    (nodup : ((x :: B ++ A).map addr).Nodup) (size : (s.hdr b.addr).size = b.size)
    (sizes : ∀ c ∈ B, (s.hdr c.addr).size = c.size) (low : ∀ c ∈ A ++ [x], c.addr < b.addr)
    (h : ∀ b' B' next', b.join B = b' :: B' → Cycle next' ((x :: B' ++ A).map addr) →
      (∀ a, a ≠ x.addr → next' a = s.next a) →
      Q ⟨⟩ { s with hdr := update s.hdr b.addr ⟨next' x.addr, b'.size⟩ }) :
    wp (joinNext b.addr x.addr) Q E s := by
  have after := cycle.next_head
  rw [joinNext, wp_bind, wp_get, wp_ite, wp_setHdr, wp_setHdr, size]
  have stop : advance b.addr b.size = b.stop := rfl
  cases B with
  | nil =>
    have nextLow : s.next x.addr < b.addr := by
      obtain ⟨c, mem, same⟩ : ∃ c ∈ A ++ [x], c.addr = s.next x.addr := by
        cases A with
        | nil => exact ⟨x, by simp, by simpa using after⟩
        | cons c A => exact ⟨c, by simp, by simpa using after⟩
      rw [← same]
      exact low c mem
    constructor
    · intro touch
      have := b.addr_le_stop
      exact absurd (stop ▸ touch : b.stop = s.next x.addr) (by omega)
    intro _
    exact h b [] s.next rfl cycle fun _ _ => rfl
  | cons q B =>
    have next : s.next x.addr = q.addr := by simpa using after.symm
    constructor
    · intro touch
      have touch' : b.stop = q.addr := touch.trans next
      have := h (b.merge q) B (update s.next x.addr (s.next q.addr)) (if_pos touch')
        (cycle.remove nodup) fun a ne => update_of_ne ne ..
      rw [update_self] at this
      rw [show (s.hdr x.addr).ptr = q.addr from next, sizes q (by simp)]
      exact this
    · intro apart
      exact h b (q :: B) s.next (if_neg fun touch => apart (touch.trans next.symm)) cycle
        fun _ _ => rfl

/-- The state after the headers of the block and of the one before it are written. -/
def linked (s : Heap) (b' x : Block) (n : ℕ) : Heap :=
  { s with
    hdr := update (update s.hdr b'.addr ⟨n, b'.size⟩) x.addr
      (if x.stop = b'.addr then ⟨n, x.size + b'.size⟩ else ⟨b'.addr, x.size⟩)
    freep := x.addr }

theorem wp_joinPrev (size : (s.hdr x.addr).size = x.size) (ne : x.addr ≠ b'.addr)
    (h : Q ⟨⟩ { linked s b' x n with freep := s.freep }) :
    wp (joinPrev b'.addr x.addr) Q E
      { s with hdr := update s.hdr b'.addr ⟨n, b'.size⟩ } := by
  rw [joinPrev, wp_bind, wp_get, wp_ite, wp_setHdr, wp_setHdr]
  simp only [update_self, update_of_ne ne, size]
  constructor
  · intro touch
    rwa [linked, if_pos (show x.stop = b'.addr from touch)] at h
  intro apart
  rwa [linked, if_neg (show x.stop ≠ b'.addr from apart)] at h

theorem next_linked (s : Heap) (b' x : Block) (n : ℕ) : (linked s b' x n).next =
    update (update s.next b'.addr n) x.addr
      (if x.stop = b'.addr then n else b'.addr) := by
  funext a
  simp only [Heap.next, linked, update_apply]
  split_ifs <;> rfl

theorem linked_off {a : ℕ} (off : a ≠ b'.addr) (off' : a ≠ x.addr) :
    (linked s b' x n).hdr a = s.hdr a := by
  simp only [linked, update_of_ne off', update_of_ne off]

theorem size_linked (ne : x.addr ≠ b'.addr)
    (off : ∀ c ∈ B', (s.hdr c.addr).size = c.size ∧ c.addr ≠ b'.addr ∧ c.addr ≠ x.addr)
    (mem : c ∈ x.join (b' :: B')) : ((linked s b' x n).hdr c.addr).size = c.size := by
  have others (memB : c ∈ B') : ((linked s b' x n).hdr c.addr).size = c.size := by
    obtain ⟨size, offB, offX⟩ := off c memB
    rw [linked_off offB offX, size]
  rw [join] at mem
  split at mem
  next touch =>
    rcases List.mem_cons.1 mem with rfl | mem
    · simp only [linked, merge, update_self, if_pos touch]
    · exact others mem
  rename_i gap
  rcases List.mem_cons.1 mem with rfl | mem
  · simp only [linked, update_self, if_neg gap]
  rcases List.mem_cons.1 mem with rfl | mem
  · simp only [linked, update_of_ne ne.symm, update_self]
  · exact others mem

theorem cycle_linked {next' : ℕ → ℕ} (cycle : Cycle next' ((x :: B' ++ A).map addr))
    (nodup : ((x :: B' ++ A).map addr).Nodup) (same : ∀ a, a ≠ x.addr → next' a = s.next a)
    (new : b'.addr ∉ (x :: B' ++ A).map addr) :
    Cycle (linked s b' x (next' x.addr)).next ((x.join (b' :: B') ++ A).map addr) := by
  have ne : x.addr ≠ b'.addr := fun eq => new (by simp [eq])
  rw [next_linked]
  by_cases touch : x.stop = b'.addr
  · rw [if_pos touch, join, if_pos touch]
    refine (cycle.update_off new (next' x.addr)).congr fun a _ => ?_
    by_cases here : a = x.addr
    · subst here
      rw [update_self, update_of_ne ne]
    rw [update_of_ne here]
    simp only [update_apply, same a here]
  rw [if_neg touch, join, if_neg touch]
  refine (cycle.insert nodup new).congr fun a _ => ?_
  by_cases here : a = x.addr
  · rw [here, update_self, update_self]
  rw [update_of_ne here, update_of_ne here]
  simp only [update_apply, same a here]

/-! ## Freeing a block -/

/-- A block outside the list that can be put into it. -/
structure Loose (base : ℕ) (b : Block) (s : Heap) (free : List Block) : Prop where
  chained : Chained base s free
  size : (s.hdr b.addr).size = b.size
  pos : 0 < b.size
  above : base < b.addr
  apart : ∀ c ∈ free, c.Apart b

/-- The block belongs between `A ++ [x]` and `B`. -/
structure Spot (base : ℕ) (b : Block) (free A : List Block) (x : Block) (B : List Block) :
    Prop where
  split : ⟨base, 0⟩ :: free = A ++ x :: B
  left : ∀ c ∈ A ++ [x], c.addr < b.addr
  right : ∀ c ∈ B, b.addr < c.addr

/-- Freeing the block `b` puts it into the list, perhaps in a larger one, and changes only that. -/
structure Freed (base : ℕ) (b : Block) (s s' : Heap) (free free' : List Block) : Prop where
  chained : Chained base s' free'
  has : ∀ y, (∃ c ∈ free', c.Has y) ↔ b.Has y ∨ ∃ c ∈ free, c.Has y
  length : free'.length ≤ free.length + 1
  room : ∃ c ∈ free', b.size ≤ c.size
  frame : ∀ a, a ≠ b.addr → (∀ c ∈ ⟨base, 0⟩ :: free, a ≠ c.addr) → s'.hdr a = s.hdr a
  rest : s' = { s with hdr := s'.hdr, freep := s'.freep }

theorem not_has_base : ¬ Has ⟨base, 0⟩ y := by
  rintro ⟨le, lt⟩
  simp only [stop, advance, Nat.zero_mul] at le lt
  omega

theorem has_base_cons : (∃ c ∈ ⟨base, 0⟩ :: l, c.Has y) ↔ ∃ c ∈ l, c.Has y := by
  rw [List.exists_mem_cons_iff, or_iff_right not_has_base]

theorem Loose.spot (h : Loose base b s free) : ∃ A x B, Spot base b free A x B := by
  obtain ⟨A, x, B, split, left, here, right⟩ := split_sorted h.chained.sorted h.above
    fun c mem => (h.apart c mem).addr_ne (h.chained.pos c mem) h.pos
  refine ⟨A, x, B, split, fun c mem => ?_, right⟩
  rcases List.mem_append.1 mem with mem | mem
  · exact left c mem
  · rwa [List.mem_singleton.1 mem]

namespace Spot

variable (spot : Spot base b free A x B) (h : Loose base b s free)

include spot

theorem either (mem : c ∈ A ++ x :: B) : c = ⟨base, 0⟩ ∨ c ∈ free :=
  List.mem_cons.1 (spot.split ▸ mem)

theorem has_iff : (∃ c ∈ free, c.Has y) ↔ ∃ c ∈ A ++ x :: B, c.Has y := by
  rw [← spot.split, has_base_cons]

include h

theorem sorted : (A ++ x :: B).Pairwise Before := spot.split ▸ h.chained.sorted

theorem sizes : ∀ c ∈ A ++ x :: B, (s.hdr c.addr).size = c.size := spot.split ▸ h.chained.sizes

theorem cycle : Cycle s.next ((A ++ x :: B).map addr) := by
  rw [← spot.split]
  exact h.chained.cycle

theorem apart (mem : c ∈ A ++ x :: B) : c.Apart b := by
  rcases spot.either mem with rfl | mem
  · exact fun y has _ => not_has_base has
  · exact h.apart c mem

theorem pos (mem : c ∈ B) : 0 < c.size := by
  rcases spot.either (List.mem_append_right A (List.mem_cons_of_mem x mem)) with rfl | memF
  · exact absurd (spot.right _ mem) (Nat.not_lt.2 (le_of_lt h.above))
  · exact h.chained.pos c memF

theorem stop_le : x.stop ≤ b.addr :=
  (spot.apart h (by simp)).stop_le h.pos (le_of_lt (spot.left x (by simp)))

theorem sorted_insert : (A ++ x.join (b.join B)).Pairwise Before :=
  Block.sorted_insert (spot.sorted h) (spot.stop_le h) fun c mem =>
    (spot.apart h (by simp [mem])).symm.stop_le (spot.pos h mem) (le_of_lt (spot.right c mem))

omit h in
theorem insert_eq (above : base < b.addr) (first : ∀ q ∈ l.head?, q.addr = b.addr) :
    ∃ free', A ++ x.join l = ⟨base, 0⟩ :: free' := by
  have split := spot.split
  cases A with
  | nil =>
    obtain ⟨rfl, -⟩ : x = ⟨base, 0⟩ ∧ B = free := by simpa using split.symm
    cases l with
    | nil => exact ⟨_, rfl⟩
    | cons q l =>
      refine ⟨q :: l, if_neg ?_⟩
      rw [first q rfl]
      simp only [stop, advance]
      omega
  | cons c A =>
    obtain ⟨rfl, -⟩ : c = ⟨base, 0⟩ ∧ A ++ x :: B = free := by simpa using split.symm
    exact ⟨_, rfl⟩

end Spot

theorem exists_mem_append {P : Block → Prop} :
    (∃ c ∈ A ++ B, P c) ↔ (∃ c ∈ A, P c) ∨ ∃ c ∈ B, P c := by
  simp only [List.mem_append, or_and_right, exists_or]

theorem freed_linked {next' : ℕ → ℕ} (h : Loose base b s free) (spot : Spot base b free A x B)
    (joined : b.join B = b' :: B') (cycle : Cycle next' ((x :: B' ++ A).map addr))
    (same : ∀ a, a ≠ x.addr → next' a = s.next a) :
    ∃ free', Freed base b s (linked s b' x (next' x.addr)) free free' := by
  have sorted := spot.sorted h
  have sorted' := spot.sorted_insert h
  obtain ⟨b₁, B₁, eq, addr, larger, kinds⟩ := b.join_eq B
  obtain ⟨rfl, rfl⟩ : b' = b₁ ∧ B' = B₁ := by simpa using joined.symm.trans eq
  obtain ⟨free', list⟩ := spot.insert_eq h.above (l := b' :: B') (by simpa using addr)
  have has (y : ℕ) : (∃ c ∈ free', c.Has y) ↔ b.Has y ∨ ∃ c ∈ free, c.Has y := by
    rw [spot.has_iff, ← has_base_cons, ← list, ← joined, exists_mem_append, exists_mem_append,
      has_join, has_join, List.exists_mem_cons_iff, or_left_comm (a := b.Has y),
      or_left_comm (a := b.Has y)]
  rw [joined, list] at sorted'
  have sub : B'.Sublist B := by
    rcases kinds with ⟨-, rfl⟩ | ⟨q, rfl, -, -⟩
    · exact List.Sublist.refl _
    · exact List.sublist_cons_self ..
  have ne : x.addr ≠ b'.addr := by
    rw [addr]
    exact ne_of_lt (spot.left x (by simp))
  have offB : ∀ c ∈ B', c.addr ≠ b'.addr ∧ c.addr ≠ x.addr := by
    intro c mem
    rw [addr]
    have after := (List.pairwise_cons.1 (List.pairwise_append.1 sorted).2.1).1 c (sub.mem mem)
    exact ⟨ne_of_gt (spot.right c (sub.mem mem)), ne_of_gt after.addr_lt⟩
  have offA : ∀ c ∈ A, c.addr ≠ b'.addr ∧ c.addr ≠ x.addr := by
    intro c mem
    rw [addr]
    exact ⟨ne_of_lt (spot.left c (by simp [mem])),
      ne_of_lt ((List.pairwise_append.1 sorted).2.2 c mem x (by simp)).addr_lt⟩
  have nodup : ((x :: B' ++ A).map Block.addr).Nodup := by
    have whole := (List.perm_append_comm.map Block.addr).nodup (nodup_addr sorted)
    exact whole.sublist (((sub.cons_cons x).append_right A).map _)
  have new : b'.addr ∉ (x :: B' ++ A).map Block.addr := by
    intro mem
    obtain ⟨c, memC, eqC⟩ := List.mem_map.1 mem
    rcases List.mem_append.1 memC with memB | memA
    · rcases List.mem_cons.1 memB with rfl | memB
      · exact ne eqC
      · exact (offB c memB).1 eqC
    · exact (offA c memA).1 eqC
  have around := cycle_linked cycle nodup same new
  rw [List.map_append] at around
  have circle := around.rotate
  rw [← List.map_append, list] at circle
  refine ⟨free', ⟨sorted', circle, ?_, ?_, ?_⟩, has, ?_, ?_, ?_, rfl⟩
  · rw [← list]
    intro c mem
    rcases List.mem_append.1 mem with mem | mem
    · rw [linked_off (offA c mem).1 (offA c mem).2, spot.sizes h c (by simp [mem])]
    · exact size_linked ne (fun c mem => ⟨spot.sizes h c (by simp [sub.mem mem]), offB c mem⟩) mem
  · intro c mem
    have later : base < c.addr := ((List.pairwise_cons.1 sorted').1 c mem).addr_lt
    have pos : c ∈ A ++ x :: B ∨ 0 < c.size := by
      have memC : c ∈ A ++ x.join (b' :: B') := by rw [list]; simp [mem]
      rcases List.mem_append.1 memC with memA | memJ
      · exact .inl (by simp [memA])
      refine (pos_join ?_ c memJ).imp (fun eq => by simp [eq]) id
      intro d memD
      rcases List.mem_cons.1 memD with rfl | memD
      · exact lt_of_lt_of_le h.pos larger
      · exact spot.pos h (sub.mem memD)
    rcases pos with old | pos
    · rcases spot.either old with rfl | memF
      · exact absurd later (lt_irrefl _)
      · exact h.chained.pos c memF
    · exact pos
  · show x.addr ∈ (⟨base, 0⟩ :: free').map Block.addr
    obtain ⟨x', l', eqX, addrX, -, -⟩ := x.join_eq (b' :: B')
    rw [← list, eqX, ← addrX]
    simp
  · have length := congrArg List.length list
    have length' := congrArg List.length spot.split
    have joinLength := x.length_join (b' :: B')
    have subLength := sub.length_le
    simp only [List.length_append, List.length_cons] at length length' joinLength
    omega
  · obtain ⟨c, mem, size⟩ : ∃ c ∈ A ++ x.join (b' :: B'), b'.size ≤ c.size := by
      rw [join]
      split
      · exact ⟨x.merge b', by simp, Nat.le_add_left ..⟩
      · exact ⟨b', by simp, le_rfl⟩
    rw [list] at mem
    rcases List.mem_cons.1 mem with rfl | mem
    · have := h.pos
      simp only at size
      omega
    · exact ⟨c, mem, larger.trans size⟩
  · intro a offB offAll
    rw [spot.split] at offAll
    exact linked_off (addr ▸ offB) (offAll x (by simp))

theorem wp_free (h : Loose base b s free) (enough : free.length + 1 ≤ fuel) :
    wp (Umalloc.free fuel (advance b.addr 1)) (fun _ s' => ∃ free', Freed base b s s' free free')
      never s := by
  obtain ⟨A, x, B, spot⟩ := h.spot
  have cycle := spot.cycle h
  have sorted := spot.sorted h
  have back : advance b.addr 1 - headerSize = b.addr := by simp [advance]
  have start : s.freep ∈ (A ++ x :: B).map addr := by
    rw [← spot.split]
    exact h.chained.freep
  have first : (A ++ x :: B).head? = some ⟨base, 0⟩ := by rw [← spot.split]; rfl
  have stops {a : ℕ} (mem : a ∈ (A ++ x :: B).map addr) : Stops s b.addr a ↔ a = x.addr :=
    stops_iff cycle sorted first h.above (spot.left x (by simp)) spot.right mem
  have memX : x.addr ∈ (A ++ x :: B).map addr := by simp
  have found := cycle.seek (p := fun p => Stops s b.addr p) start memX
    (by simpa using (stops memX).2 rfl)
    (fun a mem hit => (stops mem).1 (by simpa using hit)) (show _ ≤ fuel by
      rw [List.length_map, ← spot.split, List.length_cons]
      exact enough)
  rw [Umalloc.free, wp_bind, wp_get, back, wp_bind]
  refine wp_place found ?_
  rw [wp_bind]
  rw [List.map_append] at cycle
  have around := cycle.rotate
  rw [← List.map_append] at around
  refine wp_joinNext around ?_ h.size ?_ spot.left ?_
  · exact (List.perm_append_comm.map Block.addr).nodup (nodup_addr sorted)
  · exact fun c mem => spot.sizes h c (by simp [mem])
  intro b' B' next' joined cycle' same
  have addr : b'.addr = b.addr := by
    obtain ⟨b₁, B₁, eq, addr, -, -⟩ := b.join_eq B
    obtain ⟨rfl, -⟩ : b' = b₁ ∧ B' = B₁ := by simpa using joined.symm.trans eq
    exact addr
  have ne : x.addr ≠ b'.addr := by
    rw [addr]
    exact ne_of_lt (spot.left x (by simp))
  rw [wp_bind, ← addr]
  refine wp_joinPrev (spot.sizes h x (by simp)) ne ?_
  rw [wp_modify]
  exact freed_linked h spot joined cycle' same

end

end Xv6.Umalloc
