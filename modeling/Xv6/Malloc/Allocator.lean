import Xv6.Malloc.FreeList

/-!
# The allocator

Whatever a program allocates and frees, its blocks and the free ones are apart and make up the
memory got from `sbrk`, and every call returns.
-/

namespace Xv6.Umalloc

open Lib Xv6.Umalloc.Block Function

/-! ## Taking a block -/

/-- Taking the block `b` off the list leaves the rest, and changes only it and the list. -/
structure Taken (base : ℕ) (b : Block) (s s' : Heap) (free free' : List Block) : Prop where
  chained : Chained base s' free'
  size : (s'.hdr b.addr).size = b.size
  has : ∀ y, (∃ c ∈ free, c.Has y) ↔ b.Has y ∨ ∃ c ∈ free', c.Has y
  apart : ∀ c ∈ free', c.Apart b
  length : free'.length ≤ free.length
  frame : ∀ a, a ≠ b.addr → (∀ c ∈ ⟨base, 0⟩ :: free, a ≠ c.addr) → s'.hdr a = s.hdr a
  rest : s' = { s with hdr := s'.hdr, freep := s'.freep }

section

variable {base : ℕ} {s s' : Heap} {free free' : List Block} {b : Block} {p prevp fuel nu : ℕ}

theorem Chained.after (h : Chained base s free) (mem : prevp ∈ (⟨base, 0⟩ :: free).map addr)
    (pos : 0 < (s.hdr (s.next prevp)).size) : ∃ L x c R, ⟨base, 0⟩ :: free = L ++ x :: c :: R ∧
      prevp = x.addr ∧ s.next x.addr = c.addr := by
  obtain ⟨x, memX, rfl⟩ := List.mem_map.1 mem
  obtain ⟨L, R, split⟩ := List.append_of_mem memX
  have cycle : Cycle s.next ((L ++ x :: R).map addr) := by
    rw [← split]
    exact h.cycle
  rw [List.map_append, List.map_cons] at cycle
  have next := cycle.next_of_split
  cases R with
  | nil =>
    -- the last node points to `base`, the block of which is empty
    have wraps : s.next x.addr = base := by
      cases L with
      | nil =>
        obtain ⟨rfl, -⟩ : x = ⟨base, 0⟩ ∧ [] = free := by simpa using split.symm
        simpa using next.symm
      | cons d L =>
        obtain ⟨rfl, -⟩ : d = ⟨base, 0⟩ ∧ L ++ [x] = free := by simpa using split.symm
        simpa using next.symm
    rw [wraps, h.sizes ⟨base, 0⟩ (by simp)] at pos
    exact absurd pos (lt_irrefl 0)
  | cons c R => exact ⟨L, x, c, R, split, rfl, by simpa using next.symm⟩

theorem base_cons {L T : List Block} {x : Block} (split : ⟨base, 0⟩ :: free = L ++ x :: T)
    (T' : List Block) : ∃ free', L ++ x :: T' = ⟨base, 0⟩ :: free' := by
  cases L with
  | nil =>
    obtain ⟨rfl, -⟩ : x = ⟨base, 0⟩ ∧ T = free := by simpa using split.symm
    exact ⟨T', rfl⟩
  | cons d L =>
    obtain ⟨rfl, -⟩ : d = ⟨base, 0⟩ ∧ L ++ x :: T = free := by simpa using split.symm
    exact ⟨_, rfl⟩

theorem Block.Before.apart {a b : Block} (h : a.Before b) : a.Apart b := by
  rintro y ⟨-, lt⟩ ⟨le, -⟩
  have : a.stop < b.addr := h
  omega

theorem apart_of_sorted {L R : List Block} {c : Block} (sorted : (L ++ c :: R).Pairwise Before) :
    ∀ d ∈ L ++ R, d.Apart c := by
  rw [List.pairwise_append, List.pairwise_cons] at sorted
  intro d mem
  rcases List.mem_append.1 mem with mem | mem
  · exact (sorted.2.2 d mem c (by simp)).apart
  · exact (sorted.2.1.1 d mem).apart.symm

theorem taken_whole {L R : List Block} {x c : Block} (h : Chained base s free)
    (split : ⟨base, 0⟩ :: free = L ++ x :: c :: R) (memC : c ∈ free) :
    ∃ free', Taken base c s
      { s with
        hdr := update s.hdr x.addr ⟨s.next c.addr, (s.hdr x.addr).size⟩
        freep := x.addr } free free' := by
  obtain ⟨free', list⟩ := base_cons split R
  have sorted : (L ++ x :: c :: R).Pairwise Before := split ▸ h.sorted
  have sub : (L ++ x :: R).Sublist (L ++ x :: c :: R) :=
    ((List.sublist_cons_self c R).cons_cons x).append_left L
  have sorted' := sorted.sublist sub
  have cycle : Cycle s.next ((L ++ x :: c :: R).map addr) := by
    rw [← split]
    exact h.cycle
  rw [List.map_append] at cycle
  have nodup : ((x :: c :: R ++ L).map addr).Nodup :=
    (List.perm_append_comm.map addr).nodup (nodup_addr sorted)
  have around := cycle.rotate
  rw [← List.map_append] at around
  have removed : Cycle (update s.next x.addr (s.next c.addr)) ((x :: R ++ L).map addr) :=
    around.remove nodup
  rw [List.map_append] at removed
  have circle := removed.rotate
  rw [← List.map_append, list] at circle
  have neC : c.addr ≠ x.addr := by
    have := (List.pairwise_cons.1 (List.pairwise_append.1 sorted).2.1).1 c (by simp)
    exact ne_of_gt this.addr_lt
  have sizes : ∀ d ∈ ⟨base, 0⟩ :: free, (update s.hdr x.addr
      ⟨s.next c.addr, (s.hdr x.addr).size⟩ d.addr).size = d.size := by
    intro d mem
    rw [← h.sizes d mem]
    by_cases here : d.addr = x.addr
    · rw [here, update_self]
    · rw [update_of_ne here]
  have apart := apart_of_sorted (L := L ++ [x]) (by simpa using sorted)
  have keeps : ∀ d ∈ free', d ∈ free := by
    intro d mem
    have memD : d ∈ ⟨base, 0⟩ :: free := by
      rw [split]
      exact sub.mem (by rw [list]; simp [mem])
    rcases List.mem_cons.1 memD with rfl | memD
    · rw [list] at sorted'
      exact absurd ((List.pairwise_cons.1 sorted').1 _ mem).addr_lt (lt_irrefl _)
    · exact memD
  refine ⟨free', ⟨list ▸ sorted', ?_, ?_, ?_, ?_⟩, ?_, ?_, ?_, ?_, ?_, rfl⟩
  · refine circle.congr fun a _ => ?_
    simp only [Heap.next, update_apply]
    split <;> rfl
  · intro d mem
    refine sizes d ?_
    rw [split]
    exact sub.mem (list ▸ mem)
  · exact fun d mem => h.pos d (keeps d mem)
  · show x.addr ∈ (⟨base, 0⟩ :: free').map addr
    rw [← list]
    simp
  · exact sizes c (by simp [memC])
  · intro y
    rw [← has_base_cons, split, ← has_base_cons (l := free'), ← list, exists_mem_append,
      exists_mem_append, List.exists_mem_cons_iff, List.exists_mem_cons_iff,
      List.exists_mem_cons_iff, or_left_comm (a := c.Has y), or_left_comm (a := c.Has y)]
  · intro d mem
    have memD : d ∈ L ++ x :: R := by rw [list]; simp [mem]
    exact apart d (by simpa using memD)
  · have := sub.length_le
    rw [list, ← split] at this
    simpa using this
  · intro a _ off
    refine update_of_ne ?_ ..
    exact off x (by rw [split]; simp)

theorem taken_tail {L R : List Block} {x rest : Block} (h : Chained base s free)
    (split : ⟨base, 0⟩ :: free = L ++ rest.merge b :: R) (memX : x ∈ L)
    (touch : rest.stop = b.addr) (posRest : 0 < rest.size) (pos : 0 < b.size) :
    ∃ free', Taken base b s
      { s with
        hdr := update (update s.hdr rest.addr ⟨s.next rest.addr, rest.size⟩)
          b.addr ⟨p, b.size⟩
        freep := x.addr } free free' := by
  have later : rest.addr < b.addr := touch ▸ (has_addr posRest).2
  have inside : b.addr < (rest.merge b).stop := stop_merge touch ▸ (has_addr pos).2
  have sorted : (L ++ rest.merge b :: R).Pairwise Before := split ▸ h.sorted
  have others := apart_of_sorted sorted
  rw [List.pairwise_append, List.pairwise_cons] at sorted
  obtain ⟨sortedL, ⟨after, sortedR⟩, before⟩ := sorted
  have off : ∀ d ∈ L ++ R, d.addr ≠ b.addr ∧ d.addr ≠ rest.addr := by
    intro d mem
    rcases List.mem_append.1 mem with mem | mem
    · have : d.addr < rest.addr := (before d mem (rest.merge b) (by simp)).addr_lt
      exact ⟨by omega, by omega⟩
    have : (rest.merge b).stop < d.addr := after d mem
    exact ⟨by omega, by omega⟩
  have sorted' : (L ++ rest :: R).Pairwise Before := by
    refine List.pairwise_append.2 ⟨sortedL, List.pairwise_cons.2 ⟨?_, sortedR⟩, ?_⟩
    · intro d mem
      have : (rest.merge b).stop < d.addr := after d mem
      rw [Before, touch]
      omega
    intro d mem e memE
    rcases List.mem_cons.1 memE with rfl | memE
    · exact before d mem (e.merge b) (by simp)
    · exact before d mem e (by simp [memE])
  obtain ⟨free', list⟩ : ∃ free', L ++ rest :: R = ⟨base, 0⟩ :: free' := by
    cases L with
    | nil => cases memX
    | cons d L =>
      obtain ⟨rfl, -⟩ : d = ⟨base, 0⟩ ∧ L ++ rest.merge b :: R = free := by simpa using split.symm
      exact ⟨_, rfl⟩
  have addrs : (⟨base, 0⟩ :: free').map addr = (⟨base, 0⟩ :: free).map addr := by
    rw [← list, split, List.map_append, List.map_append]
    rfl
  have hdrOff {a : ℕ} (off : a ≠ b.addr ∧ a ≠ rest.addr) :
      update (update s.hdr rest.addr ⟨s.next rest.addr, rest.size⟩)
        b.addr ⟨p, b.size⟩ a = s.hdr a := by
    rw [update_of_ne off.1, update_of_ne off.2]
  have hdrRest : update (update s.hdr rest.addr ⟨s.next rest.addr, rest.size⟩)
        b.addr ⟨p, b.size⟩ rest.addr = ⟨s.next rest.addr, rest.size⟩ := by
    rw [update_of_ne (ne_of_lt later), update_self]
  have kinds : ∀ d ∈ ⟨base, 0⟩ :: free', d = rest ∨ d ∈ L ++ R := by
    rw [← list]
    intro d mem
    simpa [or_left_comm] using mem
  have old : ∀ d ∈ L ++ R, d ∈ ⟨base, 0⟩ :: free := by
    rw [split]
    intro d mem
    rcases List.mem_append.1 mem with mem | mem <;> simp [mem]
  refine ⟨free', ⟨list ▸ sorted', ?_, ?_, ?_, ?_⟩, ?_, ?_, ?_, ?_, ?_, rfl⟩
  · show Cycle _ ((⟨base, 0⟩ :: free').map addr)
    have circle : Cycle s.next ((⟨base, 0⟩ :: free).map addr) := h.cycle
    rw [← addrs] at circle
    refine circle.congr fun a mem => ?_
    obtain ⟨d, memD, rfl⟩ := List.mem_map.1 mem
    rcases kinds d memD with rfl | memD
    · have := congrArg Header.ptr hdrRest
      exact this
    · exact congrArg Header.ptr (hdrOff (off d memD))
  · intro d mem
    rcases kinds d mem with rfl | memD
    · simp only [hdrRest]
    simp only [hdrOff (off d memD)]
    exact h.sizes d (old d memD)
  · intro d mem
    rcases kinds d (by simp [mem]) with rfl | memD
    · exact posRest
    rcases List.mem_cons.1 (old d memD) with rfl | memF
    · rw [list] at sorted'
      exact absurd ((List.pairwise_cons.1 sorted').1 _ mem).addr_lt (lt_irrefl _)
    · exact h.pos d memF
  · show x.addr ∈ (⟨base, 0⟩ :: free').map addr
    rw [← list]
    simp [List.mem_map_of_mem memX]
  · simp only [update_self]
  · intro y
    rw [← has_base_cons, split, ← has_base_cons (l := free'), ← list, exists_mem_append,
      exists_mem_append, List.exists_mem_cons_iff, List.exists_mem_cons_iff, has_merge touch,
      or_assoc, or_left_comm (a := b.Has y), or_left_comm (a := b.Has y)]
  · intro d mem y has has'
    rcases kinds d (by simp [mem]) with rfl | memD
    · have := has.2
      have := has'.1
      omega
    · exact others d memD y has ((has_merge touch).2 (.inr has'))
  · have := congrArg List.length addrs
    simp only [List.map_cons, List.length_cons, List.length_map] at this
    omega
  · intro a offB offAll
    exact hdrOff ⟨offB, offAll (rest.merge b) (by rw [split]; simp)⟩

theorem wp_take (h : Chained base s free) (mem : prevp ∈ (⟨base, 0⟩ :: free).map addr)
    (pos : 0 < nu) (le : nu ≤ (s.hdr (s.next prevp)).size) :
    wp (take nu prevp (s.next prevp))
      (fun ap s' => ∃ a free', ap = advance a 1 ∧ Taken base ⟨a, nu⟩ s s' free free') never s := by
  obtain ⟨L, x, c, R, split, rfl, next⟩ := h.after mem (by omega)
  have memC : c ∈ ⟨base, 0⟩ :: free := by rw [split]; simp
  rw [next, h.sizes c memC] at le
  have memF : c ∈ free := by
    rcases List.mem_cons.1 memC with rfl | memF
    · exact absurd le (Nat.not_le.2 pos)
    · exact memF
  rw [take, wp_bind, wp_get, wp_ite, next, h.sizes c memC]
  constructor
  · intro whole
    simp only [wp_bind, wp_setHdr, wp_modify, wp_pure]
    obtain ⟨free', taken⟩ := taken_whole h split memF
    subst whole
    exact ⟨c.addr, free', rfl, taken⟩
  intro more
  simp only [wp_bind, wp_setHdr, wp_modify, wp_pure]
  have split' : ⟨base, 0⟩ :: free = (L ++ [x]) ++
      merge ⟨c.addr, c.size - nu⟩ ⟨advance c.addr (c.size - nu), nu⟩ :: R := by
    rw [split, merge]
    simp only [Nat.sub_add_cancel le, List.append_assoc, List.cons_append, List.nil_append]
  have posRest : 0 < c.size - nu := by omega
  obtain ⟨free', taken⟩ := taken_tail (x := x) (p := _) h split' (by simp) rfl posRest pos
  exact ⟨_, free', rfl, taken⟩

end

/-! ## Who has the memory -/

/-- An address of the memory got from `sbrk`. -/
def Heap.Core (s : Heap) (y : ℕ) : Prop := ∃ r ∈ s.core, r.1 ≤ y ∧ y < r.1 + r.2

/-- The free blocks and those in use are apart and make up the memory got from `sbrk`; a block in
use is large enough and has its size in its header. -/
structure Accounts (base : ℕ) (s : Heap) (free : List Block) (live : List Live) : Prop where
  size : ∀ b ∈ live, 0 < b.size ∧ (s.hdr b.addr).size = b.size
  large : ∀ b ∈ live, b.nbytes + headerSize ≤ b.size * headerSize
  apart : ∀ c ∈ free, ∀ b ∈ live, c.Apart b.toBlock
  disjoint : live.Pairwise fun a b => a.toBlock.Apart b.toBlock
  cover : ∀ y, s.Core y ↔ (∃ c ∈ free, c.Has y) ∨ ∃ b ∈ live, b.Has y
  above : base + headerSize ≤ s.brk
  within : ∀ y, s.Core y → base + headerSize ≤ y ∧ y < s.brk

section

variable {base : ℕ} {s s' : Heap} {free free' : List Block} {live : List Live} {b : Live}

section

variable (h : Accounts base s free live)
include h

theorem Accounts.has_live (mem : b ∈ live) : b.Has b.addr :=
  has_addr (h.size b mem).1

theorem Accounts.off (chained : Chained base s free)
    (mem : b ∈ live) : ∀ c ∈ ⟨base, 0⟩ :: free, b.addr ≠ c.addr := by
  intro c memC
  rcases List.mem_cons.1 memC with rfl | memC
  · have := (h.within b.addr ((h.cover _).2 (.inr ⟨b, mem, h.has_live mem⟩))).1
    simp only [headerSize] at this
    show b.addr ≠ base
    omega
  · exact ((h.apart c memC b mem).addr_ne (chained.pos c memC) (h.size b mem).1).symm

theorem Accounts.loose (chained : Chained base s free)
    (mem : b ∈ live) : Loose base b.toBlock s free where
  chained := chained
  size := (h.size b mem).2
  pos := (h.size b mem).1
  above := by
    have := (h.within b.addr ((h.cover _).2 (.inr ⟨b, mem, h.has_live mem⟩))).1
    simp only [headerSize] at this
    omega
  apart c memC := h.apart c memC b mem

theorem Accounts.perm {live' : List Live}
    (perm : live.Perm live') : Accounts base s free live' where
  size b mem := h.size b (perm.mem_iff.2 mem)
  large b mem := h.large b (perm.mem_iff.2 mem)
  apart c memC b mem := h.apart c memC b (perm.mem_iff.2 mem)
  disjoint := (perm.pairwise_iff Apart.symm).1 h.disjoint
  cover y := by
    rw [h.cover]
    simp only [perm.mem_iff]
  above := h.above
  within := h.within

end

theorem Accounts.freed (h : Accounts base s free (b :: live)) (chained : Chained base s free)
    (freed : Freed base b.toBlock s s' free free') : Accounts base s' free' live := by
  have core : s'.core = s.core := by rw [freed.rest]
  have brk : s'.brk = s.brk := by rw [freed.rest]
  have others := (List.pairwise_cons.1 h.disjoint).1
  have Core (y : ℕ) : s'.Core y ↔ s.Core y := by rw [Heap.Core, core, Heap.Core]
  refine ⟨?_, fun c mem => h.large c (by simp [mem]), ?_, (List.pairwise_cons.1 h.disjoint).2, ?_,
    by rw [brk]; exact h.above, by simpa only [Core, brk] using h.within⟩
  · intro c mem
    have pos := h.size c (by simp [mem])
    have ne := (others c mem).addr_ne (h.size b (by simp)).1 pos.1
    rw [freed.frame c.addr ne.symm (h.off chained (by simp [mem]))]
    exact pos
  · intro c memC d memD y hasC hasD
    rcases (freed.has y).1 ⟨c, memC, hasC⟩ with hasB | ⟨e, memE, hasE⟩
    · exact others d memD y hasB hasD
    · exact h.apart e memE d (by simp [memD]) y hasE hasD
  · intro y
    rw [Core, h.cover, freed.has, List.exists_mem_cons_iff, or_assoc, or_left_comm]

theorem Accounts.taken {nu nbytes a : ℕ} (h : Accounts base s free live)
    (chained : Chained base s free) (taken : Taken base ⟨a, nu⟩ s s' free free') (pos : 0 < nu)
    (large : nbytes + headerSize ≤ nu * headerSize) :
    Accounts base s' free' (⟨⟨a, nu⟩, nbytes⟩ :: live) := by
  have core : s'.core = s.core := by rw [taken.rest]
  have brk : s'.brk = s.brk := by rw [taken.rest]
  have Core (y : ℕ) : s'.Core y ↔ s.Core y := by rw [Heap.Core, core, Heap.Core]
  have fresh : ∀ c ∈ live, Apart ⟨a, nu⟩ c.toBlock := by
    intro c mem y has
    obtain ⟨d, memD, hasD⟩ := (taken.has y).2 (.inl has)
    exact h.apart d memD c mem y hasD
  refine ⟨?_, ?_, ?_, List.pairwise_cons.2 ⟨fresh, h.disjoint⟩, ?_, by rw [brk]; exact h.above,
    by simpa only [Core, brk] using h.within⟩
  · intro c mem
    rcases List.mem_cons.1 mem with rfl | mem
    · exact ⟨pos, taken.size⟩
    have ne := (fresh c mem).addr_ne pos (h.size c mem).1
    rw [taken.frame c.addr ne.symm (h.off chained mem)]
    exact h.size c mem
  · intro c mem
    rcases List.mem_cons.1 mem with rfl | mem
    · exact large
    · exact h.large c mem
  · intro c memC d memD
    rcases List.mem_cons.1 memD with rfl | memD
    · exact taken.apart c memC
    intro y hasC
    obtain ⟨e, memE, hasE⟩ := (taken.has y).2 (.inr ⟨c, memC, hasC⟩)
    exact h.apart e memE d memD y hasE
  · intro y
    rw [Core, h.cover, taken.has, List.exists_mem_cons_iff, or_assoc, or_left_comm]

theorem Accounts.below (h : Accounts base s free live) (chained : Chained base s free) :
    ∀ c ∈ ⟨base, 0⟩ :: free, c.addr < s.brk := by
  intro c mem
  rcases List.mem_cons.1 mem with rfl | mem
  · have := h.above
    simp only [headerSize] at this
    show base < s.brk
    omega
  · exact (h.within _ ((h.cover _).2 (.inl ⟨c, mem, has_addr (chained.pos c mem)⟩))).2

theorem Accounts.grown {hp nu : ℕ} {h₀ : Header} (h : Accounts base s free live)
    (past : s.brk ≤ hp) (pos : 0 < nu) (core : s'.core = (hp, nu * headerSize) :: s.core)
    (brk : s'.brk = hp + nu * headerSize)
    (hdr : s'.hdr = update s.hdr hp h₀) (size : h₀.size = nu) :
    Accounts base s' free (⟨⟨hp, nu⟩, 0⟩ :: live) := by
  have stop : Block.stop ⟨hp, nu⟩ = hp + nu * headerSize := rfl
  have Core (y : ℕ) : s'.Core y ↔ Block.Has ⟨hp, nu⟩ y ∨ s.Core y := by
    rw [Heap.Core, core, List.exists_mem_cons_iff, Heap.Core, Has, stop]
  have fresh : ∀ y, s.Core y → ¬ Block.Has ⟨hp, nu⟩ y := by
    intro y mem has
    exact absurd (h.within y mem).2 (Nat.not_lt.2 (past.trans has.1))
  refine ⟨?_, ?_, ?_, List.pairwise_cons.2 ⟨?_, h.disjoint⟩, ?_, ?_, ?_⟩
  · intro c mem
    rw [hdr]
    rcases List.mem_cons.1 mem with rfl | mem
    · rw [update_self]
      exact ⟨pos, size⟩
    have lt := (h.within _ ((h.cover _).2 (.inr ⟨c, mem, h.has_live mem⟩))).2
    rw [update_of_ne (ne_of_lt (lt_of_lt_of_le lt past))]
    exact h.size c mem
  · intro c mem
    rcases List.mem_cons.1 mem with rfl | mem
    · simp only [headerSize]
      omega
    · exact h.large c mem
  · intro c memC d memD
    rcases List.mem_cons.1 memD with rfl | memD
    · exact fun y has => fresh y ((h.cover y).2 (.inl ⟨c, memC, has⟩))
    · exact h.apart c memC d memD
  · exact fun c mem y has has' => fresh y ((h.cover y).2 (.inr ⟨c, mem, has'⟩)) has
  · intro y
    rw [Core, h.cover, List.exists_mem_cons_iff, or_left_comm]
  · rw [brk]
    exact (h.above.trans past).trans (Nat.le_add_right ..)
  · intro y mem
    rw [brk]
    rcases (Core y).1 mem with has | mem
    · exact ⟨(h.above.trans past).trans has.1, has.2⟩
    have := h.within y mem
    exact ⟨this.1, lt_of_lt_of_le (lt_of_lt_of_le this.2 past) (Nat.le_add_right ..)⟩

end

/-! ## The calls -/

/-- The memory is in order, with at most `n` free blocks. -/
structure Ordered (base n : ℕ) (s : Heap) (free : List Block) : Prop where
  length : free.length ≤ n
  chained : Chained base s free
  accounts : Accounts base s free s.live

section

variable {base n fuel nu : ℕ} {s : Heap} {free : List Block}

theorem wp_free_live {b : Live} (h : Ordered base n s free) (mem : b ∈ s.live)
    (enough : n + 1 ≤ fuel) :
    wp (Umalloc.free fuel (advance b.addr 1))
      (fun _ s' => s'.live = s.live ∧
        ∃ free', Ordered base (n + 1) { s' with live := s.live.erase b } free') never s := by
  have length := h.length
  refine wp_imp (wp_free (h.accounts.loose h.chained mem) (by omega)) ?_
  rintro - s' ⟨free', freed⟩
  have after := (h.accounts.perm (List.perm_cons_erase mem)).freed h.chained freed
  refine ⟨by rw [freed.rest], free', freed.length.trans (by omega), ?_, ?_⟩
  · exact freed.chained.congr freed.chained.freep fun _ _ => rfl
  · exact { after with }

theorem wp_free_grown {s₂ : Heap} {hp : ℕ} {h₀ : Header} (h : Ordered base n s free)
    (past : s.brk ≤ hp) (pos : 0 < nu) (core : s₂.core = (hp, nu * headerSize) :: s.core)
    (brk : s₂.brk = hp + nu * headerSize) (hdr : s₂.hdr = update s.hdr hp h₀) (size : h₀.size = nu)
    (freep : s₂.freep = s.freep) (live : s₂.live = s.live) (enough : n + 1 ≤ fuel) :
    wp (Umalloc.free fuel (advance hp 1))
      (fun _ s' => ∃ free', Ordered base (n + 1) s' free' ∧ s'.live = s.live ∧ s'.brk = s₂.brk ∧
        ∃ c ∈ free', nu ≤ c.size) never s₂ := by
  have length := h.length
  have grown := h.accounts.grown past pos core brk hdr size
  have chained : Chained base s₂ free := by
    refine h.chained.congr (freep ▸ h.chained.freep) fun c mem => ?_
    rw [hdr, update_of_ne]
    exact ne_of_lt (lt_of_lt_of_le (h.accounts.below h.chained c mem) past)
  have loose : Loose base ⟨hp, nu⟩ s₂ free := grown.loose chained (List.mem_cons_self ..)
  have call := wp_free loose ((Nat.succ_le_succ length).trans enough)
  apply wp_imp call
  rintro - s' ⟨free', freed⟩
  have live' : s'.live = s.live := by rw [freed.rest, ← live]
  refine ⟨free', ⟨freed.length.trans (Nat.succ_le_succ length), freed.chained, ?_⟩, live',
    by rw [freed.rest], freed.room⟩
  rw [live']
  exact grown.freed chained freed

/-- What `morecore` leaves: it has failed, or there is a block of the size asked for. -/
structure Room (base n nu : ℕ) (r : Option ℕ) (s s' : Heap) (free : List Block) : Prop where
  ordered : Ordered base n s' free
  live : s'.live = s.live
  brk : s.brk ≤ s'.brk
  room : ∀ p ∈ r, p = s'.freep ∧ ∃ c ∈ free, nu ≤ c.size

theorem wp_morecore (h : Ordered base n s free) (enough : n + 1 ≤ fuel)
    (fits : nu * headerSize < 2 ^ 31) :
    wp (morecore fuel nu) (fun r s' => ∃ free', Room base (n + 1) nu r s s' free') never s := by
  have length := h.length
  have failed (answers : List (Option ℕ)) :
      ∃ free', Room base (n + 1) nu none s { s with answers := answers } free' := by
    refine ⟨free, ⟨length.trans (by omega), ?_, { h.accounts with }⟩, rfl, le_rfl, by simp⟩
    exact h.chained.congr h.chained.freep fun _ _ => rfl
  obtain ⟨nu', nuEq⟩ : ∃ m, m = if nu < 4096 then 4096 else nu := ⟨_, rfl⟩
  have large : nu ≤ nu' ∧ 0 < nu' ∧ nu' * headerSize < 2 ^ 31 := by
    simp only [headerSize] at fits ⊢
    split at nuEq <;> omega
  have some : nu' * headerSize ≠ 0 := by simp only [headerSize]; omega
  simp only [morecore, ← nuEq, Nat.mod_eq_of_lt (show nu' * headerSize < 2 ^ 32 by omega), wp_bind,
    sbrk, wp_get, if_neg some, if_neg (Nat.not_le.2 large.2.2)]
  cases answersEq : s.answers with
  | nil =>
    have := failed []
    rw [← answersEq] at this
    simpa using this
  | cons answer answers =>
    cases answer with
    | none => simpa using failed answers
    | some gap =>
      simp only
      rw [wp_ite]
      simp only [wp_bind, wp_set, wp_pure, wp_modify, wp_get]
      constructor
      · intro _
        refine wp_imp (wp_free_grown h (Nat.le_add_right _ gap) large.2.1 rfl rfl rfl rfl rfl rfl
          enough) ?_
        rintro - s' ⟨free', ordered, live, brk, c, memC, size⟩
        refine ⟨free', ordered, live, ?_, ?_⟩
        · rw [brk, Nat.add_assoc]
          exact Nat.le_add_right ..
        rintro p ⟨⟩
        exact ⟨rfl, c, memC, large.1.trans size⟩
      · exact fun _ => failed answers

theorem wp_scan {Q : Option ℕ → Heap → Prop} {E : Stuck → Heap → Prop} {inner : ℕ}
    (taken : ∀ prevp ∈ (⟨base, 0⟩ :: free).map addr, nu ≤ (s.hdr (s.next prevp)).size →
      wp (take nu prevp (s.next prevp)) (fun ap => Q (some ap)) E s)
    {l : List ℕ} {prevp : ℕ} (path : Path s.next prevp l s.freep)
    (nodes : ∀ a ∈ prevp :: l, a ∈ (⟨base, 0⟩ :: free).map addr) (off : s.freep ∉ l)
    (more : (∀ a ∈ l ++ [s.freep], (s.hdr a).size < nu) →
      wp (morecore inner nu) (fun r s' => match r with
        | none => Q none s'
        | some p => wp (mallocLoop inner nu fuel p (s'.next p)) Q E s') E s) :
    wp (mallocLoop inner nu (l.length + 1 + fuel) prevp (s.next prevp)) Q E s := by
  induction l generalizing prevp with
  | nil =>
    have next : s.next prevp = s.freep := path
    rw [List.length_nil, Nat.zero_add, Nat.add_comm, mallocLoop, wp_bind, wp_get, wp_ite, wp_ite]
    constructor
    · intro le
      rw [wp_bind]
      exact taken prevp (nodes prevp (by simp)) le
    intro small
    refine ⟨fun _ => ?_, fun ne => absurd next ne⟩
    refine wp_next (more ?_) ?_
    · intro a mem
      rw [List.nil_append, List.mem_singleton] at mem
      rw [mem, ← next]
      exact Nat.not_le.1 small
    rintro r s' h
    cases r with
    | none | some p => exact h
  | cons c l ih =>
    have next : s.next prevp = c := path.1
    rw [List.length_cons, show l.length + 1 + 1 + fuel = (l.length + 1 + fuel) + 1 by omega,
      mallocLoop, wp_bind, wp_get, wp_ite, wp_ite]
    constructor
    · intro le
      rw [wp_bind]
      exact taken prevp (nodes prevp (by simp)) le
    intro small
    rw [next] at small ⊢
    refine ⟨fun here => absurd (by simp [here]) off, fun _ => ?_⟩
    refine ih path.2 (fun a mem => nodes a (.tail _ mem)) (fun mem => off (by simp [mem])) ?_
    intro smaller
    refine more fun a mem => ?_
    rcases List.mem_cons.1 mem with rfl | mem
    · exact Nat.not_le.1 small
    · exact smaller a mem

theorem Chained.round (h : Chained base s free) : ∃ l, Path s.next s.freep l s.freep ∧
    (∀ a, a ∈ s.freep :: l ↔ a ∈ (⟨base, 0⟩ :: free).map addr) ∧ s.freep ∉ l ∧
    l.length = free.length := by
  obtain ⟨l₁, l₂, split⟩ := List.append_of_mem h.freep
  have cycle : Cycle s.next (l₁ ++ s.freep :: l₂) := split ▸ h.cycle
  have nodup : (l₁ ++ s.freep :: l₂).Nodup := split ▸ nodup_addr h.sorted
  have perm : (l₁ ++ s.freep :: l₂).Perm (s.freep :: (l₂ ++ l₁)) := List.perm_append_comm
  refine ⟨l₂ ++ l₁, cycle.rotate, fun a => ?_, ?_, ?_⟩
  · rw [← perm.mem_iff, ← split]
    rfl
  · exact (List.nodup_cons.1 (perm.nodup nodup)).1
  have := perm.length_eq
  rw [← split] at this
  simpa using this.symm

/-- The loop of `malloc` has found nothing, or has taken a block that the program can use. -/
structure Served (base n nu : ℕ) (r : Option ℕ) (s s' : Heap) : Prop where
  live : s'.live = s.live
  brk : s.brk ≤ s'.brk
  failed : r = none → ∃ free, Ordered base n s' free
  block : ∀ ap ∈ r, ∃ a free, ap = advance a 1 ∧
    ∀ nbytes, nbytes + headerSize ≤ nu * headerSize →
      Ordered base n { s' with live := ⟨⟨a, nu⟩, nbytes⟩ :: s'.live } free

theorem wp_take_served {prevp : ℕ} (h : Ordered base n s free) (pos : 0 < nu)
    (mem : prevp ∈ (⟨base, 0⟩ :: free).map addr) (le : nu ≤ (s.hdr (s.next prevp)).size) :
    wp (take nu prevp (s.next prevp)) (fun ap s' => Served base n nu (some ap) s s') never s := by
  apply wp_imp (wp_take h.chained mem pos le)
  rintro ap s' ⟨a, free', rfl, taken⟩
  have live : s'.live = s.live := by rw [taken.rest]
  refine ⟨live, by rw [taken.rest], by simp, ?_⟩
  rintro - ⟨⟩
  refine ⟨a, free', rfl, fun nbytes large => ⟨taken.length.trans h.length, ?_, ?_⟩⟩
  · exact taken.chained.congr taken.chained.freep fun _ _ => rfl
  rw [live]
  exact { h.accounts.taken h.chained taken pos large with }

theorem Served.weaken {r : Option ℕ} {s' s'' : Heap} (h : Served base n nu r s' s'')
    (live : s'.live = s.live) (brk : s.brk ≤ s'.brk) : Served base n nu r s s'' :=
  ⟨h.live.trans live, brk.trans h.brk, h.failed, h.block⟩

theorem wp_mallocLoop {inner : ℕ} (h : Ordered base n s free) (pos : 0 < nu)
    (fits : nu * headerSize < 2 ^ 31) (enough : n + 1 ≤ inner) (enough' : 2 * n + 3 ≤ fuel) :
    wp (mallocLoop inner nu fuel s.freep (s.next s.freep))
      (fun r s' => Served base (n + 1) nu r s s') never s := by
  have served {n' : ℕ} {s' : Heap} {free' : List Block} (ordered : Ordered base n' s' free')
      (le : n' ≤ n + 1) (live : s'.live = s.live) (brk : s.brk ≤ s'.brk) (prevp : ℕ)
      (mem : prevp ∈ (⟨base, 0⟩ :: free').map addr) (large : nu ≤ (s'.hdr (s'.next prevp)).size) :
      wp (take nu prevp (s'.next prevp)) (fun ap s'' => Served base (n + 1) nu (some ap) s s'')
        never s' :=
    wp_imp (wp_take_served ⟨ordered.length.trans le, ordered.chained, ordered.accounts⟩ pos mem
      large) fun _ _ h => h.weaken live brk
  obtain ⟨l, path, nodes, off, length⟩ := h.chained.round
  have short := h.length
  obtain ⟨fuel, rfl⟩ : ∃ f, fuel = l.length + 1 + f := ⟨fuel - (l.length + 1), by omega⟩
  refine wp_scan (served h (Nat.le_succ n) rfl le_rfl) path (fun a mem => (nodes a).1 mem) off fun
    _ => ?_
  apply wp_imp (wp_morecore h enough fits)
  rintro r s' ⟨free', ordered, live, brk, room⟩
  cases r with
  | none => exact ⟨live, brk, fun _ => ⟨free', ordered⟩, by simp⟩
  | some p =>
    obtain ⟨rfl, c, memC, large⟩ := room p rfl
    obtain ⟨l', path', nodes', off', length'⟩ := ordered.chained.round
    have short' := ordered.length
    obtain ⟨fuel, rfl⟩ : ∃ f, fuel = l'.length + 1 + f := ⟨fuel - (l'.length + 1), by omega⟩
    refine wp_scan (served ordered le_rfl live brk) path' (fun a mem => (nodes' a).1 mem) off' ?_
    -- the second time round there is a block
    intro small
    have memC' : c.addr ∈ l' ++ [s'.freep] := by
      have := (nodes' c.addr).2 (List.mem_map_of_mem (by simp [memC]))
      simpa [or_comm] using this
    have := small c.addr memC'
    rw [ordered.chained.sizes c (by simp [memC])] at this
    omega

end

/-! ## Programs -/

/-- The allocator has not been used yet. -/
structure Fresh (base : ℕ) (s : Heap) : Prop where
  freep : s.freep = 0
  core : s.core = []
  live : s.live = []
  above : base + headerSize ≤ s.brk

section

variable {base n fuel nbytes : ℕ} {s : Heap} {free : List Block}

theorem nunits_fits (fits : Fits nbytes) : 0 < nunits nbytes ∧
    nunits nbytes * headerSize < 2 ^ 31 ∧ nbytes + headerSize ≤ nunits nbytes * headerSize := by
  have bound : (nbytes + 8 - 1) % 2 ^ 32 = nbytes + 8 - 1 := by
    have : ((nbytes + 8 - 1) / 8 + 1) * 8 < 2 ^ 31 := fits
    exact Nat.mod_eq_of_lt (by omega)
  have fits' : ((nbytes + 8 - 1) / 8 + 1) * 8 < 2 ^ 31 := fits
  simp only [nunits, headerSize, bound]
  omega

theorem Fresh.ordered (h : Fresh base s) : Ordered base n
    { s with hdr := update s.hdr base ⟨base, 0⟩, freep := base } [] where
  length := Nat.zero_le n
  chained := by
    refine ⟨List.pairwise_singleton .., ?_, ?_, by simp, by simp⟩
    · show Heap.next _ base = base
      simp only [Heap.next, update_self]
    intro b mem
    simp only [List.mem_singleton.1 mem, update_self]
  accounts := by
    simp only [h.live]
    refine ⟨by simp, by simp, by simp, .nil, fun y => ?_, h.above, fun y => ?_⟩
    · simp [Heap.Core, h.core]
    · simp [Heap.Core, h.core]

theorem Ordered.freep_pos (h : Ordered base n s free) (pos : 0 < base) : s.freep ≠ 0 := by
  have low : ∀ c ∈ ⟨base, 0⟩ :: free, base ≤ c.addr := by
    intro c mem
    rcases List.mem_cons.1 mem with rfl | mem
    · exact le_rfl
    · exact le_of_lt ((List.pairwise_cons.1 h.chained.sorted).1 c mem).addr_lt
  obtain ⟨c, mem, eq⟩ := List.mem_map.1
    (show s.freep ∈ (⟨base, 0⟩ :: free).map addr from h.chained.freep)
  have := low c mem
  omega

theorem wp_malloc (h : Fresh base s ∨ ∃ free, Ordered base n s free) (pos : 0 < base)
    (fits : Fits nbytes) (enough : 2 * n + 3 ≤ fuel) :
    wp (malloc base fuel nbytes) (fun r s' => Served base (n + 1) (nunits nbytes) r s s')
      never s := by
  obtain ⟨units, small, -⟩ := nunits_fits fits
  rw [malloc, wp_bind, wp_get, wp_ite]
  constructor
  · intro start
    have fresh : Fresh base s := h.resolve_right fun ⟨free, ordered⟩ => ordered.freep_pos pos start
    rw [wp_bind, wp_setHdr, wp_bind, wp_modify]
    have ordered := fresh.ordered (n := n)
    have next : Heap.next { s with hdr := update s.hdr base ⟨base, 0⟩, freep := base } base
        = base := by simp only [Heap.next, update_self]
    have call := wp_mallocLoop ordered units small (show n + 1 ≤ fuel by omega) enough
    rw [next] at call
    exact wp_imp call fun _ _ h => h.weaken rfl le_rfl
  · intro started
    obtain ⟨free, ordered⟩ := h.resolve_left fun fresh => started fresh.freep
    exact wp_mallocLoop ordered units small (by omega) enough

theorem Ordered.write {b : Live} {a : ℕ} {x : Header} (h : Ordered base n s free) (mem : b ∈ s.live)
    (inside : b.Inside a) : Ordered base n { s with hdr := update s.hdr a x } free := by
  have accounts := h.accounts
  obtain ⟨low, high⟩ : advance b.addr 1 ≤ a ∧ a + headerSize ≤ b.stop := inside
  simp only [advance, headerSize] at low high
  have has : b.Has a := ⟨by omega, by omega⟩
  have offList : ∀ c ∈ ⟨base, 0⟩ :: free, c.addr ≠ a := by
    rintro c memC rfl
    rcases List.mem_cons.1 memC with rfl | memC
    · have := (accounts.within _ ((accounts.cover _).2 (.inr ⟨b, mem, has⟩))).1
      simp only [headerSize] at this
      omega
    · exact accounts.apart c memC b mem _ (has_addr (h.chained.pos c memC)) has
  have offLive : ∀ c ∈ s.live, c.addr ≠ a := by
    rintro c memC rfl
    by_cases same : c = b
    · subst same
      omega
    have : Std.Symm fun a b : Live => a.Apart b.toBlock := ⟨fun _ _ => Apart.symm⟩
    have apart := accounts.disjoint.forall memC mem same
    exact apart _ (accounts.has_live memC) has
  refine ⟨h.length, ?_, ?_⟩
  · exact h.chained.congr h.chained.freep fun c memC => update_of_ne (offList c memC) ..
  refine { accounts with size := fun c memC => ?_ }
  simp only [update_of_ne (offLive c memC)]
  exact accounts.size c memC

/-- The memory is in order after `n` calls. -/
def InOrder (base n : ℕ) (s : Heap) : Prop := Fresh base s ∨ ∃ free, Ordered base n s free

theorem InOrder.weaken (h : InOrder base n s) : InOrder base (n + 1) s :=
  h.imp_right fun ⟨free, h⟩ => ⟨free, h.length.trans (Nat.le_succ n), h.chained, h.accounts⟩

theorem wp_step {e : Event} (h : InOrder base n s) (pos : 0 < base)
    (fits : ∀ nbytes, e = .malloc nbytes → Fits nbytes) (enough : 2 * n + 3 ≤ fuel) :
    wp (step base fuel e) (fun _ => InOrder base (n + 1)) never s := by
  cases e with
  | malloc nbytes =>
    have fit := fits nbytes rfl
    rw [step]
    apply wp_next (wp_malloc h pos fit enough)
    intro r s' served
    cases r with
    | none => exact .inr (served.failed rfl)
    | some ap =>
      obtain ⟨a, free, rfl, ordered⟩ := served.block ap rfl
      have back : advance a 1 - headerSize = a := by simp [advance]
      rw [wp_modify, back]
      exact .inr ⟨free, ordered nbytes (nunits_fits fit).2.2⟩
  | free ap =>
    rw [step, wp_bind, wp_get]
    split
    · exact h.weaken
    rename_i b found
    have mem := List.mem_of_find?_eq_some found
    obtain rfl : advance b.addr 1 = ap := by simpa using List.find?_some found
    obtain ⟨free, ordered⟩ : ∃ free, Ordered base n s free := by
      refine h.resolve_left fun fresh => ?_
      rw [fresh.live] at mem
      cases mem
    refine wp_next (wp_free_live ordered mem (by omega)) ?_
    rintro - s' ⟨live, free', after⟩
    rw [wp_modify, live]
    exact .inr ⟨free', after⟩
  | write a x =>
    rw [step, wp_bind, wp_get, wp_ite]
    refine ⟨?_, fun _ => h.weaken⟩
    rintro ⟨b, mem, inside⟩
    obtain ⟨free, ordered⟩ : ∃ free, Ordered base n s free := by
      refine h.resolve_left fun fresh => ?_
      rw [fresh.live] at mem
      cases mem
    exact InOrder.weaken (.inr ⟨free, ordered.write mem inside⟩)

theorem wp_run {es : List Event} (h : InOrder base n s) (pos : 0 < base)
    (fits : ∀ nbytes, Event.malloc nbytes ∈ es → Fits nbytes)
    (enough : 2 * (n + es.length) + 3 ≤ fuel) :
    wp (run (step base fuel) es) (fun _ => InOrder base (n + es.length)) never s := by
  induction es generalizing n s with
  | nil => exact h
  | cons e es ih =>
    rw [List.length_cons] at enough ⊢
    rw [run, List.forM_cons, wp_bind]
    have first := wp_step (e := e) h pos (fun nbytes eq => fits nbytes (by simp [eq]))
      (show 2 * n + 3 ≤ fuel by omega)
    refine wp_imp first fun _ s' h' => ?_
    have rest := ih h' (fun nbytes mem => fits nbytes (by simp [mem])) (by omega)
    rwa [Nat.add_assoc, Nat.add_comm 1] at rest

/-- Whatever a program does, every call returns, the free blocks form a circle by address, and they
and the blocks in use make up the memory. -/
theorem memory_in_order (hdr : ℕ → Header) (brk : ℕ) (answers : List (Option ℕ)) (es : List Event)
    (pos : 0 < base) (above : base + headerSize ≤ brk)
    (fits : ∀ nbytes, Event.malloc nbytes ∈ es → Fits nbytes)
    (enough : 2 * es.length + 3 ≤ fuel) :
    ∃ s, exec (run (step base fuel) es) (Heap.init hdr brk answers) = (.ok ⟨⟩, s) ∧
      (s.freep = 0 ∧ s.core = [] ∧ s.live = [] ∨
        ∃ free, Chained base s free ∧ Accounts base s free s.live) := by
  have fresh : InOrder base 0 (Heap.init hdr brk answers) := .inl ⟨rfl, rfl, rfl, above⟩
  have done := wp_run fresh pos fits (show 2 * (0 + es.length) + 3 ≤ fuel by omega)
  obtain ⟨_, s, reached, order⟩ := exists_ok_of_wp done
  refine ⟨s, reached, ?_⟩
  rcases order with fresh | ⟨free, ordered⟩
  · exact .inl ⟨fresh.freep, fresh.core, fresh.live⟩
  · exact .inr ⟨free, ordered.chained, ordered.accounts⟩

theorem memory_in_order_reuse : ∃ s, exec (run (step 8 9)
      [.malloc 20, .free 32760, .malloc 40]) (Heap.init (fun _ => ⟨0, 0⟩) 16 [some 0]) =
        (.ok ⟨⟩, s) ∧
      (s.freep = 0 ∧ s.core = [] ∧ s.live = [] ∨
        ∃ free, Chained 8 s free ∧ Accounts 8 s free s.live) :=
  memory_in_order _ _ _ _ (by decide) (by decide) (by simp; decide) (by decide)

/-! ## Reuse -/

/-- A request that a free block can serve is served, without a call of `sbrk`. -/
def Reuses (base fuel : ℕ) (s : Heap) (free : List Block) : Prop :=
  ∀ nbytes, ∀ b ∈ free, nunits nbytes ≤ b.size →
    wp (malloc base fuel nbytes) (fun r s' => r ≠ none ∧ s'.brk = s.brk ∧ s'.core = s.core ∧
      s'.answers = s.answers) never s

theorem Ordered.reuses (h : Ordered base n s free) (pos : 0 < base) (enough : n + 1 ≤ fuel) :
    Reuses base fuel s free := by
  intro nbytes b mem large
  rw [malloc, wp_bind, wp_get, if_neg (h.freep_pos pos)]
  obtain ⟨l, path, nodes, off, length⟩ := h.chained.round
  have short := h.length
  obtain ⟨fuel, rfl⟩ : ∃ f, fuel = l.length + 1 + f := ⟨fuel - (l.length + 1), by omega⟩
  refine wp_scan (fun prevp _ _ => ?_) path (fun a mem => (nodes a).1 mem) off fun small => ?_
  · rw [take, wp_bind, wp_get]
    split <;> simp [setHdr]
  have inside : b.addr ∈ l ++ [s.freep] := by
    have := (nodes b.addr).2 (List.mem_map_of_mem (by simp [mem]))
    simpa [or_comm] using this
  have := small b.addr inside
  rw [h.chained.sizes b (by simp [mem])] at this
  omega

/-- After every program, `malloc` asks for more memory only if no free block is large enough. -/
theorem malloc_reuses (hdr : ℕ → Header) (brk : ℕ) (answers : List (Option ℕ)) (es : List Event)
    (pos : 0 < base) (above : base + headerSize ≤ brk)
    (fits : ∀ nbytes, Event.malloc nbytes ∈ es → Fits nbytes)
    (enough : 2 * es.length + 3 ≤ fuel) :
    ∃ s, exec (run (step base fuel) es) (Heap.init hdr brk answers) = (.ok ⟨⟩, s) ∧
      (s.freep = 0 ∨ ∃ free, Chained base s free ∧ Accounts base s free s.live ∧
        Reuses base fuel s free) := by
  have fresh : InOrder base 0 (Heap.init hdr brk answers) := .inl ⟨rfl, rfl, rfl, above⟩
  have done := wp_run fresh pos fits (show 2 * (0 + es.length) + 3 ≤ fuel by omega)
  obtain ⟨_, s, reached, fresh | ⟨free, ordered⟩⟩ := exists_ok_of_wp done
  · exact ⟨s, reached, .inl fresh.freep⟩
  exact ⟨s, reached, .inr ⟨free, ordered.chained, ordered.accounts,
    ordered.reuses pos (by omega)⟩⟩

theorem malloc_reuses_freed : ∃ s, exec (run (step 8 7) [.malloc 20, .free 32760])
      (Heap.init (fun _ => ⟨0, 0⟩) 16 [some 0]) = (.ok ⟨⟩, s) ∧
      (s.freep = 0 ∨ ∃ free, Chained 8 s free ∧ Accounts 8 s free s.live ∧ Reuses 8 7 s free) :=
  malloc_reuses _ _ _ _ (by decide) (by decide) (by simp; decide) (by decide)

/-! ## Large requests -/

/-- The bytes at the result are the program's, the memory does not shrink, and the free list has
only memory that `sbrk` has provided. -/
structure Honours (base nbytes : ℕ) (r : Option ℕ) (s s' : Heap) : Prop where
  usable : ∀ ap ∈ r, ∀ i < nbytes, s'.Core (ap + i)
  brk : s.brk ≤ s'.brk
  provided : ∃ free, Chained base s' free ∧ ∀ c ∈ free, ∀ y, c.Has y → s'.Core y

theorem InOrder.wp_honours (h : InOrder base n s) (pos : 0 < base) (fits : Fits nbytes)
    (enough : 2 * n + 3 ≤ fuel) :
    wp (malloc base fuel nbytes) (fun r s' => Honours base nbytes r s s') never s := by
  apply wp_imp (wp_malloc h pos fits enough)
  intro r s' served
  cases r with
  | none =>
    obtain ⟨free, ordered⟩ := served.failed rfl
    refine ⟨by simp, served.brk, free, ordered.chained, fun c mem y has => ?_⟩
    exact (ordered.accounts.cover y).2 (.inl ⟨c, mem, has⟩)
  | some ap =>
    obtain ⟨a, free, rfl, ordered⟩ := served.block ap rfl
    have large := (nunits_fits fits).2.2
    have ordered := ordered nbytes large
    refine ⟨?_, served.brk, free, ordered.chained.congr ordered.chained.freep fun _ _ => rfl, ?_⟩
    · rintro - ⟨⟩ i lt
      refine (ordered.accounts.cover _).2 (.inr ⟨_, List.mem_cons_self, ?_⟩)
      simp only [Has, stop, advance, headerSize] at large ⊢
      omega
    · intro c mem y has
      exact (ordered.accounts.cover y).2 (.inl ⟨c, mem, has⟩)

/-- A program with memory up to `brk`, for which there is more. -/
def smallHeap (brk : ℕ) : Heap := Heap.init (fun _ => ⟨0, 0⟩) brk [some 0]

/-- If `sbrk` reports success and provides nothing, `malloc` returns a pointer to nothing. -/
theorem malloc_unprovided {brk : ℕ} (far : 8 < brk) (many : 4096 ≤ nunits nbytes)
    (given : ∀ s : Heap, s.brk = brk → s.core = [] →
      wp (sbrk (nunits nbytes * headerSize % 2 ^ 32))
        (fun r s' => r = some brk ∧ s'.core = [] ∧ s'.hdr = s.hdr ∧ s'.freep = s.freep) never s) :
    wp (malloc 8 5 nbytes) (fun r s' => r ≠ none ∧ s'.core = []) never (smallHeap brk) := by
  rw [malloc]
  generalize nunits nbytes = nu at many given ⊢
  have units : ¬ nu ≤ 0 := by omega
  rw [wp_bind, wp_get, if_pos (show (smallHeap brk).freep = 0 from rfl), wp_bind, wp_setHdr, wp_bind,
    wp_modify, mallocLoop, wp_bind, wp_get]
  simp only [update_self, units, if_false, if_true]
  rw [wp_bind, morecore, if_neg (by omega), wp_bind]
  refine wp_imp (given _ rfl rfl) ?_
  rintro r s ⟨rfl, core, hdr, freep⟩
  have off : brk ≠ 8 := by omega
  have apart : brk + nu * 8 ≠ 8 := by omega
  have above : ¬ brk < 8 := by omega
  -- the block goes on the list behind the static header, and is taken off it again
  simp only [wp_bind, wp_modify, Umalloc.free, advance, Nat.one_mul, Nat.add_sub_cancel, wp_get, place,
    freep, hdr, headerSize]
  simp [off, off.symm, far, above, wp_bind, joinNext, joinPrev, setHdr, advance, apart, mallocLoop,
    take, core]

theorem wp_sbrk_negative {brk m : ℕ} (h : m = 0 ∨ 2 ^ 31 ≤ m ∧ (brk + m) % 2 ^ 32 ≠ 0)
    (size : s.brk = brk) (core : s.core = []) :
    wp (sbrk m) (fun r s' => r = some brk ∧ s'.core = [] ∧ s'.hdr = s.hdr ∧ s'.freep = s.freep)
      never s := by
  rw [sbrk, wp_bind, wp_get, size, wp_ite, wp_pure]
  refine ⟨fun _ => ⟨rfl, core, rfl, rfl⟩, fun ne => ?_⟩
  obtain ⟨large, rest⟩ := h.resolve_left ne
  rw [if_pos large]
  dsimp only
  rw [wp_ite, wp_pure, wp_bind, wp_set, if_neg rest, wp_pure]
  exact ⟨fun _ => ⟨rfl, core, rfl, rfl⟩, fun _ => ⟨rfl, by simp [core], rfl, rfl⟩⟩

/-- A size that does not fit fails in a program that has just started. -/
theorem exists_not_honours (word : nbytes < 2 ^ 32) (large : ¬ Fits nbytes) : ∃ brk, 16 ≤ brk ∧
    ¬ wp (malloc 8 5 nbytes) (fun r s' => Honours 8 nbytes r (smallHeap brk) s') never
      (smallHeap brk) := by
  have large : ¬ ((nbytes + 8 - 1) / 8 + 1) * 8 < 2 ^ 31 := large
  by_cases wraps : nbytes + 7 < 2 ^ 32
  · have units : nunits nbytes = (nbytes + 7) / 8 + 1 := by
      show (nbytes + 7) % 2 ^ 32 / 8 + 1 = _
      rw [Nat.mod_eq_of_lt wraps]
    obtain ⟨brk, room, gives⟩ : ∃ brk, 16 ≤ brk ∧ (nunits nbytes * headerSize % 2 ^ 32 = 0 ∨
        2 ^ 31 ≤ nunits nbytes * headerSize % 2 ^ 32 ∧
        (brk + nunits nbytes * headerSize % 2 ^ 32) % 2 ^ 32 ≠ 0) := by
      rw [units, headerSize]
      by_cases all : (16 + ((nbytes + 7) / 8 + 1) * 8 % 2 ^ 32) % 2 ^ 32 = 0
      · exact ⟨32, by decide, by omega⟩
      · exact ⟨16, by decide, by omega⟩
    refine ⟨brk, room, fun honours => ?_⟩
    have past := malloc_unprovided (show 8 < brk by omega) (show 4096 ≤ nunits nbytes by omega)
      fun s size core => wp_sbrk_negative gives size core
    apply wp_false
    apply wp_mono (wp_and past honours) _ fun _ _ no => no.1
    rintro (_ | ap) s' ⟨⟨got, core⟩, honours⟩
    · exact got rfl
    have := honours.usable ap rfl 0 (by omega)
    simp [Heap.Core, core] at this
  have one : nunits nbytes = 1 := by
    simp only [nunits, headerSize]
    omega
  refine ⟨16, by decide, fun honours => ?_⟩
  rw [malloc, one] at honours
  obtain ⟨r, s', run, honours⟩ := exists_ok_of_wp honours
  have same : exec (malloc 8 5 0xffffffff) (smallHeap 16) = (.ok r, s') := run
  have got : (exec (malloc 8 5 0xffffffff) (smallHeap 16)).1.toOption = some (some 32784) ∧
      (exec (malloc 8 5 0xffffffff) (smallHeap 16)).2.core = [(16, 32768)] := by decide +kernel
  rw [same] at got
  obtain ⟨result, core⟩ : some r = some (some 32784) ∧ s'.core = [(16, 32768)] := got
  have := honours.usable 32784 (Option.some.inj result) 0 (by omega)
  simp [Heap.Core, core] at this

/-- `malloc(nbytes)` does this after every program whose requests fit, if and only if the size in
bytes of the request is a positive `int`. -/
theorem malloc_honours (nbytes : ℕ) (word : nbytes < 2 ^ 32) :
    (∀ (base fuel brk : ℕ) (hdr : ℕ → Header) (answers : List (Option ℕ)) (es : List Event),
      0 < base → base + headerSize ≤ brk → (∀ size, Event.malloc size ∈ es → Fits size) →
      2 * es.length + 3 ≤ fuel →
      wp (run (step base fuel) es) (fun _ s =>
          wp (malloc base fuel nbytes) (fun r s' => Honours base nbytes r s s') (fun _ _ => False) s)
        (fun _ _ => False) (Heap.init hdr brk answers)) ↔ Fits nbytes := by
  refine ⟨fun honours => ?_, fun fits base fuel brk hdr answers es pos above fit enough => ?_⟩
  · by_contra large
    obtain ⟨brk, room, not⟩ := exists_not_honours word large
    exact not (honours 8 5 brk _ _ [] (by decide) room (by simp) (by decide))
  have fresh : InOrder base 0 (Heap.init hdr brk answers) := .inl ⟨rfl, rfl, rfl, above⟩
  refine wp_imp (wp_run fresh pos fit (by omega)) fun _ s order => ?_
  exact order.wp_honours pos fits (by omega)

section

-- so that Lean does not run it
attribute [local irreducible] wp

theorem malloc_honours_reuse :
    wp (run (step 8 9) [.malloc 20, .free 32760, .malloc 40]) (fun _ s =>
      wp (malloc 8 9 100) (fun r s' => Honours 8 100 r s s') (fun _ _ => False) s)
      (fun _ _ => False) (smallHeap 16) :=
  (malloc_honours 100 (by decide)).2 (by decide) 8 9 16 _ _ _ (by decide) (by decide)
    (by simp; decide) (by decide)

end

/-- Too much: there is nothing behind the pointer; the free list gets what there is not; memory
shrinks. -/
theorem malloc_wraps :
    (exec (malloc 8 3 0xffffffff) (smallHeap 16)).1.toOption = some (some 32784) ∧
      (exec (malloc 8 3 0xffffffff) (smallHeap 16)).2.core = [(16, 32768)] ∧
    (exec (malloc 8 3 0x80000000) (smallHeap 16)).1.toOption = some (some 24) ∧
      (exec (malloc 8 3 0x80000000) (smallHeap 16)).2.core = [] ∧
    (exec (malloc 8 3 0xfffffff0) (smallHeap 16)).2.brk = 8 := by
  decide +kernel

end

end Xv6.Umalloc
