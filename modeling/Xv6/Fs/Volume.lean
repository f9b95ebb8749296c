import Xv6.Fs.Bmap

/-!
# Blocks of files, one call at a time

`balloc` and `bmap` for a process that runs by itself, which fail to return only if the disk is
full.  While a file is written its inode in memory is ahead of the one on the disk, so the account
of the free map (`Accounted`) takes the inodes from a function.
-/

set_option linter.unusedSectionVars false

namespace Xv6

variable {c j : ℕ}

/-! ## The bytes of a file -/

/-- Byte `k` of a file, read through its block map. -/
def Dinode.byte (d : Dinode) (disk : Disk) (k : ℕ) : Byte :=
  match d.onDisk disk (.data (k / BSIZE)) with
  | some b => (disk b).byte (k % BSIZE)
  | none => 0

namespace Fs

open Lib Function

variable {sb : Superblock} {disk disk' disk'' : Disk} {d d' d'' : Dinode} {i n m b : ℕ}
  {p : FilePos}

theorem byte_of_some {k : ℕ} (at_k : d.onDisk disk (.data (k / BSIZE)) = some b) :
    d.byte disk k = (disk b).byte (k % BSIZE) := by
  rw [Dinode.byte, at_k]

theorem byte_congr (blocks : d'.onDisk disk' = d.onDisk disk)
    (keep : ∀ k c, d.onDisk disk (.data k) = some c → disk' c = disk c) (k : ℕ) :
    d'.byte disk' k = d.byte disk k := by
  unfold Dinode.byte
  rw [blocks]
  split
  next c at_k => rw [keep _ c at_k]
  · rfl

theorem byte_grow (none_p : d.onDisk disk p = none)
    (own : d'.onDisk disk' = update (d.onDisk disk) p (some b)) (zero : disk' b = Block.zero)
    (keep : ∀ k c, d.onDisk disk (.data k) = some c → disk' c = disk c) (k : ℕ) :
    d'.byte disk' k = d.byte disk k := by
  unfold Dinode.byte
  rw [own]
  by_cases new : FilePos.data (k / BSIZE) = p
  · subst new
    rw [update_self, none_p]
    dsimp only
    rw [zero]
    simp [Block.byte, Block.zero]
  rw [update_of_ne new]
  split
  next c at_k => rw [keep _ c at_k]
  · rfl

/-! ## The account of the free map -/

variable (sb) in
/-- The block at a place of a file, for inodes as `v` says. -/
def places (disk : Disk) (v : ℕ → Dinode) (x : ℕ × FilePos) : Option ℕ :=
  if x.1 < sb.ninodes ∧ (v x.1).type ≠ 0 then (v x.1).onDisk disk x.2 else none

variable (sb) in
/-- The free map marks the metadata and the blocks of files, each of which is at one place. -/
abbrev Accounted (disk : Disk) (v : ℕ → Dinode) : Prop :=
  Allotted (places sb disk v) (fun b => b < sb.nmeta) (fun b => sb.nmeta ≤ b ∧ b < sb.size)
    fun b => b < sb.size ∧ inUse sb disk b = true

theorem places_of_type {v : ℕ → Dinode} (hi : i < sb.ninodes) (type : (v i).type ≠ 0) :
    places sb disk v (i, p) = (v i).onDisk disk p := if_pos ⟨hi, type⟩

theorem places_eq_some {v : ℕ → Dinode} : places sb disk v (i, p) = some b ↔
    i < sb.ninodes ∧ (v i).type ≠ 0 ∧ (v i).onDisk disk p = some b := by
  by_cases alloc : i < sb.ninodes ∧ (v i).type ≠ 0
  · rw [places_of_type alloc.1 alloc.2]
    exact ⟨fun at_p => ⟨alloc.1, alloc.2, at_p⟩, fun h => h.2.2⟩
  rw [places, if_neg alloc]
  exact ⟨nofun, fun h => absurd ⟨h.1, h.2.1⟩ alloc⟩

theorem accounted_of_consistent (h : Consistent sb disk) : Accounted sb disk (inode sb disk) where
  inj := by
    rintro ⟨i, p⟩ ⟨j, q⟩ b at_p at_q
    obtain ⟨hi, type, at_p⟩ := places_eq_some.1 at_p
    obtain ⟨hj, type', at_q⟩ := places_eq_some.1 at_q
    obtain ⟨rfl, rfl⟩ := h.distinct i hi j hj type type' p q b at_p at_q
    rfl
  inside := by
    rintro ⟨i, p⟩ b at_p
    obtain ⟨hi, type, at_p⟩ := places_eq_some.1 at_p
    exact h.area i hi type p b at_p
  not_fixed := fun area => Nat.not_lt.2 area.1
  used_iff := by
    intro b
    constructor
    · rintro ⟨hb, used⟩
      refine ((h.bitmap b hb).1 used).imp_right ?_
      rintro ⟨i, hi, type, p, at_p⟩
      exact ⟨(i, p), places_eq_some.2 ⟨hi, type, at_p⟩⟩
    rintro (low | ⟨⟨i, p⟩, at_p⟩)
    · have hb := Nat.lt_of_lt_of_le low sb.nmeta_le
      exact ⟨hb, (h.bitmap b hb).2 (.inl low)⟩
    obtain ⟨hi, type, at_p⟩ := places_eq_some.1 at_p
    have hb := (h.area i hi type p b at_p).2
    exact ⟨hb, (h.bitmap b hb).2 (.inr ⟨i, hi, type, p, at_p⟩)⟩

theorem consistent_of_accounted (h : Accounted sb disk (inode sb disk))
    (extent : ∀ i < sb.ninodes, (inode sb disk i).type ≠ 0 →
      Extent ((inode sb disk i).onDisk disk) (nblk (inode sb disk i).size.toNat)) :
    Consistent sb disk where
  extent := extent
  distinct := fun i hi j hj type type' p q b at_p at_q => by
    have same := h.inj (places_eq_some.2 ⟨hi, type, at_p⟩) (places_eq_some.2 ⟨hj, type', at_q⟩)
    simpa using same
  area := fun i hi type p b at_p => h.inside (places_eq_some.2 ⟨hi, type, at_p⟩)
  bitmap := fun b hb => by
    have used := h.used_iff b
    simp only [hb, true_and, Prod.exists, places_eq_some] at used
    rw [used]
    refine or_congr_right ⟨?_, ?_⟩
    · rintro ⟨i, p, hi, type, at_p⟩
      exact ⟨i, hi, type, p, at_p⟩
    rintro ⟨i, hi, type, p, at_p⟩
    exact ⟨i, p, hi, type, at_p⟩

variable (sb) in
def freeBlocks (disk : Disk) : ℕ :=
  ((Finset.range sb.size).filter fun b => inUse sb disk b = false).card

theorem freeBlocks_eq_zero (all : ∀ b < sb.size, inUse sb disk b = true) :
    freeBlocks sb disk = 0 := by
  rw [freeBlocks, Finset.card_eq_zero, Finset.filter_eq_empty_iff]
  intro b hb
  simp [all b (Finset.mem_range.1 hb)]

theorem freeBlocks_congr (same : ∀ c < sb.size, inUse sb disk' c = inUse sb disk c) :
    freeBlocks sb disk' = freeBlocks sb disk := by
  unfold freeBlocks
  congr 1
  refine Finset.filter_congr fun c hc => ?_
  rw [same c (Finset.mem_range.1 hc)]

theorem freeBlocks_take (hb : b < sb.size) (free : inUse sb disk b = false)
    (mark : ∀ c < sb.size, inUse sb disk' c = if c = b then true else inUse sb disk c) :
    freeBlocks sb disk' + 1 = freeBlocks sb disk := by
  have mem : b ∈ (Finset.range sb.size).filter fun c => inUse sb disk c = false := by
    simp [hb, free]
  have rest : ((Finset.range sb.size).filter fun c => inUse sb disk' c = false) =
      ((Finset.range sb.size).filter fun c => inUse sb disk c = false).erase b := by
    ext c
    simp only [Finset.mem_filter, Finset.mem_range, Finset.mem_erase]
    constructor
    · rintro ⟨hc, idle⟩
      rw [mark c hc] at idle
      split at idle
      · cases idle
      next ne => exact ⟨ne, hc, idle⟩
    · rintro ⟨ne, hc, idle⟩
      exact ⟨hc, by rw [mark c hc, if_neg ne, idle]⟩
  rw [freeBlocks, freeBlocks, rest, Finset.card_erase_add_one mem]

/-! ## Other files -/

variable (sb) in
/-- Only file `i` is touched. -/
structure Apart (i : ℕ) (disk disk' : Disk) : Prop where
  inodes : ∀ j < sb.ninodes, j ≠ i → inode sb disk' j = inode sb disk j
  blocks : ∀ j < sb.ninodes, j ≠ i → (inode sb disk j).type ≠ 0 →
    ∀ p b, (inode sb disk j).onDisk disk p = some b → disk' b = disk b

namespace Apart

theorem refl (i : ℕ) (disk : Disk) : Apart sb i disk disk :=
  ⟨fun _ _ _ => rfl, fun _ _ _ _ _ _ _ => rfl⟩

section

variable (h : Apart sb i disk disk') (hj : j < sb.ninodes) (ne : j ≠ i)
  (type : (inode sb disk j).type ≠ 0)
include h hj ne type

theorem onDisk :
    (inode sb disk' j).onDisk disk' = (inode sb disk j).onDisk disk := by
  rw [h.inodes j hj ne]
  exact onDisk_congr fun some_ind => h.blocks j hj ne type .indirect _ (ptr_of_ne some_ind)

theorem byte (k : ℕ) :
    (inode sb disk' j).byte disk' k = (inode sb disk j).byte disk k :=
  byte_congr (h.onDisk hj ne type) (fun _ c at_k => h.blocks j hj ne type _ c at_k) k

end

theorem trans (h : Apart sb i disk disk') (h' : Apart sb i disk' disk'') :
    Apart sb i disk disk'' where
  inodes := fun j hj ne => (h'.inodes j hj ne).trans (h.inodes j hj ne)
  blocks := fun j hj ne type p b at_p => by
    have type' : (inode sb disk' j).type ≠ 0 := by rwa [h.inodes j hj ne]
    have at_p' : (inode sb disk' j).onDisk disk' p = some b := by rwa [h.onDisk hj ne type]
    exact (h'.blocks j hj ne type' p b at_p').trans (h.blocks j hj ne type p b at_p)

end Apart

/-! ## A file with its inode in memory -/

variable (sb) in
/-- The free map accounts for file `i`, with `n` data blocks, and an indirect block if `m` need one.
-/
structure Mapped (i : ℕ) (disk : Disk) (d : Dinode) (n m : ℕ) : Prop where
  account : Accounted sb disk (update (inode sb disk) i d)
  inum : i < sb.ninodes
  type : d.type ≠ 0
  data : ∀ k, (d.onDisk disk (.data k)).isSome ↔ k < n
  indirect : (d.onDisk disk .indirect).isSome ↔ NDIRECT < m

def blockCount (n m : ℕ) : ℕ := n + if NDIRECT < m then 1 else 0

variable (sb) in
/-- The inode in memory may have got blocks; all files and the inodes on disk are as they were. -/
structure Grows (i : ℕ) (disk : Disk) (d : Dinode) (disk' : Disk) (d' : Dinode) : Prop where
  apart : Apart sb i disk disk'
  bytes : ∀ k, d'.byte disk' k = d.byte disk k
  fields : ∃ a, d' = { d with addrs := a }
  here : inode sb disk' i = inode sb disk i

theorem Grows.refl (i : ℕ) (disk : Disk) (d : Dinode) : Grows sb i disk d disk d :=
  ⟨.refl i disk, fun _ => rfl, ⟨_, rfl⟩, rfl⟩

theorem Grows.trans (h : Grows sb i disk d disk' d') (h' : Grows sb i disk' d' disk'' d'') :
    Grows sb i disk d disk'' d'' := by
  obtain ⟨a, rfl⟩ := h.fields
  obtain ⟨a', rfl⟩ := h'.fields
  exact ⟨h.apart.trans h'.apart, fun k => (h'.bytes k).trans (h.bytes k), ⟨a', rfl⟩,
    h'.here.trans h.here⟩

theorem Apart.places (h : Apart sb i disk disk') (ne : j ≠ i) (p : FilePos) :
    places sb disk' (update (inode sb disk') i d') (j, p) =
      places sb disk (update (inode sb disk) i d) (j, p) := by
  unfold Fs.places
  dsimp only
  rw [update_of_ne ne, update_of_ne ne]
  by_cases hj : j < sb.ninodes
  · by_cases type : (inode sb disk j).type = 0
    · rw [if_neg (by rw [h.inodes j hj ne]; exact fun alloc => alloc.2 type),
        if_neg fun alloc => alloc.2 type]
    · rw [h.onDisk hj ne type, h.inodes j hj ne]
  · rw [if_neg fun alloc => hj alloc.1, if_neg fun alloc => hj alloc.1]

namespace Mapped

theorem place (h : Mapped sb i disk d n m) (at_p : d.onDisk disk p = some b) :
    places sb disk (update (inode sb disk) i d) (i, p) = some b :=
  places_eq_some.2 ⟨h.inum, by rw [update_self]; exact h.type,
    by rw [update_self]; exact at_p⟩

theorem otherPlace (hj : j < sb.ninodes) (ne : j ≠ i) (type : (inode sb disk j).type ≠ 0)
    (at_p : (inode sb disk j).onDisk disk p = some b) :
    places sb disk (update (inode sb disk) i d) (j, p) = some b :=
  places_eq_some.2 ⟨hj, by rw [update_of_ne ne]; exact type,
    by rw [update_of_ne ne]; exact at_p⟩

variable (h : Mapped sb i disk d n m)
include h

theorem area (at_p : d.onDisk disk p = some b) :
    sb.nmeta ≤ b ∧ b < sb.size := h.account.inside (h.place at_p)

theorem inj {q : FilePos} (at_p : d.onDisk disk p = some b)
    (at_q : d.onDisk disk q = some b) : p = q := by
  have same := h.account.inj (h.place at_p) (h.place at_q)
  simpa using same

theorem nmeta_le_of_free (free : inUse sb disk b = false) : sb.nmeta ≤ b := by
  refine Nat.not_lt.1 fun low => ?_
  have used := ((h.account.used_iff b).2 (.inl low)).2
  rw [free] at used
  cases used

theorem ne_of_free (free : inUse sb disk b = false) {x : ℕ × FilePos}
    (at_x : places sb disk (update (inode sb disk) i d) x = some c) : c ≠ b := by
  rintro rfl
  have used := (h.account.used_of_cell at_x).2
  rw [free] at used
  cases used

theorem ne_of_other {q : FilePos} (hj : j < sb.ninodes) (ne : j ≠ i)
    (type : (inode sb disk j).type ≠ 0) (at_q : (inode sb disk j).onDisk disk q = some c)
    (at_p : d.onDisk disk p = some b) : c ≠ b := by
  rintro rfl
  have same := h.account.inj (h.place at_p) (otherPlace hj ne type at_q)
  exact ne (congrArg Prod.fst same).symm

theorem take (hb : b < sb.size) (free : inUse sb disk b = false)
    (none_p : d.onDisk disk p = none)
    (own : d'.onDisk disk' = update (d.onDisk disk) p (some b))
    (fields : ∃ a, d' = { d with addrs := a }) (zero : disk' b = Block.zero)
    (changed : ∀ c, sb.nmeta ≤ c → c < sb.size → c ≠ b → d.onDisk disk .indirect ≠ some c →
      disk' c = disk c)
    (inodes : ∀ j < sb.ninodes, inode sb disk' j = inode sb disk j)
    (mark : ∀ c < sb.size, inUse sb disk' c = if c = b then true else inUse sb disk c) :
    Accounted sb disk' (update (inode sb disk') i d') ∧ Grows sb i disk d disk' d' ∧
      freeBlocks sb disk' + 1 = freeBlocks sb disk := by
  have apart : Apart sb i disk disk' := by
    refine ⟨fun j hj _ => inodes j hj, fun j hj ne type q c at_q => ?_⟩
    have at_c := otherPlace (d := d) hj ne type at_q
    obtain ⟨lo, hi⟩ := h.account.inside at_c
    exact changed c lo hi (h.ne_of_free free at_c) fun ind => h.ne_of_other hj ne type at_q ind rfl
  have type' : d'.type ≠ 0 := by
    obtain ⟨a, rfl⟩ := fields
    exact h.type
  refine ⟨?_, ⟨apart, ?_, fields, inodes i h.inum⟩, freeBlocks_take hb free mark⟩
  · refine (h.account.take (p := (i, p)) (b := b) ?_ (by simp [free])
      ⟨h.nmeta_le_of_free free, hb⟩ (fun _ => Iff.rfl)).congr ?_ fun c => ?_
    · simp [places, none_p]
    · rintro ⟨j, q⟩
      by_cases j_i : j = i
      · subst j_i
        rw [places_of_type h.inum (by rwa [update_self]), update_self, own]
        by_cases q_p : q = p
        · rw [q_p, update_self, update_self]
        rw [update_of_ne q_p, update_of_ne (by simpa using q_p),
          places_of_type h.inum (by rw [update_self]; exact h.type),
          update_self]
      · rw [update_of_ne (by simp [j_i])]
        exact apart.places j_i q
    · by_cases c_b : c = b
      · subst c_b
        simp [hb, mark c hb]
      simp only [c_b, or_false]
      refine and_congr_right fun hc => ?_
      rw [mark c hc, if_neg c_b]
  · refine byte_grow none_p own zero fun k c at_k => ?_
    obtain ⟨lo, hi⟩ := h.area at_k
    refine changed c lo hi (h.ne_of_free free (h.place at_k)) fun ind => ?_
    cases h.inj at_k ind

end Mapped

/-! ## Allocating -/

section Alone

variable {T : Type} [DecidableEq T] {s : State T} {e : Fin NINODE}

theorem wp_bread_of_lt {Q : Block → State T → Prop} {E : String → State T → Prop}
    (hb : b < FSSIZE) : wp (bread b) Q E s ↔ Q (s.disk b) s := by
  rw [bread, if_neg (Nat.not_le.2 hb)]
  rfl

variable (sb) in
def allot (disk : Disk) (b : ℕ) : Disk := update (setInUse sb disk b true) b Block.zero

theorem allot_same (disk : Disk) : allot sb disk b b = Block.zero := update_self ..

theorem allot_of_ne (disk : Disk) (layout : sb.Layout) (hb : b < sb.size) (hc : sb.nmeta ≤ c)
    (ne : c ≠ b) : allot sb disk b c = disk c := by
  rw [allot, update_of_ne ne, setInUse_data layout hb true hc]

section

variable (layout : sb.Layout)
include layout

theorem inode_allot (hb : sb.nmeta ≤ b) (hj : j < sb.ninodes) :
    inode sb (allot sb disk b) j = inode sb disk j := by
  rw [allot, inode_update_data layout hj hb, inode_setInUse layout hj]

theorem inUse_allot (hb : sb.nmeta ≤ b) (hc : c < sb.size) :
    inUse sb (allot sb disk b) c = if c = b then true else inUse sb disk c := by
  rw [allot, inUse_update_data layout hc hb, inUse_setInUse]

theorem wp_ballocBlock (hj : j * BPB < sb.size) :
    wp (ballocBlock sb j)
      (fun found s' => match found with
        | some b => b < sb.size ∧ inUse sb s.disk b = false ∧
            s' = { s with disk := setInUse sb s.disk b true }
        | none => s' = s ∧ ∀ b < sb.size, b / BPB = j → inUse sb s.disk b = true) never s := by
  have small : sb.BBLOCK (j * BPB) < FSSIZE :=
    (layout.BBLOCK_lt hj).trans_le (sb.nmeta_le.trans layout.size_le)
  have here {bi : ℕ} (hbi : bi < BPB) :
      inUse sb s.disk (j * BPB + bi) = (s.disk (sb.BBLOCK (j * BPB))).bit bi := by
    have block : sb.BBLOCK (j * BPB + bi) = sb.BBLOCK (j * BPB) := by
      simp only [Superblock.BBLOCK, BPB, BSIZE] at hbi ⊢
      omega
    have bit : (j * BPB + bi) % BPB = bi := by
      simp only [BPB, BSIZE] at hbi ⊢
      omega
    rw [inUse, block, bit]
  unfold ballocBlock
  rw [wp_bind, wp_bread_of_lt small]
  split
  next bi found =>
    have range := List.mem_range.1 (List.mem_of_find?_eq_some found)
    have good := List.find?_some found
    simp only [Bool.and_eq_true, decide_eq_true_eq, Bool.not_eq_true'] at good
    rw [log_write, wp_bind, wp_modify, wp_pure, setBlock_setBit range]
    exact ⟨good.1, (here range).trans good.2, rfl⟩
  rename_i missing
  refine ⟨rfl, fun b hb at_j => ?_⟩
  have range : b % BPB < BPB := Nat.mod_lt _ (by decide)
  have split : b = j * BPB + b % BPB := by
    rw [← at_j, Nat.mul_comm]
    exact (Nat.div_add_mod b BPB).symm
  have used := List.find?_eq_none.1 missing (b % BPB) (List.mem_range.2 range)
  rw [← split] at used
  rw [split, here range]
  simpa [hb] using used

theorem wp_ballocFrom (n j : ℕ) (total : n + j = (sb.size + BPB - 1) / BPB)
    (before : ∀ b < sb.size, b / BPB < j → inUse sb s.disk b = true) :
    wp (ballocFrom sb n j : FsM T Word).alone
      (fun a s' => a.toNat < sb.size ∧ inUse sb s.disk a.toNat = false ∧
        s' = { s with disk := allot sb s.disk a.toNat })
      (fun err _ => err = some "balloc: out of blocks" ∧ freeBlocks sb s.disk = 0) s := by
  induction n generalizing j with
  | zero =>
    refine ⟨rfl, freeBlocks_eq_zero fun b hb => before b hb ?_⟩
    simp only [BPB, BSIZE] at total ⊢
    omega
  | succ n ih =>
    have hj : j * BPB < sb.size := by
      simp only [BPB, BSIZE] at total ⊢
      omega
    unfold ballocFrom
    rw [wp_alone_bind, wp_alone_atomically]
    refine wp_total (wp_ballocBlock layout hj) ?_
    rintro (_ | b) s' found
    · obtain ⟨same, full⟩ := found
      rw [same]
      refine ih (j + 1) (by omega) fun b hb low => ?_
      obtain low | at_j := Nat.lt_or_eq_of_le (Nat.le_of_lt_succ low)
      · exact before b hb low
      · exact full b hb at_j
    obtain ⟨hb, free, rfl⟩ := found
    have num : (BitVec.ofNat 32 b).toNat = b := by
      have := layout.size_le
      simp only [FSSIZE] at this
      rw [BitVec.toNat_ofNat, Nat.mod_eq_of_lt (by omega)]
    dsimp only
    rw [wp_alone_bind, bzero, wp_alone_atomically, wp_bind,
      wp_bread_of_lt (hb.trans_le layout.size_le), log_write, wp_modify, wp_alone_pure, num]
    exact ⟨hb, free, rfl⟩

theorem wp_balloc :
    wp (balloc sb : FsM T Word).alone
      (fun a s' => a.toNat < sb.size ∧ inUse sb s.disk a.toNat = false ∧
        s' = { s with disk := allot sb s.disk a.toNat })
      (fun err _ => err = some "balloc: out of blocks" ∧ freeBlocks sb s.disk = 0) s :=
  wp_ballocFrom layout _ 0 (Nat.add_zero _) fun _ _ low => absurd low (Nat.not_lt_zero _)

end

/-! ## Mapping -/

/-- The inode of a cache entry and the disk after a change. -/
def State.write (s : State T) (e : Fin NINODE) (d : Dinode) (disk : Disk) : State T :=
  { s.setInode e fun ip => { ip with din := d } with disk := disk }

namespace State

@[simp] theorem disk_write : (s.write e d disk).disk = disk := rfl

@[simp] theorem din_write : ((s.write e d disk).icache e).din = d := by simp [write, setInode]

@[simp] theorem inum_write : ((s.write e d disk).icache e).inum = (s.icache e).inum := by
  simp [write, setInode]

@[simp] theorem write_write : (s.write e d disk).write e d' disk' = s.write e d' disk' := by
  simp [write, setInode]

theorem write_disk : ({ s with disk := disk } : State T).write e d disk' = s.write e d disk' := rfl

theorem write_din (same : (s.icache e).din = d) : s.write e d disk = { s with disk := disk } := by
  subst same
  simp [write, setInode]

theorem write_self (same : (s.icache e).din = d) : s.write e d s.disk = s := by
  subst same
  simp [write, setInode]

end State

theorem wp_getDin {Q : Dinode → State T → Prop} {E : Option String → State T → Prop} :
    wp (getDin e).alone Q E s ↔ Q (s.icache e).din s := Iff.rfl

theorem wp_setDin {f : Dinode → Dinode} {Q : Unit → State T → Prop}
    {E : Option String → State T → Prop} :
    wp (setDin e f).alone Q E s ↔ Q () (s.write e (f (s.icache e).din) s.disk) := Iff.rfl

variable (sb) in
/-- File `i` goes from `n` data blocks (and an indirect one if `m` need it) to `n'` (and `m'`). -/
structure Grown (i : ℕ) (e : Fin NINODE) (s : State T) (d : Dinode) (n m : ℕ) (s' : State T)
    (d' : Dinode) (n' m' : ℕ) : Prop where
  state : s' = s.write e d' s'.disk
  grows : Grows sb i s.disk d s'.disk d'
  mapped : Mapped sb i s'.disk d' n' m'
  count : freeBlocks sb s'.disk + blockCount n' m' = freeBlocks sb s.disk + blockCount n m
  same : blockCount n' m' ≤ blockCount n m → s' = s ∧ d' = d

variable (sb) in
/-- There are not enough free blocks to go from `n` and `m` to `n'` and `m'`. -/
def OutOfBlocks (disk : Disk) (n m n' m' : ℕ) (err : Option String) : Prop :=
  err = some "balloc: out of blocks" ∧
    freeBlocks sb disk + blockCount n m < blockCount n' m'

variable {k n' m' n'' m'' : ℕ} {s' s'' : State T}

theorem Grown.refl (din : (s.icache e).din = d) (h : Mapped sb i s.disk d n m) :
    Grown sb i e s d n m s d n m :=
  ⟨(State.write_self din).symm, .refl .., h, rfl, fun _ => ⟨rfl, rfl⟩⟩

theorem Grown.din (h : Grown sb i e s d n m s' d' n' m') : (s'.icache e).din = d' := by
  rw [h.state, State.din_write]

theorem blockCount_mono (hn : n ≤ n') (hm : m ≤ m') : blockCount n m ≤ blockCount n' m' := by
  unfold blockCount
  split <;> split <;> omega

theorem Grown.trans (h : Grown sb i e s d n m s' d' n' m')
    (h' : Grown sb i e s' d' n' m' s'' d'' n'' m'') (le : blockCount n m ≤ blockCount n' m')
    (le' : blockCount n' m' ≤ blockCount n'' m'') : Grown sb i e s d n m s'' d'' n'' m'' where
  state := by
    rw [h'.state, h.state, State.write_write, State.disk_write]
  grows := h.grows.trans h'.grows
  mapped := h'.mapped
  count := h'.count.trans h.count
  same := fun same => by
    obtain ⟨rfl, rfl⟩ := h.same (le'.trans same)
    exact h'.same (same.trans le)

theorem OutOfBlocks.mono {err : Option String} (h : OutOfBlocks sb disk n m n' m' err)
    (le : blockCount n' m' ≤ blockCount n'' m'') : OutOfBlocks sb disk n m n'' m'' err :=
  ⟨h.1, h.2.trans_le le⟩

theorem OutOfBlocks.after {err : Option String} (h : Grown sb i e s d n m s' d' n' m')
    (full : OutOfBlocks sb s'.disk n' m' n'' m'' err) : OutOfBlocks sb s.disk n m n'' m'' err :=
  ⟨full.1, h.count ▸ full.2⟩

theorem blockCount_congr (same : NDIRECT < m ↔ NDIRECT < m') :
    blockCount n m = blockCount n m' := by
  simp only [blockCount, same]

theorem Grown.congr (h : Grown sb i e s d n m s' d' n' m') (same : NDIRECT < m' ↔ NDIRECT < m'') :
    Grown sb i e s d n m s' d' n' m'' :=
  { h with
    mapped := { h.mapped with indirect := h.mapped.indirect.trans same }
    count := blockCount_congr (n := n') same ▸ h.count
    same := blockCount_congr (n := n') same ▸ h.same }

/-! What the addresses of a file say about its number of blocks. -/

namespace Mapped

theorem addr_eq_zero_iff (h : Mapped sb i disk d n m) (hk : k < NDIRECT) :
    d.addr k = 0 ↔ n ≤ k := by
  have at_k := h.data k
  rw [Dinode.onDisk, Dinode.blocks, if_pos hk, ptr_isSome] at at_k
  rw [← not_lt, ← at_k, not_not]

theorem onDisk_direct (hk : k < NDIRECT) (ne : d.addr k ≠ 0) :
    d.onDisk disk (.data k) = some (d.addr k).toNat := by
  rw [Dinode.onDisk, Dinode.blocks, if_pos hk, ptr_of_ne ne]

theorem indirect_eq_zero_iff (h : Mapped sb i disk d n m) : d.addr NDIRECT = 0 ↔ m ≤ NDIRECT := by
  have ind : (ptr (d.addr NDIRECT)).isSome ↔ NDIRECT < m := h.indirect
  rw [← not_lt, ← ind, ptr_isSome, not_not]

theorem onDisk_indirect (disk : Disk) (ne : d.addr NDIRECT ≠ 0) :
    d.onDisk disk .indirect = some (d.addr NDIRECT).toNat := ptr_of_ne ne

theorem onDisk_entry (disk : Disk) (ne : d.addr NDIRECT ≠ 0) (hj : j < NINDIRECT) :
    d.onDisk disk (.data (NDIRECT + j)) = ptr ((disk (d.addr NDIRECT).toNat).word j) := by
  have : NDIRECT + j < MAXFILE := by
    simp only [MAXFILE]
    omega
  rw [Dinode.onDisk, Dinode.blocks, if_neg (by omega), if_pos ⟨this, ne⟩, Nat.add_sub_cancel_left]

end Mapped

theorem addr_ne_zero (layout : sb.Layout) {a : Word} (hb : sb.nmeta ≤ a.toNat) : a ≠ 0 := by
  rintro rfl
  exact absurd (Nat.zero_le _) (Nat.not_le.2 (layout.bitmap.trans_le hb))

theorem data_update {f : FilePos → Option ℕ} (data : ∀ k, (f (.data k)).isSome ↔ k < n) (k : ℕ) :
    (update f (.data n) (some b) (.data k)).isSome ↔ k < n + 1 := by
  by_cases k_n : k = n
  · simp [k_n]
  rw [update_of_ne (by simpa using k_n), data]
  omega

theorem blockCount_succ (n m : ℕ) : blockCount (n + 1) m = blockCount n m + 1 := by
  unfold blockCount
  omega

theorem Mapped.grown (h : Mapped sb i s.disk d n m) (hb : b < sb.size)
    (free : inUse sb s.disk b = false) (none_p : d.onDisk s.disk p = none)
    (own : d'.onDisk disk' = update (d.onDisk s.disk) p (some b))
    (fields : ∃ a, d' = { d with addrs := a }) (zero : disk' b = Block.zero)
    (changed : ∀ c, sb.nmeta ≤ c → c < sb.size → c ≠ b → d.onDisk s.disk .indirect ≠ some c →
      disk' c = s.disk c)
    (inodes : ∀ j < sb.ninodes, inode sb disk' j = inode sb s.disk j)
    (mark : ∀ c < sb.size, inUse sb disk' c = if c = b then true else inUse sb s.disk c)
    (data : ∀ k, (update (d.onDisk s.disk) p (some b) (.data k)).isSome ↔ k < n')
    (indirect : (update (d.onDisk s.disk) p (some b) .indirect).isSome ↔ NDIRECT < m')
    (count : blockCount n' m' = blockCount n m + 1) :
    Grown sb i e s d n m (s.write e d' disk') d' n' m' := by
  obtain ⟨account, grows, taken⟩ := h.take hb free none_p own fields zero changed inodes mark
  have type' : d'.type ≠ 0 := by
    obtain ⟨a, rfl⟩ := fields
    exact h.type
  rw [← own] at data indirect
  refine ⟨rfl, grows, ⟨account, h.inum, type', data, indirect⟩, ?_, fun same => ?_⟩
  · rw [State.disk_write, count]
    omega
  · omega

variable (layout : sb.Layout) (din : (s.icache e).din = d)
include layout din

theorem wp_addrAlloc_direct (h : Mapped sb i s.disk d n m) (hk : k < NDIRECT) (le : k ≤ n) :
    wp (addrAlloc sb e k : FsM T Word).alone
      (fun a s' => ∃ d', Grown sb i e s d n m s' d' (max n (k + 1)) m ∧
        d'.onDisk s'.disk (.data k) = some a.toNat)
      (fun err _ => OutOfBlocks sb s.disk n m (max n (k + 1)) m err) s := by
  unfold addrAlloc
  rw [wp_alone_bind, wp_getDin, din, wp_alone_ite]
  constructor
  · intro zero
    obtain rfl : k = n := Nat.le_antisymm le ((h.addr_eq_zero_iff hk).1 zero)
    rw [wp_alone_bind, max_eq_right (Nat.le_succ k)]
    refine wp_mono (wp_balloc layout) ?_ ?_
    · rintro a s' ⟨hb, free, rfl⟩
      rw [wp_alone_bind, wp_setDin, wp_alone_pure, State.write_disk, din]
      have low := h.nmeta_le_of_free free
      have none_k : d.onDisk s.disk (.data k) = none := by
        rw [Dinode.onDisk, Dinode.blocks, if_pos hk, zero, ptr_zero]
      have far : (d.setAddr k a).addr NDIRECT = d.addr NDIRECT := by
        rw [Dinode.addr_setAddr _ _ _ _ (by decide), if_neg hk.ne']
      have own : (d.setAddr k a).onDisk (allot sb s.disk a.toNat) =
          update (d.onDisk s.disk) (.data k) (some a.toNat) := by
        have same : d.onDisk (allot sb s.disk a.toNat) = d.onDisk s.disk := onDisk_congr fun ind => by
          have at_ind := Mapped.onDisk_indirect s.disk ind
          exact allot_of_ne s.disk layout hb (h.area at_ind).1 (h.ne_of_free free (h.place at_ind))
        rw [← same, Dinode.onDisk, Dinode.blocks_setAddr _ _ _ hk,
          ptr_of_ne (addr_ne_zero layout low), far, Dinode.onDisk]
      refine ⟨d.setAddr k a, h.grown hb free none_k own ⟨_, rfl⟩ (allot_same s.disk)
        (fun c lo _ ne _ => allot_of_ne s.disk layout hb lo ne) (fun j hj => inode_allot layout low hj)
        (fun c hc => inUse_allot layout low hc) (data_update h.data) ?_ (blockCount_succ k m), ?_⟩
      · rw [update_of_ne (by simp)]
        exact h.indirect
      · rw [State.disk_write, own, update_self]
    · rintro err s' ⟨rfl, full⟩
      refine ⟨rfl, ?_⟩
      rw [full, blockCount_succ]
      omega
  · intro ne
    have lt : k < n := Nat.lt_of_not_le fun ge => ne ((h.addr_eq_zero_iff hk).2 ge)
    rw [wp_alone_pure, max_succ_of_lt lt]
    exact ⟨d, .refl din h, Mapped.onDisk_direct hk ne⟩

theorem wp_addrAlloc_indirect (h : Mapped sb i s.disk d n n) :
    wp (addrAlloc sb e NDIRECT : FsM T Word).alone
      (fun a s' => ∃ d', Grown sb i e s d n n s' d' n (max n (NDIRECT + 1)) ∧ a = d'.addr NDIRECT)
      (fun err _ => OutOfBlocks sb s.disk n n n (max n (NDIRECT + 1)) err) s := by
  unfold addrAlloc
  rw [wp_alone_bind, wp_getDin, din, wp_alone_ite]
  constructor
  · intro zero
    have few : n ≤ NDIRECT := h.indirect_eq_zero_iff.1 zero
    have count : blockCount n (NDIRECT + 1) = blockCount n n + 1 := by
      rw [blockCount, blockCount, if_pos (Nat.lt_succ_self _), if_neg (Nat.not_lt.2 few)]
    rw [wp_alone_bind, max_eq_right (few.trans (Nat.le_succ _))]
    refine wp_mono (wp_balloc layout) ?_ ?_
    · rintro a s' ⟨hb, free, rfl⟩
      rw [wp_alone_bind, wp_setDin, wp_alone_pure, State.write_disk, din]
      have low := h.nmeta_le_of_free free
      have ne := addr_ne_zero layout low
      have none_ind : d.onDisk s.disk .indirect = none := by
        rw [Dinode.onDisk, Dinode.blocks, zero, ptr_zero]
      have fresh : (d.setAddr NDIRECT a).addr NDIRECT = a := by
        rw [Dinode.addr_setAddr _ _ _ _ (by decide), if_pos rfl]
      have own : (d.setAddr NDIRECT a).onDisk (allot sb s.disk a.toNat) =
          update (d.onDisk s.disk) .indirect (some a.toNat) := by
        rw [Dinode.onDisk, fresh, allot_same, Dinode.onDisk]
        exact Dinode.blocks_setAddr_indirect _ _ _ ne zero Block.word_zero
      refine ⟨d.setAddr NDIRECT a, h.grown hb free none_ind own ⟨_, rfl⟩ (allot_same s.disk)
        (fun c lo _ ne _ => allot_of_ne s.disk layout hb lo ne) (fun j hj => inode_allot layout low hj)
        (fun c hc => inUse_allot layout low hc) (fun k => ?_) ?_ count, fresh.symm⟩
      · rw [update_of_ne (by simp)]
        exact h.data k
      rw [update_self]
      exact ⟨fun _ => Nat.lt_succ_self _, fun _ => rfl⟩
    · rintro err s' ⟨rfl, full⟩
      refine ⟨rfl, ?_⟩
      rw [full, count]
      omega
  · intro ne
    have lt : NDIRECT < n := Nat.lt_of_not_le fun ge => ne (h.indirect_eq_zero_iff.2 ge)
    rw [wp_alone_pure, max_eq_left lt]
    exact ⟨d, .refl din h, rfl⟩

theorem wp_entryAlloc (h : Mapped sb i s.disk d n m) (some_ind : d.addr NDIRECT ≠ 0)
    (hj : j < NINDIRECT) (last : n = NDIRECT + j) :
    wp (do
        let fresh ← balloc sb
        Code.atomically (log_write (d.addr NDIRECT).toNat fun a => a.setWord j fresh)
        return fresh : FsM T Word).alone
      (fun a s' => ∃ d', Grown sb i e s d n m s' d' (n + 1) m ∧
        d'.onDisk s'.disk (.data n) = some a.toNat)
      (fun err _ => OutOfBlocks sb s.disk n m (n + 1) m err) s := by
  rw [wp_alone_bind]
  refine wp_mono (wp_balloc layout) ?_ ?_
  · rintro a s' ⟨hb, free, rfl⟩
    rw [wp_alone_bind, wp_alone_atomically, log_write, wp_modify, wp_alone_pure]
    have low := h.nmeta_le_of_free free
    have at_ind := Mapped.onDisk_indirect s.disk some_ind
    set c := (d.addr NDIRECT).toNat
    have area := h.area at_ind
    have apart : c ≠ a.toNat := h.ne_of_free free (h.place at_ind)
    have none_n : d.onDisk s.disk (.data n) = none := by
      rw [← Option.not_isSome_iff_eq_none, h.data]
      exact Nat.lt_irrefl n
    set disk' := update (allot sb s.disk a.toNat) c ((allot sb s.disk a.toNat c).setWord j a)
    have own : d.onDisk disk' = update (d.onDisk s.disk) (.data n) (some a.toNat) := by
      have words : ∀ k < NINDIRECT, (disk' c).word k = update (s.disk c).word j a k := by
        intro k hk
        rw [show disk' c = (s.disk c).setWord j a by
          rw [← allot_of_ne s.disk layout hb area.1 apart]
          exact update_self ..]
        by_cases k_j : k = j
        · rw [k_j, Block.word_setWord_same _ _ _ hj, update_self]
        · rw [Block.word_setWord_ne _ _ k_j hk, update_of_ne k_j]
      rw [Dinode.onDisk, blocks_congr fun _ => words, Dinode.blocks_setInd _ _ _ hj some_ind, last,
        ptr_of_ne (addr_ne_zero layout low), Dinode.onDisk]
    have state : ({ s with disk := allot sb s.disk a.toNat } : State T).setBlock c
        (fun x => x.setWord j a) = s.write e d disk' := by
      rw [State.write_din din]
      rfl
    rw [state]
    refine ⟨d, h.grown hb free none_n own ⟨_, rfl⟩ ?_ (fun x lo _ ne ind => ?_) (fun j hj => ?_)
      (fun x hx => ?_) (data_update h.data) ?_ (blockCount_succ n m), ?_⟩
    · exact (update_of_ne apart.symm ..).trans (allot_same s.disk)
    · have ne_c : x ≠ c := by
        rintro rfl
        exact ind at_ind
      rw [← allot_of_ne s.disk layout hb lo ne]
      exact update_of_ne ne_c ..
    · exact (inode_update_data layout hj area.1 _).trans (inode_allot layout low hj)
    · exact (inUse_update_data layout hx area.1 _).trans (inUse_allot layout low hx)
    · rw [update_of_ne (by simp)]
      exact h.indirect
    · rw [State.disk_write, own, update_self]
  · rintro err s' ⟨rfl, full⟩
    refine ⟨rfl, ?_⟩
    rw [full, blockCount_succ]
    omega

theorem wp_bmap (h : Mapped sb i s.disk d n n) (le : k ≤ n) (hk : k < MAXFILE) :
    wp (bmap sb e k : FsM T Word).alone
      (fun a s' => ∃ d', Grown sb i e s d n n s' d' (max n (k + 1)) (max n (k + 1)) ∧
        d'.onDisk s'.disk (.data k) = some a.toNat)
      (fun err _ => OutOfBlocks sb s.disk n n (max n (k + 1)) (max n (k + 1)) err) s := by
  unfold bmap
  rw [wp_alone_ite]
  constructor
  · intro near
    have same : NDIRECT < n ↔ NDIRECT < max n (k + 1) := by omega
    refine wp_mono (wp_addrAlloc_direct layout din h near le) ?_ fun err _ full => ?_
    · rintro a s' ⟨d', grown, at_k⟩
      exact ⟨d', grown.congr same, at_k⟩
    · exact full.mono (blockCount_congr same).le
  intro far
  obtain ⟨j, rfl⟩ : ∃ j, k = NDIRECT + j := ⟨k - NDIRECT, by omega⟩
  have hj : j < NINDIRECT := by
    simp only [MAXFILE] at hk
    omega
  rw [Nat.add_sub_cancel_left, if_pos hj, wp_alone_bind]
  have same : NDIRECT < max n (NDIRECT + 1) ↔ NDIRECT < max n (NDIRECT + j + 1) := by omega
  have first : blockCount n n ≤ blockCount n (max n (NDIRECT + 1)) :=
    blockCount_mono le_rfl (le_max_left ..)
  have second : blockCount n (max n (NDIRECT + 1)) ≤
      blockCount (max n (NDIRECT + j + 1)) (max n (NDIRECT + j + 1)) :=
    blockCount_mono (le_max_left ..) (by omega)
  refine wp_mono (wp_addrAlloc_indirect layout din h) ?_ fun err _ full => full.mono second
  rintro a s₁ ⟨d₁, grown, rfl⟩
  have some_ind : d₁.addr NDIRECT ≠ 0 := fun zero =>
    absurd (grown.mapped.indirect_eq_zero_iff.1 zero) (by omega)
  have at_j := Mapped.onDisk_entry s₁.disk some_ind hj
  have area := grown.mapped.area (Mapped.onDisk_indirect s₁.disk some_ind)
  rw [wp_alone_bind, wp_alone_atomically, wp_bread_of_lt (area.2.trans_le layout.size_le),
    wp_alone_ite]
  constructor
  · intro zero
    have last : n = NDIRECT + j := by
      refine Nat.le_antisymm (Nat.not_lt.1 fun lt => ?_) le
      have := (grown.mapped.data _).2 lt
      rw [at_j, zero, ptr_zero] at this
      cases this
    have next : max n (NDIRECT + j + 1) = n + 1 := by omega
    rw [next] at same second ⊢
    refine wp_mono (wp_entryAlloc layout grown.din grown.mapped some_ind hj last) ?_
      fun err _ full => ?_
    · rintro a s₂ ⟨d₂, grown', at_n⟩
      exact ⟨d₂, grown.trans (grown'.congr same) first second, last ▸ at_n⟩
    · exact (full.after grown).mono (blockCount_congr same).le
  · intro ne
    have some_j := at_j.trans (ptr_of_ne ne)
    have lt : NDIRECT + j < n := (grown.mapped.data _).1 (by rw [some_j]; rfl)
    rw [max_succ_of_lt lt]
    exact ⟨d₁, grown.congr (by omega), some_j⟩

end Alone

end Fs

end Xv6
