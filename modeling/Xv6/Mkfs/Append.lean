import Xv6.Mkfs.Mkfs

/-!
# Appending as the kernel does

`mkfs` has a block map of its own, and no free map while it runs.  With the free map that its
counter stands for (`State.marked`), the image is at every moment a disk of the kernel, and
`iappend` does to it what `writei` does at the end of a file.
-/

namespace Xv6.Mkfs

open Lib Fs Function

variable {E : String → State → Prop} {sec : ℕ}

-- A run on this super block is a closed term that `wp` would otherwise unfold into.
attribute [local irreducible] wp

/-! ## The free map of a run -/

/-- The image with the free map for the blocks handed out so far. -/
def State.marked (s : State) : Disk := update s.disk sb.bmapstart (bitmap s.freeblock)

theorem bitmap_succ (used : ℕ) : bitmap (used + 1) = (bitmap used).setBit used true := by
  rw [bitmap, List.range_succ, List.foldl_append]
  rfl

theorem bit_bitmap (used : ℕ) {k : ℕ} (hk : k < 8 * BSIZE) :
    (bitmap used).bit k = decide (k < used) := by
  induction used with
  | zero => simp [bitmap, Block.bit, Block.byte, Block.zero]
  | succ used ih =>
    rw [bitmap_succ, Block.bit_setBit _ _ _ _ hk, ih]
    by_cases same : k = used
    · simp [same]
    rw [if_neg same]
    exact decide_eq_decide.2 (by omega)

theorem layout : sb.Layout := by constructor <;> decide

/-- The image has its full length, and what the counter has not handed out is zero. -/
structure Tidy (s : State) : Prop where
  sectors : s.sectors = FSSIZE
  low : nmeta ≤ s.freeblock
  high : s.freeblock ≤ FSSIZE
  fresh : ∀ b, s.freeblock ≤ b → s.disk b = Block.zero

variable {s s' : State} {d d' : Dinode} {i n m k b : ℕ}

theorem marked_of_ne (ne : b ≠ sb.bmapstart) : s.marked b = s.disk b := update_of_ne ne ..

theorem ne_bmapstart (hb : nmeta ≤ b) : b ≠ sb.bmapstart :=
  (show sb.bmapstart < b from Nat.lt_of_lt_of_le (by decide) hb).ne'

theorem inUse_marked (hb : b < FSSIZE) : inUse sb s.marked b = decide (b < s.freeblock) := by
  have block : sb.BBLOCK b = sb.bmapstart := by
    simp only [Superblock.BBLOCK, BPB, BSIZE, FSSIZE] at *
    omega
  have bit : b % BPB = b := Nat.mod_eq_of_lt (by simp only [BPB, BSIZE, FSSIZE] at *; omega)
  rw [inUse, block, bit, State.marked, update_self,
    bit_bitmap _ (by simp only [BSIZE, FSSIZE] at *; omega)]

theorem inode_marked (hi : i < NINODES) : inode sb s.marked i = inode sb s.disk i := by
  rw [inode, marked_of_ne (layout.IBLOCK_lt hi).ne, inode]

theorem freeBlocks_marked (tidy : Tidy s) : freeBlocks sb s.marked = FSSIZE - s.freeblock := by
  have free : ((Finset.range FSSIZE).filter fun b => inUse sb s.marked b = false) =
      Finset.range FSSIZE \ Finset.range s.freeblock := by
    ext b
    simp only [Finset.mem_filter, Finset.mem_sdiff, Finset.mem_range]
    refine and_congr_right fun hb => ?_
    rw [inUse_marked hb, decide_eq_false_iff_not]
  show ((Finset.range FSSIZE).filter fun b => inUse sb s.marked b = false).card = _
  rw [free, Finset.card_sdiff_of_subset (by simpa using tidy.high), Finset.card_range,
    Finset.card_range]

/-! ## Sectors -/

theorem seek_of_le (h : sec ≤ FSSIZE) : seek sec = sec := by
  simp only [seek, BSIZE, FSSIZE] at *
  omega

theorem wp_rsect {Q : Block → State → Prop} (h : sec < FSSIZE) (sectors : s.sectors = FSSIZE) :
    wp (rsect sec) Q E s ↔ Q (s.disk sec) s := by
  rw [rsect, wp_bind, wp_get, seek_of_le h.le, sectors, if_neg (Nat.not_le.2 h), wp_pure]

theorem wp_wsect {Q : PUnit → State → Prop} {buf : Block} (h : sec < FSSIZE)
    (sectors : s.sectors = FSSIZE) :
    wp (wsect sec buf) Q E s ↔ Q ⟨⟩ { s with disk := update s.disk sec buf } := by
  rw [wsect, wp_modify, seek_of_le h.le, max_eq_left (by omega)]

/-- A block number from a counter that has run off the disk. -/
def Past (s : State) (x : Word) : Prop := s.sectors = FSSIZE ∧ x.toNat = FSSIZE

theorem wp_rsect_past {x : Word} {Q : Block → State → Prop} (past : Past s x) (stop : E "read" s) :
    wp (rsect x.toNat) Q E s := by
  rw [rsect, wp_bind, wp_get, past.2, seek_of_le le_rfl, past.1, if_pos le_rfl, wp_throw]
  exact stop

theorem Tidy.write (tidy : Tidy s) (hb : b < s.freeblock) (x : Block) :
    Tidy { s with disk := update s.disk b x } :=
  ⟨tidy.sectors, tidy.low, tidy.high, fun c hc =>
    (update_of_ne (hb.trans_le hc).ne' ..).trans (tidy.fresh c hc)⟩

theorem marked_write (ne : b ≠ sb.bmapstart) (x : Block) :
    ({ s with disk := update s.disk b x } : State).marked =
      update s.marked b x :=
  update_comm ne _ _ _

theorem Tidy.next (tidy : Tidy s) (room : s.freeblock < FSSIZE) :
    Tidy { s with freeblock := s.freeblock + 1 } :=
  ⟨tidy.sectors, tidy.low.trans (Nat.le_succ _), room, fun c hc =>
    tidy.fresh c ((Nat.le_succ _).trans hc)⟩

/-! ## The image as the kernel sees it -/

/-- A kernel with the image as its disk, at work on inode `i`. -/
def view (s : State) (i : ℕ) (d : Dinode) : Fs.State Unit where
  disk := s.marked
  icache := update (fun _ => ⟨0, 0, none, false, ⟨0, 0, 0, 0, 0, fun _ => 0⟩⟩) 0
    ⟨i, 1, some (), true, d⟩
  pointers := fun _ => 0

@[simp] theorem disk_view : (view s i d).disk = s.marked := rfl

@[simp] theorem entry_view : (view s i d).icache 0 = ⟨i, 1, some (), true, d⟩ := by
  simp [view]

@[simp] theorem view_write (s' : State) (d' : Dinode) :
    (view s i d).write 0 d' s'.marked = view s' i d' := by
  simp [Fs.State.write, Fs.State.setInode, view]

theorem view_setBlock (ne : b ≠ sb.bmapstart) (f : Block → Block) :
    (view s i d).setBlock b f =
      view { s with disk := update s.disk b (f (s.disk b)) } i d := by
  rw [view, view, marked_write ne, Fs.State.setBlock]
  simp only [marked_of_ne ne]

/-- The counter of inodes and the super block are as they were. -/
structure Follows (s s' : State) : Prop where
  tidy : Tidy s'
  freeinode : s'.freeinode = s.freeinode
  super : s'.disk 1 = s.disk 1

theorem find_free {used : ℕ} (room : used < FSSIZE) :
    ((List.range BPB).find? fun bi => decide (0 * BPB + bi < sb.size) && !(bitmap used).bit bi) =
      some used := by
  rw [List.find?_range_eq_some]
  have small : used < 8 * BSIZE := by simp only [BSIZE, FSSIZE] at *; omega
  refine ⟨?_, ?_, fun j before => ?_⟩
  · rw [bit_bitmap _ small]
    simpa [sb] using room
  · exact List.mem_range.2 (by simp only [BPB, BSIZE] at *; omega)
  rw [bit_bitmap _ (before.trans small)]
  simp [before]

theorem nextWord (room : s.freeblock ≤ FSSIZE) : (BitVec.ofNat 32 s.freeblock).toNat =
    s.freeblock := by
  rw [BitVec.toNat_ofNat, Nat.mod_eq_of_lt (by simp only [FSSIZE] at room; omega)]

theorem balloc_does (tidy : Tidy s) (room : s.freeblock < FSSIZE) :
    (Fs.balloc sb : FsM Unit Word).Does (view s i d) (BitVec.ofNat 32 s.freeblock)
      (view { s with freeblock := s.freeblock + 1 } i d) := by
  have marked : update (update s.marked sb.bmapstart
      ((bitmap s.freeblock).setBit s.freeblock true)) s.freeblock Block.zero =
      ({ s with freeblock := s.freeblock + 1 } : State).marked := by
    rw [← tidy.fresh _ le_rfl, State.marked, update_idem, ← bitmap_succ]
    refine update_eq_self_iff.2 ?_
    exact (update_of_ne (ne_bmapstart tidy.low) ..).symm
  have map : s.marked (sb.BBLOCK (0 * BPB)) = bitmap s.freeblock := update_self ..
  show wp (ballocFrom sb 1 0 : FsM Unit Word).alone _ _ _
  rw [ballocFrom, wp_alone_bind, wp_alone_atomically, ballocBlock, wp_bind,
    wp_bread_of_lt (by decide), disk_view, map, find_free room]
  dsimp only
  rw [Fs.log_write, wp_bind, wp_modify, wp_pure, Nat.zero_mul, Nat.zero_add, wp_alone_bind, Fs.bzero,
    wp_alone_atomically, wp_bind, wp_bread_of_lt room, Fs.log_write, wp_modify, wp_alone_pure]
  refine ⟨rfl, ?_⟩
  rw [view, view, ← marked]
  simp only [Fs.State.setBlock]
  congr 2

theorem balloc_fails (full : s.freeblock = FSSIZE) :
    (Fs.balloc sb : FsM Unit Word).Fails (view s i d) := by
  have call := wp_balloc (T := Unit) layout (s := view s i d)
  refine wp_mono call ?_ fun _ _ _ => trivial
  rintro a _ ⟨lt, free, -⟩
  rw [disk_view, inUse_marked lt, full, decide_eq_false_iff_not] at free
  exact free lt

/-! ## The block map -/

theorem getDin_does : (getDin 0 : FsM Unit Dinode).Does (view s i d) d (view s i d) := by
  rw [Code.Does, wp_getDin, entry_view]
  exact ⟨rfl, rfl⟩

theorem setDin_does (f : Dinode → Dinode) :
    (setDin 0 f : FsM Unit Unit).Does (view s i d) () (view s i (f d)) := by
  rw [Code.Does, wp_setDin, entry_view, disk_view, view_write]
  exact ⟨rfl, rfl⟩

theorem wp_fillAddr (tidy : Tidy s) (hk : k < NDIRECT + 1) :
    wp (fillAddr d k)
      (fun d' s' =>
        (Follows s s' ∧ (addrAlloc sb 0 k).Does (view s i d) (d'.addr k) (view s' i d')) ∨
        ((addrAlloc sb 0 k : FsM Unit Word).Fails (view s i d) ∧ Past s' (d'.addr k))) never s := by
  rw [fillAddr, wp_ite]
  constructor
  · intro zero
    have fresh (a : Word) : (d.setAddr k a).addr k = a := by
      rw [Dinode.addr_setAddr _ _ _ _ hk, if_pos rfl]
    rw [nextBlock, wp_bind, wp_bind, wp_get, wp_bind, wp_modify, wp_pure, wp_pure, fresh]
    obtain room | full := Nat.lt_or_eq_of_le tidy.high
    · left
      refine ⟨⟨tidy.next room, rfl, rfl⟩, getDin_does.bind ?_⟩
      rw [if_pos zero]
      exact (balloc_does tidy room).bind ((setDin_does _).bind (by rw [Code.Does]; simp))
    right
    refine ⟨getDin_does.fails ?_, tidy.sectors, (nextWord tidy.high).trans full⟩
    rw [if_pos zero]
    exact (balloc_fails full).bind
  · intro ne
    rw [wp_pure]
    left
    refine ⟨⟨tidy, rfl, rfl⟩, getDin_does.bind ?_⟩
    rw [if_neg ne, Code.Does]
    simp

theorem area_of_onDisk {p : FilePos} (h : Mapped sb i s.marked d n m)
    (at_p : d.onDisk s.marked p = some b) :
    b ≠ sb.bmapstart ∧ b < FSSIZE ∧ b < s.freeblock ∧ 1 ≠ b := by
  have area : nmeta ≤ b ∧ b < FSSIZE := h.area at_p
  have used := (h.account.used_of_cell (h.place at_p)).2
  rw [inUse_marked area.2, decide_eq_true_eq] at used
  exact ⟨ne_bmapstart area.1, area.2, used, (Nat.lt_of_lt_of_le (by decide) area.1).ne⟩

theorem bread_does (ne : b ≠ sb.bmapstart) (lt : b < FSSIZE) :
    (Code.atomically (Fs.bread b) : FsM Unit Block).Does (view s i d) (s.disk b) (view s i d) := by
  rw [Code.Does, wp_alone_atomically, wp_bread_of_lt lt, disk_view, marked_of_ne ne]
  exact ⟨rfl, rfl⟩

theorem log_write_does (ne : b ≠ sb.bmapstart) (f : Block → Block) :
    (Code.atomically (Fs.log_write b f) : FsM Unit Unit).Does (view s i d) ()
      (view { s with disk := update s.disk b (f (s.disk b)) } i d) := by
  rw [Code.Does, wp_alone_atomically, Fs.log_write, wp_modify, view_setBlock ne]
  exact ⟨rfl, rfl⟩

theorem wp_mapBlock (tidy : Tidy s) (h : Mapped sb i s.marked d n n) (hk : k < MAXFILE) :
    wp (mapBlock d k)
      (fun out s' =>
        (Follows s s' ∧ (bmap sb 0 k).Does (view s i d) out.2 (view s' i out.1)) ∨
        ((bmap sb 0 k : FsM Unit Word).Fails (view s i d) ∧ Past s' out.2))
      (fun _ _ => (bmap sb 0 k : FsM Unit Word).Fails (view s i d)) s := by
  unfold mapBlock bmap
  rw [wp_ite]
  constructor
  · intro near
    rw [wp_bind, if_pos near]
    refine wp_total (wp_fillAddr (i := i) tidy (Nat.lt_succ_of_lt near)) ?_
    intro d' s' filled
    rw [wp_pure]
    exact filled
  intro far
  have inside : k - NDIRECT < NINDIRECT := by
    simp only [MAXFILE] at hk
    omega
  rw [wp_bind, if_neg far, if_pos inside]
  refine wp_total (wp_fillAddr (i := i) tidy (Nat.lt_succ_self _)) ?_
  rintro d₁ s₁ (⟨follows, filled⟩ | ⟨fails, past⟩)
  · rw [wp_bind]
    have spec := wp_addrAlloc_indirect (e := 0) (s := view s i d) layout (by simp) h
    obtain ⟨d₂, grown, same⟩ := filled.of_wp spec
    obtain rfl : d₁ = d₂ := by rw [← grown.din, entry_view]
    have tidy₁ := follows.tidy
    have ne : d₁.addr NDIRECT ≠ 0 := by
      rw [Ne, grown.mapped.indirect_eq_zero_iff]
      omega
    obtain ⟨off_map, lt, used, ne_super⟩ := area_of_onDisk grown.mapped (Mapped.onDisk_indirect _ ne)
    rw [wp_rsect lt tidy₁.sectors]
    set c := (d₁.addr NDIRECT).toNat
    rw [wp_ite]
    constructor
    · intro zero
      have sectors : ({ s₁ with freeblock := s₁.freeblock + 1 } : State).sectors = FSSIZE :=
        tidy₁.sectors
      rw [nextBlock, wp_bind, wp_bind, wp_get, wp_bind, wp_modify, wp_pure, wp_bind,
        wp_wsect lt sectors, wp_pure]
      obtain room | full := Nat.lt_or_eq_of_le tidy₁.high
      · left
        refine ⟨⟨(tidy₁.next room).write (Nat.lt_succ_of_lt used) _, follows.freeinode,
          (update_of_ne ne_super ..).trans follows.super⟩,
          filled.bind ((bread_does off_map lt).bind ?_)⟩
        rw [if_pos zero]
        refine (balloc_does tidy₁ room).bind ((log_write_does off_map _).bind ?_)
        rw [Code.Does]
        simp
      · right
        refine ⟨filled.fails ((bread_does off_map lt).fails ?_), tidy₁.sectors,
          (nextWord tidy₁.high).trans full⟩
        rw [if_pos zero]
        exact (balloc_fails full).bind
    · intro some_entry
      rw [wp_pure]
      left
      refine ⟨follows, filled.bind ((bread_does off_map lt).bind ?_)⟩
      rw [if_neg some_entry, Code.Does]
      simp
  · rw [wp_bind]
    exact wp_rsect_past past fails.bind

/-! ## The loop -/

theorem rewrite_does (ne : b ≠ sb.bmapstart) (lt : b < FSSIZE) (f : Block → Block) :
    (Code.atomically do
        let _ ← Fs.bread b
        Fs.log_write b f : FsM Unit Unit).Does (view s i d) ()
      (view { s with disk := update s.disk b (f (s.disk b)) } i d) := by
  rw [Code.Does, wp_alone_atomically, wp_bind, wp_bread_of_lt lt, Fs.log_write, wp_modify,
    view_setBlock ne]
  exact ⟨rfl, rfl⟩

theorem getD_drop (p : List Byte) (r : ℕ) :
    (fun j => (p.drop r).getD j 0) = fun j => p.getD (r + j) 0 := by
  funext j
  simp [List.getD_eq_getElem?_getD]

theorem wp_appendLoop (fuel : ℕ) :
    ∀ {s : State} {d : Dinode} {n : ℕ} (off : ℕ) (p : List Byte), Tidy s →
      Mapped sb i s.marked d n n → p.length ≤ fuel → off ≤ n * BSIZE →
      off + p.length ≤ MAXFILE * BSIZE →
      wp (appendLoop fuel d off p)
        (fun out s' => Follows s s' ∧ out.2 = off + p.length ∧
          (writeLoop sb 0 fuel (fun j => p.getD j 0) off p.length).Does (view s i d) ()
            (view s' i out.1))
        (fun _ _ => (writeLoop sb 0 fuel (fun j => p.getD j 0) off p.length : FsM Unit Unit).Fails
          (view s i d)) s := by
  induction fuel with
  | zero =>
    intro s d n off p tidy h enough start inside
    have none_left : p.length = 0 := Nat.le_zero.1 enough
    rw [appendLoop, wp_pure, writeLoop, none_left, Code.Does, wp_alone_pure]
    exact ⟨⟨tidy, rfl, rfl⟩, rfl, rfl, rfl⟩
  | succ fuel ih =>
    intro s d n off p tidy h enough start inside
    unfold appendLoop writeLoop
    rw [wp_ite]
    constructor
    · intro none_left
      rw [wp_pure, if_pos none_left, none_left, Code.Does, wp_alone_pure]
      exact ⟨⟨tidy, rfl, rfl⟩, rfl, rfl, rfl⟩
    intro some_left
    set r := min p.length (BSIZE - off % BSIZE) with turn
    have n1 : min p.length ((off / BSIZE + 1) * BSIZE - off) = r := by
      simp only [BSIZE] at turn ⊢
      omega
    have o : off - off / BSIZE * BSIZE = off % BSIZE := by
      simp only [BSIZE]
      omega
    have hr : 0 < r ∧ r ≤ p.length ∧ off % BSIZE + r ≤ BSIZE := by
      simp only [BSIZE] at turn ⊢
      omega
    have hk : off / BSIZE < MAXFILE := by
      simp only [BSIZE] at inside ⊢
      omega
    have le : off / BSIZE ≤ n := by
      simp only [BSIZE] at start ⊢
      omega
    rw [if_neg (Nat.not_le.2 hk), if_neg some_left, wp_bind]
    refine wp_mono (wp_mapBlock tidy h hk) ?_ fun _ _ fails => fails.bind
    rintro ⟨d₁, x⟩ s₁ (⟨follows, mapped⟩ | ⟨fails, past⟩)
    · have spec := wp_bmap (e := 0) (s := view s i d) layout (by simp) h le hk
      obtain ⟨d₂, grown, at_k⟩ := mapped.of_wp spec
      obtain rfl : d₁ = d₂ := by rw [← grown.din, entry_view]
      obtain ⟨off_map, lt, used, ne_super⟩ := area_of_onDisk grown.mapped at_k
      have tidy₁ := follows.tidy
      dsimp only at mapped ⊢
      rw [wp_bind, wp_rsect lt tidy₁.sectors, wp_bind, wp_wsect lt tidy₁.sectors, n1, o]
      set buf := copyIn (s₁.disk x.toNat) (off % BSIZE) r fun j => p.getD j 0 with copied
      have wrote := rewrite_does (s := s₁) (i := i) (d := d₁) off_map lt
        fun bp => copyIn bp (off % BSIZE) r fun j => p.getD j 0
      rw [← copied] at wrote
      have kept := (grown.mapped.writeData layout at_k buf).1
      rw [disk_view, ← marked_write off_map] at kept
      have start₁ : off + r ≤ max n (off / BSIZE + 1) * BSIZE := by
        simp only [BSIZE] at hr ⊢
        omega
      have left : (p.drop r).length = p.length - r := List.length_drop
      have later := ih (off + r) (p.drop r) (tidy₁.write used buf) kept (by omega) start₁ (by omega)
      rw [left, getD_drop] at later
      refine wp_mono later ?_ fun _ _ fails => mapped.fails (wrote.fails fails)
      rintro ⟨d₂, off'⟩ s₂ ⟨follows₂, total, rest⟩
      refine ⟨⟨follows₂.tidy, follows₂.freeinode.trans follows.freeinode, ?_⟩, ?_,
        mapped.bind (wrote.bind rest)⟩
      · rw [follows₂.super, ← follows.super]
        exact update_of_ne ne_super ..
      · exact total.trans (by omega)
    · rw [wp_bind]
      exact wp_rsect_past past fails.bind

theorem wp_appendLoop_long (fuel : ℕ) :
    ∀ {s : State} {d : Dinode} (off : ℕ) (p : List Byte), p.length ≤ fuel →
      MAXFILE * BSIZE < off + p.length → off ≤ MAXFILE * BSIZE →
      wp (appendLoop fuel d off p) never anyStop s := by
  induction fuel with
  | zero =>
    intro s d off p enough long start
    omega
  | succ fuel ih =>
    intro s d off p enough long start
    unfold appendLoop
    rw [if_neg (by omega), wp_ite]
    refine ⟨fun _ => (wp_throw ..).2 trivial, fun inside => ?_⟩
    rw [wp_bind]
    refine wp_mono (wp_any _ s) (fun out s₁ _ => ?_) fun _ _ _ => trivial
    rw [wp_bind]
    refine wp_mono (wp_any _ s₁) (fun buf s₂ _ => ?_) fun _ _ _ => trivial
    rw [wp_bind]
    refine wp_mono (wp_any _ s₂) (fun _ s₃ _ => ?_) fun _ _ _ => trivial
    have turn : off + min p.length ((off / BSIZE + 1) * BSIZE - off) ≤ MAXFILE * BSIZE := by
      simp only [BSIZE, MAXFILE] at *
      omega
    refine ih _ _ ?_ ?_ turn
    · rw [List.length_drop]
      simp only [BSIZE] at *
      omega
    rw [List.length_drop]
    simp only [BSIZE] at *
    omega

/-! ## The whole call -/

theorem IBLOCK_ne (hi : i < NINODES) : sb.IBLOCK i ≠ sb.bmapstart := (layout.IBLOCK_lt hi).ne

theorem IBLOCK_lt (hi : i < NINODES) : sb.IBLOCK i < nmeta := layout.IBLOCK_lt_nmeta hi

theorem super_writeInode (disk : Disk) (d : Dinode) : writeInode sb disk i d 1 = disk 1 := by
  have : 2 + nlog ≤ sb.IBLOCK i := Nat.le_add_left ..
  exact update_of_ne (Nat.lt_of_lt_of_le (by decide) this).ne ..

theorem Tidy.writeInode (tidy : Tidy s) (hi : i < NINODES) (d : Dinode) :
    Tidy { s with disk := writeInode sb s.disk i d } :=
  tidy.write ((IBLOCK_lt hi).trans_le tidy.low) _

theorem wp_rinode (tidy : Tidy s) (hi : i < NINODES) {Q : Dinode → State → Prop} :
    wp (rinode i) Q E s ↔ Q (inode sb s.marked i) s := by
  have lt : sb.IBLOCK i < FSSIZE := (IBLOCK_lt hi).trans_le (by decide)
  rw [rinode, wp_bind, wp_rsect lt tidy.sectors, wp_pure, inode_marked hi, inode]

theorem wp_winode (tidy : Tidy s) (hi : i < NINODES) (d : Dinode) {Q : PUnit → State → Prop} :
    wp (winode i d) Q E s ↔ Q ⟨⟩ { s with disk := writeInode sb s.disk i d } := by
  have lt : sb.IBLOCK i < FSSIZE := (IBLOCK_lt hi).trans_le (by decide)
  rw [winode, wp_bind, wp_rsect lt tidy.sectors, wp_wsect lt tidy.sectors, writeInode]

theorem marked_writeInode (hi : i < NINODES) (d : Dinode) :
    ({ s with disk := writeInode sb s.disk i d } : State).marked = writeInode sb s.marked i d := by
  rw [writeInode, writeInode, marked_write (IBLOCK_ne hi), marked_of_ne (IBLOCK_ne hi)]

theorem iupdate_does (hi : i < NINODES) :
    (iupdate sb 0 : FsM Unit Unit).Does (view s i d) ()
      (view { s with disk := writeInode sb s.disk i d } i d) := by
  have lt : sb.IBLOCK i < FSSIZE := (IBLOCK_lt hi).trans_le (by decide)
  rw [Code.Does, iupdate, wp_alone_atomically, wp_bind, wp_get, entry_view, wp_bind,
    wp_bread_of_lt lt, Fs.log_write, wp_modify, view_setBlock (IBLOCK_ne hi)]
  exact ⟨rfl, rfl⟩

/-- `iappend` is `writei` at the end of the file. -/
theorem wp_iappend_writei (tidy : Tidy s) (hi : i < NINODES) (here : inode sb s.marked i = d)
    (file : d.type ≠ T_DEV) (h : Mapped sb i s.marked d (nblk d.size.toNat) (nblk d.size.toNat))
    {p : List Byte} (pos : 0 < p.length) (inside : d.size.toNat + p.length ≤ MAXFILE * BSIZE) :
    wp (iappend i p)
      (fun _ s' => Follows s s' ∧ ∃ d',
        (writei sb () 0 (fun j => p.getD j 0) d.size (BitVec.ofNat 32 p.length)).Does (view s i d)
          (some (BitVec.ofNat 32 p.length)) (view s' i d'))
      (fun _ _ => (writei sb () 0 (fun j => p.getD j 0) d.size (BitVec.ofNat 32 p.length)).Fails
        (view s i d)) s := by
  have short : d.size.toNat + p.length < 2 ^ 32 := by
    have : d.size.toNat + p.length ≤ 71680 := inside
    omega
  have count : (BitVec.ofNat 32 p.length).toNat = p.length := by
    rw [BitVec.toNat_ofNat, Nat.mod_eq_of_lt (by omega)]
  have total : (d.size + BitVec.ofNat 32 p.length).toNat = d.size.toNat + p.length := by
    rw [BitVec.toNat_add, count, Nat.mod_eq_of_lt short]
  have size : d.size + BitVec.ofNat 32 p.length = BitVec.ofNat 32 (d.size.toNat + p.length) := by
    apply BitVec.eq_of_toNat_eq
    rw [total, BitVec.toNat_ofNat, Nat.mod_eq_of_lt short]
  have grows : 0 < BitVec.ofNat 32 p.length ∧ d.size < d.size + BitVec.ofNat 32 p.length := by
    rw [BitVec.lt_def, BitVec.lt_def, total, count]
    exact ⟨pos, by omega⟩
  have fits : ¬ (d.size < d.size ∨ d.size + BitVec.ofNat 32 p.length < d.size) := by
    rw [BitVec.lt_def, BitVec.lt_def, total]
    omega
  unfold writei
  rw [iappend, wp_bind, wp_rinode tidy hi, here, wp_bind]
  have loop := wp_appendLoop p.length d.size.toNat p tidy h le_rfl (nblk_le.1 le_rfl) inside
  refine wp_mono loop ?_ ?_
  · rintro ⟨d₁, off⟩ s₁ ⟨follows, rfl, wrote⟩
    dsimp only at wrote ⊢
    rw [wp_winode follows.tidy hi]
    set d₂ : Dinode := { d₁ with size := BitVec.ofNat 32 (d.size.toNat + p.length) }
    refine ⟨⟨follows.tidy.writeInode hi d₂, follows.freeinode, ?_⟩, d₂, getDin_does.bind ?_⟩
    · exact (super_writeInode (i := i) s₁.disk d₂).trans follows.super
    rw [if_neg file, if_neg fits, total, if_neg (Nat.not_lt.2 inside), count, if_pos grows, size]
    refine wrote.bind (((setDin_does _).bind (iupdate_does hi)).bind ?_)
    rw [Code.Does, wp_alone_pure]
    exact ⟨rfl, rfl⟩
  · intro _ _ fails
    refine getDin_does.fails ?_
    rw [if_neg file, if_neg fits, total, if_neg (Nat.not_lt.2 inside), count]
    exact fails.bind

/-- The bytes `p` have been appended to file `i`. -/
structure Appended (s : State) (i : ℕ) (p : List Byte) (s' : State) : Prop where
  follows : Follows s s'
  consistent : Consistent sb s'.marked
  apart : Apart sb i s.marked s'.marked
  fields : ∃ size a,
    inode sb s'.marked i = { inode sb s.marked i with size := size, addrs := a }
  contents : (inode sb s'.marked i).contents s'.marked =
    (inode sb s.marked i).contents s.marked ++ p
  count : s'.freeblock + blocksOf (inode sb s.marked i).size.toNat =
    s.freeblock + blocksOf ((inode sb s.marked i).size.toNat + p.length)

/-- The file is too long with `p`, or there are not enough blocks for it. -/
def NoSpace (s : State) (i : ℕ) (p : List Byte) : Prop :=
  MAXFILE * BSIZE < (inode sb s.marked i).size.toNat + p.length ∨
    FSSIZE + blocksOf (inode sb s.marked i).size.toNat <
      s.freeblock + blocksOf ((inode sb s.marked i).size.toNat + p.length)

theorem locked_view (consistent : Consistent sb s.marked) (hi : i < NINODES)
    (type : (inode sb s.marked i).type ≠ 0) :
    Locked sb () (view s i (inode sb s.marked i)) 0 (inode sb s.marked i) := by
  constructor <;> (try rw [entry_view]) <;> (try rw [disk_view])
  · exact consistent
  · exact Nat.one_pos
  · exact hi
  · exact type

theorem wp_iappend (tidy : Tidy s) (consistent : Consistent sb s.marked) (hi : i < NINODES)
    (type : (inode sb s.marked i).type ≠ 0) (file : (inode sb s.marked i).type ≠ T_DEV)
    {p : List Byte} (pos : 0 < p.length) :
    wp (iappend i p) (fun _ s' => Appended s i p s') (fun _ _ => NoSpace s i p) s := by
  have locked := locked_view consistent hi type
  set d := inode sb s.marked i with here
  have mapped := locked.mapped
  simp only [entry_view, disk_view] at mapped
  have room : d.size.toNat ≤ MAXFILE * BSIZE := nblk_le.1 mapped.le_maxfile
  by_cases inside : d.size.toNat + p.length ≤ MAXFILE * BSIZE
  swap
  · rw [iappend, wp_bind, wp_rinode tidy hi, ← here, wp_bind]
    exact wp_mono (wp_appendLoop_long _ _ _ le_rfl (Nat.not_le.1 inside) room)
      (fun _ _ => False.elim) fun _ _ _ => .inl (Nat.not_le.1 inside)
  have few : d.size.toNat + p.length ≤ 71680 := inside
  have count : (BitVec.ofNat 32 p.length).toNat = p.length := by
    rw [BitVec.toNat_ofNat, Nat.mod_eq_of_lt (by omega)]
  have content : contentOf s.marked d = .file (d.contents s.marked) := if_neg file
  have source : (List.range p.length).map (fun j => p.getD j 0) = p := by
    apply List.ext_getElem
    · simp
    intro j _ hj
    simp [List.getD_eq_getElem?_getD, hj]
  have written : (contentOf s.marked d).writei (fun j => p.getD j 0) d.size
      (BitVec.ofNat 32 p.length) = some (.file (d.contents s.marked ++ p)) := by
    rw [content, Content.writei, length_contents, count, if_neg, source, List.take_of_length_le,
      List.drop_eq_nil_of_le, List.append_nil]
    · rw [length_contents]
      omega
    · rw [length_contents]
    simp only [not_or, not_lt, not_le]
    exact ⟨le_rfl, by omega, inside⟩
  have spec := wp_writei layout locked (fun j => p.getD j 0) d.size (BitVec.ofNat 32 p.length)
  simp only [disk_view, written] at spec
  refine wp_mono (wp_iappend_writei tidy hi here.symm file mapped pos inside) ?_ ?_
  · rintro _ s' ⟨follows, d', run⟩
    obtain ⟨-, d₁, updated⟩ := run.of_wp spec
    have here' : inode sb s'.marked i = d₁ := by simpa using updated.here
    have apart : Apart sb i s.marked s'.marked := by simpa using updated.apart
    obtain ⟨size, a, fields⟩ := updated.fields
    have type' : d₁.type ≠ T_DEV := by rw [fields]; exact file
    have contents : Content.file (d₁.contents s'.marked) = .file (d.contents s.marked ++ p) := by
      rw [← updated.content, contentOf, if_neg type', disk_view]
    have blocks := updated.count
    rw [disk_view, disk_view, content, Content.blocks, Content.blocks, length_contents,
      List.length_append, length_contents, freeBlocks_marked tidy,
      freeBlocks_marked follows.tidy] at blocks
    have := tidy.high
    have := follows.tidy.high
    refine ⟨follows, updated.consistent, apart, ⟨size, a, here'.trans fields⟩, ?_, ?_⟩
    · rw [here']
      exact Content.file.inj contents
    rw [← here]
    omega
  · intro _ _ fails
    obtain ⟨_, _, -, c, same, short⟩ := fails.of_wp spec
    obtain rfl := Option.some.inj same
    rw [content, Content.blocks, Content.blocks, length_contents, List.length_append,
      length_contents, freeBlocks_marked tidy] at short
    have := tidy.high
    right
    rw [← here]
    omega

end Xv6.Mkfs
