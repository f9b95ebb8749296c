import Xv6.Disk.Block

/-!
# The on-disk format of the file system

The disk is laid out as boot block, super block, log, inode blocks, free map and data blocks. 
`inode` and `inUse` read the inodes and the free map out of the raw blocks; `writeInode` and
`Block.setBit` change them.

The `k`-th block of a file is `addrs[k]` for `k < NDIRECT` and then an entry of the indirect block
`addrs[NDIRECT]`; a zero address is no block.
-/

namespace Xv6

open Function

variable {b i j k : ℕ}

abbrev NDIRECT : ℕ := 12

abbrev NINDIRECT : ℕ := BSIZE / 4

abbrev MAXFILE : ℕ := NDIRECT + NINDIRECT

abbrev IPB : ℕ := BSIZE / 64

abbrev BPB : ℕ := BSIZE * 8

abbrev DIRSIZ : ℕ := 14

abbrev DESIZE : ℕ := 2 + DIRSIZ

abbrev ROOTINO : ℕ := 1

/-- A `short` or `ushort`. -/
abbrev Short := BitVec 16

abbrev T_DIR : Short := 1
abbrev T_FILE : Short := 2
abbrev T_DEV : Short := 3

/-- The super block; the position and size of the log are not used here. -/
structure Superblock where
  size : ℕ
  nblocks : ℕ
  ninodes : ℕ
  inodestart : ℕ
  bmapstart : ℕ

namespace Superblock

variable (sb : Superblock)

def IBLOCK (i : ℕ) : ℕ := i / IPB + sb.inodestart

/-- Block of the free map containing the bit for block `b`. -/
def BBLOCK (b : ℕ) : ℕ := b / BPB + sb.bmapstart

/-- The first data block. -/
def nmeta : ℕ := sb.size - sb.nblocks

/-- The order in which `mkfs` places the parts of the disk. -/
structure Layout : Prop where
  nblocks_le : sb.nblocks ≤ sb.size
  size_le : sb.size ≤ FSSIZE
  root : ROOTINO < sb.ninodes
  inodes : sb.inodestart + sb.ninodes / IPB < sb.bmapstart
  bitmap : sb.bmapstart + sb.size / BPB < sb.nmeta

variable {sb}

theorem nmeta_le : sb.nmeta ≤ sb.size := Nat.sub_le ..

theorem Layout.IBLOCK_lt (h : sb.Layout) (hi : i < sb.ninodes) : sb.IBLOCK i < sb.bmapstart := by
  have := h.inodes
  have : i / IPB ≤ sb.ninodes / IPB := Nat.div_le_div_right hi.le
  unfold IBLOCK
  omega

theorem bmapstart_le_BBLOCK (b : ℕ) : sb.bmapstart ≤ sb.BBLOCK b := Nat.le_add_left ..

theorem Layout.BBLOCK_lt (h : sb.Layout) (hb : b < sb.size) : sb.BBLOCK b < sb.nmeta := by
  have := h.bitmap
  have : b / BPB ≤ sb.size / BPB := Nat.div_le_div_right hb.le
  unfold BBLOCK
  omega

theorem Layout.IBLOCK_lt_nmeta (h : sb.Layout) (hi : i < sb.ninodes) : sb.IBLOCK i < sb.nmeta := by
  have := h.IBLOCK_lt hi
  have : sb.bmapstart ≤ sb.bmapstart + sb.size / BPB := Nat.le_add_right ..
  have := h.bitmap
  omega

theorem Layout.IBLOCK_ne_BBLOCK (h : sb.Layout) (hi : i < sb.ninodes) (b : ℕ) :
    sb.IBLOCK i ≠ sb.BBLOCK b :=
  (Nat.lt_of_lt_of_le (h.IBLOCK_lt hi) (bmapstart_le_BBLOCK b)).ne

end Superblock

/-! ## Inodes -/

@[ext]
structure Dinode where
  type : Short
  major : Short
  minor : Short
  nlink : Short
  size : Word
  addrs : Fin (NDIRECT + 1) → Word

namespace Dinode

def addr (d : Dinode) (k : ℕ) : Word := if h : k < NDIRECT + 1 then d.addrs ⟨k, h⟩ else 0

def setAddr (d : Dinode) (k : ℕ) (w : Word) : Dinode :=
  { d with addrs := fun j => if j.val = k then w else d.addrs j }

theorem addr_setAddr (d : Dinode) (k j : ℕ) (w : Word) (hj : j < NDIRECT + 1) :
    (d.setAddr k w).addr j = if j = k then w else d.addr j := by
  simp [addr, setAddr, hj]

/-- The inode as 16 words: the four shorts, the size and the addresses. -/
def word (d : Dinode) : ℕ → Word
  | 0 => d.major ++ d.type
  | 1 => d.nlink ++ d.minor
  | 2 => d.size
  | k + 3 => d.addr k

/-- The inode whose 16 words are given. -/
def ofWords (f : ℕ → Word) : Dinode where
  type := (f 0).extractLsb' 0 16
  major := (f 0).extractLsb' 16 16
  minor := (f 1).extractLsb' 0 16
  nlink := (f 1).extractLsb' 16 16
  size := f 2
  addrs := fun k => f (k.val + 3)

theorem ofWords_word (d : Dinode) (f : ℕ → Word) (h : ∀ k < 16, f k = d.word k) :
    ofWords f = d := by
  ext1
  · rw [ofWords, h 0 (by decide), word, BitVec.extractLsb'_append_eq_right]
  · rw [ofWords, h 0 (by decide), word, BitVec.extractLsb'_append_eq_left]
  · rw [ofWords, h 1 (by decide), word, BitVec.extractLsb'_append_eq_right]
  · rw [ofWords, h 1 (by decide), word, BitVec.extractLsb'_append_eq_left]
  · rw [ofWords, h 2 (by decide), word]
  funext k
  have hk : k.val < 13 := k.isLt
  show f (k.val + 3) = _
  rw [h (k.val + 3) (by omega), word, addr, dif_pos k.isLt]

end Dinode

namespace Block

/-- The inode in slot `j` of an inode block. -/
def dinode (b : Block) (j : ℕ) : Dinode := Dinode.ofWords fun k => b.word (16 * j + k)

def setDinode (b : Block) (j : ℕ) (d : Dinode) : Block := fun k =>
  if k.val / 64 = j then (d.word (k.val % 64 / 4)).extractLsb' (8 * (k.val % 4)) 8 else b k

theorem byte_setDinode (b : Block) (j : ℕ) (d : Dinode) (k : ℕ) (hk : k < BSIZE) :
    (b.setDinode j d).byte k =
      if k / 64 = j then (d.word (k % 64 / 4)).extractLsb' (8 * (k % 4)) 8 else b.byte k := by
  simp [byte, setDinode, hk]

theorem word_setDinode_same (b : Block) (d : Dinode) (hj : j < IPB) (hk : k < 16) :
    (b.setDinode j d).word (16 * j + k) = d.word k := by
  simp only [IPB, BSIZE] at hj
  unfold word
  rw [byte_setDinode _ _ _ _ (by simp only [BSIZE]; omega),
    byte_setDinode _ _ _ _ (by simp only [BSIZE]; omega),
    byte_setDinode _ _ _ _ (by simp only [BSIZE]; omega),
    byte_setDinode _ _ _ _ (by simp only [BSIZE]; omega),
    if_pos (by omega), if_pos (by omega), if_pos (by omega), if_pos (by omega),
    show (4 * (16 * j + k) + 3) % 64 / 4 = k by omega,
    show (4 * (16 * j + k) + 2) % 64 / 4 = k by omega,
    show (4 * (16 * j + k) + 1) % 64 / 4 = k by omega,
    show 4 * (16 * j + k) % 64 / 4 = k by omega,
    show (4 * (16 * j + k) + 3) % 4 = 3 by omega, show (4 * (16 * j + k) + 2) % 4 = 2 by omega,
    show (4 * (16 * j + k) + 1) % 4 = 1 by omega, show 4 * (16 * j + k) % 4 = 0 by omega]
  exact Lib.ofBytes_leBytes _

theorem word_setDinode_ne (b : Block) (d : Dinode) (ne : i ≠ j) (hi : i < IPB) (hk : k < 16) :
    (b.setDinode j d).word (16 * i + k) = b.word (16 * i + k) := by
  simp only [IPB, BSIZE] at hi
  unfold word
  rw [byte_setDinode _ _ _ _ (by simp only [BSIZE]; omega),
    byte_setDinode _ _ _ _ (by simp only [BSIZE]; omega),
    byte_setDinode _ _ _ _ (by simp only [BSIZE]; omega),
    byte_setDinode _ _ _ _ (by simp only [BSIZE]; omega),
    if_neg (by omega), if_neg (by omega), if_neg (by omega), if_neg (by omega)]

theorem dinode_setDinode_same (b : Block) (d : Dinode) (hj : j < IPB) :
    (b.setDinode j d).dinode j = d :=
  Dinode.ofWords_word d _ fun _ hk => word_setDinode_same b d hj hk

theorem ofWords_congr {f g : ℕ → Word} (h : ∀ k < 16, f k = g k) :
    Dinode.ofWords f = Dinode.ofWords g := by
  unfold Dinode.ofWords
  rw [h 0 (by decide), h 1 (by decide), h 2 (by decide)]
  congr 1
  funext k
  have hk : k.val < 13 := k.isLt
  exact h _ (by omega)

theorem dinode_setDinode_ne (b : Block) (d : Dinode) (ne : i ≠ j) (hi : i < IPB) :
    (b.setDinode j d).dinode i = b.dinode i :=
  ofWords_congr fun _ hk => word_setDinode_ne b d ne hi hk

end Block

variable (sb : Superblock)

def inode (disk : Disk) (i : ℕ) : Dinode := (disk (sb.IBLOCK i)).dinode (i % IPB)

def writeInode (disk : Disk) (i : ℕ) (d : Dinode) : Disk :=
  update disk (sb.IBLOCK i) ((disk (sb.IBLOCK i)).setDinode (i % IPB) d)

def inUse (disk : Disk) (b : ℕ) : Bool := (disk (sb.BBLOCK b)).bit (b % BPB)

def setInUse (disk : Disk) (b : ℕ) (v : Bool) : Disk :=
  update disk (sb.BBLOCK b) ((disk (sb.BBLOCK b)).setBit (b % BPB) v)

section Frames

variable {sb} {disk : Disk}

theorem inode_writeInode_same (i : ℕ) (d : Dinode) : inode sb (writeInode sb disk i d) i = d := by
  rw [inode, writeInode, update_self]
  exact Block.dinode_setDinode_same _ _ (Nat.mod_lt _ (by decide))

theorem inode_writeInode_ne (d : Dinode) (ne : i ≠ j) :
    inode sb (writeInode sb disk j d) i = inode sb disk i := by
  unfold inode writeInode
  by_cases same : sb.IBLOCK i = sb.IBLOCK j
  · rw [same, update_self, Block.dinode_setDinode_ne _ _ _ (Nat.mod_lt _ (by decide))]
    simp only [Superblock.IBLOCK, IPB, BSIZE] at same ⊢
    omega
  · rw [update_of_ne same]

theorem inUse_setInUse (b c : ℕ) (v : Bool) :
    inUse sb (setInUse sb disk b v) c = if c = b then v else inUse sb disk c := by
  unfold inUse setInUse
  by_cases same : sb.BBLOCK c = sb.BBLOCK b
  · rw [same, update_self, Block.bit_setBit _ _ _ _ (by
      have : c % BPB < BPB := Nat.mod_lt _ (by decide)
      simp only [BPB] at this
      omega)]
    have : c % BPB = b % BPB ↔ c = b := by
      simp only [Superblock.BBLOCK, BPB, BSIZE] at same ⊢
      omega
    simp only [this]
  · rw [update_of_ne same, if_neg (by rintro rfl; exact same rfl)]

variable (h : sb.Layout)
include h

theorem writeInode_data (hi : i < sb.ninodes) (d : Dinode) (hb : sb.nmeta ≤ b) :
    writeInode sb disk i d b = disk b :=
  update_of_ne (Nat.lt_of_lt_of_le (h.IBLOCK_lt_nmeta hi) hb).ne' ..

theorem inUse_writeInode (hi : i < sb.ninodes) (d : Dinode) (b : ℕ) :
    inUse sb (writeInode sb disk i d) b = inUse sb disk b := by
  rw [inUse, writeInode, update_of_ne (h.IBLOCK_ne_BBLOCK hi b).symm, inUse]

theorem setInUse_data (hb : b < sb.size) (v : Bool) {c : ℕ} (hc : sb.nmeta ≤ c) :
    setInUse sb disk b v c = disk c :=
  update_of_ne (Nat.lt_of_lt_of_le (h.BBLOCK_lt hb) hc).ne' ..

theorem inode_setInUse (hi : i < sb.ninodes) (b : ℕ) (v : Bool) :
    inode sb (setInUse sb disk b v) i = inode sb disk i := by
  rw [inode, setInUse, update_of_ne (h.IBLOCK_ne_BBLOCK hi b), inode]

theorem inode_update_data (hi : i < sb.ninodes) (hb : sb.nmeta ≤ b) (x : Block) :
    inode sb (update disk b x) i = inode sb disk i := by
  rw [inode, update_of_ne (Nat.lt_of_lt_of_le (h.IBLOCK_lt_nmeta hi) hb).ne, inode]

theorem inUse_update_data {c : ℕ} (hc : c < sb.size) (hb : sb.nmeta ≤ b) (x : Block) :
    inUse sb (update disk b x) c = inUse sb disk c := by
  rw [inUse, update_of_ne (Nat.lt_of_lt_of_le (h.BBLOCK_lt hc) hb).ne, inUse]

end Frames

/-! ## The blocks of a file -/

/-- The places of a file that hold a block address. -/
inductive FilePos where
  | data (k : ℕ)
  | indirect
  deriving DecidableEq

def ptr (w : Word) : Option ℕ := if w = 0 then none else some w.toNat

/-- The blocks of an inode whose indirect block has the entries `ind`. -/
def Dinode.blocks (d : Dinode) (ind : ℕ → Word) : FilePos → Option ℕ
  | .data k =>
      if k < NDIRECT then ptr (d.addr k)
      else if k < MAXFILE ∧ d.addr NDIRECT ≠ 0 then ptr (ind (k - NDIRECT))
      else none
  | .indirect => ptr (d.addr NDIRECT)

theorem ptr_of_ne {w : Word} (ne : w ≠ 0) : ptr w = some w.toNat := if_neg ne

theorem ptr_zero : ptr 0 = none := if_pos rfl

theorem ptr_isSome {w : Word} : (ptr w).isSome ↔ w ≠ 0 := by
  by_cases zero : w = 0
  · rw [zero, ptr_zero]
    simp
  rw [ptr_of_ne zero]
  exact ⟨fun _ => zero, fun _ => rfl⟩

theorem Dinode.blocks_setAddr (d : Dinode) (ind : ℕ → Word) (a : Word) (hk : k < NDIRECT) :
    (d.setAddr k a).blocks ind = update (d.blocks ind) (.data k) (ptr a) := by
  have far : (d.setAddr k a).addr NDIRECT = d.addr NDIRECT := by
    rw [addr_setAddr _ _ _ _ (by decide), if_neg hk.ne']
  funext p
  cases p with
  | indirect => simp [blocks, far]
  | data j =>
    by_cases j_k : j = k
    · subst j_k
      have : j < NDIRECT + 1 := Nat.lt_succ_of_lt hk
      simp [blocks, hk, addr_setAddr, this]
    rw [update_of_ne (by simpa using j_k)]
    by_cases hj : j < NDIRECT
    · have : j < NDIRECT + 1 := Nat.lt_succ_of_lt hj
      simp [blocks, hj, addr_setAddr, this, j_k]
    · simp [blocks, hj, far]

theorem Dinode.blocks_setAddr_indirect (d : Dinode) (ind ind' : ℕ → Word) {a : Word} (ne : a ≠ 0)
    (none_d : d.addr NDIRECT = 0) (zero : ∀ j, ind' j = 0) :
    (d.setAddr NDIRECT a).blocks ind' =
      update (d.blocks ind) .indirect (some a.toNat) := by
  funext p
  cases p with
  | indirect =>
    rw [update_self, blocks, addr_setAddr _ _ _ _ (by decide), if_pos rfl, ptr_of_ne ne]
  | data j =>
    rw [update_of_ne (by simp)]
    by_cases hj : j < NDIRECT
    · have : j < NDIRECT + 1 := Nat.lt_succ_of_lt hj
      simp [blocks, hj, addr_setAddr, this, hj.ne]
    simp only [blocks, hj, if_false, none_d, zero, ptr_zero, ite_self, ne_eq, not_true_eq_false,
      and_false]

theorem Dinode.blocks_setInd (d : Dinode) (ind : ℕ → Word) (a : Word) (hj : j < NINDIRECT)
    (some_d : d.addr NDIRECT ≠ 0) :
    d.blocks (update ind j a) =
      update (d.blocks ind) (.data (NDIRECT + j)) (ptr a) := by
  funext p
  cases p with
  | indirect => rfl
  | data k =>
    by_cases k_j : k = NDIRECT + j
    · subst k_j
      have : NDIRECT + j < MAXFILE := by
        simp only [MAXFILE]
        omega
      rw [update_self, blocks, if_neg (by omega), if_pos ⟨this, some_d⟩,
        Nat.add_sub_cancel_left, update_self]
    rw [update_of_ne (by simpa using k_j)]
    by_cases hk : k < NDIRECT
    · simp [blocks, hk]
    have : k - NDIRECT ≠ j := by omega
    simp [blocks, hk, this]

def Dinode.onDisk (d : Dinode) (disk : Disk) : FilePos → Option ℕ :=
  d.blocks (disk (d.addr NDIRECT).toNat).word

def nblk (n : ℕ) : ℕ := (n + BSIZE - 1) / BSIZE

/-- The first `n` data places hold a block and no others, with an indirect block if they need one.
-/
structure Extent (f : FilePos → Option ℕ) (n : ℕ) : Prop where
  data : ∀ k, (f (.data k)).isSome ↔ k < n
  indirect : (f .indirect).isSome ↔ NDIRECT < n

/-- Directory entry `r` of a block of a directory: the inode number in its first two bytes. -/
def Block.deInum (b : Block) (r : ℕ) : ℕ := (b.byte (DESIZE * r + 1) ++ b.byte (DESIZE * r)).toNat

/-- The inode numbers in a block of a directory exist. -/
def DirOk (sb : Superblock) (b : Block) : Prop := ∀ r < BSIZE / DESIZE, b.deInum r < sb.ninodes

/-- Every block of the disk has one owner at most: what holds of the disk between operations. -/
structure Consistent (disk : Disk) : Prop where
  /-- The size of an allocated inode says which of its addresses are there. -/
  extent : ∀ i < sb.ninodes, (inode sb disk i).type ≠ 0 →
    Extent ((inode sb disk i).onDisk disk) (nblk (inode sb disk i).size.toNat)
  distinct : ∀ i < sb.ninodes, ∀ j < sb.ninodes, (inode sb disk i).type ≠ 0 →
    (inode sb disk j).type ≠ 0 → ∀ p q b, (inode sb disk i).onDisk disk p = some b →
      (inode sb disk j).onDisk disk q = some b → i = j ∧ p = q
  area : ∀ i < sb.ninodes, (inode sb disk i).type ≠ 0 → ∀ p b,
    (inode sb disk i).onDisk disk p = some b → sb.nmeta ≤ b ∧ b < sb.size
  /-- The free map marks the metadata and the blocks of files, and nothing else. -/
  bitmap : ∀ b < sb.size, inUse sb disk b = true ↔ b < sb.nmeta ∨
    ∃ i < sb.ninodes, (inode sb disk i).type ≠ 0 ∧ ∃ p, (inode sb disk i).onDisk disk p = some b

/-- The entries of every directory name inodes that exist. -/
def DirsOk (disk : Disk) : Prop :=
  ∀ i < sb.ninodes, (inode sb disk i).type = T_DIR → ∀ k b,
    (inode sb disk i).onDisk disk (.data k) = some b → DirOk sb (disk b)

end Xv6
