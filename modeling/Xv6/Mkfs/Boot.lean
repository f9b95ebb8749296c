import Xv6.Fs.Path
import Xv6.Mkfs.Image

/-!
# The kernel reads the image

A kernel that has just booted from an image of `mkfs` finds every input file under its name and
reads its bytes.  The root directory may lack its last block, so nothing here asks for a consistent
disk: all entries lie in blocks that are there.
-/

set_option linter.unusedSectionVars false

namespace Xv6.Mkfs

open Lib Fs

attribute [local irreducible] wp exec

variable {T : Type} [DecidableEq T] {t : T} {s s' : Fs.State T} {e ip : Fin NINODE} {d : Dinode}
  {files : List HostFile} {file : HostFile} {disk : Disk} {i j k n : ℕ}

/-! ## Reading through a part of the block map -/

theorem wp_readi_of_mapped (din : (s.icache e).din = d) (file : d.type ≠ T_DEV)
    (h : Mapped sb i s.disk d k k) {off n : Word} (inside : off.toNat + n.toNat ≤ d.size.toNat)
    (there : off.toNat + n.toNat ≤ k * BSIZE) :
    wp (readi sb t e off n).alone
      (fun r s' => s' = s ∧
        r = some ((List.range n.toNat).map fun j => d.byte s.disk (off.toNat + j))) never s := by
  have short := d.size.isLt
  have total : (off + n).toNat = off.toNat + n.toNat := by
    rw [BitVec.toNat_add, Nat.mod_eq_of_lt (by omega)]
  have fits : ¬ (d.size < off ∨ off + n < off) := by
    rw [BitVec.lt_def, BitVec.lt_def, total]
    omega
  have count : ¬ d.size < off + n := by
    rw [BitVec.lt_def, total]
    omega
  rw [readi, wp_alone_bind, wp_getDin, din, if_neg file, if_neg fits, if_neg count, wp_alone_map]
  refine wp_total (wp_readLoop layout din h _ _ _ le_rfl there) ?_
  rintro r s' ⟨rfl, rfl⟩
  exact ⟨rfl, rfl⟩

theorem wp_scanDir_found (msg : String) (found : List Byte → Bool) (de : ℕ → List Byte)
    (din : (s.icache e).din = d) (inside : DESIZE * j < d.size.toNat)
    (read : ∀ r ≤ j, wp (readi sb t e (BitVec.ofNat 32 (DESIZE * r)) (DESIZE : Word)).alone
      (fun out s' => s' = s ∧ out = some (de r)) never s)
    (length : ∀ r ≤ j, (de r).length = DESIZE) (hit : found (de j) = true)
    (miss : ∀ r < j, found (de r) = false) (fuel r : ℕ) (le : r ≤ j) (enough : j - r < fuel) :
    wp (scanDir sb t e msg found fuel (DESIZE * r)).alone
      (fun out s' => s' = s ∧ out = (DESIZE * j, some (deInum (de j)))) never s := by
  induction fuel generalizing r with
  | zero => omega
  | succ fuel ih =>
    have before : DESIZE * r ≤ DESIZE * j := Nat.mul_le_mul_left _ le
    unfold scanDir
    rw [wp_alone_bind, wp_getDin, din, if_pos (by omega), wp_alone_bind]
    refine wp_total (read r le) ?_
    rintro out s' ⟨rfl, rfl⟩
    dsimp only
    rw [if_neg (not_not.2 (length r le))]
    obtain rfl | lt := Nat.eq_or_lt_of_le le
    · rw [if_pos hit, wp_alone_pure]
      exact ⟨rfl, rfl⟩
    rw [if_neg (by rw [miss r lt]; exact Bool.false_ne_true),
      show DESIZE * r + DESIZE = DESIZE * (r + 1) from rfl]
    exact ih (r + 1) lt (by omega)

/-! ## The entries of the root directory -/

def rootEntries (files : List HostFile) : List (List Byte) :=
  newEntry dot ROOTINO :: newEntry dotdot ROOTINO ::
    files.zipIdx.map fun (file, k) => newEntry file.name (k + 2)

theorem flatten_rootEntries : (rootEntries files).flatten = rootBytes files := by
  simp [rootEntries, rootBytes]

theorem entry_flatten : ∀ {l : List (List Byte)} {r : ℕ} {de : List Byte},
    (∀ x ∈ l, x.length = DESIZE) → l[r]? = some de → entry l.flatten r = de
  | [], _, _, _, at_r => by simp at at_r
  | x :: l, 0, de, len, at_r => by
      obtain rfl : x = de := by simpa using at_r
      rw [entry, List.flatten_cons, Nat.mul_zero, List.drop_zero]
      exact List.take_left' (len x List.mem_cons_self)
  | x :: l, r + 1, de, len, at_r => by
      have rest := entry_flatten (l := l) (fun y hy => len y (List.mem_cons_of_mem _ hy))
        (by simpa using at_r)
      rw [← rest, entry, entry, List.flatten_cons, Nat.mul_succ, Nat.add_comm, ← List.drop_drop,
        List.drop_left' (len x List.mem_cons_self)]

theorem length_of_mem_rootEntries {de : List Byte} (mem : de ∈ rootEntries files) :
    de.length = DESIZE := by
  obtain rfl | rfl | mem : de = newEntry dot ROOTINO ∨ de = newEntry dotdot ROOTINO ∨
      de ∈ files.zipIdx.map fun x => newEntry x.1.name (x.2 + 2) := by
    simpa [rootEntries] using mem
  · exact length_newEntry ..
  · exact length_newEntry ..
  obtain ⟨_, -, rfl⟩ := List.mem_map.1 mem
  exact length_newEntry ..

theorem length_rootEntries : (rootEntries files).length = files.length + 2 := by
  simp [rootEntries]

def HostFile.entryName (file : HostFile) : List Byte := file.name.take DIRSIZ

theorem zero_notMem_name (file : HostFile) : (0 : Byte) ∉ file.name := by
  have := file.terminated
  unfold HostFile.name
  split
  · exact fun mem => this (List.mem_of_mem_tail mem)
  · exact this

theorem nameOf_name (file : HostFile) : nameOf file.name = file.entryName := by
  refine List.takeWhile_eq_self_iff.2 fun c mem => ?_
  have : c ≠ 0 := fun zero => zero_notMem_name file (zero ▸ List.mem_of_mem_take mem)
  simpa using this

theorem nameOf_entryName (file : HostFile) : nameOf file.entryName = file.entryName := by
  rw [← nameOf_name, nameOf, nameOf]
  have := nameOf_name file
  rw [nameOf, HostFile.entryName] at this
  rw [this, List.take_of_length_le (List.length_take_le ..), this]

theorem found_newEntry {name nm : List Byte} {inum : ℕ} (pos : 0 < inum) (small : inum < 2 ^ 16) :
    (decide (deInum (newEntry nm inum) ≠ 0) && namecmp name ((newEntry nm inum).drop 2)) =
      decide (nameOf name = nameOf nm) := by
  rw [deInum_newEntry small, namecmp, nameOf_newEntry]
  simp [Nat.pos_iff_ne_zero.1 pos]

/-! ## Looking up a file -/

theorem readsb_image (image : Image files disk) : readsb disk = sb := by
  rw [readsb, image.super]
  rfl

theorem wp_readRoot (image : Image files s.disk) (din : (s.icache e).din = inode sb s.disk ROOTINO)
    {r : ℕ} {de : List Byte} (few : files.length + 1 < NINODES)
    (at_r : (rootEntries files)[r]? = some de) :
    wp (readi sb t e (BitVec.ofNat 32 (DESIZE * r)) (DESIZE : Word)).alone
      (fun out s' => s' = s ∧ out = some de) never s := by
  have lt : r < files.length + 2 := by
    rw [← length_rootEntries]
    exact (List.getElem?_eq_some_iff.1 at_r).1
  have len := length_rootBytes files
  have inside : DESIZE * r + DESIZE ≤ (rootBytes files).length := by
    rw [len]
    exact Nat.mul_le_mul_left DESIZE lt
  have off : (BitVec.ofNat 32 (DESIZE * r)).toNat = DESIZE * r := by
    rw [BitVec.toNat_ofNat, Nat.mod_eq_of_lt]
    simp only [DESIZE, DIRSIZ, NINODES] at *
    omega
  have count : (DESIZE : Word).toNat = DESIZE := by decide
  have below : (rootBytes files).length ≤ (inode sb s.disk ROOTINO).size.toNat := by
    rw [image.size]
    simp only [BSIZE]
    omega
  refine wp_total (wp_readi_of_mapped din (by rw [image.dir]; decide) image.root ?_ ?_) ?_
  · rw [off, count]
    exact inside.trans below
  · rw [off, count]
    exact inside.trans (nblk_le.1 le_rfl)
  rintro out s' ⟨rfl, rfl⟩
  refine ⟨rfl, congrArg some ?_⟩
  rw [off, count, ← entry_flatten (fun x => length_of_mem_rootEntries) at_r, flatten_rootEntries,
    ← image.bytes, entry]
  apply List.ext_getElem
  · rw [List.length_map, List.length_range, List.length_take, List.length_drop, List.length_map,
      List.length_range]
    omega
  intro k _ _
  simp

theorem getElem?_rootEntries (at_j : files[j]? = some file) :
    (rootEntries files)[j + 2]? = some (newEntry file.name (j + 2)) := by
  simp [rootEntries, List.getElem?_zipIdx, at_j]

theorem miss_before (few : files.length + 1 < NINODES)
    (distinct : files.Pairwise fun a b => a.entryName ≠ b.entryName)
    (special : file.entryName ≠ dot ∧ file.entryName ≠ dotdot) (at_j : files[j]? = some file)
    {r : ℕ} {de : List Byte} (lt : r < j + 2) (at_r : (rootEntries files)[r]? = some de) :
    (decide (deInum de ≠ 0) && namecmp file.entryName (de.drop 2)) = false := by
  have hj := (List.getElem?_eq_some_iff.1 at_j).1
  match r with
  | 0 =>
    obtain rfl : newEntry dot ROOTINO = de := by simpa [rootEntries] using at_r
    rw [found_newEntry (by decide) (by decide), nameOf_entryName]
    exact decide_eq_false special.1
  | 1 =>
    obtain rfl : newEntry dotdot ROOTINO = de := by simpa [rootEntries] using at_r
    rw [found_newEntry (by decide) (by decide), nameOf_entryName]
    exact decide_eq_false special.2
  | r + 2 =>
    have lt : r < j := by omega
    obtain ⟨other, at_other⟩ : ∃ other, files[r]? = some other :=
      ⟨_, List.getElem?_eq_getElem (lt.trans hj)⟩
    rw [getElem?_rootEntries at_other] at at_r
    obtain rfl := Option.some.inj at_r
    rw [found_newEntry (by omega) (by simp only [NINODES] at few; omega), nameOf_entryName,
      nameOf_name]
    obtain ⟨hr, rfl⟩ := List.getElem?_eq_some_iff.1 at_other
    obtain ⟨hj, rfl⟩ := List.getElem?_eq_some_iff.1 at_j
    exact decide_eq_false (List.pairwise_iff_getElem.1 distinct r j hr hj lt).symm

theorem wp_dirlookup_root (image : Image files s.disk)
    (din : (s.icache e).din = inode sb s.disk ROOTINO) (few : files.length + 1 < NINODES)
    (distinct : files.Pairwise fun a b => a.entryName ≠ b.entryName)
    (special : file.entryName ≠ dot ∧ file.entryName ≠ dotdot) (at_j : files[j]? = some file)
    (room : ∃ x, (s.icache x).ref = 0) :
    wp (dirlookup sb t e file.entryName).alone
      (fun out s' => ∃ off ip, out = some (off, ip) ∧ Fs.Got s (j + 2) ip s') never s := by
  have hj := (List.getElem?_eq_some_iff.1 at_j).1
  have len := length_rootBytes files
  have small : j + 2 < 2 ^ 16 := by
    simp only [NINODES] at few
    omega
  set de : ℕ → List Byte := fun r => ((rootEntries files)[r]?).getD []
  have present (r : ℕ) (hr : r ≤ j + 2) : (rootEntries files)[r]? = some (de r) := by
    have : r < (rootEntries files).length := by
      rw [length_rootEntries]
      omega
    simp [de, List.getElem?_eq_getElem this]
  have last : de (j + 2) = newEntry file.name (j + 2) :=
    Option.some.inj ((present _ le_rfl).symm.trans (getElem?_rootEntries at_j))
  have inside : DESIZE * (j + 2) < (inode sb s.disk ROOTINO).size.toNat := by
    rw [image.size, len]
    simp only [BSIZE, DESIZE, DIRSIZ]
    omega
  have scan := wp_scanDir_found (t := t) "dirlookup read"
    (fun de => decide (deInum de ≠ 0) && namecmp file.entryName (de.drop 2)) de
    din inside (fun r hr => wp_readRoot image din few (present r hr))
    (fun r hr => length_of_mem_rootEntries (List.mem_of_getElem? (present r hr)))
    (by rw [last, found_newEntry (by omega) small, nameOf_entryName, nameOf_name]; simp)
    (fun r hr => miss_before few distinct special at_j hr (present r hr.le))
    ((inode sb s.disk ROOTINO).size.toNat / DESIZE + 1) 0 (Nat.zero_le _)
    (Nat.lt_succ_of_le ((Nat.le_div_iff_mul_le (by decide)).2 (by rw [Nat.mul_comm]; exact inside.le)))
  rw [dirlookup, wp_alone_bind, wp_getDin, din, if_neg (not_not.2 image.dir), wp_alone_bind]
  refine wp_total scan ?_
  rintro _ s' ⟨rfl, rfl⟩
  dsimp only
  rw [wp_alone_bind, wp_alone_atomically, last, deInum_newEntry small]
  refine wp_mono (wp_iget (j + 2)) (fun ip s₁ got => ?_) ?_
  · rw [wp_alone_pure]
    exact ⟨_, ip, rfl, got⟩
  rintro _ _ ⟨-, full⟩
  obtain ⟨x, unused⟩ := room
  have := (full x).1
  omega

/-! ## From the path to the bytes -/

theorem wp_iput_named (lock : (s.icache e).lock = none) (nlink : (s.icache e).din.nlink ≠ 0) :
    wp (iput sb t e).alone
      (fun _ s' => s'.disk = s.disk ∧ ∀ x, x ≠ e → s'.icache x = s.icache x) never s := by
  have kept {s₁ : Fs.State T} (same : (s₁.icache e).din.nlink ≠ 0) :
      wp (ifree sb e : FsM T Unit).alone (fun _ s₂ => s₂ = s₁) never s₁ := by
    rw [ifree, wp_alone_bind, wp_alone_read, if_neg fun both => same both.2, wp_alone_pure]
  rw [iput, wp_alone_bind, acquiresleep, wp_alone_await (by rw [lock]; rfl), wp_alone_bind]
  refine wp_total (kept (by rw [State.icache_setInode_same]; exact nlink)) ?_
  rintro _ _ rfl
  rw [wp_alone_bind, releasesleep, wp_alone_change, wp_alone_change]
  refine ⟨rfl, fun x ne => ?_⟩
  rw [State.icache_setInode_ne _ _ _ ne, State.icache_setInode_ne _ _ _ ne,
    State.icache_setInode_ne _ _ _ ne]

/-- Nobody has a reference to an inode yet. -/
def Idle (s : Fs.State T) : Prop := ∀ e, (s.icache e).ref = 0 ∧ (s.icache e).lock = none

theorem Got.fresh (got : Fs.Got s i e s') (unused : (s.icache e).ref = 0) :
    s'.icache e = { s.icache e with inum := i, ref := 1, valid := false } := by
  obtain ⟨pos, -⟩ | ⟨-, entry⟩ := got.here
  · omega
  · exact entry

theorem wp_namei (image : Image files s.disk) (idle : Idle s) (few : files.length + 1 < NINODES)
    (distinct : files.Pairwise fun a b => a.entryName ≠ b.entryName)
    (special : file.entryName ≠ dot ∧ file.entryName ≠ dotdot) (nonempty : file.entryName ≠ [])
    (plain : pathSep ∉ file.entryName) (at_j : files[j]? = some file) (cwd : Fin NINODE) :
    wp (namei sb t cwd (pathSep :: file.entryName)).alone
      (fun out s' => ∃ ip, out = some ip ∧ s'.disk = s.disk ∧ (s'.icache ip).inum = j + 2 ∧
        (s'.icache ip).ref = 1 ∧ (s'.icache ip).lock = none ∧ (s'.icache ip).valid = false)
      never s := by
  have short : file.entryName.length ≤ DIRSIZ := List.length_take_le ..
  rw [namei, wp_alone_map, namex, if_pos List.head?_cons, wp_alone_bind, wp_alone_atomically]
  refine wp_mono (wp_iget ROOTINO) ?_ ?_
  · intro root s₁ got
    have entry := Got.fresh got (idle root).1
    rw [namexLoop, skipelem_single nonempty plain short, wp_alone_bind]
    have alloc : (inode sb s.disk ROOTINO).type ≠ 0 := by rw [image.dir]; decide
    have locked := wp_ilock (t := t) (s := s₁) (e := root) layout (by rw [entry]; exact Nat.one_pos)
      (by rw [entry]; exact (idle root).2) (by rw [entry]; exact (by decide : ROOTINO < NINODES))
      (by rw [entry, got.disk]; exact alloc) (fun valid => by rw [entry] at valid; cases valid)
    refine wp_total locked ?_
    rintro _ s₂ rfl
    set s₂ := s₁.setInode root fun ip =>
      { ip with lock := some t, valid := true, din := inode sb s₁.disk ip.inum } with open_root
    have entry₂ : s₂.icache root = { s₁.icache root with
        lock := some t, valid := true, din := inode sb s₁.disk (s₁.icache root).inum } :=
      State.icache_setInode_same ..
    have disk₂ : s₂.disk = s.disk := got.disk
    have din : (s₂.icache root).din = inode sb s₂.disk ROOTINO := by
      rw [entry₂, disk₂, ← got.disk, entry]
    have others (x : Fin NINODE) (ne : x ≠ root) : s₂.icache x = s.icache x :=
      (State.icache_setInode_ne _ _ _ ne).trans (got.other x ne)
    obtain ⟨spare, ne_spare⟩ := exists_ne root
    have look := wp_dirlookup_root (t := t) (e := root) (s := s₂) (by rw [disk₂]; exact image) din few
      distinct special at_j ⟨spare, by rw [others spare ne_spare]; exact (idle spare).1⟩
    have dir : (inode sb s₂.disk ROOTINO).type = T_DIR := by rw [disk₂]; exact image.dir
    rw [wp_alone_bind, wp_getDin, din, if_neg (not_not.2 dir), if_neg (by simp), wp_alone_bind]
    refine wp_total look ?_
    rintro _ s₃ ⟨off, ip, rfl, got₃⟩
    -- the file's inode is in another entry of the cache than the root
    have ne : ip ≠ root := by
      rintro rfl
      obtain ⟨-, again⟩ | ⟨unused, -⟩ := got₃.here
      · have num := got₃.num
        rw [again, entry₂, entry] at num
        exact absurd num (Nat.succ_ne_succ_iff.2 (Nat.succ_ne_zero j)).symm
      rw [entry₂, entry] at unused
      cases unused
    have fresh := Got.fresh got₃ (by rw [others ip ne]; exact (idle ip).1)
    have root₃ : s₃.icache root = s₂.icache root := got₃.other root ne.symm
    dsimp only
    rw [wp_alone_bind, iunlockput, wp_alone_bind, wp_iunlock (by rw [root₃, entry₂])
      (by rw [root₃, entry₂, entry]; exact Nat.one_pos)]
    set s₄ := s₃.setInode root fun ip => { ip with lock := none }
    have entry₄ : s₄.icache root = { s₃.icache root with lock := none } :=
      State.icache_setInode_same ..
    have nlink : (s₄.icache root).din.nlink ≠ 0 := by
      rw [entry₄, root₃, din, disk₂, image.nlink]
      exact (by decide : (1 : Short) ≠ 0)
    refine wp_total (wp_iput_named (by rw [entry₄]) nlink) ?_
    rintro _ s₅ ⟨disk₅, others₅⟩
    have here : s₅.icache ip = s₃.icache ip :=
      (others₅ ip ne).trans (State.icache_setInode_ne _ _ _ ne)
    rw [List.length_cons, namexLoop, show skipelem [] = none from rfl]
    dsimp only
    rw [if_neg Bool.false_ne_true, wp_alone_pure]
    refine ⟨ip, rfl, ?_, ?_, ?_, ?_, ?_⟩
    · rw [disk₅, ← disk₂, ← got₃.disk]
      rfl
    · rw [here, got₃.num]
    · rw [here, fresh]
    · rw [here, fresh, others ip ne]
      exact (idle ip).2
    · rw [here, fresh]
  · rintro _ _ ⟨-, full⟩
    have := (full 0).1
    rw [(idle 0).1] at this
    exact absurd this (lt_irrefl 0)

/-- What a program learns that opens a file and reads it whole. -/
def readAll (sb : Superblock) (t : T) (cwd : Fin NINODE) (path : List Byte) :
    FsM T (Option (Dinode × Option (List Byte))) := do
  match ← namei sb t cwd path with
  | none => return none
  | some ip => do
      ilock sb t ip
      let d ← getDin ip
      let data ← readi sb t ip 0 d.size
      return some (d, data)

theorem wp_readAll (image : Image files s.disk) (idle : Idle s) (few : files.length + 1 < NINODES)
    (distinct : files.Pairwise fun a b => a.entryName ≠ b.entryName)
    (special : file.entryName ≠ dot ∧ file.entryName ≠ dotdot) (nonempty : file.entryName ≠ [])
    (plain : pathSep ∉ file.entryName) (mem : file ∈ files) (cwd : Fin NINODE) :
    wp (readAll sb t cwd (pathSep :: file.entryName)).alone
      (fun out _ => ∃ d, out = some (d, some file.bytes) ∧ d.type = T_FILE ∧ d.nlink = 1 ∧
        d.size.toNat = file.bytes.length) never s := by
  obtain ⟨j, at_j⟩ := List.getElem?_of_mem mem
  have hj := (List.getElem?_eq_some_iff.1 at_j).1
  have hi : j + 2 < NINODES := by omega
  have node := image.file j file at_j
  rw [readAll, wp_alone_bind]
  refine wp_total (wp_namei image idle few distinct special nonempty plain at_j cwd) ?_
  rintro _ s₁ ⟨ip, rfl, disk₁, inum, ref, lock, stale⟩
  have type : (inode sb s.disk (j + 2)).type ≠ 0 := by
    rw [node.type]
    exact (by decide : T_FILE ≠ 0)
  have locked := wp_ilock (t := t) (s := s₁) (e := ip) layout (by omega) lock (by rw [inum]; exact hi)
    (by rw [inum, disk₁]; exact type) (fun valid => by rw [stale] at valid; cases valid)
  dsimp only
  rw [wp_alone_bind]
  refine wp_total locked ?_
  rintro _ s₂ rfl
  set d := inode sb s.disk (j + 2)
  set s₂ := s₁.setInode ip fun ip =>
    { ip with lock := some t, valid := true, din := inode sb s₁.disk ip.inum }
  have din : (s₂.icache ip).din = d := by
    rw [State.icache_setInode_same]
    dsimp only
    rw [inum, disk₁]
  have disk₂ : s₂.disk = s.disk := disk₁
  have bytes : d.contents s.disk = file.bytes := node.contents
  have len : d.size.toNat = file.bytes.length := by rw [← bytes, length_contents]
  have extent := image.extent (j + 2) hi (Nat.succ_ne_succ_iff.2 (Nat.succ_ne_zero j)) type
  have account := image.root.account
  rw [Function.update_eq_self] at account
  have mapped : Mapped sb (j + 2) s₂.disk d (nblk d.size.toNat) (nblk d.size.toNat) := by
    rw [disk₂]
    refine ⟨?_, hi, type, extent.data, extent.indirect⟩
    rw [Function.update_eq_self]
    exact account
  rw [wp_alone_bind, wp_getDin, din, wp_alone_bind]
  refine wp_total (wp_readi_of_mapped din ?_ mapped ?_ ?_) ?_
  · rw [node.type]
    exact (by decide : T_FILE ≠ T_DEV)
  · exact (Nat.zero_add _).le
  · exact (Nat.zero_add _).le.trans (nblk_le.1 le_rfl)
  rintro _ s₃ ⟨rfl, rfl⟩
  rw [wp_alone_pure]
  refine ⟨d, ?_, node.type, node.nlink, len⟩
  have whole : ((List.range d.size.toNat).map fun j =>
      d.byte s₂.disk ((0 : Word).toNat + j)) = file.bytes := by
    rw [← bytes, Dinode.contents, disk₂]
    refine List.map_congr_left fun k _ => ?_
    rw [show (0 : Word).toNat = 0 from rfl, Nat.zero_add]
  rw [whole]

/-- Every input file, up to `NINODES - 2` of them, that the image has room for is read by the kernel
under its name as it was. -/
theorem kernel_reads_files (files : List HostFile)
    (opened : ∀ file ∈ files, file.reads.isSome)
    (named : ∀ file ∈ files, file.entryName ≠ [] ∧ pathSep ∉ file.entryName ∧
      file.entryName ≠ dot ∧ file.entryName ≠ dotdot)
    (distinct : files.Pairwise fun a b => a.entryName ≠ b.entryName)
    (few : files.length < NINODES - 1)
    (short : ∀ file ∈ files, file.bytes.length ≤ MAXFILE * BSIZE)
    (fits : nmeta + blocksOf (DESIZE * (files.length + 2)) +
      (files.map fun file => blocksOf file.bytes.length).sum ≤ FSSIZE) :
    wp (main files)
      (fun _ image => ∀ file ∈ files, ∀ (T : Type) [DecidableEq T] (t : T) (s : Fs.State T),
        s.disk = image.disk → Idle s → ∀ cwd,
          wp (readAll (readsb image.disk) t cwd (pathSep :: file.entryName)).alone
            (fun out _ => ∃ d, out = some (d, some file.bytes) ∧ d.type = T_FILE ∧ d.nlink = 1 ∧
              d.size.toNat = file.bytes.length)
            (fun _ _ => False) s)
      (fun _ _ => ∃ file ∈ files, slash ∈ file.arg) State.init := by
  have few : files.length + 1 < NINODES := by omega
  refine wp_mono (wp_main few) ?_ ?_
  · intro _ image built file mem T _ t s booted idle cwd
    have image := built.image few
    obtain ⟨nonempty, plain, not_dot, not_dotdot⟩ := named file mem
    rw [readsb_image image]
    rw [← booted] at image
    exact wp_readAll image idle few distinct ⟨not_dot, not_dotdot⟩ nonempty plain mem cwd
  rintro _ _ (⟨file, mem, bad | closed | long⟩ | full)
  · exact ⟨file, mem, bad⟩
  · have := opened file mem
    rw [closed] at this
    cases this
  · exact absurd (short file mem) (Nat.not_le.2 long)
  · rw [need_tree, need, List.map_map] at full
    exact absurd fits (Nat.not_le.2 (by rw [Nat.add_assoc]; exact full))

theorem kernel_reads_files_cat : ∃ image, exec (main [catFile]) State.init = (.ok ⟨⟩, image) ∧
    wp (readAll (readsb image.disk) () 0 [0x2f, 0x63, 0x61, 0x74]).alone
      (fun out _ => ∃ d, out = some (d, some [1, 2, 3, 4]) ∧ d.type = T_FILE ∧ d.nlink = 1 ∧
        d.size.toNat = 4)
      (fun _ _ => False) (Fs.State.boot image.disk) := by
  have run := kernel_reads_files [catFile] (by decide) (by decide) (by decide) (by decide)
    (by decide) (by decide)
  have plain : ¬ ∃ file ∈ [catFile], slash ∈ file.arg := by decide
  have written := wp_mono run (fun _ _ h => h) fun _ _ bad => plain bad
  obtain ⟨_, image, ended, reads⟩ := exists_ok_of_wp written
  refine ⟨image, ended, ?_⟩
  exact reads catFile (by simp) Unit () (Fs.State.boot image.disk) rfl (fun _ => ⟨rfl, rfl⟩) 0

end Xv6.Mkfs
