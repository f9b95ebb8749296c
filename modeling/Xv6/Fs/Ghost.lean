import Xv6.Lib.Allotment
import Xv6.Fs.Inode

/-!
# Who owns which block

The process that holds the sleep-lock of a valid inode owns the inode: its cache entry, its place on
the disk and its blocks.  What it knows of them is its `Work`; the blocks of other inodes are those
the disk says (`Settled`).  A block that `balloc` has marked and nobody points to yet is in the
limbo of its process.

`Inv` ties these ghosts to the state: every block of the data area that the free map marks has
exactly one owner (`Allotted`).
-/

namespace Xv6.Fs

open Lib Function

structure Rec where
  slot : FilePos → Option ℕ
  dir : Bool

/-- What the owner of an inode knows: its copy, the inode on disk, its blocks and indirect entries.
-/
structure Work where
  inum : ℕ
  mem : Dinode
  disk : Dinode
  slot : FilePos → Option ℕ
  ind : ℕ → Word

def Work.record (w : Work) : Rec := ⟨w.slot, decide (w.mem.type = T_DIR)⟩

/-- How a process holds a cache entry: not; locked with `valid` clear; locked; locked as the
owner. -/
inductive Hold where
  | no
  | bare
  | stale
  | own (w : Work)

/-- The ghost of a process: how it holds the entries, the block in limbo (known to be zero?), and
the references it has to put back. -/
@[ext]
structure Local where
  hold : Fin NINODE → Hold
  limbo : Option (ℕ × Bool)
  mine : Fin NINODE → ℕ

namespace Local

def idle : Local := ⟨fun _ => .no, none, fun _ => 0⟩

def setHold (g : Local) (e : Fin NINODE) (h : Hold) : Local :=
  { g with hold := update g.hold e h }

def setLimbo (g : Local) (x : Option (ℕ × Bool)) : Local := { g with limbo := x }

def setMine (g : Local) (e : Fin NINODE) (n : ℕ) : Local :=
  { g with mine := update g.mine e n }

variable (g : Local) (e : Fin NINODE) (h : Hold) (x : Option (ℕ × Bool)) (n : ℕ)

@[simp] theorem hold_setHold : (g.setHold e h).hold = update g.hold e h := rfl
@[simp] theorem limbo_setHold : (g.setHold e h).limbo = g.limbo := rfl
@[simp] theorem mine_setHold : (g.setHold e h).mine = g.mine := rfl
@[simp] theorem hold_setLimbo : (g.setLimbo x).hold = g.hold := rfl
@[simp] theorem limbo_setLimbo : (g.setLimbo x).limbo = x := rfl
@[simp] theorem mine_setLimbo : (g.setLimbo x).mine = g.mine := rfl
@[simp] theorem hold_setMine : (g.setMine e n).hold = g.hold := rfl
@[simp] theorem limbo_setMine : (g.setMine e n).limbo = g.limbo := rfl
@[simp] theorem mine_setMine : (g.setMine e n).mine = update g.mine e n := rfl

@[simp] theorem setHold_setHold (h' : Hold) : (g.setHold e h).setHold e h' = g.setHold e h' := by
  simp [setHold]

@[simp] theorem setMine_setMine (n' : ℕ) : (g.setMine e n).setMine e n' = g.setMine e n' := by
  simp [setMine]

theorem setHold_self (same : g.hold e = h) : g.setHold e h = g := by
  rw [setHold, ← same, update_eq_self]

theorem setMine_self (same : g.mine e = n) : g.setMine e n = g := by
  rw [setMine, ← same, update_eq_self]

theorem setLimbo_none (none_g : g.limbo = none) :
    ((g.setLimbo x).setHold e h).setLimbo none = g.setHold e h := by
  rw [← none_g]
  rfl

end Local

/-- The owners of blocks: a place of an inode, or a process. -/
inductive Key (T : Type) where
  | file (i : ℕ) (p : FilePos)
  | limbo (t : T)
  deriving DecidableEq

section Inv

variable (sb : Superblock) {T : Type}

/-- The block of every owner. -/
def cells (r : ℕ → Rec) (G : T → Local) : Key T → Option ℕ
  | .file i p => (r i).slot p
  | .limbo t => (G t).limbo.map Prod.fst

/-- The account of the free map. -/
abbrev Account (cell : Key T → Option ℕ) (disk : Disk) : Prop :=
  Allotted cell (fun b => b < sb.nmeta) (fun b => sb.nmeta ≤ b ∧ b < sb.size)
    fun b => b < sb.size ∧ inUse sb disk b = true

def Held (G : T → Local) (i : ℕ) : Prop := ∃ t e w, (G t).hold e = .own w ∧ w.inum = i

/-- The record of an inode that no process owns is the one on the disk. -/
def Settled (disk : Disk) (i : ℕ) (c : Rec) : Prop :=
  if i < sb.ninodes ∧ (inode sb disk i).type ≠ 0 then
    c = ⟨(inode sb disk i).onDisk disk, decide ((inode sb disk i).type = T_DIR)⟩ ∧
      Extent c.slot (nblk (inode sb disk i).size.toNat)
  else ∀ p, c.slot p = none

/-- What the disk has to say about an owned inode. -/
structure Owned (r : ℕ → Rec) (disk : Disk) (w : Work) : Prop where
  inum : w.inum < sb.ninodes
  record : r w.inum = w.record
  here : inode sb disk w.inum = w.disk
  type : w.disk.type ≠ 0
  ind : ∀ b, w.slot .indirect = some b → ∀ j < NINDIRECT, (disk b).word j = w.ind j

structure Blocks (r : ℕ → Rec) (G : T → Local) (disk : Disk) : Prop where
  account : Account sb (cells r G) disk
  zero : ∀ t b, (G t).limbo = some (b, true) → disk b = Block.zero
  dirs : ∀ i k b, (r i).dir = true → (r i).slot (.data k) = some b → DirOk sb (disk b)
  owned : ∀ t e w, (G t).hold e = .own w → Owned sb r disk w
  settled : ∀ i, ¬ Held G i → Settled sb disk i (r i)

variable [Fintype T]

structure Cache (G : T → Local) (s : State T) : Prop where
  locked : ∀ t e, (s.icache e).lock = some t ↔ (G t).hold e ≠ .no
  anchored : ∀ t e, (G t).hold e ≠ .no → 0 < (G t).mine e
  bare : ∀ t e, (G t).hold e = .bare → (s.icache e).valid = false
  own : ∀ t e w, (G t).hold e = .own w →
    (s.icache e).valid = true ∧ (s.icache e).inum = w.inum ∧ (s.icache e).din = w.mem
  coherent : ∀ e, 0 < (s.icache e).ref → (s.icache e).valid = true → (s.icache e).lock = none →
    (s.icache e).din = inode sb s.disk (s.icache e).inum ∧ (s.icache e).din.type ≠ 0
  refs : ∀ e, ∑ t, (G t).mine e + s.pointers e ≤ (s.icache e).ref
  unique : ∀ e e', 0 < (s.icache e).ref → 0 < (s.icache e').ref →
    (s.icache e).inum = (s.icache e').inum → e = e'
  range : ∀ e, 0 < (s.icache e).ref → (s.icache e).inum < sb.ninodes

def Inv (G : T → Local) (s : State T) : Prop := Cache sb G s ∧ ∃ r, Blocks sb r G s.disk

end Inv

section Facts

variable {sb : Superblock} {T : Type} {r : ℕ → Rec} {G : T → Local} {disk disk' : Disk}
  {t : T} {e : Fin NINODE} {w w' : Work}

theorem onDisk_congr {d : Dinode}
    (h : d.addr NDIRECT ≠ 0 → disk' (d.addr NDIRECT).toNat = disk (d.addr NDIRECT).toNat) :
    d.onDisk disk' = d.onDisk disk := by
  by_cases none_ind : d.addr NDIRECT = 0
  · funext p
    cases p <;> simp [Dinode.onDisk, Dinode.blocks, none_ind]
  · rw [Dinode.onDisk, Dinode.onDisk, h none_ind]

theorem blocks_congr {d : Dinode} {ind ind' : ℕ → Word}
    (h : d.addr NDIRECT ≠ 0 → ∀ j < NINDIRECT, ind j = ind' j) : d.blocks ind = d.blocks ind' := by
  funext p
  cases p with
  | data k =>
    simp only [Dinode.blocks]
    split
    · rfl
    split
    next far => rw [h far.2 _ (by simp only [MAXFILE, NINDIRECT, NDIRECT, BSIZE] at far ⊢; omega)]
    · rfl
  | indirect => rfl

theorem Settled.congr {i : ℕ} {c : Rec} (h : Settled sb disk i c)
    (same : i < sb.ninodes → inode sb disk' i = inode sb disk i)
    (frame : ∀ b, c.slot .indirect = some b → disk' b = disk b) : Settled sb disk' i c := by
  unfold Settled at h ⊢
  by_cases hi : i < sb.ninodes
  · rw [same hi]
    split at h
    next alloc =>
      obtain ⟨rfl, extent⟩ := h
      rw [if_pos alloc, onDisk_congr fun ne => frame _ ?_]
      · exact ⟨rfl, extent⟩
      show ptr _ = _
      rw [ptr, if_neg ne]
    next free => rwa [if_neg free]
  · simp only [hi, false_and, if_false] at h ⊢
    exact h

/-! ## What an owner may rely on and change -/

variable (sb) in
/-- The facts about the owner's own blocks. -/
structure Mine (w : Work) (lim : Option (ℕ × Bool)) (disk : Disk) : Prop where
  inum : w.inum < sb.ninodes
  here : inode sb disk w.inum = w.disk
  type : w.disk.type ≠ 0
  ind : ∀ b, w.slot .indirect = some b → ∀ j < NINDIRECT, (disk b).word j = w.ind j
  dirs : w.mem.type = T_DIR → ∀ k b, w.slot (.data k) = some b → DirOk sb (disk b)
  zero : ∀ b, lim = some (b, true) → disk b = Block.zero
  area : ∀ p b, w.slot p = some b → sb.nmeta ≤ b ∧ b < sb.size
  limboArea : ∀ b z, lim = some (b, z) → sb.nmeta ≤ b ∧ b < sb.size
  inj : ∀ p q b, w.slot p = some b → w.slot q = some b → p = q
  apart : ∀ p b z, lim = some (b, z) → w.slot p ≠ some b
  used : ∀ p b, w.slot p = some b → inUse sb disk b = true

variable (sb) in
/-- A change that stays within what the owner owns. -/
structure Change (w w' : Work) (lim lim' : Option (ℕ × Bool)) (disk disk' : Disk) : Prop where
  inum : w'.inum = w.inum
  inodes : ∀ i < sb.ninodes, i ≠ w.inum → inode sb disk' i = inode sb disk i
  here : inode sb disk' w.inum = w'.disk
  type : w'.disk.type ≠ 0
  frame : ∀ b, sb.nmeta ≤ b → b < sb.size → (∀ p, w.slot p ≠ some b) →
    (∀ z, lim ≠ some (b, z)) → disk' b = disk b
  zero : ∀ b, lim' = some (b, true) → disk' b = Block.zero
  dirs : w'.mem.type = T_DIR → ∀ k b, w'.slot (.data k) = some b → DirOk sb (disk' b)
  ind : ∀ b, w'.slot .indirect = some b → ∀ j < NINDIRECT, (disk' b).word j = w'.ind j

namespace Blocks

theorem file_cell (h : Blocks sb r G disk) (hw : (G t).hold e = .own w) (p : FilePos) :
    cells r G (.file w.inum p) = w.slot p := by
  rw [cells, (h.owned t e w hw).record, Work.record]

theorem mine (h : Blocks sb r G disk) (hw : (G t).hold e = .own w) :
    Mine sb w (G t).limbo disk := by
  have own := h.owned t e w hw
  have file (p b) (at_p : w.slot p = some b) : cells r G (.file w.inum p) = some b := by
    rw [h.file_cell hw, at_p]
  have limbo (b z) (lim : (G t).limbo = some (b, z)) : cells r G (.limbo t) = some b := by
    simp [cells, lim]
  exact
    { inum := own.inum
      here := own.here
      type := own.type
      ind := own.ind
      dirs := fun dir k b at_k => h.dirs w.inum k b (by simp [own.record, Work.record, dir])
        (by rw [own.record]; exact at_k)
      zero := h.zero t
      area := fun p b at_p => h.account.inside (file p b at_p)
      limboArea := fun b z lim => h.account.inside (limbo b z lim)
      inj := fun p q b at_p at_q => by
        have := h.account.inj (file p b at_p) (file q b at_q)
        simpa using this
      apart := fun p b z lim at_p => by
        have := h.account.inj (file p b at_p) (limbo b z lim)
        simp at this
      used := fun p b at_p => (h.account.used_of_cell (file p b at_p)).2 }

theorem ghost (h : Blocks sb r G disk) {G' : T → Local}
    (own : ∀ u d v, (G' u).hold d = .own v ↔ (G u).hold d = .own v)
    (limbo : ∀ u, (G' u).limbo = (G u).limbo) : Blocks sb r G' disk where
  account := h.account.congr (fun k => by cases k <;> simp [cells, limbo]) fun _ => Iff.rfl
  zero := fun u b lim => h.zero u b (limbo u ▸ lim)
  dirs := h.dirs
  owned := fun u d v hv => h.owned u d v ((own u d v).1 hv)
  settled := fun i free => h.settled i fun held => free (by simpa only [Held, own] using held)

theorem ialloc (layout : sb.Layout) (h : Blocks sb r G disk) {i : ℕ} (hi : i < sb.ninodes)
    (free : (inode sb disk i).type = 0) {type : Short} (some_type : type ≠ 0) :
    ∃ r, Blocks sb r G (writeInode sb disk i ⟨type, 0, 0, 0, 0, fun _ => 0⟩) := by
  have unheld : ¬ Held G i := by
    rintro ⟨u, c, v, hv, rfl⟩
    have own := h.owned u c v hv
    exact own.type (own.here ▸ free)
  have none_i : ∀ p, (r i).slot p = none := by
    have settled := h.settled i unheld
    rwa [Settled, if_neg (by simp [free])] at settled
  set d : Dinode := ⟨type, 0, 0, 0, 0, fun _ => 0⟩
  have blocks (ind : ℕ → Word) (p : FilePos) : d.blocks ind p = none := by
    cases p <;> simp [Dinode.blocks, Dinode.addr, d, ptr]
  have data {k : Key T} {b : ℕ} (at_k : cells r G k = some b) : writeInode sb disk i d b = disk b :=
    writeInode_data layout hi d (h.account.inside at_k).1
  refine ⟨update r i ⟨fun _ => none, decide (type = T_DIR)⟩, ?_, fun u b lim => ?_,
    fun j k b dir at_k => ?_, fun u c v hv => ?_, fun j free' => ?_⟩
  · refine h.account.congr (fun k => ?_) fun b => ?_
    · cases k with
      | file j p =>
        by_cases j_i : j = i
        · subst j_i
          simp [cells, none_i]
        · simp [cells, j_i]
      | limbo u => rfl
    · rw [inUse_writeInode layout hi]
  · rw [data (k := .limbo u) (by simp [cells, lim])]
    exact h.zero u b lim
  · rw [update_apply] at dir at_k
    split at at_k
    · cases at_k
    next j_i =>
      rw [if_neg j_i] at dir
      rw [data (k := .file j (.data k)) at_k]
      exact h.dirs j k b dir at_k
  · have own := h.owned u c v hv
    have ne : v.inum ≠ i := fun same => unheld ⟨u, c, v, hv, same⟩
    refine ⟨own.inum, by rw [update_of_ne ne, own.record],
      (inode_writeInode_ne d ne).trans own.here, own.type, fun b at_b j hj => ?_⟩
    rw [data (k := .file v.inum .indirect) (by rw [h.file_cell hv, at_b])]
    exact own.ind b at_b j hj
  · by_cases j_i : j = i
    · subst j_i
      rw [Settled, inode_writeInode_same, if_pos ⟨hi, some_type⟩, update_self]
      refine ⟨?_, fun k => ?_, ?_⟩
      · rw [show d.onDisk _ = fun _ => none from funext (blocks _)]
      · simp [nblk, d, BSIZE]
      · simp [nblk, d, BSIZE]
    · rw [update_of_ne j_i]
      exact (h.settled j free').congr (fun _ => inode_writeInode_ne d j_i)
        fun b at_b => data (k := .file j .indirect) at_b

end Blocks

/-- The inode owns the blocks it points to, and these are its first `n`. -/
structure Work.Grown (w : Work) (n : ℕ) : Prop where
  slot : w.slot = w.mem.blocks w.ind
  extent : Extent w.slot n

/-- The inode is on the disk as it is in the cache, and owns the blocks that its size says. -/
structure Work.Rest (w : Work) : Prop extends Work.Grown w (nblk w.mem.size.toNat) where
  disk : w.disk = w.mem

/-- What a process learns of an inode when it becomes its owner. -/
def Work.load (sb : Superblock) (disk : Disk) (i : ℕ) : Work where
  inum := i
  mem := inode sb disk i
  disk := inode sb disk i
  slot := (inode sb disk i).onDisk disk
  ind := (disk ((inode sb disk i).addr NDIRECT).toNat).word

variable [DecidableEq T]

theorem hold_update (g : Local) (u : T) (d : Fin NINODE) {h : Hold}
    (hg : g.hold = update (G t).hold e h) :
    (update G t g u).hold d = if u = t ∧ d = e then h else (G u).hold d := by
  by_cases u_t : u = t
  · subst u_t
    simp only [update_self, hg, update_apply, true_and]
  · simp [u_t]

theorem limbo_setHold (x : Hold) (u : T) :
    (update G t ((G t).setHold e x) u).limbo = (G u).limbo := by
  by_cases u_t : u = t
  · subst u_t
    simp
  · rw [update_of_ne u_t]

theorem hold_setMine (m : ℕ) (u : T) : (update G t ((G t).setMine e m) u).hold = (G u).hold := by
  by_cases u_t : u = t
  · subst u_t
    simp
  · rw [update_of_ne u_t]

theorem limbo_setMine (m : ℕ) (u : T) : (update G t ((G t).setMine e m) u).limbo = (G u).limbo := by
  by_cases u_t : u = t
  · subst u_t
    simp
  · rw [update_of_ne u_t]

theorem cells_setHold (x : Hold) (k : Key T) :
    cells r (update G t ((G t).setHold e x)) k = cells r G k := by
  cases k with
  | file j p => rfl
  | limbo u => simp only [cells, limbo_setHold]

theorem Held.setHold {i : ℕ} (h : Held G i) (x : Hold)
    (ne : ∀ v, (G t).hold e = .own v → v.inum ≠ i) : Held (update G t ((G t).setHold e x)) i := by
  obtain ⟨u, d, v, hv, num⟩ := h
  refine ⟨u, d, v, ?_, num⟩
  rw [hold_update _ u d rfl, if_neg, hv]
  rintro ⟨rfl, rfl⟩
  exact ne v hv num

namespace Blocks

section

variable (h : Blocks sb r G disk)
include h

theorem change
    (apart : ∀ u d v, (G u).hold d = .own v → v.inum = w.inum → u = t ∧ d = e)
    (hw : (G t).hold e = .own w) {g : Local}
    (hold : g.hold = update (G t).hold e (.own w'))
    (c : Change sb w w' (G t).limbo g.limbo disk disk')
    (account : Account sb
      (cells (update r w.inum w'.record) (update G t g)) disk') :
    Blocks sb (update r w.inum w'.record) (update G t g) disk' := by
  -- A block of any other owner is not the holder's, so it has not changed.
  have frame (k : Key T) (b : ℕ) (at_k : cells r G k = some b) (files : ∀ p, k ≠ .file w.inum p)
      (other : k ≠ .limbo t) : disk' b = disk b := by
    obtain ⟨lo, hi⟩ := h.account.inside at_k
    refine c.frame b lo hi (fun p at_p => files p ?_) fun z lim => other ?_
    · exact h.account.inj at_k (by rw [h.file_cell hw, at_p])
    · exact h.account.inj at_k (by simp [cells, lim])
  have limbo (u : T) (ne : u ≠ t) : (update G t g u).limbo = (G u).limbo := by
    rw [update_of_ne ne]
  refine ⟨account, fun u b lim => ?_, fun i k b dir at_k => ?_, fun u d v hv => ?_,
    fun i free => ?_⟩
  · by_cases u_t : u = t
    · subst u_t
      rw [update_self] at lim
      exact c.zero b lim
    rw [limbo u u_t] at lim
    rw [frame (.limbo u) b (by simp [cells, lim]) (by simp) (by simpa using u_t)]
    exact h.zero u b lim
  · by_cases i_w : i = w.inum
    · subst i_w
      rw [update_self] at dir at_k
      exact c.dirs (of_decide_eq_true dir) k b at_k
    rw [update_of_ne i_w] at dir at_k
    rw [frame (.file i (.data k)) b at_k (by simp [i_w]) (by simp)]
    exact h.dirs i k b dir at_k
  · rw [hold_update g u d hold] at hv
    split at hv
    next here =>
      obtain ⟨rfl, rfl⟩ := here
      obtain rfl : w' = v := Hold.own.inj hv
      have own := h.owned u d w hw
      exact ⟨c.inum ▸ own.inum, by rw [c.inum, update_self], c.inum ▸ c.here, c.type, c.ind⟩
    rename_i other
    have own := h.owned u d v hv
    have ne : v.inum ≠ w.inum := fun same => other (apart u d v hv same)
    refine ⟨own.inum, by rw [update_of_ne ne, own.record],
      (c.inodes _ own.inum ne).trans own.here, own.type, fun b at_b j hj => ?_⟩
    rw [frame (.file v.inum .indirect) b (by rw [h.file_cell hv, at_b]) (by simp [ne]) (by simp)]
    exact own.ind b at_b j hj
  · have ne : i ≠ w.inum := by
      rintro rfl
      refine free ⟨t, e, w', ?_, c.inum⟩
      rw [hold_update g t e hold, if_pos ⟨rfl, rfl⟩]
    have free' : ¬ Held G i := by
      rintro ⟨u, d, v, hv, rfl⟩
      refine free ⟨u, d, v, ?_, rfl⟩
      rw [hold_update g u d hold, if_neg, hv]
      rintro ⟨rfl, rfl⟩
      rw [hw] at hv
      exact ne (congrArg Work.inum (Hold.own.inj hv)).symm
    rw [update_of_ne ne]
    refine (h.settled i free').congr (fun hi => c.inodes i hi ne) fun b at_b => ?_
    exact frame (.file i .indirect) b at_b (by simp [ne]) (by simp)

/-! ## Taking and giving up inodes -/

theorem hold {x : Hold} (before : ∀ v, (G t).hold e ≠ .own v)
    (after : ∀ v, x ≠ .own v) : Blocks sb r (update G t ((G t).setHold e x)) disk := by
  refine h.ghost (fun u d v => ?_) fun u => ?_
  · rw [hold_update _ u d rfl]
    split
    next here =>
      obtain ⟨rfl, rfl⟩ := here
      simp [before, after]
    · rfl
  · exact limbo_setHold x u

theorem acquire {i : ℕ} (hi : i < sb.ninodes)
    (type : (inode sb disk i).type ≠ 0) (free : ¬ Held G i) (before : ∀ v, (G t).hold e ≠ .own v) :
    Blocks sb r (update G t ((G t).setHold e (.own (.load sb disk i)))) disk ∧
      (Work.load sb disk i).Rest := by
  have settled := h.settled i free
  rw [Settled, if_pos ⟨hi, type⟩] at settled
  obtain ⟨record, extent⟩ := settled
  refine ⟨⟨?_, fun u b lim => ?_, h.dirs, fun u d v hv => ?_, fun j free' => ?_⟩, ⟨rfl, ?_⟩, rfl⟩
  · exact h.account.congr (cells_setHold _) fun _ => Iff.rfl
  · rw [limbo_setHold] at lim
    exact h.zero u b lim
  · rw [hold_update _ u d rfl] at hv
    split at hv
    · obtain rfl := Hold.own.inj hv
      refine ⟨hi, record, rfl, type, fun b at_b j hj => ?_⟩
      have : ptr ((inode sb disk i).addr NDIRECT) = some b := at_b
      rw [ptr] at this
      split at this
      · cases this
      obtain rfl := Option.some.inj this
      rfl
    · exact h.owned u d v hv
  · exact h.settled j fun held => free' (held.setHold _ fun v hv => absurd hv (before v))
  · rw [record] at extent
    exact extent

theorem release (hw : (G t).hold e = .own w) (rest : w.Rest) {x : Hold}
    (after : ∀ v, x ≠ .own v) : Blocks sb r (update G t ((G t).setHold e x)) disk := by
  have own := h.owned t e w hw
  have held (u : T) (d : Fin NINODE) (v : Work)
      (hv : (update G t ((G t).setHold e x) u).hold d = .own v) :
      (G u).hold d = .own v := by
    rw [hold_update _ u d rfl] at hv
    split at hv
    · exact absurd hv (after v)
    · exact hv
  refine ⟨?_, fun u b lim => ?_, h.dirs, fun u d v hv => h.owned u d v (held u d v hv),
    fun i free => ?_⟩
  · exact h.account.congr (cells_setHold _) fun _ => Iff.rfl
  · rw [limbo_setHold] at lim
    exact h.zero u b lim
  by_cases i_w : i = w.inum
  · subst i_w
    have type : w.mem.type ≠ 0 := rest.disk ▸ own.type
    rw [Settled, own.here, rest.disk, if_pos ⟨own.inum, type⟩, own.record, Work.record]
    refine ⟨?_, rest.extent⟩
    rw [rest.slot, Dinode.onDisk, blocks_congr fun far j hj => (own.ind _ ?_ j hj).symm]
    rw [rest.slot]
    show ptr _ = _
    rw [ptr, if_neg far]
  · refine h.settled i fun held' => free (held'.setHold x fun v hv num => ?_)
    rw [hw] at hv
    exact i_w (num.symm.trans (congrArg Work.inum (Hold.own.inj hv)).symm)

end

theorem free (layout : sb.Layout) (h : Blocks sb r G disk)
    (apart : ∀ u d v, (G u).hold d = .own v → v.inum = w.inum → u = t ∧ d = e)
    (hw : (G t).hold e = .own w) (empty : ∀ p, w.slot p = none) {d : Dinode} (type : d.type = 0) :
    Blocks sb r (update G t ((G t).setHold e .stale)) (writeInode sb disk w.inum d) := by
  have own := h.owned t e w hw
  have data {k : Key T} {b : ℕ} (at_k : cells r G k = some b) :
      writeInode sb disk w.inum d b = disk b :=
    writeInode_data layout own.inum d (h.account.inside at_k).1
  refine ⟨?_, fun u b lim => ?_, fun i k b dir at_k => ?_, fun u c v hv => ?_, fun i settled => ?_⟩
  · refine h.account.congr (cells_setHold _) fun b => ?_
    rw [inUse_writeInode layout own.inum]
  · rw [limbo_setHold] at lim
    rw [data (k := .limbo u) (by simp [cells, lim])]
    exact h.zero u b lim
  · rw [data (k := .file i (.data k)) at_k]
    exact h.dirs i k b dir at_k
  · rw [hold_update _ u c rfl] at hv
    split at hv
    · cases hv
    rename_i elsewhere
    have own' := h.owned u c v hv
    have ne : v.inum ≠ w.inum := fun same => elsewhere (apart u c v hv same)
    refine ⟨own'.inum, own'.record, (inode_writeInode_ne d ne).trans own'.here, own'.type,
      fun b at_b j hj => ?_⟩
    rw [data (k := .file v.inum .indirect) (by rw [h.file_cell hv, at_b])]
    exact own'.ind b at_b j hj
  · by_cases i_w : i = w.inum
    · subst i_w
      rw [Settled, inode_writeInode_same, if_neg (by simp [type]), own.record]
      exact empty
    refine (h.settled i fun held => settled (held.setHold _ fun v hv num => ?_)).congr
      (fun _ => inode_writeInode_ne d i_w) fun b at_b => data (k := .file i .indirect) at_b
    rw [hw] at hv
    exact i_w (num.symm.trans (congrArg Work.inum (Hold.own.inj hv)).symm)

end Blocks

end Facts

end Xv6.Fs
