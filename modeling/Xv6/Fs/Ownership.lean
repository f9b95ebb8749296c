import Xv6.Fs.Content

/-!
# Every block has one owner

Any number of processes run inode operations in any interleaving.  Each keeps the invariant of block
ownership (`Op.code_spec`), so that whenever none is under way the disk is consistent.
-/

namespace Xv6.Fs

open Lib

/-! ## The disk between operations -/

variable {sb : Superblock} {T : Type}

/-- The record of every inode, read off the disk. -/
def diskRecord (sb : Superblock) (disk : Disk) (i : ℕ) : Rec :=
  if i < sb.ninodes ∧ (inode sb disk i).type ≠ 0 then
    ⟨(inode sb disk i).onDisk disk, decide ((inode sb disk i).type = T_DIR)⟩
  else ⟨fun _ => none, false⟩

theorem diskRecord_slot {disk : Disk} {i : ℕ} {p : FilePos} {b : ℕ} :
    (diskRecord sb disk i).slot p = some b ↔
      i < sb.ninodes ∧ (inode sb disk i).type ≠ 0 ∧ (inode sb disk i).onDisk disk p = some b := by
  unfold diskRecord
  split
  next alloc => exact ⟨fun at_p => ⟨alloc.1, alloc.2, at_p⟩, fun h => h.2.2⟩
  next free =>
    simp only [reduceCtorEq, false_iff]
    exact fun h => free ⟨h.1, h.2.1⟩

theorem not_held_idle (i : ℕ) : ¬ Held (fun _ : T => Local.idle) i := by
  rintro ⟨_, _, _, own, -⟩
  cases own

theorem cells_idle {r : ℕ → Rec} {k : Key T} {b : ℕ} :
    cells r (fun _ : T => Local.idle) k = some b ↔ ∃ i p, k = .file i p ∧ (r i).slot p = some b := by
  cases k with
  | file i p => simp [cells]
  | limbo t => simp [cells, Local.idle]

theorem blocks_boot {disk : Disk} (image : Consistent sb disk) (dirs : DirsOk sb disk) :
    Blocks sb (diskRecord sb disk) (fun _ : T => Local.idle) disk where
  account :=
    { inj := fun {k l b} at_k at_l => by
        obtain ⟨i, p, rfl, at_k⟩ := cells_idle.1 at_k
        obtain ⟨j, q, rfl, at_l⟩ := cells_idle.1 at_l
        obtain ⟨hi, type_i, at_i⟩ := diskRecord_slot.1 at_k
        obtain ⟨hj, type_j, at_j⟩ := diskRecord_slot.1 at_l
        obtain ⟨rfl, rfl⟩ := image.distinct i hi j hj type_i type_j p q b at_i at_j
        rfl
      inside := fun {k b} at_k => by
        obtain ⟨i, p, rfl, at_k⟩ := cells_idle.1 at_k
        obtain ⟨hi, type_i, at_i⟩ := diskRecord_slot.1 at_k
        exact image.area i hi type_i p b at_i
      not_fixed := fun area => Nat.not_lt.2 area.1
      used_iff := fun b => by
        constructor
        · rintro ⟨hb, used⟩
          rcases (image.bitmap b hb).1 used with fixed | ⟨i, hi, type_i, p, at_i⟩
          · exact .inl fixed
          · exact .inr ⟨.file i p, diskRecord_slot.2 ⟨hi, type_i, at_i⟩⟩
        rintro (fixed | ⟨k, at_k⟩)
        · have hb := Nat.lt_of_lt_of_le fixed Superblock.nmeta_le
          exact ⟨hb, (image.bitmap b hb).2 (.inl fixed)⟩
        obtain ⟨i, p, rfl, at_k⟩ := cells_idle.1 at_k
        obtain ⟨hi, type_i, at_i⟩ := diskRecord_slot.1 at_k
        have hb := (image.area i hi type_i p b at_i).2
        exact ⟨hb, (image.bitmap b hb).2 (.inr ⟨i, hi, type_i, p, at_i⟩)⟩ }
  zero := fun _ _ lim => by cases lim
  dirs := fun i k b dir at_k => by
    obtain ⟨hi, type_i, at_i⟩ := diskRecord_slot.1 at_k
    refine dirs i hi ?_ k b at_i
    rw [diskRecord, if_pos ⟨hi, type_i⟩] at dir
    exact of_decide_eq_true dir
  owned := fun _ _ _ own => by cases own
  settled := fun i _ => by
    unfold Settled diskRecord
    split
    next alloc => exact ⟨rfl, image.extent i alloc.1 alloc.2⟩
    · exact fun _ => rfl

theorem inv_boot [Fintype T] {disk : Disk} (image : Consistent sb disk)
    (dirs : DirsOk sb disk) : Inv sb (fun _ : T => Local.idle) (State.boot disk) := by
  refine ⟨?_, _, blocks_boot image dirs⟩
  exact
    { locked := fun _ _ => by simp [State.boot, Local.idle]
      anchored := fun _ _ held => absurd rfl held
      bare := fun _ _ held => by cases held
      own := fun _ _ _ held => by cases held
      coherent := fun _ pos => absurd pos (by simp [State.boot])
      refs := fun _ => by simp [State.boot, Local.idle]
      unique := fun _ _ pos => absurd pos (by simp [State.boot])
      range := fun _ pos => absurd pos (by simp [State.boot]) }

/-- Between operations the invariant says that the disk is consistent. -/
theorem Inv.consistent [Fintype T] {s : State T} (inv : Inv sb (fun _ : T => Local.idle) s) :
    Consistent sb s.disk := by
  obtain ⟨-, r, blocks⟩ := inv
  have settled (i : ℕ) (hi : i < sb.ninodes) (type : (inode sb s.disk i).type ≠ 0) :
      (r i).slot = (inode sb s.disk i).onDisk s.disk ∧
        Extent (r i).slot (nblk (inode sb s.disk i).size.toNat) := by
    have := blocks.settled i (not_held_idle i)
    rw [Settled, if_pos ⟨hi, type⟩] at this
    exact ⟨by rw [this.1], this.2⟩
  have cell {i : ℕ} (hi : i < sb.ninodes) (type : (inode sb s.disk i).type ≠ 0) {p : FilePos}
      {b : ℕ} (at_p : (inode sb s.disk i).onDisk s.disk p = some b) :
      cells r (fun _ : T => Local.idle) (.file i p) = some b := by
    rw [cells, (settled i hi type).1, at_p]
  refine ⟨fun i hi type => ?_, fun i hi j hj type_i type_j p q b at_i at_j => ?_,
    fun i hi type p b at_p => ?_, fun b hb => ?_⟩
  · have := settled i hi type
    exact this.1 ▸ this.2
  · have := blocks.account.inj (cell hi type_i at_i) (cell hj type_j at_j)
    simpa using this
  · exact blocks.account.inside (cell hi type at_p)
  have used := blocks.account.used_iff b
  constructor
  · intro marked
    rcases used.1 ⟨hb, marked⟩ with fixed | ⟨k, at_k⟩
    · exact .inl fixed
    obtain ⟨i, p, rfl, at_p⟩ := cells_idle.1 at_k
    have here := blocks.settled i (not_held_idle i)
    unfold Settled at here
    split at here
    next alloc =>
      refine .inr ⟨i, alloc.1, alloc.2, p, ?_⟩
      rw [← at_p, here.1]
    · rw [here p] at at_p
      cases at_p
  · rintro (fixed | ⟨i, hi, type, p, at_p⟩)
    · exact (used.2 (.inl fixed)).2
    · exact (used.2 (.inr ⟨_, cell hi type at_p⟩)).2

variable [DecidableEq T] [Fintype T] {t : T} {e : Fin NINODE} {w : Work} {g : Local} {α : Type}

/-! ## Operations -/

/-- The ghost of an operation that has taken one pointer. -/
def Local.holding (e : Fin NINODE) : Local := Local.idle.setMine e 1

@[simp] theorem Local.hold_holding (d : Fin NINODE) : (Local.holding e).hold d = .no := rfl

@[simp] theorem Local.limbo_holding : (Local.holding e).limbo = none := rfl

theorem Local.mine_holding : (Local.holding e).mine e = 1 := by simp [Local.holding]

theorem Local.holding_drop (n : ℕ) (h : n = 0) : (Local.holding e).setMine e n = Local.idle := by
  rw [holding, setMine_setMine, h]
  exact setMine_self _ _ _ rfl

theorem Local.holding_pass (d : Fin NINODE) :
    ((Local.holding e).setMine d ((Local.holding e).mine d + 1)).setMine e
      (((Local.holding e).setMine d ((Local.holding e).mine d + 1)).mine e - 1) =
        Local.holding d := by
  ext1
  · rfl
  · rfl
  funext x
  by_cases x_e : x = e <;> by_cases x_d : x = d <;> by_cases e_d : e = d <;>
    simp_all [holding, setMine, idle, Function.update_apply]

section Locked

variable {guar : State T → State T → Prop} (still : ∀ s s' : State T, s'.disk = s.disk → guar s s')
include still

theorem locked_general {body : FsM T α} {R : α → Local → Prop}
    (spec : ∀ w, w.Rest → Keeps sb guar t body
      (fun a g' => ∃ (h : Local) (w' : Work), g' = h.setHold e (.own w') ∧ w'.Rest ∧ h.hold e = .no ∧
        0 < h.mine e ∧ R a (h.setMine e (h.mine e - 1)))
      ((Local.holding e).setHold e (.own w))) :
    Keeps sb guar t (locked sb t e body) R Local.idle := by
  unfold locked
  refine safe_seq ?_ (take_spec still)
  rintro _ _ rfl
  refine safe_seq ?_ (ilock_spec still (by simp))
  rintro _ _ ⟨-, w, rfl, rest⟩
  refine safe_seq ?_ (spec w rest)
  rintro a _ ⟨h, w', rfl, rest', free, pos, post⟩
  refine safe_seq ?_ (iunlock_spec still (by simp) rest')
  rintro _ _ rfl
  rw [Local.setHold_setHold, Local.setHold_self _ _ _ free]
  refine safe_seq ?_ (keep_spec still pos free)
  rintro _ _ rfl
  exact safe_pure post

theorem locked_spec {body : FsM T α}
    (spec : ∀ w, w.Rest → Keeps sb guar t body
      (fun _ g' => ∃ w', g' = (Local.holding e).setHold e (.own w') ∧ w'.Rest)
      ((Local.holding e).setHold e (.own w))) :
    Keeps sb guar t (locked sb t e body) (fun _ g' => g' = Local.idle) Local.idle := by
  refine locked_general still fun w rest => safe_mono ?_ (spec w rest)
  rintro _ _ ⟨w', rfl, rest'⟩
  refine ⟨Local.holding e, w', rfl, rest', rfl, by simp [Local.mine_holding], ?_⟩
  exact Local.holding_drop _ (by rw [Local.mine_holding])

end Locked

/-- What an operation guarantees about the disk: `readi` does not change it. -/
def Op.guar : Op → State T → State T → Prop
  | .readi .. => fun s s' => s'.disk = s.disk
  | _ => anyChange

theorem discard_spec {guar : State T → State T → Prop} {c : FsM T α}
    (h : Keeps sb guar t c (fun _ g' => g' = Local.idle) g) :
    Keeps sb guar t (discard c) (fun _ g' => g' = Local.idle) g := by
  refine safe_seq ?_ h
  exact fun _ _ post => safe_pure post

/-- The references after a search that may have found an entry. -/
def HasOf {α : Type} (ip : α → Fin NINODE) : Option α → Local → Prop
  | none, g' => g' = Local.idle
  | some a, g' => g' = Local.holding (ip a)

theorem Op.code_spec (layout : sb.Layout) (t : T) (op : Op) :
    Keeps sb op.guar t (op.code sb t) (fun _ g' => g' = Local.idle) Local.idle := by
  have any : ∀ s s' : State T, s'.disk = s.disk → anyChange s s' := fun _ _ _ => trivial
  have keepOne (e : Fin NINODE) (guar : State T → State T → Prop)
      (still : ∀ s s' : State T, s'.disk = s.disk → guar s s') :
      Keeps sb guar t (keep e) (fun _ g' => g' = Local.idle) (Local.holding e) := by
    refine safe_mono ?_ (keep_spec still (by simp [Local.mine_holding]) rfl)
    rintro _ _ rfl
    exact Local.holding_drop _ (by rw [Local.mine_holding])
  have iputOne (e : Fin NINODE) :
      Keeps sb anyChange t (Fs.iput sb t e) (fun _ g' => g' = Local.idle) (Local.holding e) := by
    refine safe_mono ?_ (iput_spec layout (by simp [Local.mine_holding]))
    rintro _ _ rfl
    exact Local.holding_drop _ (by rw [Local.mine_holding])
  have mineOne (e : Fin NINODE) (w : Work) :
      0 < ((Local.holding e).setHold e (.own w)).mine e := by simp [Local.mine_holding]
  have two (e d : Fin NINODE) :
      0 < ((Local.holding e).setMine d ((Local.holding e).mine d + 1)).mine e := by
    rw [Local.mine_setMine, Function.update_apply]
    split <;> simp [Local.mine_holding]
  cases op with
  | root =>
    refine safe_seq ?_ (iget_spec any layout.root)
    rintro e _ rfl
    exact keepOne e _ any
  | idup e =>
    refine safe_seq ?_ (take_spec any)
    rintro _ _ rfl
    refine safe_seq ?_ (idup_spec any (by simp))
    rintro _ _ rfl
    refine safe_seq ?_ (keep_spec any (by simp) rfl)
    rintro _ _ rfl
    rw [show ((Local.idle.setMine e (Local.idle.mine e + 1)).setMine e
      ((Local.idle.setMine e (Local.idle.mine e + 1)).mine e + 1)).setMine e
      (((Local.idle.setMine e (Local.idle.mine e + 1)).setMine e
        ((Local.idle.setMine e (Local.idle.mine e + 1)).mine e + 1)).mine e - 1) =
      Local.holding e by simp [Local.holding, Local.idle]]
    exact keepOne e _ any
  | ialloc type =>
    refine safe_ite (fun _ => safe_pure rfl) fun some_type => ?_
    refine safe_seq ?_ (ialloc_spec layout some_type)
    rintro e _ rfl
    exact keepOne e _ any
  | iput e =>
    refine safe_seq ?_ (take_spec any)
    rintro _ _ rfl
    exact iputOne e
  | readi e off n =>
    refine discard_spec (locked_spec (fun _ _ same => same) fun w rest => ?_)
    refine safe_mono ?_ (readi_spec (fun _ _ same => same) (mineOne e w) (by simp) rest off n)
    rintro _ _ ⟨rfl | ⟨-, w', rfl, rest'⟩, -⟩
    · exact ⟨w, rfl, rest⟩
    · exact ⟨w', by simp, rest'⟩
  | writei e src off n =>
    refine locked_spec any fun w rest => ?_
    refine safe_seq ?_ (getDin_spec any (w := w) (by simp))
    rintro _ _ ⟨rfl, rfl⟩
    refine safe_ite (fun _ => safe_pure ⟨w, rfl, rest⟩) fun file => ?_
    refine safe_seq ?_ (writei_spec layout (mineOne e w) rfl (by simp) rest src off n
      fun dir => absurd dir file)
    rintro _ _ ⟨w', rfl, rest'⟩
    exact safe_pure ⟨w', by simp, rest'⟩
  | setFields e major minor nlink =>
    refine locked_spec any fun w rest => ?_
    refine safe_seq ?_ (setDin_spec any (w := w) (by simp) _ fun dir => dir)
    rintro _ _ rfl
    refine safe_mono ?_ (iupdate_spec layout (w := { w with mem :=
      { w.mem with major := major, minor := minor, nlink := nlink } }) (by simp) ?_)
    · rintro _ _ rfl
      simp only [Local.setHold_setHold]
      exact ⟨_, rfl, ⟨⟨rest.slot, rest.extent⟩, rfl⟩⟩
    dsimp only
    rw [rest.disk]
  | dirlookup e name =>
    refine safe_seq ?_ (locked_general any (R := HasOf Prod.snd) fun w rest => safe_mono ?_
      (dirlookup_spec any (mineOne e w) (by simp) rest name))
    · rintro (_ | ⟨off, ip⟩) _ rfl
      · exact safe_pure rfl
      · exact keepOne ip _ any
    rintro (_ | ⟨off, ip⟩) _ ⟨-, post⟩
    · obtain rfl := post
      exact ⟨_, w, rfl, rest, rfl, by simp [Local.mine_holding],
        Local.holding_drop _ (by rw [Local.mine_holding])⟩
    obtain ⟨-, rfl⟩ := post
    exact ⟨(Local.holding e).setMine ip ((Local.holding e).mine ip + 1), w, rfl, rest, rfl,
      two e ip, Local.holding_pass ip⟩
  | dirlink e name inum =>
    refine safe_ite (fun hi => ?_) fun _ => safe_pure rfl
    refine discard_spec (locked_spec any fun w rest => ?_)
    refine safe_mono ?_ (dirlink_spec layout (mineOne e w) rfl (by simp) rest name hi)
    rintro _ _ ⟨w', rfl, rest'⟩
    exact ⟨w', by simp, rest'⟩
  | unlink e name =>
    refine safe_seq ?_ (locked_general any (R := HasOf id) fun w rest => ?_)
    · rintro (_ | ip) _ rfl
      · exact safe_pure rfl
      · exact iputOne ip
    refine safe_seq ?_ (dirlookup_spec any (mineOne e w) (by simp) rest name)
    rintro (_ | ⟨off, ip⟩) _ ⟨-, post⟩
    · obtain rfl := post
      exact safe_pure ⟨_, w, rfl, rest, rfl, by simp [Local.mine_holding],
        Local.holding_drop _ (by rw [Local.mine_holding])⟩
    obtain ⟨align, rfl⟩ := post
    set h := ((Local.holding e).setHold e (.own w)).setMine ip
      (((Local.holding e).setHold e (.own w)).mine ip + 1)
    have own : h.hold e = .own w := by simp [h]
    have pos : 0 < h.mine e := two e ip
    refine safe_seq ?_ (writeEntry_spec layout pos rfl own rest
      (by decide : "unlink: writei" ≠ _) [] (Nat.lt_trans Nat.zero_lt_one layout.root) align)
    rintro _ _ ⟨w', rfl, rest'⟩
    refine safe_pure ⟨(Local.holding e).setMine ip ((Local.holding e).mine ip + 1), w', ?_, rest',
      rfl, two e ip, Local.holding_pass ip⟩
    exact Local.setHold_setHold ((Local.holding e).setMine ip _) e (.own w) (.own w')

/-! ## Runs -/

/-- Let any number of processes run inode operations in any interleaving.  Whenever none is under
way the disk is consistent; `bfree` never finds a block free; and `readi` does not change the
disk. -/
theorem block_ownership (layout : sb.Layout) {disk : Disk} (image : Consistent sb disk)
    (dirs : DirsOk sb disk) (es : List (Sched T Op)) :
    let M : Pool T Op (State T) String := (Pool.idle (State.boot disk)).run (Op.code sb) es
    (M.Quiet → Consistent sb M.shared.disk) ∧
      (∀ t, M.code t ≠ .stop "freeing free block") ∧
      ∀ t e off n, M.doing t = some (.readi e off n) →
        (M.sched (Op.code sb) (.step t)).shared.disk = M.shared.disk := by
  intro M
  have within : Pool.Within (Inv sb) anyStop (fun op => Op.guar op)
      (fun msg => msg ≠ "freeing free block") Local.idle M :=
    (Pool.within_idle (inv_boot image dirs)).run (fun t op => op.code_spec layout t)
      (Pool.along_of_forall (fun _ _ => trivial) es _)
  refine ⟨fun quiet => (within.quiet quiet).consistent, fun t stopped => ?_,
    fun t e off n doing => ?_⟩
  · exact within.stop stopped rfl
  · exact within.step doing (fun _ => rfl) trivial

/-! A disk as `mkfs` lays it out, with no inodes yet. -/

def freshSb : Superblock where
  size := 1000
  nblocks := 941
  ninodes := 200
  inodestart := 32
  bmapstart := 58

def freshDisk : Disk := fun b k =>
  if b = 58 then (if k.val < 7 then 255 else if k.val = 7 then 7 else 0) else 0

theorem freshSb_layout : freshSb.Layout where
  nblocks_le := by decide
  size_le := by decide
  root := by decide
  inodes := by decide
  bitmap := by decide

theorem inode_fresh {i : ℕ} (hi : i < freshSb.ninodes) : (inode freshSb freshDisk i).type = 0 := by
  have block : freshDisk (freshSb.IBLOCK i) = Block.zero := by
    have : freshSb.IBLOCK i ≠ 58 := by
      simp only [Superblock.IBLOCK, freshSb, IPB, BSIZE] at hi ⊢
      omega
    funext k
    simp [freshDisk, this, Block.zero]
  simp only [inode, block, Block.dinode, Dinode.ofWords, Block.word_zero]
  rfl

theorem inUse_fresh : ∀ b < freshSb.size, inUse freshSb freshDisk b = true ↔ b < freshSb.nmeta := by
  decide +kernel

theorem freshDisk_consistent : Consistent freshSb freshDisk where
  extent := fun i hi type => absurd (inode_fresh hi) type
  distinct := fun i hi _ _ type => absurd (inode_fresh hi) type
  area := fun i hi type => absurd (inode_fresh hi) type
  bitmap := fun b hb => by
    rw [inUse_fresh b hb]
    refine ⟨.inl, fun h => h.resolve_right ?_⟩
    rintro ⟨i, hi, type, -⟩
    exact type (inode_fresh hi)

theorem freshDisk_dirsOk : DirsOk freshSb freshDisk := fun i hi dir => by
  rw [inode_fresh hi] at dir
  exact absurd dir (by decide)

/-- Two processes each allocate an inode; one writes a byte, the other enters a name. -/
def twoWriters : List (Sched (Fin 2) Op) :=
  [.start 0 (.ialloc T_FILE), .start 1 (.ialloc T_DIR)] ++
    (List.replicate 4 [.step 0, .step 1]).flatten ++
    [.start 0 (.writei 0 (fun _ => 7) 0 1), .start 1 (.dirlink 1 [46] 1)] ++
    (List.replicate 25 [.step 0, .step 1]).flatten

/-- Both processes have come to their end, and the disk is consistent. -/
theorem block_ownership_twoWriters :
    (∀ t, (((Pool.idle (State.boot freshDisk)).run (Op.code freshSb) twoWriters).code t).done = true) ∧
      Consistent freshSb
        ((Pool.idle (State.boot freshDisk)).run (Op.code freshSb) twoWriters).shared.disk := by
  have quiet : ∀ t, (((Pool.idle (State.boot freshDisk)).run (Op.code freshSb)
      twoWriters).code t).done = true := by decide +kernel
  exact ⟨quiet, (block_ownership freshSb_layout freshDisk_consistent freshDisk_dirsOk twoWriters).1
    quiet⟩

end Xv6.Fs
