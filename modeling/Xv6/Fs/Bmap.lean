import Xv6.Fs.Owner

/-!
# Allocating and mapping blocks

The specifications of `balloc`, `bfree`, `iupdate` and `bmap` for a caller that owns its inode. 
`Keeps` is the judgement for all specifications of `fs.c`: the code keeps the invariant of block
ownership at every action and never stops at the panic of `bfree`.
-/

namespace Xv6.Fs

open Lib Function

variable {sb : Superblock} {T : Type}

theorem wp_bread {b : ℕ} {Q : Block → State T → Prop} {E : String → State T → Prop} {s : State T}
    (ok : b < FSSIZE → Q (s.disk b) s) (stop : E "incorrect blockno" s) : wp (bread b) Q E s := by
  unfold bread
  rw [wp_ite]
  refine ⟨fun _ => stop, fun small => ?_⟩
  rw [wp_bind, wp_get, wp_pure]
  exact ok (Nat.lt_of_not_le small)

theorem bitmap_place (sb : Superblock) {j bi : ℕ} (hbi : bi < BPB) :
    sb.BBLOCK (j * BPB + bi) = sb.BBLOCK (j * BPB) ∧ (j * BPB + bi) % BPB = bi := by
  simp only [Superblock.BBLOCK, BPB, BSIZE] at *
  omega

theorem setBlock_setBit {s : State T} {j bi : ℕ} (hbi : bi < BPB) (v : Bool) :
    (s.setBlock (sb.BBLOCK (j * BPB)) fun bp => bp.setBit bi v) =
      { s with disk := setInUse sb s.disk (j * BPB + bi) v } := by
  rw [State.setBlock, setInUse, (bitmap_place sb hbi).1, (bitmap_place sb hbi).2]

variable [DecidableEq T] [Fintype T] {t : T} {e : Fin NINODE} {w : Work} {g : Local} {α : Type}

variable (sb) in
/-- Code that keeps the invariant and does not stop at the panic of `bfree`. -/
abbrev Keeps (guar : State T → State T → Prop) (t : T) (c : FsM T α) (Q : α → Local → Prop)
    (g : Local) : Prop :=
  Safe (Inv sb) (fun _ _ => True) guar (fun msg => msg ≠ "freeing free block") t c Q g

abbrev anyChange : State T → State T → Prop := fun _ _ => True

omit [DecidableEq T] [Fintype T] in
theorem anyStill (s s' : State T) (_ : s'.disk = s.disk) : anyChange s s' := trivial

theorem inv_again {G : T → Local} {s : State T} (inv : Inv sb G s) :
    Inv sb (update G t (G t)) s := by
  rwa [update_eq_self]

/-! ## Allocating and freeing blocks -/

/-- What the caller of `balloc` has afterwards. -/
def Allocated (sb : Superblock) (g : Local) (addr : Word) (g' : Local) : Prop :=
  addr ≠ 0 ∧ addr.toNat < sb.size ∧ g' = g.setLimbo (some (addr.toNat, true))

/-- What the search for a free block leaves. -/
def Searched (sb : Superblock) (g : Local) : Option ℕ → Local → Prop
  | none, g' => g' = g
  | some b, g' => sb.nmeta ≤ b ∧ b < sb.size ∧ g' = g.setLimbo (some (b, false))

theorem ballocFrom_spec (layout : sb.Layout) (hw : g.hold e = .own w) (none_g : g.limbo = none) :
    ∀ n j, Keeps sb anyChange t (ballocFrom sb n j : FsM T Word) (Allocated sb g) g
  | 0, _ => by
      unfold ballocFrom
      exact (by decide : "balloc: out of blocks" ≠ "freeing free block")
  | n + 1, j => by
      unfold ballocFrom
      refine safe_bind (safe_mono (Q := Searched sb g) ?_ ?_)
      · rintro (_ | b) g' post
        · rw [show g' = g from post]
          exact ballocFrom_spec layout hw none_g n (j + 1)
        obtain ⟨lo, hi, rfl⟩ := post
        have small : b < 2 ^ 32 := by
          have := layout.size_le
          simp only [FSSIZE] at this
          omega
        have num : (BitVec.ofNat 32 b).toNat = b := by
          rw [BitVec.toNat_ofNat, Nat.mod_eq_of_lt small]
        refine safe_bind (safe_atomically fun s G inv here => ?_)
        have hw' : (G t).hold e = .own w := by rw [here]; exact hw
        have lim : (G t).limbo = some (b, false) := by rw [here]; rfl
        rw [wp_bind]
        refine wp_bread (fun _ => ?_) ⟨trivial, by decide, _, inv_again inv⟩
        refine ⟨trivial, _, inv.bzero layout hw' lim, ?_, ?_, ?_⟩
        · intro zero
          have := Nat.zero_le (sb.bmapstart + sb.size / BPB)
          have := layout.bitmap
          rw [zero] at num
          simp at num
          omega
        · omega
        · rw [num, here]
          rfl
      refine safe_atomically fun s G inv here => ?_
      obtain rfl := here
      unfold ballocBlock
      rw [wp_bind]
      refine wp_bread (fun _ => ?_) ⟨trivial, by decide, _, inv_again inv⟩
      split
      next bi found =>
        have range := List.mem_range.1 (List.mem_of_find?_eq_some found)
        have good := List.find?_some found
        simp only [Bool.and_eq_true, decide_eq_true_eq, Bool.not_eq_true'] at good
        have free : inUse sb s.disk (j * BPB + bi) = false := by
          rw [inUse, (bitmap_place sb range).1, (bitmap_place sb range).2]
          exact good.2
        have inv' := inv.take layout hw none_g good.1 free
        rw [log_write, wp_bind, wp_modify, wp_pure, setBlock_setBit range]
        refine ⟨trivial, _, inv', ?_, good.1, rfl⟩
        obtain ⟨-, r, blocks⟩ := inv'
        have mine := blocks.mine (t := t) (e := e) (w := w) (by simpa using hw)
        exact (mine.limboArea (j * BPB + bi) false (by simp)).1
      · exact ⟨trivial, _, inv_again inv, rfl⟩

theorem balloc_spec (layout : sb.Layout) (hw : g.hold e = .own w) (none_g : g.limbo = none) :
    Keeps sb anyChange t (balloc sb : FsM T Word) (Allocated sb g) g :=
  ballocFrom_spec layout hw none_g _ _

theorem bfree_spec (layout : sb.Layout) (hw : g.hold e = .own w) {b : Word} {p : FilePos}
    (at_p : w.slot p = some b.toNat) :
    Keeps sb anyChange t (bfree sb b : FsM T Unit)
      (fun _ g' => g' = g.setHold e (.own { w with slot := update w.slot p none })) g := by
  refine safe_atomically fun s G inv here => ?_
  subst here
  rw [wp_bind]
  refine wp_bread (fun _ => ?_) ⟨trivial, by decide, _, inv_again inv⟩
  have used : inUse sb s.disk b.toNat = true := by
    obtain ⟨-, r, blocks⟩ := inv
    exact (blocks.mine hw).used p _ at_p
  rw [inUse] at used
  rw [if_pos used, log_write, wp_modify]
  exact ⟨trivial, _, inv.bfree layout hw at_p, rfl⟩

/-! ## The fields of an owned inode -/

section Fields

variable {guar : State T → State T → Prop} (still : ∀ s s' : State T, s'.disk = s.disk → guar s s')
include still

theorem getDin_spec (hw : g.hold e = .own w) :
    Keeps sb guar t (getDin e) (fun d g' => d = w.mem ∧ g' = g) g := by
  refine safe_read (fun s => still s s rfl) fun s G inv here => ⟨?_, rfl⟩
  exact (inv.1.own t e w (by rw [here, hw])).2.2

theorem setDin_spec (hw : g.hold e = .own w) (f : Dinode → Dinode)
    (dir : (f w.mem).type = T_DIR → w.mem.type = T_DIR) :
    Keeps sb guar t (setDin e f)
      (fun _ g' => g' = g.setHold e (.own { w with mem := f w.mem })) g := by
  refine safe_change fun s G inv here => ⟨still _ _ rfl, _, ?_, rfl⟩
  subst here
  have mem := (inv.1.own t e w hw).2.2
  rw [show (s.setInode e fun ip => { ip with din := f ip.din }) =
    s.setInode e fun ip => { ip with din := f w.mem } by simp only [State.setInode, mem]]
  exact inv.setDin hw (f w.mem) dir

end Fields

theorem iupdate_spec (layout : sb.Layout) (hw : g.hold e = .own w)
    (type : w.mem.type = w.disk.type) :
    Keeps sb anyChange t (iupdate sb e)
      (fun _ g' => g' = g.setHold e (.own { w with disk := w.mem })) g := by
  refine safe_atomically fun s G inv here => ?_
  subst here
  obtain ⟨-, num, mem⟩ := inv.1.own t e w hw
  rw [wp_bind, wp_get, wp_bind]
  refine wp_bread (fun _ => ?_) ⟨trivial, by decide, _, inv_again inv⟩
  have some_type : w.mem.type ≠ 0 := by
    obtain ⟨-, r, blocks⟩ := inv
    exact type ▸ (blocks.mine hw).type
  rw [log_write, wp_modify, num, mem]
  exact ⟨trivial, _, inv.iupdate layout hw some_type, rfl⟩

theorem iupdate_free (layout : sb.Layout) (hw : g.hold e = .own w) (empty : ∀ p, w.slot p = none)
    (type : w.mem.type = 0) :
    Keeps sb anyChange t (iupdate sb e) (fun _ g' => g' = g.setHold e .stale) g := by
  refine safe_atomically fun s G inv here => ?_
  subst here
  obtain ⟨-, num, mem⟩ := inv.1.own t e w hw
  rw [wp_bind, wp_get, wp_bind]
  refine wp_bread (fun _ => ?_) ⟨trivial, by decide, _, inv_again inv⟩
  rw [log_write, wp_modify, num, mem]
  exact ⟨trivial, _, inv.free layout hw empty type, rfl⟩

/-! ## Mapping the blocks of a file -/

/-- The inode may have got new blocks; nothing else has changed. -/
structure Work.Extends (w w' : Work) : Prop where
  inum : w'.inum = w.inum
  disk : w'.disk = w.disk
  mem : ∃ a, w'.mem = { w.mem with addrs := a }

theorem Work.Extends.refl (w : Work) : w.Extends w := ⟨rfl, rfl, _, rfl⟩

theorem Work.Extends.trans {w₁ w₂ w₃ : Work} (h : w₁.Extends w₂) (h' : w₂.Extends w₃) :
    w₁.Extends w₃ := by
  obtain ⟨a, mem⟩ := h.mem
  obtain ⟨a', mem'⟩ := h'.mem
  exact ⟨h'.inum.trans h.inum, h'.disk.trans h.disk, a', by rw [mem', mem]⟩

namespace Work.Grown

variable {n : ℕ}

theorem addr_eq_zero_iff (h : w.Grown n) {k : ℕ} (hk : k < NDIRECT) : w.mem.addr k = 0 ↔ n ≤ k := by
  have at_k := h.extent.data k
  rw [h.slot, Dinode.blocks, if_pos hk, ptr_isSome] at at_k
  rw [← not_lt, ← at_k, not_not]

theorem slot_data (h : w.Grown n) {k : ℕ} (hk : k < NDIRECT) (ne : w.mem.addr k ≠ 0) :
    w.slot (.data k) = some (w.mem.addr k).toNat := by
  rw [h.slot, Dinode.blocks, if_pos hk, ptr_of_ne ne]

theorem indirect_eq_zero_iff (h : w.Grown n) : w.mem.addr NDIRECT = 0 ↔ n ≤ NDIRECT := by
  have ind : (ptr (w.mem.addr NDIRECT)).isSome ↔ NDIRECT < n := by
    rw [← h.extent.indirect, h.slot]
    rfl
  rw [← not_lt, ← ind, ptr_isSome, not_not]

end Work.Grown

theorem max_succ_of_lt {k n : ℕ} (h : k < n) : max n (k + 1) = n := max_eq_left h

theorem addrAlloc_direct (layout : sb.Layout) (hw : g.hold e = .own w) (none_g : g.limbo = none)
    {n k : ℕ} (grown : w.Grown n) (hk : k < NDIRECT) (le : k ≤ n) :
    Keeps sb anyChange t (addrAlloc sb e k)
      (fun addr g' => ∃ w', g' = g.setHold e (.own w') ∧ w.Extends w' ∧ w'.Grown (max n (k + 1)) ∧
        w'.slot (.data k) = some addr.toNat ∧ (k < n → w' = w)) g := by
  unfold addrAlloc
  refine safe_seq ?_ (getDin_spec anyStill hw)
  rintro _ _ ⟨rfl, rfl⟩
  refine safe_ite (fun zero => ?_) fun ne => ?_
  · have last : n = k := Nat.le_antisymm ((grown.addr_eq_zero_iff hk).1 zero) le
    subst last
    refine safe_seq ?_ (balloc_spec layout hw none_g)
    rintro addr _ ⟨ne, -, rfl⟩
    have none_n : w.slot (.data n) = none := by
      rw [grown.slot, Dinode.blocks, if_pos hk, zero, ptr_zero]
    refine safe_bind (safe_change fun s G inv here => ⟨trivial, ?_⟩)
    have hw' : (G t).hold e = .own w := by rw [here]; exact hw
    have mem := (inv.1.own t e w hw').2.2
    have inv' := inv.assign layout hw' (by rw [here]; rfl) (p := .data n) none_n w.ind
      (by simp) (w.mem.setAddr n addr) fun h => h
    rw [show (s.setInode e fun ip => { ip with din := ip.din.setAddr n addr }) =
      s.setInode e fun ip => { ip with din := w.mem.setAddr n addr } by
        simp only [State.setInode, mem]]
    refine ⟨_, inv', { w with
      mem := w.mem.setAddr n addr, slot := update w.slot (.data n) (some addr.toNat) },
      ?_, ⟨rfl, rfl, _, rfl⟩, ⟨?_, fun j => ?_, ?_⟩, update_self .., fun lt => ?_⟩
    · rw [here, Local.setLimbo_none _ _ _ _ none_g]
    · dsimp only
      rw [Dinode.blocks_setAddr _ _ _ hk, ptr_of_ne ne, grown.slot]
    · dsimp only
      rw [update_apply]
      split
      next j_n =>
        simp only [FilePos.data.injEq] at j_n
        simp [j_n]
      next j_n =>
        simp only [FilePos.data.injEq] at j_n
        rw [grown.extent.data]
        omega
    · dsimp only
      rw [update_of_ne (by simp), grown.extent.indirect]
      omega
    · exact absurd lt (Nat.lt_irrefl n)
  · have lt : k < n := Nat.lt_of_not_le fun ge => ne ((grown.addr_eq_zero_iff hk).2 ge)
    refine safe_pure ⟨w, (Local.setHold_self _ _ _ hw).symm, .refl w, ?_, grown.slot_data hk ne,
      fun _ => rfl⟩
    rwa [max_succ_of_lt lt]

/-- The inode owns the blocks it points to: the first `n` data blocks and an indirect block. -/
structure Work.Based (w : Work) (n : ℕ) : Prop where
  slot : w.slot = w.mem.blocks w.ind
  data : ∀ k, (w.slot (.data k)).isSome ↔ k < n
  indirect : w.mem.addr NDIRECT ≠ 0

theorem Work.Based.slot_indirect {n : ℕ} (h : w.Based n) :
    w.slot .indirect = some (w.mem.addr NDIRECT).toNat := by
  rw [h.slot]
  exact ptr_of_ne h.indirect

theorem Work.Based.slot_data {n j : ℕ} (h : w.Based n) (hj : j < NINDIRECT) :
    w.slot (.data (NDIRECT + j)) = ptr (w.ind j) := by
  have : NDIRECT + j < MAXFILE := by
    simp only [MAXFILE]
    omega
  rw [h.slot, Dinode.blocks, if_neg (by omega), if_pos ⟨this, h.indirect⟩, Nat.add_sub_cancel_left]

theorem Work.Based.grown {n : ℕ} (h : w.Based n) (lt : NDIRECT < n) : w.Grown n :=
  ⟨h.slot, h.data, by simp [h.slot_indirect, lt]⟩

theorem Work.Grown.based {n : ℕ} (h : w.Grown n) (lt : NDIRECT < n) : w.Based n :=
  ⟨h.slot, h.extent.data, fun zero => absurd (h.indirect_eq_zero_iff.1 zero) (Nat.not_le.2 lt)⟩

theorem addrAlloc_indirect (layout : sb.Layout) (hw : g.hold e = .own w) (none_g : g.limbo = none)
    {n : ℕ} (grown : w.Grown n) :
    Keeps sb anyChange t (addrAlloc sb e NDIRECT)
      (fun addr g' => ∃ w', g' = g.setHold e (.own w') ∧ w.Extends w' ∧ w'.Based n ∧
        addr = w'.mem.addr NDIRECT ∧ (NDIRECT < n → w' = w)) g := by
  unfold addrAlloc
  refine safe_seq ?_ (getDin_spec anyStill hw)
  rintro _ _ ⟨rfl, rfl⟩
  refine safe_ite (fun zero => ?_) fun ne => ?_
  · have last : n ≤ NDIRECT := grown.indirect_eq_zero_iff.1 zero
    refine safe_seq ?_ (balloc_spec layout hw none_g)
    rintro addr _ ⟨ne, -, rfl⟩
    have none_ind : w.slot .indirect = none := by
      rw [grown.slot, Dinode.blocks, zero, ptr_zero]
    refine safe_bind (safe_change fun s G inv here => ⟨trivial, ?_⟩)
    have hw' : (G t).hold e = .own w := by rw [here]; exact hw
    have mem := (inv.1.own t e w hw').2.2
    have inv' := inv.assign layout hw' (by rw [here]; rfl) (p := .indirect) none_ind
      (fun _ => 0) (by simp) (w.mem.setAddr NDIRECT addr) fun h => h
    rw [show (s.setInode e fun ip => { ip with din := ip.din.setAddr NDIRECT addr }) =
      s.setInode e fun ip => { ip with din := w.mem.setAddr NDIRECT addr } by
        simp only [State.setInode, mem]]
    have fresh : (w.mem.setAddr NDIRECT addr).addr NDIRECT = addr := by
      rw [Dinode.addr_setAddr _ _ _ _ (by decide), if_pos rfl]
    refine ⟨_, inv', { w with
      mem := w.mem.setAddr NDIRECT addr
      slot := update w.slot .indirect (some addr.toNat)
      ind := fun _ => 0 },
      ?_, ⟨rfl, rfl, _, rfl⟩, ⟨?_, fun j => ?_, ?_⟩, fresh.symm, fun lt => ?_⟩
    · rw [here, Local.setLimbo_none _ _ _ _ none_g]
    · dsimp only
      rw [Dinode.blocks_setAddr_indirect _ w.ind _ ne zero fun _ => rfl, grown.slot]
    · dsimp only
      rw [update_of_ne (by simp)]
      exact grown.extent.data j
    · rwa [← fresh] at ne
    · exact absurd lt (Nat.not_lt.2 last)
  · have lt : NDIRECT < n := Nat.lt_of_not_le fun ge => ne (grown.indirect_eq_zero_iff.2 ge)
    exact safe_pure ⟨w, (Local.setHold_self _ _ _ hw).symm, .refl w, grown.based lt, rfl, fun _ => rfl⟩

theorem bread_indirect {guar : State T → State T → Prop}
    (still : ∀ s s' : State T, s'.disk = s.disk → guar s s') (hw : g.hold e = .own w) {b : ℕ}
    (at_b : w.slot .indirect = some b) :
    Keeps sb guar t (Code.atomically (bread b))
      (fun a g' => (∀ j < NINDIRECT, a.word j = w.ind j) ∧ g' = g) g := by
  refine safe_atomically fun s G inv here => ?_
  subst here
  refine wp_bread (fun _ => ⟨still _ _ rfl, _, inv_again inv, ?_, rfl⟩)
    ⟨still _ _ rfl, by decide, _, inv_again inv⟩
  obtain ⟨-, r, blocks⟩ := inv
  exact (blocks.mine hw).ind b at_b

theorem bmap_spec (layout : sb.Layout) (hw : g.hold e = .own w) (none_g : g.limbo = none)
    {n bn : ℕ} (grown : w.Grown n) (le : bn ≤ n) :
    Keeps sb anyChange t (bmap sb e bn)
      (fun addr g' => ∃ w', g' = g.setHold e (.own w') ∧ w.Extends w' ∧ w'.Grown (max n (bn + 1)) ∧
        w'.slot (.data bn) = some addr.toNat ∧ (bn < n → w' = w)) g := by
  unfold bmap
  refine safe_ite (fun near => addrAlloc_direct layout hw none_g grown near le) fun far => ?_
  refine safe_ite (fun inside => ?_) fun _ => (by decide : "bmap: out of range" ≠ _)
  obtain ⟨j, rfl⟩ : ∃ j, bn = NDIRECT + j := ⟨bn - NDIRECT, by omega⟩
  rw [Nat.add_sub_cancel_left] at inside ⊢
  refine safe_seq ?_ (addrAlloc_indirect layout hw none_g grown)
  rintro addr _ ⟨w₁, rfl, ext, based, rfl, same⟩
  have hw₁ : (g.setHold e (.own w₁)).hold e = .own w₁ := by simp
  refine safe_seq ?_ (bread_indirect anyStill hw₁ based.slot_indirect)
  rintro a _ ⟨words, rfl⟩
  rw [words j inside]
  have at_j := based.slot_data inside
  refine safe_ite (fun zero => ?_) fun ne => ?_
  · rw [zero, ptr_zero] at at_j
    have last : n = NDIRECT + j := by
      refine Nat.le_antisymm (Nat.not_lt.1 fun lt => ?_) le
      have := (based.data (NDIRECT + j)).2 lt
      simp [at_j] at this
    refine safe_seq ?_ (balloc_spec layout hw₁ none_g)
    rintro fresh _ ⟨ne, -, rfl⟩
    refine safe_bind (safe_atomically fun s G inv here => ?_)
    have hw' : (G t).hold e = .own w₁ := by rw [here]; exact hw₁
    have inv' := inv.assignIndirect layout hw' (by rw [here]; rfl) based.slot_indirect inside at_j
      fresh
    rw [log_write, wp_modify]
    refine ⟨trivial, _, inv', { w₁ with
      slot := update w₁.slot (.data (NDIRECT + j)) (some fresh.toNat)
      ind := update w₁.ind j fresh },
      ?_, ext.trans ⟨rfl, rfl, _, rfl⟩, Work.Based.grown ⟨?_, fun k => ?_, based.indirect⟩ ?_,
      update_self .., fun lt => ?_⟩
    · rw [here, Local.setLimbo_none (g.setHold e (.own w₁)) _ _ _ none_g, Local.setHold_setHold]
    · dsimp only
      rw [Dinode.blocks_setInd _ _ _ inside based.indirect, ptr_of_ne ne, based.slot]
    · dsimp only
      rw [update_apply]
      split
      next k_j =>
        simp only [FilePos.data.injEq] at k_j
        simp [k_j]
      next k_j =>
        simp only [FilePos.data.injEq] at k_j
        rw [based.data]
        omega
    · omega
    · omega
  · have lt : NDIRECT + j < n := (based.data _).1 (by rw [at_j, ptr_of_ne ne]; rfl)
    obtain rfl := same (by omega)
    refine safe_pure ⟨w₁, rfl, ext, ?_, by rw [at_j, ptr_of_ne ne], fun _ => rfl⟩
    rwa [max_succ_of_lt lt]

theorem bmap_read {guar : State T → State T → Prop}
    (still : ∀ s s' : State T, s'.disk = s.disk → guar s s') (hw : g.hold e = .own w)
    {n bn : ℕ} (grown : w.Grown n) (lt : bn < n) :
    Keeps sb guar t (bmap sb e bn)
      (fun addr g' => g' = g ∧ w.slot (.data bn) = some addr.toNat) g := by
  unfold bmap addrAlloc
  refine safe_ite (fun near => ?_) fun far => ?_
  · refine safe_seq ?_ (getDin_spec still hw)
    rintro _ _ ⟨rfl, rfl⟩
    refine safe_ite (fun zero => ?_) fun ne => safe_pure ⟨rfl, grown.slot_data near ne⟩
    exact absurd ((grown.addr_eq_zero_iff near).1 zero) (Nat.not_le.2 lt)
  refine safe_ite (fun inside => ?_) fun _ => (by decide : "bmap: out of range" ≠ _)
  obtain ⟨j, rfl⟩ : ∃ j, bn = NDIRECT + j := ⟨bn - NDIRECT, by omega⟩
  rw [Nat.add_sub_cancel_left] at inside ⊢
  have based := grown.based (by omega)
  refine safe_bind (safe_seq ?_ (getDin_spec still hw))
  rintro _ _ ⟨rfl, rfl⟩
  rw [if_neg based.indirect]
  refine safe_pure (safe_seq ?_ (bread_indirect still hw based.slot_indirect))
  rintro a _ ⟨words, rfl⟩
  rw [words j inside]
  have at_j := based.slot_data inside
  refine safe_ite (fun zero => ?_) fun ne => safe_pure ⟨rfl, by rw [at_j, ptr_of_ne ne]⟩
  have := (grown.extent.data _).2 lt
  rw [at_j, zero, ptr_zero] at this
  cases this

end Xv6.Fs
