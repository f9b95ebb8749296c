import Xv6.Fs.Ghost

/-!
# What the code does with an inode it owns

One lemma for every kind of action: what it does to the ghost of the process that takes it, and that
the invariant holds again.  The actions of an owner go through `Inv.change`, so each only has to say
what happens to the owner's own blocks.
-/

namespace Xv6.Fs

open Lib Function

variable {g : Local} {b i : ℕ}

/-! ## The cache -/

section CacheFacts

variable {sb : Superblock} {T : Type} [Fintype T] {G : T → Local} {s s' : State T}
  {t : T} {e : Fin NINODE} {w w' : Work}

namespace Cache

variable (h : Cache sb G s)
include h

theorem mine_le (t : T) (e : Fin NINODE) : (G t).mine e ≤ (s.icache e).ref := by
  have := Finset.single_le_sum (f := fun u => (G u).mine e) (fun _ _ => Nat.zero_le _)
    (Finset.mem_univ t)
  have := h.refs e
  omega

theorem ref_pos (hold : (G t).hold e ≠ .no) : 0 < (s.icache e).ref :=
  Nat.lt_of_lt_of_le (h.anchored t e hold) (h.mine_le t e)

theorem holder_unique {u : T} (hu : (G u).hold e ≠ .no) (ht : (G t).hold e ≠ .no) : u = t :=
  Option.some.inj (((h.locked u e).2 hu).symm.trans ((h.locked t e).2 ht))

theorem apart (hw : (G t).hold e = .own w) {u : T} {d : Fin NINODE} {v : Work}
    (hv : (G u).hold d = .own v) (same : v.inum = w.inum) : u = t ∧ d = e := by
  have hold : (G t).hold e ≠ .no := by simp [hw]
  have hold' : (G u).hold d ≠ .no := by simp [hv]
  have d_e : d = e := h.unique d e (h.ref_pos hold') (h.ref_pos hold)
    (by rw [(h.own u d v hv).2.1, (h.own t e w hw).2.1, same])
  subst d_e
  exact ⟨h.holder_unique hold' hold, rfl⟩

theorem not_held (pos : 0 < (s.icache e).ref)
    (none_own : ∀ u v, (G u).hold e ≠ .own v) : ¬ Held G (s.icache e).inum := by
  rintro ⟨u, d, v, hv, num⟩
  have held : (G u).hold d ≠ .no := by simp [hv]
  have d_e : d = e := h.unique d e (h.ref_pos held) pos (by rw [(h.own u d v hv).2.1, num])
  exact none_own u v (d_e ▸ hv)

theorem unlocked (free : (s.icache e).lock = none) (u : T) : (G u).hold e = .no :=
  Classical.byContradiction fun held => absurd ((h.locked u e).2 held) (by simp [free])

theorem alone (held : (G t).hold e ≠ .no) (u : T) (ne : u ≠ t) : (G u).hold e = .no :=
  Classical.byContradiction fun held' => ne (h.holder_unique held' held)

end Cache

theorem Inv.ialloc (layout : sb.Layout) (inv : Inv sb G s) (hi : i < sb.ninodes)
    (free : (inode sb s.disk i).type = 0) {type : Short} (some_type : type ≠ 0) :
    Inv sb G { s with disk := writeInode sb s.disk i ⟨type, 0, 0, 0, 0, fun _ => 0⟩ } := by
  obtain ⟨cache, r, blocks⟩ := inv
  refine ⟨{ cache with coherent := fun d pos val unlocked => ?_ },
    blocks.ialloc layout hi free some_type⟩
  obtain ⟨din, some_d⟩ := cache.coherent d pos val unlocked
  refine ⟨?_, some_d⟩
  rw [inode_writeInode_ne]
  · exact din
  intro same
  have num : (s.icache d).inum = i := same
  rw [din, num] at some_d
  exact some_d free

variable [DecidableEq T]

theorem sum_mine_update (g : Local) (d : Fin NINODE) :
    ∑ u, (update G t g u).mine d + (G t).mine d = ∑ u, (G u).mine d + g.mine d := by
  rw [← Finset.add_sum_erase _ _ (Finset.mem_univ t),
    ← Finset.add_sum_erase _ (fun u => (G u).mine d) (Finset.mem_univ t)]
  have same : ∑ u ∈ Finset.univ.erase t, (update G t g u).mine d =
      ∑ u ∈ Finset.univ.erase t, (G u).mine d :=
    Finset.sum_congr rfl fun u hu => by rw [update_of_ne (Finset.ne_of_mem_erase hu)]
  rw [update_self, same]
  omega

namespace Cache

theorem entry (h : Cache sb G s) {x : Hold} {f : Inode T → Inode T} (pos_e : 0 < (s.icache e).ref)
    (alone : ∀ u, u ≠ t → (G u).hold e = .no) (hold : g.hold = update (G t).hold e x)
    (mine : g.mine = (G t).mine) (icache : s'.icache = (s.setInode e f).icache)
    (pointers : s'.pointers = s.pointers) (ref : (f (s.icache e)).ref = (s.icache e).ref)
    (inum : (f (s.icache e)).inum = (s.icache e).inum)
    (lock : ∀ u, (f (s.icache e)).lock = some u ↔ u = t ∧ x ≠ .no)
    (anchored : x ≠ .no → 0 < (G t).mine e) (bare : x = .bare → (f (s.icache e)).valid = false)
    (own : ∀ w, x = .own w → (f (s.icache e)).valid = true ∧ (s.icache e).inum = w.inum ∧
      (f (s.icache e)).din = w.mem)
    (coherent : x = .no → (f (s.icache e)).valid = true →
      (f (s.icache e)).din = inode sb s'.disk (s.icache e).inum ∧ (f (s.icache e)).din.type ≠ 0)
    (inodes : ∀ i < sb.ninodes, i ≠ (s.icache e).inum → inode sb s'.disk i = inode sb s.disk i) :
    Cache sb (update G t g) s' := by
  have here : s'.icache e = f (s.icache e) := by rw [icache, State.icache_setInode_same]
  have other (d : Fin NINODE) (ne : d ≠ e) : s'.icache d = s.icache d := by
    rw [icache, State.icache_setInode_ne _ _ _ ne]
  have refs (d : Fin NINODE) : (s'.icache d).ref = (s.icache d).ref := by
    by_cases d_e : d = e
    · rw [d_e, here, ref]
    · rw [other d d_e]
  have inums (d : Fin NINODE) : (s'.icache d).inum = (s.icache d).inum := by
    by_cases d_e : d = e
    · rw [d_e, here, inum]
    · rw [other d d_e]
  have holds (u : T) (d : Fin NINODE) := hold_update (G := G) g u d hold
  -- Only the process `t` can hold the entry `e`.
  have held (u : T) (some_u : (update G t g u).hold e ≠ .no) :
      u = t ∧ (update G t g u).hold e = x := by
    rw [holds] at some_u ⊢
    by_cases u_t : u = t
    · rw [if_pos ⟨u_t, rfl⟩]
      exact ⟨u_t, rfl⟩
    rw [if_neg fun both => u_t both.1] at some_u
    exact absurd (alone u u_t) some_u
  have elsewhere (u : T) (d : Fin NINODE) (ne : d ≠ e) :
      (update G t g u).hold d = (G u).hold d := by
    rw [holds, if_neg fun both => ne both.2]
  have mines (u : T) : (update G t g u).mine = (G u).mine := by
    rw [update_apply]
    split
    next u_t => rw [mine, u_t]
    · rfl
  refine ⟨fun u d => ?_, fun u d hd => ?_, fun u d hd => ?_, fun u d v hv => ?_,
    fun d pos val free => ?_, fun d => ?_, fun d d' pos pos' same => ?_, fun d pos => ?_⟩
  · by_cases d_e : d = e
    · subst d_e
      rw [here, lock, holds]
      by_cases u_t : u = t
      · simp [u_t]
      · simp [u_t, alone u u_t]
    · rw [other d d_e, elsewhere u d d_e]
      exact h.locked u d
  · rw [mines]
    by_cases d_e : d = e
    · subst d_e
      obtain ⟨rfl, is_x⟩ := held u hd
      exact anchored (is_x ▸ hd)
    rw [elsewhere u d d_e] at hd
    exact h.anchored u d hd
  · by_cases d_e : d = e
    · subst d_e
      obtain ⟨-, is_x⟩ := held u (by rw [hd]; simp)
      rw [here]
      exact bare (is_x.symm.trans hd)
    rw [elsewhere u d d_e] at hd
    rw [other d d_e]
    exact h.bare u d hd
  · by_cases d_e : d = e
    · subst d_e
      obtain ⟨-, is_x⟩ := held u (by rw [hv]; simp)
      rw [here, inum]
      exact own v (is_x.symm.trans hv)
    rw [elsewhere u d d_e] at hv
    rw [other d d_e]
    exact h.own u d v hv
  · rw [refs] at pos
    by_cases d_e : d = e
    · subst d_e
      rw [here] at val free ⊢
      rw [inum]
      refine coherent (Classical.byContradiction fun ne => ?_) val
      exact absurd ((lock t).2 ⟨rfl, ne⟩) (by simp [free])
    · rw [other d d_e] at val free ⊢
      rw [inodes _ (h.range d pos) fun same => d_e (h.unique d e pos pos_e same)]
      exact h.coherent d pos val free
  · rw [refs, pointers]
    simp only [mines]
    exact h.refs d
  · rw [refs] at pos pos'
    rw [inums, inums] at same
    exact h.unique d d' pos pos' same
  · rw [refs] at pos
    rw [inums]
    exact h.range d pos

theorem change (h : Cache sb G s) (hw : (G t).hold e = .own w)
    (hold : g.hold = update (G t).hold e (.own w')) (mine : g.mine = (G t).mine)
    (inum : w'.inum = w.inum)
    (icache : s'.icache = (s.setInode e fun ip => { ip with din := w'.mem }).icache)
    (pointers : s'.pointers = s.pointers)
    (inodes : ∀ i < sb.ninodes, i ≠ w.inum → inode sb s'.disk i = inode sb s.disk i) :
    Cache sb (update G t g) s' := by
  have held : (G t).hold e ≠ .no := by simp [hw]
  obtain ⟨valid, num, -⟩ := h.own t e w hw
  refine h.entry (h.ref_pos held) (fun u ne => ?_) hold mine icache pointers rfl rfl (fun u => ?_)
    (fun _ => h.anchored t e held) (by simp) (fun v hv => ?_) (by simp) ?_
  · exact Classical.byContradiction fun held' => ne (h.holder_unique held' held)
  · rw [(h.locked t e).2 held]
    simp [eq_comm]
  · obtain rfl := Hold.own.inj hv
    exact ⟨valid, by rw [num, inum], rfl⟩
  · rw [num]
    exact inodes

end Cache

theorem Inv.change (inv : Inv sb G s) (hw : (G t).hold e = .own w) (w' : Work)
    (lim : Option (ℕ × Bool))
    (icache : s'.icache = (s.setInode e fun ip => { ip with din := w'.mem }).icache)
    (pointers : s'.pointers = s.pointers)
    (step : ∀ r, Account sb (cells r G) s.disk → Mine sb w (G t).limbo s.disk →
      (∀ p, cells r G (.file w.inum p) = w.slot p) →
      Change sb w w' (G t).limbo lim s.disk s'.disk ∧
        Account sb (cells (update r w.inum w'.record)
          (update G t (((G t).setHold e (.own w')).setLimbo lim))) s'.disk) :
    Inv sb (update G t (((G t).setHold e (.own w')).setLimbo lim)) s' := by
  obtain ⟨cache, r, blocks⟩ := inv
  obtain ⟨c, account⟩ := step r blocks.account (blocks.mine hw) (blocks.file_cell hw)
  exact ⟨cache.change hw rfl rfl c.inum icache pointers c.inodes, _,
    blocks.change (fun _ _ _ => cache.apart hw) hw rfl c account⟩

end CacheFacts

/-! ## The actions of an owner -/

variable {sb : Superblock} {T : Type} [DecidableEq T]

theorem Block.word_of_zero {b : Block} (h : b = Block.zero) (j : ℕ) : b.word j = 0 := by
  rw [h, Block.word_zero]

theorem dirOk_zero (layout : sb.Layout) : DirOk sb Block.zero := by
  intro r _
  have byte (k : ℕ) : Block.zero.byte k = 0 := by simp [Block.byte, Block.zero]
  have zero : Block.zero.deInum r = 0 := by
    rw [Block.deInum, byte, byte]
    rfl
  rw [zero]
  exact Nat.lt_trans Nat.zero_lt_one layout.root

theorem cells_eq {r : ℕ → Rec} {G : T → Local} {c : Rec} {t : T} {f : Key T → Option ℕ}
    (file : ∀ p, f (.file i p) = c.slot p) (limbo : f (.limbo t) = g.limbo.map Prod.fst)
    (other : ∀ k, (∀ p, k ≠ .file i p) → k ≠ .limbo t → f k = cells r G k) (k : Key T) :
    cells (update r i c) (update G t g) k = f k := by
  cases k with
  | file j p =>
    by_cases j_i : j = i
    · subst j_i
      simp only [cells, update_self, file]
    rw [other _ (by simp [j_i]) (by simp)]
    simp only [cells, update_of_ne j_i]
  | limbo u =>
    by_cases u_t : u = t
    · subst u_t
      simp only [cells, update_self, limbo]
    rw [other _ (by simp) (by simpa using u_t)]
    simp only [cells, update_of_ne u_t]

variable [Fintype T] {G : T → Local} {s : State T} {t : T} {e : Fin NINODE} {w w' : Work}

theorem Inv.changeDisk (inv : Inv sb G s) (hw : (G t).hold e = .own w) (w' : Work)
    (lim : Option (ℕ × Bool)) (disk : Disk) (mem : w'.mem = w.mem)
    (step : ∀ r, Account sb (cells r G) s.disk → Mine sb w (G t).limbo s.disk →
      (∀ p, cells r G (.file w.inum p) = w.slot p) →
      Change sb w w' (G t).limbo lim s.disk disk ∧
        Account sb (cells (update r w.inum w'.record)
          (update G t (((G t).setHold e (.own w')).setLimbo lim))) disk) :
    Inv sb (update G t (((G t).setHold e (.own w')).setLimbo lim))
    { s with disk := disk } := by
  refine inv.change hw w' lim ?_ rfl step
  have same : { s.icache e with din := w'.mem } = s.icache e := by
    rw [mem, ← (inv.1.own t e w hw).2.2]
  rw [State.setInode]
  simp only [same, update_eq_self]

theorem Inv.setDin (inv : Inv sb G s) (hw : (G t).hold e = .own w) (d : Dinode)
    (dir : d.type = T_DIR → w.mem.type = T_DIR) :
    Inv sb (update G t ((G t).setHold e (.own { w with mem := d })))
      (s.setInode e fun ip => { ip with din := d }) := by
  refine inv.change hw { w with mem := d } (G t).limbo rfl rfl fun r account m files => ⟨?_, ?_⟩
  · exact ⟨rfl, fun _ _ _ => rfl, m.here, m.type, fun _ _ _ _ _ => rfl, m.zero,
      fun h => m.dirs (dir h), m.ind⟩
  · exact account.congr (cells_eq files rfl fun _ _ _ => rfl) fun _ => Iff.rfl

section

variable (layout : sb.Layout) (inv : Inv sb G s) (hw : (G t).hold e = .own w)
include layout inv hw

theorem Inv.assign (lim : (G t).limbo = some (b, true)) {p : FilePos} (none_p : w.slot p = none)
    (ind : ℕ → Word) (hind : if p = .indirect then ∀ j, ind j = 0 else ind = w.ind) (d : Dinode)
    (dir : d.type = T_DIR → w.mem.type = T_DIR) :
    Inv sb (update G t (((G t).setHold e (.own
        { w with mem := d, slot := update w.slot p (some b), ind := ind })).setLimbo none))
      (s.setInode e fun ip => { ip with din := d }) := by
  refine inv.change hw
    { w with mem := d, slot := update w.slot p (some b), ind := ind } none rfl rfl
    fun r account m files => ⟨?_, ?_⟩
  · have zero := m.zero b lim
    refine ⟨rfl, fun _ _ _ => rfl, m.here, m.type, fun _ _ _ _ _ => rfl, by simp,
      fun h k c at_k => ?_, fun c at_c j hj => ?_⟩
    · dsimp only at at_k
      rw [update_apply] at at_k
      split at at_k
      · obtain rfl := Option.some.inj at_k
        rw [State.disk_setInode, zero]
        exact dirOk_zero layout
      · exact m.dirs (dir h) k c at_k
    dsimp only at at_c ⊢
    rw [update_apply] at at_c
    split at at_c
    next p_ind =>
      obtain rfl := Option.some.inj at_c
      rw [if_pos p_ind.symm] at hind
      rw [State.disk_setInode, Block.word_of_zero zero, hind]
    next p_data =>
      rw [if_neg fun h => p_data h.symm] at hind
      rw [hind]
      exact m.ind c at_c j hj
  · have at_limbo : cells r G (.limbo t) = some b := by simp [cells, lim]
    refine (account.pass at_limbo (q := .file w.inum p) (by rw [files, none_p])).congr
      (cells_eq (fun q => ?_) (by simp) fun k file limbo => ?_) fun _ => Iff.rfl
    · by_cases q_p : q = p <;> simp [q_p, Work.record, files]
    · simp [file, limbo]

theorem Inv.assignIndirect {j : ℕ} (lim : (G t).limbo = some (b, true))
    (at_i : w.slot .indirect = some i)
    (hj : j < NINDIRECT) (none_j : w.slot (.data (NDIRECT + j)) = none) (addr : Word) :
    Inv sb (update G t (((G t).setHold e (.own
        { w with
          slot := update w.slot (.data (NDIRECT + j)) (some b)
          ind := update w.ind j addr })).setLimbo none))
      (s.setBlock i fun a => a.setWord j addr) := by
  refine inv.changeDisk hw { w with
    slot := update w.slot (.data (NDIRECT + j)) (some b)
    ind := update w.ind j addr } none _ rfl fun r account m files => ⟨?_, ?_⟩
  · have area := m.area _ _ at_i
    have other (c : ℕ) (ne : c ≠ i) : (s.setBlock i fun a => a.setWord j addr).disk c = s.disk c :=
      update_of_ne ne ..
    refine ⟨rfl, fun k hk _ => inode_update_data layout hk area.1 _, ?_, m.type,
      fun c _ _ files' _ => other c ?_, by simp, fun h k c at_k => ?_, fun c at_c k hk => ?_⟩
    · exact (inode_update_data layout m.inum area.1 _).trans m.here
    · rintro rfl
      exact files' _ at_i
    · dsimp only at at_k
      rw [update_apply] at at_k
      split at at_k
      · obtain rfl := Option.some.inj at_k
        have apart : b ≠ i := by
          rintro rfl
          exact m.apart _ _ _ lim at_i
        rw [show update s.disk i _ b = s.disk b from other b apart, m.zero b lim]
        exact dirOk_zero layout
      have apart : c ≠ i := by
        rintro rfl
        exact absurd (m.inj _ _ _ at_k at_i) (by simp)
      rw [show update s.disk i _ c = s.disk c from other c apart]
      exact m.dirs h k c at_k
    · dsimp only at at_c ⊢
      rw [update_of_ne (by simp)] at at_c
      obtain rfl : c = i := Option.some.inj (at_c.symm.trans at_i)
      rw [update_self, update_apply]
      split
      next k_j => rw [k_j, Block.word_setWord_same _ _ _ hj]
      next k_j =>
        rw [Block.word_setWord_ne _ _ k_j hk]
        exact m.ind c at_c k hk
  · have at_limbo : cells r G (.limbo t) = some b := by simp [cells, lim]
    refine (account.pass at_limbo (q := .file w.inum (.data (NDIRECT + j)))
      (by rw [files, none_j])).congr
      (cells_eq (fun q => ?_) (by simp) fun k file limbo => ?_) fun c => ?_
    · by_cases q_j : q = .data (NDIRECT + j) <;> simp [q_j, Work.record, files]
    · simp [file, limbo]
    refine and_congr_right fun hc => ?_
    rw [inUse_update_data layout hc (m.area _ _ at_i).1]

theorem Inv.take (none_t : (G t).limbo = none) (hb : b < sb.size)
    (free : inUse sb s.disk b = false) :
    Inv sb (update G t ((G t).setLimbo (some (b, false))))
      { s with disk := setInUse sb s.disk b true } := by
  have done := inv.changeDisk hw w (some (b, false)) (setInUse sb s.disk b true) rfl
    fun r account m files => ⟨?_, ?_⟩
  · rwa [Local.setHold_self _ _ _ hw] at done
  · refine ⟨rfl, fun i hi _ => inode_setInUse layout hi b true, ?_, m.type, fun c lo hi _ _ => ?_,
      by simp, fun h k c at_k => ?_, fun c at_c => ?_⟩
    · exact (inode_setInUse layout m.inum b true).trans m.here
    · exact setInUse_data layout hb true lo
    · rw [setInUse_data layout hb true (m.area _ _ at_k).1]
      exact m.dirs h k c at_k
    · rw [setInUse_data layout hb true (m.area _ _ at_c).1]
      exact m.ind c at_c
  have idle : ¬ (b < sb.size ∧ inUse sb s.disk b = true) := by simp [free]
  have inside : sb.nmeta ≤ b := Nat.le_of_not_lt fun fixed =>
    idle ((account.used_iff b).2 (.inl fixed))
  refine (account.take (p := .limbo t) (b := b) (by simp [cells, none_t]) idle ⟨inside, hb⟩
    (fun _ => Iff.rfl)).congr (cells_eq (fun q => ?_) (by simp) fun k file limbo => ?_) fun c => ?_
  · simp [Work.record, files]
  · simp [limbo]
  rw [inUse_setInUse]
  by_cases c_b : c = b <;> simp [c_b, hb]

theorem Inv.bzero {z : Bool} (lim : (G t).limbo = some (b, z)) :
    Inv sb (update G t ((G t).setLimbo (some (b, true))))
      (s.setBlock b fun _ => Block.zero) := by
  have done := inv.changeDisk hw w (some (b, true)) (update s.disk b Block.zero) rfl
    fun r account m files => ⟨?_, ?_⟩
  · rwa [Local.setHold_self _ _ _ hw] at done
  · have area := m.limboArea b z lim
    have other (p : FilePos) (c : ℕ) (at_p : w.slot p = some c) :
        update s.disk b Block.zero c = s.disk c := by
      refine update_of_ne ?_ ..
      rintro rfl
      exact m.apart p c z lim at_p
    refine ⟨rfl, fun i hi _ => inode_update_data layout hi area.1 _, ?_, m.type,
      fun c _ _ _ limbo => ?_, fun c at_c => ?_, fun h k c at_k => ?_, fun c at_c => ?_⟩
    · exact (inode_update_data layout m.inum area.1 _).trans m.here
    · refine update_of_ne ?_ ..
      rintro rfl
      exact limbo z lim
    · obtain rfl : b = c := by simpa using at_c
      exact update_self ..
    · rw [other _ c at_k]
      exact m.dirs h k c at_k
    · rw [other _ c at_c]
      exact m.ind c at_c
  · refine account.congr (cells_eq (fun p => ?_) (by simp [cells, lim]) fun _ _ _ => rfl)
      fun c => and_congr_right fun hc => ?_
    · rw [files, Work.record]
    · rw [inUse_update_data layout hc (m.limboArea b z lim).1]

theorem Inv.bfree {p : FilePos} (at_p : w.slot p = some b) :
    Inv sb (update G t ((G t).setHold e (.own
        { w with slot := update w.slot p none })))
      { s with disk := setInUse sb s.disk b false } := by
  refine inv.changeDisk hw { w with slot := update w.slot p none } (G t).limbo _ rfl
    fun r account m files => ⟨?_, ?_⟩
  · have hb := (m.area p b at_p).2
    have kept (q : FilePos) (c : ℕ) (at_q : update w.slot p none q = some c) :
        w.slot q = some c := by
      rw [update_apply] at at_q
      split at at_q
      · cases at_q
      · exact at_q
    refine ⟨rfl, fun i hi _ => inode_setInUse layout hi b false, ?_, m.type, fun c lo hi _ _ => ?_,
      fun c lim => ?_, fun h k c at_k => ?_, fun c at_c => ?_⟩
    · exact (inode_setInUse layout m.inum b false).trans m.here
    · exact setInUse_data layout hb false lo
    · rw [setInUse_data layout hb false (m.limboArea c true lim).1]
      exact m.zero c lim
    · rw [setInUse_data layout hb false (m.area _ _ (kept _ c at_k)).1]
      exact m.dirs h k c (kept _ c at_k)
    · rw [setInUse_data layout hb false (m.area _ _ (kept _ c at_c)).1]
      exact m.ind c (kept _ c at_c)
  · refine (account.drop (p := .file w.inum p) (b := b) (by rw [files, at_p])
      (fun _ => Iff.rfl)).congr (cells_eq (fun q => ?_) (by simp [cells]) fun k file limbo => ?_)
      fun c => ?_
    · by_cases q_p : q = p <;> simp [q_p, Work.record, files]
    · simp [file]
    rw [inUse_setInUse]
    by_cases c_b : c = b <;> simp [c_b]

theorem Inv.iupdate (type : w.mem.type ≠ 0) :
    Inv sb (update G t ((G t).setHold e (.own { w with disk := w.mem })))
      { s with disk := writeInode sb s.disk w.inum w.mem } := by
  refine inv.changeDisk hw { w with disk := w.mem } (G t).limbo _ rfl
    fun r account m files => ⟨?_, ?_⟩
  · have data (c : ℕ) (lo : sb.nmeta ≤ c) : writeInode sb s.disk w.inum w.mem c = s.disk c :=
      writeInode_data layout m.inum _ lo
    refine ⟨rfl, fun i _ ne => inode_writeInode_ne _ ne, inode_writeInode_same _ _, type,
      fun c lo _ _ _ => data c lo, fun c lim => ?_, fun h k c at_k => ?_, fun c at_c => ?_⟩
    · rw [data c (m.limboArea c true lim).1]
      exact m.zero c lim
    · rw [data c (m.area _ _ at_k).1]
      exact m.dirs h k c at_k
    · rw [data c (m.area _ _ at_c).1]
      exact m.ind c at_c
  · refine account.congr (cells_eq files rfl fun _ _ _ => rfl) fun c => ?_
    rw [inUse_writeInode layout m.inum]

theorem Inv.writeData {k : ℕ} (at_k : w.slot (.data k) = some b) (f : Block → Block)
    (dir : w.mem.type = T_DIR → DirOk sb (s.disk b) → DirOk sb (f (s.disk b))) :
    Inv sb G (s.setBlock b f) := by
  have done := inv.changeDisk hw w (G t).limbo (update s.disk b (f (s.disk b))) rfl
    fun r account m files => ⟨?_, ?_⟩
  · rw [Local.setHold_self _ _ _ hw] at done
    rwa [show (G t).setLimbo (G t).limbo = G t from rfl, update_eq_self] at done
  · have area := m.area _ b at_k
    have other (c : ℕ) (ne : c ≠ b) : update s.disk b (f (s.disk b)) c = s.disk c :=
      update_of_ne ne ..
    refine ⟨rfl, fun i hi _ => inode_update_data layout hi area.1 _, ?_, m.type,
      fun c _ _ file _ => other c ?_, fun c lim => ?_, fun h j c at_j => ?_, fun c at_c => ?_⟩
    · exact (inode_update_data layout m.inum area.1 _).trans m.here
    · rintro rfl
      exact file _ at_k
    · rw [other c (by rintro rfl; exact m.apart _ _ _ lim at_k)]
      exact m.zero c lim
    · by_cases c_b : c = b
      · subst c_b
        rw [update_self]
        exact dir h (m.dirs h k c at_k)
      rw [other c c_b]
      exact m.dirs h j c at_j
    · rw [other c (by rintro rfl; exact absurd (m.inj _ _ _ at_c at_k) (by simp))]
      exact m.ind c at_c
  · refine account.congr (cells_eq files rfl fun _ _ _ => rfl) fun c => and_congr_right fun hc => ?_
    rw [inUse_update_data layout hc (m.area _ b at_k).1]

end

/-! ## Locks -/

theorem Inv.acquire (inv : Inv sb G s) (mine : 0 < (G t).mine e) (free : (s.icache e).lock = none) :
    ∃ x, Inv sb (update G t ((G t).setHold e x))
        (s.setInode e fun ip => { ip with lock := some t }) ∧
      (x = .bare ∨ ∃ w, x = .own w ∧ w.Rest) := by
  obtain ⟨cache, r, blocks⟩ := inv
  have none_e := cache.unlocked free
  have pos : 0 < (s.icache e).ref := Nat.lt_of_lt_of_le mine (cache.mine_le t e)
  have lock {x : Hold} (some_x : x ≠ .no) (u : T) : some t = some u ↔ u = t ∧ x ≠ .no := by
    simp [some_x, eq_comm]
  cases valid : (s.icache e).valid with
  | false =>
    refine ⟨.bare, ⟨?_, r, ?_⟩, .inl rfl⟩
    · exact cache.entry pos (fun u _ => none_e u) rfl rfl rfl rfl rfl rfl (lock (by simp))
        (fun _ => mine) (fun _ => valid) (by simp) (by simp) fun _ _ _ => rfl
    · exact blocks.hold (by simp [none_e]) (by simp)
  | true =>
    obtain ⟨din, type⟩ := cache.coherent e pos valid free
    obtain ⟨blocks', rest⟩ := blocks.acquire (t := t) (e := e) (cache.range e pos) (din ▸ type)
      (cache.not_held pos (by simp [none_e])) (by simp [none_e])
    refine ⟨_, ⟨?_, r, blocks'⟩, .inr ⟨_, rfl, rest⟩⟩
    refine cache.entry pos (fun u _ => none_e u) rfl rfl rfl rfl rfl rfl (lock (by simp))
      (fun _ => mine) (by simp) (fun w hw => ?_) (by simp) fun _ _ _ => rfl
    obtain rfl := Hold.own.inj hw
    exact ⟨valid, rfl, din⟩

theorem Inv.load (inv : Inv sb G s) (held : (G t).hold e = .bare) :
    ∃ x, Inv sb (update G t ((G t).setHold e x)) (s.setInode e fun ip =>
        { ip with din := inode sb s.disk (s.icache e).inum, valid := true }) ∧
      ((inode sb s.disk (s.icache e).inum).type ≠ 0 → ∃ w, x = .own w ∧ w.Rest) := by
  obtain ⟨cache, r, blocks⟩ := inv
  have some_e : (G t).hold e ≠ .no := by simp [held]
  have pos := cache.ref_pos some_e
  have lock {x : Hold} (some_x : x ≠ .no) (u : T) :
      (s.icache e).lock = some u ↔ u = t ∧ x ≠ .no := by
    rw [(cache.locked t e).2 some_e]
    simp [some_x, eq_comm]
  by_cases type : (inode sb s.disk (s.icache e).inum).type = 0
  · refine ⟨.stale, ⟨?_, r, blocks.hold (by simp [held]) (by simp)⟩, fun ne => absurd type ne⟩
    exact cache.entry pos (cache.alone some_e) rfl rfl rfl rfl rfl rfl (lock (by simp))
      (fun _ => cache.anchored t e some_e) (by simp) (by simp) (by simp) fun _ _ _ => rfl
  have none_own (u : T) (v : Work) : (G u).hold e ≠ .own v := by
    by_cases u_t : u = t
    · simp [u_t, held]
    · simp [cache.alone some_e u u_t]
  obtain ⟨blocks', rest⟩ := blocks.acquire (t := t) (e := e) (cache.range e pos) type
    (cache.not_held pos none_own) (by simp [held])
  refine ⟨_, ⟨?_, r, blocks'⟩, fun _ => ⟨_, rfl, rest⟩⟩
  refine cache.entry pos (cache.alone some_e) rfl rfl rfl rfl rfl rfl (lock (by simp))
    (fun _ => cache.anchored t e some_e) (by simp) (fun w hw => ?_) (by simp) fun _ _ _ => rfl
  obtain rfl := Hold.own.inj hw
  exact ⟨rfl, rfl, rfl⟩

theorem Inv.free (layout : sb.Layout) (inv : Inv sb G s) (hw : (G t).hold e = .own w)
    (empty : ∀ p, w.slot p = none) (type : w.mem.type = 0) :
    Inv sb (update G t ((G t).setHold e .stale))
      { s with disk := writeInode sb s.disk w.inum w.mem } := by
  obtain ⟨cache, r, blocks⟩ := inv
  have some_e : (G t).hold e ≠ .no := by simp [hw]
  refine ⟨?_, r, blocks.free layout (fun _ _ _ => cache.apart hw) hw empty type⟩
  refine cache.entry (f := id) (cache.ref_pos some_e) (cache.alone some_e) rfl rfl ?_ rfl rfl rfl
    (fun u => ?_) (fun _ => cache.anchored t e some_e) (by simp) (by simp) (by simp)
    fun i _ ne => ?_
  · simp [State.setInode]
  · rw [id, (cache.locked t e).2 some_e]
    simp [eq_comm]
  · exact inode_writeInode_ne _ ((cache.own t e w hw).2.1 ▸ ne)

theorem Inv.invalidate (inv : Inv sb G s) (held : (G t).hold e = .stale) :
    Inv sb (update G t ((G t).setHold e .bare))
      (s.setInode e fun ip => { ip with valid := false }) := by
  obtain ⟨cache, r, blocks⟩ := inv
  have some_e : (G t).hold e ≠ .no := by simp [held]
  refine ⟨?_, r, blocks.hold (by simp [held]) (by simp)⟩
  refine cache.entry (cache.ref_pos some_e) (cache.alone some_e) rfl rfl rfl rfl rfl rfl
    (fun u => ?_) (fun _ => cache.anchored t e some_e) (fun _ => rfl) (by simp) (by simp)
    fun _ _ _ => rfl
  rw [(cache.locked t e).2 some_e]
  simp [eq_comm]

theorem Inv.release (inv : Inv sb G s)
    (held : (G t).hold e = .bare ∨ ∃ w, (G t).hold e = .own w ∧ w.Rest) :
    Inv sb (update G t ((G t).setHold e .no))
      (s.setInode e fun ip => { ip with lock := none }) := by
  obtain ⟨cache, r, blocks⟩ := inv
  have some_e : (G t).hold e ≠ .no := by
    rcases held with bare | ⟨w, own, -⟩ <;> simp [*]
  refine ⟨?_, r, ?_⟩
  · refine cache.entry (cache.ref_pos some_e) (cache.alone some_e) rfl rfl rfl rfl rfl rfl
      (by simp) (by simp) (by simp) (by simp) (fun _ valid => ?_) fun _ _ _ => rfl
    rcases held with bare | ⟨w, hw, rest⟩
    · exact absurd valid (by simp [cache.bare t e bare])
    obtain ⟨-, num, mem⟩ := cache.own t e w hw
    have own := blocks.owned t e w hw
    refine ⟨?_, ?_⟩
    · rw [num]
      exact mem.trans (rest.disk.symm.trans own.here.symm)
    · exact mem ▸ rest.disk ▸ own.type
  · rcases held with bare | ⟨w, hw, rest⟩
    · exact blocks.hold (by simp [bare]) (by simp)
    · exact blocks.release hw rest (by simp)

/-! ## References -/

theorem Inv.count (inv : Inv sb G s) {s' : State T} {m n : ℕ} (disk : s'.disk = s.disk)
    (icache : s'.icache = (s.setInode e fun ip => { ip with ref := n }).icache)
    (pointers : ∀ d, d ≠ e → s'.pointers d = s.pointers d)
    (anchored : (G t).hold e ≠ .no → 0 < m) (pos : 0 < n → 0 < (s.icache e).ref)
    (le : m + s'.pointers e + (s.icache e).ref ≤ (G t).mine e + s.pointers e + n) :
    Inv sb (update G t ((G t).setMine e m)) s' := by
  obtain ⟨cache, r, blocks⟩ := inv
  have field {α : Type} (f : Inode T → α) (same : ∀ ip n, f { ip with ref := n } = f ip)
      (d : Fin NINODE) : f (s'.icache d) = f (s.icache d) := by
    by_cases d_e : d = e
    · rw [icache, d_e, State.icache_setInode_same, same]
    · rw [icache, State.icache_setInode_ne _ _ _ d_e]
  have inum := field Inode.inum fun _ _ => rfl
  have lock := field Inode.lock fun _ _ => rfl
  have valid := field Inode.valid fun _ _ => rfl
  have din := field Inode.din fun _ _ => rfl
  have positive (d : Fin NINODE) (h : 0 < (s'.icache d).ref) : 0 < (s.icache d).ref := by
    by_cases d_e : d = e
    · subst d_e
      rw [icache, State.icache_setInode_same] at h
      exact pos h
    · rwa [icache, State.icache_setInode_ne _ _ _ d_e] at h
  refine ⟨⟨fun u d => ?_, fun u d held => ?_, fun u d => ?_, fun u d v => ?_,
    fun d pos_d => ?_, fun d => ?_, fun d d' pos_d pos_d' same => ?_, fun d pos_d => ?_⟩,
    r, ?_⟩
  · rw [lock, hold_setMine]
    exact cache.locked u d
  · rw [hold_setMine] at held
    by_cases u_t : u = t
    · subst u_t
      rw [update_self, Local.mine_setMine, update_apply]
      split
      next d_e => exact anchored (d_e ▸ held)
      · exact cache.anchored u d held
    · rw [update_of_ne u_t]
      exact cache.anchored u d held
  · rw [hold_setMine, valid]
    exact cache.bare u d
  · rw [hold_setMine, valid, inum, din]
    exact cache.own u d v
  · rw [valid, lock, din, inum, disk]
    exact cache.coherent d (positive d pos_d)
  · have sum := sum_mine_update (G := G) (t := t) ((G t).setMine e m) d
    have le_d := cache.refs d
    by_cases d_e : d = e
    · subst d_e
      rw [Local.mine_setMine, update_self] at sum
      rw [icache, State.icache_setInode_same]
      dsimp only
      omega
    · rw [Local.mine_setMine, update_of_ne d_e] at sum
      rw [icache, State.icache_setInode_ne _ _ _ d_e, pointers d d_e]
      omega
  · rw [inum, inum] at same
    exact cache.unique d d' (positive d pos_d) (positive d' pos_d') same
  · rw [inum]
    exact cache.range d (positive d pos_d)
  · rw [disk]
    exact blocks.ghost (fun u d v => by rw [hold_setMine]) (limbo_setMine _)

theorem Inv.recycle (inv : Inv sb G s) (unused : (s.icache e).ref = 0) (hi : i < sb.ninodes)
    (fresh : ∀ d, 0 < (s.icache d).ref → (s.icache d).inum ≠ i) :
    Inv sb (update G t ((G t).setMine e ((G t).mine e + 1)))
      (s.setInode e fun ip => { ip with inum := i, ref := 1, valid := false }) := by
  obtain ⟨cache, r, blocks⟩ := inv
  have none_e (u : T) : (G u).hold e = .no :=
    Classical.byContradiction fun held => absurd (cache.ref_pos held) (by simp [unused])
  set after := s.setInode e fun ip => { ip with inum := i, ref := 1, valid := false } with after_def
  have here : after.icache e = { s.icache e with inum := i, ref := 1, valid := false } := by
    rw [after_def, State.icache_setInode_same]
  have other (d : Fin NINODE) (ne : d ≠ e) : after.icache d = s.icache d := by
    rw [after_def, State.icache_setInode_ne _ _ _ ne]
  refine ⟨⟨fun u d => ?_, fun u d held => ?_, fun u d held => ?_, fun u d v hv => ?_,
    fun d pos_d val free => ?_, fun d => ?_, fun d d' pos_d pos_d' same => ?_, fun d pos_d => ?_⟩,
    r, ?_⟩
  · rw [hold_setMine]
    by_cases d_e : d = e
    · subst d_e
      rw [here]
      exact cache.locked u d
    rw [other d d_e]
    exact cache.locked u d
  · rw [hold_setMine] at held
    have ne : d ≠ e := by
      rintro rfl
      exact held (none_e u)
    by_cases u_t : u = t
    · subst u_t
      rw [update_self, Local.mine_setMine, update_of_ne ne]
      exact cache.anchored u d held
    rw [update_of_ne u_t]
    exact cache.anchored u d held
  · rw [hold_setMine] at held
    have ne : d ≠ e := by
      rintro rfl
      simp [none_e] at held
    rw [other d ne]
    exact cache.bare u d held
  · rw [hold_setMine] at hv
    have ne : d ≠ e := by
      rintro rfl
      simp [none_e] at hv
    rw [other d ne]
    exact cache.own u d v hv
  · have ne : d ≠ e := by
      rintro rfl
      simp [here] at val
    rw [other d ne] at pos_d val free ⊢
    exact cache.coherent d pos_d val free
  · have sum := sum_mine_update (G := G) (t := t) ((G t).setMine e ((G t).mine e + 1)) d
    have le_d := cache.refs d
    by_cases d_e : d = e
    · subst d_e
      rw [Local.mine_setMine, update_self] at sum
      rw [here]
      dsimp only
      rw [show after.pointers d = s.pointers d from rfl]
      omega
    · rw [Local.mine_setMine, update_of_ne d_e] at sum
      rw [other d d_e, show after.pointers d = s.pointers d from rfl]
      omega
  · by_cases d_e : d = e <;> by_cases d_e' : d' = e
    · rw [d_e, d_e']
    · subst d_e
      rw [here, other d' d_e'] at same
      rw [other d' d_e'] at pos_d'
      exact absurd same.symm (fresh d' pos_d')
    · subst d_e'
      rw [here, other d d_e] at same
      rw [other d d_e] at pos_d
      exact absurd same (fresh d pos_d)
    · rw [other d d_e] at pos_d same
      rw [other d' d_e'] at pos_d' same
      exact cache.unique d d' pos_d pos_d' same
  · by_cases d_e : d = e
    · subst d_e
      rw [here]
      exact hi
    rw [other d d_e] at pos_d ⊢
    exact cache.range d pos_d
  · exact blocks.ghost (fun u d v => by rw [hold_setMine]) (limbo_setMine _)

end Xv6.Fs
