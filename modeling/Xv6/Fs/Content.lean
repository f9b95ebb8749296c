import Xv6.Fs.Bmap

/-!
# Reading, writing and freeing inodes

The specifications of the functions of `fs.c` on contents and directories.  An inode that is not
being worked on is at rest: the disk has its copy, and its size says which blocks it owns.  `writei`
and `itrunc` take it from rest to rest.
-/

namespace Xv6.Fs

open Lib Function

variable {sb : Superblock} {T : Type} [DecidableEq T] [Fintype T] {t : T} {e : Fin NINODE}
  {w : Work} {g : Local} {α : Type}

theorem div_lt_nblk {off size : ℕ} (lt : off < size) : off / BSIZE < nblk size := by
  simp only [nblk, BSIZE]
  omega

theorem of_inside {size off n : Word} (inside : ¬ (size < off ∨ off + n < off)) :
    off.toNat ≤ size.toNat ∧ (off + n).toNat = off.toNat + n.toNat := by
  obtain ⟨le, wrap⟩ := not_or.1 inside
  have no_wrap : ¬ (off + n).toNat < off.toNat := wrap
  refine ⟨Nat.not_lt.1 le, ?_⟩
  rw [BitVec.toNat_add] at no_wrap ⊢
  omega

theorem deInum_bytes {b : Block} (ok : DirOk sb b) {o : ℕ} (ho : o < BSIZE) (align : o % DESIZE = 0)
    (rest : List Byte) : deInum (bytes b o DESIZE ++ rest) < sb.ninodes := by
  have row : DESIZE * (o / DESIZE) = o := by
    simp only [DESIZE, DIRSIZ] at align ⊢
    omega
  have inside : o / DESIZE < BSIZE / DESIZE := by
    simp only [DESIZE, DIRSIZ, BSIZE] at ho align ⊢
    omega
  have := ok _ inside
  rw [Block.deInum, row] at this
  exact this

omit [DecidableEq T] [Fintype T] in
theorem setInode_ref (s : State T) :
    (s.setInode e fun ip => { ip with ref := (s.icache e).ref }).icache = s.icache := by
  simp [State.setInode]

/-! ## Locks -/

/-- How an entry is held between the steps of an operation on it. -/
def AtRest (x : Hold) : Prop := x = .bare ∨ ∃ w, x = .own w ∧ w.Rest

section Quiet

variable {guar : State T → State T → Prop} (still : ∀ s s' : State T, s'.disk = s.disk → guar s s')
include still

theorem acquiresleep_spec (mine : 0 < g.mine e) :
    Keeps sb guar t (acquiresleep t e)
      (fun _ g' => g.hold e = .no ∧ ∃ x, g' = g.setHold e x ∧ AtRest x) g := by
  refine safe_await fun s G inv here ready => ⟨still _ _ rfl, ?_⟩
  subst here
  have free : (s.icache e).lock = none := Option.isNone_iff_eq_none.1 ready
  obtain ⟨x, inv', rest⟩ := inv.acquire mine free
  exact ⟨_, inv', inv.1.unlocked free t, x, rfl, rest⟩

theorem releasesleep_spec (rest : AtRest (g.hold e)) :
    Keeps sb guar t (releasesleep e) (fun _ g' => g' = g.setHold e .no) g := by
  refine safe_change fun s G inv here => ⟨still _ _ rfl, _, ?_, rfl⟩
  subst here
  exact inv.release rest

theorem iload_spec (held : g.hold e = .bare) :
    Keeps sb guar t (iload sb e) (fun _ g' => ∃ w, g' = g.setHold e (.own w) ∧ w.Rest) g := by
  refine safe_atomically fun s G inv here => ?_
  subst here
  rw [wp_bind, wp_get, wp_bind]
  refine wp_bread (fun _ => ?_) ⟨still _ _ rfl, by decide, _, inv_again inv⟩
  obtain ⟨x, inv', own⟩ := inv.load held
  have same : (s.setInode e fun ip =>
      { ip with din := (s.disk (sb.IBLOCK (s.icache e).inum)).dinode (ip.inum % IPB),
                valid := true }) =
      s.setInode e fun ip =>
        { ip with din := inode sb s.disk (s.icache e).inum, valid := true } := by
    simp only [State.setInode, inode]
  rw [wp_bind, wp_modify, same, wp_ite]
  refine ⟨fun zero => ?_, fun ne => ?_⟩
  · exact ⟨still _ _ rfl, by decide, _, inv'⟩
  obtain ⟨w, rfl, rest⟩ := own ne
  exact ⟨still _ _ rfl, _, inv', w, rfl, rest⟩

theorem ilock_spec (mine : 0 < g.mine e) :
    Keeps sb guar t (ilock sb t e)
      (fun _ g' => g.hold e = .no ∧ ∃ w, g' = g.setHold e (.own w) ∧ w.Rest) g := by
  unfold ilock
  refine safe_bind (safe_read (fun s => still s s rfl) fun s G inv here => ?_)
  refine safe_ite (fun _ => (by decide : "ilock" ≠ _)) fun _ => ?_
  refine safe_seq ?_ (acquiresleep_spec still mine)
  rintro _ _ ⟨free, x, rfl, rest⟩
  refine safe_bind (safe_read (fun s => still s s rfl) fun s G inv here => ?_)
  rcases rest with rfl | ⟨w, rfl, rest⟩
  · have bare : (s.icache e).valid = false := inv.1.bare t e (by rw [here]; simp)
    rw [bare, if_neg (by simp)]
    refine safe_mono ?_ (iload_spec still (by simp))
    rintro _ _ ⟨w, rfl, rest⟩
    exact ⟨free, w, Local.setHold_setHold .., rest⟩
  · have valid := (inv.1.own t e w (by rw [here]; simp)).1
    rw [valid, if_pos rfl]
    exact safe_pure ⟨free, w, rfl, rest⟩

theorem iunlock_spec (hw : g.hold e = .own w) (rest : w.Rest) :
    Keeps sb guar t (iunlock t e) (fun _ g' => g' = g.setHold e .no) g := by
  refine safe_atomically fun s G inv here => ?_
  subst here
  rw [wp_bind, wp_get, wp_ite]
  refine ⟨fun _ => ⟨still _ _ rfl, by decide, _, inv_again inv⟩, fun _ => ?_⟩
  exact ⟨still _ _ rfl, _, inv.release (.inr ⟨w, hw, rest⟩), rfl⟩

theorem consoleio_spec (mine : 0 < g.mine e) (hw : g.hold e = .own w) (rest : w.Rest) :
    Keeps sb guar t (consoleio sb t e)
      (fun _ g' => ∃ w', g' = g.setHold e (.own w') ∧ w'.Rest) g := by
  unfold consoleio
  refine safe_seq ?_ (iunlock_spec still hw rest)
  rintro _ _ rfl
  refine safe_mono ?_ (ilock_spec still (by simpa using mine))
  rintro _ _ ⟨-, w', rfl, rest'⟩
  exact ⟨w', Local.setHold_setHold .., rest'⟩

/-! ## Reading -/

theorem bread_data (hw : g.hold e = .own w) {b k : ℕ} (at_b : w.slot (.data k) = some b) :
    Keeps sb guar t (Code.atomically (bread b))
      (fun a g' => (w.mem.type = T_DIR → DirOk sb a) ∧ g' = g) g := by
  refine safe_atomically fun s G inv here => ?_
  subst here
  refine wp_bread (fun _ => ⟨still _ _ rfl, _, inv_again inv, fun dir => ?_, rfl⟩)
    ⟨still _ _ rfl, by decide, _, inv_again inv⟩
  obtain ⟨-, r, blocks⟩ := inv
  exact (blocks.mine hw).dirs dir k b at_b

theorem readLoop_spec (hw : g.hold e = .own w) (rest : w.Rest) :
    ∀ fuel off n, off + n ≤ w.mem.size.toNat →
      Keeps sb guar t (readLoop sb e fuel off n) (fun bs g' => g' = g ∧ (n ≤ fuel → bs.length = n) ∧
        (w.mem.type = T_DIR → off % DESIZE = 0 → n = DESIZE → fuel ≠ 0 →
          deInum bs < sb.ninodes)) g
  | 0, _, _, _ => safe_pure ⟨rfl, fun le => (Nat.le_zero.1 le).symm, fun _ _ _ ne => absurd rfl ne⟩
  | fuel + 1, off, n, le => by
      unfold readLoop
      refine safe_ite (fun zero => safe_pure ⟨rfl, fun _ => zero.symm, fun _ _ full => ?_⟩)
        fun pos => ?_
      · rw [zero] at full
        exact absurd full (by decide)
      refine safe_seq ?_ (bmap_read still hw rest.toGrown (div_lt_nblk (by omega)))
      rintro addr g' ⟨same, at_off⟩
      rw [same]
      refine safe_seq ?_ (bread_data still hw at_off)
      rintro bp g' ⟨ok, same⟩
      rw [same]
      refine safe_seq ?_ (readLoop_spec hw rest fuel
        (off + min n (BSIZE - off % BSIZE)) (n - min n (BSIZE - off % BSIZE)) (by omega))
      rintro bs g' ⟨same, len, -⟩
      have turn : 0 < BSIZE - off % BSIZE := Nat.sub_pos_of_lt (Nat.mod_lt _ (by decide))
      refine safe_pure ⟨same, fun le => ?_, fun dir align full _ => ?_⟩
      · rw [List.length_append, len (by omega), bytes, List.length_map, List.length_range]
        omega
      have one : min n (BSIZE - off % BSIZE) = DESIZE := by
        simp only [DESIZE, DIRSIZ, BSIZE] at *
        omega
      rw [one]
      refine deInum_bytes (ok dir) (Nat.mod_lt _ (by decide)) ?_ bs
      simp only [DESIZE, DIRSIZ, BSIZE] at *
      omega

/-- What a read leaves behind: the same inode, or a device's inode locked anew. -/
def Reread (e : Fin NINODE) (w : Work) (g g' : Local) : Prop :=
  g' = g ∨ w.mem.type = T_DEV ∧ ∃ w', g' = g.setHold e (.own w') ∧ w'.Rest

theorem readi_spec (mine : 0 < g.mine e) (hw : g.hold e = .own w) (rest : w.Rest) (off n : Word) :
    Keeps sb guar t (readi sb t e off n) (fun out g' => Reread e w g g' ∧
      (w.mem.type = T_DIR → off.toNat % DESIZE = 0 → ∀ de, out = some de →
        de.length = DESIZE → deInum de < sb.ninodes)) g := by
  unfold readi
  refine safe_seq ?_ (getDin_spec still hw)
  rintro _ _ ⟨rfl, rfl⟩
  refine safe_ite (fun dev => ?_) fun _ => ?_
  · have not_dir (dir : w.mem.type = T_DIR) : False := by
      rw [dev] at dir
      exact absurd dir (by decide)
    refine safe_ite (fun _ => ?_) fun _ => safe_pure ⟨.inl rfl, fun dir => (not_dir dir).elim⟩
    refine safe_seq ?_ (consoleio_spec still mine hw rest)
    rintro _ _ ⟨w', rfl, rest'⟩
    exact safe_pure ⟨.inr ⟨dev, w', rfl, rest'⟩, fun dir => (not_dir dir).elim⟩
  refine safe_ite (fun _ => safe_pure ⟨.inl rfl, by simp⟩) fun inside => ?_
  obtain ⟨le', sum⟩ := of_inside inside
  set k := if w.mem.size < off + n then w.mem.size - off else n with k_def
  have bound : off.toNat + k.toNat ≤ w.mem.size.toNat := by
    rw [k_def]
    split
    · rw [BitVec.toNat_sub_of_le le']
      omega
    next short =>
      have : ¬ w.mem.size.toNat < (off + n).toNat := short
      omega
  refine safe_seq ?_ (readLoop_spec still hw rest k.toNat off.toNat k.toNat bound)
  rintro bs _ ⟨rfl, all, ok⟩
  refine safe_pure ⟨.inl rfl, fun dir align de out len => ?_⟩
  obtain rfl : bs = de := Option.some.inj out
  have full : k.toNat = DESIZE := (all le_rfl).symm.trans len
  exact ok dir align full (by rw [full]; decide)

/-! ## References -/

theorem iget_spec {i : ℕ} (hi : i < sb.ninodes) :
    Keeps sb guar t (Code.atomically (iget i))
      (fun e g' => g' = g.setMine e (g.mine e + 1)) g := by
  refine safe_atomically fun s G inv here => ?_
  subst here
  unfold iget
  rw [wp_bind, wp_get]
  split
  next e found =>
    have hit := List.find?_some found
    simp only [Bool.and_eq_true, decide_eq_true_eq] at hit
    rw [wp_bind, wp_modify, wp_pure]
    refine ⟨still _ _ rfl, _, inv.count (n := (s.icache e).ref + 1) rfl rfl (fun _ _ => rfl)
      (fun _ => Nat.succ_pos _) (fun _ => hit.1) ?_, rfl⟩
    rw [State.pointers_setInode]
    omega
  rename_i miss
  have fresh (d : Fin NINODE) (pos : 0 < (s.icache d).ref) : (s.icache d).inum ≠ i := by
    intro same
    have := List.find?_eq_none.1 miss d (List.mem_finRange d)
    simp [pos, same] at this
  split
  · exact ⟨still _ _ rfl, by decide, _, inv_again inv⟩
  next e found =>
    have unused : (s.icache e).ref = 0 := by simpa using List.find?_some found
    rw [wp_bind, wp_modify, wp_pure]
    exact ⟨still _ _ rfl, _, inv.recycle unused hi fresh, rfl⟩

theorem take_spec : Keeps sb guar t (take e) (fun _ g' => g' = g.setMine e (g.mine e + 1)) g := by
  refine safe_await fun s G inv here ready => ⟨still _ _ rfl, _, ?_, rfl⟩
  subst here
  have pos := of_decide_eq_true ready
  refine inv.count (n := (s.icache e).ref) rfl (setInode_ref s).symm
    (fun d ne => update_of_ne ne ..) (fun _ => Nat.succ_pos _) id ?_
  simp only [update_self]
  omega

theorem keep_spec (mine : 0 < g.mine e) (free : g.hold e = .no) :
    Keeps sb guar t (keep e) (fun _ g' => g' = g.setMine e (g.mine e - 1)) g := by
  refine safe_change fun s G inv here => ⟨still _ _ rfl, _, ?_, rfl⟩
  subst here
  refine inv.count (n := (s.icache e).ref) rfl (setInode_ref s).symm
    (fun d ne => update_of_ne ne ..) (fun held => absurd free held) id ?_
  simp only [update_self]
  omega

theorem idup_spec (mine : 0 < g.mine e) :
    Keeps sb guar t (idup e) (fun _ g' => g' = g.setMine e (g.mine e + 1)) g := by
  refine safe_change fun s G inv here => ⟨still _ _ rfl, _, ?_, rfl⟩
  subst here
  have pos := Nat.lt_of_lt_of_le mine (inv.1.mine_le t e)
  refine inv.count (n := (s.icache e).ref + 1) rfl rfl (fun _ _ => rfl) (fun _ => Nat.succ_pos _)
    (fun _ => pos) ?_
  rw [State.pointers_setInode]
  omega

/-! ## Directories -/

theorem scanDir_spec (mine : 0 < g.mine e) (hw : g.hold e = .own w) (rest : w.Rest)
    (dir : w.mem.type = T_DIR) {msg : String} (other : msg ≠ "freeing free block")
    (found : List Byte → Bool) :
    ∀ fuel off, off % DESIZE = 0 → Keeps sb guar t (scanDir sb t e msg found fuel off)
      (fun out g' => g' = g ∧ out.1 % DESIZE = 0 ∧ ∀ i, out.2 = some i → i < sb.ninodes) g
  | 0, off, align => safe_pure ⟨rfl, align, by simp⟩
  | fuel + 1, off, align => by
      unfold scanDir
      refine safe_seq ?_ (getDin_spec still hw)
      rintro d g' ⟨d_eq, same⟩
      rw [d_eq, same]
      refine safe_ite (fun inside => ?_) fun _ => safe_pure ⟨rfl, align, by simp⟩
      have num : (BitVec.ofNat 32 off).toNat = off := by
        have := w.mem.size.isLt
        rw [BitVec.toNat_ofNat, Nat.mod_eq_of_lt (by omega)]
      refine safe_seq ?_ (readi_spec still mine hw rest (BitVec.ofNat 32 off) (DESIZE : Word))
      rintro out g' ⟨reread, ok⟩
      have same : g' = g := reread.resolve_right fun dev => by
        rw [dir] at dev
        exact absurd dev.1 (by decide)
      rw [same]
      cases out with
      | none => exact other
      | some de =>
        refine safe_ite (fun _ => other) fun len => ?_
        refine safe_ite (fun _ => safe_pure ⟨rfl, align, fun i hi => ?_⟩) fun _ => ?_
        · obtain rfl := Option.some.inj hi
          exact ok dir (by rw [num, align]) de rfl (not_not.1 len)
        exact scanDir_spec mine hw rest dir other found fuel (off + DESIZE)
          (by rw [Nat.add_mod_right, align])

theorem dirlookup_spec (mine : 0 < g.mine e) (hw : g.hold e = .own w) (rest : w.Rest)
    (name : List Byte) :
    Keeps sb guar t (dirlookup sb t e name) (fun out g' => w.mem.type = T_DIR ∧ match out with
      | none => g' = g
      | some (off, ip) => off % DESIZE = 0 ∧ g' = g.setMine ip (g.mine ip + 1)) g := by
  unfold dirlookup
  refine safe_seq ?_ (getDin_spec still hw)
  rintro _ g ⟨rfl, rfl⟩
  refine safe_ite (fun _ => (by decide : "dirlookup not DIR" ≠ _)) fun dir => ?_
  refine safe_seq ?_ (scanDir_spec still mine hw rest (not_not.1 dir) (by decide) _ _ 0 rfl)
  rintro ⟨off, found⟩ g ⟨rfl, align, range⟩
  cases found with
  | none => exact safe_pure ⟨not_not.1 dir, rfl⟩
  | some i =>
    refine safe_seq ?_ (iget_spec still (range i rfl))
    rintro ip _ rfl
    exact safe_pure ⟨not_not.1 dir, align, rfl⟩

end Quiet

/-! ## Freeing an inode -/

/-- What is left of an inode whose first `i` data blocks have been freed. -/
structure Work.Freed (w w' : Work) (i : ℕ) : Prop where
  type : w'.mem.type = w.mem.type
  disk : w'.disk = w.disk
  ind : w'.ind = w.ind
  gone : ∀ k < i, w'.slot (.data k) = none
  kept : ∀ k, i ≤ k → w'.slot (.data k) = w.slot (.data k)
  indirect : w'.slot .indirect = w.slot .indirect
  addr : ∀ k, i ≤ k → k ≤ NDIRECT → w'.mem.addr k = w.mem.addr k

theorem Work.Freed.next {w' : Work} {i : ℕ} (h : w.Freed w' i) (none_i : w'.slot (.data i) = none) :
    w.Freed w' (i + 1) :=
  { h with
    gone := fun k hk => (Nat.lt_succ_iff_lt_or_eq.1 hk).elim (h.gone k) fun k_i => k_i ▸ none_i
    kept := fun k hk => h.kept k (Nat.le_of_succ_le hk)
    addr := fun k hk => h.addr k (Nat.le_of_succ_le hk) }

theorem Work.Freed.drop {w' : Work} {i : ℕ} (h : w.Freed w' i) {d : Dinode}
    (type : d.type = w'.mem.type) (addr : ∀ k, i < k → k ≤ NDIRECT → d.addr k = w'.mem.addr k) :
    w.Freed { w' with mem := d, slot := update w'.slot (.data i) none } (i + 1) where
  type := type.trans h.type
  disk := h.disk
  ind := h.ind
  gone := fun k hk => by
    dsimp only
    rw [update_apply]
    split
    · rfl
    next k_i =>
      simp only [FilePos.data.injEq] at k_i
      exact h.gone k (by omega)
  kept := fun k hk => by
    dsimp only
    rw [update_of_ne (by simp only [ne_eq, FilePos.data.injEq]; omega)]
    exact h.kept k (by omega)
  indirect := by
    dsimp only
    rw [update_of_ne (by simp)]
    exact h.indirect
  addr := fun k hk le => (addr k hk le).trans (h.addr k (Nat.le_of_succ_le hk) le)

section

variable (layout : sb.Layout)
include layout

theorem freeDirect_spec (hw : g.hold e = .own w) {n : ℕ} (grown : w.Grown n) :
    Keeps sb anyChange t
      (Code.forCount NDIRECT 0 fun i => do
        let ip ← getDin e
        if ip.addr i = 0 then return ()
        else do
          bfree sb (ip.addr i)
          setDin e fun d => d.setAddr i 0)
      (fun _ g' => ∃ w', g' = g.setHold e (.own w') ∧ w.Freed w' NDIRECT) g := by
  refine safe_forCount (m := NDIRECT)
    (I := fun i g' => ∃ w', g' = g.setHold e (.own w') ∧ w.Freed w' i) ?_ (Nat.zero_add _)
    ⟨w, (Local.setHold_self _ _ _ hw).symm, rfl, rfl, rfl, by simp, fun _ _ => rfl, rfl,
      fun _ _ _ => rfl⟩
  rintro i _ hi ⟨w', rfl, freed⟩
  have hw' : (g.setHold e (.own w')).hold e = .own w' := by simp
  refine safe_seq ?_ (getDin_spec anyStill hw')
  rintro _ _ ⟨rfl, rfl⟩
  have addr := freed.addr i le_rfl hi.le
  have slot := freed.kept i le_rfl
  rw [grown.slot, Dinode.blocks, if_pos hi] at slot
  rw [addr]
  refine safe_ite (fun zero => ?_) fun ne => ?_
  · rw [zero, ptr_zero] at slot
    exact safe_pure ⟨w', rfl, freed.next slot⟩
  rw [ptr_of_ne ne] at slot
  refine safe_seq ?_ (bfree_spec layout hw' slot)
  rintro _ _ rfl
  refine safe_mono ?_ (setDin_spec anyStill
    (w := { w' with slot := update w'.slot (.data i) none }) (by simp) _ fun h => h)
  rintro _ _ rfl
  simp only [Local.setHold_setHold]
  refine ⟨_, rfl, freed.drop (d := w'.mem.setAddr i 0) rfl fun k lt le => ?_⟩
  rw [Dinode.addr_setAddr _ _ _ _ (Nat.lt_succ_of_le le), if_neg lt.ne']

theorem freeIndirect_spec {w' : Work} {n : ℕ} (grown : w.Grown n)
    (some_ind : w.mem.addr NDIRECT ≠ 0) (hw' : g.hold e = .own w') (freed : w.Freed w' NDIRECT)
    {a : Block} (words : ∀ j < NINDIRECT, a.word j = w.ind j) :
    Keeps sb anyChange t
      (Code.forCount NINDIRECT 0 fun j => bfreeIf sb (a.word j))
      (fun _ g' => ∃ v, g' = g.setHold e (.own v) ∧ w.Freed v MAXFILE ∧ v.mem = w'.mem) g := by
  refine safe_forCount (m := NINDIRECT)
    (I := fun j g' => ∃ v, g' = g.setHold e (.own v) ∧ w.Freed v (NDIRECT + j) ∧ v.mem = w'.mem) ?_
    (Nat.zero_add _) ⟨w', (Local.setHold_self _ _ _ hw').symm, freed, rfl⟩
  rintro j _ hj ⟨v, rfl, freed, mem⟩
  have hv : (g.setHold e (.own v)).hold e = .own v := by simp
  have slot := freed.kept (NDIRECT + j) le_rfl
  have far : NDIRECT + j < MAXFILE := by
    simp only [MAXFILE]
    omega
  rw [grown.slot, Dinode.blocks, if_neg (by omega), if_pos ⟨far, some_ind⟩,
    Nat.add_sub_cancel_left, ← words j hj] at slot
  unfold bfreeIf
  refine safe_ite (fun zero => ?_) fun ne => ?_
  · rw [zero, ptr_zero] at slot
    exact safe_pure ⟨v, rfl, freed.next slot, mem⟩
  rw [ptr_of_ne ne] at slot
  refine safe_mono ?_ (bfree_spec layout hv slot)
  rintro _ _ rfl
  simp only [Local.setHold_setHold]
  exact ⟨_, rfl, freed.drop (d := v.mem) rfl fun _ _ _ => rfl, mem⟩

theorem itrunc_spec (hw : g.hold e = .own w) (rest : w.Rest) :
    Keeps sb anyChange t (itrunc sb e)
      (fun _ g' => ∃ w', g' = g.setHold e (.own w') ∧ ∀ p, w'.slot p = none) g := by
  have grown := rest.toGrown
  -- Past the last address there is nothing to free.
  have past (k : ℕ) (far : MAXFILE ≤ k) : w.slot (.data k) = none := by
    rw [grown.slot, Dinode.blocks, if_neg (by simp only [MAXFILE] at far; omega),
      if_neg fun h => absurd h.1 (Nat.not_lt.2 far)]
  unfold itrunc
  refine safe_seq ?_ (freeDirect_spec layout hw grown)
  rintro _ _ ⟨w', rfl, freed⟩
  have hw' : (g.setHold e (.own w')).hold e = .own w' := by simp
  refine safe_seq ?_ (getDin_spec anyStill hw')
  rintro _ _ ⟨rfl, rfl⟩
  refine safe_bind (safe_mono (Q := fun _ g' => ∃ v, g' = g.setHold e (.own v) ∧
    v.mem.type = w.mem.type ∧ v.disk = w.disk ∧ ∀ p, v.slot p = none) ?_ ?_)
  · rintro _ _ ⟨v, rfl, type, disk, empty⟩
    refine safe_seq ?_ (setDin_spec anyStill (w := v) (by simp) _ fun h => h)
    rintro _ _ rfl
    refine safe_mono ?_ (iupdate_spec layout (w := { v with mem := { v.mem with size := 0 } })
      (by simp) ?_)
    · rintro _ _ rfl
      simp only [Local.setHold_setHold]
      exact ⟨_, rfl, empty⟩
    dsimp only
    rw [type, disk, rest.disk]
  rw [freed.addr NDIRECT le_rfl le_rfl]
  refine safe_ite (fun zero => ?_) fun ne => ?_
  · refine safe_pure ⟨w', rfl, freed.type, freed.disk, fun p => ?_⟩
    cases p with
    | data k =>
      by_cases near : k < NDIRECT
      · exact freed.gone k near
      rw [freed.kept k (Nat.not_lt.1 near), grown.slot, Dinode.blocks, if_neg near,
        if_neg fun h => h.2 zero]
    | indirect =>
      rw [freed.indirect, grown.slot, Dinode.blocks, zero, ptr_zero]
  have at_ind : w'.slot .indirect = some (w.mem.addr NDIRECT).toNat := by
    rw [freed.indirect, grown.slot]
    exact ptr_of_ne ne
  refine safe_seq ?_ (bread_indirect anyStill hw' at_ind)
  rintro a _ ⟨words, rfl⟩
  rw [freed.ind] at words
  refine safe_seq ?_ (freeIndirect_spec layout grown ne hw' freed words)
  rintro _ _ ⟨v, rfl, freed', mem⟩
  have hv : (g.setHold e (.own v)).hold e = .own v := by simp
  rw [Local.setHold_setHold]
  refine safe_seq ?_ (bfree_spec layout hv (p := .indirect)
    (by rw [freed'.indirect, ← freed.indirect, at_ind]))
  rintro _ _ rfl
  refine safe_mono ?_ (setDin_spec anyStill
    (w := { v with slot := update v.slot .indirect none }) (by simp) _ fun h => h)
  rintro _ _ rfl
  simp only [Local.setHold_setHold]
  refine ⟨_, rfl, freed'.type, freed'.disk, fun p => ?_⟩
  cases p with
  | data k =>
    dsimp only
    rw [update_of_ne (by simp)]
    by_cases near : k < MAXFILE
    · exact freed'.gone k near
    · rw [freed'.kept k (Nat.not_lt.1 near), past k (Nat.not_lt.1 near)]
  | indirect => simp

theorem ifree_spec (held : AtRest (g.hold e)) :
    Keeps sb anyChange t (ifree sb e) (fun _ g' => ∃ x, g' = g.setHold e x ∧ AtRest x) g := by
  have same : ∃ x, g = g.setHold e x ∧ AtRest x := ⟨_, (Local.setHold_self _ _ _ rfl).symm, held⟩
  unfold ifree
  refine safe_bind (safe_read (fun _ => trivial) fun s G inv here => ?_)
  subst here
  refine safe_ite (fun dead => ?_) fun _ => safe_pure same
  obtain ⟨w, hw, rest⟩ : ∃ w, (G t).hold e = .own w ∧ w.Rest := by
    refine held.resolve_left fun bare => ?_
    have := inv.1.bare t e bare
    simp [this] at dead
  refine safe_bind (safe_read (fun _ => trivial) fun s' G' inv' here' => ?_)
  refine safe_ite (fun _ => ?_) fun _ => safe_pure same
  refine safe_seq ?_ (itrunc_spec layout hw rest)
  rintro _ _ ⟨w', rfl, empty⟩
  refine safe_seq ?_ (setDin_spec anyStill (w := w') (by simp) _ ?_)
  · rintro _ _ rfl
    refine safe_seq ?_ (iupdate_free layout
      (w := { w' with mem := { w'.mem with type := 0 } }) (by simp) empty rfl)
    rintro _ _ rfl
    refine safe_change fun s'' G'' inv'' here'' =>
      ⟨trivial, _, inv''.invalidate ?_, .bare, ?_, .inl rfl⟩
    · rw [here'']
      simp
    rw [here'']
    simp
  · exact fun h => absurd (show (0 : Short) = T_DIR from h) (by decide)

theorem iput_spec (mine : 0 < g.mine e) :
    Keeps sb anyChange t (iput sb t e) (fun _ g' => g' = g.setMine e (g.mine e - 1)) g := by
  unfold iput
  refine safe_seq ?_ (acquiresleep_spec anyStill mine)
  rintro _ _ ⟨free, x, rfl, rest⟩
  refine safe_seq ?_ (ifree_spec layout (by simpa using rest))
  rintro _ _ ⟨y, rfl, rest'⟩
  refine safe_seq ?_ (releasesleep_spec anyStill (by simpa using rest'))
  rintro _ _ rfl
  rw [Local.setHold_setHold, Local.setHold_setHold, Local.setHold_self _ _ _ free]
  refine safe_change fun s G inv here => ⟨trivial, _, ?_, rfl⟩
  subst here
  have pos := Nat.lt_of_lt_of_le mine (inv.1.mine_le t e)
  refine inv.count (n := (s.icache e).ref - 1) (m := (G t).mine e - 1) rfl rfl (fun _ _ => rfl)
    (fun held => absurd free held) (fun _ => pos) ?_
  rw [State.pointers_setInode]
  omega

end

/-! ## Writing -/

theorem dirOk_copyIn {b : Block} (ok : DirOk sb b) {o : ℕ} (align : o % DESIZE = 0) {src : ℕ → Byte}
    (entry : (src 1 ++ src 0).toNat < sb.ninodes) : DirOk sb (copyIn b o DESIZE src) := by
  intro r hr
  have byte (k : ℕ) (hk : k < BSIZE) : (copyIn b o DESIZE src).byte k =
      if o ≤ k ∧ k < o + DESIZE then src (k - o) else b.byte k := by
    simp only [Block.byte, copyIn, hk, dite_true]
  have inside : DESIZE * r + 1 < BSIZE := by
    simp only [DESIZE, DIRSIZ, BSIZE] at hr ⊢
    omega
  rw [Block.deInum, byte _ inside, byte _ (by omega)]
  by_cases here : o = DESIZE * r
  · rw [if_pos (by simp only [DESIZE, DIRSIZ] at *; omega),
      if_pos (by simp only [DESIZE, DIRSIZ] at *; omega),
      show DESIZE * r + 1 - o = 1 by omega, show DESIZE * r - o = 0 by omega]
    exact entry
  rw [if_neg (by simp only [DESIZE, DIRSIZ] at *; omega),
    if_neg (by simp only [DESIZE, DIRSIZ] at *; omega)]
  exact ok r hr

/-- A directory is only written one entry at a time, with an inode number that exists. -/
def EntryWrite (sb : Superblock) (src : ℕ → Byte) (off n : ℕ) : Prop :=
  n = 0 ∨ n = DESIZE ∧ off % DESIZE = 0 ∧ (src 1 ++ src 0).toNat < sb.ninodes

theorem writeData_spec (layout : sb.Layout) (hw : g.hold e = .own w) {b k : ℕ}
    (at_b : w.slot (.data k) = some b) (f : Block → Block)
    (dir : w.mem.type = T_DIR → ∀ a, DirOk sb a → DirOk sb (f a)) :
    Keeps sb anyChange t (Code.atomically do
        let _ ← bread b
        log_write b f)
      (fun _ g' => g' = g) g := by
  refine safe_atomically fun s G inv here => ?_
  subst here
  rw [wp_bind]
  refine wp_bread (fun _ => ?_) ⟨trivial, by decide, _, inv_again inv⟩
  rw [log_write, wp_modify]
  exact ⟨trivial, _, inv_again (inv.writeData layout hw at_b f fun h => dir h _), rfl⟩

theorem writeLoop_spec (layout : sb.Layout) (none_g : g.limbo = none) :
    ∀ fuel (w : Work) (src : ℕ → Byte) off n k, w.Grown k → n ≤ fuel → off / BSIZE ≤ k →
      (w.mem.type = T_DIR → EntryWrite sb src off n) →
      Keeps sb anyChange t (writeLoop sb e fuel src off n) (fun _ g' => ∃ w',
        g' = g.setHold e (.own w') ∧ w.Extends w' ∧
        w'.Grown (if n = 0 then k else max k (nblk (off + n))) ∧
        (n = 0 ∨ nblk (off + n) ≤ k → w' = w)) (g.setHold e (.own w))
  | 0, w, _, _, n, k, grown, le, _, _ => by
      obtain rfl := Nat.le_zero.1 le
      exact safe_pure ⟨w, rfl, .refl w, grown, fun _ => rfl⟩
  | fuel + 1, w, src, off, n, k, grown, le, near, dir => by
      unfold writeLoop
      refine safe_ite (fun zero => ?_) fun pos => ?_
      · rw [if_pos zero]
        exact safe_pure ⟨w, rfl, .refl w, grown, fun _ => rfl⟩
      rw [if_neg pos]
      have hw : (g.setHold e (.own w)).hold e = .own w := by simp
      refine safe_seq ?_ (bmap_spec layout hw none_g grown near)
      rintro addr _ ⟨w₁, rfl, ext, grown₁, at_off, same⟩
      have turn : 0 < BSIZE - off % BSIZE := Nat.sub_pos_of_lt (Nat.mod_lt _ (by decide))
      set m := min n (BSIZE - off % BSIZE) with m_def
      have type₁ : w₁.mem.type = w.mem.type := by
        obtain ⟨a, mem⟩ := ext.mem
        rw [mem]
      -- A directory entry lies in one block.
      have whole (is_dir : w.mem.type = T_DIR) :
          m = DESIZE ∧ n = DESIZE ∧ off % DESIZE = 0 ∧ (src 1 ++ src 0).toNat < sb.ninodes := by
        obtain ⟨n_eq, align, entry⟩ := (dir is_dir).resolve_left pos
        refine ⟨?_, n_eq, align, entry⟩
        simp only [m_def, n_eq, DESIZE, DIRSIZ, BSIZE] at *
        omega
      rw [Local.setHold_setHold]
      have hw₁ : (g.setHold e (.own w₁)).hold e = .own w₁ := by simp
      refine safe_seq ?_ (writeData_spec layout hw₁ at_off _ ?_)
      · rintro _ _ rfl
        have bn : max k (off / BSIZE + 1) = max k (nblk (off + m)) := by
          congr 1
          simp only [nblk, BSIZE] at *
          omega
        refine safe_mono ?_ (writeLoop_spec layout none_g fuel w₁ (fun j => src (m + j)) (off + m)
          (n - m) (max k (off / BSIZE + 1)) grown₁ (by omega) ?_ ?_)
        · rintro _ _ ⟨w₂, rfl, ext₂, grown₂, same₂⟩
          refine ⟨w₂, rfl, ext.trans ext₂, ?_, fun inside => ?_⟩
          · rw [show off + m + (n - m) = off + n by omega] at grown₂
            by_cases all : n - m = 0
            · rwa [if_pos all, bn, show m = n by omega] at grown₂
            rw [if_neg all] at grown₂
            rwa [show max (max k (off / BSIZE + 1)) (nblk (off + n)) = max k (nblk (off + n)) by
              simp only [nblk, BSIZE] at *
              omega] at grown₂
          have inside := inside.resolve_left pos
          have here : off / BSIZE < k := by
            simp only [nblk, BSIZE] at *
            omega
          rw [same₂ (.inr ?_), same here]
          rw [show off + m + (n - m) = off + n by omega]
          exact le_max_of_le_left inside
        · simp only [BSIZE] at *
          omega
        · intro is_dir
          obtain ⟨m_eq, n_eq, -⟩ := whole (type₁ ▸ is_dir)
          exact .inl (by omega)
      · intro is_dir a ok
        obtain ⟨m_eq, n_eq, align, entry⟩ := whole (type₁ ▸ is_dir)
        rw [m_eq]
        refine dirOk_copyIn ok ?_ entry
        simp only [DESIZE, DIRSIZ, BSIZE] at *
        omega

theorem writei_spec (layout : sb.Layout) (mine : 0 < g.mine e) (none_g : g.limbo = none)
    (hw : g.hold e = .own w) (rest : w.Rest) (src : ℕ → Byte) (off n : Word)
    (dir : w.mem.type = T_DIR → EntryWrite sb src off.toNat n.toNat) :
    Keeps sb anyChange t (writei sb t e src off n)
      (fun _ g' => ∃ w', g' = g.setHold e (.own w') ∧ w'.Rest) g := by
  have same : ∃ w', g = g.setHold e (.own w') ∧ w'.Rest :=
    ⟨w, (Local.setHold_self _ _ _ hw).symm, rest⟩
  unfold writei
  refine safe_seq ?_ (getDin_spec anyStill hw)
  rintro _ g ⟨rfl, rfl⟩
  refine safe_ite (fun _ => ?_) fun _ => ?_
  · refine safe_ite (fun _ => ?_) fun _ => safe_pure same
    refine safe_seq ?_ (consoleio_spec anyStill mine hw rest)
    exact fun _ _ post => safe_pure post
  refine safe_ite (fun _ => safe_pure same) fun inside => ?_
  refine safe_ite (fun _ => safe_pure same) fun _ => ?_
  obtain ⟨le', sum⟩ := of_inside inside
  have near : off.toNat / BSIZE ≤ nblk w.mem.size.toNat := by
    simp only [nblk, BSIZE]
    omega
  have loop := writeLoop_spec (t := t) (e := e) layout none_g n.toNat w src off.toNat n.toNat _
    rest.toGrown le_rfl near dir
  rw [Local.setHold_self _ _ _ hw] at loop
  refine safe_seq ?_ loop
  rintro _ _ ⟨w', rfl, ext, grown, old⟩
  obtain ⟨a, mem⟩ := ext.mem
  refine safe_bind (safe_mono (Q := fun _ g' => ∃ w', g' = g.setHold e (.own w') ∧ w'.Rest)
    (fun _ _ post => safe_pure post) ?_)
  refine safe_ite (fun longer => ?_) fun shorter => ?_
  · have pos : n.toNat ≠ 0 := Nat.pos_iff_ne_zero.1 longer.1
    have more : w.mem.size.toNat < off.toNat + n.toNat := sum ▸ longer.2
    rw [if_neg pos, max_eq_right (by simp only [nblk, BSIZE]; omega)] at grown
    refine safe_seq ?_ (setDin_spec anyStill (w := w') (by simp) _ fun h => h)
    rintro _ _ rfl
    refine safe_mono ?_ (iupdate_spec layout
      (w := { w' with mem := { w'.mem with size := off + n } }) (by simp) ?_)
    · rintro _ _ rfl
      simp only [Local.setHold_setHold]
      refine ⟨_, rfl, ⟨⟨grown.slot, ?_⟩, rfl⟩⟩
      dsimp only
      rw [sum]
      exact grown.extent
    · dsimp only
      rw [mem, ext.disk, rest.disk]
  have unchanged : w' = w := by
    refine old ?_
    by_cases zero : n.toNat = 0
    · exact .inl zero
    have fits : ¬ w.mem.size.toNat < (off + n).toNat := fun lt =>
      shorter ⟨Nat.pos_of_ne_zero zero, lt⟩
    right
    simp only [nblk, BSIZE]
    omega
  exact safe_pure ⟨w', rfl, unchanged ▸ rest⟩

/-! ## New inodes and entries -/

theorem iallocFrom_spec (layout : sb.Layout) {type : Short} (some_type : type ≠ 0) :
    ∀ n i, i + n ≤ sb.ninodes → Keeps sb anyChange t (iallocFrom sb type n i)
      (fun e g' => g' = g.setMine e (g.mine e + 1)) g
  | 0, _, _ => by
      unfold iallocFrom
      exact (by decide : "ialloc: no inodes" ≠ "freeing free block")
  | n + 1, i, le => by
      have hi : i < sb.ninodes := by omega
      unfold iallocFrom
      refine safe_bind (safe_mono (Q := fun _ g' => g' = g) ?_ ?_)
      · intro found g' same
        rw [same]
        refine safe_ite (fun _ => iget_spec anyStill hi) fun _ => ?_
        exact iallocFrom_spec layout some_type n (i + 1) (by omega)
      refine safe_atomically fun s G inv here => ?_
      rw [wp_bind]
      refine wp_bread (fun _ => ?_) ⟨trivial, by decide, _, inv_again inv⟩
      rw [wp_ite]
      refine ⟨fun free => ?_, fun _ => ⟨trivial, _, inv_again inv, here⟩⟩
      rw [log_write, wp_bind, wp_modify, wp_pure]
      exact ⟨trivial, _, inv_again (inv.ialloc layout hi free some_type), here⟩

theorem ialloc_spec (layout : sb.Layout) {type : Short} (some_type : type ≠ 0) :
    Keeps sb anyChange t (ialloc sb type) (fun e g' => g' = g.setMine e (g.mine e + 1)) g := by
  have := layout.root
  exact iallocFrom_spec layout some_type _ _ (by simp only [ROOTINO] at this; omega)

theorem append_bytes_short (x : Short) : x.extractLsb' 8 8 ++ x.extractLsb' 0 8 = x :=
  (BitVec.extractLsb'_append_extractLsb'_eq_extractLsb' rfl).trans BitVec.extractLsb'_eq_self

variable (layout : sb.Layout) (mine : 0 < g.mine e) (none_g : g.limbo = none)
  (hw : g.hold e = .own w) (rest : w.Rest)
include layout mine none_g hw rest

theorem writeEntry_spec {msg : String} (other : msg ≠ "freeing free block")
    (name : List Byte) {inum off : ℕ} (hi : inum < sb.ninodes) (align : off % DESIZE = 0) :
    Keeps sb anyChange t (writeEntry sb t e msg name inum off)
      (fun _ g' => ∃ w', g' = g.setHold e (.own w') ∧ w'.Rest) g := by
  unfold writeEntry
  refine safe_seq ?_ (writei_spec layout mine none_g hw rest _ _ _ fun _ => ?_)
  · exact fun _ _ post => safe_ite (fun _ => other) fun _ => safe_pure post
  refine .inr ⟨rfl, ?_, ?_⟩
  · simp only [BitVec.toNat_ofNat, DESIZE, DIRSIZ] at align ⊢
    omega
  have entry : dirent name (BitVec.ofNat 16 inum) 1 ++ dirent name (BitVec.ofNat 16 inum) 0 =
      BitVec.ofNat 16 inum := append_bytes_short _
  rw [entry, BitVec.toNat_ofNat]
  exact Nat.lt_of_le_of_lt (Nat.mod_le ..) hi

theorem dirlink_spec (name : List Byte) {inum : ℕ}
    (hi : inum < sb.ninodes) :
    Keeps sb anyChange t (dirlink sb t e name inum)
      (fun _ g' => ∃ w', g' = g.setHold e (.own w') ∧ w'.Rest) g := by
  unfold dirlink
  refine safe_seq ?_ (dirlookup_spec anyStill mine hw rest name)
  rintro (_ | ⟨off, ip⟩) g' ⟨dir, post⟩
  · obtain rfl := post
    refine safe_seq ?_ (getDin_spec anyStill hw)
    rintro _ g ⟨rfl, rfl⟩
    refine safe_seq ?_ (scanDir_spec anyStill mine hw rest dir (by decide) _ _ 0 rfl)
    rintro ⟨off, _⟩ g ⟨rfl, align, -⟩
    refine safe_seq ?_ (writeEntry_spec layout mine none_g hw rest (by decide) name hi align)
    exact fun _ _ post => safe_pure post
  obtain ⟨-, rfl⟩ := post
  refine safe_seq ?_ (iput_spec layout (e := ip) (by simp))
  rintro _ _ rfl
  refine safe_pure ⟨w, ?_, rest⟩
  rw [Local.setMine_setMine, Local.setHold_self _ _ _ (by simpa using hw)]
  simp [Local.setMine_self]

end Xv6.Fs
