import Xv6.Log.Log

/-!
# Crash atomicity of the log

`Recoverable d X` is the invariant of the disk at every point where the power can fail: the log
slots named by the on-disk header hold the contents `X` of their home blocks, and every other home
block holds `X` already.  Only the header write of a commit changes `X`.
-/

namespace Xv6

open Lib Function

section

variable (start size : ℕ)

/-- The blocks of the log area: the header and `size - 1` slots. -/
def InLog (b : ℕ) : Prop := start ≤ b ∧ b ≤ start + (size - 1)
  deriving Decidable

/-- The blocks that the log protects. -/
def Home (b : ℕ) : Prop := ¬ InLog start size b
  deriving Decidable

def hdrN (h : Block) : ℤ := (h.word 0).toInt

def hdrBlock (h : Block) (i : ℕ) : ℕ := (h.word (i + 1)).toNat

/-- Recovery from the disk `d` ends with the contents `X` in all home blocks. -/
structure Recoverable (d X : Disk) : Prop where
  nonneg : 0 ≤ hdrN (d start)
  bound : hdrN (d start) ≤ LOGSIZE
  fits : (hdrN (d start)).toNat ≤ size - 1
  home : ∀ i, i < (hdrN (d start)).toNat → Home start size (hdrBlock (d start) i)
  inj : ∀ i j, i < (hdrN (d start)).toNat → j < (hdrN (d start)).toNat →
    hdrBlock (d start) i = hdrBlock (d start) j → i = j
  slots : ∀ i, i < (hdrN (d start)).toNat → d (start + i + 1) = X (hdrBlock (d start) i)
  rest : ∀ b, Home start size b → (∀ i, i < (hdrN (d start)).toNat → hdrBlock (d start) i ≠ b) →
    d b = X b

/-- The number of non-zero headers among the block writes of a run. -/
def headerWrites (ws : List (ℕ × Block)) : ℕ :=
  (ws.filter fun w => w.1 = start ∧ w.2.word 0 ≠ 0).length

variable {start size} {m : Machine Log} {V X : Disk} {S : Set ℕ} {b i : ℕ} {x : Block}

theorem home_ne_start (h : Home start size b) : b ≠ start := by
  rintro rfl
  exact h ⟨le_rfl, by omega⟩

theorem home_ne_slot (h : Home start size b) (hi : i < size - 1) : b ≠ start + i + 1 := by
  rintro rfl
  exact h ⟨by omega, by omega⟩

theorem headerWrites_append_other (ws : List (ℕ × Block)) (x : Block) (h : b ≠ start) :
    headerWrites start (ws ++ [(b, x)]) = headerWrites start ws := by
  simp [headerWrites, h]

theorem headerWrites_append_zero (ws : List (ℕ × Block)) (h : x.word 0 = 0) :
    headerWrites start (ws ++ [(start, x)]) = headerWrites start ws := by
  simp [headerWrites, h]

theorem headerWrites_append_commit (ws : List (ℕ × Block)) (h : x.word 0 ≠ 0) :
    headerWrites start (ws ++ [(start, x)]) = headerWrites start ws + 1 := by
  simp [headerWrites, show x.word 0 ≠ 0#32 from h]

/-! ## Single writes -/

namespace Recoverable

variable {d X : Disk}

theorem congr {X' : Disk} (h : Recoverable start size d X)
    (same : ∀ b, Home start size b → X' b = X b) : Recoverable start size d X' :=
  { h with
    slots := fun i hi => by rw [same _ (h.home i hi)]; exact h.slots i hi
    rest := fun b hb hn => by rw [same b hb]; exact h.rest b hb hn }

theorem install (h : Recoverable start size d X) (hi : i < (hdrN (d start)).toNat) :
    Recoverable start size
      (update d (hdrBlock (d start) i) (X (hdrBlock (d start) i))) X := by
  have hd : update d (hdrBlock (d start) i) (X (hdrBlock (d start) i)) start = d start :=
    update_of_ne (home_ne_start (h.home i hi)).symm ..
  have fits := h.fits
  constructor
  all_goals rw [hd]
  · exact h.nonneg
  · exact h.bound
  · exact h.fits
  · exact h.home
  · exact h.inj
  · intro j hj
    rw [update_of_ne (home_ne_slot (h.home i hi) (by omega)).symm]
    exact h.slots j hj
  · intro b hb hn
    rw [update_of_ne (hn i hi).symm]
    exact h.rest b hb hn

theorem fill (h : Recoverable start size d X) (empty : hdrN (d start) = 0) (hi : i < size - 1) :
    Recoverable start size (update d (start + i + 1) x) X := by
  have hd : update d (start + i + 1) x start = d start := update_of_ne (by omega) ..
  constructor
  all_goals rw [hd]
  · exact h.nonneg
  · exact h.bound
  · exact h.fits
  · exact h.home
  · exact h.inj
  · intro j hj
    rw [empty] at hj
    exact absurd hj (Nat.not_lt_zero j)
  · intro b hb hn
    rw [update_of_ne (home_ne_slot hb hi)]
    exact h.rest b hb hn

theorem mk_empty (empty : hdrN (d start) = 0) (home : ∀ b, Home start size b → d b = X b) :
    Recoverable start size d X := by
  constructor
  all_goals rw [empty]
  · exact Int.natCast_nonneg _
  · exact Nat.zero_le _
  · exact fun i hi => absurd hi (Nat.not_lt_zero i)
  · exact fun i _ hi => absurd hi (Nat.not_lt_zero i)
  · exact fun i hi => absurd hi (Nat.not_lt_zero i)
  · exact fun b hb _ => home b hb

end Recoverable

/-! ## Copying a block through the cache -/

/-- A run that stops here leaves the disk as it was. -/
def Untouched (m m' : Machine Log) : Prop := m'.disk = m.disk ∧ m'.written = m.written

theorem SameStore.untouched {m' : Machine Log} (h : SameStore m m') : Untouched m m' :=
  ⟨h.disk, h.written⟩

/-- What one block write through the cache leaves. -/
structure Wrote (m m' : Machine Log) (b : ℕ) (x : Block) : Prop where
  disk : m'.disk = update m.disk b x
  written : m'.written = m.written ++ [(b, x)]
  kernel : m'.kernel = m.kernel

theorem Wrote.of_same {m₁ m₂ m₃ : Machine Log} (h : Wrote m₁ m₂ b x) (before : SameStore m m₁)
    (after : SameStore m₂ m₃) : Wrote m m₃ b x := by
  refine ⟨?_, ?_, after.kernel.trans (h.kernel.trans before.kernel)⟩
  · rw [after.disk, h.disk, before.disk]
  · rw [after.written, h.written, before.written]

theorem Untouched.of_same {m₁ m₂ : Machine Log} (h : Untouched m₁ m₂) (before : SameStore m m₁) :
    Untouched m m₂ :=
  ⟨h.1.trans before.disk, h.2.trans before.written⟩

theorem copyOut_spec (rep : Rep m V S) {i : Fin NBUF} (held : Held m i b) (x : Block) :
    wp (copyOut i x) (fun _ m' => Rep m' (update V b x) (S \ {b}) ∧ Wrote m m' b x)
      (fun _ m' => Untouched m m') m :=
  wp_imp (setData_bwrite_spec rep held x) fun _ _ ⟨rep', _, _, disk, written, kernel⟩ =>
    ⟨rep', disk, written, kernel⟩

theorem wp_bread {α : Type} (rep : Rep m V S) (b : ℕ) {k : Fin NBUF → LogM α}
    {Q : α → Machine Log → Prop} {E : Halt → Machine Log → Prop}
    (stop : ∀ e m', SameStore m m' → E e m')
    (ok : ∀ i m', Rep m' V S → Read m m' i b → wp (k i) Q E m') :
    wp (bread ROOTDEV b >>= k) Q E m := by
  rw [wp_bind]
  exact wp_mono (bread_spec rep b) (fun i m' h => ok i m' h.1 h.2) stop

theorem wp_brelse {α : Type} (rep : Rep m V S) (i : Fin NBUF) {k : LogM α}
    {Q : α → Machine Log → Prop} {E : Halt → Machine Log → Prop}
    (ok : ∀ m', Rep m' V S → SameStore m m' → wp k Q E m') :
    wp (brelse i >>= fun _ => k) Q E m := by
  rw [wp_bind]
  exact wp_imp (brelse_spec rep i E) fun _ m' h => ok m' h.1 h.2.2

theorem copyOut_brelse_spec {m₀ : Machine Log} (same : SameStore m₀ m) (rep : Rep m V S)
    {i : Fin NBUF} (held : Held m i b) (x : Block) (j k : Fin NBUF) :
    wp (do copyOut i x; brelse j; brelse k)
      (fun _ m' => Rep m' (update V b x) (S \ {b}) ∧ Wrote m₀ m' b x)
      (fun _ m' => Untouched m₀ m') m := by
  rw [wp_bind]
  refine wp_mono (copyOut_spec rep held x) (fun _ m₁ h => ?_) fun _ _ h => h.of_same same
  obtain ⟨rep₁, wrote⟩ := h
  refine wp_brelse rep₁ j fun m₂ rep₂ same₂ => ?_
  refine wp_imp (brelse_spec rep₂ k _) fun _ m₃ h => ?_
  obtain ⟨rep₃, -, same₃⟩ := h
  exact ⟨rep₃, wrote.of_same same (same₂.trans same₃)⟩

theorem read_two {α : Type} (rep : Rep m V S) {a : ℕ} (ne : a ≠ b)
    {k : Fin NBUF → Fin NBUF → LogM α} {Q : α → Machine Log → Prop} {E : Halt → Machine Log → Prop}
    (stop : ∀ e m', SameStore m m' → E e m')
    (ok : ∀ i j m', Rep m' V S → Held m' i a → Held m' j b → SameStore m m' → wp (k i j) Q E m') :
    wp (do let i ← bread ROOTDEV a; let j ← bread ROOTDEV b; k i j) Q E m := by
  refine wp_bread rep a stop fun i m₁ rep₁ read₁ => ?_
  refine wp_bread rep₁ b (fun e m' h => stop e m' (read₁.store.trans h)) fun j m₂ rep₂ read₂ => ?_
  have hij : i ≠ j := by
    rintro rfl
    exact ne (read₁.held.blockno.symm.trans (read₂.own read₁.held.used))
  exact ok i j m₂ rep₂ (read₁.held.of_eq (read₂.others i hij)) read₂.held
    (read₁.store.trans read₂.store)

theorem copy_second_spec (rep : Rep m V S) {a : ℕ} (ne : a ≠ b) :
    wp (do
        let lbuf ← bread ROOTDEV a
        let dbuf ← bread ROOTDEV b
        let m ← get
        copyOut dbuf (m.buf lbuf).data
        brelse lbuf
        brelse dbuf)
      (fun _ m' => Rep m' (update V b (V a)) (S \ {b}) ∧ Wrote m m' b (V a))
      (fun _ m' => Untouched m m') m := by
  refine read_two rep ne (fun _ _ h => h.untouched) fun i j m₁ rep₁ hi hj same => ?_
  rw [wp_bind, wp_get, hi.data rep₁]
  exact copyOut_brelse_spec same rep₁ hj (V a) i j

theorem copy_first_spec (rep : Rep m V S) {a : ℕ} (ne : a ≠ b) :
    wp (do
        let to_ ← bread ROOTDEV a
        let from_ ← bread ROOTDEV b
        let m ← get
        copyOut to_ (m.buf from_).data
        brelse from_
        brelse to_)
      (fun _ m' => Rep m' (update V a (V b)) (S \ {a}) ∧ Wrote m m' a (V b))
      (fun _ m' => Untouched m m') m := by
  refine read_two rep ne (fun _ _ h => h.untouched) fun i j m₁ rep₁ hi hj same => ?_
  rw [wp_bind, wp_get, hj.data rep₁]
  exact copyOut_brelse_spec same rep₁ hi (V b) j i

/-! ## The phases of a commit -/

theorem write_head_spec (rep : Rep m V S) (hstart : m.kernel.start = start) :
    wp write_head
      (fun _ m' => Rep m' (update V start (m.kernel.lh.toBlock (V start))) (S \ {start}) ∧
        Wrote m m' start (m.kernel.lh.toBlock (V start)))
      (fun _ m' => Untouched m m') m := by
  simp only [write_head, getLog, bind_assoc, pure_bind]
  rw [wp_bind, wp_get, hstart]
  refine wp_bread rep start (fun _ _ h => h.untouched) fun i m₁ rep₁ read => ?_
  rw [wp_bind, wp_get, read.held.data rep₁, wp_bind]
  refine wp_mono (copyOut_spec rep₁ read.held _) (fun _ m₂ h => ?_)
    fun _ _ h => h.of_same read.store
  obtain ⟨rep₂, wrote⟩ := h
  refine wp_imp (brelse_spec rep₂ i _) fun _ m₃ h => ?_
  obtain ⟨rep₃, -, same⟩ := h
  exact ⟨rep₃, wrote.of_same read.store same⟩

/-- The disk can be recovered to `X`, and no header was committed since `m`. -/
def Safe (start size : ℕ) (m : Machine Log) (X : Disk) (m' : Machine Log) : Prop :=
  Recoverable start size m'.disk X ∧ headerWrites start m'.written = headerWrites start m.written

theorem Safe.of_untouched {m₁ m' : Machine Log} (h : Safe start size m X m₁)
    (same : Untouched m₁ m') : Safe start size m X m' :=
  ⟨by rw [same.1]; exact h.1, by rw [same.2]; exact h.2⟩

/-- The on-disk header is the in-memory one. -/
structure HeaderIs (h : Block) (lh : LogHeader) : Prop where
  n : hdrN h = lh.n
  block : ∀ i, i < lh.n.toNat → hdrBlock h i = lh.block i

section

variable (rep : Rep m V S) (hstart : m.kernel.start = start)
  (hrec : Recoverable start size m.disk X)
include rep hstart hrec

theorem install_trans_spec (header : HeaderIs (m.disk start) m.kernel.lh)
    (slots : ∀ i, i < m.kernel.lh.n.toNat → V (start + i + 1) = X (m.kernel.lh.block i))
    (others : ∀ b, Home start size b → b ∉ m.kernel.lh.blocks → V b = X b)
    (wait : ∀ b ∈ S, b ∈ m.kernel.lh.blocks) :
    wp install_trans
      (fun _ m' => (∃ V', Rep m' V' ∅ ∧ ∀ b, Home start size b → V' b = X b) ∧
        m'.kernel = m.kernel ∧ Safe start size m X m')
      (fun _ m' => Safe start size m X m') m := by
  simp only [install_trans, getLog, bind_assoc, pure_bind]
  rw [wp_bind, wp_get, hstart]
  let I : ℕ → Machine Log → Prop := fun t m' => ∃ V' S', Rep m' V' S' ∧ m'.kernel = m.kernel ∧
    m'.disk start = m.disk start ∧ Safe start size m X m' ∧
    (∀ i, i < m.kernel.lh.n.toNat → V' (start + i + 1) = X (m.kernel.lh.block i)) ∧
    (∀ b, Home start size b → (∀ i, t ≤ i → i < m.kernel.lh.n.toNat → m.kernel.lh.block i ≠ b) →
      V' b = X b) ∧
    ∀ b ∈ S', ∃ i, t ≤ i ∧ i < m.kernel.lh.n.toNat ∧ m.kernel.lh.block i = b
  have count : (hdrN (m.disk start)).toNat = m.kernel.lh.n.toNat := by rw [header.n]
  have fits := hrec.fits
  have keep : ∀ t m', t < m.kernel.lh.n.toNat → I t m' → wp (do
      let lbuf ← bread ROOTDEV (start + t + 1)
      let dbuf ← bread ROOTDEV (m.kernel.lh.block t)
      let m ← get
      copyOut dbuf (m.buf lbuf).data
      brelse lbuf
      brelse dbuf) (fun _ => I (t + 1)) (fun _ m' => Safe start size m X m') m' := by
    rintro t m' ht ⟨V', S', rep', kernel, hd, safe, slots', done, wait'⟩
    have home : Home start size (m.kernel.lh.block t) := by
      rw [← header.block t ht]
      exact hrec.home t (by omega)
    have apart : start + t + 1 ≠ m.kernel.lh.block t := (home_ne_slot home (by omega)).symm
    refine wp_mono (copy_second_spec rep' apart) (fun _ m₁ h => ?_) fun _ m₁ h =>
      safe.of_untouched h
    obtain ⟨rep₁, wrote⟩ := h
    rw [slots' t ht] at rep₁ wrote
    have home_t : hdrBlock (m'.disk start) t = m.kernel.lh.block t := by
      rw [hd]
      exact header.block t ht
    refine ⟨_, _, rep₁, wrote.kernel.trans kernel, ?_, ⟨?_, ?_⟩, fun i hi => ?_, fun b hb hn => ?_,
      fun b hb => ?_⟩
    · rw [wrote.disk, update_of_ne (home_ne_start home).symm, hd]
    · rw [wrote.disk, ← home_t]
      exact safe.1.install (by rw [hd]; omega)
    · rw [wrote.written, headerWrites_append_other _ _ (home_ne_start home)]
      exact safe.2
    · rw [update_of_ne (home_ne_slot home (by omega)).symm]
      exact slots' i hi
    · by_cases hbt : b = m.kernel.lh.block t
      · subst hbt
        rw [update_self]
      rw [update_of_ne hbt]
      refine done b hb fun i hi hin => ?_
      rcases Nat.eq_or_lt_of_le hi with rfl | hlt
      · exact Ne.symm hbt
      · exact hn i hlt hin
    · obtain ⟨hb, hne⟩ := hb
      obtain ⟨i, hi, hin, rfl⟩ := wait' b hb
      refine ⟨i, ?_, hin, rfl⟩
      rcases Nat.eq_or_lt_of_le hi with rfl | hlt
      · exact absurd rfl hne
      · exact hlt
  have first : I 0 m := by
    refine ⟨V, S, rep, rfl, rfl, ⟨hrec, rfl⟩, slots, fun b hb hn => others b hb fun hm => ?_,
      fun b hb => ?_⟩
    · obtain ⟨i, hi, h⟩ := LogHeader.mem_blocks.1 hm
      exact hn i (Nat.zero_le i) hi h
    obtain ⟨i, hi, h⟩ := LogHeader.mem_blocks.1 (wait b hb)
    exact ⟨i, Nat.zero_le i, hi, h⟩
  refine wp_imp (wp_forRange keep (Nat.zero_le _) first) fun _ m' h => ?_
  obtain ⟨V', S', rep', kernel, -, safe, -, done, wait'⟩ := h
  have none_left : S' = ∅ := by
    refine Set.eq_empty_of_forall_notMem fun b hb => ?_
    obtain ⟨i, hi, hin, -⟩ := wait' b hb
    omega
  subst none_left
  exact ⟨⟨V', rep', fun b hb => done b hb fun i hi hin => by omega⟩, kernel, safe⟩

theorem write_log_spec (empty : hdrN (m.disk start) = 0)
    (fits : m.kernel.lh.n.toNat ≤ size - 1) (home : ∀ b ∈ m.kernel.lh.blocks, Home start size b)
    (wait : ∀ b ∈ S, Home start size b) :
    wp write_log
      (fun _ m' => (∃ V', Rep m' V' S ∧ (∀ b, Home start size b → V' b = V b) ∧
          ∀ i, i < m.kernel.lh.n.toNat → V' (start + i + 1) = V (m.kernel.lh.block i)) ∧
        m'.kernel = m.kernel ∧ hdrN (m'.disk start) = 0 ∧ Safe start size m X m')
      (fun _ m' => Safe start size m X m') m := by
  simp only [write_log, getLog, bind_assoc, pure_bind]
  rw [wp_bind, wp_get, hstart]
  let I : ℕ → Machine Log → Prop := fun t m' => (∃ V', Rep m' V' S ∧
      (∀ b, Home start size b → V' b = V b) ∧
      ∀ i, i < t → V' (start + i + 1) = V (m.kernel.lh.block i)) ∧
    m'.kernel = m.kernel ∧ hdrN (m'.disk start) = 0 ∧ Safe start size m X m'
  have keep : ∀ t m', t < m.kernel.lh.n.toNat → I t m' → wp (do
      let to_ ← bread ROOTDEV (start + t + 1)
      let from_ ← bread ROOTDEV (m.kernel.lh.block t)
      let m ← get
      copyOut to_ (m.buf from_).data
      brelse from_
      brelse to_) (fun _ => I (t + 1)) (fun _ m' => Safe start size m X m') m' := by
    rintro t m' ht ⟨⟨V', rep', same, filled⟩, kernel, empty', safe⟩
    have home_t := home _ (LogHeader.block_mem ht)
    have apart : start + t + 1 ≠ m.kernel.lh.block t := (home_ne_slot home_t (by omega)).symm
    refine wp_mono (copy_first_spec rep' apart) (fun _ m₁ h => ?_) fun _ m₁ h =>
      safe.of_untouched h
    obtain ⟨rep₁, wrote⟩ := h
    rw [same _ home_t] at rep₁ wrote
    have keepS : S \ {start + t + 1} = S :=
      Set.sdiff_singleton_eq_self fun hs => home_ne_slot (wait _ hs) (by omega) rfl
    rw [keepS] at rep₁
    refine ⟨⟨_, rep₁, fun b hb => ?_, fun i hi => ?_⟩, wrote.kernel.trans kernel, ?_, ?_, ?_⟩
    · rw [update_of_ne (home_ne_slot hb (by omega))]
      exact same b hb
    · by_cases hit : i = t
      · subst hit
        rw [update_self]
      rw [update_of_ne (by omega)]
      exact filled i (by omega)
    · rw [wrote.disk, update_of_ne (by omega)]
      exact empty'
    · rw [wrote.disk]
      exact safe.1.fill empty' (by omega)
    · rw [wrote.written, headerWrites_append_other _ _ (by omega)]
      exact safe.2
  have first : I 0 m :=
    ⟨⟨V, rep, fun _ _ => rfl, fun i hi => absurd hi (Nat.not_lt_zero i)⟩, rfl, empty, hrec, rfl⟩
  exact wp_forRange keep (Nat.zero_le _) first

end

theorem toInt_ofInt_small {n : ℤ} (nonneg : 0 ≤ n) (small : n ≤ LOGSIZE) :
    (BitVec.ofInt 32 n).toInt = n := by
  simp only [LOGSIZE, MAXOPBLOCKS] at small
  rw [BitVec.toInt_ofInt]
  exact Int.bmod_eq_of_le (by omega) (by omega)

theorem headerIs_toBlock {lh : LogHeader} (nonneg : 0 ≤ lh.n) (small : lh.n ≤ LOGSIZE)
    (lt : ∀ b ∈ lh.blocks, b < FSSIZE) (b : Block) : HeaderIs (lh.toBlock b) lh := by
  obtain ⟨zero, rest⟩ := LogHeader.word_toBlock small b
  refine ⟨?_, fun i hi => ?_⟩
  · rw [hdrN, zero, toInt_ofInt_small nonneg small]
  have := lt _ (LogHeader.block_mem hi)
  simp only [FSSIZE] at this
  rw [hdrBlock, rest i hi, BitVec.toNat_ofNat, Nat.mod_eq_of_lt (by omega)]

theorem hdrN_toBlock_zero {lh : LogHeader} (h : lh.n = 0) (b : Block) :
    hdrN (lh.toBlock b) = 0 ∧ (lh.toBlock b).word 0 = 0 := by
  have zero := (@LogHeader.word_toBlock lh (by rw [h]; exact Int.natCast_nonneg _) b).1
  rw [h] at zero
  exact ⟨by rw [hdrN, zero]; rfl, by rw [zero]; rfl⟩

/-- No operation is outstanding: the log is empty and all home blocks hold `X`. -/
structure Idle (start size : ℕ) (m : Machine Log) (X : Disk) : Prop where
  rep : ∃ V, Rep m V ∅ ∧ ∀ b, Home start size b → V b = X b
  hstart : m.kernel.start = start
  hsize : m.kernel.size = size
  empty : hdrN (m.disk start) = 0
  none : m.kernel.lh.n = 0

theorem Idle.recoverable (h : Idle start size m X) : Recoverable start size m.disk X := by
  obtain ⟨V, rep, same⟩ := h.rep
  exact Recoverable.mk_empty h.empty fun b hb => (rep.clean b (Set.notMem_empty b)).trans (same b hb)

theorem clear_spec (rep : Rep m V ∅) (same : ∀ b, Home start size b → V b = X b)
    (hstart : m.kernel.start = start) (hsize : m.kernel.size = size) :
    wp (do clearHead; write_head)
      (fun _ m' => Idle start size m' X ∧
        headerWrites start m'.written = headerWrites start m.written)
      (fun _ m' => Untouched m m') m := by
  simp only [clearHead, modifyLog, wp_bind, wp_modify]
  set m₁ : Machine Log := { m with
    kernel := { m.kernel with lh := { m.kernel.lh with n := 0 } } }
  refine wp_imp (write_head_spec (rep.kernel _ : Rep m₁ V ∅) hstart) fun _ m₂ h => ?_
  obtain ⟨rep₂, wrote⟩ := h
  obtain ⟨zero, word⟩ := @hdrN_toBlock_zero m₁.kernel.lh rfl (V start)
  rw [Set.empty_sdiff] at rep₂
  refine ⟨⟨⟨_, rep₂, fun b hb => ?_⟩, ?_, ?_, ?_, ?_⟩, ?_⟩
  · rw [update_of_ne (home_ne_start hb)]
    exact same b hb
  · rw [wrote.kernel]
    exact hstart
  · rw [wrote.kernel]
    exact hsize
  · rw [wrote.disk, update_self]
    exact zero
  · rw [wrote.kernel]
  · rw [wrote.written, headerWrites_append_zero _ word]

/-- A group in progress: the disk holds `X`, the cache shows `V`, and what differs is logged and
pinned. -/
structure Pending (start size : ℕ) (m : Machine Log) (V X : Disk) : Prop where
  rep : Rep m V {b | b ∈ m.kernel.lh.blocks}
  hstart : m.kernel.start = start
  hsize : m.kernel.size = size
  empty : hdrN (m.disk start) = 0
  hrec : Recoverable start size m.disk X
  nonneg : 0 ≤ m.kernel.lh.n
  bound : m.kernel.lh.n ≤ LOGSIZE
  fits : m.kernel.lh.n.toNat ≤ size - 1
  nodup : m.kernel.lh.blocks.Nodup
  home : ∀ b ∈ m.kernel.lh.blocks, Home start size b

theorem Pending.lt (h : Pending start size m V X) (hb : b ∈ m.kernel.lh.blocks) : b < FSSIZE := by
  obtain ⟨i, dev, no, valid, -⟩ := h.rep.pinned b hb
  rw [← no]
  exact (h.rep.cached i dev valid).1

/-- Where a group from `X` to `Y` can stop: before its header write with `X`, or after it with `Y`.
-/
def Atomic (start size : ℕ) (m : Machine Log) (X Y : Disk) (m' : Machine Log) : Prop :=
  Safe start size m X m' ∨
    Recoverable start size m'.disk Y ∧
      headerWrites start m'.written = headerWrites start m.written + 1

theorem commit_spec (h : Pending start size m V X) (pos : 0 < m.kernel.lh.n) :
    wp commit
      (fun _ m' => Idle start size m' V ∧
        headerWrites start m'.written = headerWrites start m.written + 1)
      (fun _ m' => Atomic start size m X V m') m := by
  have home_wait : ∀ b ∈ {b | b ∈ m.kernel.lh.blocks}, Home start size b := h.home
  simp only [commit, getLog, bind_assoc, pure_bind]
  rw [wp_bind, wp_get, if_pos pos, wp_bind]
  refine wp_mono (write_log_spec h.rep h.hstart h.hrec h.empty h.fits h.home home_wait)
    (fun _ m₁ h₁ => ?_) fun _ _ h => Or.inl h
  obtain ⟨⟨V₁, rep₁, same₁, slots₁⟩, kernel₁, empty₁, safe₁⟩ := h₁
  rw [wp_bind]
  refine wp_mono (write_head_spec rep₁ (kernel₁ ▸ h.hstart)) (fun _ m₂ h₂ => ?_)
    fun _ _ h => Or.inl (safe₁.of_untouched h)
  obtain ⟨rep₂, wrote₂⟩ := h₂
  rw [kernel₁] at rep₂ wrote₂
  have hdr := headerIs_toBlock h.nonneg h.bound (fun b hb => h.lt hb) (V₁ start)
  have nonzero : (m.kernel.lh.toBlock (V₁ start)).word 0 ≠ 0 := by
    intro hz
    have := hdr.n
    rw [hdrN, hz] at this
    exact absurd this.symm pos.ne'
  have kernel₂ : m₂.kernel = m.kernel := wrote₂.kernel.trans kernel₁
  have disk₂ : m₂.disk start = m.kernel.lh.toBlock (V₁ start) := by
    rw [wrote₂.disk, update_self]
  have keepS : {b | b ∈ m.kernel.lh.blocks} \ {start} = {b | b ∈ m.kernel.lh.blocks} :=
    Set.sdiff_singleton_eq_self fun hs => home_ne_start (h.home _ hs) rfl
  rw [keepS] at rep₂
  -- the commit point: the slots written before the header now count
  have hrec₂ : Recoverable start size m₂.disk V := by
    constructor
    all_goals rw [disk₂, hdr.n]
    · exact h.nonneg
    · exact h.bound
    · exact h.fits
    · intro i hi
      rw [hdr.block i hi]
      exact h.home _ (LogHeader.block_mem hi)
    · intro i j hi hj
      rw [hdr.block i hi, hdr.block j hj]
      exact LogHeader.block_inj h.nodup hi hj
    · intro i hi
      have fits := h.fits
      rw [hdr.block i hi, wrote₂.disk, update_of_ne (by omega), ← slots₁ i hi]
      exact rep₁.clean _ fun hs => home_ne_slot (h.home _ hs) (by omega) rfl
    · intro b hb hn
      have hb' : b ∉ m.kernel.lh.blocks := by
        intro hm
        obtain ⟨i, hi, e⟩ := LogHeader.mem_blocks.1 hm
        exact hn i hi ((hdr.block i hi).trans e)
      rw [wrote₂.disk, update_of_ne (home_ne_start hb), ← same₁ b hb]
      exact rep₁.clean b hb'
  have count₂ : headerWrites start m₂.written = headerWrites start m.written + 1 := by
    rw [wrote₂.written, headerWrites_append_commit _ nonzero, safe₁.2]
  have commits {m' : Machine Log} (safe : Safe start size m₂ V m') :
      Recoverable start size m'.disk V ∧
        headerWrites start m'.written = headerWrites start m.written + 1 :=
    ⟨safe.1, safe.2.trans count₂⟩
  have slots₂ (i : ℕ) (hi : i < m₂.kernel.lh.n.toNat) :
      update V₁ start (m.kernel.lh.toBlock (V₁ start)) (start + i + 1) =
        V (m₂.kernel.lh.block i) := by
    rw [kernel₂] at hi ⊢
    rw [update_of_ne (by omega)]
    exact slots₁ i hi
  have others₂ (b : ℕ) (hb : Home start size b) (_ : b ∉ m₂.kernel.lh.blocks) :
      update V₁ start (m.kernel.lh.toBlock (V₁ start)) b = V b := by
    rw [update_of_ne (home_ne_start hb)]
    exact same₁ b hb
  rw [wp_bind]
  refine wp_mono (install_trans_spec rep₂ (kernel₂ ▸ h.hstart) hrec₂
    (by rw [disk₂, kernel₂]; exact hdr)
    slots₂ others₂ fun b hb => by rw [kernel₂]; exact hb) (fun _ m₃ h₃ => ?_)
    fun _ _ h => Or.inr (commits h)
  obtain ⟨⟨V₃, rep₃, same₃⟩, kernel₃, safe₃⟩ := h₃
  refine wp_mono (clear_spec rep₃ same₃ (by rw [kernel₃, kernel₂, h.hstart])
    (by rw [kernel₃, kernel₂, h.hsize])) (fun _ m₄ h₄ => ?_)
    fun _ _ h => Or.inr (commits (safe₃.of_untouched h))
  exact ⟨h₄.1, h₄.2.trans (safe₃.2.trans count₂)⟩

/-! ## Groups -/

/-- What a group does to the contents of the home blocks. -/
def Group.apply (g : Group) (X : Disk) : Disk :=
  g.foldl (fun X w => update X w.1 (w.2 (X w.1))) X

def applyGroups (gs : List Group) (X : Disk) : Disk := gs.foldl (fun X g => g.apply X) X

theorem setData_log_write_spec (rep : Rep m V S) {i : Fin NBUF} (held : Held m i b) (x : Block) :
    wp (do setData i x; log_write i)
      (fun _ m' => Rep m' (update V b x) (insert b S) ∧ Untouched m m' ∧
        m'.kernel = { m.kernel with lh := m.kernel.lh.absorb b } ∧
        m.kernel.lh.n < LOGSIZE ∧ m.kernel.lh.n < m.kernel.size - 1)
      (fun _ m' => Untouched m m') m := by
  simp only [setData, log_write, wp_bind, wp_modify, wp_get, setBuf_same]
  rw [wp_ite]
  refine ⟨fun _ => ⟨rfl, rfl⟩, fun room => ?_⟩
  rw [wp_ite]
  refine ⟨fun _ => ⟨rfl, rfl⟩, fun _ => ?_⟩
  rw [not_or, not_le, not_le] at room
  rw [wp_set]
  refine ⟨(rep_pin rep held x).of_same rep.all rfl fun j => ?_, ⟨rfl, rfl⟩, ?_, room⟩
  · by_cases hj : j = i
    · subst hj
      simp [Machine.setBuf]
    · simp [Machine.setBuf, update_of_ne hj]
  · rw [held.blockno]
    rfl

theorem logged_spec (h : Pending start size m V X) (home : Home start size b) (f : Block → Block) :
    wp (logged b f)
      (fun _ m' => Pending start size m' (update V b (f (V b))) X ∧
        m'.written = m.written ∧ m'.kernel.lh = m.kernel.lh.absorb b)
      (fun _ m' => Safe start size m X m') m := by
  have safe : Safe start size m X m := ⟨h.hrec, rfl⟩
  have nonneg := h.nonneg
  unfold logged
  refine wp_bread h.rep b (fun _ _ same => safe.of_untouched same.untouched)
    fun i m₁ rep₁ read => ?_
  have store := read.store
  rw [wp_bind, wp_get, read.held.data rep₁, ← bind_assoc, wp_bind]
  refine wp_mono (setData_log_write_spec rep₁ read.held (f (V b))) (fun _ m₂ h₂ => ?_)
    fun _ m₂ same => (safe.of_untouched store.untouched).of_untouched same
  obtain ⟨rep₂, same₂, kernel₂, room⟩ := h₂
  rw [store.kernel] at kernel₂ room
  refine wp_imp (brelse_spec rep₂ i _) fun _ m₃ h₃ => ?_
  obtain ⟨rep₃, -, store₃⟩ := h₃
  have kernel₃ := store₃.kernel.trans kernel₂
  have disk₃ : m₃.disk = m.disk := store₃.disk.trans (same₂.1.trans store.disk)
  have wait : insert b {b | b ∈ m.kernel.lh.blocks} = {c | c ∈ (m.kernel.lh.absorb b).blocks} := by
    ext c
    exact (LogHeader.mem_absorb nonneg).symm
  have le : (m.kernel.lh.absorb b).n ≤ m.kernel.lh.n + 1 := by
    simp only [LogHeader.absorb]
    split <;> omega
  refine ⟨?_, store₃.written.trans (same₂.2.trans store.written), by rw [kernel₃]⟩
  constructor
  · rw [kernel₃, ← wait]
    exact rep₃
  · rw [kernel₃]
    exact h.hstart
  · rw [kernel₃]
    exact h.hsize
  · rw [disk₃]
    exact h.empty
  · rw [disk₃]
    exact h.hrec
  · rw [kernel₃]
    exact LogHeader.nonneg_absorb nonneg b
  · rw [kernel₃]
    exact le.trans room.1
  · have hsize := h.hsize
    rw [kernel₃]
    show (m.kernel.lh.absorb b).n.toNat ≤ _
    omega
  · rw [kernel₃]
    exact LogHeader.nodup_absorb nonneg h.nodup b
  · rw [kernel₃]
    intro c hc
    rcases (LogHeader.mem_absorb nonneg).1 hc with rfl | hc
    · exact home
    · exact h.home c hc

theorem forM_logged_spec (g : Group) (home : ∀ w ∈ g, Home start size w.1) {Y : Disk}
    (h : Pending start size m V X) (same : ∀ b, Home start size b → V b = Y b) :
    wp (forM g fun w => logged w.1 w.2)
      (fun _ m' => (∃ V', Pending start size m' V' X ∧
          ∀ b, Home start size b → V' b = g.apply Y b) ∧ m'.written = m.written ∧
        ∀ b, b ∈ m.kernel.lh.blocks ∨ b ∈ g.map Prod.fst → b ∈ m'.kernel.lh.blocks)
      (fun _ m' => Safe start size m X m') m := by
  induction g generalizing m V Y with
  | nil =>
    rw [List.forM_nil, wp_pure]
    exact ⟨⟨V, h, same⟩, rfl, fun b hb => by simpa using hb⟩
  | cons w g ih =>
    rw [List.forM_cons, wp_bind]
    have home_w := home w List.mem_cons_self
    refine wp_imp (logged_spec h home_w w.2) fun _ m₁ h₁ => ?_
    obtain ⟨h₁, written₁, lh₁⟩ := h₁
    have same₁ (b : ℕ) (hb : Home start size b) :
        update V w.1 (w.2 (V w.1)) b = update Y w.1 (w.2 (Y w.1)) b := by
      by_cases hbw : b = w.1
      · subst hbw
        rw [update_self, update_self, same _ hb]
      · rw [update_of_ne hbw, update_of_ne hbw, same b hb]
    refine wp_mono (ih (fun w' hw' => home w' (List.mem_cons_of_mem _ hw')) h₁ same₁)
      (fun _ m₂ h₂ => ?_) fun _ m₂ h₂ => ⟨h₂.1, by rw [h₂.2, written₁]⟩
    obtain ⟨V', written₂, mem⟩ := h₂
    refine ⟨V', written₂.trans written₁, fun b hb => mem b ?_⟩
    rw [lh₁, LogHeader.mem_absorb h.nonneg]
    simp only [List.map_cons, List.mem_cons] at hb
    tauto

theorem runGroup_spec {g : Group} (home : ∀ w ∈ g, Home start size w.1) (h : Idle start size m X) :
    wp (runGroup g)
      (fun _ m' => Idle start size m' (g.apply X) ∧ headerWrites start m'.written =
        headerWrites start m.written + if g.isEmpty then 0 else 1)
      (fun _ m' => Atomic start size m X (g.apply X) m' ∧
        (headerWrites start m'.written = headerWrites start m.written + 1 → g ≠ [])) m := by
  obtain ⟨V, rep, same⟩ := h.rep
  simp only [runGroup, modifyLog, wp_bind, wp_modify]
  have blocks_nil : m.kernel.lh.blocks = [] := by
    rw [← List.length_eq_zero_iff, LogHeader.length_blocks, h.none]
    rfl
  have pending : Pending start size { m with kernel := { m.kernel with outstanding := 1 } } V X := by
    constructor
    · show Rep _ V {b | b ∈ m.kernel.lh.blocks}
      rw [blocks_nil]
      simpa using rep.kernel _
    · exact h.hstart
    · exact h.hsize
    · exact h.empty
    · exact h.recoverable
    · exact h.none.ge
    · exact h.none.le.trans (Int.natCast_nonneg _)
    · show m.kernel.lh.n.toNat ≤ _
      rw [h.none]
      exact Nat.zero_le _
    · show m.kernel.lh.blocks.Nodup
      rw [blocks_nil]
      exact List.nodup_nil
    · intro b hb
      rw [show LogHeader.blocks _ = [] from blocks_nil] at hb
      cases hb
  rcases g with _ | ⟨w, g⟩
  · -- nothing is logged, and `commit` finds the header empty
    simp only [List.forM_nil, wp_pure, commit, getLog, wp_bind, wp_get]
    rw [if_neg (by rw [h.none]; exact lt_irrefl 0), wp_pure]
    exact ⟨⟨⟨V, rep.kernel _, same⟩, h.hstart, h.hsize, h.empty, h.none⟩, rfl⟩
  refine wp_mono (forM_logged_spec (w :: g) home pending same) (fun _ m₁ h₁ => ?_)
    fun _ m₁ safe => ⟨Or.inl safe, fun hw => absurd (hw.symm.trans safe.2) (Nat.succ_ne_self _)⟩
  obtain ⟨⟨V₁, pending₁, same₁⟩, written₁, mem₁⟩ := h₁
  have pending₂ : Pending start size { m₁ with
      kernel := { m₁.kernel with outstanding := 0, committing := true } } V₁ X :=
    { pending₁ with rep := pending₁.rep.of_same pending₁.rep.all rfl fun _ => rfl }
  have written₂ : headerWrites start m₁.written = headerWrites start m.written := by
    rw [written₁]
  have pos : 0 < m₁.kernel.lh.n := by
    have logged := mem₁ w.1 (Or.inr (by simp))
    have len := List.length_pos_of_mem logged
    rw [LogHeader.length_blocks] at len
    omega
  refine wp_mono (commit_spec pending₂ pos) (fun _ m₂ h₂ => ?_) fun _ m₂ h₂ => ?_
  · obtain ⟨idle, count⟩ := h₂
    obtain ⟨V₂, rep₂, same₂⟩ := idle.rep
    refine ⟨⟨⟨V₂, rep₂.kernel _, fun b hb => (same₂ b hb).trans (same₁ b hb)⟩, idle.hstart,
      idle.hsize, idle.empty, idle.none⟩, ?_⟩
    rw [show headerWrites start m₂.written = _ from count]
    exact congrArg (· + 1) written₂
  refine ⟨?_, fun _ => List.cons_ne_nil w g⟩
  rcases h₂ with safe | ⟨rec₂, count⟩
  · exact Or.inl ⟨safe.1, safe.2.trans written₂⟩
  exact Or.inr ⟨rec₂.congr fun b hb => (same₁ b hb).symm,
    count.trans (congrArg (· + 1) written₂)⟩

def nonempty (gs : List Group) : List Group := gs.filter fun g => !g.isEmpty

/-- Some number of further groups has committed, and the disk holds them and no others. -/
def Progress (start size : ℕ) (gs : List Group) (m : Machine Log) (X : Disk) (m' : Machine Log) :
    Prop :=
  ∃ k, headerWrites start m'.written = headerWrites start m.written + k ∧
    Recoverable start size m'.disk (applyGroups ((nonempty gs).take k) X)

theorem forM_runGroup_spec (gs : List Group) (home : ∀ g ∈ gs, ∀ w ∈ g, Home start size w.1)
    (h : Idle start size m X) :
    wp (forM gs runGroup) (fun _ m' => Progress start size gs m X m')
      (fun _ m' => Progress start size gs m X m') m := by
  induction gs generalizing m X with
  | nil =>
    rw [List.forM_nil, wp_pure]
    exact ⟨0, rfl, h.recoverable⟩
  | cons g gs ih =>
    rw [List.forM_cons, wp_bind]
    refine wp_mono (runGroup_spec (home g List.mem_cons_self) h) (fun _ m₁ h₁ => ?_)
      fun _ m' h' => ?_
    · obtain ⟨idle, count⟩ := h₁
      have extend {m' : Machine Log} (h' : Progress start size gs m₁ (g.apply X) m') :
          Progress start size (g :: gs) m X m' := by
        obtain ⟨k, count', hrec⟩ := h'
        rcases g with _ | ⟨w, g⟩
        · exact ⟨k, count'.trans (by rw [count]; rfl), hrec⟩
        · exact ⟨k + 1, count'.trans (by rw [count, Nat.add_assoc, Nat.add_comm k]; rfl), hrec⟩
      have rest := ih (fun g' hg' => home g' (List.mem_cons_of_mem _ hg')) idle
      exact wp_mono rest (fun _ _ h => extend h) fun _ _ h => extend h
    · obtain ⟨safe | ⟨hrec, count⟩, cons⟩ := h'
      · exact ⟨0, safe.2, safe.1⟩
      rcases g with _ | ⟨w, g⟩
      · exact absurd rfl (cons count)
      · exact ⟨1, count, hrec⟩

/-! ## Recovery -/

theorem read_head_spec (rep : Rep m V S) (hstart : m.kernel.start = start)
    (bound : hdrN (V start) ≤ LOGSIZE) :
    wp read_head
      (fun _ m' => Rep m' V S ∧ Untouched m m' ∧
        m'.kernel = { m.kernel with lh := m.kernel.lh.ofBlock (V start) })
      (fun _ m' => Untouched m m') m := by
  simp only [read_head, getLog, bind_assoc, pure_bind]
  rw [wp_bind, wp_get, hstart]
  refine wp_bread rep start (fun _ _ h => h.untouched) fun i m₁ rep₁ read => ?_
  rw [wp_bind, wp_get, read.held.data rep₁]
  have small : ¬ (LOGSIZE : ℤ) < (m.kernel.lh.ofBlock (V start)).n := not_lt.2 bound
  rw [if_neg small]
  simp only [modifyLog, wp_bind, wp_modify]
  refine wp_imp (brelse_spec (rep₁.kernel _) i _) fun _ m₂ h₂ => ?_
  obtain ⟨rep₂, -, same⟩ := h₂
  exact ⟨rep₂, ⟨same.disk.trans read.store.disk, same.written.trans read.store.written⟩,
    same.kernel.trans (by rw [read.store.kernel, ← hstart])⟩

theorem recover_from_log_spec {d : Disk} (hrec : Recoverable start size d X) (power : ℕ) :
    wp recover_from_log
      (fun _ m' => Idle start size m' X ∧ headerWrites start m'.written = 0)
      (fun _ m' => Recoverable start size m'.disk X ∧ headerWrites start m'.written = 0)
      (Machine.boot d power (Log.init start size)) := by
  set m := Machine.boot d power (Log.init start size) with hm
  have safe : Safe start size m X m := ⟨hrec, rfl⟩
  unfold recover_from_log
  rw [wp_bind]
  refine wp_mono (@read_head_spec start _ _ _ (rep_boot d power _) rfl hrec.bound)
    (fun _ m₁ h₁ => ?_) fun _ _ h => safe.of_untouched h
  obtain ⟨rep₁, same₁, kernel₁⟩ := h₁
  have header : HeaderIs (d start) m₁.kernel.lh := by
    rw [kernel₁]
    refine ⟨rfl, fun i hi => ?_⟩
    have lt : (i : ℤ) < ((d start).word 0).toInt := Int.lt_toNat.1 hi
    exact (if_pos lt).symm
  have count : (hdrN (d start)).toNat = m₁.kernel.lh.n.toNat := by rw [header.n]
  have slots (i : ℕ) (hi : i < m₁.kernel.lh.n.toNat) :
      d (start + i + 1) = X (m₁.kernel.lh.block i) := by
    rw [hrec.slots i (by omega), header.block i hi]
  have others (b : ℕ) (hb : Home start size b) (hn : b ∉ m₁.kernel.lh.blocks) : d b = X b := by
    refine hrec.rest b hb fun i hi h => hn ?_
    rw [count] at hi
    exact LogHeader.mem_blocks.2 ⟨i, hi, (header.block i hi).symm.trans h⟩
  have disk₁ : m₁.disk = d := same₁.1
  have hrec₁ : Recoverable start size m₁.disk X := by
    rw [disk₁]
    exact hrec
  have start₁ : m₁.kernel.start = start := by rw [kernel₁]; rfl
  have size₁ : m₁.kernel.size = size := by rw [kernel₁]; rfl
  have safe₁ : Safe start size m X m₁ := safe.of_untouched same₁
  rw [wp_bind]
  refine wp_mono (install_trans_spec rep₁ start₁ hrec₁ (by rw [disk₁]; exact header) slots others
    fun b hb => absurd hb (Set.notMem_empty b)) (fun _ m₂ h₂ => ?_)
    fun _ _ h => ⟨h.1, h.2.trans safe₁.2⟩
  obtain ⟨⟨V₂, rep₂, same₂⟩, kernel₂, safe₂⟩ := h₂
  have count₂ := safe₂.2.trans safe₁.2
  refine wp_mono (clear_spec rep₂ same₂ (by rw [kernel₂, start₁]) (by rw [kernel₂, size₁]))
    (fun _ _ h => ⟨h.1, h.2.trans count₂⟩) fun _ m₃ h => ?_
  have safe₃ : Safe start size m₁ X m₃ := safe₂.of_untouched h
  exact ⟨safe₃.1, safe₃.2.trans safe₁.2⟩

end

/-! ## Power cycles -/

/-- One life of the machine: how many block writes it makes, and the groups it commits. -/
structure Boot where
  power : ℕ
  groups : List Group

/-- The machine at the end of a boot, whether it ran to its end or was stopped. -/
def Boot.run (start size : ℕ) (b : Boot) (d : Disk) : Machine Log :=
  (exec (do recover_from_log; forM b.groups runGroup)
    (Machine.boot d b.power (Log.init start size))).2

/-- The groups of a boot whose header reached the disk. -/
def Boot.committed (start size : ℕ) (b : Boot) (d : Disk) : List Group :=
  (nonempty b.groups).take (headerWrites start (b.run start size d).written)

/-- The disk after a sequence of boots, and the groups committed in them. -/
def lifetime (start size : ℕ) : Disk → List Boot → Disk × List Group
  | d, [] => (d, [])
  | d, b :: bs =>
      let r := lifetime start size (b.run start size d).disk bs
      (r.1, b.committed start size d ++ r.2)

section

variable {start size : ℕ}

theorem applyGroups_append (gs hs : List Group) (X : Disk) :
    applyGroups (gs ++ hs) X = applyGroups hs (applyGroups gs X) :=
  List.foldl_append ..

theorem boot_recoverable (b : Boot) (home : ∀ g ∈ b.groups, ∀ w ∈ g, Home start size w.1)
    {d X : Disk} (hrec : Recoverable start size d X) :
    Recoverable start size (b.run start size d).disk
      (applyGroups (b.committed start size d) X) := by
  set m := Machine.boot d b.power (Log.init start size) with hm
  have run : wp (do recover_from_log; forM b.groups runGroup)
      (fun _ m' => Progress start size b.groups m X m')
      (fun _ m' => Progress start size b.groups m X m') m := by
    rw [wp_bind]
    refine wp_mono (recover_from_log_spec hrec b.power) (fun _ m₁ h₁ => ?_)
      fun _ _ h => ⟨0, h.2, h.1⟩
    obtain ⟨idle, count⟩ := h₁
    have lift {m' : Machine Log} (h : Progress start size b.groups m₁ X m') :
        Progress start size b.groups m X m' := by
      obtain ⟨k, hk, hrec'⟩ := h
      exact ⟨k, hk.trans (by rw [count]; rfl), hrec'⟩
    exact wp_mono (forM_runGroup_spec b.groups home idle) (fun _ _ h => lift h) fun _ _ h => lift h
  have progress : Progress start size b.groups m X (b.run start size d) := by
    unfold wp at run
    unfold Boot.run
    split at run <;> rename_i h <;> rw [h] <;> exact run
  obtain ⟨k, hk, hrec'⟩ := progress
  unfold Boot.committed
  rw [hk]
  simpa [hm, Machine.boot, headerWrites] using hrec'

theorem lifetime_recoverable (bs : List Boot)
    (home : ∀ b ∈ bs, ∀ g ∈ b.groups, ∀ w ∈ g, Home start size w.1) {d X : Disk}
    (hrec : Recoverable start size d X) :
    Recoverable start size (lifetime start size d bs).1
      (applyGroups (lifetime start size d bs).2 X) := by
  induction bs generalizing d X with
  | nil => exact hrec
  | cons b bs ih =>
    have next := boot_recoverable b (home b List.mem_cons_self) hrec
    simp only [lifetime, applyGroups_append]
    exact ih (fun b' hb' => home b' (List.mem_cons_of_mem _ hb')) next

/-- Crash atomicity. Switch the machine on and off any number of times, after any number of block
writes. When recovery then ends, every home block holds what the groups whose header reached the
disk made of it. -/
theorem crash_atomic (d : Disk) (bs : List Boot) (power : ℕ) (empty : hdrN (d start) = 0)
    (home : ∀ b ∈ bs, ∀ g ∈ b.groups, ∀ w ∈ g, Home start size w.1)
    (done : (exec recover_from_log (Machine.boot (lifetime start size d bs).1 power
      (Log.init start size))).1 = .ok ⟨⟩) :
    let m := (exec recover_from_log (Machine.boot (lifetime start size d bs).1 power
      (Log.init start size))).2
    (∀ b, Home start size b → m.disk b = applyGroups (lifetime start size d bs).2 d b) ∧
      hdrN (m.disk start) = 0 := by
  have hrec₀ : Recoverable start size d d := Recoverable.mk_empty empty fun _ _ => rfl
  have hrec := lifetime_recoverable bs home hrec₀
  have spec := wp_of_ok (recover_from_log_spec hrec power) (exec_eq_of_ok done)
  obtain ⟨V, rep, same⟩ := spec.1.rep
  exact ⟨fun b hb => (rep.clean b (Set.notMem_empty b)).trans (same b hb), spec.1.empty⟩

/-- The machine loses power in the middle of installing the group, after its header. -/
theorem crash_atomic_after_header :
    let bs : List Boot := [⟨5, [[(100, fun _ _ => 7), (101, fun _ _ => 8)]]⟩]
    let m := (exec recover_from_log (Machine.boot (lifetime 2 30 (fun _ => Block.zero) bs).1 5
      (Log.init 2 30))).2
    (lifetime 2 30 (fun _ => Block.zero) bs).2.length = 1 ∧ (∀ b, Home 2 30 b → m.disk b =
      applyGroups (lifetime 2 30 (fun _ => Block.zero) bs).2 (fun _ => Block.zero) b) ∧
      hdrN (m.disk 2) = 0 := by
  refine ⟨by decide +kernel, crash_atomic _ _ 5 (by decide) ?_ (by decide +kernel)⟩
  simp only [List.forall_mem_singleton, List.forall_mem_cons]
  exact ⟨by decide, by decide⟩

end

end Xv6
