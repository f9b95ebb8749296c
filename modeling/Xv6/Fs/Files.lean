import Xv6.Fs.Volume
import Xv6.Fs.Ownership

/-!
# Inodes as byte files

What the callers of `readi` and `writei` see is a table of byte lists (`Files`), with the number of
free blocks: a read returns a slice of a list, and a write overwrites or extends it.  `files` reads
this table out of the disk.
-/

set_option linter.unusedSectionVars false

namespace Xv6

def Dinode.contents (d : Dinode) (disk : Disk) : List Byte :=
  (List.range d.size.toNat).map (d.byte disk)

namespace Fs

open Lib Function

/-! ## The abstract files -/

/-- What an inode stands for; what a device does is not part of the file system. -/
inductive Content where
  | file (bytes : List Byte)
  | device (major : Short)

variable {c : Content} {i off : ℕ} {src : ℕ → Byte}

def blocksOf (length : ℕ) : ℕ := blockCount (nblk length) (nblk length)

namespace Content

/-- The bytes from `off`; `none` is the result -1. -/
def readi (off n : Word) : Content → Option (List Byte)
  | .file f =>
      if f.length < off.toNat ∨ 2 ^ 32 ≤ off.toNat + n.toNat then none
      else some ((f.drop off.toNat).take n.toNat)
  | .device major => if major = CONSOLE then some [] else none

/-- The `n` bytes of `src` written at `off`; `none` is the result -1. -/
def writei (src : ℕ → Byte) (off n : Word) : Content → Option Content
  | .file f =>
      if f.length < off.toNat ∨ 2 ^ 32 ≤ off.toNat + n.toNat ∨
          MAXFILE * BSIZE < off.toNat + n.toNat then none
      else some (.file (f.take off.toNat ++ (List.range n.toNat).map src ++
        f.drop (off.toNat + n.toNat)))
  | .device major => if major = CONSOLE then some (.device major) else none

def blocks : Content → ℕ
  | .file f => blocksOf f.length
  | .device _ => 0

end Content

/-- The contents of the inodes that are in use, and the number of free blocks. -/
@[ext]
structure Files where
  content : ℕ → Option Content
  free : ℕ

inductive Call (ι : Type) where
  | readi (ip : ι) (off n : Word)
  | writei (ip : ι) (src : ℕ → Byte) (off n : Word)

inductive Reply where
  | bytes (data : Option (List Byte))
  | count (n : Option Word)
  deriving DecidableEq

namespace Call

variable {ι κ : Type}

def ip : Call ι → ι
  | .readi ip _ _ => ip
  | .writei ip _ _ _ => ip

def rename (f : ι → κ) : Call ι → Call κ
  | .readi ip off n => .readi (f ip) off n
  | .writei ip src off n => .writei (f ip) src off n

end Call

def Files.perform : Call ℕ → Prog Files String Reply
  | .readi i off n => do
      match (← get).content i with
      | none => throw "ilock: no type"
      | some c => return .bytes (c.readi off n)
  | .writei i src off n => do
      let F ← get
      match F.content i with
      | none => throw "ilock: no type"
      | some c =>
          match c.writei src off n with
          | none => return .count none
          | some c' =>
              if F.free + c.blocks < c'.blocks then throw "balloc: out of blocks"
              else do
                set (⟨update F.content i (some c'), F.free + c.blocks - c'.blocks⟩ : Files)
                return .count (some n)

theorem Files.exec_readi {F : Files} (at_i : F.content i = some c) (off n : Word) :
    exec (Files.perform (.readi i off n)) F = (.ok (.bytes (c.readi off n)), F) := by
  rw [Files.perform, exec_bind, show exec get F = (.ok F, F) from rfl]
  dsimp only
  rw [at_i]
  rfl

theorem Files.exec_writei {F : Files} (at_i : F.content i = some c) (src : ℕ → Byte) (off n : Word) :
    exec (Files.perform (.writei i src off n)) F =
      match c.writei src off n with
      | none => (.ok (.count none), F)
      | some c' =>
          if F.free + c.blocks < c'.blocks then (.error "balloc: out of blocks", F)
          else (.ok (.count (some n)),
            ⟨update F.content i (some c'), F.free + c.blocks - c'.blocks⟩) := by
  rw [Files.perform, exec_bind, show exec get F = (.ok F, F) from rfl]
  dsimp only
  rw [at_i]
  dsimp only
  cases c.writei src off n with
  | none => rfl
  | some c' =>
    dsimp only
    split <;> rfl

/-- What an inode on the disk stands for. -/
def contentOf (disk : Disk) (d : Dinode) : Content :=
  if d.type = T_DEV then .device d.major else .file (d.contents disk)

def files (sb : Superblock) (disk : Disk) : Files where
  content := fun i =>
    if i < sb.ninodes ∧ (inode sb disk i).type ≠ 0 then some (contentOf disk (inode sb disk i))
    else none
  free := freeBlocks sb disk

section

variable {sb : Superblock} {disk disk' : Disk} {d d' : Dinode} {i n m b k : ℕ}

/-! ## Slices of files -/

theorem length_contents : (d.contents disk).length = d.size.toNat := by simp [Dinode.contents]

theorem take_drop_contents (n : ℕ) :
    ((d.contents disk).drop off).take n =
      (List.range (min n (d.size.toNat - off))).map fun j => d.byte disk (off + j) := by
  apply List.ext_getElem
  · simp [Dinode.contents]
  intro j _ _
  simp [Dinode.contents]

theorem contents_write (hoff : off ≤ d.size.toNat)
    (size : d'.size.toNat = max d.size.toNat (off + n))
    (bytes : ∀ k, d'.byte disk' k = if off ≤ k ∧ k < off + n then src (k - off) else d.byte disk k) :
    d'.contents disk' =
      (d.contents disk).take off ++ (List.range n).map src ++ (d.contents disk).drop (off + n) := by
  apply List.ext_getElem
  · simp only [Dinode.contents, List.length_map, List.length_range, List.length_append,
      List.length_take, List.length_drop, size]
    omega
  intro k short _
  have hk : k < max d.size.toNat (off + n) := by
    rwa [length_contents, size] at short
  simp only [Dinode.contents, List.getElem_append, List.getElem_map, List.getElem_range,
    List.getElem_take, List.getElem_drop, List.length_map, List.length_range, List.length_append,
    List.length_take, min_eq_left hoff, bytes]
  by_cases before : k < off
  · rw [if_neg (by omega), dif_pos (by omega), dif_pos before]
  by_cases inside : k < off + n
  · rw [if_pos (by omega), dif_pos inside, dif_neg before]
  · rw [if_neg (by omega), dif_neg inside, Nat.add_sub_cancel' (by omega)]

/-! ## The loop of `readi` -/

theorem nblk_le {len c : ℕ} : nblk len ≤ c ↔ len ≤ c * BSIZE := by
  simp only [nblk, BSIZE]
  omega

variable {T : Type} [DecidableEq T] {t : T} {s s' : State T} {e : Fin NINODE}

theorem Mapped.le_maxfile (h : Mapped sb i disk d n m) : n ≤ MAXFILE := by
  refine Nat.not_lt.1 fun lt => ?_
  have last := (h.data MAXFILE).2 lt
  rw [Dinode.onDisk, Dinode.blocks, if_neg (by decide), if_neg (fun both => by omega)] at last
  cases last

theorem wp_bmap_of_lt (layout : sb.Layout) (din : (s.icache e).din = d)
    (h : Mapped sb i s.disk d n n) (lt : k < n) :
    wp (bmap sb e k : FsM T Word).alone
      (fun a s' => s' = s ∧ d.onDisk s.disk (.data k) = some a.toNat) never s := by
  refine wp_mono (wp_bmap layout din h lt.le (lt.trans_le h.le_maxfile)) ?_ ?_
  · rintro a s' ⟨d', grown, at_k⟩
    rw [max_succ_of_lt lt] at grown
    obtain ⟨rfl, rfl⟩ := grown.same le_rfl
    exact ⟨rfl, at_k⟩
  intro err _ full
  rw [max_succ_of_lt lt] at full
  exact absurd full.2 (Nat.not_lt.2 (Nat.le_add_left ..))

theorem wp_readLoop (layout : sb.Layout) (din : (s.icache e).din = d) (h : Mapped sb i s.disk d n n)
    (fuel off m : ℕ) (enough : m ≤ fuel) (inside : off + m ≤ n * BSIZE) :
    wp (readLoop sb e fuel off m : FsM T (List Byte)).alone
      (fun r s' => s' = s ∧ r = (List.range m).map fun j => d.byte s.disk (off + j)) never s := by
  induction fuel generalizing off m with
  | zero =>
    obtain rfl : m = 0 := Nat.le_zero.1 enough
    exact ⟨rfl, rfl⟩
  | succ fuel ih =>
    unfold readLoop
    rw [wp_alone_ite]
    constructor
    · rintro rfl
      exact ⟨rfl, rfl⟩
    intro pos
    have lt : off / BSIZE < n := by
      simp only [BSIZE] at inside ⊢
      omega
    -- this turn delivers the rest of one block, or what is left to read of it
    set r := min m (BSIZE - off % BSIZE) with turn
    have hr : 0 < r ∧ r ≤ m ∧ off % BSIZE + r ≤ BSIZE := by
      simp only [BSIZE] at turn ⊢
      omega
    rw [wp_alone_bind]
    refine wp_total (wp_bmap_of_lt layout din h lt) ?_
    rintro a s' ⟨rfl, at_k⟩
    have area := h.area at_k
    rw [wp_alone_bind, wp_alone_atomically, wp_bread_of_lt (area.2.trans_le layout.size_le),
      wp_alone_bind]
    refine wp_total (ih (off + r) (m - r) (by omega) (by omega)) ?_
    rintro rest s' ⟨rfl, rfl⟩
    refine ⟨rfl, ?_⟩
    rw [bytes, ← Nat.add_sub_cancel' hr.2.1, List.range_add, List.map_append, List.map_map,
      Nat.add_sub_cancel_left]
    congr 1
    · refine List.map_congr_left fun j hj => ?_
      have hj := List.mem_range.1 hj
      have block : (off + j) / BSIZE = off / BSIZE := by
        simp only [BSIZE] at hr ⊢
        omega
      have byte : (off + j) % BSIZE = off % BSIZE + j := by
        simp only [BSIZE] at hr ⊢
        omega
      rw [byte_of_some (b := a.toNat) (by rw [block]; exact at_k), byte]
    · refine List.map_congr_left fun j _ => ?_
      rw [Function.comp_apply, Nat.add_assoc]

/-! ## The loop of `writei` -/

theorem Mapped.of_own (h : Mapped sb i disk d n m) (apart : Apart sb i disk disk')
    (own : d'.onDisk disk' = d.onDisk disk) (type : d'.type ≠ 0)
    (used : ∀ c < sb.size, inUse sb disk' c = inUse sb disk c) : Mapped sb i disk' d' n m := by
  refine ⟨h.account.congr ?_ fun c => and_congr_right fun hc => by rw [used c hc], h.inum, type,
    own ▸ h.data, own ▸ h.indirect⟩
  rintro ⟨j, q⟩
  by_cases j_i : j = i
  · subst j_i
    rw [places_of_type h.inum (by rwa [update_self]), update_self,
      places_of_type h.inum (by rw [update_self]; exact h.type), update_self, own]
  · exact apart.places j_i q

theorem Mapped.writeData (layout : sb.Layout) (h : Mapped sb i disk d n m)
    (at_k : d.onDisk disk (.data k) = some b) (x : Block) :
    Mapped sb i (update disk b x) d n m ∧
      Apart sb i disk (update disk b x) ∧
      inode sb (update disk b x) i = inode sb disk i ∧
      freeBlocks sb (update disk b x) = freeBlocks sb disk ∧
      ∀ j, d.byte (update disk b x) j =
        if j / BSIZE = k then x.byte (j % BSIZE) else d.byte disk j := by
  have area := h.area at_k
  have apart : Apart sb i disk (update disk b x) :=
    ⟨fun j hj _ => inode_update_data layout hj area.1 x, fun j hj ne type q c at_q =>
      update_of_ne (h.ne_of_other hj ne type at_q at_k) ..⟩
  have own : d.onDisk (update disk b x) = d.onDisk disk := onDisk_congr fun ind => by
    refine update_of_ne (fun same => ?_) ..
    have := h.inj at_k (same ▸ Mapped.onDisk_indirect disk ind)
    cases this
  have used (c : ℕ) (hc : c < sb.size) : inUse sb (update disk b x) c = inUse sb disk c :=
    inUse_update_data layout hc area.1 x
  refine ⟨h.of_own apart own h.type used, apart, inode_update_data layout h.inum area.1 x,
    freeBlocks_congr used, fun j => ?_⟩
  unfold Dinode.byte
  rw [own]
  by_cases here : j / BSIZE = k
  · rw [if_pos here, here, at_k]
    dsimp only
    rw [update_self]
  rw [if_neg here]
  split
  next c at_c =>
    rw [update_of_ne]
    rintro rfl
    exact here (by simpa using h.inj at_c at_k)
  · rfl

variable (sb) in
/-- File `i` after `m` bytes have been written at `off`, with `n'` blocks instead of `n`. -/
structure Written (i : ℕ) (e : Fin NINODE) (s : State T) (d : Dinode) (n : ℕ) (src : ℕ → Byte)
    (off m : ℕ) (s' : State T) (d' : Dinode) (n' : ℕ) : Prop where
  state : s' = s.write e d' s'.disk
  apart : Apart sb i s.disk s'.disk
  here : inode sb s'.disk i = inode sb s.disk i
  fields : ∃ a, d' = { d with addrs := a }
  bytes : ∀ k, d'.byte s'.disk k =
    if off ≤ k ∧ k < off + m then src (k - off) else d.byte s.disk k
  mapped : Mapped sb i s'.disk d' n' n'
  count : freeBlocks sb s'.disk + blockCount n' n' = freeBlocks sb s.disk + blockCount n n
  same : n' ≤ n → d' = d

theorem byte_copyIn (bp : Block) (o m : ℕ) (src : ℕ → Byte) {k : ℕ} (hk : k < BSIZE) :
    (copyIn bp o m src).byte k = if o ≤ k ∧ k < o + m then src (k - o) else bp.byte k := by
  simp [Block.byte, copyIn, hk]

theorem Written.trans {r m n' n'' : ℕ} {d'' : Dinode} {s'' : State T}
    (h : Written sb i e s d n src off r s' d' n') (hr : r ≤ m)
    (h' : Written sb i e s' d' n' (fun j => src (r + j)) (off + r) (m - r) s'' d'' n'')
    (le : n' ≤ n'') (le' : n ≤ n') : Written sb i e s d n src off m s'' d'' n'' where
  state := by rw [h'.state, h.state, State.write_write, State.disk_write]
  apart := h.apart.trans h'.apart
  here := h'.here.trans h.here
  fields := by
    obtain ⟨a, rfl⟩ := h.fields
    exact h'.fields
  bytes := fun k => by
    rw [h'.bytes, h.bytes]
    by_cases later : off + r ≤ k ∧ k < off + r + (m - r)
    · rw [if_pos later, if_pos (by omega)]
      congr 1
      omega
    rw [if_neg later]
    by_cases first : off ≤ k ∧ k < off + r
    · rw [if_pos first, if_pos (by omega)]
    · rw [if_neg first, if_neg (by omega)]
  mapped := h'.mapped
  count := h'.count.trans h.count
  same := fun few => (h'.same (few.trans le')).trans (h.same (le.trans few))

theorem wp_writeTurn (layout : sb.Layout) (din : (s.icache e).din = d)
    (h : Mapped sb i s.disk d n n) {r : ℕ} (src : ℕ → Byte) (start : off ≤ n * BSIZE)
    (inside : off / BSIZE < MAXFILE) (pos : 0 < r) (fits : off % BSIZE + r ≤ BSIZE) :
    wp (do
        let addr ← bmap sb e (off / BSIZE)
        Code.atomically do
          let _ ← bread addr.toNat
          log_write addr.toNat fun bp => copyIn bp (off % BSIZE) r src : FsM T Unit).alone
      (fun _ s' => ∃ d', Written sb i e s d n src off r s' d' (max n (nblk (off + r))))
      (fun err _ => OutOfBlocks sb s.disk n n (max n (nblk (off + r))) (max n (nblk (off + r))) err)
      s := by
  have last : nblk (off + r) = off / BSIZE + 1 := by
    simp only [nblk, BSIZE] at fits ⊢
    omega
  have le : off / BSIZE ≤ n := by
    simp only [BSIZE] at start ⊢
    omega
  rw [wp_alone_bind, last]
  refine wp_mono (wp_bmap layout din h le inside) ?_ fun err _ full => full
  rintro a s₁ ⟨d₁, grown, at_k⟩
  have area := grown.mapped.area at_k
  rw [wp_alone_atomically, wp_bind, wp_bread_of_lt (area.2.trans_le layout.size_le), log_write,
    wp_modify]
  set x := copyIn (s₁.disk a.toNat) (off % BSIZE) r src with block
  obtain ⟨mapped, apart, here, free, bytes⟩ := grown.mapped.writeData layout at_k x
  refine ⟨d₁, ?_, grown.grows.apart.trans apart, here.trans grown.grows.here, grown.grows.fields,
    fun j => ?_, mapped, ?_, fun few => ?_⟩
  · conv_lhs => rw [grown.state]
    rfl
  · rw [show (s₁.setBlock a.toNat fun bp => copyIn bp (off % BSIZE) r src).disk =
      update s₁.disk a.toNat x from rfl, bytes, ← grown.grows.bytes]
    have hj : j % BSIZE < BSIZE := Nat.mod_lt _ (by decide)
    by_cases here : j / BSIZE = off / BSIZE
    · rw [if_pos here, block, byte_copyIn _ _ _ _ hj,
        byte_of_some (b := a.toNat) (by rw [here]; exact at_k)]
      have same : (off % BSIZE ≤ j % BSIZE ∧ j % BSIZE < off % BSIZE + r) ↔
          off ≤ j ∧ j < off + r := by
        simp only [BSIZE] at here fits ⊢
        omega
      simp only [same]
      split
      · congr 1
        simp only [BSIZE] at here ⊢
        omega
      · rfl
    · rw [if_neg here, if_neg]
      simp only [BSIZE] at here fits ⊢
      omega
  · exact (congrArg (· + _) free).trans grown.count
  · exact (grown.same (blockCount_mono few few)).2

theorem Written.zero (din : (s.icache e).din = d) (h : Mapped sb i s.disk d n n) (src : ℕ → Byte)
    (start : off ≤ n * BSIZE) : Written sb i e s d n src off 0 s d (max n (nblk (off + 0))) := by
  rw [Nat.add_zero, max_eq_left (nblk_le.2 start)]
  exact ⟨(State.write_self din).symm, .refl .., rfl, ⟨_, rfl⟩,
    fun k => (if_neg (by omega)).symm, h, rfl, fun _ => rfl⟩

theorem wp_writeLoop (layout : sb.Layout) (fuel : ℕ) :
    ∀ {s : State T} {d : Dinode} {n : ℕ} (src : ℕ → Byte) (off m : ℕ), (s.icache e).din = d →
      Mapped sb i s.disk d n n → m ≤ fuel → off ≤ n * BSIZE → off + m ≤ MAXFILE * BSIZE →
      wp (writeLoop sb e fuel src off m : FsM T Unit).alone
        (fun _ s' => ∃ d', Written sb i e s d n src off m s' d' (max n (nblk (off + m))))
        (fun err _ => OutOfBlocks sb s.disk n n (max n (nblk (off + m))) (max n (nblk (off + m)))
          err) s := by
  induction fuel with
  | zero =>
    intro s d n src off m din h enough start inside
    obtain rfl : m = 0 := Nat.le_zero.1 enough
    exact ⟨d, .zero din h src start⟩
  | succ fuel ih =>
    intro s d n src off m din h enough start inside
    unfold writeLoop
    rw [wp_alone_ite]
    constructor
    · rintro rfl
      exact ⟨d, .zero din h src start⟩
    intro some_left
    set r := min m (BSIZE - off % BSIZE) with turn
    have hr : 0 < r ∧ r ≤ m ∧ off % BSIZE + r ≤ BSIZE := by
      simp only [BSIZE] at turn ⊢
      omega
    have block : off / BSIZE < MAXFILE := by
      simp only [BSIZE] at inside ⊢
      omega
    have grows : nblk (off + r) ≤ nblk (off + m) := Nat.div_le_div_right (by omega)
    have more : max n (nblk (off + r)) ≤ max n (nblk (off + m)) := max_le_max_left n grows
    have first := wp_writeTurn layout din h src start block hr.1 hr.2.2
    rw [wp_alone_bind] at first ⊢
    refine wp_mono first (fun a s₀ rest => ?_) fun err _ full =>
      full.mono (blockCount_mono more more)
    rw [wp_alone_bind]
    refine wp_mono rest ?_ fun err _ full => full.mono (blockCount_mono more more)
    rintro _ s₁ ⟨d₁, written⟩
    have din₁ : (s₁.icache e).din = d₁ := by rw [written.state, State.din_write]
    have start₁ : off + r ≤ max n (nblk (off + r)) * BSIZE := nblk_le.1 (le_max_right ..)
    have end₁ : max (max n (nblk (off + r))) (nblk (off + r + (m - r))) =
        max n (nblk (off + m)) := by
      rw [show off + r + (m - r) = off + m by omega, max_assoc, max_eq_right grows]
    have later := ih (fun j => src (r + j)) (off + r) (m - r) din₁ written.mapped (by omega)
      start₁ (by omega)
    rw [end₁] at later
    refine wp_mono later ?_ fun err _ full => ?_
    · rintro _ s₂ ⟨d₂, written₂⟩
      exact ⟨d₂, written.trans hr.2.1 written₂ more (le_max_left ..)⟩
    · exact ⟨full.1, written.count ▸ full.2⟩

/-! ## Locked inodes -/

theorem State.setInode_setInode (f g : Inode T → Inode T) :
    (s.setInode e f).setInode e g = s.setInode e fun ip => g (f ip) := by
  simp [State.setInode]

theorem State.setInode_self {f : Inode T → Inode T} (same : f (s.icache e) = s.icache e) :
    s.setInode e f = s := by
  simp [State.setInode, same]

theorem wp_iunlock {Q : Unit → State T → Prop} {E : Option String → State T → Prop}
    (lock : (s.icache e).lock = some t) (ref : 0 < (s.icache e).ref) :
    wp (iunlock t e).alone Q E s ↔ Q () (s.setInode e fun ip => { ip with lock := none }) := by
  rw [iunlock, wp_alone_atomically, wp_bind, wp_get, wp_ite]
  simp only [lock, ne_eq, not_true_eq_false, false_or, wp_modify]
  exact ⟨fun h => h.2 (by omega), fun h => ⟨fun unref => by omega, fun _ => h⟩⟩

theorem wp_ilock (layout : sb.Layout) (ref : 0 < (s.icache e).ref) (free : (s.icache e).lock = none)
    (inum : (s.icache e).inum < sb.ninodes) (type : (inode sb s.disk (s.icache e).inum).type ≠ 0)
    (synced : (s.icache e).valid = true → (s.icache e).din = inode sb s.disk (s.icache e).inum) :
    wp (ilock sb t e).alone
      (fun _ s' => s' = s.setInode e fun ip =>
        { ip with lock := some t, valid := true, din := inode sb s.disk ip.inum }) never s := by
  rw [ilock, wp_alone_bind, wp_alone_read, if_neg (by omega), wp_alone_bind, acquiresleep,
    wp_alone_await (by rw [free]; rfl), wp_alone_bind, wp_alone_read, State.icache_setInode_same,
    wp_alone_ite]
  constructor
  · intro valid
    dsimp only at valid
    rw [wp_alone_pure]
    have din := synced valid
    cases ip : s.icache e
    rw [ip] at din valid
    dsimp only at din valid
    subst din valid
    simp only [State.setInode, ip]
  intro stale
  have small : sb.IBLOCK (s.icache e).inum < FSSIZE :=
    (layout.IBLOCK_lt_nmeta inum).trans_le (sb.nmeta_le.trans layout.size_le)
  rw [iload, wp_alone_atomically, wp_bind, wp_get, wp_bind, State.icache_setInode_same,
    wp_bread_of_lt small, wp_bind, wp_modify, State.disk_setInode, State.setInode_setInode]
  rw [inode] at type
  dsimp only
  rw [if_neg type, wp_pure]
  simp only [State.setInode, inode]

variable (sb t) in
/-- Process `t` has locked the inode `d`. -/
structure Locked (s : State T) (e : Fin NINODE) (d : Dinode) : Prop where
  consistent : Consistent sb s.disk
  lock : (s.icache e).lock = some t
  valid : (s.icache e).valid = true
  ref : 0 < (s.icache e).ref
  inum : (s.icache e).inum < sb.ninodes
  din : (s.icache e).din = d
  here : inode sb s.disk (s.icache e).inum = d
  type : d.type ≠ 0

theorem Locked.mapped (h : Locked sb t s e d) :
    Mapped sb (s.icache e).inum s.disk d (nblk d.size.toNat) (nblk d.size.toNat) := by
  have type := h.type
  rw [← h.here] at type
  have extent := h.consistent.extent _ h.inum type
  rw [h.here] at extent
  refine ⟨?_, h.inum, h.type, extent.data, extent.indirect⟩
  rw [← h.here, update_eq_self]
  exact accounted_of_consistent h.consistent

theorem wp_consoleio (layout : sb.Layout) (h : Locked sb t s e d) :
    wp (consoleio sb t e).alone (fun _ s' => s' = s) never s := by
  rw [consoleio, wp_alone_bind, wp_iunlock h.lock h.ref]
  set s₁ := s.setInode e fun ip => { ip with lock := none }
  have entry : s₁.icache e = { s.icache e with lock := none } := State.icache_setInode_same ..
  refine wp_total (wp_ilock layout (t := t) (s := s₁) (e := e) ?_ ?_ ?_ ?_ ?_) ?_
  · rw [entry]
    exact h.ref
  · rw [entry]
  · rw [entry]
    exact h.inum
  · rw [entry]
    exact h.here.symm ▸ h.type
  · rw [entry]
    exact fun _ => h.din.trans h.here.symm
  · rintro _ s' rfl
    rw [State.setInode_setInode]
    refine State.setInode_self ?_
    show ({ s.icache e with lock := some t, valid := true, din := inode sb s.disk _ } : Inode T) = _
    rw [h.here, ← h.lock, ← h.valid, ← h.din]

/-! ## `readi` and `writei` -/

theorem wrap_iff {off n : Word} : off + n < off ↔ 2 ^ 32 ≤ off.toNat + n.toNat := by
  have := off.isLt
  have := n.isLt
  rw [BitVec.lt_def, BitVec.toNat_add]
  omega

theorem wp_readi (layout : sb.Layout) (h : Locked sb t s e d) (off n : Word) :
    wp (readi sb t e off n).alone
      (fun r s' => s' = s ∧ r = (contentOf s.disk d).readi off n) never s := by
  rw [readi, wp_alone_bind, wp_getDin, h.din, wp_alone_ite]
  constructor
  · intro device
    rw [contentOf, if_pos device, Content.readi, wp_alone_ite]
    constructor
    · intro console
      rw [if_pos console, wp_alone_bind]
      refine wp_total (wp_consoleio layout h) ?_
      rintro _ s' rfl
      exact ⟨rfl, rfl⟩
    · intro other
      exact ⟨rfl, (if_neg other).symm⟩
  intro file
  rw [contentOf, if_neg file, Content.readi, length_contents, wp_alone_ite]
  constructor
  · intro outside
    rw [wrap_iff, BitVec.lt_def] at outside
    exact ⟨rfl, (if_pos outside).symm⟩
  intro inside
  rw [wrap_iff, BitVec.lt_def] at inside
  rw [if_neg inside, wp_alone_map]
  have count : (if d.size < off + n then d.size - off else n).toNat =
      min n.toNat (d.size.toNat - off.toNat) := by
    have := off.isLt
    have := n.isLt
    have := d.size.isLt
    split <;> rename_i past <;> rw [BitVec.lt_def, BitVec.toNat_add] at past
    · rw [BitVec.toNat_sub]
      omega
    · omega
  refine wp_total (wp_readLoop layout h.din h.mapped _ _ _ le_rfl ?_) ?_
  · rw [count]
    refine Nat.le_trans ?_ (nblk_le.1 le_rfl)
    omega
  rintro r s' ⟨rfl, rfl⟩
  rw [count, take_drop_contents]
  exact ⟨rfl, rfl⟩

theorem Mapped.consistent (h : Mapped sb i disk' d n n) (old : Consistent sb disk)
    (apart : Apart sb i disk disk') (here : inode sb disk' i = d)
    (size : nblk d.size.toNat = n) : Consistent sb disk' := by
  have account := h.account
  rw [← here, update_eq_self] at account
  refine consistent_of_accounted account fun j hj type => ?_
  by_cases j_i : j = i
  · rw [j_i, here, size]
    exact ⟨h.data, h.indirect⟩
  rw [apart.inodes j hj j_i] at type
  rw [apart.onDisk hj j_i type, apart.inodes j hj j_i]
  exact old.extent j hj type

theorem Mapped.writeInode (layout : sb.Layout) (h : Mapped sb i disk d n n) (size : Word) :
    Mapped sb i (writeInode sb disk i { d with size := size }) { d with size := size } n n ∧
      Apart sb i disk (writeInode sb disk i { d with size := size }) ∧
      freeBlocks sb (writeInode sb disk i { d with size := size }) = freeBlocks sb disk ∧
      ∀ k, ({ d with size := size } : Dinode).byte
        (writeInode sb disk i { d with size := size }) k = d.byte disk k := by
  set d' : Dinode := { d with size := size }
  set disk' := Xv6.writeInode sb disk i d' with written
  have data {b : ℕ} (hb : sb.nmeta ≤ b) : disk' b = disk b := writeInode_data layout h.inum d' hb
  have apart : Apart sb i disk disk' := by
    refine ⟨fun j _ ne => inode_writeInode_ne d' ne, fun j hj ne type q c at_q => data ?_⟩
    exact (h.account.inside (Mapped.otherPlace hj ne type at_q)).1
  have own : d'.onDisk disk' = d.onDisk disk := by
    show d.onDisk disk' = _
    exact onDisk_congr fun ind => data (h.area (Mapped.onDisk_indirect disk ind)).1
  have used (c : ℕ) (_ : c < sb.size) : inUse sb disk' c = inUse sb disk c :=
    inUse_writeInode layout h.inum d' c
  exact ⟨h.of_own apart own h.type used, apart, freeBlocks_congr used,
    byte_congr own fun k c at_k => data (h.area at_k).1⟩

variable (sb) in
/-- The inode `d` of an entry has become `d'`, in memory and on the disk, with the contents `c`. -/
structure Updated (s : State T) (e : Fin NINODE) (d : Dinode) (c : Content) (s' : State T)
    (d' : Dinode) : Prop where
  state : s' = s.write e d' s'.disk
  consistent : Consistent sb s'.disk
  here : inode sb s'.disk (s.icache e).inum = d'
  apart : Apart sb (s.icache e).inum s.disk s'.disk
  content : contentOf s'.disk d' = c
  fields : ∃ size a, d' = { d with size := size, addrs := a }
  count : freeBlocks sb s'.disk + c.blocks = freeBlocks sb s.disk + (contentOf s.disk d).blocks

theorem length_write (hoff : k ≤ d.size.toNat) (src : ℕ → Byte) :
    ((d.contents disk).take k ++ (List.range n).map src ++ (d.contents disk).drop (k + n)).length =
      max d.size.toNat (k + n) := by
  simp only [List.length_append, List.length_take, List.length_map, List.length_range,
    List.length_drop, length_contents]
  omega

theorem max_nblk (a b : ℕ) : max (nblk a) (nblk b) = nblk (max a b) := by
  simp only [nblk, BSIZE]
  omega

theorem wp_setSize (layout : sb.Layout) {s₁ : State T} {d₁ : Dinode} {off n : Word}
    (h : Locked sb t s e d) (file : d.type ≠ T_DEV) (inside : off.toNat ≤ d.size.toNat)
    (nowrap : off.toNat + n.toNat < 2 ^ 32)
    (written : Written sb (s.icache e).inum e s d (nblk d.size.toNat) src off.toNat n.toNat s₁ d₁
      (nblk (max d.size.toNat (off.toNat + n.toNat)))) :
    wp (if 0 < n ∧ d.size < off + n then do
          setDin e fun d => { d with size := off + n }
          iupdate sb e
        else return () : FsM T Unit).alone
      (fun _ s' => ∃ d', Updated sb s e d (.file ((d.contents s.disk).take off.toNat ++
        (List.range n.toNat).map src ++ (d.contents s.disk).drop (off.toNat + n.toNat))) s' d')
      never s₁ := by
  have total : (off + n).toNat = off.toNat + n.toNat := by
    rw [BitVec.toNat_add, Nat.mod_eq_of_lt nowrap]
  have blocks : (Content.file ((d.contents s.disk).take off.toNat ++ (List.range n.toNat).map src ++
      (d.contents s.disk).drop (off.toNat + n.toNat))).blocks =
      blocksOf (max d.size.toNat (off.toNat + n.toNat)) := by
    rw [Content.blocks, length_write inside]
  have count := written.count
  have old : (contentOf s.disk d).blocks = blocksOf d.size.toNat := by
    rw [contentOf, if_neg file, Content.blocks, length_contents]
  rw [wp_alone_ite, BitVec.lt_def, BitVec.lt_def, total]
  constructor
  · rintro ⟨-, longer⟩
    obtain ⟨a, rfl⟩ := written.fields
    rw [max_eq_right longer.le] at written count blocks
    have small : sb.IBLOCK (s.icache e).inum < FSSIZE :=
      (layout.IBLOCK_lt_nmeta h.inum).trans_le (sb.nmeta_le.trans layout.size_le)
    obtain ⟨mapped, apart, free, bytes⟩ := written.mapped.writeInode layout (off + n)
    rw [wp_alone_bind, wp_setDin, written.state, State.write_write, State.disk_write,
      State.din_write, iupdate, wp_alone_atomically, wp_bind, wp_get, wp_bind, State.inum_write,
      State.din_write, wp_bread_of_lt small, log_write, wp_modify]
    refine ⟨{ d with addrs := a, size := off + n }, rfl, ?_, inode_writeInode_same ..,
      written.apart.trans apart, ?_, ⟨_, _, rfl⟩, ?_⟩
    · exact mapped.consistent h.consistent (written.apart.trans apart) (inode_writeInode_same ..)
        (by rw [total])
    · refine (if_neg file).trans (congrArg Content.file (contents_write inside ?_ fun k => ?_))
      · rw [total, max_eq_right longer.le]
      · exact (bytes k).trans (written.bytes k)
    · rw [blocks, old]
      exact (congrArg (· + _) free).trans count
  intro short
  have within : off.toNat + n.toNat ≤ d.size.toNat := by
    by_contra past
    exact short ⟨by show 0 < n.toNat; omega, by omega⟩
  rw [max_eq_left within] at written count blocks
  obtain rfl : d₁ = d := written.same le_rfl
  refine ⟨d₁, written.state, ?_, written.here.trans h.here, written.apart, ?_, ⟨_, _, rfl⟩, ?_⟩
  · exact written.mapped.consistent h.consistent written.apart (written.here.trans h.here) rfl
  · refine (if_neg file).trans (congrArg Content.file (contents_write inside ?_ written.bytes))
    rw [max_eq_left within]
  rw [blocks, old]
  exact count

theorem wp_writei (layout : sb.Layout) (h : Locked sb t s e d) (src : ℕ → Byte) (off n : Word) :
    wp (writei sb t e src off n).alone
      (fun r s' => match (contentOf s.disk d).writei src off n with
        | none => r = none ∧ s' = s
        | some c => r = some n ∧ ∃ d', Updated sb s e d c s' d')
      (fun err _ => err = some "balloc: out of blocks" ∧
        ∃ c, (contentOf s.disk d).writei src off n = some c ∧
          freeBlocks sb s.disk + (contentOf s.disk d).blocks < c.blocks) s := by
  rw [writei, wp_alone_bind, wp_getDin, h.din, wp_alone_ite]
  constructor
  · intro device
    have content : contentOf s.disk d = .device d.major := if_pos device
    rw [content, Content.writei, wp_alone_ite]
    constructor
    · intro console
      rw [if_pos console, wp_alone_bind]
      refine wp_total (wp_consoleio layout h) ?_
      rintro _ s' rfl
      exact ⟨rfl, d, (State.write_self h.din).symm, h.consistent, h.here, .refl .., content,
        ⟨_, _, rfl⟩, by rw [content]⟩
    · intro other
      rw [if_neg other]
      exact ⟨rfl, rfl⟩
  intro file
  have content : contentOf s.disk d = .file (d.contents s.disk) := if_neg file
  rw [content, Content.writei, length_contents, wp_alone_ite, wrap_iff, BitVec.lt_def]
  constructor
  · intro outside
    rw [if_pos (outside.imp_right .inl)]
    exact ⟨rfl, rfl⟩
  intro inside
  obtain ⟨start, nowrap⟩ := not_or.1 inside
  have total : (off + n).toNat = off.toNat + n.toNat := by
    rw [BitVec.toNat_add, Nat.mod_eq_of_lt (Nat.not_le.1 nowrap)]
  rw [wp_alone_ite, total]
  constructor
  · intro long
    rw [if_pos (.inr (.inr long))]
    exact ⟨rfl, rfl⟩
  intro fits
  rw [if_neg (not_or.2 ⟨start, not_or.2 ⟨nowrap, fits⟩⟩)]
  have loop := wp_writeLoop layout n.toNat src off.toNat n.toNat h.din h.mapped le_rfl
    ((Nat.not_lt.1 start).trans (nblk_le.1 le_rfl)) (Nat.not_lt.1 fits)
  rw [max_nblk] at loop
  rw [wp_alone_bind]
  refine wp_mono loop ?_ ?_
  · rintro _ s₁ ⟨d₁, written⟩
    rw [wp_alone_bind]
    exact wp_mono (wp_setSize layout h file (Nat.not_lt.1 start) (Nat.not_le.1 nowrap) written)
      (fun _ s' done => ⟨rfl, done⟩) fun _ _ => False.elim
  rintro err _ ⟨rfl, full⟩
  refine ⟨rfl, _, rfl, ?_⟩
  rw [Content.blocks, Content.blocks, length_contents, length_write (Nat.not_lt.1 start)]
  exact full

/-! ## Any sequence of calls -/

variable (sb t) in
/-- A call by a process that locks the inode for it. -/
def perform : Call (Fin NINODE) → Prog (State T) (Option String) Reply
  | .readi e off n => Code.alone do
      ilock sb t e
      let r ← readi sb t e off n
      iunlock t e
      return .bytes r
  | .writei e src off n => Code.alone do
      ilock sb t e
      let r ← writei sb t e src off n
      iunlock t e
      return .count r

variable (sb) in
/-- The disk is consistent, and the inodes in the cache are those on the disk, each in one entry. -/
structure WellFormed (s : State T) : Prop where
  consistent : Consistent sb s.disk
  unlocked : ∀ e, (s.icache e).lock = none
  inum : ∀ e, 0 < (s.icache e).ref → (s.icache e).inum < sb.ninodes
  type : ∀ e, 0 < (s.icache e).ref → (inode sb s.disk (s.icache e).inum).type ≠ 0
  synced : ∀ e, 0 < (s.icache e).ref → (s.icache e).valid = true →
    (s.icache e).din = inode sb s.disk (s.icache e).inum
  unique : ∀ e e', 0 < (s.icache e).ref → 0 < (s.icache e').ref →
    (s.icache e).inum = (s.icache e').inum → e = e'

/-- The entries hold the same inodes with the same references. -/
def SameRefs (s s' : State T) : Prop :=
  ∀ e, (s'.icache e).inum = (s.icache e).inum ∧ (s'.icache e).ref = (s.icache e).ref

/-- The state with an entry locked and loaded. -/
def State.load (sb : Superblock) (s : State T) (e : Fin NINODE) (t : T) : State T :=
  s.setInode e fun ip =>
    { ip with lock := some t, valid := true, din := inode sb s.disk ip.inum }

namespace WellFormed

theorem wp_ilock (layout : sb.Layout) (h : WellFormed sb s) (ref : 0 < (s.icache e).ref) :
    wp (ilock sb t e).alone (fun _ s' => s' = s.load sb e t) never s :=
  Fs.wp_ilock layout ref (h.unlocked e) (h.inum e ref) (h.type e ref) (h.synced e ref)

theorem locked (h : WellFormed sb s) (ref : 0 < (s.icache e).ref) :
    Locked sb t (s.load sb e t) e (inode sb s.disk (s.icache e).inum) := by
  have entry : (s.load sb e t).icache e = _ := State.icache_setInode_same ..
  constructor <;> (try rw [entry])
  · exact h.consistent
  · exact ref
  · exact h.inum e ref
  · rfl
  · exact h.type e ref

end WellFormed

theorem content_files (hi : i < sb.ninodes) (type : (inode sb disk i).type ≠ 0) :
    (files sb disk).content i = some (contentOf disk (inode sb disk i)) := if_pos ⟨hi, type⟩

theorem Apart.content (h : Apart sb i disk disk') {j : ℕ} (ne : j ≠ i) :
    (files sb disk').content j = (files sb disk).content j := by
  unfold files
  dsimp only
  by_cases hj : j < sb.ninodes
  · by_cases type : (inode sb disk j).type = 0
    · rw [if_neg (by rw [h.inodes j hj ne]; exact fun alloc => alloc.2 type),
        if_neg fun alloc => alloc.2 type]
    have bytes : (inode sb disk' j).byte disk' = (inode sb disk j).byte disk :=
      funext (h.byte hj ne type)
    rw [if_pos ⟨hj, by rwa [h.inodes j hj ne]⟩, if_pos ⟨hj, type⟩, contentOf, contentOf,
      Dinode.contents, Dinode.contents, bytes, h.inodes j hj ne]
  · rw [if_neg fun alloc => hj alloc.1, if_neg fun alloc => hj alloc.1]

namespace Updated

variable {c : Content}

theorem refl (h : Locked sb t s e d) : Updated sb s e d (contentOf s.disk d) s d :=
  ⟨(State.write_self h.din).symm, h.consistent, h.here, .refl .., rfl, ⟨_, _, rfl⟩, rfl⟩

theorem locked (h : Updated sb s e d c s' d') (locked : Locked sb t s e d) :
    Locked sb t s' e d' := by
  have entry : s'.icache e = { s.icache e with din := d' } := by
    rw [h.state, State.write, State.icache_setInode_same]
  constructor <;> (try rw [entry])
  · exact h.consistent
  · exact locked.lock
  · exact locked.valid
  · exact locked.ref
  · exact locked.inum
  · exact h.here
  · obtain ⟨size, a, rfl⟩ := h.fields
    exact locked.type

theorem files (h : Updated sb s e d c s' d') (locked : Locked sb t s e d) :
    files sb s'.disk =
      ⟨update (files sb s.disk).content (s.icache e).inum (some c),
        (files sb s.disk).free + (contentOf s.disk d).blocks - c.blocks⟩ := by
  have count := h.count
  apply Files.ext
  · funext j
    dsimp only
    by_cases here : j = (s.icache e).inum
    · subst here
      have type : (inode sb s'.disk (s.icache e).inum).type ≠ 0 := by
        obtain ⟨size, a, rfl⟩ := h.fields
        rw [h.here]
        exact locked.type
      rw [update_self, content_files locked.inum type, h.here, h.content]
    · rw [update_of_ne here, h.apart.content here]
  · show freeBlocks sb s'.disk = freeBlocks sb s.disk + _ - _
    omega

end Updated

theorem WellFormed.unlock (h : WellFormed sb s) (ref : 0 < (s.icache e).ref)
    (updated : Updated sb (s.load sb e t) e (inode sb s.disk (s.icache e).inum) c s' d') :
    WellFormed sb (s'.setInode e fun ip => { ip with lock := none }) ∧
      SameRefs s (s'.setInode e fun ip => { ip with lock := none }) := by
  have entry : (s.load sb e t).icache e = { s.icache e with
      lock := some t, valid := true, din := inode sb s.disk (s.icache e).inum } :=
    State.icache_setInode_same ..
  have inum : ((s.load sb e t).icache e).inum = (s.icache e).inum := by rw [entry]
  have here := updated.here
  have apart := updated.apart
  rw [inum] at here apart
  have type : d'.type ≠ 0 := by
    obtain ⟨size, a, rfl⟩ := updated.fields
    exact h.type e ref
  set s₁ := s'.setInode e fun ip => { ip with lock := none } with unlocked
  have disk : s₁.disk = s'.disk := rfl
  have same : s₁.icache e = { s.icache e with lock := none, valid := true, din := d' } := by
    rw [unlocked, State.icache_setInode_same, updated.state, State.write, State.icache_setInode_same,
      entry]
  have other {x : Fin NINODE} (ne : x ≠ e) : s₁.icache x = s.icache x := by
    rw [unlocked, State.icache_setInode_ne _ _ _ ne, updated.state, State.write,
      State.icache_setInode_ne _ _ _ ne, State.load, State.icache_setInode_ne _ _ _ ne]
  have refs : SameRefs s s₁ := fun x => by
    by_cases x_e : x = e
    · rw [x_e, same]
      exact ⟨rfl, rfl⟩
    rw [other x_e]
    exact ⟨rfl, rfl⟩
  have keep {x : Fin NINODE} (ne : x ≠ e) (pos : 0 < (s.icache x).ref) :
      inode sb s₁.disk (s.icache x).inum = inode sb s.disk (s.icache x).inum :=
    apart.inodes _ (h.inum x pos) fun num => ne (h.unique x e pos ref num)
  refine ⟨⟨updated.consistent, fun x => ?_, fun x pos => ?_, fun x pos => ?_, fun x pos val => ?_,
    fun x y pos pos' num => ?_⟩, refs⟩
  · by_cases x_e : x = e
    · rw [x_e, same]
    rw [other x_e]
    exact h.unlocked x
  · rw [(refs x).1]
    exact h.inum x ((refs x).2 ▸ pos)
  · by_cases x_e : x = e
    · rw [x_e, same, disk, here]
      exact type
    rw [other x_e] at pos ⊢
    rw [keep x_e pos]
    exact h.type x pos
  · by_cases x_e : x = e
    · rw [x_e, same, disk, here]
    rw [other x_e] at pos val ⊢
    rw [keep x_e pos]
    exact h.synced x pos val
  · rw [(refs x).1, (refs y).1] at num
    exact h.unique x y ((refs x).2 ▸ pos) ((refs y).2 ▸ pos') num

variable (sb t) in
/-- A call does what it does to the abstract files; only a write that succeeds changes the disk. -/
abbrev Refines (s : State T) (c : Call (Fin NINODE)) : Prop :=
  wp (perform sb t c)
    (fun r s' => exec (Files.perform (c.rename fun e => (s.icache e).inum)) (files sb s.disk) =
        (.ok r, files sb s'.disk) ∧
      WellFormed sb s' ∧ SameRefs s s' ∧ ((∀ n, r ≠ .count (some n)) → s'.disk = s.disk))
    (fun err _ => ∃ msg, err = some msg ∧
      (exec (Files.perform (c.rename fun e => (s.icache e).inum)) (files sb s.disk)).1 =
        .error msg) s

namespace WellFormed

variable (layout : sb.Layout) (h : WellFormed sb s)
include layout h

theorem refines_readi (ref : 0 < (s.icache e).ref)
    (off n : Word) : Refines sb t s (.readi e off n) := by
  have content := content_files (h.inum e ref) (h.type e ref)
  have locked := h.locked (t := t) ref
  rw [Refines, perform, wp_alone_bind]
  refine wp_total (h.wp_ilock layout ref) ?_
  rintro _ s' rfl
  rw [wp_alone_bind]
  refine wp_total (wp_readi layout locked off n) ?_
  rintro r s' ⟨rfl, rfl⟩
  rw [wp_alone_bind, wp_iunlock locked.lock locked.ref, wp_alone_pure]
  obtain ⟨done, refs⟩ := h.unlock ref (Updated.refl locked)
  exact ⟨Files.exec_readi content off n, done, refs, fun _ => rfl⟩

theorem refines_writei (ref : 0 < (s.icache e).ref)
    (src : ℕ → Byte) (off n : Word) : Refines sb t s (.writei e src off n) := by
  have result := Files.exec_writei (content_files (h.inum e ref) (h.type e ref)) src off n
  have locked := h.locked (t := t) ref
  have inum : ((s.load sb e t).icache e).inum = (s.icache e).inum := by
    rw [State.load, State.icache_setInode_same]
  have disk : (s.load sb e t).disk = s.disk := rfl
  rw [Refines, perform, wp_alone_bind]
  refine wp_total (h.wp_ilock layout ref) ?_
  rintro _ s' rfl
  rw [wp_alone_bind]
  refine wp_mono (wp_writei layout locked src off n) (fun r s' post => ?_) ?_
  · rw [wp_alone_bind]
    split at post <;> rename_i written <;> rw [disk] at written <;> rw [written] at result
    · obtain ⟨rfl, rfl⟩ := post
      rw [wp_iunlock locked.lock locked.ref, wp_alone_pure]
      obtain ⟨done, refs⟩ := h.unlock ref (Updated.refl locked)
      exact ⟨result, done, refs, fun _ => rfl⟩
    obtain ⟨rfl, d', updated⟩ := post
    have files := updated.files locked
    have count := updated.count
    have locked' := updated.locked locked
    rw [inum] at files
    rw [disk] at count
    rw [wp_iunlock locked'.lock locked'.ref, wp_alone_pure]
    obtain ⟨done, refs⟩ := h.unlock ref updated
    refine ⟨result.trans ?_, done, refs, fun failed => absurd rfl (failed n)⟩
    dsimp only
    rw [if_neg (Nat.not_lt.2 (count ▸ Nat.le_add_left ..))]
    exact Prod.ext rfl files.symm
  · rintro err _ ⟨rfl, c, written, full⟩
    rw [disk] at written full
    rw [written] at result
    refine ⟨_, rfl, (congrArg Prod.fst result).trans ?_⟩
    dsimp only
    rw [if_pos (show (files sb s.disk).free + _ < _ from full)]

theorem refines {c : Call (Fin NINODE)}
    (ref : 0 < (s.icache c.ip).ref) : Refines sb t s c := by
  cases c with
  | readi e off n => exact h.refines_readi layout ref off n
  | writei e src off n => exact h.refines_writei layout ref src off n

end WellFormed

/-- Any sequence of calls, by any processes, returns what it returns on the abstract files, or ends
at the panic of `balloc` when a write needs more blocks than are free. -/
theorem inodes_implement_files (layout : sb.Layout) (calls : List (T × Call (Fin NINODE)))
    {s : State T} (wf : WellFormed sb s) (refs : ∀ c ∈ calls, 0 < (s.icache c.2.ip).ref) :
    (match exec (calls.mapM fun c => Files.perform (c.2.rename fun e => (s.icache e).inum))
        (files sb s.disk) with
      | (.ok rs, F) => ∃ s', exec (calls.mapM fun c => perform sb c.1 c.2) s = (.ok rs, s') ∧
          files sb s'.disk = F ∧ WellFormed sb s'
      | (.error msg, _) => (exec (calls.mapM fun c => perform sb c.1 c.2) s).1 = .error (some msg)) ∧
    ∀ t e src off n s', 0 < (s.icache e).ref →
      exec (perform sb t (.writei e src off n)) s = (.ok (.count none), s') → s'.disk = s.disk := by
  constructor
  · induction calls generalizing s with
    | nil => exact ⟨s, rfl, rfl, wf⟩
    | cons c calls ih =>
      have step := wf.refines (t := c.1) layout (refs c List.mem_cons_self)
      rw [List.mapM_cons, List.mapM_cons, exec_bind, exec_bind]
      rcases done : exec (perform sb c.1 c.2) s with ⟨err | r, s₁⟩
      · obtain ⟨msg, rfl, same⟩ := wp_of_error step done
        rw [exec_eq_of_error same]
      obtain ⟨same, wf₁, refs₁, -⟩ := wp_of_ok step done
      have later := ih wf₁ fun c' mem => by
        rw [(refs₁ c'.2.ip).2]
        exact refs c' (List.mem_cons_of_mem c mem)
      rw [show (fun e => (s₁.icache e).inum) = fun e => (s.icache e).inum from
        funext fun e => (refs₁ e).1] at later
      rw [same]
      dsimp only
      rw [exec_bind, exec_bind]
      split at later <;> rename_i abstract
      · obtain ⟨s', concrete, files', wf'⟩ := later
        rw [abstract, concrete]
        exact ⟨s', rfl, files', wf'⟩
      · rw [abstract, exec_eq_of_error later]
  · intro t e src off n s' ref failed
    have post := wp_of_ok (wf.refines_writei layout ref src off n) failed
    exact post.2.2.2 (by simp)

end

/-! A disk with one empty file, which the cache has a reference to. -/

def oneFileDisk : Disk := writeInode freshSb freshDisk 5 ⟨T_FILE, 0, 0, 0, 0, fun _ => 0⟩

def oneFile : State Unit where
  disk := oneFileDisk
  icache := fun e =>
    { (State.boot freshDisk : State Unit).icache e with
      inum := if e = 0 then 5 else 0
      ref := if e = 0 then 1 else 0 }
  pointers := fun _ => 0

theorem oneFile_wellFormed : WellFormed freshSb oneFile := by
  have only {e : Fin NINODE} (ref : 0 < (oneFile.icache e).ref) : e = 0 := by
    by_contra other
    simp [oneFile, other] at ref
  have file : inode freshSb oneFile.disk 5 = ⟨T_FILE, 0, 0, 0, 0, fun _ => 0⟩ :=
    inode_writeInode_same ..
  have image := (inv_boot freshDisk_consistent freshDisk_dirsOk (T := Unit)).ialloc freshSb_layout
    (i := 5) (by decide) (inode_fresh (by decide)) (by decide : T_FILE ≠ 0)
  refine ⟨image.consistent, fun _ => rfl, fun e ref => ?_, fun e ref => ?_, fun _ _ => nofun,
    fun e e' ref ref' _ => (only ref).trans (only ref').symm⟩
  · rw [only ref]
    decide
  rw [only ref]
  show (inode freshSb oneFile.disk 5).type ≠ 0
  rw [file]
  decide

/-- Write three bytes and read from the second of them on. -/
def writeRead : List (Unit × Call (Fin NINODE)) :=
  [(⟨⟩, .writei 0 (fun k => BitVec.ofNat 8 (7 + k)) 0 3), (⟨⟩, .readi 0 1 5)]

theorem inodes_implement_files_writeRead :
    (exec (writeRead.mapM fun c => perform freshSb c.1 c.2) oneFile).1 =
      .ok [.count (some 3), .bytes (some [8, 9])] := by
  have refs : ∀ c ∈ writeRead, 0 < (oneFile.icache c.2.ip).ref := by decide
  have result := inodes_implement_files freshSb_layout writeRead oneFile_wellFormed refs
  have abstract : (exec (writeRead.mapM fun c => Files.perform
      (c.2.rename fun e => (oneFile.icache e).inum)) (files freshSb oneFile.disk)).1 =
        .ok [.count (some 3), .bytes (some [8, 9])] := by decide +kernel
  rw [exec_eq_of_ok abstract] at result
  obtain ⟨⟨s', done, -⟩, -⟩ := result
  exact congrArg Prod.fst done

end Fs

end Xv6
