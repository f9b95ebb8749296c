import Xv6.Disk.Bio

/-!
# The redo log

The functions of `log.c` over the buffer cache.  The header block keeps its number of entries in
word 0 and the home block numbers in the words after it; entry `i` belongs to the log block
`start + i + 1`.
-/

namespace Xv6

open Lib Function

/-- The in-memory copy of the header: `block` matters below `n`. -/
structure LogHeader where
  n : ℤ
  block : ℕ → ℕ

variable {lh : LogHeader} {b : ℕ}

/-- `struct log`, less its lock and device. -/
structure Log where
  start : ℕ
  size : ℕ
  outstanding : ℤ
  committing : Bool
  lh : LogHeader

/-- `log` as `initlog` sets it up before `recover_from_log`. -/
def Log.init (start size : ℕ) : Log where
  start := start
  size := size
  outstanding := 0
  committing := false
  lh := ⟨0, fun _ => 0⟩

namespace LogHeader

/-- The slot for block `b`: the first one that names it (log absorption), else the next. -/
def slot (lh : LogHeader) (b : ℕ) : ℕ :=
  ((List.range lh.n.toNat).find? fun i => lh.block i = b).getD lh.n.toNat

/-- The header after `log_write` of block `b`. -/
def absorb (lh : LogHeader) (b : ℕ) : LogHeader where
  n := if lh.slot b = lh.n.toNat then lh.n + 1 else lh.n
  block := update lh.block (lh.slot b) b

/-- The header that `read_head` finds in a block. -/
def ofBlock (old : LogHeader) (b : Block) : LogHeader where
  n := (b.word 0).toInt
  block := fun i => if (i : ℤ) < (b.word 0).toInt then (b.word (i + 1)).toNat else old.block i

/-- The header block that `write_head` writes; words past the last entry keep their contents. -/
def toBlock (lh : LogHeader) (b : Block) : Block :=
  (List.range lh.n.toNat).foldl (fun b i => b.setWord (i + 1) (BitVec.ofNat 32 (lh.block i)))
    (b.setWord 0 (BitVec.ofInt 32 lh.n))

/-- The block numbers of the header, in order. -/
def blocks (lh : LogHeader) : List ℕ := (List.range lh.n.toNat).map lh.block

@[simp] theorem length_blocks (lh : LogHeader) : lh.blocks.length = lh.n.toNat := by
  simp [blocks]

theorem mem_blocks : b ∈ lh.blocks ↔ ∃ i, i < lh.n.toNat ∧ lh.block i = b := by
  simp [blocks]

theorem block_mem {i : ℕ} (hi : i < lh.n.toNat) : lh.block i ∈ lh.blocks :=
  mem_blocks.2 ⟨i, hi, rfl⟩

theorem block_inj (nodup : lh.blocks.Nodup) {i j : ℕ} (hi : i < lh.n.toNat) (hj : j < lh.n.toNat)
    (h : lh.block i = lh.block j) : i = j :=
  List.inj_on_of_nodup_map nodup (List.mem_range.2 hi) (List.mem_range.2 hj) h

theorem slot_of_mem (h : b ∈ lh.blocks) : lh.slot b < lh.n.toNat ∧ lh.block (lh.slot b) = b := by
  unfold slot
  cases found : (List.range lh.n.toNat).find? fun i => decide (lh.block i = b) with
  | none =>
    obtain ⟨i, hi, hb⟩ := mem_blocks.1 h
    have := List.find?_eq_none.1 found i (List.mem_range.2 hi)
    simp [hb] at this
  | some i =>
    have hit := List.find?_some found
    exact ⟨List.mem_range.1 (List.mem_of_find?_eq_some found), of_decide_eq_true hit⟩

theorem slot_of_not_mem (h : b ∉ lh.blocks) : lh.slot b = lh.n.toNat := by
  unfold slot
  rw [List.find?_eq_none.2]
  · rfl
  intro i hi
  simpa using fun hb => h (mem_blocks.2 ⟨i, List.mem_range.1 hi, hb⟩)

theorem absorb_of_mem (h : b ∈ lh.blocks) : lh.absorb b = lh := by
  obtain ⟨lt, eq⟩ := slot_of_mem h
  unfold absorb
  rw [if_neg (by omega)]
  have same : update lh.block (lh.slot b) b = lh.block := by
    nth_rewrite 2 [← eq]
    exact update_eq_self ..
  rw [same]

theorem blocks_absorb (nonneg : 0 ≤ lh.n) (b : ℕ) :
    (lh.absorb b).blocks = if b ∈ lh.blocks then lh.blocks else lh.blocks ++ [b] := by
  split
  case isTrue h => rw [absorb_of_mem h]
  case isFalse h =>
    have n : (lh.absorb b).n.toNat = lh.n.toNat + 1 := by
      simp only [absorb, slot_of_not_mem h, if_true]
      omega
    unfold blocks
    rw [n, List.range_succ, List.map_append, List.map_singleton]
    congr 1
    · refine List.map_congr_left fun i hi => ?_
      simp only [absorb, slot_of_not_mem h]
      exact update_of_ne (Nat.ne_of_lt (List.mem_range.1 hi)) ..
    · simp only [absorb, slot_of_not_mem h, update_self]

theorem nonneg_absorb (nonneg : 0 ≤ lh.n) (b : ℕ) : 0 ≤ (lh.absorb b).n := by
  simp only [absorb]
  split <;> omega

theorem nodup_absorb (nonneg : 0 ≤ lh.n) (nodup : lh.blocks.Nodup) (b : ℕ) :
    (lh.absorb b).blocks.Nodup := by
  rw [blocks_absorb nonneg]
  split
  case isTrue => exact nodup
  case isFalse h => simpa using nodup.concat h

theorem mem_absorb (nonneg : 0 ≤ lh.n) {c : ℕ} :
    c ∈ (lh.absorb b).blocks ↔ c = b ∨ c ∈ lh.blocks := by
  rw [blocks_absorb nonneg]
  split
  case isTrue h =>
    refine ⟨Or.inr, ?_⟩
    rintro (rfl | h')
    exacts [h, h']
  case isFalse => rw [List.mem_append, List.mem_singleton, or_comm]

theorem word_toBlock (small : lh.n ≤ LOGSIZE) (b : Block) :
    (lh.toBlock b).word 0 = BitVec.ofInt 32 lh.n ∧
      ∀ i, i < lh.n.toNat → (lh.toBlock b).word (i + 1) = BitVec.ofNat 32 (lh.block i) := by
  have len : lh.n.toNat ≤ 30 := by
    simp only [LOGSIZE, MAXOPBLOCKS] at small
    omega
  unfold toBlock
  generalize lh.n.toNat = k at len
  induction k with
  | zero =>
    refine ⟨?_, fun i hi => absurd hi (Nat.not_lt_zero i)⟩
    exact Block.word_setWord_same _ _ _ (by decide)
  | succ k ih =>
    obtain ⟨zero, ih⟩ := ih (by omega)
    simp only [List.range_succ, List.foldl_append, List.foldl_cons, List.foldl_nil]
    have inside (i : ℕ) (hi : i ≤ 30) : i < NWORD := by
      simp only [NWORD, BSIZE]
      omega
    refine ⟨?_, fun i hi => ?_⟩
    · rw [Block.word_setWord_ne _ _ (by omega) (inside 0 (by omega))]
      exact zero
    by_cases h : i = k
    · subst h
      exact Block.word_setWord_same _ _ _ (inside _ (by omega))
    rw [Block.word_setWord_ne _ _ (by omega) (inside _ (by omega))]
    exact ih i (by omega)

end LogHeader

abbrev LogM := Prog (Machine Log) Halt

def getLog : LogM Log := do
  let m ← get
  return m.kernel

def modifyLog (f : Log → Log) : LogM PUnit := modify fun m => { m with kernel := f m.kernel }

/-- Store a block into a held buffer and write it out. -/
def copyOut (i : Fin NBUF) (x : Block) : LogM PUnit := do
  setData i x
  bwrite i

/-- Copy committed blocks from log to their home location. -/
def install_trans : LogM PUnit := do
  let log ← getLog
  forRange 0 log.lh.n.toNat fun tail => do
    let lbuf ← bread ROOTDEV (log.start + tail + 1)
    let dbuf ← bread ROOTDEV (log.lh.block tail)
    let m ← get
    copyOut dbuf (m.buf lbuf).data
    brelse lbuf
    brelse dbuf

def read_head : LogM PUnit := do
  let log ← getLog
  let buf ← bread ROOTDEV log.start
  let m ← get
  let lh := log.lh.ofBlock (m.buf buf).data
  -- the copying loop would run past `log.lh.block[LOGSIZE]`
  if LOGSIZE < lh.n then
    throw .overrun
  else
    modifyLog fun log => { log with lh := lh }
    brelse buf

def write_head : LogM PUnit := do
  let log ← getLog
  let buf ← bread ROOTDEV log.start
  let m ← get
  copyOut buf (log.lh.toBlock (m.buf buf).data)
  brelse buf

def clearHead : LogM PUnit := modifyLog fun log => { log with lh := { log.lh with n := 0 } }

def recover_from_log : LogM PUnit := do
  read_head
  install_trans
  clearHead
  write_head

/-- Copy modified blocks from cache to log. -/
def write_log : LogM PUnit := do
  let log ← getLog
  forRange 0 log.lh.n.toNat fun tail => do
    let to_ ← bread ROOTDEV (log.start + tail + 1)
    let from_ ← bread ROOTDEV (log.lh.block tail)
    let m ← get
    copyOut to_ (m.buf from_).data
    brelse from_
    brelse to_

def commit : LogM PUnit := do
  let log ← getLog
  if 0 < log.lh.n then
    write_log
    write_head
    install_trans
    clearHead
    write_head
  else
    pure ⟨⟩

/-- Record the block number of a buffer and pin the buffer in the cache. -/
def log_write (i : Fin NBUF) : LogM PUnit := do
  let m ← get
  let log := m.kernel
  if LOGSIZE ≤ log.lh.n ∨ log.size - 1 ≤ log.lh.n then
    throw (.panic "too big a transaction")
  else if log.outstanding < 1 then
    throw (.panic "log_write outside of trans")
  else
    set { m.setBuf i { m.buf i with dirty := true } with
      kernel := { log with lh := log.lh.absorb (m.buf i).blockno } }

/-- The typical use of `log_write`: read a block, change it, log it, release it. -/
def logged (b : ℕ) (f : Block → Block) : LogM PUnit := do
  let bp ← bread ROOTDEV b
  let m ← get
  setData bp (f (m.buf bp).data)
  log_write bp
  brelse bp

/-- The changes of one group: home blocks with what is done to each, in order. -/
abbrev Group := List (ℕ × (Block → Block))

/-- One group: its operations log their blocks, and the last `end_op` commits. -/
def runGroup (g : Group) : LogM PUnit := do
  modifyLog fun log => { log with outstanding := 1 }
  forM g fun w => logged w.1 w.2
  modifyLog fun log => { log with outstanding := 0, committing := true }
  commit
  modifyLog fun log => { log with committing := false }

end Xv6
