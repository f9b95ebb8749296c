import Xv6.Lib.Run
import Xv6.Lib.Slots
import Xv6.Fs.Files

/-!
# Directories as finite maps

A directory is a file of 16-byte entries.  One with inode number zero is a free slot, so that the
file is a table of slots (`table`), with names of up to `DIRSIZ` bytes as keys.  `dirlookup`,
`dirlink` and the erasure of an entry by `unlink` are compared with the finite map of the table.
-/

set_option linter.unusedSectionVars false

namespace Xv6.Fs

open Lib Function

variable {i inum r : ℕ}

/-! ## Names -/

/-- `strncmp`, on strings that are followed by a zero. -/
def strncmp : ℕ → List Byte → List Byte → ℤ
  | 0, _, _ => 0
  | n + 1, p, q =>
      if p.headD 0 ≠ 0 ∧ p.headD 0 = q.headD 0 then strncmp n p.tail q.tail
      else (p.headD 0).toNat - (q.headD 0).toNat

/-- The `n` bytes that `strncpy` stores. -/
def strncpy : ℕ → List Byte → List Byte
  | 0, _ => []
  | n + 1, t => t.headD 0 :: if t.headD 0 ≠ 0 then strncpy n t.tail else List.replicate n 0

/-- What the two functions see of a string. -/
def seen (n : ℕ) (s : List Byte) : List Byte := (s.take n).takeWhile fun c => c ≠ 0

theorem seen_succ (n : ℕ) (s : List Byte) :
    seen (n + 1) s = if s.headD 0 = 0 then [] else s.headD 0 :: seen n s.tail := by
  cases s with
  | nil => rfl
  | cons c s =>
    show seen (n + 1) (c :: s) = if c = 0 then [] else c :: seen n s
    rw [seen, List.take_succ_cons, List.takeWhile_cons]
    by_cases zero : c = 0
    · rw [if_neg (by simpa using zero), if_pos zero]
    rw [if_pos (by simpa using zero), if_neg zero]
    rfl

theorem strncmp_eq_zero (n : ℕ) (p q : List Byte) : strncmp n p q = 0 ↔ seen n p = seen n q := by
  induction n generalizing p q with
  | zero => simp [strncmp, seen]
  | succ n ih =>
    rw [strncmp, seen_succ, seen_succ]
    by_cases go : p.headD 0 ≠ 0 ∧ p.headD 0 = q.headD 0
    · rw [if_pos go, ih, if_neg go.1, if_neg (go.2 ▸ go.1), go.2, List.cons_inj_right]
    rw [if_neg go, Int.sub_eq_zero, Int.ofNat_inj, BitVec.toNat_inj]
    by_cases zero : p.headD 0 = 0
    · rw [if_pos zero, zero]
      by_cases zero' : q.headD 0 = 0
      · rw [if_pos zero', zero']
        exact ⟨fun _ => rfl, fun _ => rfl⟩
      rw [if_neg zero']
      exact ⟨fun same => absurd same.symm zero', nofun⟩
    have ne : p.headD 0 ≠ q.headD 0 := fun same => go ⟨zero, same⟩
    rw [if_neg zero]
    split
    · exact ⟨fun same => absurd same ne, nofun⟩
    · exact ⟨fun same => absurd same ne, fun same => absurd (List.cons.inj same).1 ne⟩

theorem namecmp_eq (s t : List Byte) : namecmp s t = decide (strncmp DIRSIZ s t = 0) := by
  simp only [strncmp_eq_zero]
  rfl

theorem getD_strncpy (n : ℕ) (t : List Byte) (j : ℕ) :
    (strncpy n t).getD j 0 = (seen n t).getD j 0 := by
  induction n generalizing t j with
  | zero => simp [strncpy, seen]
  | succ n ih =>
    rw [strncpy, seen_succ]
    by_cases zero : t.headD 0 = 0
    · rw [if_neg (not_not.2 zero), if_pos zero, zero]
      cases j with
      | zero => rfl
      | succ j =>
        by_cases hj : j < n <;> simp [List.getD, hj]
    rw [if_pos zero, if_neg zero]
    cases j with
    | zero => rfl
    | succ j => simpa using ih t.tail j

theorem dirent_name (name : List Byte) (inum : Short) {k : ℕ} (hk : 2 ≤ k) :
    dirent name inum k = (strncpy DIRSIZ name).getD (k - 2) 0 := by
  rw [getD_strncpy, dirent, if_neg (Nat.not_lt.2 hk)]
  rfl

/-! ## Entries -/

def entry (f : List Byte) (r : ℕ) : List Byte := (f.drop (DESIZE * r)).take DESIZE

/-- The binding of an entry, if it is not free. -/
def decode (de : List Byte) : Option (List Byte × ℕ) :=
  if deInum de = 0 then none else some (nameOf (de.drop 2), deInum de)

def entries (f : List Byte) : List (List Byte) :=
  (List.range (f.length / DESIZE)).map (entry f)

def table (f : List Byte) : List (Option (List Byte × ℕ)) := (entries f).map decode

def newEntry (name : List Byte) (inum : ℕ) : List Byte :=
  (List.range DESIZE).map (dirent name (BitVec.ofNat 16 inum))

section

variable {f : List Byte} {name : List Byte} {inum r : ℕ}

theorem seen_padded (n : ℕ) (s : List Byte) :
    seen n ((List.range n).map fun j => (seen n s).getD j 0) = seen n s := by
  induction n generalizing s with
  | zero => rfl
  | succ n ih =>
    rw [List.range_succ_eq_map, List.map_cons, List.map_map, seen_succ, seen_succ n s]
    by_cases zero : s.headD 0 = 0
    · rw [if_pos zero]
      exact if_pos rfl
    rw [if_neg zero]
    refine (if_neg zero).trans (congrArg _ ?_)
    exact ih s.tail

theorem deInum_newEntry (small : inum < 2 ^ 16) : deInum (newEntry name inum) = inum := by
  have bytes : dirent name (BitVec.ofNat 16 inum) 1 ++ dirent name (BitVec.ofNat 16 inum) 0 =
      BitVec.ofNat 16 inum := append_bytes_short _
  show (dirent name (BitVec.ofNat 16 inum) 1 ++ dirent name (BitVec.ofNat 16 inum) 0).toNat = inum
  rw [bytes, BitVec.toNat_ofNat, Nat.mod_eq_of_lt small]

theorem nameOf_newEntry : nameOf ((newEntry name inum).drop 2) = nameOf name := by
  have padded : (newEntry name inum).drop 2 =
      (List.range DIRSIZ).map fun j => (seen DIRSIZ name).getD j 0 := by
    rw [newEntry, ← List.map_drop]
    rfl
  rw [padded]
  exact seen_padded DIRSIZ name

section Write

variable {de : List Byte} (start : DESIZE * r ≤ f.length) (len : de.length = DESIZE)
include start len

end Write

variable {sb : Superblock} {T : Type} [DecidableEq T] {t : T} {s s' : State T}
  {e ip : Fin NINODE} {d : Dinode}

/-- The entry `ip` is what `iget` finds for inode `i`: it has it, or is free while none has it. -/
def Gets (s : State T) (i : ℕ) (ip : Fin NINODE) : Prop :=
  0 < (s.icache ip).ref ∧ (s.icache ip).inum = i ∨
    (s.icache ip).ref = 0 ∧ ∀ x, 0 < (s.icache x).ref → (s.icache x).inum ≠ i

/-- A reference to inode `inum` has been taken in the entry `ip`, which may have been free. -/
structure Got (s : State T) (inum : ℕ) (ip : Fin NINODE) (s' : State T) : Prop where
  gets : Gets s inum ip
  disk : s'.disk = s.disk
  num : (s'.icache ip).inum = inum
  other : ∀ x, x ≠ ip → s'.icache x = s.icache x
  here : (0 < (s.icache ip).ref ∧
      s'.icache ip = { s.icache ip with ref := (s.icache ip).ref + 1 }) ∨
    ((s.icache ip).ref = 0 ∧
      s'.icache ip = { s.icache ip with inum := inum, ref := 1, valid := false })

/-- The cache has neither the inode nor a free entry for it. -/
def CacheFull (s : State T) (inum : ℕ) : Prop :=
  ∀ x, 0 < (s.icache x).ref ∧ (s.icache x).inum ≠ inum

theorem wp_iget (inum : ℕ) :
    wp (iget inum) (fun ip s' => Got s inum ip s')
      (fun msg _ => msg = "iget: no inodes" ∧ CacheFull s inum) s := by
  unfold iget
  rw [wp_bind, wp_get]
  split
  next ip found =>
    have good := List.find?_some found
    simp only [Bool.and_eq_true, decide_eq_true_eq] at good
    rw [wp_bind, wp_modify, wp_pure]
    refine ⟨.inl good, rfl, ?_, fun x ne => State.icache_setInode_ne _ _ _ ne, .inl ⟨good.1, ?_⟩⟩
    · rw [State.icache_setInode_same]
      exact good.2
    · rw [State.icache_setInode_same]
  rename_i missing
  have absent (x : Fin NINODE) (pos : 0 < (s.icache x).ref) : (s.icache x).inum ≠ inum := by
    have := List.find?_eq_none.1 missing x (List.mem_finRange x)
    simpa [pos] using this
  split
  next full =>
    refine ⟨rfl, fun x => ?_⟩
    have used := List.find?_eq_none.1 full x (List.mem_finRange x)
    have pos : 0 < (s.icache x).ref := Nat.pos_of_ne_zero (by simpa using used)
    exact ⟨pos, absent x pos⟩
  rename_i ip found
  have unused : (s.icache ip).ref = 0 := by simpa using List.find?_some found
  rw [wp_bind, wp_modify, wp_pure]
  refine ⟨.inr ⟨unused, absent⟩, rfl, ?_, fun x ne => State.icache_setInode_ne _ _ _ ne,
    .inr ⟨unused, ?_⟩⟩
  · rw [State.icache_setInode_same]
  · rw [State.icache_setInode_same]

variable (sb t) in
/-- Process `t` has locked the directory with the bytes `f`. -/
structure LockedDir (s : State T) (e : Fin NINODE) (f : List Byte) (d : Dinode) : Prop where
  locked : Locked sb t s e d
  dir : d.type = T_DIR
  contents : d.contents s.disk = f
  aligned : f.length % DESIZE = 0

namespace LockedDir

section

variable (h : LockedDir sb t s e f d)
include h

theorem content : contentOf s.disk d = .file f := by
  rw [contentOf, if_neg (by rw [h.dir]; decide), h.contents]

theorem length : f.length = d.size.toNat := by
  rw [← h.contents, length_contents]

theorem length_le : f.length ≤ MAXFILE * BSIZE := by
  rw [h.length]
  exact nblk_le.1 h.locked.mapped.le_maxfile

end

variable (h : LockedDir sb t s e f d)
include h

theorem of_same (disk : s'.disk = s.disk)
    (entry : s'.icache e = s.icache e) : LockedDir sb t s' e f d := by
  refine ⟨?_, h.dir, by rw [disk]; exact h.contents, h.aligned⟩
  have locked := h.locked
  constructor <;> (try rw [disk]) <;> (try rw [entry])
  exacts [locked.consistent, locked.lock, locked.valid, locked.ref, locked.inum, locked.din,
    locked.here, locked.type]

end LockedDir

theorem Got.lock (got : Got s inum ip s') : (s'.icache ip).lock = (s.icache ip).lock := by
  obtain ⟨-, here⟩ | ⟨-, here⟩ := got.here <;> rw [here]

namespace LockedDir

end LockedDir

/-! ## Operations under the lock of a directory -/

/-- What is done to a directory; `erase` is what `unlink` does to the entry of a name. -/
inductive DirOp where
  | lookup (name : List Byte)
  | link (name : List Byte) (inum : ℕ)
  | erase (name : List Byte)

variable {op : DirOp}

inductive DirReply where
  | found (entry : Option (ℕ × Fin NINODE))
  | linked (ok : Bool)
  | erased (ok : Bool)

variable (sb) in
def DirOp.code (t : T) (e : Fin NINODE) : DirOp → FsM T DirReply
  | .lookup name => do
      let out ← dirlookup sb t e name
      return .found out
  | .link name inum => do
      let ok ← dirlink sb t e name inum
      return .linked ok
  | .erase name => do
      match ← dirlookup sb t e name with
      | some (off, ip) => do
          writeEntry sb t e "unlink: writei" [] 0 off
          -- the last step of `iunlockput(ip)`
          Code.change fun s => s.setInode ip fun x => { x with ref := x.ref - 1 }
          return .erased true
      | none => return .erased false

variable (sb) in
/-- An operation of process `t` on the directory in entry `e`. -/
def DirOp.perform (t : T) (e : Fin NINODE) (op : DirOp) :
    Prog (State T) (Option String) DirReply := Code.alone do
  ilock sb t e
  let reply ← op.code sb t e
  iunlock t e
  return reply

variable (sb) in
/-- The same with the reply left out. -/
def DirOp.step (e : Fin NINODE) (op : T × DirOp) : Prog (State T) (Option String) PUnit := do
  let _ ← op.2.perform sb op.1 e
  return ⟨⟩

variable (sb) in
def DirOp.Valid : DirOp → Prop
  | .link _ inum => 0 < inum ∧ inum < sb.ninodes
  | _ => True

instance DirOp.decidableValid : ∀ op : DirOp, Decidable (op.Valid sb)
  | .link .. => inferInstanceAs (Decidable (_ ∧ _))
  | .lookup _ | .erase _ => inferInstanceAs (Decidable True)

/-- What an operation does to a finite map. -/
def DirOp.apply (M : List Byte → Option ℕ) : DirOp → List Byte → Option ℕ
  | .lookup _ => M
  | .link name inum =>
      if M (nameOf name) = none then update M (nameOf name) (some inum) else M
  | .erase name => update M (nameOf name) none

/-- What an operation returns and the directory it leaves. -/
def DirOp.Effect (f : List Byte) (inum : Fin NINODE → ℕ) (f' : List Byte) :
    DirOp → DirReply → Prop
  | .lookup name, .found none => f' = f ∧ Slots.map (table f) (nameOf name) = none
  | .lookup name, .found (some (off, ip)) => f' = f ∧
      ∃ i, off = DESIZE * i ∧ (table f)[i]? = some (some (nameOf name, inum ip))
  | .link name num, .linked true => Slots.map (table f) (nameOf name) = none ∧
      table f' = Slots.put (table f) (Slots.free (table f)) (some (nameOf name, num))
  | .link name _, .linked false => f' = f ∧ Slots.map (table f) (nameOf name) ≠ none
  | .erase name, .erased true => ∃ i num, (table f)[i]? = some (some (nameOf name, num)) ∧
      table f' = Slots.put (table f) i none
  | .erase name, .erased false => f' = f ∧ Slots.map (table f) (nameOf name) = none
  | _, _ => False

variable (sb) in
/-- The name is bound to the directory itself, as `.` is; `unlink` refuses that name. -/
def DirOp.OnSelf (s : State T) (e : Fin NINODE) : DirOp → Prop
  | .lookup _ => False
  | .link name _ | .erase name =>
      Slots.map (table ((inode sb s.disk (s.icache e).inum).contents s.disk)) (nameOf name) =
        some (s.icache e).inum

instance DirOp.decidableOnSelf (s : State T) (e : Fin NINODE) :
    ∀ op : DirOp, Decidable (op.OnSelf sb s e)
  | .lookup _ => inferInstanceAs (Decidable False)
  | .link .. | .erase .. => inferInstanceAs (Decidable (_ = _))

variable (sb) in
/-- Why an operation may not return: the inode cache, the disk or the directory is full, or the
inode of the name is locked while `dirlink` drops its reference. -/
def DirOp.Fails (s : State T) (e : Fin NINODE) (f : List Byte) (err : Option String) :
    DirOp → Prop
  | .link name _ =>
      match Slots.map (table f) (nameOf name) with
      | none => err = some "dirlink" ∧ f.length = MAXFILE * BSIZE ∧
            Slots.free (table f) = (table f).length ∨
          err = some "balloc: out of blocks" ∧
            freeBlocks sb s.disk + blocksOf f.length < blocksOf (f.length + DESIZE)
      | some i => err = some "iget: no inodes" ∧ CacheFull s i ∨
          err = none ∧ ∃ ip, ip ≠ e ∧ (s.icache ip).lock ≠ none ∧ Gets s i ip
  | .lookup name | .erase name => err = some "iget: no inodes" ∧
      ∃ i, Slots.map (table f) (nameOf name) = some i ∧ CacheFull s i

variable (sb) in
/-- The entry `e` holds a directory with the bytes `f`: whole entries with no name twice. -/
structure IsDir (s : State T) (e : Fin NINODE) (f : List Byte) : Prop where
  consistent : Consistent sb s.disk
  unlocked : (s.icache e).lock = none
  ref : 0 < (s.icache e).ref
  inum : (s.icache e).inum < sb.ninodes
  dir : (inode sb s.disk (s.icache e).inum).type = T_DIR
  synced : (s.icache e).valid = true → (s.icache e).din = inode sb s.disk (s.icache e).inum
  contents : (inode sb s.disk (s.icache e).inum).contents s.disk = f
  aligned : f.length % DESIZE = 0
  distinct : Slots.Distinct (table f)

theorem LockedDir.unlock {f : List Byte} (h : LockedDir sb t s e f d)
    (distinct : Slots.Distinct (table f)) :
    IsDir sb (s.setInode e fun ip => { ip with lock := none }) e f := by
  have entry : (s.setInode e fun ip => { ip with lock := none }).icache e =
      { s.icache e with lock := none } := State.icache_setInode_same ..
  have locked := h.locked
  constructor <;> (try rw [entry]) <;> (try rw [State.disk_setInode]) <;>
    (try dsimp only) <;> (try rw [locked.here])
  · exact locked.consistent
  · exact locked.ref
  · exact locked.inum
  · exact h.dir
  · exact fun _ => locked.din
  · exact h.contents
  · exact h.aligned
  · exact distinct

theorem IsDir.locked {f : List Byte} (h : IsDir sb s e f) :
    LockedDir sb t (s.load sb e t) e f (inode sb s.disk (s.icache e).inum) := by
  have entry : (s.load sb e t).icache e = _ := State.icache_setInode_same ..
  refine ⟨?_, h.dir, h.contents, h.aligned⟩
  constructor <;> (try rw [entry])
  · exact h.consistent
  · exact h.ref
  · exact h.inum
  · rfl
  · rw [h.dir]
    decide

namespace IsDir

variable {f : List Byte}

section

variable (layout : sb.Layout) (h : IsDir sb s e f)
include layout h

end

end IsDir

end

/-! A disk with one empty directory, which the cache has a reference to. -/

section

-- so that Lean does not run it
attribute [local irreducible] wp

end

end Xv6.Fs
