import Xv6.Lib.Threads
import Xv6.Fs.Layout

/-!
# Inode operations

The functions of `fs.c` on blocks, inodes and directories, each as the sequence of its atomic
actions: a critical section of `icache.lock`, the time a buffer is held, and an access to the fields
an inode's sleep-lock protects.  Blocks are seen through the buffer cache; `log_write` is the change
of the cached block.  All inodes are on `ROOTDEV`.

`Op` lists what the system calls do with inodes.  `pointers` counts the pointers to cache entries at
rest; an operation takes the pointer it works with while it runs.
-/

namespace Xv6.Fs

open Lib Function

abbrev NINODE : ℕ := 50

instance : NeZero NINODE := ⟨by decide⟩

abbrev CONSOLE : Short := 1

/-- An entry of the inode cache; `lock` is the holder of its sleep-lock, `din` the copy. -/
structure Inode (T : Type) where
  inum : ℕ
  ref : ℕ
  lock : Option T
  valid : Bool
  din : Dinode

structure State (T : Type) where
  disk : Disk
  icache : Fin NINODE → Inode T
  pointers : Fin NINODE → ℕ

/-- Code of the file system run by a process. -/
abbrev FsM (T : Type) := Code (State T) String

namespace State

variable {T : Type}

def setInode (s : State T) (e : Fin NINODE) (f : Inode T → Inode T) : State T :=
  { s with icache := update s.icache e (f (s.icache e)) }

def setBlock (s : State T) (b : ℕ) (f : Block → Block) : State T :=
  { s with disk := update s.disk b (f (s.disk b)) }

variable (s : State T) (e : Fin NINODE) (f : Inode T → Inode T)

@[simp] theorem disk_setInode : (s.setInode e f).disk = s.disk := rfl
@[simp] theorem pointers_setInode : (s.setInode e f).pointers = s.pointers := rfl
@[simp] theorem icache_setInode_same : (s.setInode e f).icache e = f (s.icache e) :=
  update_self ..

theorem icache_setInode_ne {d : Fin NINODE} (ne : d ≠ e) :
    (s.setInode e f).icache d = s.icache d := update_of_ne ne ..

end State

section Model

variable (sb : Superblock) {T : Type} [DecidableEq T] (t : T)

/-! ## Buffers -/

/-- The contents of a block; `iderw` refuses block numbers past the end of the disk. -/
def bread (b : ℕ) : Prog (State T) String Block := do
  if FSSIZE ≤ b then throw "incorrect blockno" else return (← get).disk b

def log_write (b : ℕ) (f : Block → Block) : Prog (State T) String PUnit :=
  modify fun s => s.setBlock b f

/-! ## Blocks -/

def bzero (b : ℕ) : FsM T Unit := Code.atomically do
  let _ ← bread b
  log_write b fun _ => Block.zero

/-- The search of `balloc` in the `j`-th block of the free map. -/
def ballocBlock (j : ℕ) : Prog (State T) String (Option ℕ) := do
  let b := j * BPB
  let bp ← bread (sb.BBLOCK b)
  match (List.range BPB).find? fun bi => decide (b + bi < sb.size) && !bp.bit bi with
  | some bi => do
      log_write (sb.BBLOCK b) fun bp => bp.setBit bi true
      return some (b + bi)
  | none => return none

def ballocFrom : ℕ → ℕ → FsM T Word
  | 0, _ => .stop "balloc: out of blocks"
  | n + 1, j => do
      match ← Code.atomically (ballocBlock sb j) with
      | some b => do
          bzero b
          return BitVec.ofNat 32 b
      | none => ballocFrom n (j + 1)

def balloc : FsM T Word := ballocFrom sb ((sb.size + BPB - 1) / BPB) 0

def bfree (b : Word) : FsM T Unit := Code.atomically do
  let bp ← bread (sb.BBLOCK b.toNat)
  if bp.bit (b.toNat % BPB) then
    log_write (sb.BBLOCK b.toNat) fun bp => bp.setBit (b.toNat % BPB) false
  else throw "freeing free block"

/-! ## Inodes -/

/-- Find the inode in the cache or give it an unused entry. -/
def iget (inum : ℕ) : Prog (State T) String (Fin NINODE) := do
  let s ← get
  match (List.finRange NINODE).find? fun e =>
      decide (0 < (s.icache e).ref) && decide ((s.icache e).inum = inum) with
  | some e => do
      modify fun s => s.setInode e fun ip => { ip with ref := ip.ref + 1 }
      return e
  | none =>
      match (List.finRange NINODE).find? fun e => decide ((s.icache e).ref = 0) with
      | none => throw "iget: no inodes"
      | some e => do
          modify fun s => s.setInode e fun ip =>
            { ip with inum := inum, ref := 1, valid := false }
          return e

/-- Mark the first free inode from `inum` on as allocated. -/
def iallocFrom (type : Short) : ℕ → ℕ → FsM T (Fin NINODE)
  | 0, _ => .stop "ialloc: no inodes"
  | n + 1, inum => do
      let found ← Code.atomically do
        let bp ← bread (sb.IBLOCK inum)
        if (bp.dinode (inum % IPB)).type = 0 then do
          log_write (sb.IBLOCK inum) fun bp =>
            bp.setDinode (inum % IPB) ⟨type, 0, 0, 0, 0, fun _ => 0⟩
          return true
        else return false
      if found then Code.atomically (iget inum) else iallocFrom type n (inum + 1)

def ialloc (type : Short) : FsM T (Fin NINODE) := iallocFrom sb type (sb.ninodes - 1) 1

def iupdate (e : Fin NINODE) : FsM T Unit := Code.atomically do
  let ip := (← get).icache e
  let _ ← bread (sb.IBLOCK ip.inum)
  log_write (sb.IBLOCK ip.inum) fun bp => bp.setDinode (ip.inum % IPB) ip.din

def idup (e : Fin NINODE) : FsM T Unit :=
  Code.change fun s => s.setInode e fun ip => { ip with ref := ip.ref + 1 }

def acquiresleep (e : Fin NINODE) : FsM T Unit :=
  Code.await (fun s => (s.icache e).lock.isNone) fun s =>
    s.setInode e fun ip => { ip with lock := some t }

def releasesleep (e : Fin NINODE) : FsM T Unit :=
  Code.change fun s => s.setInode e fun ip => { ip with lock := none }

/-- Read the inode from disk into its locked cache entry. -/
def iload (e : Fin NINODE) : FsM T Unit := Code.atomically do
  let ip := (← get).icache e
  let bp ← bread (sb.IBLOCK ip.inum)
  modify fun s => s.setInode e fun ip =>
    { ip with din := bp.dinode (ip.inum % IPB), valid := true }
  if (bp.dinode (ip.inum % IPB)).type = 0 then throw "ilock: no type" else return ()

def ilock (e : Fin NINODE) : FsM T Unit := do
  let ref ← Code.read fun s => (s.icache e).ref
  if ref < 1 then .stop "ilock"
  else do
    acquiresleep t e
    let valid ← Code.read fun s => (s.icache e).valid
    if valid then return () else iload sb e

def iunlock (e : Fin NINODE) : FsM T Unit := Code.atomically do
  let ip := (← get).icache e
  if ip.lock ≠ some t ∨ ip.ref < 1 then throw "iunlock"
  else modify fun s => s.setInode e fun ip => { ip with lock := none }

def setDin (e : Fin NINODE) (f : Dinode → Dinode) : FsM T Unit :=
  Code.change fun s => s.setInode e fun ip => { ip with din := f ip.din }

def getDin (e : Fin NINODE) : FsM T Dinode := Code.read fun s => (s.icache e).din

/-! ## Inode content -/

/-- `addrs[k]`, allocated if there is none. -/
def addrAlloc (e : Fin NINODE) (k : ℕ) : FsM T Word := do
  let ip ← getDin e
  if ip.addr k = 0 then do
    let addr ← balloc sb
    setDin e fun d => d.setAddr k addr
    return addr
  else return ip.addr k

/-- The disk block address of block `bn` of an inode, allocated if there is none. -/
def bmap (e : Fin NINODE) (bn : ℕ) : FsM T Word :=
  if bn < NDIRECT then addrAlloc sb e bn
  else if bn - NDIRECT < NINDIRECT then do
    let addr ← addrAlloc sb e NDIRECT
    let a ← Code.atomically (bread addr.toNat)
    if a.word (bn - NDIRECT) = 0 then do
      let fresh ← balloc sb
      Code.atomically (log_write addr.toNat fun a => a.setWord (bn - NDIRECT) fresh)
      return fresh
    else return a.word (bn - NDIRECT)
  else .stop "bmap: out of range"

/-- Free a block whose address is not zero. -/
def bfreeIf (b : Word) : FsM T Unit := if b = 0 then return () else bfree sb b

def itrunc (e : Fin NINODE) : FsM T Unit := do
  Code.forCount NDIRECT 0 fun i => do
    let ip ← getDin e
    if ip.addr i = 0 then return ()
    else do
      bfree sb (ip.addr i)
      setDin e fun d => d.setAddr i 0
  let ip ← getDin e
  (if ip.addr NDIRECT = 0 then return ()
  else do
    let a ← Code.atomically (bread (ip.addr NDIRECT).toNat)
    Code.forCount NINDIRECT 0 fun j => bfreeIf sb (a.word j)
    bfree sb (ip.addr NDIRECT)
    setDin e fun d => d.setAddr NDIRECT 0)
  setDin e fun d => { d with size := 0 }
  iupdate sb e

/-- Truncate and free an inode that has no links and no other references. -/
def ifree (e : Fin NINODE) : FsM T Unit := do
  let ip ← Code.read fun s => s.icache e
  if ip.valid ∧ ip.din.nlink = 0 then do
    let r ← Code.read fun s => (s.icache e).ref
    if r = 1 then do
      itrunc sb e
      setDin e fun d => { d with type := 0 }
      iupdate sb e
      Code.change fun s => s.setInode e fun ip => { ip with valid := false }
    else return ()
  else return ()

def iput (e : Fin NINODE) : FsM T Unit := do
  acquiresleep t e
  ifree sb e
  releasesleep e
  Code.change fun s => s.setInode e fun ip => { ip with ref := ip.ref - 1 }

/-- The console's functions give up the inode's lock while they wait. -/
def consoleio (e : Fin NINODE) : FsM T Unit := do
  iunlock t e
  ilock sb t e

/-- The `m` bytes of a block from offset `o`. -/
def bytes (bp : Block) (o m : ℕ) : List Byte := (List.range m).map fun j => bp.byte (o + j)

/-- The loop of `readi` with `n` bytes left, at most `fuel` turns. -/
def readLoop (e : Fin NINODE) : ℕ → ℕ → ℕ → FsM T (List Byte)
  | 0, _, _ => pure []
  | fuel + 1, off, n =>
      if n = 0 then pure []
      else do
        let addr ← bmap sb e (off / BSIZE)
        let bp ← Code.atomically (bread addr.toNat)
        let m := min n (BSIZE - off % BSIZE)
        let rest ← readLoop e fuel (off + m) (n - m)
        return bytes bp (off % BSIZE) m ++ rest

/-- Read data from an inode; `none` is the result -1. -/
def readi (e : Fin NINODE) (off n : Word) : FsM T (Option (List Byte)) := do
  let ip ← getDin e
  if ip.type = T_DEV then
    if ip.major = CONSOLE then do
      consoleio sb t e
      return some []
    else return none
  else if ip.size < off ∨ off + n < off then return none
  else do
    let n := if ip.size < off + n then ip.size - off else n
    some <$> readLoop sb e n.toNat off.toNat n.toNat

/-- `memmove(b + o, src, m)`. -/
def copyIn (b : Block) (o m : ℕ) (src : ℕ → Byte) : Block := fun k =>
  if o ≤ k.val ∧ k.val < o + m then src (k.val - o) else b k

/-- The loop of `writei` with `n` bytes left, at most `fuel` turns. -/
def writeLoop (e : Fin NINODE) : ℕ → (ℕ → Byte) → ℕ → ℕ → FsM T Unit
  | 0, _, _, _ => pure ()
  | fuel + 1, src, off, n =>
      if n = 0 then pure ()
      else do
        let addr ← bmap sb e (off / BSIZE)
        let m := min n (BSIZE - off % BSIZE)
        Code.atomically do
          let _ ← bread addr.toNat
          log_write addr.toNat fun bp => copyIn bp (off % BSIZE) m src
        writeLoop e fuel (fun j => src (m + j)) (off + m) (n - m)

/-- Write data to an inode; `none` is the result -1. -/
def writei (e : Fin NINODE) (src : ℕ → Byte) (off n : Word) : FsM T (Option Word) := do
  let ip ← getDin e
  if ip.type = T_DEV then
    if ip.major = CONSOLE then do
      consoleio sb t e
      return some n
    else return none
  else if ip.size < off ∨ off + n < off then return none
  else if MAXFILE * BSIZE < (off + n).toNat then return none
  else do
    writeLoop sb e n.toNat src off.toNat n.toNat
    (if 0 < n ∧ ip.size < off + n then do
      setDin e fun d => { d with size := off + n }
      iupdate sb e
    else return ())
    return some n

/-! ## Directories -/

/-- What `strncmp` and `strncpy` see of a name: up to `DIRSIZ` bytes and no further than a zero. -/
def nameOf (s : List Byte) : List Byte := (s.take DIRSIZ).takeWhile fun c => c ≠ 0

/-- `namecmp(s, t) == 0`. -/
def namecmp (s t : List Byte) : Bool := nameOf s = nameOf t

def deInum (de : List Byte) : ℕ := (de.getD 1 0 ++ de.getD 0 0).toNat

/-- Byte `k` of the directory entry for `name`. -/
def dirent (name : List Byte) (inum : Short) (k : ℕ) : Byte :=
  if k < 2 then inum.extractLsb' (8 * k) 8 else (nameOf name).getD (k - 2) 0

/-- The scan of a directory for an entry that `found` accepts, with its offset, else the end. -/
def scanDir (e : Fin NINODE) (msg : String) (found : List Byte → Bool) :
    ℕ → ℕ → FsM T (ℕ × Option ℕ)
  | 0, off => pure (off, none)
  | fuel + 1, off => do
      let dp ← getDin e
      if off < dp.size.toNat then do
        match ← readi sb t e (BitVec.ofNat 32 off) DESIZE with
        | none => .stop msg
        | some de =>
            if de.length ≠ DESIZE then .stop msg
            else if found de then pure (off, some (deInum de))
            else scanDir e msg found fuel (off + DESIZE)
      else pure (off, none)

/-- Look for a directory entry; its offset and a reference to its inode. -/
def dirlookup (e : Fin NINODE) (name : List Byte) : FsM T (Option (ℕ × Fin NINODE)) := do
  let dp ← getDin e
  if dp.type ≠ T_DIR then .stop "dirlookup not DIR"
  else do
    let (off, inum) ← scanDir sb t e "dirlookup read"
      (fun de => decide (deInum de ≠ 0) && namecmp name (de.drop 2)) (dp.size.toNat / DESIZE + 1) 0
    match inum with
    | none => return none
    | some inum => do
        let ip ← Code.atomically (iget inum)
        return some (off, ip)

def writeEntry (e : Fin NINODE) (msg : String) (name : List Byte) (inum off : ℕ) : FsM T Unit := do
  let n ← writei sb t e (dirent name (BitVec.ofNat 16 inum)) (BitVec.ofNat 32 off) DESIZE
  if n ≠ some (DESIZE : Word) then .stop msg else return ()

/-- Write a new directory entry into a directory; `false` is the result -1. -/
def dirlink (e : Fin NINODE) (name : List Byte) (inum : ℕ) : FsM T Bool := do
  match ← dirlookup sb t e name with
  | some (_, ip) => do
      iput sb t ip
      return false
  | none => do
      let dp ← getDin e
      let (off, _) ← scanDir sb t e "dirlink read" (fun de => decide (deInum de = 0))
        (dp.size.toNat / DESIZE + 1) 0
      writeEntry sb t e "dirlink" name inum off
      return true

/-! ## Operations -/

/-- What the system calls do with inodes. -/
inductive Op where
  /-- `iget(ROOTDEV, ROOTINO)`. -/
  | root
  | idup (e : Fin NINODE)
  | ialloc (type : Short)
  | iput (e : Fin NINODE)
  | readi (e : Fin NINODE) (off n : Word)
  /-- Data is written only to inodes that are not directories: `open` sees to that. -/
  | writei (e : Fin NINODE) (src : ℕ → Byte) (off n : Word)
  /-- A change of the fields that are not about the contents, as by `create`, `link`, `unlink`. -/
  | setFields (e : Fin NINODE) (major minor nlink : Short)
  | dirlookup (e : Fin NINODE) (name : List Byte)
  | dirlink (e : Fin NINODE) (name : List Byte) (inum : ℕ)
  /-- The part of `unlink` under the directory's lock, and the `iput` of the inode found. -/
  | unlink (e : Fin NINODE) (name : List Byte)

def take (e : Fin NINODE) : FsM T Unit :=
  Code.await (fun s => decide (0 < s.pointers e)) fun s =>
    { s with pointers := update s.pointers e (s.pointers e - 1) }

def keep (e : Fin NINODE) : FsM T Unit :=
  Code.change fun s => { s with pointers := update s.pointers e (s.pointers e + 1) }

def locked {α : Type} (e : Fin NINODE) (body : FsM T α) : FsM T α := do
  take e
  ilock sb t e
  let a ← body
  iunlock t e
  keep e
  return a

def Op.code : Op → FsM T Unit
  | .root => do
      let e ← Code.atomically (iget ROOTINO)
      keep e
  | .idup e => do
      take e
      Fs.idup e
      keep e
      keep e
  | .ialloc type =>
      if type = 0 then return ()
      else do
        let e ← Fs.ialloc sb type
        keep e
  | .iput e => do
      take e
      Fs.iput sb t e
  | .readi e off n => discard (locked sb t e (Fs.readi sb t e off n))
  | .writei e src off n => locked sb t e do
      let ip ← getDin e
      if ip.type = T_DIR then return () else discard (Fs.writei sb t e src off n)
  | .setFields e major minor nlink => locked sb t e do
      setDin e fun d => { d with major := major, minor := minor, nlink := nlink }
      iupdate sb e
  | .dirlookup e name => do
      match ← locked sb t e (Fs.dirlookup sb t e name) with
      | some (_, ip) => keep ip
      | none => return ()
  | .dirlink e name inum =>
      if inum < sb.ninodes then discard (locked sb t e (Fs.dirlink sb t e name inum))
      else return ()
  | .unlink e name => do
      let found ← locked sb t e do
        match ← Fs.dirlookup sb t e name with
        | some (off, ip) => do
            writeEntry sb t e "unlink: writei" [] 0 off
            return some ip
        | none => return none
      match found with
      | some ip => Fs.iput sb t ip
      | none => return ()

/-- The file system after boot: an empty inode cache over the disk. -/
def State.boot (disk : Disk) : State T where
  disk := disk
  icache := fun _ =>
    { inum := 0, ref := 0, lock := none, valid := false, din := ⟨0, 0, 0, 0, 0, fun _ => 0⟩ }
  pointers := fun _ => 0

end Model

end Xv6.Fs
