import Xv6.Disk.Bio
import Xv6.Fs.Directory

/-!
# Making a file system

`mkfs` zeroes the image, stores the super block, and then appends directory entries and file data,
handing out inode numbers and blocks from two counters.  The free map is written at the end, from
the block counter.

The host is little-endian, so that `xshort` and `xint` change nothing, and its own file operations
on the image succeed, except that a read past the end of the image comes back short.
-/

namespace Xv6.Mkfs

open Lib Fs

abbrev NINODES : ℕ := 200

abbrev nlog : ℕ := LOGSIZE

abbrev nbitmap : ℕ := FSSIZE / (BSIZE * 8) + 1
abbrev ninodeblocks : ℕ := NINODES / IPB + 1

/-- Number of meta blocks (boot, super block, log, inodes, free map). -/
abbrev nmeta : ℕ := 2 + nlog + ninodeblocks + nbitmap

abbrev nblocks : ℕ := FSSIZE - nmeta

def sb : Superblock where
  size := FSSIZE
  nblocks := nblocks
  ninodes := NINODES
  inodestart := 2 + nlog
  bmapstart := 2 + nlog + ninodeblocks

/-- The image with its length in blocks, and the two counters. -/
structure State where
  disk : Disk
  sectors : ℕ
  freeinode : ℕ
  freeblock : ℕ

/-- Before `main`: the image has just been truncated. -/
def State.init : State := ⟨fun _ => Block.zero, 0, 1, 0⟩

abbrev MkfsM := Prog State String

/-! ## Sectors and inodes -/

/-- The block that `lseek` goes to for a sector: the offset is a `uint`. -/
def seek (sec : ℕ) : ℕ := sec * BSIZE % 2 ^ 32 / BSIZE

def wsect (sec : ℕ) (buf : Block) : MkfsM PUnit :=
  modify fun s => { s with
    disk := Function.update s.disk (seek sec) buf
    sectors := max s.sectors (seek sec + 1) }

def rsect (sec : ℕ) : MkfsM Block := do
  let s ← get
  if s.sectors ≤ seek sec then throw "read" else return s.disk (seek sec)

def winode (inum : ℕ) (ip : Dinode) : MkfsM PUnit := do
  let buf ← rsect (sb.IBLOCK inum)
  wsect (sb.IBLOCK inum) (buf.setDinode (inum % IPB) ip)

def rinode (inum : ℕ) : MkfsM Dinode := do
  let buf ← rsect (sb.IBLOCK inum)
  return buf.dinode (inum % IPB)

def ialloc (type : Short) : MkfsM ℕ := do
  let inum := (← get).freeinode
  modify fun s => { s with freeinode := inum + 1 }
  winode inum ⟨type, 0, 0, 1, 0, fun _ => 0⟩
  return inum

/-- The free map with the first `used` blocks marked. -/
def bitmap (used : ℕ) : Block := (List.range used).foldl (fun buf i => buf.setBit i true) Block.zero

def balloc (used : ℕ) : MkfsM PUnit := do
  if BSIZE * 8 ≤ used then throw "used < BSIZE*8" else wsect sb.bmapstart (bitmap used)

/-! ## Appending to a file -/

def nextBlock : MkfsM Word := do
  let b := (← get).freeblock
  modify fun s => { s with freeblock := b + 1 }
  return BitVec.ofNat 32 b

/-- `din` with `addrs[k]`, from the counter if there is none. -/
def fillAddr (din : Dinode) (k : ℕ) : MkfsM Dinode := do
  if din.addr k = 0 then do
    let b ← nextBlock
    return din.setAddr k b
  else return din

/-- The block for block `fbn` of a file, and the inode that knows it. -/
def mapBlock (din : Dinode) (fbn : ℕ) : MkfsM (Dinode × Word) := do
  if fbn < NDIRECT then do
    let din ← fillAddr din fbn
    return (din, din.addr fbn)
  else do
    let din ← fillAddr din NDIRECT
    let indirect ← rsect (din.addr NDIRECT).toNat
    if indirect.word (fbn - NDIRECT) = 0 then do
      let b ← nextBlock
      wsect (din.addr NDIRECT).toNat (indirect.setWord (fbn - NDIRECT) b)
      return (din, b)
    else return (din, indirect.word (fbn - NDIRECT))

/-- The loop of `iappend` with the bytes `p` left, at most `fuel` turns. -/
def appendLoop : ℕ → Dinode → ℕ → List Byte → MkfsM (Dinode × ℕ)
  | 0, din, off, _ => pure (din, off)
  | fuel + 1, din, off, p =>
      if p.length = 0 then pure (din, off)
      else if MAXFILE ≤ off / BSIZE then throw "fbn < MAXFILE"
      else do
        let (din, x) ← mapBlock din (off / BSIZE)
        let n1 := min p.length ((off / BSIZE + 1) * BSIZE - off)
        let buf ← rsect x.toNat
        wsect x.toNat (copyIn buf (off - off / BSIZE * BSIZE) n1 fun j => p.getD j 0)
        appendLoop fuel din (off + n1) (p.drop n1)

def iappend (inum : ℕ) (p : List Byte) : MkfsM PUnit := do
  let din ← rinode inum
  let (din, off) ← appendLoop p.length din din.size.toNat p
  winode inum { din with size := BitVec.ofNat 32 off }

/-! ## The program -/

/-- What one `read` delivers. -/
abbrev Chunk := { p : List Byte // 0 < p.length ∧ p.length ≤ BSIZE }

/-- An input file: its name, and the results of `read` if it can be opened. -/
structure HostFile where
  arg : List Byte
  terminated : (0 : Byte) ∉ arg
  reads : Option (List Chunk)

namespace HostFile

def name (file : HostFile) : List Byte :=
  if file.arg.head? = some 0x5f then file.arg.tail else file.arg

end HostFile

abbrev slash : Byte := 0x2f

def addFile (rootino : ℕ) (file : HostFile) : MkfsM PUnit :=
  if slash ∈ file.arg then throw "index(argv[i], '/') == 0"
  else match file.reads with
    | none => throw "open"
    | some chunks => do
        let inum ← ialloc T_FILE
        iappend rootino (newEntry file.name inum)
        forM chunks fun buf => iappend inum buf.val

def fixRoot (rootino : ℕ) : MkfsM PUnit := do
  let din ← rinode rootino
  let off := din.size.toNat
  winode rootino { din with size := BitVec.ofNat 32 ((off / BSIZE + 1) * BSIZE) }

def sbBlock : Block :=
  ([sb.size, sb.nblocks, sb.ninodes, nlog, 2, sb.inodestart, sb.bmapstart].zipIdx).foldl
    (fun buf (w, i) => buf.setWord i (BitVec.ofNat 32 w)) Block.zero

abbrev dot : List Byte := [0x2e]
abbrev dotdot : List Byte := [0x2e, 0x2e]

def main (files : List HostFile) : MkfsM PUnit := do
  modify fun s => { s with freeblock := nmeta }
  forRange 0 FSSIZE fun i => wsect i Block.zero
  wsect 1 sbBlock
  let rootino ← ialloc T_DIR
  if rootino ≠ ROOTINO then throw "rootino == ROOTINO"
  else do
    iappend rootino (newEntry dot rootino)
    iappend rootino (newEntry dotdot rootino)
    forM files (addFile rootino)
    fixRoot rootino
    balloc (← get).freeblock

end Xv6.Mkfs
