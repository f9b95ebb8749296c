import Mathlib.Data.List.TakeWhile
import Xv6.Fs.Inode

/-!
# Path names

`skipelem` cuts one element off a path and `namex` walks a path, with one inode locked at a time.  A
path is a string without its terminator.
-/

namespace Xv6.Fs

open Lib

abbrev pathSep : Byte := 0x2f

def readsb (disk : Disk) : Superblock where
  size := ((disk 1).word 0).toNat
  nblocks := ((disk 1).word 1).toNat
  ninodes := ((disk 1).word 2).toNat
  inodestart := ((disk 1).word 5).toNat
  bmapstart := ((disk 1).word 6).toNat

/-- The next path element, cut to `DIRSIZ` bytes, and the rest without leading slashes. -/
def skipelem (path : List Byte) : Option (List Byte × List Byte) :=
  let s := path.dropWhile fun c => c = pathSep
  if s = [] then none
  else
    let rest := s.dropWhile fun c => c ≠ pathSep
    some ((s.takeWhile fun c => c ≠ pathSep).take DIRSIZ, rest.dropWhile fun c => c = pathSep)

section Model

variable (sb : Superblock) {T : Type} [DecidableEq T] (t : T)

def iunlockput (e : Fin NINODE) : FsM T Unit := do
  iunlock t e
  iput sb t e

/-- The loop of `namex`, at most `fuel` turns: the inode and the last path element. -/
def namexLoop (nameiparent : Bool) :
    ℕ → Fin NINODE → List Byte → List Byte → FsM T (Option (Fin NINODE × List Byte))
  | 0, _, _, _ => pure none
  | fuel + 1, ip, path, last =>
      match skipelem path with
      | none =>
          if nameiparent then do
            iput sb t ip
            return none
          else return some (ip, last)
      | some (name, rest) => do
          ilock sb t ip
          let d ← getDin ip
          if d.type ≠ T_DIR then do
            iunlockput sb t ip
            return none
          else if nameiparent ∧ rest = [] then do
            iunlock t ip
            return some (ip, name)
          else
            match ← dirlookup sb t ip name with
            | none => do
                iunlockput sb t ip
                return none
            | some (_, next) => do
                iunlockput sb t ip
                namexLoop nameiparent fuel next rest name

/-- Look up the inode for a path, or with `nameiparent` the one for its parent. -/
def namex (cwd : Fin NINODE) (path : List Byte) (nameiparent : Bool) :
    FsM T (Option (Fin NINODE × List Byte)) := do
  let ip ← (if path.head? = some pathSep then Code.atomically (iget ROOTINO)
    else do
      idup cwd
      return cwd)
  namexLoop sb t nameiparent (path.length + 1) ip path []

def namei (cwd : Fin NINODE) (path : List Byte) : FsM T (Option (Fin NINODE)) :=
  Option.map Prod.fst <$> namex sb t cwd path false

def nameiparent (cwd : Fin NINODE) (path : List Byte) :
    FsM T (Option (Fin NINODE × List Byte)) := namex sb t cwd path true

end Model

/-! Every turn of the loop makes the path shorter, so its length is enough fuel. -/

theorem skipelem_length {path name rest : List Byte} (h : skipelem path = some (name, rest)) :
    rest.length < path.length := by
  unfold skipelem at h
  dsimp only at h
  split at h
  · cases h
  rename_i some_left
  cases h
  have first := List.head?_dropWhile_not (fun c : Byte => decide (c = pathSep)) path
  have whole := (List.dropWhile_sublist (l := path) fun c => decide (c = pathSep)).length_le
  obtain ⟨c, tail, shape⟩ := List.exists_cons_of_ne_nil some_left
  rw [shape] at first whole ⊢
  rw [List.dropWhile_cons_of_pos (by simpa using first)]
  refine Nat.lt_of_lt_of_le (Nat.lt_succ_of_le ?_) whole
  exact ((List.dropWhile_sublist _).trans (List.dropWhile_sublist _)).length_le

theorem skipelem_single {name : List Byte} (nonempty : name ≠ []) (plain : pathSep ∉ name)
    (short : name.length ≤ DIRSIZ) : skipelem (pathSep :: name) = some (name, []) := by
  obtain ⟨c, tail, rfl⟩ := List.exists_cons_of_ne_nil nonempty
  have each : ∀ x ∈ c :: tail, x ≠ pathSep := fun x hx same => plain (same ▸ hx)
  have strip : ((pathSep :: c :: tail).dropWhile fun c => c = pathSep) = c :: tail := by
    rw [List.dropWhile_cons_of_pos (by simp), List.dropWhile_cons_of_neg]
    simpa using each c List.mem_cons_self
  have take : ((c :: tail).takeWhile fun c => c ≠ pathSep) = c :: tail :=
    List.takeWhile_eq_self_iff.2 fun x hx => by simpa using each x hx
  have drop : ((c :: tail).dropWhile fun c => c ≠ pathSep) = [] :=
    List.dropWhile_eq_nil_iff.2 fun x hx => by simpa using each x hx
  rw [skipelem]
  dsimp only
  rw [strip, if_neg nonempty, take, drop, List.take_of_length_le short, List.dropWhile_nil]

end Xv6.Fs
