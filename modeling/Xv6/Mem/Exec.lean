import Xv6.Mem.Grow

/-!
# exec

`exec` reads the program file into a new address space, builds the stack with the arguments, and
only then commits to the new image.  The file is known by its contents (it is not a device).
-/

namespace Xv6.Mem

open Lib

/-! ## Reading the program -/

/-- The contents of a file, shorter than 2^32 bytes. -/
structure File where
  data : List Byte
  short : data.length < 2 ^ 32

/-- The bytes that `readi` delivers; `none` if it returns -1. -/
def readi (ip : File) (off n : Word) : Option (List Byte) :=
  if ip.data.length < off.toNat ∨ off + n < off then none
  else some ((ip.data.drop off.toNat).take n.toNat)

/-- The word at offset `k` of a structure that has been read. -/
def field (bs : List Byte) (k : ℕ) : Word :=
  ofBytes (bs.getD k 0) (bs.getD (k + 1) 0) (bs.getD (k + 2) 0) (bs.getD (k + 3) 0)

/-- The `ushort` at offset `k`. -/
def halfField (bs : List Byte) (k : ℕ) : ℕ := (bs.getD (k + 1) 0 ++ bs.getD k 0 : BitVec 16).toNat

def ELF_MAGIC : Word := 0x464C457F
def ELF_PROG_LOAD : Word := 1

structure Elfhdr where
  magic : Word
  entry : Word
  phoff : Word
  phnum : ℕ

def sizeofElfhdr : ℕ := 52

def Elfhdr.ofBytes (bs : List Byte) : Elfhdr :=
  ⟨field bs 0, field bs 24, field bs 28, halfField bs 44⟩

structure Proghdr where
  type : Word
  off : Word
  vaddr : Word
  filesz : Word
  memsz : Word

def sizeofProghdr : ℕ := 32

def Proghdr.ofBytes (bs : List Byte) : Proghdr :=
  ⟨field bs 0, field bs 4, field bs 8, field bs 16, field bs 20⟩

/-- The loop of `loaduvm`; `i` is a page of the segment. -/
def loadLoop (pgdir : ℕ) (addr : Word) (ip : File) (offset sz : Word) : List ℕ → VM Bool
  | [] => return true
  | i :: is => do
      match ← walkpgdir pgdir ((addr.toNat / PGSIZE + i) % 2 ^ 20) false with
      | none => throw (.panic "loaduvm: address should exist")
      | some (t, j) =>
          let pte ← load t j
          let n := min (sz.toNat - i * PGSIZE) PGSIZE
          match readi ip (offset + V2P i) (BitVec.ofNat 32 n) with
          | none => return false
          | some bs =>
              memmove (PTE_ADDR pte) 0 bs
              if bs.length = n then loadLoop pgdir addr ip offset sz is else return false

def loaduvm (pgdir : ℕ) (addr : Word) (ip : File) (offset sz : Word) : VM Bool :=
  if addr.toNat % PGSIZE ≠ 0 then throw (.panic "loaduvm: addr must be page aligned")
  else loadLoop pgdir addr ip offset sz (List.range (pagesBelow sz))

/-- The loop of `exec` over `n` program headers; `none` stands for `goto bad`. -/
def loadSegments (pgdir : ℕ) (ip : File) : ℕ → Word → Word → VM (Option Word)
  | 0, _, sz => return some sz
  | n + 1, off, sz => do
      match readi ip off (BitVec.ofNat 32 sizeofProghdr) with
      | none => return none
      | some bs =>
          let ph := Proghdr.ofBytes bs
          if bs.length ≠ sizeofProghdr then return none
          else if ph.type ≠ ELF_PROG_LOAD then
            loadSegments pgdir ip n (off + BitVec.ofNat 32 sizeofProghdr) sz
          else if ph.memsz < ph.filesz then return none
          else if ph.vaddr + ph.memsz < ph.vaddr then return none
          else
            let sz ← allocuvm pgdir sz (ph.vaddr + ph.memsz)
            if sz = 0 then return none
            else if ph.vaddr.toNat % PGSIZE ≠ 0 then return none
            else if ← loaduvm pgdir ph.vaddr ip ph.off ph.filesz then
              loadSegments pgdir ip n (off + BitVec.ofNat 32 sizeofProghdr) sz
            else return none

/-- Two pages, the first of them inaccessible; returns the size of the image. -/
def allocStack (pgdir : ℕ) (sz : Word) : VM (Option Word) := do
  let sz := PGROUNDUP sz
  let sz ← allocuvm pgdir sz (sz + 2 * 4096)
  if sz = 0 then return none
  else
    clearpteu pgdir ((sz - 2 * 4096).toNat / PGSIZE)
    return some sz

/-- The image without arguments; returns its size. -/
def loadImage (pgdir : ℕ) (ip : File) (elf : Elfhdr) : VM (Option Word) := do
  match ← loadSegments pgdir ip elf.phnum elf.phoff 0 with
  | none => return none
  | some sz => allocStack pgdir sz

/-! ## The stack -/

def MAXARG : ℕ := 32

/-- Push the strings from the `argc`-th on; returns the stack pointer and their addresses. -/
def pushArgs (pgdir : ℕ) : ℕ → Word → List Word → List (List Byte) → VM (Option (Word × List Word))
  | _, sp, ustack, [] => return some (sp, ustack)
  | argc, sp, ustack, arg :: argv => do
      if MAXARG ≤ argc then return none
      else
        let sp := (sp - BitVec.ofNat 32 (arg.length + 1)) &&& ~~~3
        if ← copyout pgdir sp (arg ++ [0]) then
          pushArgs pgdir (argc + 1) sp (ustack ++ [sp]) argv
        else return none

/-- Push the strings and the words that point at them; returns the stack pointer. -/
def pushStack (pgdir : ℕ) (sz : Word) (argv : List (List Byte)) : VM (Option Word) := do
  match ← pushArgs pgdir 0 sz [] argv with
  | none => return none
  | some (sp, addrs) =>
      let argc := BitVec.ofNat 32 argv.length
      let ustack : List Word := [0xffffffff, argc, sp - (argc + 1) * 4] ++ addrs ++ [0]
      let sp := sp - (3 + argc + 1) * 4
      if ← copyout pgdir sp (ustack.flatMap leBytes) then return some sp else return none

/-! ## The whole call -/

/-- The new image: its directory, size and stack pointer. -/
def buildImage (pgdir : ℕ) (ip : File) (elf : Elfhdr) (argv : List (List Byte)) :
    VM (Option (Word × Word)) := do
  match ← loadImage pgdir ip elf with
  | none => return none
  | some sz =>
      match ← pushStack pgdir sz argv with
      | none => return none
      | some sp => return some (sz, sp)

/-- The calling process: `pgdir`, `sz`, `tf->eip`, `tf->esp`, `name`, and memory. -/
structure Caller where
  pgdir : ℕ
  sz : Word
  eip : Word
  esp : Word
  name : List Byte
  mem : Phys

/-- The last element of a path, as much of it as `name` can hold. -/
def baseName (path : List Byte) : List Byte :=
  ((path.reverse.takeWhile (· ≠ 0x2F)).reverse).take 15

def onCaller {α : Type} (m : VM α) : Prog Caller Fault α :=
  zoom Caller.mem (fun t s => { t with mem := s }) m

/-- Run the program in `ip`, which is what `namei` finds for `path`. -/
def Caller.exec (path : List Byte) (ip : Option File) (argv : List (List Byte)) :
    Prog Caller Fault ℤ := do
  match ip with
  | none => return -1
  | some ip =>
      match readi ip 0 (BitVec.ofNat 32 sizeofElfhdr) with
      | none => return -1
      | some bs =>
          let elf := Elfhdr.ofBytes bs
          if bs.length ≠ sizeofElfhdr then return -1
          else if elf.magic ≠ ELF_MAGIC then return -1
          else
            match ← onCaller setupkvm with
            | none => return -1
            | some pgdir =>
                match ← onCaller (buildImage pgdir ip elf argv) with
                | none =>
                    onCaller (freevm pgdir)
                    return -1
                | some (sz, sp) =>
                    let oldpgdir := (← get).pgdir
                    modify fun t => { t with
                      name := baseName path
                      pgdir := pgdir
                      sz := sz
                      eip := elf.entry
                      esp := sp }
                    onCaller (switchuvm pgdir)
                    onCaller (freevm oldpgdir)
                    return 0

end Xv6.Mem
