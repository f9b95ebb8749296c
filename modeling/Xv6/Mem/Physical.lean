import Xv6.Proc.Kernel
import Xv6.Lib.Bytes

/-!
# Physical memory by its bytes

The page allocator of `kalloc.c` and the functions of `vm.c` over physical memory with all its
contents: page directories and page tables are pages like any other.  Pages are known by their
numbers.

The kernel reaches a physical page through `P2V`.  The mapping ends at `PHYSTOP` and the kernel's
text is read-only in it, so that an access to any other page is a trap.
-/

namespace Xv6.Mem

open Lib

abbrev PGSIZE : ℕ := 4096

/-- Entries of a page directory, and of a page table. -/
abbrev NPDENTRIES : ℕ := 1024

instance : NeZero NPDENTRIES := ⟨by decide⟩

abbrev KERNBASE : Word := 0x80000000

/-- The page behind the top of physical memory, `PHYSTOP / PGSIZE`. -/
abbrev topPage : ℕ := 0xE000

abbrev Contents := Bytes PGSIZE

/-- Physical memory, `kmem.freelist` and the page directory in use. -/
structure Phys where
  freelist : List ℕ
  page : ℕ → Contents
  /-- The first pages of the kernel's `data` and behind its `end`. -/
  kdata : ℕ
  kend : ℕ
  cr3 : ℕ

abbrev VM := Prog Phys Fault

/-- The kernel's mapping lets it write page `v`. -/
def Phys.writable (s : Phys) (v : ℕ) : Prop := v < topPage ∧ (v < 0x100 ∨ s.kdata ≤ v)
  deriving Decidable

def Phys.setPage (s : Phys) (v : ℕ) (c : Contents) : Phys :=
  { s with page := Function.update s.page v c }

def readPage (v : ℕ) : VM Contents := do
  let s ← get
  if v < topPage then return s.page v else throw (.panic "trap")

def writePage (v : ℕ) (c : Contents) : VM PUnit := do
  let s ← get
  if s.writable v then set (s.setPage v c) else throw (.panic "trap")

/-- Entry `i` of the page directory or page table in page `v`. -/
def load (v : ℕ) (i : Fin NPDENTRIES) : VM Word := do
  return (← readPage v).word (4 * i)

def store (v : ℕ) (i : Fin NPDENTRIES) (e : Word) : VM PUnit := do
  writePage v ((← readPage v).write (4 * i) (leBytes e))

/-- `memmove(P2V(v) + off, bs, n)` inside a page, for the `n` bytes `bs`. -/
def memmove (v : ℕ) (off : ℕ) (bs : List Byte) : VM PUnit := do
  writePage v ((← readPage v).write off bs)

/-! ## The allocator -/

/-- What `memset(v, 1, PGSIZE)` leaves. -/
def junk : Contents := fun _ => 1

/-- `kmem.freelist` as the pointer that it is. -/
def freePtr : List ℕ → Word
  | [] => 0
  | r :: _ => BitVec.ofNat 32 ((0x80000 + r) * PGSIZE)

/-- Free the page of physical memory pointed at by `v`. -/
def kfree (v : ℕ) : VM PUnit := do
  let s ← get
  if v < s.kend ∨ topPage ≤ v then throw (.panic "kfree")
  else
    writePage v junk
    store v 0 (freePtr s.freelist)
    modify fun s => { s with freelist := v :: s.freelist }

/-- Allocate one page of physical memory; `none` if there is none left. -/
def kalloc : VM (Option ℕ) := do
  let s ← get
  match s.freelist with
  | [] => return none
  | r :: next => do
      set { s with freelist := next }
      return some r

/-! ## Entries -/

def PTE_P : Word := 0x001
def PTE_W : Word := 0x002
def PTE_U : Word := 0x004

def PDX (a : ℕ) : Fin NPDENTRIES := Fin.ofNat _ (a / 1024)

def PTX (a : ℕ) : Fin NPDENTRIES := Fin.ofNat _ a

def PGROUNDUP (sz : Word) : Word := (sz + 4095) &&& ~~~4095

/-- The number of pages that begin before the address `sz`. -/
def pagesBelow (sz : Word) : ℕ := (sz.toNat + (PGSIZE - 1)) / PGSIZE

def V2P (v : ℕ) : Word := BitVec.ofNat 32 (v * PGSIZE)

def PTE_ADDR (e : Word) : ℕ := e.toNat / PGSIZE

def PTE_FLAGS (e : Word) : Word := e &&& 0xFFF

def present (e : Word) : Bool := e &&& PTE_P != 0

def forUser (e : Word) : Bool := e &&& PTE_U != 0

/-- The page and index of the entry for the virtual page `a`; with `alloc` a page table may be
created. -/
def walkpgdir (pgdir : ℕ) (a : ℕ) (alloc : Bool) : VM (Option (ℕ × Fin NPDENTRIES)) := do
  let pde ← load pgdir (PDX a)
  if present pde then return some (PTE_ADDR pde, PTX a)
  else if alloc then
    match ← kalloc with
    | none => return none
    | some pgtab =>
        writePage pgtab .zero
        store pgdir (PDX a) (V2P pgtab ||| PTE_P ||| PTE_W ||| PTE_U)
        return some (pgtab, PTX a)
  else return none

/-! ## Mapping pages -/

/-- The loop of `mappages`: map `n` virtual pages from `a` on to physical memory from `pa` on. -/
def mapLoop (pgdir : ℕ) (perm : Word) : ℕ → ℕ → Word → VM Bool
  | 0, _, _ => return true
  | n + 1, a, pa => do
      match ← walkpgdir pgdir a true with
      | none => return false
      | some (t, i) =>
          if present (← load t i) then throw (.panic "remap")
          else
            store t i (pa ||| perm ||| PTE_P)
            mapLoop pgdir perm n ((a + 1) % 2 ^ 20) (pa + 4096)

/-- Create entries for the virtual addresses from `va` on, at the physical ones from `pa` on. -/
def mappages (pgdir : ℕ) (va size pa perm : Word) : VM Bool :=
  let a := va.toNat / PGSIZE
  let last := (va + size - 1).toNat / PGSIZE
  -- the number of turns until `a == last`, the addresses being taken modulo 2^32
  mapLoop pgdir perm ((last + 2 ^ 20 - a) % 2 ^ 20 + 1) a pa

/-! ## Giving pages back -/

/-- The loop of `deallocuvm` from the virtual page `a` on.  A missing page table is skipped. -/
def deallocLoop (pgdir : ℕ) (hi : ℕ) : ℕ → ℕ → VM PUnit
  | 0, _ => pure ⟨⟩
  | fuel + 1, a => do
      if a < hi then
        match ← walkpgdir pgdir a false with
        | none => deallocLoop pgdir hi fuel ((a / 1024 + 1) * 1024)
        | some (t, i) =>
            let pte ← load t i
            if present pte then
              if PTE_ADDR pte = 0 then throw (.panic "kfree")
              else
                kfree (PTE_ADDR pte)
                store t i 0
                deallocLoop pgdir hi fuel (a + 1)
            else deallocLoop pgdir hi fuel (a + 1)
      else pure ⟨⟩

/-- Deallocate user pages from `oldsz` to `newsz`; returns the new size. -/
def deallocuvm (pgdir : ℕ) (oldsz newsz : Word) : VM Word := do
  if oldsz ≤ newsz then return oldsz
  else
    let a := (PGROUNDUP newsz).toNat / PGSIZE
    deallocLoop pgdir (pagesBelow oldsz) (pagesBelow oldsz - a) a
    return newsz

/-- The loop of `freevm` over the page tables of a directory. -/
def freeTables (pgdir : ℕ) : List (Fin NPDENTRIES) → VM PUnit
  | [] => pure ⟨⟩
  | i :: is => do
      let pde ← load pgdir i
      if present pde then kfree (PTE_ADDR pde) else pure ⟨⟩
      freeTables pgdir is

def freevm (pgdir : ℕ) : VM PUnit := do
  let _ ← deallocuvm pgdir KERNBASE 0
  freeTables pgdir (List.finRange NPDENTRIES)
  kfree pgdir

/-! ## Address spaces -/

abbrev EXTMEM : Word := 0x100000
abbrev PHYSTOP : Word := 0xE000000
abbrev DEVSPACE : Word := 0xFE000000
abbrev KERNLINK : Word := KERNBASE + EXTMEM

structure Kmap where
  virt : Word
  phys_start : Word
  phys_end : Word
  perm : Word

/-- The kernel's mappings, which are present in every process's page table. -/
def kmap (kdata : ℕ) : List Kmap :=
  [⟨KERNBASE, 0, EXTMEM, PTE_W⟩,
    ⟨KERNLINK, KERNLINK - KERNBASE, V2P kdata, 0⟩,
    ⟨KERNBASE + V2P kdata, V2P kdata, PHYSTOP, PTE_W⟩,
    ⟨DEVSPACE, DEVSPACE, 0, PTE_W⟩]

/-- The loop of `setupkvm`. -/
def mapKernel (pgdir : ℕ) : List Kmap → VM Bool
  | [] => return true
  | k :: ks => do
      if ← mappages pgdir k.virt (k.phys_end - k.phys_start) k.phys_start k.perm then
        mapKernel pgdir ks
      else return false

def setupkvm : VM (Option ℕ) := do
  match ← kalloc with
  | none => return none
  | some pgdir =>
      writePage pgdir .zero
      if DEVSPACE < KERNBASE + PHYSTOP then throw (.panic "PHYSTOP too high")
      else
        let s ← get
        if ← mapKernel pgdir (kmap s.kdata) then return some pgdir
        else
          freevm pgdir
          return none

/-- The loop of `allocuvm` over virtual pages. -/
def allocLoop (pgdir : ℕ) (oldsz newsz : Word) : List ℕ → VM Word
  | [] => return newsz
  | a :: as => do
      match ← kalloc with
      | none =>
          let _ ← deallocuvm pgdir newsz oldsz
          return 0
      | some mem =>
          writePage mem .zero
          if ← mappages pgdir (V2P a) 4096 (V2P mem) (PTE_W ||| PTE_U) then
            allocLoop pgdir oldsz newsz as
          else
            let _ ← deallocuvm pgdir newsz oldsz
            kfree mem
            return 0

/-- Grow a process from `oldsz` to `newsz`; returns the new size, or 0 on error. -/
def allocuvm (pgdir : ℕ) (oldsz newsz : Word) : VM Word :=
  if KERNBASE ≤ newsz then return 0
  else if newsz < oldsz then return oldsz
  else
    let a := (PGROUNDUP oldsz).toNat / PGSIZE
    allocLoop pgdir oldsz newsz (List.range' a (pagesBelow newsz - a))

/-- The loop of `copyuvm` over virtual pages; `false` stands for `goto bad`. -/
def copyLoop (pgdir d : ℕ) : List ℕ → VM Bool
  | [] => return true
  | a :: as => do
      match ← walkpgdir pgdir a false with
      | none => throw (.panic "copyuvm: pte should exist")
      | some (t, i) =>
          let pte ← load t i
          if present pte then
            match ← kalloc with
            | none => return false
            | some mem =>
                writePage mem (← readPage (PTE_ADDR pte))
                if ← mappages d (V2P a) 4096 (V2P mem) (PTE_FLAGS pte) then copyLoop pgdir d as
                else
                  kfree mem
                  return false
          else throw (.panic "copyuvm: page not present")

def copyuvm (pgdir : ℕ) (sz : Word) : VM (Option ℕ) := do
  match ← setupkvm with
  | none => return none
  | some d =>
      if ← copyLoop pgdir d (List.range (pagesBelow sz)) then return some d
      else
        freevm d
        return none

def clearpteu (pgdir : ℕ) (a : ℕ) : VM PUnit := do
  match ← walkpgdir pgdir a false with
  | none => throw (.panic "clearpteu")
  | some (t, i) =>
      let pte ← load t i
      store t i (pte &&& ~~~PTE_U)

def switchuvm (pgdir : ℕ) : VM PUnit := modify fun s => { s with cr3 := pgdir }

/-! ## Copying into another address space -/

/-- What a null pointer to an entry points at: the word at virtual address 0. -/
def nullEntry : VM Word := do
  let s ← get
  match ← walkpgdir s.cr3 0 false with
  | none => throw (.panic "trap")
  | some (t, i) =>
      let pte ← load t i
      if present pte then load (PTE_ADDR pte) 0 else throw (.panic "trap")

/-- Map a user virtual page to its physical page.  The result of `walkpgdir` is followed unseen. -/
def uva2ka (pgdir : ℕ) (a : ℕ) : VM (Option ℕ) := do
  let pte ← match ← walkpgdir pgdir a false with
    | none => nullEntry
    | some (t, i) => load t i
  if !present pte then return none
  else if !forUser pte then return none
  -- `P2V` of this page is the null pointer
  else if PTE_ADDR pte = 0x80000 then return none
  else return some (PTE_ADDR pte)

/-- The loop of `copyout` at the offset `off` of the virtual page `a`. -/
def copyoutLoop (pgdir : ℕ) : ℕ → ℕ → ℕ → List Byte → VM Bool
  | 0, _, _, _ => return true
  | fuel + 1, a, off, buf => do
      if buf = [] then return true
      else
        match ← uva2ka pgdir a with
        | none => return false
        | some pa0 =>
            memmove pa0 off (buf.take (PGSIZE - off))
            copyoutLoop pgdir fuel ((a + 1) % 2 ^ 20) 0 (buf.drop (PGSIZE - off))

/-- Copy the bytes `p` to user address `va` in page table `pgdir`. -/
def copyout (pgdir : ℕ) (va : Word) (p : List Byte) : VM Bool :=
  copyoutLoop pgdir p.length (va.toNat / PGSIZE) (va.toNat % PGSIZE) p

end Xv6.Mem
