import Xv6.Lib.Run
import Xv6.Lib.Cycle

/-!
# The user-level allocator

`malloc`, `free` and `morecore` of `umalloc.c`.  Addresses are numbers, and memory is described by
the headers it holds.  `sbrk` extends it by a region some way past the end, or finds none, as
`answers` says.
-/

namespace Xv6.Umalloc

open Lib Function

structure Header where
  ptr : ℕ
  size : ℕ
  deriving DecidableEq

abbrev headerSize : ℕ := 8

def advance (p : ℕ) (n : ℕ) : ℕ := p + n * headerSize

/-- A block of memory, beginning with its header; the size is in units of a header. -/
structure Block where
  addr : ℕ
  size : ℕ
  deriving DecidableEq

/-- A block that the program got for `malloc(nbytes)`. -/
structure Live extends Block where
  nbytes : ℕ
  deriving DecidableEq

/-- The allocator's variables and the memory, with a history: `core` came from `sbrk`, `live` is in
use. -/
structure Heap where
  hdr : ℕ → Header
  freep : ℕ
  brk : ℕ
  answers : List (Option ℕ)
  core : List (ℕ × ℕ)
  live : List Live

inductive Stuck where
  | loop

abbrev HM := Prog Heap Stuck

def setHdr (p : ℕ) (x : Header) : HM PUnit :=
  modify fun s => { s with hdr := update s.hdr p x }

/-- The loop of `free` that finds the block after which `bp` belongs. -/
def place (bp : ℕ) : ℕ → ℕ → HM ℕ
  | 0, _ => throw .loop
  | fuel + 1, p => do
      let s ← get
      if bp > p ∧ bp < (s.hdr p).ptr then return p
      else if p ≥ (s.hdr p).ptr ∧ (bp > p ∨ bp < (s.hdr p).ptr) then return p
      else place bp fuel (s.hdr p).ptr

/-- Join `bp` to the block after it, or link it to that. -/
def joinNext (bp p : ℕ) : HM PUnit := do
  let s ← get
  let next := (s.hdr p).ptr
  if advance bp (s.hdr bp).size = next then
    setHdr bp ⟨(s.hdr next).ptr, (s.hdr bp).size + (s.hdr next).size⟩
  else setHdr bp ⟨next, (s.hdr bp).size⟩

/-- Join `bp` to the block `p` before it, or link that to it. -/
def joinPrev (bp p : ℕ) : HM PUnit := do
  let s ← get
  if advance p (s.hdr p).size = bp then
    setHdr p ⟨(s.hdr bp).ptr, (s.hdr p).size + (s.hdr bp).size⟩
  else setHdr p ⟨bp, (s.hdr p).size⟩

def free (fuel : ℕ) (ap : ℕ) : HM PUnit := do
  let bp := ap - headerSize
  let s ← get
  let p ← place bp fuel s.freep
  joinNext bp p
  joinPrev bp p
  modify fun s => { s with freep := p }

/-- `sbrk` with `growproc`; `none` is `-1`. From `2 ^ 31` on, `n` is negative: the process gives up
memory if it has that much, and giving up all of it looks like a failure. -/
def sbrk (n : ℕ) : HM (Option ℕ) := do
  let s ← get
  if n = 0 then return some s.brk
  else if 2 ^ 31 ≤ n then
    let sz := (s.brk + n) % 2 ^ 32
    if s.brk ≤ sz then return some s.brk
    else
      set { s with
        brk := if sz = 0 then s.brk else sz
        core := s.core.map fun (a, len) => (a, min len (sz - a)) }
      return if sz = 0 then none else some s.brk
  else
    match s.answers with
    | [] => return none
    | none :: answers =>
        set { s with answers := answers }
        return none
    | some gap :: answers =>
        if s.brk + gap + n < 2 ^ 31 then
          set { s with
            answers := answers
            brk := s.brk + gap + n
            core := (s.brk + gap, n) :: s.core }
          return some (s.brk + gap)
        else
          set { s with answers := answers }
          return none

/-- Ask for more memory; the product is computed in 32 bits. -/
def morecore (fuel nu : ℕ) : HM (Option ℕ) := do
  let nu := if nu < 4096 then 4096 else nu
  match ← sbrk (nu * headerSize % 2 ^ 32) with
  | none => return none
  | some hp =>
      modify fun s =>
        { s with hdr := update s.hdr hp ⟨(s.hdr hp).ptr, nu⟩ }
      free fuel (advance hp 1)
      let s ← get
      return some s.freep

/-- The units for `nbytes` bytes and a header, computed in 32 bits. -/
def nunits (nbytes : ℕ) : ℕ := ((nbytes + headerSize - 1) % 2 ^ 32) / headerSize + 1

/-- Take `nunits` units from the block `p`, which comes after `prevp`: all of it or its tail. -/
def take (nunits : ℕ) (prevp p : ℕ) : HM ℕ := do
  let s ← get
  if (s.hdr p).size = nunits then
    setHdr prevp ⟨(s.hdr p).ptr, (s.hdr prevp).size⟩
    modify fun s => { s with freep := prevp }
    return advance p 1
  else
    let rest := (s.hdr p).size - nunits
    setHdr p ⟨(s.hdr p).ptr, rest⟩
    modify fun s =>
      { s with
        hdr := update s.hdr (advance p rest) ⟨(s.hdr (advance p rest)).ptr, nunits⟩
        freep := prevp }
    return advance (advance p rest) 1

/-- The loop of `malloc`; `inner` is the fuel of the loop in `free`. -/
def mallocLoop (inner nunits : ℕ) : ℕ → ℕ → ℕ → HM (Option ℕ)
  | 0, _, _ => throw .loop
  | fuel + 1, prevp, p => do
      let s ← get
      if nunits ≤ (s.hdr p).size then
        let ap ← take nunits prevp p
        return some ap
      else if p = s.freep then
        match ← morecore inner nunits with
        | none => return none
        | some p =>
            let s ← get
            mallocLoop inner nunits fuel p (s.hdr p).ptr
      else mallocLoop inner nunits fuel p (s.hdr p).ptr

/-- `malloc`; `base` is the address of the static header with which the free list begins. -/
def malloc (base : ℕ) (fuel nbytes : ℕ) : HM (Option ℕ) := do
  let s ← get
  if s.freep = 0 then
    setHdr base ⟨base, 0⟩
    modify fun s => { s with freep := base }
    mallocLoop fuel (nunits nbytes) fuel base base
  else mallocLoop fuel (nunits nbytes) fuel s.freep (s.hdr s.freep).ptr

/-! ## Programs -/

/-- What a program does with its memory. -/
inductive Event where
  | malloc (nbytes : ℕ)
  | free (ap : ℕ)
  /-- Write a header-sized piece of data. -/
  | write (a : ℕ) (x : Header)
  deriving DecidableEq

/-- `a` is the address of a header-sized piece of a block, past its header. -/
def Block.Inside (b : Block) (a : ℕ) : Prop :=
  advance b.addr 1 ≤ a ∧ a + headerSize ≤ advance b.addr b.size

instance (b : Block) (a : ℕ) : Decidable (b.Inside a) := inferInstanceAs (Decidable (_ ∧ _))

/-- A program frees only what it got and has not freed, and writes only into its blocks. -/
def step (base : ℕ) (fuel : ℕ) : Event → HM PUnit
  | .malloc nbytes => do
      match ← malloc base fuel nbytes with
      | none => pure ⟨⟩
      | some ap =>
          modify fun s =>
            { s with live := ⟨⟨ap - headerSize, nunits nbytes⟩, nbytes⟩ :: s.live }
  | .free ap => do
      let s ← get
      match s.live.find? fun b => advance b.addr 1 = ap with
      | none => pure ⟨⟩
      | some b =>
          free fuel ap
          modify fun s => { s with live := s.live.erase b }
  | .write a x => do
      let s ← get
      if ∃ b ∈ s.live, b.Inside a then setHdr a x else pure ⟨⟩

def Fits (nbytes : ℕ) : Prop := ((nbytes + headerSize - 1) / headerSize + 1) * headerSize < 2 ^ 31

instance (nbytes : ℕ) : Decidable (Fits nbytes) := inferInstanceAs (Decidable (_ < _))

/-- A program that starts: memory up to `brk`, and no header set up. -/
def Heap.init (hdr : ℕ → Header) (brk : ℕ) (answers : List (Option ℕ)) : Heap where
  hdr := hdr
  freep := 0
  brk := brk
  answers := answers
  core := []
  live := []

end Xv6.Umalloc
