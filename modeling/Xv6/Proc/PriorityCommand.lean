import Xv6.Mem.Physical
import Xv6.Proc.Priority

/-!
# The command setPriority

The two numbers of the command travel through `atoi`, the arguments on the user stack and
`sys_setPriority` to `setPriority`.  The program passes the priority first, and `sys_setPriority`
takes the first argument for the pid.
-/

namespace Xv6

open Lib
open Mem (KERNBASE)

/-! ## Reading arguments -/

/-- The calling process: its size, the saved user stack pointer, and its bytes. -/
structure User where
  sz : Word
  esp : Word
  mem : Word → BitVec 8

/-- Programs that read user memory and may return -1; the state has the addresses read so far. -/
abbrev UM := Prog (List Word) PUnit

def readByte (u : User) (a : Word) : UM (BitVec 8) := do
  modify (a :: ·)
  return u.mem a

def readInt (u : User) (addr : Word) : UM Word := do
  let b₀ ← readByte u addr
  let b₁ ← readByte u (addr + 1)
  let b₂ ← readByte u (addr + 2)
  let b₃ ← readByte u (addr + 3)
  return b₃ ++ b₂ ++ b₁ ++ b₀

def fetchint (u : User) (addr : Word) : UM Word :=
  if u.sz ≤ addr ∨ u.sz < addr + 4 then throw ⟨⟩ else readInt u addr

def argint (u : User) (n : Word) : UM Word := fetchint u (u.esp + 4 + 4 * n)

/-- The `n` bytes from address `a` on lie in the memory of the process. -/
def Covers (u : User) (a : Word) (n : ℕ) : Prop := a.toNat + n ≤ u.sz.toNat

/-! ## From the command line to the kernel -/

def atoiLoop (n : Word) : List Char → Word
  | [] => n
  | c :: s =>
      if '0' ≤ c ∧ c ≤ '9' then atoiLoop (n * 10 + BitVec.ofNat 32 (c.toNat - '0'.toNat)) s else n

def atoi (s : List Char) : Word := atoiLoop 0 s

def storeInt (mem : Word → BitVec 8) (addr w : Word) : Word → BitVec 8 := fun a =>
  if a = addr then w.extractLsb' 0 8
  else if a = addr + 1 then w.extractLsb' 8 8
  else if a = addr + 2 then w.extractLsb' 16 8
  else if a = addr + 3 then w.extractLsb' 24 8
  else mem a

/-- The stub `f(a, b)`: the arguments are pushed from right to left, then a return address. -/
def pushCall (u : User) (ret a b : Word) : User where
  sz := u.sz
  esp := u.esp - 12
  mem := storeInt (storeInt (storeInt u.mem (u.esp - 4) b) (u.esp - 8) a) (u.esp - 12) ret

/-- The argument `n` of a system call, if `argint` returns one. -/
def arg (u : User) (n : Word) : Option Word := (exec (argint u n) []).1.toOption

def sys_setPriority (u : User) : KM ℤ :=
  match arg u 0, arg u 1 with
  | some pid, some priority => setPriority priority.toInt pid.toInt
  | _, _ => return -1

/-- The program, run by a process with the given memory; returns what it prints. -/
def setPriorityMain (u : User) (ret : Word) : List (List Char) → KM String
  | _ :: argv1 :: argv2 :: _ => do
      let r ← sys_setPriority (pushCall u ret (atoi argv2) (atoi argv1))
      return if r < 0 then "Error: No such process\n" else ""
  | _ => return "Usage: setPriority <pid> <priority>\n"

def typed (z : ℤ) : List Char := (toString z).toList

/-! ## Numbers -/

theorem isDigit_digitChar : ∀ d < 10, '0' ≤ Nat.digitChar d ∧ Nat.digitChar d ≤ '9' := by decide

theorem atoiLoop_append {l : List Char} (digits : ∀ c ∈ l, '0' ≤ c ∧ c ≤ '9') {d : ℕ} (hd : d < 10)
    (n : Word) : atoiLoop n (l ++ [d.digitChar]) = atoiLoop n l * 10 + BitVec.ofNat 32 d := by
  induction l generalizing n with
  | nil =>
    have value : d.digitChar.toNat - 48 = d := by
      rw [Nat.toNat_digitChar_of_lt_ten hd]
      omega
    simp [atoiLoop, isDigit_digitChar d hd, value]
  | cons c l ih =>
    have digit := digits c List.mem_cons_self
    rw [List.cons_append, atoiLoop, atoiLoop, if_pos digit, if_pos digit]
    exact ih (fun c' mem => digits c' (List.mem_cons_of_mem c mem)) _

theorem atoi_toDigits (n : ℕ) :
    (∀ c ∈ Nat.toDigits 10 n, '0' ≤ c ∧ c ≤ '9') ∧ atoi (Nat.toDigits 10 n) = BitVec.ofNat 32 n := by
  induction n using Nat.strongRecOn with
  | ind n ih =>
    by_cases small : n < 10
    · rw [Nat.toDigits_of_lt_base small]
      refine ⟨by simpa using isDigit_digitChar n small, ?_⟩
      have one := atoiLoop_append (l := []) (by simp) small 0
      simpa [atoi, atoiLoop] using one
    have digit : n % 10 < 10 := Nat.mod_lt n (by decide)
    obtain ⟨digits, value⟩ := ih (n / 10) (by omega)
    rw [Nat.toDigits_of_base_le (by decide) (by omega)]
    refine ⟨fun c mem => ?_, ?_⟩
    · rcases List.mem_append.1 mem with first | last
      · exact digits c first
      rw [List.mem_singleton.1 last]
      exact isDigit_digitChar _ digit
    rw [atoi, atoiLoop_append digits digit, ← atoi, value]
    apply BitVec.eq_of_toNat_eq
    simp
    omega

theorem atoi_typed {z : ℤ} (low : 0 ≤ z) (high : z < 2 ^ 31) : (atoi (typed z)).toInt = z := by
  obtain ⟨n, rfl⟩ := Int.eq_ofNat_of_zero_le low
  have text : typed (n : ℤ) = Nat.toDigits 10 n := by
    show (Int.repr (Int.ofNat n)).toList = _
    simp [Int.repr, Nat.repr]
  rw [text, (atoi_toDigits n).2, BitVec.toInt_eq_toNat_cond, BitVec.toNat_ofNat]
  omega

/-! ## Arguments on the stack -/

def intAt (mem : Word → BitVec 8) (addr : Word) : Word :=
  mem (addr + 3) ++ mem (addr + 2) ++ mem (addr + 1) ++ mem addr

theorem intAt_storeInt (mem : Word → BitVec 8) (addr w : Word) :
    intAt (storeInt mem addr w) addr = w := by
  have ne (k : Word) (hk : k ≠ 0) : addr + k ≠ addr := by bv_omega
  have bytes : intAt (storeInt mem addr w) addr =
      w.extractLsb' 24 8 ++ w.extractLsb' 16 8 ++ w.extractLsb' 8 8 ++ w.extractLsb' 0 8 := by
    simp [intAt, storeInt]
  rw [bytes, BitVec.extractLsb'_append_extractLsb'_eq_extractLsb' (by rfl),
    BitVec.extractLsb'_append_extractLsb'_eq_extractLsb' (by rfl),
    BitVec.extractLsb'_append_extractLsb'_eq_extractLsb' (by rfl)]
  simp

theorem intAt_storeInt_ne (mem : Word → BitVec 8) {addr addr' : Word} (w : Word)
    (after : 4 ≤ (addr' - addr).toNat) (before : 4 ≤ (addr - addr').toNat) :
    intAt (storeInt mem addr' w) addr = intAt mem addr := by
  have same (k : Word) (hk : k.toNat < 4) : storeInt mem addr' w (addr + k) = mem (addr + k) := by
    have ne (k' : Word) (hk' : k'.toNat < 4) : addr + k ≠ addr' + k' := by bv_omega
    simp only [storeInt]
    rw [if_neg (by simpa using ne 0 (by decide)), if_neg (ne 1 (by decide)), if_neg (ne 2 (by decide)),
      if_neg (ne 3 (by decide))]
  have first : storeInt mem addr' w addr = mem addr := by simpa using same 0 (by decide)
  rw [intAt, intAt, same 1 (by decide), same 2 (by decide), same 3 (by decide), first]

/-- The stack pointer of the process lies in its memory, with room for a call. -/
structure HasStack (u : User) : Prop where
  low : u.sz < KERNBASE
  room : 12 ≤ u.esp.toNat
  inside : u.esp ≤ u.sz

theorem arg_eq {u : User} {n : Word} (h : Covers u (u.esp + 4 + 4 * n) 4) (low : u.sz < KERNBASE) :
    arg u n = some (intAt u.mem (u.esp + 4 + 4 * n)) := by
  have inside : ¬ (u.sz ≤ u.esp + 4 + 4 * n ∨ u.sz < u.esp + 4 + 4 * n + 4) := by
    unfold Covers at h
    generalize u.esp + 4 + 4 * n = addr at h ⊢
    bv_omega
  rw [arg, argint, fetchint, if_neg inside]
  rfl

section

variable {u : User} (stack : HasStack u) (ret a b : Word)

include stack

theorem arg_first : arg (pushCall u ret a b) 0 = some a := by
  have covers : Covers (pushCall u ret a b) (u.esp - 12 + 4 + 4 * 0) 4 := by
    have := stack.room
    have := stack.inside
    simp only [Covers, pushCall]
    bv_omega
  have at_ : u.esp - 12 + 4 + 4 * 0 = u.esp - 8 := by bv_omega
  rw [arg_eq covers stack.low]
  show some (intAt _ (u.esp - 12 + 4 + 4 * 0)) = some a
  rw [at_, pushCall, intAt_storeInt_ne _ _ (by bv_omega) (by bv_omega), intAt_storeInt]

theorem arg_second : arg (pushCall u ret a b) 1 = some b := by
  have covers : Covers (pushCall u ret a b) (u.esp - 12 + 4 + 4 * 1) 4 := by
    have := stack.room
    have := stack.inside
    simp only [Covers, pushCall]
    bv_omega
  have at_ : u.esp - 12 + 4 + 4 * 1 = u.esp - 4 := by bv_omega
  rw [arg_eq covers stack.low]
  show some (intAt _ (u.esp - 12 + 4 + 4 * 1)) = some b
  rw [at_, pushCall, intAt_storeInt_ne _ _ (by bv_omega) (by bv_omega),
    intAt_storeInt_ne _ _ (by bv_omega) (by bv_omega), intAt_storeInt]

end

/-! ## What the command does -/

/-- The process with that pid, and no other, gets the priority, and an error is reported exactly if
there is none. -/
structure SetsPriority (s : Kernel) (pid pr : ℤ) (out : String) (s' : Kernel) : Prop where
  priority : ∀ p, (s.procs p).state ≠ .UNUSED →
    (s'.procs p).priority = if (s.procs p).pid = pid then pr else (s.procs p).priority
  error : out = "Error: No such process\n" ↔ ¬ Live s pid

/-- The slot whose priority the command sets, and the priority it sets. -/
def commandTarget (s : Kernel) (priority pid : ℤ) : Option Slot :=
  if ValidPriority priority then findPid s pid else none

/-- The command exchanges the numbers: it finds nothing, and there is no process `pid`; or there is
one, and either the numbers are equal or both processes have the priorities already. -/
def Coincides (s : Kernel) (pid pr : ℤ) : Prop :=
  match commandTarget s (atoi (typed pid)).toInt pr with
  | none => ¬ Live s pid
  | some q => Live s pid ∧
      ((s.procs q).state ≠ .UNUSED → pid = pr ∨ (s.procs q).priority = (atoi (typed pid)).toInt) ∧
      ∀ p ≠ q, (s.procs p).state ≠ .UNUSED → (s.procs p).pid = pid → (s.procs p).priority = pr

section

variable {u : User} {s : Kernel}

/-- The command passes its two numbers on in the wrong order. -/
theorem main_eq (stack : HasStack u) (ret : Word) (argv0 argv1 argv2 : List Char) :
    setPriorityMain u ret [argv0, argv1, argv2] = do
      let r ← setPriority (atoi argv1).toInt (atoi argv2).toInt
      return if r < 0 then "Error: No such process\n" else "" := by
  rw [setPriorityMain, sys_setPriority, arg_first stack, arg_second stack]

theorem main_returns (stack : HasStack u) (ret : Word) (argv0 argv1 argv2 : List Char) :
    wp (setPriorityMain u ret [argv0, argv1, argv2])
      (fun out s' => match commandTarget s (atoi argv1).toInt (atoi argv2).toInt with
        | none => out = "Error: No such process\n" ∧ s' = s
        | some q => out = "" ∧ s' = s.setProc q fun x => { x with priority := (atoi argv1).toInt })
      never s := by
  rw [main_eq stack, wp_bind]
  generalize (atoi argv1).toInt = priority, (atoi argv2).toInt = pid
  refine wp_imp (setPriority_spec priority pid) fun r s' spec => ?_
  rw [wp_pure, commandTarget]
  split at spec
  next out =>
    rw [if_neg fun valid => validPriority_iff.1 valid out, spec.1]
    exact ⟨rfl, spec.2⟩
  rename_i inside
  rw [if_pos (validPriority_iff.2 inside)]
  unfold withPriority at spec
  cases found : findPid s pid with
  | none =>
    simp only [found, Option.isSome_none, Bool.false_eq_true, if_false] at spec
    rw [spec.1]
    exact ⟨rfl, spec.2⟩
  | some q =>
    simp only [found, Option.isSome_some, if_true] at spec
    rw [spec.1]
    exact ⟨rfl, spec.2⟩

end

/-- The command `setPriority <pid> <pr>` does what it is for exactly if exchanging the two numbers
makes no difference. -/
theorem setPriority_command_iff {u : User} (stack : HasStack u) (ret : Word) (argv0 : List Char)
    (s : Kernel) (pid : ℤ) {pr : ℤ} (range : 0 ≤ pr ∧ pr ≤ 100) :
    wp (setPriorityMain u ret [argv0, typed pid, typed pr])
      (fun out s' => SetsPriority s pid pr out s') (fun _ _ => False) s ↔ Coincides s pid pr := by
  have returns := main_returns (s := s) stack ret argv0 (typed pid) (typed pr)
  rw [atoi_typed range.1 (by omega)] at returns
  unfold Coincides
  cases target : commandTarget s (atoi (typed pid)).toInt pr with
  | none =>
    rw [target] at returns
    rw [wp_iff_of_returns returns]
    refine ⟨fun h => h.error.1 rfl, fun dead => ⟨fun p used => ?_, by simp [dead]⟩⟩
    rw [if_neg fun same => dead ⟨p, used, same⟩]
  | some q =>
    rw [target] at returns
    rw [wp_iff_of_returns returns]
    have after (p : Slot) :
      ((s.setProc q fun x => { x with priority := (atoi (typed pid)).toInt }).procs
        p).priority = if p = q then (atoi (typed pid)).toInt else (s.procs p).priority := by
      simp only [Kernel.setProc, Function.update_apply]
      split <;> rfl
    have quiet : ¬ "" = "Error: No such process\n" := by decide
    have own : (s.procs q).pid = pr := by
      rw [commandTarget] at target
      split at target
      · exact findPid_some target
      · cases target
    constructor
    · intro h
      refine ⟨not_not.1 fun dead => quiet (h.error.2 dead), fun used => ?_, fun p ne used is => ?_⟩
      · have set := h.priority q used
        rw [after, if_pos rfl, own] at set
        split at set <;> simp_all
      · have set := h.priority p used
        rwa [after, if_neg ne, if_pos is] at set
    rintro ⟨live, mine, others⟩
    refine ⟨fun p used => (after p).trans ?_, by simp [quiet, live]⟩
    split
    next here =>
      subst here
      rw [own]
      split
      next same => rw [← same, atoi_typed range.1 (by omega)]
      next ne => exact ((mine used).resolve_left fun same => ne same.symm).symm
    next ne =>
      split
      next is => exact others p ne used is
      · rfl

def stackUser : User := ⟨0x3000, 0x3000, fun _ => 0⟩

def forked : Kernel :=
  (exec (run (step .DEFAULT) [.schedule 0, .schedule 0, .resume 0, .fork 0, .forkStack 0,
    .forkDone 0]) Kernel.boot).2

section

attribute [local irreducible] wp

theorem setPriority_command_iff_same :
    wp (setPriorityMain stackUser 0 ["setPriority".toList, typed 2, typed 2])
      (fun out s' => SetsPriority forked 2 2 out s') (fun _ _ => False) forked := by
  have stack : HasStack stackUser := ⟨by decide, by decide, by decide⟩
  have target : commandTarget forked (atoi (typed 2)).toInt 2 = some 1 := by decide +kernel
  have coincides : Coincides forked 2 2 := by
    unfold Coincides
    rw [target]
    exact ⟨⟨1, by decide +kernel, by decide +kernel⟩, fun _ => .inl rfl, by decide +kernel⟩
  exact (setPriority_command_iff stack 0 "setPriority".toList forked 2 (by decide)).2 coincides

end

/-- `setPriority 2 1` is to set the priority of process 2 to 1.  It sets that of process 1 to 2. -/
theorem forked_wrong_process :
    let r := exec (setPriorityMain stackUser 0 ["setPriority".toList, typed 2, typed 1]) forked
    (forked.procs 0).pid = 1 ∧ (forked.procs 0).priority = 1 ∧ (forked.procs 1).pid = 2 ∧
      r.1 = .ok "" ∧ (r.2.procs 0).priority = 2 := by
  decide +kernel

end Xv6
