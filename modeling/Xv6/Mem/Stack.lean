import Xv6.Mem.Exec
import Xv6.Mem.Copyout

/-!
# The stack of a new image

The strings of `argv` are pushed from the top of the image downwards, and below them the words that
point at them.  `copyout` refuses the page below the stack page, so that all of it fits into that
one page or `exec` fails.
-/

namespace Xv6.Mem

open Lib

/-! ## Copying in an address space that the kernel has built -/

section Copy

variable {R hand : Multiset ℕ} {s₀ s s' : Phys} {d va : ℕ} {m : Space} {p : List Byte} {r : Bool}

theorem Owns.copied (h : Owns R s₀ d hand m s) (guarded : m.Guarded)
    (copy : CopiesOut s d va p r s') :
    pte s' d = pte s d ∧ Tabled d s s' ∧ Owns R s₀ d hand (space s' d) s' := by
  apply h.rewritten s' _ copy.rest
  intro v out
  by_contra changed
  obtain ⟨x, user, eq⟩ := copy.user v changed
  exact out (eq ▸ h.frame_mem guarded user)

def userByte (s : Phys) (d x : ℕ) : Byte := (s.page (frame s d x)).byte (x % PGSIZE)

theorem lt_of_page {x : ℕ} (h : x / PGSIZE < 2 ^ 20) : x < 2 ^ 32 := by
  simp only [PGSIZE] at h
  omega

theorem Owns.copyout_user {va : Word} (h : Owns R s₀ d hand m s) (guarded : m.Guarded)
    (all : ∀ j < p.length, UserAt s d (va.toNat + j)) :
    wp (copyout d va p) (fun r s' => r = true ∧ pte s' d = pte s d ∧ Tabled d s s' ∧
      Owns R s₀ d hand (space s' d) s' ∧
      (∀ j (hj : j < p.length), userByte s' d (va.toNat + j) = p[j]) ∧
      ∀ x, UserAt s d x → x < va.toNat ∨ va.toNat + p.length ≤ x → userByte s' d x = userByte s d x)
      never s := by
  have walk : Walkable s d va.toNat p.length := by
    refine ⟨fun j hj _ => ?_, ?_⟩
    · rw [wrap_of_lt (all j hj).lt]
      exact (found_of_present (all j hj).1).2
    have := va.isLt
    by_contra more
    have := (all (p.length - 1) (by omega)).lt
    omega
  apply wp_imp (walk.copyout_spec (h.plain guarded))
  intro r s' copy
  have yes := copy.ok.2 all
  obtain ⟨entries, tabled, own⟩ := h.copied guarded copy
  refine ⟨yes, entries, tabled, own, fun j hj => ?_, fun x user out => ?_⟩
  · rw [userByte, frame_congr entries]
    exact copy.bytes yes j hj
  rw [userByte, frame_congr entries, userByte]
  apply copy.others yes
  rintro j hj ⟨eq, off⟩
  have same := h.frame_inj guarded (all j hj) user eq
  simp only [PGSIZE] at same off
  omega

theorem Owns.copyout_refused {va : Word} (h : Owns R s₀ d hand m s) (guarded : m.Guarded) {g : ℕ}
    (hg : g < p.length) (refused : ¬ UserAt s d (va.toNat + g))
    (found : ∀ j ≤ g, va.toNat + j < 2 ^ 32 ∧
      ∃ t, table s d (PDX ((va.toNat + j) / PGSIZE)) = some t) :
    wp (copyout d va p) (fun r s' => r = false ∧ pte s' d = pte s d ∧
      Owns R s₀ d hand (space s' d) s') never s := by
  have here := wrap_of_lt (found g (Nat.le_refl g)).1
  have walk : Walkable s d va.toNat p.length := by
    refine ⟨fun j _ before => ?_, .inr ⟨g, hg, by rwa [here]⟩⟩
    by_cases le : j ≤ g
    · rw [wrap_of_lt (found j le).1]
      exact (found j le).2
    have user := before g (by omega)
    rw [here] at user
    exact absurd user refused
  apply wp_imp (walk.copyout_spec (h.plain guarded))
  intro r s' copy
  obtain ⟨entries, -, own⟩ := h.copied guarded copy
  refine ⟨?_, entries, own⟩
  rw [← Bool.not_eq_true]
  intro yes
  exact refused (copy.ok.1 yes g hg)

end Copy

/-! ## The image before the stack is written -/

/-- An address space of size `sz` whose last two pages are an inaccessible page and the stack. -/
structure Image (s : Phys) (d sz : ℕ) : Prop where
  aligned : sz % PGSIZE = 0
  two : 2 * PGSIZE ≤ sz
  below : sz < 2 ^ 31
  mapped : ∀ a < sz / PGSIZE, present (pte s d a) = true
  guard : forUser (pte s d (sz / PGSIZE - 2)) = false
  stack : forUser (pte s d (sz / PGSIZE - 1)) = true
  kernel : ∀ a, userPages ≤ a → forUser (pte s d a) = false
  devices : ∀ a, 0xFE000 ≤ a → a < 2 ^ 20 → present (pte s d a) = true

namespace Image

variable {s s' : Phys} {d sz x : ℕ}

variable (h : Image s d sz)
include h

theorem congr (entries : pte s' d = pte s d) : Image s' d sz := by
  obtain ⟨aligned, two, below, mapped, guard, stack, kernel, devices⟩ := h
  rw [← entries] at mapped guard stack kernel devices
  exact ⟨aligned, two, below, mapped, guard, stack, kernel, devices⟩

theorem guarded {R hand : Multiset ℕ} {s₀ : Phys} {m : Space}
    (own : Owns R s₀ d hand m s) : m.Guarded := by
  intro a ha
  rw [own.pte_kernel ha]
  exact h.kernel a ha

theorem userAt (lo : sz ≤ x + PGSIZE) (hi : x < sz) : UserAt s d x := by
  have aligned := h.aligned
  have two := h.two
  have page : x / PGSIZE = sz / PGSIZE - 1 := by
    simp only [PGSIZE] at *
    omega
  rw [UserAt, page]
  refine ⟨h.mapped _ ?_, h.stack⟩
  simp only [PGSIZE] at *
  omega

theorem not_userAt (lo : sz ≤ x + 2 * PGSIZE) (hi : x + PGSIZE < sz) :
    ¬ UserAt s d x := by
  have aligned := h.aligned
  have page : x / PGSIZE = sz / PGSIZE - 2 := by
    simp only [PGSIZE] at *
    omega
  rw [UserAt, page, h.guard]
  simp

theorem found (hi : x < sz) :
    x < 2 ^ 32 ∧ ∃ t, table s d (PDX (x / PGSIZE)) = some t := by
  have aligned := h.aligned
  have there := h.mapped (x / PGSIZE) (by
    simp only [PGSIZE] at *
    omega)
  exact ⟨lt_of_page (found_of_present there).1, (found_of_present there).2⟩

end Image

/-! ## Pushing strings -/

def room (arg : List Byte) : ℕ := (arg.length + 4) / 4 * 4

def stackUse (argv : List (List Byte)) : ℕ := (argv.map room).sum

/-- The string `arg` stands at `x`. -/
def StringAt (s : Phys) (d x : ℕ) (arg : List Byte) : Prop :=
  ∀ j (h : j < (arg ++ [0]).length), userByte s d (x + j) = (arg ++ [0])[j]

/-- The strings stand one below the other at the given addresses, the first of them below `top`. -/
def Placed (s : Phys) (d : ℕ) : ℕ → List (List Byte) → List Word → Prop
  | _, [], [] => True
  | top, arg :: argv, x :: xs =>
      x.toNat + room arg = top ∧ StringAt s d x.toNat arg ∧ Placed s d x.toNat argv xs
  | _, _, _ => False

theorem next_sp {sp : Word} (aligned : sp.toNat % 4 = 0) (arg : List Byte)
    (short : arg.length + 1 < 2 ^ 32) :
    ((sp - BitVec.ofNat 32 (arg.length + 1)) &&& ~~~3).toNat =
      if arg.length + 1 ≤ sp.toNat then sp.toNat - room arg
      else 2 ^ 32 + sp.toNat - room arg := by
  have low := sp.isLt
  have mask := toNat_and_not_mask (k := 2) (sp - BitVec.ofNat 32 (arg.length + 1))
  rw [BitVec.toNat_sub, BitVec.toNat_ofNat, Nat.mod_eq_of_lt short] at mask
  have three : BitVec.ofNat 32 (2 ^ 2 - 1) = 3 := rfl
  rw [three] at mask
  rw [mask, room]
  split <;> omega

section Push

variable {R hand : Multiset ℕ} {s₀ s : Phys} {d sz : ℕ} {m : Space}

theorem push_refused (own : Owns R s₀ d hand m s) (image : Image s d sz) {sp : Word}
    (aligned : sp.toNat % 4 = 0) (lo : sz ≤ sp.toNat + PGSIZE) (hi : sp.toNat ≤ sz)
    {arg : List Byte} (short : room arg ≤ sp.toNat + 0x2000000)
    (full : sp.toNat + PGSIZE < sz + room arg) :
    wp (copyout d ((sp - BitVec.ofNat 32 (arg.length + 1)) &&& ~~~3) (arg ++ [0]))
      (fun r s' => r = false ∧ pte s' d = pte s d ∧ Owns R s₀ d hand (space s' d) s') never s := by
  have below := image.below
  have two := image.two
  have size : sz % 4 = 0 := by
    have := image.aligned
    simp only [PGSIZE] at this
    omega
  unfold room at full short
  have start := next_sp aligned arg (by omega)
  generalize (sp - BitVec.ofNat 32 (arg.length + 1)) &&& ~~~3 = va at start ⊢
  have guarded := image.guarded own
  have len : (arg ++ [0]).length = arg.length + 1 := by simp
  unfold room at start
  simp only [PGSIZE] at *
  split at start
  · -- the first address on the page below the stack
    apply own.copyout_refused (g := sz - 8192 - va.toNat) guarded (by omega)
    · exact image.not_userAt (by simp only [PGSIZE]; omega) (by simp only [PGSIZE]; omega)
    intro j hj
    exact image.found (by omega)
  have page : 0xFE000 ≤ va.toNat / PGSIZE ∧ va.toNat / PGSIZE < 2 ^ 20 := by
    have := va.isLt
    simp only [PGSIZE]
    omega
  apply own.copyout_refused (g := 0) guarded (by omega)
  · rw [Nat.add_zero, UserAt, image.kernel _ (Nat.le_trans (by decide) page.1)]
    simp
  intro j hj
  obtain rfl : j = 0 := by omega
  rw [Nat.add_zero]
  exact ⟨va.isLt, (found_of_present (image.devices _ page.1 page.2)).2⟩

theorem push_fits (own : Owns R s₀ d hand m s) (image : Image s d sz) {sp : Word}
    (aligned : sp.toNat % 4 = 0) (hi : sp.toNat ≤ sz) {arg : List Byte}
    (fits : sz + room arg ≤ sp.toNat + PGSIZE) :
    ((sp - BitVec.ofNat 32 (arg.length + 1)) &&& ~~~3).toNat + room arg = sp.toNat ∧
    wp (copyout d ((sp - BitVec.ofNat 32 (arg.length + 1)) &&& ~~~3) (arg ++ [0]))
      (fun r s' => r = true ∧ pte s' d = pte s d ∧ Tabled d s s' ∧
        Owns R s₀ d hand (space s' d) s' ∧
        StringAt s' d ((sp - BitVec.ofNat 32 (arg.length + 1)) &&& ~~~3).toNat arg ∧
        ∀ x, sp.toNat ≤ x → x < sz → userByte s' d x = userByte s d x) never s := by
  have below := image.below
  have two := image.two
  have start := next_sp aligned arg (by
    unfold room at fits
    simp only [PGSIZE] at *
    omega)
  generalize (sp - BitVec.ofNat 32 (arg.length + 1)) &&& ~~~3 = va at start ⊢
  have len : (arg ++ [0]).length = arg.length + 1 := by simp
  have place : va.toNat + room arg = sp.toNat := by
    unfold room at *
    simp only [PGSIZE] at *
    split at start <;> omega
  refine ⟨place, ?_⟩
  have inside (j : ℕ) (hj : j < (arg ++ [0]).length) : UserAt s d (va.toNat + j) := by
    apply image.userAt
    · simp only [PGSIZE] at *
      omega
    unfold room at place
    omega
  apply wp_imp (own.copyout_user (image.guarded own) inside)
  rintro r s' ⟨yes, entries, tabled, own', bytes, others⟩
  refine ⟨yes, entries, tabled, own', bytes, fun x ge lt => ?_⟩
  apply others x
  · apply image.userAt _ lt
    simp only [PGSIZE] at *
    omega
  unfold room at place
  omega

theorem stackUse_cons (arg : List Byte) (argv : List (List Byte)) :
    stackUse (arg :: argv) = room arg + stackUse argv := by
  rw [stackUse, List.map_cons, List.sum_cons, stackUse]

theorem room_mod (arg : List Byte) : room arg % 4 = 0 := Nat.mul_mod_left _ 4

theorem length_lt_room (arg : List Byte) : arg.length + 1 ≤ room arg := by
  unfold room
  omega

/-- Pushing the strings from `sp` down comes to one that takes the stack pointer past 0 and the
devices, into a part of the address space that has no page tables. -/
def Overflows (sz : ℕ) : ℕ → ℕ → List (List Byte) → Prop
  | _, _, [] => False
  | argc, sp, arg :: argv => argc < MAXARG ∧ (sp + 0x2000000 < room arg ∨
      sz + room arg ≤ sp + PGSIZE ∧ Overflows sz (argc + 1) (sp - room arg) argv)

theorem not_overflows : ∀ {argv : List (List Byte)} {argc sp : ℕ}, sp % 4 = 0 → sz ≤ sp + PGSIZE →
    (∀ arg ∈ argv, arg.length + 1 + PGSIZE ≤ sz + 0x2000000) → ¬ Overflows sz argc sp argv
  | [], _, _, _, _, _ => id
  | arg :: argv, argc, sp, aligned, lo, short => by
      have first := short arg List.mem_cons_self
      rintro ⟨-, past | ⟨fits, later⟩⟩
      · unfold room at past
        omega
      have mod := room_mod arg
      exact not_overflows (by omega) (by omega)
        (fun b hb => short b (List.mem_cons_of_mem _ hb)) later

theorem pushArgs_spec : ∀ (argv : List (List Byte)) (argc : ℕ) (sp : Word) (ustack : List Word)
    (m : Space) (s : Phys), Owns R s₀ d hand m s → Image s d sz → sp.toNat % 4 = 0 →
    sz ≤ sp.toNat + PGSIZE → sp.toNat ≤ sz → ¬ Overflows sz argc sp.toNat argv →
    wp (pushArgs d argc sp ustack argv) (fun r s' =>
      pte s' d = pte s d ∧ Owns R s₀ d hand (space s' d) s' ∧
      ((r = none ∧ (MAXARG < argc + argv.length ∨ sp.toNat + PGSIZE < sz + stackUse argv)) ∨
        ∃ sp' addrs, r = some (sp', ustack ++ addrs) ∧ (argv = [] ∨ argc + argv.length ≤ MAXARG) ∧
          sp'.toNat + stackUse argv = sp.toNat ∧
          sz ≤ sp'.toNat + PGSIZE ∧ Placed s' d sp.toNat argv addrs ∧
          ∀ x, sp.toNat ≤ x → x < sz → userByte s' d x = userByte s d x)) never s
  | [], argc, sp, ustack, m, s, own, image, _, lo, _, _ => by
      rw [pushArgs, wp_pure]
      refine ⟨rfl, ?_, Or.inr ⟨sp, [], by rw [List.append_nil], Or.inl rfl, rfl, lo, trivial,
        fun _ _ _ => rfl⟩⟩
      rw [own.map]
      exact own
  | arg :: argv, argc, sp, ustack, m, s, own, image, aligned, lo, hi, short => by
      rw [pushArgs, wp_ite]
      refine ⟨fun many => ?_, fun small => ?_⟩
      · rw [wp_pure]
        refine ⟨rfl, ?_, Or.inl ⟨rfl, Or.inl ?_⟩⟩
        · rw [own.map]
          exact own
        rw [List.length_cons]
        omega
      rw [Overflows, not_and, not_or, not_and] at short
      obtain ⟨length, later⟩ := short (by omega)
      rw [wp_bind, stackUse_cons, List.length_cons]
      by_cases fits : sz + room arg ≤ sp.toNat + PGSIZE
      swap
      · apply wp_imp (push_refused own image aligned lo hi (by omega) (by omega))
        rintro r s₁ ⟨rfl, entries, own₁⟩
        rw [if_neg (by decide), wp_pure]
        exact ⟨entries, own₁, Or.inl ⟨rfl, Or.inr (by omega)⟩⟩
      obtain ⟨place, copy⟩ := push_fits own image aligned hi fits
      generalize (sp - BitVec.ofNat 32 (arg.length + 1)) &&& ~~~3 = va at place copy ⊢
      apply wp_imp copy
      rintro r s₁ ⟨rfl, entries, -, own₁, string, above⟩
      rw [if_pos rfl]
      have mod := room_mod arg
      have len := length_lt_room arg
      apply wp_imp (pushArgs_spec argv (argc + 1) va (ustack ++ [va]) _ s₁ own₁ (image.congr entries)
        (by omega) (by omega) (by omega) (by
          rw [show va.toNat = sp.toNat - room arg by omega]
          exact later fits))
      rintro r s' ⟨entries', own', out⟩
      refine ⟨entries'.trans entries, own', ?_⟩
      rcases out with ⟨none, full⟩ | ⟨sp', addrs, rfl, count, used, inside, placed, kept⟩
      · exact Or.inl ⟨none, full.imp (fun _ => by omega) fun _ => by omega⟩
      have few : argc + (argv.length + 1) ≤ MAXARG := by
        rcases count with rfl | count
        · rw [List.length_nil]
          omega
        · omega
      refine Or.inr ⟨sp', va :: addrs, by rw [List.append_assoc]; rfl, Or.inr few, by omega, inside,
        ⟨place, fun j hj => ?_, placed⟩, fun x ge lt => ?_⟩
      · have : (arg ++ [0]).length = arg.length + 1 := by simp
        rw [kept _ (by omega) (by omega)]
        exact string j hj
      · rw [kept x (by omega) lt, above x ge lt]

/-- With no directory in use, a push past the devices is a trap. -/
theorem pushArgs_null {argv : List (List Byte)} {argc : ℕ} {sp : Word} {ustack : List Word}
    {m : Space} {s : Phys} (own : Owns R s₀ d hand m s) (image : Image s d sz) (gap : Gap s d)
    (unmapped : ¬ s.cr3 < topPage) (aligned : sp.toNat % 4 = 0) (lo : sz ≤ sp.toNat + PGSIZE)
    (hi : sp.toNat ≤ sz) (short : ∀ arg ∈ argv, arg.length < 0xE000000)
    (beyond : Overflows sz argc sp.toNat argv) :
    wp (pushArgs d argc sp ustack argv) (fun _ _ => False) anyStop s := by
  induction argv generalizing argc sp ustack m s with
  | nil => exact beyond.elim
  | cons arg argv ih =>
      obtain ⟨few, past⟩ := beyond
      have below := image.below
      have two := image.two
      have length := short arg List.mem_cons_self
      have plain := own.plain (image.guarded own)
      rw [pushArgs, if_neg (by omega), wp_bind]
      rcases past with past | ⟨fits, later⟩
      · have start := next_sp aligned arg (by omega)
        generalize (sp - BitVec.ofNat 32 (arg.length + 1)) &&& ~~~3 = va at start ⊢
        have far : ¬ arg.length + 1 ≤ sp.toNat := by
          unfold room at past
          omega
        rw [if_neg far] at start
        unfold room at past start
        have more : 0 < (arg ++ [0]).length := by simp
        rw [copyout_eq_loop]
        refine wp_imp (copyoutLoop_null (Nat.le_refl _) plain unmapped more
          (fun i hi => absurd hi (Nat.not_lt_zero i)) ?_) fun _ _ no => no.elim
        rw [Nat.add_zero, wrap_of_lt va.isLt]
        have place : (PDX (va.toNat / PGSIZE)).val = va.toNat / 4096 / 1024 % 1024 := rfl
        exact gap _ (by omega) (by omega)
      obtain ⟨place, copy⟩ := push_fits own image aligned hi fits
      generalize (sp - BitVec.ofNat 32 (arg.length + 1)) &&& ~~~3 = va at place copy ⊢
      apply wp_mono copy _ fun _ _ no => no.elim
      rintro r s₁ ⟨rfl, entries, tabled, own₁, -⟩
      rw [if_pos rfl]
      have mod := room_mod arg
      have same : va.toNat = sp.toNat - room arg := by omega
      rw [← same] at later
      have cr3 : s₁.cr3 = s.cr3 := own₁.within.cr3.trans own.within.cr3.symm
      exact ih own₁ (image.congr entries) (tabled.gap gap) (by rwa [cr3]) (by omega) (by omega)
        (by omega) (fun b hb => short b (List.mem_cons_of_mem _ hb)) later

end Push

/-! ## The stack as the program finds it -/

def userWord (s : Phys) (d x : ℕ) : Word :=
  ofBytes (userByte s d x) (userByte s d (x + 1)) (userByte s d (x + 2)) (userByte s d (x + 3))

/-- The strings and the block of words below them take no more than the stack page. -/
def FitsStack (argv : List (List Byte)) : Prop := stackUse argv + 4 * (argv.length + 4) ≤ PGSIZE

/-- What the stack says, read from `esp` on; `addrs` are the addresses of the strings. -/
structure StackDecodes (s : Phys) (d sz esp : ℕ) (argv : List (List Byte)) (addrs : List Word) :
    Prop where
  user : ∀ x, sz ≤ x + PGSIZE → x < sz → UserAt s d x
  returnPc : userWord s d esp = 0xffffffff
  argc : userWord s d (esp + 4) = BitVec.ofNat 32 argv.length
  argvPtr : userWord s d (esp + 8) = BitVec.ofNat 32 (esp + 12)
  count : addrs.length = argv.length
  pointers : ∀ (i : ℕ) (x : Word), addrs[i]? = some x → userWord s d (esp + 12 + 4 * i) = x
  last : userWord s d (esp + 12 + 4 * argv.length) = 0
  strings : ∀ (i : ℕ) (x : Word) (arg : List Byte), addrs[i]? = some x → argv[i]? = some arg →
    StringAt s d x.toNat arg
  /-- The block of words is in the stack page and below the strings, -/
  bottom : sz ≤ esp + PGSIZE
  block : esp + 4 * (argv.length + 4) ≤ sz ∧
    ∀ (i : ℕ) (x : Word), addrs[i]? = some x → esp + 4 * (argv.length + 4) ≤ x.toNat
  /-- which are in the image, each below the one before. -/
  inside : ∀ (i : ℕ) (x : Word) (arg : List Byte), addrs[i]? = some x → argv[i]? = some arg →
    x.toNat + (arg.length + 1) ≤ sz
  apart : ∀ (i j : ℕ) (x y : Word) (arg : List Byte), i < j → addrs[i]? = some x →
    addrs[j]? = some y → argv[j]? = some arg → y.toNat + (arg.length + 1) ≤ x.toNat

section Decode

variable {s s' : Phys} {d : ℕ}

theorem userWord_of_bytes {ws : List Word} {va : ℕ}
    (bytes : ∀ j (h : j < (ws.flatMap leBytes).length),
    userByte s d (va + j) = (ws.flatMap leBytes)[j])
    {k : ℕ} {w : Word} (hk : ws[k]? = some w) : userWord s d (va + 4 * k) = w := by
  have at_ (i : ℕ) (hi : i < 4) : some (userByte s d (va + 4 * k + i)) = (leBytes w)[i]? := by
    have four : i < (leBytes w).length := hi
    have here : (ws.flatMap leBytes)[4 * k + i]? = some (leBytes w)[i] := by
      rw [getElem?_flatMap_leBytes ws hi, hk, Option.bind_some, List.getElem?_eq_getElem four]
    obtain ⟨lt, eq⟩ := List.getElem?_eq_some_iff.1 here
    rw [Nat.add_assoc, bytes _ lt, eq, List.getElem?_eq_getElem four]
  have h₀ := Option.some.inj (at_ 0 (by decide))
  have h₁ := Option.some.inj (at_ 1 (by decide))
  have h₂ := Option.some.inj (at_ 2 (by decide))
  have h₃ := Option.some.inj (at_ 3 (by decide))
  rw [userWord, ← Nat.add_zero (va + 4 * k), h₀]
  rw [Nat.add_zero, h₁, h₂, h₃]
  exact ofBytes_leBytes w

theorem Placed.congr {sp sz : ℕ} (same : ∀ x, sp ≤ x → x < sz → userByte s' d x = userByte s d x) :
    ∀ {argv : List (List Byte)} {addrs : List Word} {top : ℕ}, top ≤ sz → sp + stackUse argv ≤ top →
      Placed s d top argv addrs → Placed s' d top argv addrs
  | [], [], _, _, _, _ => trivial
  | arg :: argv, x :: addrs, top, hi, lo, ⟨place, string, rest⟩ => by
      rw [stackUse_cons] at lo
      have len := length_lt_room arg
      refine ⟨place, fun j hj => ?_, Placed.congr same (by omega) (by omega) rest⟩
      have : (arg ++ [0]).length = arg.length + 1 := by simp
      rw [same _ (by omega) (by omega)]
      exact string j hj

theorem Placed.count : ∀ {argv : List (List Byte)} {addrs : List Word} {top : ℕ},
    Placed s d top argv addrs → addrs.length = argv.length
  | [], [], _, _ => rfl
  | _ :: _, _ :: _, _, ⟨_, _, rest⟩ => by
      rw [List.length_cons, List.length_cons, rest.count]

theorem Placed.get : ∀ {argv : List (List Byte)} {addrs : List Word} {top : ℕ},
    Placed s d top argv addrs → ∀ {i : ℕ} {x : Word} {arg : List Byte}, addrs[i]? = some x →
      argv[i]? = some arg → StringAt s d x.toNat arg ∧ x.toNat + (arg.length + 1) ≤ top ∧
        top ≤ x.toNat + stackUse argv
  | [], _, _, _, i, _, _, _, harg => by
      cases i <;> cases harg
  | arg :: argv, x :: addrs, top, ⟨place, string, rest⟩, 0, _, _, hx, harg => by
      cases hx
      cases harg
      have len := length_lt_room arg
      rw [stackUse_cons]
      exact ⟨string, by omega, by omega⟩
  | arg :: argv, x :: addrs, top, ⟨place, string, rest⟩, i + 1, y, arg', hy, harg => by
      obtain ⟨string', hi, lo⟩ := rest.get (i := i) hy harg
      rw [stackUse_cons]
      exact ⟨string', by omega, by omega⟩

theorem Placed.apart : ∀ {argv : List (List Byte)} {addrs : List Word} {top : ℕ},
    Placed s d top argv addrs → ∀ {i j : ℕ} {x y : Word} {arg : List Byte}, i < j →
      addrs[i]? = some x → addrs[j]? = some y → argv[j]? = some arg →
        y.toNat + (arg.length + 1) ≤ x.toNat
  | [], _, _, _, _, j, _, _, _, _, _, _, harg => by
      cases j <;> cases harg
  | arg :: argv, x :: addrs, top, ⟨place, string, rest⟩, 0, j + 1, _, y, arg', _, hx, hy, harg => by
      cases hx
      exact (rest.get (i := j) hy harg).2.1
  | arg :: argv, x :: addrs, top, ⟨place, string, rest⟩, i + 1, j + 1, _, y, arg', lt, hx, hy,
    harg =>
      rest.apart (i := i) (j := j) (by omega) hx hy harg

end Decode

def ustack (sp : Word) (argc : ℕ) (addrs : List Word) : List Word :=
  [0xffffffff, BitVec.ofNat 32 argc, sp - (BitVec.ofNat 32 argc + 1) * 4] ++ addrs ++ [0]

theorem length_ustack (sp : Word) {argc : ℕ} {addrs : List Word} (count : addrs.length = argc) :
    ((ustack sp argc addrs).flatMap leBytes).length = 4 * (argc + 4) := by
  simp only [ustack, List.flatMap_append, List.length_append, List.length_flatMap, length_leBytes,
    List.map_const', List.sum_replicate, List.length_cons, List.length_nil, count, smul_eq_mul]
  omega

theorem esp_toNat (sp : Word) {argc : ℕ} (few : argc ≤ MAXARG) (big : PGSIZE ≤ sp.toNat) :
    (sp - (3 + BitVec.ofNat 32 argc + 1) * 4).toNat + 4 * (argc + 4) = sp.toNat ∧
    sp - (BitVec.ofNat 32 argc + 1) * 4 =
      BitVec.ofNat 32 ((sp - (3 + BitVec.ofNat 32 argc + 1) * 4).toNat + 12) := by
  have low := sp.isLt
  simp only [MAXARG] at few
  have one : (1 : Word).toNat = 1 := rfl
  have three : (3 : Word).toNat = 3 := rfl
  have four : (4 : Word).toNat = 4 := rfl
  have block : (3 + BitVec.ofNat 32 argc + 1) * 4 = BitVec.ofNat 32 (4 * (argc + 4)) := by
    apply BitVec.eq_of_toNat_eq
    simp only [BitVec.toNat_mul, BitVec.toNat_add, BitVec.toNat_ofNat, one, three, four]
    omega
  have array : (BitVec.ofNat 32 argc + 1) * 4 = BitVec.ofNat 32 (4 * (argc + 1)) := by
    apply BitVec.eq_of_toNat_eq
    simp only [BitVec.toNat_mul, BitVec.toNat_add, BitVec.toNat_ofNat, one, four]
    omega
  rw [block, array]
  simp only [PGSIZE] at big
  constructor
  · rw [BitVec.toNat_sub, BitVec.toNat_ofNat]
    omega
  apply BitVec.eq_of_toNat_eq
  rw [BitVec.toNat_sub, BitVec.toNat_sub, BitVec.toNat_ofNat, BitVec.toNat_ofNat,
    BitVec.toNat_ofNat]
  omega

theorem Placed.decodes {s : Phys} {d sz va : ℕ} {sp : Word} {argv : List (List Byte)}
    {addrs : List Word} (image : Image s d sz) (placed : Placed s d sz argv addrs)
    (used : sp.toNat + stackUse argv = sz) (esp : va + 4 * (argv.length + 4) = sp.toNat)
    (ptr : sp - (BitVec.ofNat 32 argv.length + 1) * 4 = BitVec.ofNat 32 (va + 12))
    (bottom : sz ≤ va + PGSIZE)
    (bytes : ∀ j (h : j < ((ustack sp argv.length addrs).flatMap leBytes).length),
      userByte s d (va + j) = ((ustack sp argv.length addrs).flatMap leBytes)[j]) :
    StackDecodes s d sz va argv addrs := by
  have count := placed.count
  have word {k : ℕ} {w : Word} (hk : (ustack sp argv.length addrs)[k]? = some w) :
      userWord s d (va + 4 * k) = w := userWord_of_bytes bytes hk
  have arg {i : ℕ} {x : Word} (hx : addrs[i]? = some x) : ∃ a, argv[i]? = some a := by
    have := (List.getElem?_eq_some_iff.1 hx).1
    exact ⟨_, List.getElem?_eq_getElem (by omega)⟩
  refine ⟨fun x ge lt => image.userAt ge lt, word (k := 0) rfl, word (k := 1) rfl, ?_, count,
    fun i x hx => ?_, ?_, fun i x a hx ha => (placed.get hx ha).1, bottom,
    ⟨by omega, fun i x hx => ?_⟩,
    fun i x a hx ha => (placed.get hx ha).2.1,
    fun i j x y a lt hx hy ha => placed.apart lt hx hy ha⟩
  · rw [← ptr]
    exact word (k := 2) rfl
  · have here := word (k := 3 + i) (w := x) (by
      rw [ustack, List.getElem?_append_left (by
        have := (List.getElem?_eq_some_iff.1 hx).1
        simp only [List.length_append, List.length_cons, List.length_nil]
        omega), List.getElem?_append_right (by simp)]
      simpa using hx)
    rwa [show va + 4 * (3 + i) = va + 12 + 4 * i by omega] at here
  · have here := word (k := 3 + argv.length) (w := 0) (by
      have front : ([0xffffffff, BitVec.ofNat 32 argv.length,
          sp - (BitVec.ofNat 32 argv.length + 1) * 4] ++ addrs : List Word).length =
            3 + argv.length := by
        rw [List.length_append, count]
        rfl
      rw [ustack, List.getElem?_append_right (Nat.le_of_eq front), front, Nat.sub_self]
      rfl)
    rwa [show va + 4 * (3 + argv.length) = va + 12 + 4 * argv.length by omega] at here
  · obtain ⟨a, ha⟩ := arg hx
    have := (placed.get hx ha).2.2
    omega

theorem pushStack_spec {R hand : Multiset ℕ} {s₀ s : Phys} {d : ℕ} {m : Space} {sz : Word}
    (own : Owns R s₀ d hand m s) (image : Image s d sz.toNat) (argv : List (List Byte))
    (short : ¬ Overflows sz.toNat 0 sz.toNat argv) :
    wp (pushStack d sz argv) (fun r s' => pte s' d = pte s d ∧ Owns R s₀ d hand (space s' d) s' ∧
      (r.isSome = true ↔ argv.length ≤ MAXARG ∧ FitsStack argv) ∧
      ∀ esp, r = some esp → ∃ addrs, StackDecodes s' d sz.toNat esp.toNat argv addrs) never s := by
  have pages := image.aligned
  have two := image.two
  simp only [PGSIZE] at pages two
  rw [pushStack]
  apply wp_next (pushArgs_spec argv 0 sz [] m s own image (by omega) (by omega) (Nat.le_refl _)
    short)
  rintro r s₁ ⟨entries, own₁, ⟨rfl, full⟩ | ⟨sp, addrs, rfl, few, used, lo, placed, -⟩⟩
  · rw [wp_pure]
    refine ⟨entries, own₁, ⟨by simp, fun fits => ?_⟩, by simp⟩
    have := fits.2
    unfold FitsStack at this
    omega
  have few : argv.length ≤ MAXARG := by
    rcases few with rfl | few
    · exact Nat.zero_le _
    · omega
  have image₁ := image.congr entries
  simp only [PGSIZE] at lo
  obtain ⟨esp, ptr⟩ := esp_toNat sp few (by simp only [PGSIZE]; omega)
  have count := placed.count
  have len := length_ustack sp count
  dsimp only
  rw [List.nil_append, wp_bind]
  show wp (copyout d (sp - (3 + BitVec.ofNat 32 argv.length + 1) * 4)
    ((ustack sp argv.length addrs).flatMap leBytes)) _ _ s₁
  generalize sp - (3 + BitVec.ofNat 32 argv.length + 1) * 4 = va at esp ptr ⊢
  by_cases fits : FitsStack argv
  · have fit : stackUse argv + 4 * (argv.length + 4) ≤ 4096 := fits
    have inside (j : ℕ) (hj : j < ((ustack sp argv.length addrs).flatMap leBytes).length) :
        UserAt s₁ d (va.toNat + j) := by
      apply image₁.userAt
      · simp only [PGSIZE]
        omega
      · omega
    apply wp_imp (own₁.copyout_user (image₁.guarded own₁) inside)
    rintro r s' ⟨rfl, entries', -, own', bytes, others⟩
    rw [if_pos rfl, wp_pure]
    refine ⟨entries'.trans entries, own', ⟨fun _ => ⟨few, fits⟩, fun _ => rfl⟩,
      fun esp' eq => ⟨addrs, ?_⟩⟩
    cases eq
    have kept : Placed s' d sz.toNat argv addrs := by
      have same (x : ℕ) (ge : sp.toNat ≤ x) (lt : x < sz.toNat) :
          userByte s' d x = userByte s₁ d x := by
        apply others x (image₁.userAt (by simp only [PGSIZE]; omega) lt)
        omega
      exact Placed.congr same (Nat.le_refl _) (by omega) placed
    exact kept.decodes (image₁.congr entries') used esp ptr (by simp only [PGSIZE]; omega) bytes
  · have big : 4096 < stackUse argv + 4 * (argv.length + 4) := by
      unfold FitsStack at fits
      simp only [PGSIZE] at fits
      omega
    simp only [MAXARG] at few
    apply wp_imp (own₁.copyout_refused (g := 0) (image₁.guarded own₁) (by omega)
      (image₁.not_userAt (by simp only [PGSIZE]; omega) (by simp only [PGSIZE]; omega))
      (fun j hj => image₁.found (by omega)))
    rintro r s' ⟨rfl, entries', own'⟩
    rw [if_neg (by decide), wp_pure]
    exact ⟨entries'.trans entries, own', ⟨by simp, fun yes => absurd yes.2 fits⟩, by simp⟩

end Xv6.Mem
