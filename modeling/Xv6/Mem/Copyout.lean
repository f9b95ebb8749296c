import Xv6.Mem.Grow

/-!
# Copying into an address space

As long as `copyout` finds a page table for every page it comes to, it copies exactly the bytes of
the range, or stops at the first page that is not for the user (`copyout_user_pages`).  Otherwise
`uva2ka` follows a null pointer and takes the caller's first word for an entry.  A range that ends
behind the last address goes on from 0.
-/

namespace Xv6.Mem

open Lib

/-- The virtual address `x` is on a page that is present and for the user. -/
def UserAt (s : Phys) (d x : ℕ) : Prop :=
  present (pte s d (x / PGSIZE)) = true ∧ forUser (pte s d (x / PGSIZE)) = true

instance (s : Phys) (d x : ℕ) : Decidable (UserAt s d x) := inferInstanceAs (Decidable (_ ∧ _))

def frame (s : Phys) (d x : ℕ) : ℕ := PTE_ADDR (pte s d (x / PGSIZE))

/-- What a call of `copyout` for the bytes `p` at `va` should do. -/
structure CopiesOut (s : Phys) (d va : ℕ) (p : List Byte) (r : Bool) (s' : Phys) : Prop where
  /-- It returns 0 just if all the pages of the range are present and for the user; from 2^32 on
  there are none. -/
  ok : r = true ↔ ∀ j < p.length, UserAt s d (va + j)
  /-- Then the bytes of the range are those of the source, -/
  bytes : r = true → ∀ j (h : j < p.length),
    (s'.page (frame s d (va + j))).byte ((va + j) % PGSIZE) = p[j]
  /-- and all other bytes are as before. -/
  others : r = true → ∀ v k, (∀ j < p.length, ¬ (frame s d (va + j) = v ∧ (va + j) % PGSIZE = k)) →
    (s'.page v).byte k = (s.page v).byte k
  /-- In any case only pages that are for the user have been written. -/
  user : ∀ v, s'.page v ≠ s.page v → ∃ x, UserAt s d x ∧ frame s d x = v
  rest : s'.freelist = s.freelist ∧ s'.kdata = s.kdata ∧ s'.kend = s.kend ∧ s'.cr3 = s.cr3

/-- A directory whose user pages are distinct pages of memory and no page tables. -/
structure Plain (s : Phys) (d : ℕ) : Prop where
  dir : d < topPage
  small : ∀ i t, table s d i = some t → t < topPage
  ram : ∀ x, UserAt s d x → s.writable (frame s d x) ∧ frame s d x ≠ d ∧ frame s d x ∉ tables s d
  apart : ∀ x y, UserAt s d x → UserAt s d y → frame s d x = frame s d y → x / PGSIZE = y / PGSIZE

/-- The addresses of a range, which go on from 0 behind the last one. -/
def wrap (x : ℕ) : ℕ := x % 2 ^ 32

/-- Every page that `copyout` comes to has a page table, and a range that goes on from 0 has a page
that is not for the user. -/
structure Walkable (s : Phys) (d va n : ℕ) : Prop where
  table : ∀ j < n, (∀ i < j, UserAt s d (wrap (va + i))) →
    ∃ t, table s d (PDX (wrap (va + j) / PGSIZE)) = some t
  stops : va + n ≤ 2 ^ 32 ∨ ∃ j < n, ¬ UserAt s d (wrap (va + j))

section Walk

variable {s s' : Phys} {d va : ℕ}

theorem wp_uva2ka {a t : ℕ} {Q : Option ℕ → Phys → Prop} {E : Fault → Phys → Prop}
    (dir : d < topPage) (ha : a < 2 ^ 20) (ht : table s d (PDX a) = some t) (small : t < topPage) :
    wp (uva2ka d a) Q E s ↔
      Q (if present (pte s d a) && forUser (pte s d a) && PTE_ADDR (pte s d a) ≠ 0x80000 then
        some (PTE_ADDR (pte s d a)) else none) s := by
  simp only [uva2ka, wp_bind, wp_walk dir, ht, Option.map_some, wp_load small, ← pte_of_table ha ht]
  cases present (pte s d a) <;> cases forUser (pte s d a) <;>
    by_cases zero : PTE_ADDR (pte s d a) = 0x80000 <;> simp [zero]

theorem wrap_of_lt {x : ℕ} (h : x < 2 ^ 32) : wrap x = x := Nat.mod_eq_of_lt h

theorem page_wrap (x : ℕ) : x / PGSIZE % 2 ^ 20 = wrap x / PGSIZE ∧ wrap x / PGSIZE < 2 ^ 20 := by
  simp only [wrap, PGSIZE]
  omega

theorem same_page {x j : ℕ} (h : j < PGSIZE - x % PGSIZE) :
    wrap (x + j) / PGSIZE = wrap x / PGSIZE ∧ (x + j) % PGSIZE = x % PGSIZE + j := by
  simp only [wrap, PGSIZE] at h ⊢
  omega

theorem next_page (x : ℕ) : (x + (PGSIZE - x % PGSIZE)) / PGSIZE = x / PGSIZE + 1 ∧
    (x + (PGSIZE - x % PGSIZE)) % PGSIZE = 0 := by
  simp only [PGSIZE]
  omega

theorem userAt_congr (entries : pte s' d = pte s d) (x : ℕ) : UserAt s' d x ↔ UserAt s d x := by
  rw [UserAt, UserAt, entries]

theorem frame_congr (entries : pte s' d = pte s d) (x : ℕ) : frame s' d x = frame s d x := by
  rw [frame, frame, entries]

theorem userAt_same_page {j : ℕ} (h : j < PGSIZE - va % PGSIZE) :
    UserAt s d (wrap (va + j)) ↔ UserAt s d (wrap va) := by
  rw [UserAt, UserAt, (same_page h).1]

theorem frame_same_page {j : ℕ} (h : j < PGSIZE - va % PGSIZE) :
    frame s d (wrap (va + j)) = frame s d (wrap va) := by
  rw [frame, frame, (same_page h).1]

theorem UserAt.lt {x : ℕ} (h : UserAt s d x) : x < 2 ^ 32 := by
  have page := (found_of_present h.1).1
  simp only [PGSIZE] at page
  omega

/-- The loop after its first page, which is for the user. -/
theorem Plain.next (plain : Plain s d) (here : UserAt s d (wrap va)) (c : Contents) :
    Plain (s.setPage (frame s d (wrap va)) c) d ∧
      table (s.setPage (frame s d (wrap va)) c) d = table s d ∧
      pte (s.setPage (frame s d (wrap va)) c) d = pte s d := by
  obtain ⟨-, hd, ht⟩ := plain.ram _ here
  have entries := pte_setPage hd ht c
  have dirs := table_setPage (s := s) hd c
  have user := userAt_congr entries
  have frames := frame_congr entries
  refine ⟨⟨plain.dir, fun i t found => ?_, fun x userX => ?_, fun x y userX userY same => ?_⟩,
    dirs, entries⟩
  · rw [dirs] at found
    exact plain.small i t found
  · rw [user] at userX
    rw [frames, tables, dirs]
    exact plain.ram x userX
  · rw [user] at userX userY
    rw [frames, frames] at same
    exact plain.apart x y userX userY same

/-- What the loop does for the bytes `p` from `va` on. -/
structure Copying (s : Phys) (d va : ℕ) (p : List Byte) (r : Bool) (s' : Phys) : Prop where
  ok : r = true ↔ ∀ j < p.length, UserAt s d (wrap (va + j))
  bytes : va + p.length ≤ 2 ^ 32 → r = true → ∀ j (h : j < p.length),
    (s'.page (frame s d (va + j))).byte ((va + j) % PGSIZE) = p[j]
  others : va + p.length ≤ 2 ^ 32 → r = true → ∀ v k,
    (∀ j < p.length, ¬ (frame s d (va + j) = v ∧ (va + j) % PGSIZE = k)) →
      (s'.page v).byte k = (s.page v).byte k
  user : ∀ v, s'.page v ≠ s.page v →
    ∃ j < p.length, UserAt s d (wrap (va + j)) ∧ frame s d (wrap (va + j)) = v
  rest : s'.freelist = s.freelist ∧ s'.kdata = s.kdata ∧ s'.kend = s.kend ∧ s'.cr3 = s.cr3

theorem Copying.cons {p : List Byte} {r : Bool} (plain : Plain s d)
    (some : 0 < p.length) (here : UserAt s d (wrap va))
    (rest : Copying (s.setPage (frame s d (wrap va)) ((s.page (frame s d (wrap va))).write
      (va % PGSIZE) (p.take (PGSIZE - va % PGSIZE)))) d (va + (PGSIZE - va % PGSIZE))
      (p.drop (PGSIZE - va % PGSIZE)) r s') : Copying s d va p r s' := by
  obtain ⟨-, -, entries⟩ := plain.next here
    ((s.page (frame s d (wrap va))).write (va % PGSIZE) (p.take (PGSIZE - va % PGSIZE)))
  set v := frame s d (wrap va) with hv
  set n := PGSIZE - va % PGSIZE with hn
  set s₁ := s.setPage v ((s.page v).write (va % PGSIZE) (p.take n)) with hs₁
  have user := userAt_congr entries
  have frames := frame_congr entries
  have first {j : ℕ} (low : va + p.length ≤ 2 ^ 32) (hj : j < p.length) (here : j < n) :
      frame s d (va + j) = v := by
    rw [← wrap_of_lt (show va + j < 2 ^ 32 by omega), frame_same_page here]
  have ends (low : va + p.length ≤ 2 ^ 32) : va + n + (p.drop n).length ≤ 2 ^ 32 := by
    rw [List.length_drop, hn]
    simp only [PGSIZE]
    omega
  -- the rest of the loop does not come back to this page
  have kept (low : va + p.length ≤ 2 ^ 32) : s'.page v = s₁.page v := by
    by_contra changed
    obtain ⟨j, hj, userJ, frameJ⟩ := rest.user v changed
    rw [List.length_drop] at hj
    rw [user] at userJ
    rw [frames] at frameJ
    have same := plain.apart _ _ userJ here frameJ
    have next := (next_page va).1
    rw [← hn] at next
    simp only [wrap, PGSIZE] at same next
    omega
  refine ⟨?_, fun low yes j hj => ?_, fun low yes w k out => ?_, fun w changed => ?_, rest.rest⟩
  · rw [rest.ok]
    constructor
    · intro all j hj
      by_cases low : j < n
      · rwa [userAt_same_page low]
      have := all (j - n) (by rw [List.length_drop]; omega)
      rwa [user, show va + n + (j - n) = va + j by omega] at this
    intro all j hj
    rw [List.length_drop] at hj
    rw [user, Nat.add_assoc]
    exact all (n + j) (by omega)
  · by_cases near : j < n
    · have len : j < (p.take n).length := by
        rw [List.length_take]
        omega
      rw [first low hj near, kept low, hs₁, page_setPage_self, (same_page near).2,
        Bytes.byte_write_of_mem _ (by omega) len, List.getElem_take]
    have len : j - n < (p.drop n).length := by
      rw [List.length_drop]
      omega
    have := rest.bytes (ends low) yes (j - n) len
    rw [frames, show va + n + (j - n) = va + j by omega, List.getElem_drop] at this
    simpa only [show n + (j - n) = j by omega] using this
  · rw [rest.others (ends low) yes w k fun j hj same => ?_]
    · by_cases hw : w = v
      · subst w
        rw [hs₁, page_setPage_self]
        apply Bytes.byte_write_of_notMem
        by_contra inside
        rw [List.length_take] at inside
        apply out (k - va % PGSIZE) (by omega)
        rw [first low (by omega) (by omega), (same_page (show k - va % PGSIZE < n by omega)).2]
        exact ⟨rfl, by omega⟩
      · rw [hs₁, page_setPage_of_ne s hw]
    · rw [List.length_drop] at hj
      rw [frames, Nat.add_assoc] at same
      exact out (n + j) (by omega) same
  · by_cases hw : w = v
    · exact ⟨0, some, here, hw.symm⟩
    rw [← page_setPage_of_ne s hw ((s.page v).write (va % PGSIZE) (p.take n))] at changed
    obtain ⟨j, hj, userJ, frameJ⟩ := rest.user w changed
    rw [List.length_drop] at hj
    rw [user] at userJ
    rw [frames] at frameJ
    exact ⟨n + j, by omega, by rwa [← Nat.add_assoc], by rwa [← Nat.add_assoc]⟩

theorem Copying.nil : Copying s d va [] true s :=
  ⟨by simp, fun _ _ j hj => absurd hj (Nat.not_lt_zero j), fun _ _ _ _ _ => rfl,
    fun _ ne => absurd rfl ne, rfl, rfl, rfl, rfl⟩

theorem Copying.stop {p : List Byte} (some : 0 < p.length) (no : ¬ UserAt s d (wrap va)) :
    Copying s d va p false s :=
  ⟨⟨by simp, fun all => absurd (all 0 some) no⟩, by simp, by simp, fun _ ne => absurd rfl ne,
    rfl, rfl, rfl, rfl⟩

section Turn

variable {fuel : ℕ} {p : List Byte} {Q : Bool → Phys → Prop} {E : Fault → Phys → Prop}
  (plain : Plain s d) (more : p ≠ [])
include plain more

/-- A turn of the loop at a page for the user. -/
theorem wp_copyoutLoop_user (here : UserAt s d (wrap va)) :
    wp (copyoutLoop d (fuel + 1) (va / PGSIZE % 2 ^ 20) (va % PGSIZE) p) Q E s ↔
      wp (copyoutLoop d fuel ((va + (PGSIZE - va % PGSIZE)) / PGSIZE % 2 ^ 20)
        ((va + (PGSIZE - va % PGSIZE)) % PGSIZE) (p.drop (PGSIZE - va % PGSIZE))) Q E
        (s.setPage (frame s d (wrap va)) ((s.page (frame s d (wrap va))).write (va % PGSIZE)
          (p.take (PGSIZE - va % PGSIZE)))) := by
  obtain ⟨low, t, ht⟩ := found_of_present here.1
  have writes := (plain.ram _ here).1
  have there : (present (pte s d (wrap va / PGSIZE)) && forUser (pte s d (wrap va / PGSIZE)) &&
      PTE_ADDR (pte s d (wrap va / PGSIZE)) ≠ 0x80000) = true := by
    have : PTE_ADDR (pte s d (wrap va / PGSIZE)) < 0xE000 := writes.1
    simp only [Bool.and_eq_true, decide_eq_true_eq]
    exact ⟨here, by omega⟩
  rw [copyoutLoop, if_neg more, wp_bind, (page_wrap va).1,
    wp_uva2ka plain.dir low ht (plain.small _ t ht), there, if_pos rfl]
  dsimp only
  rw [wp_bind]
  change wp (memmove (frame s d (wrap va)) _ _) _ _ s ↔ _
  rw [wp_memmove writes, (next_page va).1, (next_page va).2]
  have next : (wrap va / PGSIZE + 1) % 2 ^ 20 = (va / PGSIZE + 1) % 2 ^ 20 := by
    simp only [wrap, PGSIZE]
    omega
  rw [next]

theorem wp_copyoutLoop_stop {t : ℕ} (no : ¬ UserAt s d (wrap va))
    (ht : table s d (PDX (wrap va / PGSIZE)) = some t) :
    wp (copyoutLoop d (fuel + 1) (va / PGSIZE % 2 ^ 20) (va % PGSIZE) p) Q E s ↔ Q false s := by
  have none : (present (pte s d (wrap va / PGSIZE)) && forUser (pte s d (wrap va / PGSIZE)) &&
      PTE_ADDR (pte s d (wrap va / PGSIZE)) ≠ 0x80000) = false := by
    rw [← Bool.not_eq_true]
    intro all
    simp only [Bool.and_eq_true] at all
    exact no all.1
  rw [copyoutLoop, if_neg more, wp_bind, (page_wrap va).1,
    wp_uva2ka plain.dir (page_wrap va).2 ht (plain.small _ t ht), none, if_neg (by decide)]
  exact Iff.rfl

/-- Without a page table, and nothing mapped at address 0. -/
theorem wp_copyoutLoop_null (none : table s d (PDX (wrap va / PGSIZE)) = none)
    (unmapped : ¬ s.cr3 < topPage) :
    wp (copyoutLoop d (fuel + 1) (va / PGSIZE % 2 ^ 20) (va % PGSIZE) p) Q E s ↔
      E (.panic "trap") s := by
  rw [copyoutLoop, if_neg more, wp_bind, (page_wrap va).1, uva2ka, wp_bind, wp_walk plain.dir, none]
  simp only [Option.map_none, nullEntry, walkpgdir, load, readPage, wp_bind, wp_get,
    if_neg unmapped, wp_throw]

end Turn

theorem copyoutLoop_spec : ∀ (fuel va : ℕ) (p : List Byte) (s : Phys), p.length ≤ fuel →
    Plain s d → (∀ j < p.length, (∀ i < j, UserAt s d (wrap (va + i))) →
      ∃ t, table s d (PDX (wrap (va + j) / PGSIZE)) = some t) →
    wp (copyoutLoop d fuel (va / PGSIZE % 2 ^ 20) (va % PGSIZE) p) (Copying s d va p) never s
  | 0, va, p, s, enough, _, _ => by
      obtain rfl : p = [] := List.eq_nil_of_length_eq_zero (by omega)
      exact Copying.nil
  | fuel + 1, va, p, s, enough, plain, found => by
      by_cases none : p = []
      · subst none
        rw [copyoutLoop, if_pos rfl, wp_pure]
        exact Copying.nil
      have some : 0 < p.length := List.length_pos_iff.2 none
      by_cases here : UserAt s d (wrap va)
      swap
      · obtain ⟨t, ht⟩ := found 0 some fun i hi => absurd hi (Nat.not_lt_zero i)
        rw [wp_copyoutLoop_stop plain none here ht]
        exact Copying.stop some here
      obtain ⟨plain', dirs, entries⟩ := plain.next here
        ((s.page (frame s d (wrap va))).write (va % PGSIZE) (p.take (PGSIZE - va % PGSIZE)))
      have pos : 0 < PGSIZE - va % PGSIZE := Nat.sub_pos_of_lt (Nat.mod_lt _ (by decide))
      rw [wp_copyoutLoop_user plain none here]
      apply wp_imp _ fun r s' => Copying.cons plain some here
      apply copyoutLoop_spec fuel _ _ _ (by rw [List.length_drop]; omega) plain'
      intro j hj before
      rw [List.length_drop] at hj
      rw [dirs, Nat.add_assoc]
      apply found _ (by omega)
      intro i hi
      by_cases near : i < PGSIZE - va % PGSIZE
      · rwa [userAt_same_page near]
      have := before (i - (PGSIZE - va % PGSIZE)) (by omega)
      rwa [userAt_congr entries, Nat.add_assoc, Nat.add_sub_cancel' (by omega)] at this

theorem copyoutLoop_null {fuel j : ℕ} {p : List Byte} (enough : p.length ≤ fuel) (plain : Plain s d)
    (unmapped : ¬ s.cr3 < topPage) (hj : j < p.length)
    (before : ∀ i < j, UserAt s d (wrap (va + i)))
    (absent : table s d (PDX (wrap (va + j) / PGSIZE)) = none) :
    wp (copyoutLoop d fuel (va / PGSIZE % 2 ^ 20) (va % PGSIZE) p) (fun _ _ => False) anyStop s := by
  induction fuel generalizing va p s j with
  | zero => omega
  | succ fuel ih =>
    have some : p ≠ [] := List.length_pos_iff.1 (by omega)
    by_cases near : j < PGSIZE - va % PGSIZE
    · rw [(same_page near).1] at absent
      rw [wp_copyoutLoop_null plain some absent unmapped]
      trivial
    have pos : 0 < PGSIZE - va % PGSIZE := Nat.sub_pos_of_lt (Nat.mod_lt _ (by decide))
    have here : UserAt s d (wrap va) := before 0 (by omega)
    obtain ⟨plain', dirs, entries⟩ := plain.next here
      ((s.page (frame s d (wrap va))).write (va % PGSIZE) (p.take (PGSIZE - va % PGSIZE)))
    rw [wp_copyoutLoop_user plain some here]
    refine ih (by rw [List.length_drop]; omega) plain' unmapped
      (j := j - (PGSIZE - va % PGSIZE)) (by rw [List.length_drop]; omega) (fun i hi => ?_) ?_
    · rw [userAt_congr entries, Nat.add_assoc]
      exact before _ (by omega)
    · rwa [dirs, Nat.add_assoc, Nat.add_sub_cancel' (by omega)]

end Walk

theorem copyout_eq_loop (d : ℕ) (va : Word) (p : List Byte) : copyout d va p =
    copyoutLoop d p.length (va.toNat / PGSIZE % 2 ^ 20) (va.toNat % PGSIZE) p := by
  have page : va.toNat / PGSIZE < 2 ^ 20 := by
    have := va.isLt
    simp only [PGSIZE]
    omega
  rw [copyout, Nat.mod_eq_of_lt page]

/-- A range that goes past the end of the address space has bytes that are not there. -/
theorem Copying.copiesOut {s s' : Phys} {d va : ℕ} {p : List Byte} {r : Bool} (h : Copying s d va p r s')
    (stops : va + p.length ≤ 2 ^ 32 ∨ ∃ j < p.length, ¬ UserAt s d (wrap (va + j))) :
    CopiesOut s d va p r s' := by
  have user (v : ℕ) (changed : s'.page v ≠ s.page v) : ∃ x, UserAt s d x ∧ frame s d x = v := by
    obtain ⟨j, -, found⟩ := h.user v changed
    exact ⟨_, found⟩
  by_cases low : va + p.length ≤ 2 ^ 32
  · refine ⟨h.ok.trans ?_, h.bytes low, h.others low, user, h.rest⟩
    exact forall₂_congr fun j hj => by rw [wrap_of_lt (by omega)]
  obtain ⟨j, hj, no⟩ := stops.resolve_left low
  have failed : ¬ r = true := fun yes => no (h.ok.1 yes j hj)
  refine ⟨⟨fun yes => absurd yes failed, fun all => ?_⟩, fun yes => absurd yes failed,
    fun yes => absurd yes failed, user, h.rest⟩
  have := (all (p.length - 1) (by omega)).lt
  omega

theorem Walkable.copyout_spec {s : Phys} {d : ℕ} {va : Word} {p : List Byte} (plain : Plain s d)
    (walk : Walkable s d va.toNat p.length) :
    wp (copyout d va p) (CopiesOut s d va.toNat p) never s := by
  rw [copyout_eq_loop]
  apply wp_imp (copyoutLoop_spec p.length va.toNat p s (Nat.le_refl _) plain walk.table)
  exact fun r s' copying => copying.copiesOut walk.stops

/-! ## Address spaces that the kernel has built -/

section Built

variable {R hand : Multiset ℕ} {s₀ s : Phys} {d va n : ℕ} {m : Space}

/-- No entry of the kernel part is for the user. -/
def Space.Guarded (m : Space) : Prop := ∀ a, userPages ≤ a → forUser (m.kernel a) = false

variable (h : Owns R s₀ d hand m s) (guarded : m.Guarded)
include h guarded

theorem Owns.user_of_userAt {x : ℕ} (user : UserAt s d x) : x / PGSIZE < userPages ∧
      m.user (x / PGSIZE) = some (pte s d (x / PGSIZE), s.page (frame s d x)) := by
  have low : x / PGSIZE < userPages := by
    by_contra high
    have := guarded (x / PGSIZE) (by omega)
    rw [h.pte_kernel (by omega), user.2] at this
    cases this
  refine ⟨low, ?_⟩
  rw [h.pte_user low, leafOf, if_pos user.1]
  rfl

theorem Owns.frame_mem {x : ℕ} (user : UserAt s d x) : frame s d x ∈ m.pages :=
  mem_pages_of_user (h.user_of_userAt guarded user).1 (h.user_of_userAt guarded user).2

theorem Owns.frame_inj {x y : ℕ} (userX : UserAt s d x) (userY : UserAt s d y)
    (same : frame s d x = frame s d y) : x / PGSIZE = y / PGSIZE := by
  have leaf {x : ℕ} (user : UserAt s d x) : m.leaf (x / PGSIZE) = some (frame s d x) := by
    rw [Space.leaf, (h.user_of_userAt guarded user).2]
    rfl
  have pages := h.pages_nodup
  rw [Space.pages] at pages
  exact held_place pages (Finset.mem_range.2 (h.user_of_userAt guarded userX).1)
    (Finset.mem_range.2 (h.user_of_userAt guarded userY).1)
    ((leaf userX).trans (congrArg some same)) (leaf userY)

theorem Owns.plain : Plain s d := by
  refine ⟨h.lt_top h.dir_mem, fun i t ht => h.lt_top (h.table_mem ht), fun x user => ?_,
    fun x y userX userY same => h.frame_inj guarded userX userY same⟩
  have page := h.frame_mem guarded user
  refine ⟨h.writable (h.page_mem page), fun eq => ?_, fun isTable => ?_⟩
  · exact h.dir_notMem.2 (eq ▸ page)
  · exact h.table_notMem isTable page

end Built

/-- Whatever the address space in use has at address 0, `copyout` writes the range if all its pages
are for the user, and otherwise returns -1 with only user pages written, without a trap: just if it
comes to no page without a page table, and not from the last address to address 0 and to the end of
the bytes. -/
theorem copyout_user_pages (s : Phys) (pgdir : ℕ) (va : Word) (p : List Byte)
    (plain : Plain s pgdir) :
    (∀ c, wp (copyout pgdir va p) (CopiesOut { s with cr3 := c } pgdir va.toNat p)
      (fun _ _ => False) { s with cr3 := c }) ↔ Walkable s pgdir va.toNat p.length := by
  have plainOf (c : ℕ) : Plain { s with cr3 := c } pgdir :=
    ⟨plain.dir, plain.small, plain.ram, plain.apart⟩
  refine ⟨fun copies => ?_, fun walk c => ?_⟩
  · have found (j : ℕ) (hj : j < p.length)
        (before : ∀ i < j, UserAt s pgdir (wrap (va.toNat + i))) :
        ∃ t, table s pgdir (PDX (wrap (va.toNat + j) / PGSIZE)) = some t := by
      rw [← Option.ne_none_iff_exists']
      intro none
      -- with no directory in use, the null pointer is a trap
      have copy := copies topPage
      rw [copyout_eq_loop] at copy
      exact wp_false (wp_mono (wp_and copy (copyoutLoop_null (Nat.le_refl _) (plainOf topPage)
        (Nat.lt_irrefl _) hj before none)) (fun _ _ h => h.2) fun _ _ h => h.1)
    refine ⟨found, ?_⟩
    by_contra wraps
    push Not at wraps
    have copy := copies s.cr3
    rw [copyout_eq_loop] at copy
    refine wp_false (wp_mono (wp_and copy (copyoutLoop_spec p.length va.toNat p _ (Nat.le_refl _)
      (plainOf s.cr3) found)) (fun r s' h => ?_) fun _ _ h => h.1)
    have all := h.1.ok.1 (h.2.ok.2 wraps.2)
    have := (all (p.length - 1) (by omega)).lt
    omega
  · exact Walkable.copyout_spec (plainOf c) ⟨walk.table, walk.stops⟩

theorem copyout_user_pages_two : Plain (pageTask 2).mem 0x401 ∧
    ∀ c, wp (copyout 0x401 8 [0x41, 0x42])
      (CopiesOut { (pageTask 2).mem with cr3 := c } 0x401 8 [0x41, 0x42]) (fun _ _ => False)
      { (pageTask 2).mem with cr3 := c } := by
  have there : table (pageTask 2).mem 0x401 0 = some 0x403 := by decide +kernel
  obtain ⟨s, parts, sound, -, kernel⟩ := exists_pageTask (by decide) bareTask_grows.1
  rw [parts] at there ⊢
  have own := sound.owns
  have guarded : (space s 0x401).Guarded := by
    intro a _
    rw [kernel]
    show forUser 0 = false
    decide
  have plain := own.plain guarded
  refine ⟨plain, (copyout_user_pages s 0x401 8 [0x41, 0x42] plain).2 ⟨?_, .inl (by decide)⟩⟩
  intro j hj _
  have two : j < 2 := hj
  have first : wrap (8 + j) / PGSIZE = 0 := by
    simp only [wrap, PGSIZE]
    omega
  refine ⟨0x403, ?_⟩
  show table _ _ (PDX (wrap (8 + j) / PGSIZE)) = _
  rw [first]
  exact there

/-! ## A null pointer to an entry -/

/-- The caller's first page begins with `0x504005`; page `0x401` is a directory without page tables.
-/
def nullMemory : Phys :=
  let s : Phys :=
    { freelist := [], page := fun _ => .zero, kdata := 0x108, kend := 0x400, cr3 := 0x501 }
  ((s.setEntry 0x501 0 0x502007).setEntry 0x502 0 0x503007).setEntry 0x503 0 0x504005

/-- Without a page table, `copyout` writes where the caller's first word points. -/
theorem copyout_follows_null :
    table nullMemory 0x401 (PDX (0xFDFFFFFC / PGSIZE)) = none ∧
    ¬ UserAt nullMemory 0x401 0xFDFFFFFC ∧
    (exec (copyout 0x401 0xFDFFFFFC [0x41]) nullMemory).1 = .ok true ∧
    (nullMemory.page 0x504).byte 0xFFC = 0 ∧
    ((exec (copyout 0x401 0xFDFFFFFC [0x41]) nullMemory).2.page 0x504).byte 0xFFC = 0x41 := by
  decide +kernel

end Xv6.Mem
