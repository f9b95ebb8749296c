import Xv6.Mem.Physical
import Xv6.Lib.Held

/-!
# Address spaces

What a page directory says, as a map: `space s d` gives for every virtual page its entry, with the
contents of the page behind it in the user part.  The lemmas say how a change of one physical page
shows in the map.
-/

namespace Xv6.Mem

open Lib Function

variable {s s' : Phys} {e f : Word} {a d v : ℕ}

/-! ## Entries -/

theorem present_eq (e : Word) : present e = e.getLsbD 0 := by
  rw [present, PTE_P, show (0x001 : Word) = BitVec.twoPow 32 0 from rfl, BitVec.and_twoPow]
  cases e.getLsbD 0 <;> decide

theorem forUser_eq (e : Word) : forUser e = e.getLsbD 2 := by
  rw [forUser, PTE_U, show (0x004 : Word) = BitVec.twoPow 32 2 from rfl, BitVec.and_twoPow]
  cases e.getLsbD 2 <;> decide

theorem toNat_entry (small : v < 2 ^ 20) (flags : f.toNat < PGSIZE) :
    (V2P v ||| f).toNat = v * PGSIZE + f.toNat := by
  have bits : f.toNat < 2 ^ 12 := flags
  have fits : v * 2 ^ 12 < 2 ^ 32 := by omega
  rw [V2P, BitVec.toNat_or, BitVec.toNat_ofNat, show PGSIZE = 2 ^ 12 from rfl,
    Nat.mod_eq_of_lt fits, ← Nat.shiftLeft_eq, Nat.shiftLeft_add_eq_or_of_lt bits]

theorem PTE_ADDR_entry (small : v < 2 ^ 20) (flags : f.toNat < PGSIZE) :
    PTE_ADDR (V2P v ||| f) = v := by
  rw [PTE_ADDR, toNat_entry small flags, Nat.mul_comm, Nat.mul_add_div (by decide),
    Nat.div_eq_of_lt flags, Nat.add_zero]

theorem present_or_P (e : Word) : present (e ||| PTE_P) = true := by
  rw [present_eq, BitVec.getLsbD_or, show PTE_P.getLsbD 0 = true from rfl, Bool.or_true]

theorem getLsbD_V2P (v : ℕ) {k : ℕ} (low : k < 12) : (V2P v).getLsbD k = false := by
  rw [V2P, BitVec.getLsbD_ofNat, Nat.mul_comm, show PGSIZE = 2 ^ 12 from rfl,
    Nat.testBit_two_pow_mul]
  simp [show ¬ 12 ≤ k by omega]

/-- The page of an entry with `PTE_P`. -/
def leafOf (e : Word) : Option ℕ := if present e then some (PTE_ADDR e) else none

theorem leafOf_eq_some : leafOf e = some v ↔ present e = true ∧ PTE_ADDR e = v := by
  unfold leafOf
  split <;> simp_all

theorem leafOf_of_not_present (h : present e = false) : leafOf e = none := by
  rw [leafOf, h]
  rfl

theorem leafOf_entry (small : v < 2 ^ 20) (flags : f.toNat < PGSIZE) (there : f.getLsbD 0 = true) :
    leafOf (V2P v ||| f) = some v := by
  rw [leafOf_eq_some, PTE_ADDR_entry small flags, present_eq, BitVec.getLsbD_or, there]
  exact ⟨Bool.or_true _, rfl⟩

theorem word_write (c : Contents) (i j : Fin NPDENTRIES) (e : Word) :
    (c.write (4 * i) (leBytes e)).word (4 * j) = if j = i then e else c.word (4 * j) := by
  split
  · subst j
    have hi : i.val < 1024 := i.isLt
    exact c.word_write_self (show 4 * i.val + 4 ≤ 4096 by omega) e
  have hne : j.val ≠ i.val := fun h => by simp_all [Fin.ext_iff]
  apply c.word_write_of_notMem
  rw [length_leBytes]
  omega

/-! ## The map -/

/-- The page table for the `i`-th part of the address space. -/
def table (s : Phys) (d : ℕ) (i : Fin NPDENTRIES) : Option ℕ :=
  leafOf ((s.page d).word (4 * i))

/-- The entry for virtual page `a`, 0 where there is no page table. -/
def pte (s : Phys) (d : ℕ) (a : ℕ) : Word :=
  if a < 2 ^ 20 then (table s d (PDX a)).elim 0 fun t => (s.page t).word (4 * PTX a) else 0

theorem pte_of_table {t : ℕ} (ha : a < 2 ^ 20) (ht : table s d (PDX a) = some t) :
    pte s d a = (s.page t).word (4 * PTX a) := by
  rw [pte, if_pos ha, ht, Option.elim]

theorem pte_of_no_table (ht : table s d (PDX a) = none) : pte s d a = 0 := by
  rw [pte, ht]
  split <;> rfl

theorem found_of_present (there : present (pte s d a) = true) :
    a < 2 ^ 20 ∧ ∃ t, table s d (PDX a) = some t := by
  unfold pte at there
  split at there
  case isFalse => exact absurd there (by decide)
  case isTrue low =>
    cases ht : table s d (PDX a) with
    | none =>
      rw [ht, Option.elim] at there
      exact absurd there (by decide)
    | some t => exact ⟨low, t, rfl⟩

abbrev userPages : ℕ := 0x80000

/-- What a page directory says. -/
@[ext] structure Space where
  /-- The entry of a page below `KERNBASE`, and what the page contains. -/
  user : ℕ → Option (Word × Contents)
  kernel : ℕ → Word

def space (s : Phys) (d : ℕ) : Space where
  user := fun a =>
    if a < userPages then (leafOf (pte s d a)).map fun v => (pte s d a, s.page v) else none
  kernel := fun a => if a < userPages then 0 else pte s d a

def Space.setUser (m : Space) (a : ℕ) (x : Option (Word × Contents)) : Space :=
  ⟨update m.user a x, m.kernel⟩

def Space.setKernel (m : Space) (a : ℕ) (e : Word) : Space :=
  ⟨m.user, update m.kernel a e⟩

section Set

variable (m : Space) {a b : ℕ}

@[simp] theorem Space.user_setUser_self (x : Option (Word × Contents)) :
    (m.setUser a x).user a = x := by
  simp only [Space.setUser, update_self]

@[simp] theorem Space.user_setUser_of_ne (h : b ≠ a) (x : Option (Word × Contents)) :
    (m.setUser a x).user b = m.user b := by
  simp only [Space.setUser, update_of_ne h]

@[simp] theorem Space.kernel_setUser (x : Option (Word × Contents)) :
    (m.setUser a x).kernel = m.kernel := rfl

@[simp] theorem Space.kernel_setKernel_self (e : Word) : (m.setKernel a e).kernel a = e := by
  simp only [Space.setKernel, update_self]

@[simp] theorem Space.kernel_setKernel_of_ne (h : b ≠ a) (e : Word) :
    (m.setKernel a e).kernel b = m.kernel b := by
  simp only [Space.setKernel, update_of_ne h]

@[simp] theorem Space.user_setKernel (e : Word) : (m.setKernel a e).user = m.user := rfl

end Set

def Space.leaf (m : Space) (a : ℕ) : Option ℕ := (m.user a).map fun x => PTE_ADDR x.1

def Space.pages (m : Space) : Multiset ℕ := held (Finset.range userPages) m.leaf

def tables (s : Phys) (d : ℕ) : Multiset ℕ := held Finset.univ (table s d)

theorem leaf_space (ha : a < userPages) : (space s d).leaf a = leafOf (pte s d a) := by
  simp only [Space.leaf, space, ha, if_true, Option.map_map]
  cases h : leafOf (pte s d a) with
  | none => rfl
  | some v => simp [(leafOf_eq_some.1 h).2]

theorem space_user (ha : a < userPages) :
    (space s d).user a = (leafOf (pte s d a)).map fun v => (pte s d a, s.page v) :=
  if_pos ha

theorem space_user_eq_some {c : Contents} :
    (space s d).user a = some (e, c) ↔
      a < userPages ∧ pte s d a = e ∧ present e = true ∧ s.page (PTE_ADDR e) = c := by
  by_cases ha : a < userPages
  · rw [space_user ha]
    unfold leafOf
    split <;> simp_all
    · rintro rfl
      simp_all
    rintro rfl
    simp_all
  · simp [space, ha]

theorem mem_pages {m : Space} : v ∈ m.pages ↔ ∃ a < userPages, m.leaf a = some v := by
  simp [Space.pages, mem_held]

theorem mem_tables {t : ℕ} : t ∈ tables s d ↔ ∃ i, table s d i = some t := by
  simp [tables, mem_held]

/-! ## A page that is not part of the address space -/

theorem page_setPage_self (s : Phys) (v : ℕ) (c : Contents) : (s.setPage v c).page v = c := by
  simp only [Phys.setPage, update_self]

theorem page_setPage_of_ne (s : Phys) {w : ℕ} (h : w ≠ v) (c : Contents) :
    (s.setPage v c).page w = s.page w := by
  simp only [Phys.setPage, update_of_ne h]

section Outside

variable {s : Phys} {d v : ℕ}

theorem table_setPage (hd : v ≠ d) (c : Contents) : table (s.setPage v c) d = table s d := by
  funext i
  rw [table, page_setPage_of_ne s (Ne.symm hd), table]

theorem pte_setPage (hd : v ≠ d) (ht : v ∉ tables s d) (c : Contents) :
    pte (s.setPage v c) d = pte s d := by
  funext a
  unfold pte
  rw [table_setPage hd]
  cases h : table s d (PDX a) with
  | none => simp
  | some t =>
    have ne : t ≠ v := by
      rintro rfl
      exact ht (mem_tables.2 ⟨_, h⟩)
    simp only [Option.elim, page_setPage_of_ne s ne]

theorem pte_congr (dir : s'.page d = s.page d) (same : ∀ t ∈ tables s d, s'.page t = s.page t) :
    table s' d = table s d ∧ pte s' d = pte s d := by
  have tab : table s' d = table s d := by
    funext i
    rw [table, table, dir]
  refine ⟨tab, ?_⟩
  funext a
  unfold pte
  rw [tab]
  cases h : table s d (PDX a) with
  | none => simp
  | some t => simp only [Option.elim, same t (mem_tables.2 ⟨_, h⟩)]

theorem space_congr (entries : pte s' d = pte s d)
    (same : ∀ v ∈ (space s d).pages, s'.page v = s.page v) : space s' d = space s d := by
  ext1
  · funext a
    by_cases ha : a < userPages
    · rw [space_user ha, space_user ha, entries]
      cases h : leafOf (pte s d a) with
      | none => rfl
      | some w =>
        have used : w ∈ (space s d).pages := mem_pages.2 ⟨a, ha, by rw [leaf_space ha, h]⟩
        rw [Option.map_some, Option.map_some, same w used]
    · simp only [space, ha, if_false]
  · simp only [space, entries]

theorem space_setPage (hd : v ≠ d) (ht : v ∉ tables s d) (hv : v ∉ (space s d).pages)
    (c : Contents) : space (s.setPage v c) d = space s d := by
  apply space_congr (pte_setPage hd ht c)
  intro w hw
  apply page_setPage_of_ne
  rintro rfl
  exact hv hw

end Outside

/-! ## Changes of the tables -/

theorem pdx_ptx {b : ℕ} (ha : a < 2 ^ 20) (hb : b < 2 ^ 20) (dir : PDX a = PDX b)
    (tab : PTX a = PTX b) : a = b := by
  have h₁ := congrArg Fin.val dir
  have h₂ := congrArg Fin.val tab
  simp only [PDX, PTX, Fin.ofNat, NPDENTRIES] at h₁ h₂
  omega

def Phys.setEntry (s : Phys) (v : ℕ) (i : Fin NPDENTRIES) (e : Word) : Phys :=
  s.setPage v ((s.page v).write (4 * i) (leBytes e))

section Table

variable {s : Phys} {d t : ℕ} {i : Fin NPDENTRIES} {e : Word}

theorem word_setEntry (j : Fin NPDENTRIES) :
    ((s.setEntry t i e).page t).word (4 * j) =
      if j = i then e else (s.page t).word (4 * j) := by
  rw [Phys.setEntry, page_setPage_self, word_write]

theorem table_setEntry : table (s.setEntry d i e) d = update (table s d) i (leafOf e) := by
  funext j
  rw [table, word_setEntry]
  by_cases h : j = i
  · rw [if_pos h, h, update_self]
  · rw [if_neg h, update_of_ne h, table]

/-- There is no page table for the addresses between the end of memory and the devices. -/
def Gap (s : Phys) (d : ℕ) : Prop :=
  ∀ i : Fin NPDENTRIES, 0x238 ≤ i.val → i.val < 0x3F8 → table s d i = none

theorem Gap.setEntry (h : Gap s d) (hd : t ≠ d) (i : Fin NPDENTRIES) (e : Word) :
    Gap (s.setEntry t i e) d := by
  intro j lo hi
  rw [Phys.setEntry, table_setPage hd]
  exact h j lo hi

theorem Gap.walked (h : Gap s d) (others : ∀ i ≠ PDX a, table s' d i = table s d i)
    (out : a < 0x8E000 ∨ 0xFE000 ≤ a ∧ a < 2 ^ 20) : Gap s' d := by
  intro j lo hi
  rw [others j, h j lo hi]
  rintro rfl
  have place : (PDX a).val = a / 1024 % 1024 := rfl
  omega

/-- Page tables have only been added, and none in the gap. -/
structure Tabled (d : ℕ) (s s' : Phys) : Prop where
  kept : ∀ i t, table s d i = some t → table s' d i = some t
  gap : Gap s d → Gap s' d

theorem Tabled.of_eq (same : table s' d = table s d) : Tabled d s s' where
  kept i t ht := by rw [same, ht]
  gap gap i lo hi := by rw [same, gap i lo hi]

theorem Tabled.trans {s₁ s₂ s₃ : Phys} (h : Tabled d s₁ s₂) (h' : Tabled d s₂ s₃) :
    Tabled d s₁ s₃ where
  kept i t ht := h'.kept i t (h.kept i t ht)
  gap gap := h'.gap (h.gap gap)

theorem pte_addTable (hd : t ≠ d) (ht : t ∉ tables s d) (dt : d ∉ tables s d)
    (absent : table s d i = none) (he : leafOf e = some t) :
    pte ((s.setPage t .zero).setEntry d i e) d = pte s d := by
  funext a
  unfold pte
  rw [table_setEntry, table_setPage hd]
  by_cases h : PDX a = i
  · rw [h, update_self, absent, he]
    simp only [Option.elim, Phys.setEntry, page_setPage_of_ne _ hd, page_setPage_self,
      Bytes.word_zero]
  rw [update_of_ne h]
  cases hb : table s d (PDX a) with
  | none => simp
  | some u =>
    have hu := mem_tables.2 ⟨_, hb⟩
    have hut : u ≠ t := by
      rintro rfl
      exact ht hu
    have hud : u ≠ d := by
      rintro rfl
      exact dt hu
    simp only [Option.elim, Phys.setEntry, page_setPage_of_ne _ hud, page_setPage_of_ne _ hut]

theorem pte_setEntry (ha : a < 2 ^ 20) (ht : table s d (PDX a) = some t) (hd : t ≠ d)
    (once : (tables s d).Nodup) : pte (s.setEntry t (PTX a) e) d = update (pte s d) a e := by
  have same : table (s.setEntry t (PTX a) e) d = table s d := table_setPage hd _
  funext b
  by_cases hb : b < 2 ^ 20
  swap
  · rw [update_of_ne (by omega), pte, pte, if_neg hb, if_neg hb]
  rw [pte, if_pos hb, same]
  by_cases hab : b = a
  · subst b
    rw [update_self, ht, Option.elim, word_setEntry, if_pos rfl]
  rw [update_of_ne hab, pte, if_pos hb]
  cases h : table s d (PDX b) with
  | none => simp
  | some u =>
    rw [Option.elim, Option.elim]
    by_cases hu : u = t
    · subst u
      -- the same table, which is in the directory once
      have dir : PDX b = PDX a := held_place once (Finset.mem_univ _) (Finset.mem_univ _) h ht
      rw [word_setEntry, if_neg fun tab => hab (pdx_ptx hb ha dir tab)]
    · rw [Phys.setEntry, page_setPage_of_ne s hu]

theorem contents_setEntry {o : Option ℕ} (off : o ≠ some t) (j : Fin NPDENTRIES) (x : Word) :
    (o.map fun v => (x, (s.setEntry t j e).page v)) = o.map fun v => (x, s.page v) := by
  refine Option.map_congr fun v mem => ?_
  have ne : v ≠ t := by
    rintro rfl
    exact off mem
  rw [Phys.setEntry, page_setPage_of_ne s ne]

theorem leaf_ne {b : ℕ} (hb : b < userPages) (apart : t ∉ (space s d).pages) :
    leafOf (pte s d b) ≠ some t :=
  fun same => apart (mem_pages.2 ⟨b, hb, by rw [leaf_space hb, same]⟩)

theorem space_setEntry_user (ha : a < userPages) (ht : table s d (PDX a) = some t) (hd : t ≠ d)
    (once : (tables s d).Nodup) (apart : t ∉ (space s d).pages) (new : leafOf e ≠ some t) :
    space (s.setEntry t (PTX a) e) d =
      (space s d).setUser a ((leafOf e).map fun v => (e, s.page v)) := by
  have small : a < 2 ^ 20 := Nat.lt_trans ha (by decide)
  have entries := pte_setEntry (e := e) small ht hd once
  ext1
  · funext b
    by_cases hb : b < userPages
    swap
    · rw [Space.user_setUser_of_ne _ (by omega)]
      simp only [space, hb, if_false]
    rw [space_user hb, entries]
    by_cases hab : b = a
    · subst b
      rw [update_self, Space.user_setUser_self, contents_setEntry new]
    rw [update_of_ne hab, Space.user_setUser_of_ne _ hab, space_user hb,
      contents_setEntry (leaf_ne hb apart)]
  · funext b
    by_cases hb : b < userPages
    · simp only [Space.kernel_setUser, space, hb, if_true]
    simp only [Space.kernel_setUser, space, hb, if_false, entries,
      update_of_ne (show b ≠ a by omega)]

theorem space_setEntry_kernel (ha : userPages ≤ a) (small : a < 2 ^ 20)
    (ht : table s d (PDX a) = some t) (hd : t ≠ d) (once : (tables s d).Nodup)
    (apart : t ∉ (space s d).pages) :
    space (s.setEntry t (PTX a) e) d = (space s d).setKernel a e := by
  have entries := pte_setEntry (e := e) small ht hd once
  ext1
  · funext b
    by_cases hb : b < userPages
    swap
    · simp only [Space.user_setKernel, space, hb, if_false]
    rw [Space.user_setKernel, space_user hb, space_user hb, entries, update_of_ne (by omega),
      contents_setEntry (leaf_ne hb apart)]
  funext b
  by_cases hb : b < userPages
  · rw [Space.kernel_setKernel_of_ne _ (by omega)]
    simp only [space, hb, if_true]
  by_cases hab : b = a
  · subst b
    rw [Space.kernel_setKernel_self]
    simp only [space, hb, if_false, entries, update_self]
  rw [Space.kernel_setKernel_of_ne _ hab]
  simp only [space, hb, if_false, entries, update_of_ne hab]

theorem pages_update {m : Space} (ha : a < userPages) (x : Option (Word × Contents)) :
    (m.setUser a x).pages + ((m.leaf a).toList : Multiset ℕ) =
      m.pages + ((x.map fun y => PTE_ADDR y.1).toList : Multiset ℕ) := by
  have leaf : (m.setUser a x).leaf = update m.leaf a (x.map fun y => PTE_ADDR y.1) := by
    funext b
    by_cases hab : b = a
    · subst b
      rw [update_self, Space.leaf, Space.user_setUser_self]
    · rw [update_of_ne hab, Space.leaf, Space.user_setUser_of_ne _ hab, Space.leaf]
  rw [Space.pages, leaf]
  exact held_update m.leaf (Finset.mem_range.2 ha) _

end Table

end Xv6.Mem
