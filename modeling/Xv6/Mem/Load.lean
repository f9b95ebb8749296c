import Xv6.Mem.Stack

/-!
# Loading a program

Whatever a file contains, `exec` builds its image from pages that were free, maps user pages below
`KERNBASE` only and stops at no panic.
-/

namespace Xv6.Mem

open Lib

/-! ## The image while it is built -/

/-- An address space with exactly the pages below `sz`, and the kernel part. -/
structure Loaded (s : Phys) (d : ℕ) (sz : Word) : Prop where
  below : sz < KERNBASE
  mapped : ∀ a < pagesBelow sz, present (pte s d a) = true
  free : ∀ a, pagesBelow sz ≤ a → a < userPages → present (pte s d a) = false
  kernel : ∀ a, userPages ≤ a → forUser (pte s d a) = false
  devices : ∀ a, 0xFE000 ≤ a → a < 2 ^ 20 → present (pte s d a) = true

section Built

variable {R hand : Multiset ℕ} {s₀ s s' : Phys} {d : ℕ} {m m' : Space} {sz : Word}

theorem Loaded.congr (h : Loaded s d sz) (entries : pte s' d = pte s d) : Loaded s' d sz := by
  obtain ⟨below, mapped, free, kernel, devices⟩ := h
  rw [← entries] at mapped free kernel devices
  exact ⟨below, mapped, free, kernel, devices⟩

theorem Owns.user_eq_none_iff (h : Owns R s₀ d hand m s) {a : ℕ} (ha : a < userPages) :
    m.user a = none ↔ present (pte s d a) = false := by
  rw [h.pte_user ha, Option.map_eq_none_iff]
  unfold leafOf
  split <;> simp_all

theorem Loaded.grow (h : Loaded s d sz) (own : Owns R s₀ d hand m s) (own' : Owns R s₀ d hand m' s')
    {newsz : Word} (below : newsz < KERNBASE) (le : sz ≤ newsz)
    (grown : Grown (pagesBelow sz) (pagesBelow newsz) m m') : Loaded s' d newsz := by
  have pages := pagesBelow_mono (show sz.toNat ≤ newsz.toNat from le)
  have top : pagesBelow newsz ≤ userPages := pagesBelow_le_userPages (by
    have : newsz.toNat < 2 ^ 31 := below
    omega)
  refine ⟨below, fun a lt => ?_, fun a ge lt => ?_, fun a ha => ?_, fun a ge lt => ?_⟩
  · rw [← Bool.not_eq_false, ← own'.user_eq_none_iff (by omega)]
    by_cases old : a < pagesBelow sz
    · rw [grown.user a (Or.inl old), own.user_eq_none_iff (by omega), h.mapped a old]
      simp
    obtain ⟨v, fresh⟩ := grown.fresh a (by omega) lt
    simp [fresh]
  · rw [← own'.user_eq_none_iff lt, grown.user a (Or.inr ge), own.user_eq_none_iff lt]
    exact h.free a (by omega) lt
  · rw [← own'.pte_kernel ha, grown.kernel, own.pte_kernel ha]
    exact h.kernel a ha
  · have ha : userPages ≤ a := Nat.le_trans (by decide) ge
    rw [← own'.pte_kernel ha, grown.kernel, own.pte_kernel ha]
    exact h.devices a ge lt

theorem Loaded.allocuvm_spec (h : Loaded s d sz) (own : Owns R s₀ d hand m s) (newsz : Word) :
    wp (allocuvm d sz newsz) (fun r s' => ∃ m', Owns R s₀ d hand m' s' ∧ m'.kernel = m.kernel ∧
      Tabled d s s' ∧ ((r = 0 ∧ (KERNBASE ≤ newsz ∨
          R.card ≤ hand.card + (2 + NPDENTRIES + m.pages.card + pagesBelow newsz))) ∨
        (newsz ≤ r ∧ Loaded s' d r ∧ (sz ≤ newsz → r = newsz ∧
          Grown (pagesBelow sz) (pagesBelow newsz) m m')))) never s := by
  have free : ∀ a, pagesBelow sz ≤ a → a < pagesBelow newsz → m.user a = none := by
    intro a ge _
    by_cases ha : a < userPages
    · exact (own.user_eq_none_iff ha).2 (h.free a ge ha)
    rw [← own.map]
    exact if_neg ha
  apply wp_imp (own.allocuvm_spec free)
  rintro r s' ⟨tabled, ⟨rfl, why, own'⟩ | ⟨less, rfl, rfl⟩ | ⟨below, le, rfl, m', own', grown⟩⟩
  · exact ⟨m, own', rfl, tabled, Or.inl ⟨rfl, why⟩⟩
  · refine ⟨m, own, rfl, tabled, Or.inr ⟨BitVec.le_of_lt less, h, fun le => ?_⟩⟩
    exact absurd less (BitVec.not_lt.2 le)
  exact ⟨m', own', grown.kernel, tabled,
    Or.inr ⟨BitVec.le_refl _, h.grow own own' below le grown, fun _ => ⟨rfl, grown⟩⟩⟩

/-! ## Segments -/

theorem loadLoop_spec {addr offset filesz : Word} {ip : File} :
    ∀ (is : List ℕ) (m : Space) (s : Phys),
    Owns R s₀ d hand m s → (∀ i ∈ is, addr.toNat / PGSIZE + i < userPages ∧
      present (pte s d (addr.toNat / PGSIZE + i)) = true) →
    wp (loadLoop d addr ip offset filesz is)
      (fun _ s' => pte s' d = pte s d ∧ Tabled d s s' ∧ ∃ m', Owns R s₀ d hand m' s') never s
  | [], m, s, own, _ => by
      rw [loadLoop, wp_pure]
      exact ⟨rfl, .of_eq rfl, m, own⟩
  | i :: is, m, s, own, mapped => by
      obtain ⟨user, there⟩ := mapped i List.mem_cons_self
      obtain ⟨small, t, ht⟩ := found_of_present there
      have top := own.lt_top (own.table_mem ht)
      have page : PTE_ADDR (pte s d (addr.toNat / PGSIZE + i)) ∈ m.pages := by
        apply mem_pages_of_user user
        rw [own.pte_user user, leafOf, if_pos there, Option.map_some]
      have writes := own.writable (own.page_mem page)
      rw [loadLoop, Nat.mod_eq_of_lt small, wp_bind, wp_walk (own.lt_top own.dir_mem), ht,
        Option.map_some]
      dsimp only
      rw [wp_bind, wp_load top, ← pte_of_table small ht]
      generalize PTE_ADDR (pte s d (addr.toNat / PGSIZE + i)) = v at page writes ⊢
      split
      · exact ⟨rfl, .of_eq rfl, m, own⟩
      rename_i bs _
      rw [wp_bind, wp_memmove writes]
      obtain ⟨entries, tabled, own'⟩ := own.rewritten (s.setPage v ((s.page v).write 0 bs))
        (fun w out => page_setPage_of_ne s (by rintro rfl; exact out page) _) ⟨rfl, rfl, rfl, rfl⟩
      generalize s.setPage v ((s.page v).write 0 bs) = s₁ at entries tabled own' ⊢
      rw [wp_ite, wp_pure]
      refine ⟨fun _ => ?_, fun _ => ⟨entries, tabled, _, own'⟩⟩
      apply wp_imp (loadLoop_spec is _ s₁ own' fun j hj => ?_)
      · rintro _ s' ⟨entries', tabled', own''⟩
        exact ⟨entries'.trans entries, tabled.trans tabled', own''⟩
      rw [entries]
      exact mapped j (List.mem_cons_of_mem _ hj)

theorem segment_page {vaddr filesz memsz : Word} (aligned : vaddr.toNat % PGSIZE = 0)
    (file : filesz ≤ memsz) (wrap : vaddr ≤ vaddr + memsz) {sz : Word} (le : vaddr + memsz ≤ sz)
    {i : ℕ} (hi : i < pagesBelow filesz) : vaddr.toNat / PGSIZE + i < pagesBelow sz := by
  have file : filesz.toNat ≤ memsz.toNat := file
  have wrap : vaddr.toNat ≤ (vaddr + memsz).toNat := wrap
  have le : (vaddr + memsz).toNat ≤ sz.toNat := le
  have low := vaddr.isLt
  have low' := memsz.isLt
  rw [BitVec.toNat_add] at wrap le
  unfold pagesBelow at *
  simp only [PGSIZE] at *
  omega

theorem loaduvm_spec {vaddr offset filesz memsz : Word} {ip : File} (image : Loaded s d sz)
    (own : Owns R s₀ d hand m s) (aligned : vaddr.toNat % PGSIZE = 0) (file : filesz ≤ memsz)
    (wrap : vaddr ≤ vaddr + memsz) (le : vaddr + memsz ≤ sz) :
    wp (loaduvm d vaddr ip offset filesz)
      (fun _ s' => pte s' d = pte s d ∧ Tabled d s s' ∧ ∃ m', Owns R s₀ d hand m' s') never s := by
  rw [loaduvm, if_neg (by omega)]
  apply loadLoop_spec _ m s own
  intro i hi
  have page := segment_page aligned file wrap le (List.mem_range.1 hi)
  have top : pagesBelow sz ≤ userPages := pagesBelow_le_userPages (by
    have : sz.toNat < 2 ^ 31 := image.below
    omega)
  exact ⟨by omega, image.mapped _ page⟩

theorem loadSegments_spec {ip : File} : ∀ (n : ℕ) (off sz : Word) (m : Space) (s : Phys),
    Loaded s d sz → Owns R s₀ d hand m s →
    wp (loadSegments d ip n off sz) (fun r s' => ∃ m', Owns R s₀ d hand m' s' ∧
      (∀ a, userPages ≤ a → pte s' d a = pte s d a) ∧ Tabled d s s' ∧
      ∀ sz', r = some sz' → Loaded s' d sz') never s
  | 0, off, sz, m, s, image, own => by
      rw [loadSegments, wp_pure]
      refine ⟨m, own, fun _ _ => rfl, .of_eq rfl, ?_⟩
      rintro sz' ⟨⟩
      exact image
  | n + 1, off, sz, m, s, image, own => by
      have bad : ∃ m', Owns R s₀ d hand m' s ∧ (∀ a, userPages ≤ a → pte s d a = pte s d a) ∧
          Tabled d s s ∧ ∀ sz', (none : Option Word) = some sz' → Loaded s d sz' :=
        ⟨m, own, fun _ _ => rfl, .of_eq rfl, by simp⟩
      rw [loadSegments]
      split
      · exact bad
      rename_i bs _
      dsimp only
      generalize Proghdr.ofBytes bs = ph
      rw [wp_ite, wp_ite, wp_ite, wp_ite]
      refine ⟨fun _ => bad, fun _ => ⟨fun _ => ?_, fun _ => ⟨fun _ => bad, fun file =>
        ⟨fun _ => bad, fun wrap => ?_⟩⟩⟩⟩
      · exact loadSegments_spec n _ sz m s image own
      apply wp_next (image.allocuvm_spec own _)
      rintro newsz s₁ ⟨m₁, own₁, kernel, tabled, out⟩
      have kept : ∀ a, userPages ≤ a → pte s₁ d a = pte s d a := by
        intro a ha
        rw [← own₁.pte_kernel ha, kernel, own.pte_kernel ha]
      have bad₁ : ∃ m', Owns R s₀ d hand m' s₁ ∧ (∀ a, userPages ≤ a → pte s₁ d a = pte s d a) ∧
          Tabled d s s₁ ∧ ∀ sz', (none : Option Word) = some sz' → Loaded s₁ d sz' :=
        ⟨m₁, own₁, kept, tabled, by simp⟩
      rcases out with ⟨rfl, -⟩ | ⟨le, image₁, -⟩
      · rw [if_pos rfl]
        exact bad₁
      rw [wp_ite, wp_ite]
      refine ⟨fun _ => bad₁, fun _ => ⟨fun _ => bad₁, fun aligned => ?_⟩⟩
      apply wp_next (loaduvm_spec image₁ own₁ (by simpa using aligned) (BitVec.not_lt.1 file)
        (BitVec.not_lt.1 wrap) le)
      rintro done s₂ ⟨entries, tabled₂, m₂, own₂⟩
      rw [wp_ite, wp_pure]
      refine ⟨fun _ => ?_, fun _ => ⟨m₂, own₂, fun a ha => by rw [entries, kept a ha],
        tabled.trans tabled₂, by simp⟩⟩
      apply wp_imp (loadSegments_spec n _ newsz m₂ s₂ (image₁.congr entries) own₂)
      rintro r s' ⟨m', own', kept', tabled', image'⟩
      exact ⟨m', own', fun a ha => by rw [kept' a ha, entries, kept a ha],
        (tabled.trans tabled₂).trans tabled', image'⟩

/-! ## The stack pages -/

theorem present_clear_U (e : Word) : present (e &&& ~~~PTE_U) = present e := by
  rw [present_eq, present_eq, BitVec.getLsbD_and, show (~~~PTE_U).getLsbD 0 = true from rfl,
    Bool.and_true]

theorem forUser_clear_U (e : Word) : forUser (e &&& ~~~PTE_U) = false := by
  rw [forUser_eq, BitVec.getLsbD_and, show (~~~PTE_U).getLsbD 2 = false from rfl, Bool.and_false]

theorem PTE_ADDR_clear_U (e : Word) : PTE_ADDR (e &&& ~~~PTE_U) = PTE_ADDR e := by
  apply Nat.eq_of_testBit_eq
  intro i
  rw [PTE_ADDR, PTE_ADDR, show PGSIZE = 2 ^ 12 from rfl, Nat.testBit_div_two_pow,
    Nat.testBit_div_two_pow, ← BitVec.getLsbD, ← BitVec.getLsbD, BitVec.getLsbD_and,
    BitVec.getLsbD_not]
  have high : PTE_U.getLsbD (i + 12) = false := by
    apply Nat.testBit_lt_two_pow
    exact Nat.lt_of_lt_of_le (show 4 < 2 ^ 12 by decide)
      (Nat.pow_le_pow_right (by decide) (by omega))
  by_cases low : i + 12 < 32
  · rw [high, decide_eq_true low, Bool.not_false, Bool.and_true, Bool.and_true]
  · rw [BitVec.getLsbD_of_ge e (i + 12) (by omega), Bool.false_and]

theorem Owns.clearpteu_spec (h : Owns R s₀ d hand m s) {a : ℕ} {e : Word} {c : Contents}
    (hm : m.user a = some (e, c)) :
    wp (clearpteu d a)
      (fun _ s' => (Gap s d → Gap s' d) ∧
        Owns R s₀ d hand (m.setUser a (some (e &&& ~~~PTE_U, c))) s') never s := by
  obtain ⟨ha, entry, there, contents⟩ := h.pte_of_user hm
  obtain ⟨t, ht⟩ := h.table_of_user hm
  have mem := h.table_mem ht
  have leaf : leafOf (e &&& ~~~PTE_U) = some (PTE_ADDR e) := by
    rw [leafOf_eq_some, present_clear_U, PTE_ADDR_clear_U]
    exact ⟨there, rfl⟩
  rw [clearpteu, wp_bind, wp_walk (h.lt_top h.dir_mem), ht, Option.map_some]
  dsimp only
  rw [wp_bind, wp_load (h.lt_top mem), ← pte_of_table (Nat.lt_trans ha (by decide)) ht, entry,
    wp_store (h.writable mem)]
  have apart : leafOf (e &&& ~~~PTE_U) ≠ some t := by
    rw [leaf]
    rintro eq
    injection eq with eq
    exact h.table_notMem (mem_tables.2 ⟨_, ht⟩) (eq ▸ mem_pages_of_user ha hm)
  have done : Owns R s₀ d hand _ _ := h.setEntry ha ht apart (by
    rw [leaf, Space.leaf, hm, Option.map_some])
  rw [leaf, Option.map_some, contents] at done
  exact ⟨fun gap => gap.setEntry (h.table_ne_dir ht) _ _, done⟩

theorem forUser_fresh (v : ℕ) : forUser (V2P v ||| (PTE_W ||| PTE_U) ||| PTE_P) = true := by
  rw [forUser_eq, BitVec.getLsbD_or, BitVec.getLsbD_or,
    show (PTE_W ||| PTE_U).getLsbD 2 = true from rfl, Bool.or_true, Bool.true_or]

theorem Loaded.image {m₁ m₂ : Space} {s₂ : Phys} (image : Loaded s d sz)
    (own : Owns R s₀ d hand m s) (grown : Grown (pagesBelow sz) (pagesBelow sz + 2) m m₁)
    {e : Word} {c : Contents} (own₂ : Owns R s₀ d hand m₂ s₂)
    (cleared : m₂ = m₁.setUser (pagesBelow sz) (some (e &&& ~~~PTE_U, c))) {newsz : ℕ}
    (size : newsz = (pagesBelow sz + 2) * PGSIZE) (below : newsz < 2 ^ 31) : Image s₂ d newsz := by
  have number : newsz / PGSIZE = pagesBelow sz + 2 := by
    rw [size, Nat.mul_div_cancel _ (by decide)]
  have low : pagesBelow sz + 2 < userPages := by
    simp only [PGSIZE, userPages] at *
    omega
  have kernel {a : ℕ} (ha : userPages ≤ a) : pte s₂ d a = pte s d a := by
    rw [← own₂.pte_kernel ha, cleared, Space.kernel_setUser, grown.kernel, own.pte_kernel ha]
  refine ⟨?_, ?_, below, fun a lt => ?_, ?_, ?_, fun a ha => ?_, fun a ge lt => ?_⟩
  · rw [size, Nat.mul_mod_left]
  · rw [size]
    exact Nat.mul_le_mul_right _ (by omega)
  · rw [number] at lt
    rw [← Bool.not_eq_false, ← own₂.user_eq_none_iff (by omega), cleared]
    by_cases guard : a = pagesBelow sz
    · rw [guard, Space.user_setUser_self]
      simp
    rw [Space.user_setUser_of_ne _ guard]
    by_cases old : a < pagesBelow sz
    · rw [grown.user a (Or.inl old), own.user_eq_none_iff (by omega), image.mapped a old]
      simp
    obtain ⟨v, fresh⟩ := grown.fresh a (by omega) lt
    simp [fresh]
  · have guard : m₂.user (pagesBelow sz) = some (e &&& ~~~PTE_U, c) := by
      rw [cleared, Space.user_setUser_self]
    rw [number, Nat.add_sub_cancel, (own₂.pte_of_user guard).2.1]
    exact forUser_clear_U e
  · obtain ⟨v, fresh⟩ := grown.fresh (pagesBelow sz + 1) (by omega) (by omega)
    have stack : m₂.user (pagesBelow sz + 1) =
        some (V2P v ||| (PTE_W ||| PTE_U) ||| PTE_P, Bytes.zero) := by
      rw [cleared, Space.user_setUser_of_ne _ (by omega), fresh]
    rw [number, show pagesBelow sz + 2 - 1 = pagesBelow sz + 1 by omega,
      (own₂.pte_of_user stack).2.1]
    exact forUser_fresh v
  · rw [kernel ha]
    exact image.kernel a ha
  · rw [kernel (Nat.le_trans (by decide) ge)]
    exact image.devices a ge lt

theorem Loaded.guarded (image : Loaded s d sz) (own : Owns R s₀ d hand m s) : m.Guarded := by
  intro a ha
  rw [own.pte_kernel ha]
  exact image.kernel a ha

theorem allocStack_spec (image : Loaded s d sz) (own : Owns R s₀ d hand m s) :
    wp (allocStack d sz) (fun r s' => ∃ m', Owns R s₀ d hand m' s' ∧ m'.Guarded ∧
      (r = none → 0x7FFFD000 < sz.toNat ∨
        R.card ≤ hand.card + (4 + NPDENTRIES + m.pages.card + pagesBelow sz)) ∧
      ∀ sz', r = some sz' → sz'.toNat = (pagesBelow sz + 2) * PGSIZE ∧ Image s' d sz'.toNat ∧
        (Gap s d → Gap s' d)) never s := by
  have low : sz.toNat < 2 ^ 31 := image.below
  have start : (PGROUNDUP sz).toNat = pagesBelow sz * PGSIZE := PGROUNDUP_toNat (by omega)
  have few : pagesBelow sz ≤ userPages := pagesBelow_le_userPages (by omega)
  have two : (2 * 4096 : Word).toNat = 8192 := rfl
  have back : PGROUNDUP sz + 2 * 4096 - 2 * 4096 = PGROUNDUP sz := BitVec.add_sub_cancel _ _
  have size : (PGROUNDUP sz + 2 * 4096).toNat = (pagesBelow sz + 2) * PGSIZE := by
    simp only [PGSIZE, userPages] at start few ⊢
    rw [BitVec.toNat_add, start, two]
    omega
  rw [allocStack]
  generalize PGROUNDUP sz + 2 * 4096 = newsz at back size ⊢
  generalize PGROUNDUP sz = oldsz at start back ⊢
  simp only [PGSIZE] at start size
  have same : pagesBelow oldsz = pagesBelow sz := by
    rw [pagesBelow, start]
    simp only [PGSIZE]
    omega
  have more : pagesBelow newsz = pagesBelow sz + 2 := by
    rw [pagesBelow, size]
    simp only [PGSIZE]
    omega
  have free : ∀ a, pagesBelow oldsz ≤ a → a < pagesBelow newsz → m.user a = none := by
    intro a ge _
    rw [same] at ge
    by_cases ha : a < userPages
    · exact (own.user_eq_none_iff ha).2 (image.free a ge ha)
    rw [← own.map]
    exact if_neg ha
  apply wp_next (own.allocuvm_spec free)
  rintro r s₁ ⟨tabled, ⟨rfl, why, own₁⟩ | ⟨less, -⟩ | ⟨below, -, rfl, m₁, own₁, grown⟩⟩
  · rw [if_pos rfl, wp_pure]
    refine ⟨m, own₁, image.guarded own, fun _ => why.imp (fun high => ?_) fun full => ?_, by simp⟩
    · have high : KERNBASE.toNat ≤ newsz.toNat := high
      rw [size, show KERNBASE.toNat = 2 ^ 31 from rfl] at high
      unfold pagesBelow at high
      simp only [PGSIZE] at high
      omega
    · rw [more] at full
      omega
  · have less : newsz.toNat < oldsz.toNat := less
    omega
  rw [same, more] at grown
  have ne : r ≠ 0 := by
    rintro rfl
    have : (0 : Word).toNat = 0 := rfl
    omega
  have guard : (r - 2 * 4096).toNat / PGSIZE = pagesBelow sz := by
    rw [back, start]
    simp only [PGSIZE]
    omega
  obtain ⟨v, fresh⟩ := grown.fresh (pagesBelow sz) (Nat.le_refl _) (by omega)
  rw [if_neg ne, guard]
  apply wp_next (own₁.clearpteu_spec fresh)
  rintro _ s₂ ⟨gap₂, own₂⟩
  have done := image.image own grown own₂ rfl size below
  refine ⟨_, own₂, done.guarded own₂, by simp, ?_⟩
  rintro sz' ⟨⟩
  exact ⟨size, done, fun gap => gap₂ (tabled.gap gap)⟩

end Built

/-! ## The new image -/

section Image

variable {R hand : Multiset ℕ} {s₀ s : Phys} {d : ℕ} {m : Space}

-- so that Lean does not run it
attribute [local irreducible] allocStack

theorem Owns.loaded (own : Owns R s₀ d hand m s) (user : m.user = Space.empty.user)
    (part : KernelPart m) : Loaded s d 0 := by
  refine ⟨by decide, fun a lt => absurd lt (Nat.not_lt_zero a), fun a _ ha => ?_, fun a ha => ?_,
    fun a ge lt => ?_⟩
  · rw [← own.user_eq_none_iff ha, user]
    rfl
  · rw [← own.pte_kernel ha]
    exact part.noUser a ha
  · rw [← own.pte_kernel (Nat.le_trans (by decide) ge)]
    exact part.devices a ge lt

theorem loadImage_spec (image : Loaded s d 0) (own : Owns R s₀ d hand m s) (ip : File)
    (elf : Elfhdr) : wp (loadImage d ip elf) (fun r s' => ∃ m', Owns R s₀ d hand m' s' ∧
      m'.Guarded ∧ ∀ sz, r = some sz → Image s' d sz.toNat ∧ (Gap s d → Gap s' d)) never s := by
  rw [loadImage]
  apply wp_next (loadSegments_spec elf.phnum elf.phoff 0 m s image own)
  rintro r s₁ ⟨m₁, own₁, kept, tabled, image₁⟩
  cases r with
  | none =>
    refine ⟨m₁, own₁, fun a ha => ?_, by simp⟩
    rw [own₁.pte_kernel ha, kept a ha]
    exact image.kernel a ha
  | some sz =>
    apply wp_imp (allocStack_spec (image₁ sz rfl) own₁)
    rintro r s₂ ⟨m₂, own₂, guarded, -, done⟩
    exact ⟨m₂, own₂, guarded, fun sz' eq =>
      ⟨(done sz' eq).2.1, fun gap => (done sz' eq).2.2 (tabled.gap gap)⟩⟩

/-- With pages enough, and a program without segments, the image is the two stack pages. -/
theorem loadImage_empty {s : Phys} (arena : Arena s.freelist s) (many : 1028 < s.freelist.length)
    {elf : Elfhdr} (none : elf.phnum = 0) (ip : File) : wp setupkvm (fun r s₁ => ∃ d, r = some d ∧
      wp (loadImage d ip elf) (fun r s₂ => r = some 0x2000 ∧ Image s₂ d 0x2000 ∧ Gap s₂ d ∧
        ∃ m, Owns s.freelist s d 0 m s₂) never s₁) never s := by
  apply wp_imp (setupkvm_spec arena)
  rintro r s₁ (⟨-, few, -⟩ | ⟨d, m, rfl, own, user, part, gap⟩)
  · simp only [NPDENTRIES] at few
    omega
  refine ⟨d, rfl, ?_⟩
  rw [loadImage, none, loadSegments, wp_bind, wp_pure]
  apply wp_imp (allocStack_spec (own.loaded user part) own)
  rintro r s₂ ⟨m₂, own₂, -, full, done⟩
  rw [Space.pages_of_user user, Multiset.card_zero, Multiset.coe_card] at full
  cases r with
  | none =>
    have zero : (0 : Word).toNat = 0 := rfl
    have pages : pagesBelow 0 = 0 := rfl
    simp only [NPDENTRIES, pages, zero] at full
    have := full trivial
    omega
  | some sz =>
    obtain ⟨size, image, gap'⟩ := done sz rfl
    have size : sz = 0x2000 := BitVec.eq_of_toNat_eq size
    subst size
    exact ⟨rfl, image, gap' gap, m₂, own₂⟩

theorem exists_image {s : Phys} (arena : Arena s.freelist s) (many : 1028 < s.freelist.length) :
    ∃ s' d m, Image s' d 0x2000 ∧ Owns s.freelist s d 0 m s' := by
  have elf : (⟨ELF_MAGIC, 0, 0, 0⟩ : Elfhdr).phnum = 0 := rfl
  obtain ⟨r, s₁, -, d, -, built⟩ := exists_ok_of_wp (loadImage_empty arena many elf ⟨[], by decide⟩)
  obtain ⟨r, s₂, -, -, image, -, m, own⟩ := exists_ok_of_wp built
  exact ⟨s₂, d, m, image, own⟩

end Image

/-- The strings and the words that point at them are all in the stack page, or `exec` fails. -/
theorem pushStack_decodes {R hand : Multiset ℕ} {s₀ s : Phys} {d : ℕ} {m : Space} {sz : Word}
    (own : Owns R s₀ d hand m s) (image : Image s d sz.toNat) (argv : List (List Byte))
    (few : argv.length ≤ MAXARG - 1) (short : (argv.map List.length).sum < sz.toNat) :
    wp (pushStack d sz argv) (fun r s' => (r.isSome = true ↔ FitsStack argv) ∧
      ∀ esp, r = some esp → ∃ addrs, StackDecodes s' d sz.toNat esp.toNat argv addrs)
      (fun _ _ => False) s := by
  have each : ∀ arg ∈ argv, arg.length + 1 + PGSIZE ≤ sz.toNat + 0x2000000 := by
    intro arg mem
    have le := List.single_le_sum
      (fun _ _ => Nat.zero_le _) _ (List.mem_map_of_mem (f := List.length) mem)
    simp only [PGSIZE]
    omega
  have aligned : sz.toNat % 4 = 0 := by
    have := image.aligned
    simp only [PGSIZE] at this
    omega
  apply wp_imp (pushStack_spec own image argv (not_overflows aligned (by omega) each))
  rintro r s' ⟨-, -, iff, decodes⟩
  refine ⟨?_, decodes⟩
  rw [iff]
  exact and_iff_right (by omega)

def largeMemory : Phys where
  freelist := List.range' 0x1000 1500
  page := fun _ => .zero
  kdata := 0x108
  kend := 0x400
  cr3 := 0x401

theorem largeMemory_arena : Arena largeMemory.freelist largeMemory := by
  refine ⟨Multiset.coe_nodup.2 List.nodup_range', fun v hv => ?_, by decide⟩
  have := List.mem_range'_1.1 (Multiset.mem_coe.1 hv)
  have top : topPage = 0xE000 := rfl
  have kend : largeMemory.kend = 0x400 := rfl
  omega

theorem pushStack_decodes_one : ∃ s d, Image s d 0x2000 ∧
    wp (pushStack d 0x2000 [[0x61, 0x62]])
    (fun r s' => (r.isSome = true ↔ FitsStack [[0x61, 0x62]]) ∧
      ∀ esp, r = some esp → ∃ addrs, StackDecodes s' d 0x2000 esp.toNat [[0x61, 0x62]] addrs)
      (fun _ _ => False) s := by
  have many : 1028 < largeMemory.freelist.length := by
    rw [largeMemory, List.length_range']
    decide
  obtain ⟨s, d, m, image, own⟩ := exists_image largeMemory_arena many
  have image : Image s d (0x2000 : Word).toNat := image
  exact ⟨s, d, image, pushStack_decodes own image [[0x61, 0x62]] (by decide) (by decide)⟩

end Xv6.Mem
