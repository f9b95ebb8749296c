import Xv6.Mem.Grow

/-!
# fork

`copyuvm` copies the user part of an address space, and gives every page back if memory runs out. 
`fork` undoes what it has done, except that `allocproc` has put the slot into queue 0.
-/

namespace Xv6.Mem

open Lib Function

/-! ## Copying an address space -/

/-- `p` maps the virtual pages below `n`, and none of its pages is among `R`. -/
structure Parent (R : Multiset ℕ) (s : Phys) (p n : ℕ) : Prop where
  dir : p < topPage ∧ p ∉ R
  table : ∀ i t, table s p i = some t → t < topPage ∧ t ∉ R
  mapped : ∀ a < n, present (pte s p a) = true ∧
    PTE_ADDR (pte s p a) < topPage ∧ PTE_ADDR (pte s p a) ∉ R

/-- The page that a child has for the page of its parent with the given entry and contents. -/
def Copied (e : Word) (c : Contents) (x : Option (Word × Contents)) : Prop :=
  ∃ v, x = some (V2P v ||| PTE_FLAGS e ||| PTE_P, c)

section Copy

variable {R hand : Multiset ℕ} {s₀ s : Phys} {d p hi : ℕ} {m : Space}

theorem Parent.kept (parent : Parent R s₀ p hi) (within : Within R s₀ s) :
    Mem.table s p = Mem.table s₀ p ∧ pte s p = pte s₀ p := by
  apply pte_congr (within.page p parent.dir.2)
  intro t ht
  obtain ⟨i, hi⟩ := mem_tables.1 ht
  exact within.page t (parent.table i t hi).2

theorem PTE_FLAGS_lt (e : Word) : (PTE_FLAGS e).toNat < PGSIZE := by
  rw [PTE_FLAGS, BitVec.toNat_and]
  exact Nat.lt_of_le_of_lt Nat.and_le_right (by decide)

theorem Owns.copyLoop_spec (parent : Parent R s₀ p hi) (small : hi ≤ userPages) :
    ∀ (n a : ℕ) (m : Space) (s : Phys), a + n = hi → (∀ b, a ≤ b → b < hi → m.user b = none) →
      Owns R s₀ d hand m s → wp (copyLoop p d (List.range' a n)) (fun r s' => ∃ m',
        Owns R s₀ d hand m' s' ∧
        (r = false → R.card ≤ hand.card + (2 + NPDENTRIES + m.pages.card + n)) ∧
        (r = true → m'.kernel = m.kernel ∧
          (∀ b, b < a ∨ hi ≤ b → m'.user b = m.user b) ∧ ∀ b, a ≤ b → b < hi →
            Copied (pte s₀ p b) (s₀.page (PTE_ADDR (pte s₀ p b))) (m'.user b))) never s
  | 0, a, m, s, last, _, own => by
      rw [List.range'_zero, copyLoop, wp_pure]
      exact ⟨m, own, by simp, fun _ => ⟨rfl, fun _ _ => rfl, fun b ge lt => by omega⟩⟩
  | n + 1, a, m, s, last, absent, own => by
      have user : a < userPages := by omega
      have free : m.user a = none := absent a (Nat.le_refl a) (by omega)
      obtain ⟨there, ram, out⟩ := parent.mapped a (by omega)
      obtain ⟨tab, entries⟩ := parent.kept own.within
      obtain ⟨low, t, ht⟩ := found_of_present there
      have source := own.within.page _ out
      rw [List.range'_succ, copyLoop, wp_bind, wp_walk parent.dir.1, tab, ht, Option.map_some]
      dsimp only
      rw [wp_bind, wp_load (parent.table _ t ht).1, ← pte_of_table low (by rw [tab, ht]), entries,
        if_pos there, wp_bind]
      generalize entry : pte s₀ p a = e at ram source ⊢
      apply wp_imp own.kalloc_spec
      rintro r s₁ (⟨rfl, rfl, full⟩ | ⟨v, rfl, same, taken⟩)
      · have few := own.card_le full
        exact ⟨m, own, fun _ => by omega, by simp⟩
      have mine := Multiset.mem_cons_self v hand
      dsimp only
      rw [wp_bind, wp_readPage ram, wp_bind, wp_writePage (taken.writable (taken.mem_of_hand mine)),
        same, source, wp_bind, mappages_page d user]
      apply wp_imp ((taken.fill mine _).map_spec user free (PTE_FLAGS_lt e))
      rintro r s₂ ⟨-, ⟨rfl, own₂⟩ | ⟨rfl, full, own₂⟩⟩
      · rw [if_pos rfl]
        rw [page_setPage_self] at own₂
        have count := Space.card_pages_setUser (m := m) user free
          (V2P v ||| PTE_FLAGS e ||| PTE_P, s₀.page (PTE_ADDR e))
        apply wp_imp (copyLoop_spec parent small n (a + 1) _ s₂ (by omega) (fun b gb lb => by
          rw [Space.user_setUser_of_ne _ (by omega)]
          exact absent b (by omega) lb) own₂)
        rintro r s₃ ⟨m', own', few, copied⟩
        refine ⟨m', own', fun no => ?_, fun ok => ?_⟩
        · have := few no
          omega
        obtain ⟨kernel, others, copied⟩ := copied ok
        refine ⟨kernel, fun b out => ?_, fun b ge lt => ?_⟩
        · rw [others b (by omega), Space.user_setUser_of_ne _ (by omega)]
        by_cases here : b = a
        · rw [here, entry, others a (Or.inl (Nat.lt_succ_self a)), Space.user_setUser_self]
          exact ⟨v, rfl⟩
        · exact copied b (by omega) lt
      · have few := own₂.card_le full
        rw [Multiset.card_cons] at few
        rw [if_neg (by decide)]
        apply wp_next own₂.kfree_spec
        intro _ s₃ own₃
        exact ⟨m, own₃, fun _ => by omega, by simp⟩

/-- The user part of `d` is a copy of the pages of `p` below `n`, the kernel part that of
`setupkvm`. -/
structure Copy (p n : ℕ) (s : Phys) (d : ℕ) (s' : Phys) : Prop where
  own : Owns s.freelist s d 0 (space s' d) s'
  same : ∀ a < n, Copied (pte s p a) (s.page (PTE_ADDR (pte s p a))) ((space s' d).user a)
  only : ∀ a, n ≤ a → (space s' d).user a = none
  kernel : ∃ s₁, exec setupkvm s = (.ok (some d), s₁) ∧
    (space s' d).kernel = (space s₁ d).kernel

theorem copyuvm_spec {s : Phys} {sz : Word} (arena : Arena s.freelist s)
    (parent : Parent s.freelist s p (pagesBelow sz)) (small : sz.toNat ≤ 2 ^ 31) :
    wp (copyuvm p sz) (fun r s' =>
      (r = none ∧ s.freelist.length ≤ 2 + NPDENTRIES + pagesBelow sz ∧
        Within s.freelist s s' ∧ (s'.freelist : Multiset ℕ) = s.freelist) ∨
      ∃ d, r = some d ∧ Copy p (pagesBelow sz) s d s') never s := by
  rw [copyuvm, wp_bind]
  apply wp_mono (wp_and (setupkvm_spec arena) (wp_exec setupkvm s)) _ fun _ _ stop => stop.1.elim
  rintro r s₁ ⟨⟨rfl, few, within, free⟩ | ⟨d, m₁, rfl, own₁, user, -⟩, run⟩
  · exact Or.inl ⟨rfl, by omega, within, free⟩
  dsimp only
  rw [wp_bind, List.range_eq_range']
  apply wp_imp (Owns.copyLoop_spec parent (pagesBelow_le_userPages small) (pagesBelow sz) 0 m₁ s₁
    (Nat.zero_add _) (fun b _ _ => by rw [user]; rfl) own₁)
  rintro r s₂ ⟨m₂, own₂, few, copied⟩
  rw [Space.pages_of_user user, Multiset.card_zero, Multiset.coe_card] at few
  rw [wp_ite, wp_pure]
  refine ⟨fun ok => Or.inr ⟨d, rfl, ?_⟩, fun no => ?_⟩
  · obtain ⟨kernel, others, copied⟩ := copied ok
    obtain rfl := own₂.map
    refine ⟨own₂, fun a lt => copied a (Nat.zero_le a) lt, fun a ge => ?_, s₁, run, ?_⟩
    · rw [others a (Or.inr ge), user]
      rfl
    · rw [kernel, own₁.map]
  apply wp_next own₂.freevm_spec
  rintro _ s₃ ⟨within, free⟩
  rw [add_zero] at free
  have := few (by simpa using no)
  exact Or.inl ⟨rfl, by omega, within, free⟩

end Copy

theorem Task.Sound.parent {t : Task} (h : t.Sound) {n : ℕ} (small : n ≤ userPages)
    (mapped : ∀ a < n, present (pte t.mem t.pgdir a) = true) {next : List ℕ}
    (sub : next.Sublist t.mem.freelist) :
    Arena next ({ t.mem with freelist := next } : Phys) ∧
    Parent next ({ t.mem with freelist := next } : Phys) t.pgdir n := by
  have own := h.owns
  have once := h.nodup
  rw [Multiset.nodup_add] at once
  have apart {v : ℕ} (hv : v ∈ t.pgdir ::ₘ (tables t.mem t.pgdir + (space t.mem t.pgdir).pages)) :
      v ∉ (next : Multiset ℕ) := fun free =>
    Multiset.disjoint_left.1 once.2.2 (Multiset.mem_coe.2 (sub.subset (Multiset.mem_coe.1 free))) hv
  refine ⟨⟨Multiset.coe_nodup.2 (once.1.sublist sub), fun v hv => ?_, h.text⟩,
    ⟨own.lt_top own.dir_mem, ?_⟩,
    fun i tab ht => ⟨own.lt_top (own.table_mem ht), ?_⟩, fun a lt => ?_⟩
  · exact h.ram v (Multiset.mem_add.2 (Or.inl (sub.subset hv)))
  · exact apart (Multiset.mem_cons_self _ _)
  · exact apart (Multiset.mem_cons_of_mem (Multiset.mem_add.2 (Or.inl (mem_tables.2 ⟨i, ht⟩))))
  have low : a < userPages := by omega
  have there := mapped a lt
  have page := mem_pages_of_user low (own.user_of_present low there)
  exact ⟨there, own.lt_top (own.page_mem page),
    apart (Multiset.mem_cons_of_mem (Multiset.mem_add.2 (Or.inr page)))⟩

theorem Task.Full.present {t : Task} (full : t.Full) (sound : t.Sound) {a : ℕ}
    (lt : a < pagesBelow t.sz) : present (pte t.mem t.pgdir a) = true := by
  obtain ⟨⟨e, c⟩, user⟩ := Option.ne_none_iff_exists'.1 ((full a).2 lt)
  obtain ⟨-, entry, there, -⟩ := sound.owns.pte_of_user user
  rw [entry, there]

/-- The user pages of `d` are those of `p` below `n`, in pages that were free. -/
structure Duplicate (p n : ℕ) (s : Phys) (d : ℕ) (s' : Phys) : Prop where
  same : ∀ a < n, ∃ e, (space s' d).user a = some (e, s.page (PTE_ADDR (pte s p a))) ∧
    PTE_FLAGS e = PTE_FLAGS (pte s p a)
  only : ∀ a, n ≤ a → (space s' d).user a = none
  fresh : ∀ v ∈ (space s' d).pages, v ∈ s.freelist ∧ ∀ a < n, v ≠ PTE_ADDR (pte s p a)
  distinct : ∀ a < n, ∀ b < n, ∀ v, (space s' d).leaf a = some v → (space s' d).leaf b = some v →
    a = b
  rest : Within s.freelist s s'
  kernel : ∃ s₁, exec setupkvm s = (.ok (some d), s₁) ∧
    (space s' d).kernel = (space s₁ d).kernel

theorem PTE_FLAGS_copied (v : ℕ) {e : Word} (there : present e = true) :
    PTE_FLAGS (V2P v ||| PTE_FLAGS e ||| PTE_P) = PTE_FLAGS e := by
  apply BitVec.eq_of_getLsbD_eq
  intro i hi
  simp only [PTE_FLAGS, BitVec.getLsbD_and, BitVec.getLsbD_or]
  by_cases low : i < 12
  · rw [getLsbD_V2P v low]
    by_cases zero : i = 0
    · rw [zero, ← present_eq, there]
      rfl
    have none : PTE_P.getLsbD i = false := by
      simp [PTE_P, zero]
    rw [none]
    cases e.getLsbD i <;> simp
  · have none : (0xFFF : Word).getLsbD i = false := by
      rw [show (0xFFF : Word) = BitVec.ofNat 32 (2 ^ 12 - 1) from rfl, BitVec.getLsbD_ofNat,
        Nat.testBit_two_pow_sub_one]
      simp [low]
    rw [none, Bool.and_false, Bool.and_false]

/-- `copyuvm` makes an equal copy in pages that were free; or it gives every page back, and then there
were too few for the page tables and the copy. -/
theorem copyuvm_duplicates {s : Phys} {p : ℕ} {sz : Word} (small : sz ≤ KERNBASE)
    (sound : Task.Sound ⟨sz, p, s⟩) (mapped : ∀ a < pagesBelow sz, present (pte s p a) = true) :
    wp (copyuvm p sz) (fun r s' =>
      (r = none ∧ s.freelist.length ≤ 2 + NPDENTRIES + pagesBelow sz ∧
        Within s.freelist s s' ∧ (s'.freelist : Multiset ℕ) = s.freelist) ∨
      ∃ d, r = some d ∧ Duplicate p (pagesBelow sz) s d s') (fun _ _ => False) s := by
  have low := pagesBelow_le_userPages (show sz.toNat ≤ 2 ^ 31 from small)
  have both := sound.parent low mapped (List.Sublist.refl _)
  apply wp_imp (copyuvm_spec both.1 both.2 small)
  rintro r s' (failed | ⟨d, rfl, copy⟩)
  · exact Or.inl failed
  refine Or.inr ⟨d, rfl, fun a lt => ?_, copy.only, fun v page => ?_, fun a ha b hb v => ?_,
    copy.own.within, copy.kernel⟩
  · obtain ⟨v, user⟩ := copy.same a lt
    exact ⟨_, user, PTE_FLAGS_copied v (mapped a lt)⟩
  · have free := copy.own.page_mem page
    refine ⟨Multiset.mem_coe.1 free, fun a lt eq => ?_⟩
    exact (both.2.mapped a lt).2.2 (eq ▸ free)
  · exact held_place copy.own.pages_nodup (Finset.mem_range.2 (by omega))
      (Finset.mem_range.2 (by omega))

theorem bareTask_grows_rich : (exec (growproc 4096) (bareTask 1100)).1 = .ok 0 ∧
    (pageTask 1100).mem.freelist.length = 1098 := by decide +kernel

section

attribute [local irreducible] wp

/-- With 1098 free pages the process with one page is copied. -/
theorem copyuvm_duplicates_page : ∃ d s',
    exec (copyuvm 0x401 4096) (pageTask 1100).mem = (.ok (some d), s') ∧
      Duplicate 0x401 1 (pageTask 1100).mem d s' := by
  obtain ⟨grows, many⟩ := bareTask_grows_rich
  obtain ⟨s, parts, sound, full, -⟩ := exists_pageTask (by decide) grows
  rw [parts] at many ⊢
  have copy := copyuvm_duplicates (show (4096 : Word) ≤ KERNBASE by decide) sound fun a lt =>
    full.present sound lt
  obtain ⟨r, s', run, ⟨-, few, -⟩ | ⟨d, rfl, done⟩⟩ := exists_ok_of_wp copy
  · have one : pagesBelow 4096 = 1 := by decide
    simp only [NPDENTRIES, one] at few many
    omega
  · exact ⟨d, s', run, done⟩

end

/-! ## The memory of a child -/

section Child

variable {R : Multiset ℕ} {s₀ : Phys} {d : ℕ} {t : Task}

/-- The directory `d` of the process is made of pages of `R`, and shows nothing above its size. -/
def Task.MadeOf (R : Multiset ℕ) (s₀ : Phys) (d : ℕ) (t : Task) : Prop :=
  t.pgdir = d ∧ t.sz < KERNBASE ∧ ∃ c m, Owns R { s₀ with cr3 := c } d 0 m t.mem ∧
    ∀ a, pagesBelow t.sz ≤ a → m.user a = none

theorem Owns.switchuvm {c : ℕ} {m : Space} {s : Phys} (h : Owns R { s₀ with cr3 := c } d 0 m s) :
    Owns R { s₀ with cr3 := d } d 0 m { s with cr3 := d } :=
  ⟨⟨h.arena.nodup, h.arena.ram, h.arena.text⟩,
    ⟨h.within.page, h.within.kdata, h.within.kend, rfl⟩, h.map, h.split⟩

theorem Owns.madeOf {c : ℕ} {m : Space} {s : Phys} {sz : Word}
    (h : Owns R { s₀ with cr3 := c } d 0 m s) (small : sz < KERNBASE)
    (above : ∀ a, pagesBelow sz ≤ a → m.user a = none) :
    Task.MadeOf R s₀ d ⟨sz, d, s⟩ ∧ Task.MadeOf R s₀ d ⟨sz, d, { s with cr3 := d }⟩ :=
  ⟨⟨rfl, small, c, m, h, above⟩, ⟨rfl, small, d, m, h.switchuvm, above⟩⟩

theorem Task.MadeOf.growproc (h : t.MadeOf R s₀ d) (n : Word) :
    wp (growproc n) (fun _ => Task.MadeOf R s₀ d) never t := by
  obtain ⟨rfl, small, c, m, own, above⟩ := h
  -- a size of zero is taken for a failure: the old one then stands, and nothing is above zero
  have resized {s' : Phys} {r : Word} {m' : Space}
      (own' : Owns R { s₀ with cr3 := c } t.pgdir 0 m' s') (low : r < KERNBASE)
      (above' : ∀ a, pagesBelow r ≤ a → m'.user a = none) :
      (r = 0 → Task.MadeOf R s₀ t.pgdir { t with mem := s' }) ∧ (¬ r = 0 →
        Task.MadeOf R s₀ t.pgdir ⟨r, t.pgdir, { s' with cr3 := t.pgdir }⟩) :=
    ⟨fun zero => (own'.madeOf small fun a _ => above' a (zero ▸ Nat.zero_le a)).1,
      fun _ => (own'.madeOf low above').2⟩
  simp only [Mem.growproc, wp_bind, wp_get, wp_ite, onMem, wp_zoom, wp_pure, wp_modify,
    Mem.switchuvm]
  refine ⟨fun _ => ?_, fun _ => ⟨fun _ => ?_, fun _ => (own.madeOf small above).2⟩⟩
  · apply wp_imp (own.allocuvm_spec fun a ge _ => above a ge)
    rintro r s' ⟨-, ⟨rfl, -, own'⟩ | ⟨-, rfl, rfl⟩ | ⟨low, le, rfl, m', own', grown⟩⟩
    · exact ⟨fun _ => (own'.madeOf small above).1, fun ne => absurd rfl ne⟩
    · exact resized own small above
    refine resized own' low fun a ge => ?_
    rw [grown.user a (.inr ge)]
    exact above a ((pagesBelow_mono le).trans ge)
  apply wp_imp (own.deallocuvm_spec (Nat.le_of_lt small))
  intro r s' freed
  split at freed
  · obtain ⟨rfl, rfl⟩ := freed
    exact resized own small above
  rename_i less
  obtain ⟨rfl, own', -⟩ := freed
  refine resized own' (BitVec.lt_trans (BitVec.not_le.1 less) small) fun a ge => ?_
  rw [Space.clear]
  dsimp only
  split
  · rfl
  · exact above a (by omega)

/-- The memory calls of a process after `fork`: any of `growproc`, then `freevm`. -/
def lifetime (ns : List Word) : TaskM PUnit := do
  forM ns fun n => do
    let _ ← growproc n
  let t ← get
  onMem (freevm t.pgdir)

/-- The pages free in `s` are free again, and no other has changed. -/
def GivenBack (s s' : Phys) : Prop :=
  (s'.freelist : Multiset ℕ) = s.freelist ∧ ∀ v ∉ s.freelist, s'.page v = s.page v

/-- `copyuvm` leaks nothing, and neither does a child, however often and far it grows or shrinks. -/
theorem child_gives_pages_back {s : Phys} {p : ℕ} {sz : Word} (small : sz < KERNBASE)
    (sound : Task.Sound ⟨sz, p, s⟩) (mapped : ∀ a < pagesBelow sz, present (pte s p a) = true)
    (ns : List Word) : wp (copyuvm p sz) (fun r s' =>
      (r = none → s.freelist.length ≤ 2 + NPDENTRIES + pagesBelow sz ∧ GivenBack s s') ∧
      ∀ d, r = some d → wp (lifetime ns) (fun _ t => GivenBack s t.mem) never ⟨sz, d, s'⟩)
      never s := by
  have low := pagesBelow_le_userPages (show sz.toNat ≤ 2 ^ 31 from Nat.le_of_lt small)
  have both := sound.parent low mapped (List.Sublist.refl _)
  apply wp_imp (copyuvm_spec both.1 both.2 (Nat.le_of_lt small))
  rintro _ s' (⟨rfl, few, within, free⟩ | ⟨d, rfl, copy⟩)
  · exact ⟨fun _ => ⟨few, free, within.page⟩, by rintro _ ⟨⟩⟩
  refine ⟨by rintro ⟨⟩, ?_⟩
  rintro _ ⟨⟩
  have made : Task.MadeOf s.freelist s d ⟨sz, d, s'⟩ := ⟨rfl, small, s.cr3, _, copy.own, copy.only⟩
  rw [lifetime, wp_bind]
  refine wp_imp (wp_forM ns (fun n _ t h => ?_) _ made) ?_
  · rw [wp_bind]
    exact h.growproc n
  rintro _ t ⟨rfl, -, c, m, own, -⟩
  rw [wp_bind, wp_get, onMem, wp_zoom]
  apply wp_imp own.freevm_spec
  rintro _ s₁ ⟨within, free⟩
  rw [add_zero] at free
  exact ⟨free, within.page⟩

section

attribute [local irreducible] wp

/-- A child that grows by two pages and shrinks by one. -/
theorem child_gives_pages_back_page : ∃ d s',
    exec (copyuvm 0x401 4096) (pageTask 1100).mem = (.ok (some d), s') ∧
      wp (lifetime [8192, -4096]) (fun _ t => GivenBack (pageTask 1100).mem t.mem) never
        ⟨4096, d, s'⟩ := by
  obtain ⟨grows, many⟩ := bareTask_grows_rich
  obtain ⟨s, parts, sound, full, -⟩ := exists_pageTask (by decide) grows
  rw [parts] at many ⊢
  have mapped (a : ℕ) (lt : a < pagesBelow 4096) := full.present sound lt
  have small : (4096 : Word) < KERNBASE := by decide
  have child := child_gives_pages_back small sound mapped [8192, -4096]
  have both := sound.parent (by decide) mapped (List.Sublist.refl _)
  obtain ⟨r, s', run, -, back⟩ := exists_ok_of_wp child
  rcases wp_of_ok (copyuvm_spec both.1 both.2 (by decide)) run with ⟨-, few, -⟩ | ⟨d, rfl, -⟩
  · have one : pagesBelow 4096 = 1 := by decide
    simp only [NPDENTRIES, one] at few many
    omega
  · exact ⟨d, s', run, back d rfl⟩

end

end Child

/-! ## The call -/

def NOFILE : ℕ := 16
def NFILE : ℕ := 100
def NINODE : ℕ := 50

/-- What `fork` works on; what it writes onto the new kernel stack is left out. -/
structure Machine where
  kern : Kernel
  mem : Phys
  pgdir : Slot → Option ℕ
  sz : Slot → Word
  kstack : Slot → Option ℕ
  ofile : Slot → Fin NOFILE → Option (Fin NFILE)
  cwd : Slot → Option (Fin NINODE)
  fileRef : Fin NFILE → ℤ
  inodeRef : Fin NINODE → ℤ

abbrev MachineM := Prog Machine Fault

def onKern {α : Type} (m : KM α) : MachineM α :=
  zoom Machine.kern (fun t k => { t with kern := k }) m

def onPhys {α : Type} (m : VM α) : MachineM α := zoom Machine.mem (fun t s => { t with mem := s }) m

def filedup (f : Fin NFILE) : MachineM PUnit := do
  let t ← get
  if t.fileRef f < 1 then throw (.panic "filedup")
  else set { t with fileRef := update t.fileRef f (t.fileRef f + 1) }

def idup (ip : Fin NINODE) : MachineM PUnit :=
  modify fun t => { t with inodeRef := update t.inodeRef ip (t.inodeRef ip + 1) }

/-- One turn of the loop over the open files of `m`. -/
def dupFile (m np : Slot) (i : Fin NOFILE) : MachineM PUnit := do
  let t ← get
  match t.ofile m i with
  | none => pure ⟨⟩
  | some f =>
      filedup f
      modify fun t =>
        { t with ofile := update t.ofile np (update (t.ofile np) i (some f)) }

def setKstack (p : Slot) (k : Option ℕ) : MachineM PUnit :=
  modify fun t => { t with kstack := update t.kstack p k }

def setPgdir (p : Slot) (d : Option ℕ) : MachineM PUnit :=
  modify fun t => { t with pgdir := update t.pgdir p d }

def fork (m : Slot) : MachineM ℤ := do
  match ← onKern allocproc with
  | none => return -1
  | some np =>
      match ← onPhys kalloc with
      | none =>
          setKstack np none
          onKern (modifyProc np fun q => { q with state := .UNUSED })
          return -1
      | some k =>
          setKstack np (some k)
          onKern (allocprocStack np)
          let t ← get
          match t.pgdir m with
          | none => throw .null
          | some pgdir =>
              match ← onPhys (copyuvm pgdir (t.sz m)) with
              | none =>
                  setPgdir np none
                  onPhys (kfree k)
                  setKstack np none
                  onKern (modifyProc np fun q => { q with state := .UNUSED })
                  return -1
              | some d =>
                  setPgdir np (some d)
                  modify fun t => { t with sz := update t.sz np (t.sz m) }
                  onKern (modifyProc np fun q => { q with parent := some m })
                  forM (List.finRange NOFILE) (dupFile m np)
                  let t ← get
                  match t.cwd m with
                  | none => throw .null
                  | some ip =>
                      idup ip
                      modify fun t => { t with cwd := update t.cwd np (some ip) }
                      onKern (makeRunnable np)
                      return (t.kern.procs np).pid

/-! ## The new slot -/

/-- The slot `p` has been taken and put into queue 0; nothing else has changed. -/
structure Born (s : Kernel) (p : Slot) (s' : Kernel) : Prop where
  others : ∀ q ≠ p, s'.procs q = s.procs q
  pid : (s'.procs p).pid = s.nextpid
  queued : (s'.queue 0).last = (s.queue 0).last + 1

theorem Born.setProc {s s' : Kernel} {p : Slot} (h : Born s p s') {f : Proc → Proc}
    (pid : ∀ q, (f q).pid = q.pid) : Born s p (s'.setProc p f) := by
  refine ⟨fun q ne => ?_, ?_, h.queued⟩
  · simp only [Kernel.setProc, update_of_ne ne]
    exact h.others q ne
  simp only [Kernel.setProc, update_self]
  rw [pid, h.pid]

theorem allocproc_spec (s : Kernel) : wp allocproc (fun r s' =>
    (r = none ∧ s' = s ∧ ∀ p, (s.procs p).state ≠ .UNUSED) ∨
    ∃ p, r = some p ∧ (s.procs p).state = .UNUSED ∧ Born s p s')
    (fun e _ => e = .overflow ∨ e = .overrun) s := by
  simp only [allocproc, wp_bind, wp_get, modifyProc]
  split
  case h_1 none =>
    refine Or.inl ⟨rfl, rfl, fun p unused => ?_⟩
    have := List.find?_eq_none.1 none p (List.mem_finRange p)
    exact this (decide_eq_true unused)
  case h_2 p found =>
    have unused : (s.procs p).state = .UNUSED := by
      have hit := List.find?_some found
      exact of_decide_eq_true hit
    rw [wp_ite, wp_throw]
    refine ⟨fun _ => Or.inl rfl, fun _ => ?_⟩
    simp only [wp_bind, wp_modify, push, Xv6.store, wp_get, wp_ite, wp_set, wp_throw, wp_pure]
    refine ⟨fun _ => Or.inr ⟨p, rfl, unused, fun q ne => ?_, ?_, ?_⟩, fun _ => Or.inr trivial⟩
    · simp only [Kernel.setProc, Kernel.setQueue]
      rw [update_of_ne ne]
    · simp only [Kernel.setProc, Kernel.setQueue, update_self]
    · simp only [Kernel.setProc, Kernel.setQueue, ArrayQueue.put, update_self]

/-! ## A failed call -/

/-- The parent `m` can be copied: exactly the pages below its size are mapped, they and the free
ones are distinct, and it has a reference to each of its files. -/
structure Machine.Forkable (t : Machine) (m : Slot) (pgdir : ℕ) : Prop where
  dir : t.pgdir m = some pgdir
  below : t.sz m < KERNBASE
  sound : Task.Sound ⟨t.sz m, pgdir, t.mem⟩
  full : Task.Full ⟨t.sz m, pgdir, t.mem⟩
  files : ∀ i f, t.ofile m i = some f → 1 ≤ t.fileRef f
  cwd : t.cwd m ≠ none
  nextpid : 0 < t.kern.nextpid

/-- All is as before, the queues and `nextpid` apart. -/
structure Machine.Undone (t t' : Machine) : Prop where
  states : ∀ p, (t'.kern.procs p).state = (t.kern.procs p).state
  fileRef : t'.fileRef = t.fileRef
  inodeRef : t'.inodeRef = t.inodeRef
  free : (t'.mem.freelist : Multiset ℕ) = t.mem.freelist
  within : Within t.mem.freelist t.mem t'.mem

/-- Some slot has a complete copy of the address space of `m`. -/
def Machine.HasChild (t : Machine) (m : Slot) (pgdir : ℕ) (t' : Machine) : Prop :=
  ∃ np d, t'.pgdir np = some d ∧ (t'.kern.procs np).state = .RUNNABLE ∧
    ∀ a < pagesBelow (t.sz m),
    Copied (pte t.mem pgdir a) (t.mem.page (PTE_ADDR (pte t.mem pgdir a)))
      ((space t'.mem d).user a)

theorem Born.undone {t t' : Machine} {np : Slot} {k : Kernel}
    (unused : (t.kern.procs np).state = .UNUSED)
    (born : Born t.kern np k) (kern : t'.kern = k.setProc np fun q => { q with state := .UNUSED })
    (files : t'.fileRef = t.fileRef) (inodes : t'.inodeRef = t.inodeRef)
    (free : (t'.mem.freelist : Multiset ℕ) = t.mem.freelist)
    (within : Within t.mem.freelist t.mem t'.mem) :
    t.Undone t' ∧ (t'.kern.queue = t.kern.queue ↔ ∀ p, (t.kern.procs p).state ≠ .UNUSED) := by
  refine ⟨⟨fun p => ?_, files, inodes, free, within⟩, fun same => ?_,
    fun none => absurd unused (none np)⟩
  · rw [kern]
    by_cases here : p = np
    · rw [here, unused]
      simp only [Kernel.setProc, update_self]
    simp only [Kernel.setProc, update_of_ne here]
    rw [born.others p here]
  have queued := born.queued
  have last : (t'.kern.queue 0).last = (k.queue 0).last := by rw [kern]; rfl
  rw [← last, same] at queued
  omega

theorem dupFiles_spec {t : Machine} {m np : Slot}
    (files : ∀ i f, t.ofile m i = some f → 1 ≤ t.fileRef f) (l : List (Fin NOFILE)) :
    wp (forM l (dupFile m np)) (fun _ t' => t'.kern = t.kern ∧ t'.mem = t.mem ∧ t'.pgdir = t.pgdir ∧
      t'.cwd = t.cwd) never t := by
  have keeps : ∀ i ∈ l, ∀ t₁ : Machine, (t₁.kern = t.kern ∧ t₁.mem = t.mem ∧ t₁.pgdir = t.pgdir ∧
      t₁.cwd = t.cwd) ∧ (∀ i f, t₁.ofile m i = some f → 1 ≤ t₁.fileRef f) →
      wp (dupFile m np i) (fun _ t₂ => (t₂.kern = t.kern ∧ t₂.mem = t.mem ∧ t₂.pgdir = t.pgdir ∧
        t₂.cwd = t.cwd) ∧ (∀ i f, t₂.ofile m i = some f → 1 ≤ t₂.fileRef f)) never t₁ := by
    rintro i - t₁ ⟨same, refs⟩
    rw [dupFile, wp_bind, wp_get]
    split
    · exact ⟨same, refs⟩
    rename_i f open_
    have ref := refs i f open_
    simp only [filedup, wp_bind, wp_get, if_neg (show ¬ t₁.fileRef f < 1 by omega), wp_set,
      wp_modify]
    refine ⟨same, fun j g hg => ?_⟩
    -- a file that is open in the new slot is open in the old one
    have old : t₁.ofile m j = some g := by
      by_cases here : m = np
      · subst here
        rw [update_self] at hg
        by_cases place : j = i
        · rw [place, update_self] at hg
          rw [place, open_, hg]
        · rwa [update_of_ne place] at hg
      · rwa [update_of_ne here] at hg
    have := refs j g old
    by_cases this : g = f
    · rw [this, update_self]
      omega
    · rwa [update_of_ne this]
  apply wp_imp (wp_forM l keeps t ⟨⟨rfl, rfl, rfl, rfl⟩, files⟩)
  exact fun _ t' kept => kept.1

/-- `fork` makes a complete child or fails, unless the queue or the pids have run out. When it
fails, everything but the queues is as before, and they are just if there was no unused slot. -/
theorem fork_failed_trace (t : Machine) (m : Slot) (pgdir : ℕ) (h : t.Forkable m pgdir) :
    wp (fork m) (fun r t' => (r ≠ -1 → t.HasChild m pgdir t') ∧
      (r = -1 → t.Undone t' ∧
        (t'.kern.queue = t.kern.queue ↔ ∀ p, (t.kern.procs p).state ≠ .UNUSED)))
      (fun e _ => e = .overflow ∨ e = .overrun) t := by
  rw [fork, wp_bind, onKern, wp_zoom]
  apply wp_imp (allocproc_spec t.kern)
  rintro r k₁ (⟨rfl, rfl, used⟩ | ⟨np, rfl, unused, born⟩)
  · rw [wp_pure]
    refine ⟨fun no => absurd rfl no, fun _ => ⟨⟨fun _ => rfl, rfl, rfl, rfl, Within.refl _ _⟩, ?_⟩⟩
    exact ⟨fun _ => used, fun _ => rfl⟩
  dsimp only
  rw [wp_bind, onPhys, wp_zoom]
  cases free : t.mem.freelist with
  | nil =>
    simp only [kalloc, free, wp_bind, wp_get, wp_pure, setKstack, wp_modify, onKern, wp_zoom,
      modifyProc]
    refine ⟨fun no => absurd rfl no, fun _ => ?_⟩
    exact born.undone unused rfl rfl rfl (by rw [free]) (Within.refl _ _)
  | cons k next =>
    have small : (t.sz m).toNat ≤ 2 ^ 31 := by
      have : (t.sz m).toNat < 2 ^ 31 := h.below
      omega
    have sub : next.Sublist t.mem.freelist := by
      rw [free]
      exact List.sublist_cons_self k next
    obtain ⟨arena, parent⟩ := h.sound.parent (pagesBelow_le_userPages small)
      (fun a lt => h.full.present h.sound lt) sub
    have ramK := h.sound.ram k (by simp [free])
    simp only [kalloc, free, wp_bind, wp_get, wp_set, wp_pure, setKstack, wp_modify, onKern,
      wp_zoom,
      allocprocStack, modifyProc, h.dir, onPhys]
    have born₂ := born.setProc (f := fun q => { q with
      resume := .forkret
      trap := .none
      ctime := k₁.ticks.toInt
      etime := 0
      rtime := 0
      iotime := 0
      num_r := 0
      priority := if q.pid = 1 ∨ q.pid = 2 then 1 else 60 }) fun _ => rfl
    apply wp_mono (copyuvm_spec arena parent small) _ fun _ _ stop => stop.elim
    rintro r s₁ (⟨rfl, -, within, all⟩ | ⟨d, rfl, copy⟩)
    · have writes : s₁.writable k := by
        have text := arena.text
        rw [Phys.writable, within.kdata]
        dsimp only at text ramK ⊢
        omega
      have behind : s₁.kend ≤ k := by
        rw [within.kend]
        exact ramK.1
      simp only [setPgdir, wp_bind, wp_modify, wp_zoom, wp_kfree writes behind, wp_pure]
      refine ⟨fun no => absurd rfl no, fun _ => ?_⟩
      refine born₂.undone unused rfl rfl rfl ?_ ?_
      · show ((k :: s₁.freelist : List ℕ) : Multiset ℕ) = _
        rw [free, ← Multiset.cons_coe, all, Multiset.cons_coe]
      refine ⟨fun v hv => ?_, within.kdata, within.kend, within.cr3⟩
      rw [free, Multiset.mem_coe, List.mem_cons, not_or] at hv
      show (s₁.setPage k _).page v = _
      rw [page_setPage_of_ne _ hv.1, within.page v (by simpa using hv.2)]
    obtain ⟨ip, cwd⟩ := Option.ne_none_iff_exists'.1 h.cwd
    simp only [setPgdir, wp_bind, wp_modify, wp_zoom]
    generalize List.finRange NOFILE = places
    refine wp_mono (dupFiles_spec ?_ places) ?_ fun _ _ stop => stop.elim
    · exact h.files
    rintro _ t' ⟨kern, mem, dirs, cwds⟩
    have born₃ := born₂.setProc (f := fun q => { q with parent := some m }) fun _ => rfl
    have here : t'.cwd m = some ip := by
      rw [cwds]
      exact cwd
    simp only [here, idup, wp_bind, wp_modify, wp_zoom, makeRunnable, modifyProc, wp_get, wp_pure]
    refine ⟨fun _ => ⟨np, d, ?_, ?_, fun a lt => ?_⟩, fun minus => ?_⟩
    · show t'.pgdir np = some d
      rw [dirs]
      simp only [update_self]
    · simp only [Kernel.setProc, update_self]
    · show Copied _ _ ((space t'.mem d).user a)
      rw [mem]
      dsimp only
      exact copy.same a lt
    · have pid := born₃.pid
      have positive := h.nextpid
      rw [kern, pid] at minus
      omega

/-- The first process, running with one page, when no page is free. -/
def poorMachine : Machine where
  kern := Kernel.boot.setProc 0 fun q => { q with state := .RUNNING }
  mem := (pageTask 2).mem
  pgdir := fun p => if p = 0 then some 0x401 else none
  sz := fun p => if p = 0 then 4096 else 0
  kstack := fun _ => none
  ofile := fun _ _ => none
  cwd := fun p => if p = 0 then some ⟨0, by decide⟩ else none
  fileRef := fun _ => 0
  inodeRef := fun ip => if ip.val = 0 then 1 else 0

theorem poorMachine_forkable : poorMachine.Forkable 0 0x401 := by
  obtain ⟨s, parts, sound, full, -⟩ := exists_pageTask (by decide) bareTask_grows.1
  have mem : poorMachine.mem = s := by rw [poorMachine, parts]
  have size : poorMachine.sz 0 = 4096 := rfl
  refine ⟨rfl, by decide, ?_, ?_, fun i f open_ => ?_, ?_, by decide⟩
  · rwa [mem, size]
  · rwa [mem, size]
  · exact absurd open_ (by simp [poorMachine])
  · simp [poorMachine]

theorem fork_failed_trace_poor :
    wp (fork 0) (fun r t' => (r ≠ -1 → poorMachine.HasChild 0 0x401 t') ∧
    (r = -1 → poorMachine.Undone t' ∧ (t'.kern.queue = poorMachine.kern.queue ↔
      ∀ p, (poorMachine.kern.procs p).state ≠ .UNUSED)))
    (fun e _ => e = .overflow ∨ e = .overrun) poorMachine :=
  fork_failed_trace poorMachine 0 0x401 poorMachine_forkable

/-- `fork` fails for want of a kernel stack, and leaves slot 1 in queue 0. -/
theorem fork_leaves_entry : poorMachine.Forkable 0 0x401 ∧
    (exec (fork 0) poorMachine).1 = .ok (-1) ∧
    (poorMachine.kern.queue 0).last = 0 ∧ (poorMachine.kern.queue 0).slot 1 = none ∧
    ((exec (fork 0) poorMachine).2.kern.queue 0).last = 1 ∧
    ((exec (fork 0) poorMachine).2.kern.queue 0).slot 1 = some 1 ∧
    ((exec (fork 0) poorMachine).2.kern.procs 1).state = .UNUSED := by
  refine ⟨poorMachine_forkable, ?_⟩
  decide +kernel

end Xv6.Mem
