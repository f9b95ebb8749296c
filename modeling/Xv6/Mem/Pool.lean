import Xv6.Mem.Space

/-!
# Who owns which page

A function that works on the address space of a directory `d` does so inside a fixed set of pages
`R`: those on the free list, those in its hands, the directory, its page tables and the user pages. 
`Owns` says that these make up `R`, each once, that the rest of memory is as it was, and what the
directory shows.
-/

namespace Xv6.Mem

open Lib Function

variable {c : Contents} {E : Fault → Phys → Prop} {i : Fin NPDENTRIES} {Q : PUnit → Phys → Prop}
  {e : Word}

/-! ## Access to pages -/

section Access

variable {s : Phys} {v : ℕ}

theorem wp_readPage {Q : Contents → Phys → Prop} (h : v < topPage) :
    wp (readPage v) Q E s ↔ Q (s.page v) s := by
  simp only [readPage, wp_bind, wp_get, if_pos h, wp_pure]

theorem wp_writePage (h : s.writable v) : wp (writePage v c) Q E s ↔ Q ⟨⟩ (s.setPage v c) := by
  simp only [writePage, wp_bind, wp_get, if_pos h, wp_set]

theorem wp_load {Q : Word → Phys → Prop} (h : v < topPage) :
    wp (load v i) Q E s ↔ Q ((s.page v).word (4 * i)) s := by
  simp only [load, wp_bind, wp_readPage h, wp_pure]

theorem wp_store (h : s.writable v) : wp (store v i e) Q E s ↔ Q ⟨⟩ (s.setEntry v i e) := by
  simp only [store, wp_bind, wp_readPage h.1, wp_writePage h, Phys.setEntry]

theorem wp_memmove {off : ℕ} {bs : List Byte} (h : s.writable v) :
    wp (memmove v off bs) Q E s ↔ Q ⟨⟩ (s.setPage v ((s.page v).write off bs)) := by
  simp only [memmove, wp_bind, wp_readPage h.1, wp_writePage h]

theorem wp_walk {a : ℕ} {Q : Option (ℕ × Fin NPDENTRIES) → Phys → Prop} (h : v < topPage) :
    wp (walkpgdir v a false) Q E s ↔
      Q ((table s v (PDX a)).map fun t => (t, PTX a)) s := by
  simp only [walkpgdir, wp_bind, wp_load h, table, leafOf]
  split
  · rw [wp_pure, Option.map_some]
  · rw [if_neg (by decide), wp_pure, Option.map_none]

/-- The contents of a page that is put on the free list. -/
def freeContents (l : List ℕ) : Contents :=
  junk.write (4 * (0 : Fin NPDENTRIES)) (leBytes (freePtr l))

/-- Memory with page `v` put on the free list. -/
def Phys.freed (s : Phys) (v : ℕ) : Phys :=
  { s.setPage v (freeContents s.freelist) with freelist := v :: s.freelist }

theorem setPage_setPage (c c' : Contents) : (s.setPage v c).setPage v c' = s.setPage v c' := by
  simp only [Phys.setPage, update_idem]

theorem setPage_comm {w : ℕ} (h : v ≠ w) (c c' : Contents) :
    (s.setPage v c).setPage w c' = (s.setPage w c').setPage v c := by
  simp only [Phys.setPage, update_comm h]

theorem wp_kfree (h : s.writable v) (low : s.kend ≤ v) : wp (kfree v) Q E s ↔ Q ⟨⟩ (s.freed v) := by
  have hw (c : Contents) : (s.setPage v c).writable v := h
  have ok : ¬ (v < s.kend ∨ topPage ≤ v) := by
    have := h.1
    omega
  simp only [kfree, wp_bind, wp_get, if_neg ok, wp_writePage h, wp_store (hw _), wp_modify,
    Phys.setEntry, setPage_setPage, page_setPage_self]
  rfl

end Access

/-! ## The account -/

/-- Nothing outside `R` has changed. -/
structure Within (R : Multiset ℕ) (s s' : Phys) : Prop where
  page : ∀ v ∉ R, s'.page v = s.page v
  kdata : s'.kdata = s.kdata
  kend : s'.kend = s.kend
  cr3 : s'.cr3 = s.cr3

theorem Within.refl (R : Multiset ℕ) (s : Phys) : Within R s s := ⟨fun _ _ => rfl, rfl, rfl, rfl⟩

theorem Within.setPage {R : Multiset ℕ} {s s' : Phys} (h : Within R s s') {v : ℕ} (hv : v ∈ R)
    (c : Contents) : Within R s (s'.setPage v c) where
  page := by
    intro w hw
    have ne : w ≠ v := by
      rintro rfl
      exact hw hv
    rw [page_setPage_of_ne s' ne, h.page w hw]
  kdata := h.kdata
  kend := h.kend
  cr3 := h.cr3

/-- Pages that may be given to processes: distinct, and in memory behind the kernel. -/
structure Arena (R : Multiset ℕ) (s : Phys) : Prop where
  nodup : R.Nodup
  ram : ∀ v ∈ R, s.kend ≤ v ∧ v < topPage
  text : 0x100 < s.kdata ∧ s.kdata ≤ s.kend

/-- From `s₀` memory has come to `s`, where `d` shows `m`, and the pages of `R` are free, in hand or
the directory's. -/
structure Owns (R : Multiset ℕ) (s₀ : Phys) (d : ℕ) (hand : Multiset ℕ) (m : Space) (s : Phys) :
    Prop where
  arena : Arena R s₀
  within : Within R s₀ s
  map : space s d = m
  split : (s.freelist : Multiset ℕ) + hand + (d ::ₘ (tables s d + m.pages)) = R

theorem mem_pages_of_user {m : Space} {a : ℕ} (ha : a < userPages) (hm : m.user a = some (e, c)) :
    PTE_ADDR e ∈ m.pages := by
  apply mem_pages.2
  refine ⟨a, ha, ?_⟩
  rw [Space.leaf, hm, Option.map_some]

theorem coe_cons_add (v : ℕ) (l : List ℕ) (hand : Multiset ℕ) :
    ((v :: l : List ℕ) : Multiset ℕ) + hand = (l : Multiset ℕ) + (v ::ₘ hand) := by
  rw [← Multiset.cons_coe, Multiset.cons_add, Multiset.add_cons]

theorem account_move {free hand hand' ts before after old new : Multiset ℕ} {d : ℕ}
    (moved : after + old = before + new) (account : hand' + new = hand + old) :
    free + hand' + (d ::ₘ (ts + after)) = free + hand + (d ::ₘ (ts + before)) := by
  apply add_right_cancel (b := old)
  calc free + hand' + (d ::ₘ (ts + after)) + old
      = free + hand' + (d ::ₘ ts) + (after + old) := by
        simp only [← Multiset.singleton_add]
        abel
    _ = free + (hand' + new) + (d ::ₘ (ts + before)) := by
        rw [moved]
        simp only [← Multiset.singleton_add]
        abel
    _ = free + hand + (d ::ₘ (ts + before)) + old := by
        rw [account]
        abel

theorem account_cancel {free free' gone rest : Multiset ℕ} {d : ℕ}
    (same : free' + (d ::ₘ rest) = free + (d ::ₘ (rest + gone))) : free' = free + gone := by
  have split : free + (d ::ₘ (rest + gone)) = free + gone + (d ::ₘ rest) := by
    simp only [← Multiset.singleton_add]
    abel
  rw [split] at same
  exact add_right_cancel same

namespace Owns

variable {R hand : Multiset ℕ} {s₀ s : Phys} {d v a : ℕ} {m : Space}

section

variable (h : Owns R s₀ d hand m s)
include h

theorem mem_of_hand (hv : v ∈ hand) : v ∈ R := by
  rw [← h.split]
  simp [hv]

theorem dir_mem : d ∈ R := by
  rw [← h.split]
  simp

theorem table_mem (ht : table s d i = some v) : v ∈ R := by
  have := mem_tables.2 ⟨i, ht⟩
  rw [← h.split]
  simp [this]

theorem page_mem (hv : v ∈ m.pages) : v ∈ R := by
  rw [← h.split]
  simp [hv]

theorem writable (hv : v ∈ R) : s.writable v := by
  have ram := h.arena.ram v hv
  have text := h.arena.text
  unfold Phys.writable
  rw [h.within.kdata]
  omega

theorem kend_le (hv : v ∈ R) : s.kend ≤ v := by
  rw [h.within.kend]
  exact (h.arena.ram v hv).1

theorem lt_top (hv : v ∈ R) : v < topPage := (h.arena.ram v hv).2

theorem owned_nodup : (d ::ₘ (tables s d + m.pages)).Nodup := by
  have := h.arena.nodup
  rw [← h.split, Multiset.nodup_add] at this
  exact this.2.1

theorem tables_nodup : (tables s d).Nodup :=
  (Multiset.nodup_add.1 (Multiset.nodup_cons.1 h.owned_nodup).2).1

theorem pages_nodup : m.pages.Nodup :=
  (Multiset.nodup_add.1 (Multiset.nodup_cons.1 h.owned_nodup).2).2.1

theorem dir_notMem : d ∉ tables s d ∧ d ∉ m.pages := by
  have := (Multiset.nodup_cons.1 h.owned_nodup).1
  rw [Multiset.mem_add] at this
  exact ⟨fun ht => this (Or.inl ht), fun hp => this (Or.inr hp)⟩

theorem table_notMem (ht : v ∈ tables s d) : v ∉ m.pages :=
  Multiset.disjoint_left.1
    (Multiset.nodup_add.1 (Multiset.nodup_cons.1 h.owned_nodup).2).2.2 ht

theorem hand_apart (hv : v ∈ hand) : v ≠ d ∧ v ∉ tables s d ∧ v ∉ m.pages := by
  have once := h.arena.nodup
  rw [← h.split, Multiset.nodup_add] at once
  have out := Multiset.disjoint_left.1 once.2.2 (Multiset.mem_add.2 (Or.inr hv))
  rw [Multiset.mem_cons, Multiset.mem_add] at out
  exact ⟨fun e => out (Or.inl e), fun ht => out (Or.inr (Or.inl ht)),
    fun hp => out (Or.inr (Or.inr hp))⟩

/-! ## Steps -/

theorem fill (hv : v ∈ hand) (c : Contents) : Owns R s₀ d hand m (s.setPage v c) := by
  obtain ⟨hd, ht, hp⟩ := h.hand_apart hv
  have same : tables (s.setPage v c) d = tables s d := by rw [tables, table_setPage hd, tables]
  have map : space (s.setPage v c) d = m := by
    rw [space_setPage hd ht (by rwa [h.map]), h.map]
  refine ⟨h.arena, h.within.setPage (h.mem_of_hand hv) c, map, ?_⟩
  rw [same]
  exact h.split

theorem take {next : List ℕ} (free : s.freelist = v :: next) :
    Owns R s₀ d (v ::ₘ hand) m { s with freelist := next } where
  arena := h.arena
  within := ⟨h.within.page, h.within.kdata, h.within.kend, h.within.cr3⟩
  map := h.map
  split := by
    rw [← h.split, free, coe_cons_add]
    rfl

theorem kalloc_spec :
    wp kalloc (fun r s' => (r = none ∧ s' = s ∧ s.freelist = []) ∨
      ∃ v, r = some v ∧ s'.page = s.page ∧ Owns R s₀ d (v ::ₘ hand) m s') never s := by
  simp only [kalloc, wp_bind, wp_get]
  split
  case h_1 free =>
    exact Or.inl ⟨rfl, rfl, free⟩
  case h_2 v next free =>
    exact Or.inr ⟨v, rfl, rfl, h.take free⟩

end

section

variable (h : Owns R s₀ d (v ::ₘ hand) m s)
include h

theorem give : Owns R s₀ d hand m (s.freed v) := by
  have filled := h.fill (Multiset.mem_cons_self v hand) (freeContents s.freelist)
  refine ⟨filled.arena, ⟨filled.within.page, filled.within.kdata, filled.within.kend,
    filled.within.cr3⟩, filled.map, ?_⟩
  rw [← filled.split]
  show ((v :: s.freelist : List ℕ) : Multiset ℕ) + hand + _ = _
  rw [coe_cons_add]
  rfl

theorem kfree_spec :
    wp (kfree v) (fun _ s' => Owns R s₀ d hand m s') never s := by
  have hv := h.mem_of_hand (Multiset.mem_cons_self v hand)
  rw [wp_kfree (h.writable hv) (h.kend_le hv)]
  exact h.give

theorem addTable (absent : table s d i = none)
    (he : leafOf e = some v) : Owns R s₀ d hand m ((s.setPage v .zero).setEntry d i e) := by
  obtain ⟨hd, ht, hp⟩ := h.hand_apart (Multiset.mem_cons_self v hand)
  have hv := h.mem_of_hand (Multiset.mem_cons_self v hand)
  have entries := pte_addTable hd ht h.dir_notMem.1 absent he
  have map : space ((s.setPage v .zero).setEntry d i e) d = m := by
    rw [← h.map]
    apply space_congr entries
    intro w hw
    rw [h.map] at hw
    have hwd : w ≠ d := fun eq => h.dir_notMem.2 (eq ▸ hw)
    have hwv : w ≠ v := fun eq => hp (eq ▸ hw)
    rw [Phys.setEntry, page_setPage_of_ne _ hwd, page_setPage_of_ne _ hwv]
  have more : tables ((s.setPage v .zero).setEntry d i e) d = v ::ₘ tables s d := by
    have := held_update (table s d) (Finset.mem_univ i) (leafOf e)
    rw [tables, tables, table_setEntry, table_setPage hd]
    simpa [absent, he, ← Multiset.singleton_add, Multiset.add_comm] using this
  refine ⟨h.arena, (h.within.setPage hv .zero).setPage h.dir_mem _, map, ?_⟩
  rw [more, ← h.split]
  show (s.freelist : Multiset ℕ) + hand + _ = (s.freelist : Multiset ℕ) + (v ::ₘ hand) + _
  simp only [Multiset.cons_add, Multiset.add_cons]

end

section

variable (h : Owns R s₀ d hand m s)
include h

theorem hand_nodup : hand.Nodup := by
  have once := h.arena.nodup
  rw [← h.split, Multiset.nodup_add, Multiset.nodup_add] at once
  exact once.1.2.1

theorem walk_spec (a : ℕ) :
    wp (walkpgdir d a true) (fun r s' => Owns R s₀ d hand m s' ∧
      (∀ v ∈ hand, s'.page v = s.page v) ∧ (∀ i ≠ PDX a, table s' d i = table s d i) ∧
      (∀ t, table s d (PDX a) = some t → table s' d (PDX a) = some t) ∧
      ((r = none ∧ s'.freelist = []) ∨
        ∃ t, r = some (t, PTX a) ∧ table s' d (PDX a) = some t)) never s := by
  simp only [walkpgdir, wp_bind, wp_load (h.lt_top h.dir_mem)]
  split
  case isTrue there =>
    refine ⟨h, fun _ _ => rfl, fun _ _ => rfl, fun _ ht => ht, Or.inr ⟨_, rfl, ?_⟩⟩
    rw [table, leafOf, if_pos there]
  case isFalse absent =>
    rw [if_pos trivial]
    apply wp_next h.kalloc_spec
    rintro r s' (⟨rfl, rfl, free⟩ | ⟨t, rfl, same, taken⟩)
    · exact ⟨h, fun _ _ => rfl, fun _ _ => rfl, fun _ ht => ht, Or.inl ⟨rfl, free⟩⟩
    have ht := taken.mem_of_hand (Multiset.mem_cons_self t hand)
    have writes := taken.writable ht
    have small : t < 2 ^ 20 := Nat.lt_trans writes.1 (by decide)
    have hd : t ≠ d := (taken.hand_apart (Multiset.mem_cons_self t hand)).1
    have none : table s' d (PDX a) = none := by
      rw [table, same, leafOf_of_not_present (by simpa using absent)]
    have entry : leafOf (V2P t ||| PTE_P ||| PTE_W ||| PTE_U) = some t := by
      rw [BitVec.or_assoc, BitVec.or_assoc]
      exact leafOf_entry small (by decide) (by decide)
    have dirWrites : (s'.setPage t .zero).writable d := taken.writable taken.dir_mem
    simp only [wp_bind, wp_writePage writes, wp_store dirWrites, wp_pure]
    refine ⟨taken.addTable none entry, ?_, fun i hi => ?_, fun t' ht' => ?_, Or.inr ⟨t, rfl, ?_⟩⟩
    · intro v hv
      have hvd := (h.hand_apart hv).1
      have hvt : v ≠ t := by
        rintro rfl
        exact (Multiset.nodup_cons.1 taken.hand_nodup).1 hv
      rw [Phys.setEntry, page_setPage_of_ne _ hvd, page_setPage_of_ne _ hvt, same]
    · rw [table_setEntry, update_of_ne hi, table_setPage hd, table, same, table]
    · rw [table, ← same, ← table, none] at ht'
      cases ht'
    · rw [table_setEntry, update_self, entry]

/-! ## Entries of the user part -/

theorem table_ne_dir {t : ℕ} (ht : table s d i = some t) : t ≠ d := by
  rintro rfl
  exact h.dir_notMem.1 (mem_tables.2 ⟨i, ht⟩)

theorem table_apart {t : ℕ} (ht : table s d i = some t) : t ≠ d ∧ t ∉ (space s d).pages ∧
    ∀ j e, tables (s.setEntry t j e) d = tables s d := by
  refine ⟨h.table_ne_dir ht, ?_, fun j e => ?_⟩
  · rw [h.map]
    exact h.table_notMem (mem_tables.2 ⟨_, ht⟩)
  · rw [tables, tables, Phys.setEntry, table_setPage (h.table_ne_dir ht)]

theorem setEntry {t : ℕ} {hand' : Multiset ℕ} (ha : a < userPages)
    (ht : table s d (PDX a) = some t) (new : leafOf e ≠ some t)
    (account : hand' + ((leafOf e).toList : Multiset ℕ) = hand + ((m.leaf a).toList : Multiset ℕ)) :
    Owns R s₀ d hand' (m.setUser a ((leafOf e).map fun v => (e, s.page v)))
      (s.setEntry t (PTX a) e) := by
  obtain ⟨hd, apart, same⟩ := h.table_apart ht
  refine ⟨h.arena, h.within.setPage (h.table_mem ht) _, ?_, ?_⟩
  · rw [space_setEntry_user ha ht hd h.tables_nodup apart new, h.map]
  have moved := pages_update (m := m) ha ((leafOf e).map fun v => (e, s.page v))
  have leaf : ((leafOf e).map fun v => (e, s.page v)).map (fun y => PTE_ADDR y.1) = leafOf e := by
    cases he : leafOf e with
    | none => rfl
    | some v => simp [(leafOf_eq_some.1 he).2]
  rw [leaf] at moved
  rw [same, ← h.split]
  exact account_move moved account

theorem pte_user (ha : a < userPages) :
    m.user a = (leafOf (pte s d a)).map fun v => (pte s d a, s.page v) := by
  rw [← h.map, space_user ha]

theorem not_present_of_user (ha : a < userPages) (free : m.user a = none) :
    present (pte s d a) = false := by
  rw [h.pte_user ha, Option.map_eq_none_iff] at free
  cases there : present (pte s d a) with
  | false => rfl
  | true =>
    rw [leafOf, if_pos there] at free
    cases free

theorem pte_of_user (hm : m.user a = some (e, c)) :
    a < userPages ∧ pte s d a = e ∧ present e = true ∧ s.page (PTE_ADDR e) = c := by
  rw [← h.map] at hm
  exact space_user_eq_some.1 hm

theorem user_of_present (ha : a < userPages) (there : present (pte s d a) = true) :
    m.user a = some (pte s d a, s.page (PTE_ADDR (pte s d a))) := by
  rw [h.pte_user ha, leafOf, if_pos there, Option.map_some]

theorem table_of_user (hm : m.user a = some (e, c)) : ∃ t, table s d (PDX a) = some t := by
  obtain ⟨-, entry, there, -⟩ := h.pte_of_user hm
  cases ht : table s d (PDX a) with
  | some t => exact ⟨t, rfl⟩
  | none =>
    rw [pte_of_no_table ht] at entry
    rw [← entry] at there
    exact absurd there (by decide)

theorem rewritten (s' : Phys)
    (kept : ∀ v ∉ m.pages, s'.page v = s.page v) (rest : s'.freelist = s.freelist ∧
      s'.kdata = s.kdata ∧ s'.kend = s.kend ∧ s'.cr3 = s.cr3) :
    pte s' d = pte s d ∧ Tabled d s s' ∧ Owns R s₀ d hand (space s' d) s' := by
  obtain ⟨tab, entries⟩ := pte_congr (kept d h.dir_notMem.2) fun t ht => kept t (h.table_notMem ht)
  refine ⟨entries, .of_eq tab, h.arena, ⟨fun v hv => ?_, ?_, ?_, ?_⟩, rfl, ?_⟩
  · rw [kept v fun page => hv (h.page_mem page), h.within.page v hv]
  · rw [rest.2.1, h.within.kdata]
  · rw [rest.2.2.1, h.within.kend]
  · rw [rest.2.2.2, h.within.cr3]
  have leaf : (space s' d).leaf = m.leaf := by
    rw [← h.map]
    funext a
    by_cases ha : a < userPages
    · rw [leaf_space ha, leaf_space ha, entries]
    · simp only [Space.leaf, space, ha, if_false]
  rw [rest.1, tables, tab, Space.pages, leaf]
  exact h.split

end

theorem map_spec {perm : Word} (h : Owns R s₀ d (v ::ₘ hand) m s) (ha : a < userPages)
    (free : m.user a = none) (flags : perm.toNat < PGSIZE) :
    wp (mapLoop d perm 1 a (V2P v)) (fun r s' =>
      Tabled d s s' ∧ ((r = true ∧
        Owns R s₀ d hand (m.setUser a (some (V2P v ||| perm ||| PTE_P, s.page v))) s') ∨
      (r = false ∧ s'.freelist = [] ∧ Owns R s₀ d (v ::ₘ hand) m s'))) never s := by
  have mine := Multiset.mem_cons_self v hand
  have small : v < 2 ^ 20 := Nat.lt_trans (h.lt_top (h.mem_of_hand mine)) (by decide)
  simp only [mapLoop, wp_bind]
  apply wp_imp (h.walk_spec a)
  rintro r s' ⟨own, same, others, kept, found⟩
  have tabled : Tabled d s s' := by
    refine ⟨fun i t ht => ?_, fun gap => gap.walked others (Or.inl (Nat.lt_trans ha (by decide)))⟩
    by_cases hi : i = PDX a
    · rw [hi] at ht ⊢
      exact kept t ht
    · rw [others i hi, ht]
  rcases found with ⟨rfl, none⟩ | ⟨t, rfl, ht⟩
  · exact ⟨tabled, Or.inr ⟨rfl, none, own⟩⟩
  have hm := own.table_mem ht
  have absent := own.not_present_of_user ha free
  rw [pte_of_table (Nat.lt_trans ha (by decide)) ht] at absent
  simp only [wp_bind, wp_load (own.lt_top hm), absent, Bool.false_eq_true, if_false,
    wp_store (own.writable hm), wp_pure]
  refine ⟨tabled.trans (.of_eq ?_), Or.inl ⟨trivial, ?_⟩⟩
  · rw [Phys.setEntry, table_setPage (own.table_ne_dir ht)]
  have bits : (perm ||| PTE_P).toNat < PGSIZE := by
    rw [BitVec.toNat_or]
    exact Nat.or_lt_two_pow (show perm.toNat < 2 ^ 12 from flags) (by decide)
  have entry : leafOf (V2P v ||| perm ||| PTE_P) = some v := by
    rw [BitVec.or_assoc]
    refine leafOf_entry small bits ?_
    rw [BitVec.getLsbD_or, show PTE_P.getLsbD 0 = true from rfl, Bool.or_true]
  have apart : leafOf (V2P v ||| perm ||| PTE_P) ≠ some t := by
    rw [entry]
    rintro eq
    injection eq with eq
    exact (own.hand_apart mine).2.1 (eq ▸ mem_tables.2 ⟨_, ht⟩)
  have done : Owns R s₀ d hand _ _ := own.setEntry ha ht apart (by
    rw [entry, Space.leaf, free, Option.map_none, Option.toList_none, Option.toList_some,
      Multiset.coe_nil, add_zero, Multiset.coe_singleton, add_comm, Multiset.singleton_add])
  rw [entry, Option.map_some, same v mine] at done
  exact done

end Owns

end Xv6.Mem
