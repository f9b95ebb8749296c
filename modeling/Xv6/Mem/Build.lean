import Mathlib.Algebra.BigOperators.Fin
import Xv6.Mem.Pool

/-!
# Building and freeing address spaces

`deallocuvm` clears a range of user pages, `allocuvm` adds pages of zeros or leaves the map as it
is, `setupkvm` makes a map with the kernel part alone, and `freevm` puts every page back on the free
list.
-/

namespace Xv6.Mem

open Lib Function

variable {s : Phys} {m : Space} {sz : Word} {a hi lo t : ℕ}

/-! ## Sizes and page numbers -/

theorem PGROUNDUP_toNat (h : sz.toNat ≤ 2 ^ 32 - 2 ^ 12) :
    (PGROUNDUP sz).toNat = pagesBelow sz * PGSIZE := by
  have mask := toNat_and_not_mask (k := 12) (sz + 4095)
  have sum : (sz + 4095).toNat = sz.toNat + 4095 := by
    rw [BitVec.toNat_add, show (4095 : Word).toNat = 4095 from rfl, Nat.mod_eq_of_lt (by omega)]
  rw [sum] at mask
  exact mask

theorem pageNumber_PGROUNDUP (h : sz.toNat ≤ 2 ^ 32 - 2 ^ 12) :
    (PGROUNDUP sz).toNat / PGSIZE = pagesBelow sz := by
  rw [PGROUNDUP_toNat h, Nat.mul_div_cancel _ (by decide)]

theorem pagesBelow_le_userPages (h : sz.toNat ≤ 2 ^ 31) : pagesBelow sz ≤ userPages := by
  unfold pagesBelow
  simp only [PGSIZE, userPages]
  omega

theorem pagesBelow_mono {sz' : Word} (h : sz.toNat ≤ sz'.toNat) :
    pagesBelow sz ≤ pagesBelow sz' := by
  unfold pagesBelow
  exact Nat.div_le_div_right (by omega)

theorem pagesBelow_pos (some : sz ≠ 0) : 0 < pagesBelow sz := by
  have pos : 0 < sz.toNat := Nat.pos_of_ne_zero fun zero => some (BitVec.eq_of_toNat_eq zero)
  unfold pagesBelow
  simp only [PGSIZE]
  omega

theorem V2P_add (v w : ℕ) : V2P (v + w) = V2P v + V2P w := by
  rw [V2P, Nat.add_mul, BitVec.ofNat_add, V2P, V2P]

theorem V2P_sub {v w : ℕ} (h : w ≤ v) : V2P v - V2P w = V2P (v - w) := by
  have sum := V2P_add (v - w) w
  rw [Nat.sub_add_cancel h] at sum
  rw [sum, BitVec.add_sub_cancel]

theorem mappages_pages (d : ℕ) {n : ℕ} (pos : 0 < n) (fits : a + n ≤ 2 ^ 20) (pa perm : Word) :
    mappages d (V2P a) (V2P n) pa perm = mapLoop d perm n a pa := by
  have first : (V2P a).toNat / PGSIZE = a := by
    rw [V2P, BitVec.toNat_ofNat]
    simp only [PGSIZE]
    omega
  have last : (V2P a + V2P n - 1).toNat / PGSIZE = a + n - 1 := by
    rw [← V2P_add, V2P, BitVec.toNat_sub, BitVec.toNat_ofNat, show (1 : Word).toNat = 1 from rfl]
    simp only [PGSIZE]
    omega
  have turns : (a + n - 1 + 2 ^ 20 - a) % 2 ^ 20 + 1 = n := by omega
  simp only [mappages, first, last, turns]

theorem mappages_page (d : ℕ) (ha : a < userPages) (pa perm : Word) :
    mappages d (V2P a) 4096 pa perm = mapLoop d perm 1 a pa :=
  mappages_pages d Nat.one_pos (by simp only [userPages] at ha; omega) pa perm

/-! ## Clearing user pages -/

/-- The map without the user pages from `lo` up to `hi`. -/
def Space.clear (m : Space) (lo hi : ℕ) : Space :=
  ⟨fun a => if lo ≤ a ∧ a < hi then none else m.user a, m.kernel⟩

theorem Space.clear_of_forall (h : ∀ a, lo ≤ a → a < hi → m.user a = none) : m.clear lo hi = m := by
  ext1
  · funext a
    simp only [Space.clear]
    split
    case isTrue ha => rw [h a ha.1 ha.2]
    case isFalse => rfl
  · rfl

theorem Space.clear_setUser (ha : a < hi) : (m.setUser a none).clear (a + 1) hi = m.clear a hi := by
  ext1
  · funext b
    simp only [Space.clear]
    by_cases hb : b = a
    · subst b
      rw [if_neg (by omega), if_pos (by omega), Space.user_setUser_self]
    rw [Space.user_setUser_of_ne _ hb]
    simp only [show a + 1 ≤ b ↔ a ≤ b by omega]
  · rfl

/-! ## The pages that deallocuvm skips -/

/-- Free the page of an entry. -/
def freeEntry (t : ℕ) (i : Fin NPDENTRIES) : VM PUnit := do
  let pte ← load t i
  if present pte then
    if PTE_ADDR pte = 0 then throw (.panic "kfree")
    else
      kfree (PTE_ADDR pte)
      store t i 0
  else pure ⟨⟩

/-- The loop of `deallocuvm` at the virtual page `a`, where it looks at every page. -/
def freePage (pgdir a : ℕ) : VM PUnit := do
  match ← walkpgdir pgdir a false with
  | none => pure ⟨⟩
  | some (t, i) => freeEntry t i

section Skip

variable {d hi : ℕ} {s : Phys}

theorem exec_walk (low : d < topPage) : exec (walkpgdir d a false) s =
    (.ok ((table s d (PDX a)).map fun t => (t, PTX a)), s) := by
  obtain ⟨r, s', run, rfl, rfl⟩ := exists_ok_of_wp (Q := fun r s' =>
    r = (table s d (PDX a)).map (fun t => (t, PTX a)) ∧ s' = s) ((wp_walk low).2 ⟨rfl, rfl⟩)
  exact run

theorem exec_walk_trap (high : ¬ d < topPage) :
    exec (walkpgdir d a false) s = (.error (.panic "trap"), s) := by
  simp only [walkpgdir, load, readPage, if_neg high]
  rfl

theorem exec_freePages_skip (low : d < topPage) (none : table s d (PDX a) = none) {b : ℕ}
    (ge : a ≤ b) (le : b ≤ (a / 1024 + 1) * 1024) :
    exec (forM (List.range' a (hi - a)) (freePage d)) s =
      exec (forM (List.range' b (hi - b)) (freePage d)) s := by
  induction b, ge using Nat.le_induction with
  | base => rfl
  | succ b ge ih =>
    rw [ih (by omega)]
    by_cases inside : b < hi
    · have same : PDX b = PDX a := by simp only [PDX, show b / 1024 = a / 1024 by omega]
      rw [show hi - b = hi - (b + 1) + 1 by omega, List.range'_succ, List.forM_cons, exec_bind,
        freePage, exec_bind, exec_walk low, same, none]
      rfl
    · rw [show hi - b = 0 by omega, show hi - (b + 1) = 0 by omega, List.range'_zero,
        List.range'_zero]

theorem exec_deallocLoop : ∀ (fuel a : ℕ) (s : Phys), hi ≤ a + fuel →
    exec (deallocLoop d hi fuel a) s = exec (forM (List.range' a (hi - a)) (freePage d)) s
  | 0, a, s, enough => by
      rw [show hi - a = 0 by omega]
      rfl
  | fuel + 1, a, s, enough => by
      rw [deallocLoop]
      split
      case isFalse past =>
        rw [show hi - a = 0 by omega]
        rfl
      case isTrue inside =>
        by_cases low : d < topPage
        swap
        · rw [show hi - a = hi - (a + 1) + 1 by omega, List.range'_succ, List.forM_cons, exec_bind,
            exec_bind, freePage, exec_bind, exec_walk_trap low]
        rw [exec_bind, exec_walk low]
        cases ht : table s d (PDX a) with
        | none =>
          rw [exec_freePages_skip low ht (by omega) (Nat.le_refl _)]
          exact exec_deallocLoop fuel _ s (by omega)
        | some t =>
          have visit : (do
              let pte ← load t (PTX a)
              if present pte then
                if PTE_ADDR pte = 0 then throw (.panic "kfree")
                else
                  kfree (PTE_ADDR pte)
                  store t (PTX a) 0
                  deallocLoop d hi fuel (a + 1)
              else deallocLoop d hi fuel (a + 1)) =
              (freeEntry t (PTX a) >>= fun _ => deallocLoop d hi fuel (a + 1) : VM PUnit) := by
            rw [freeEntry, bind_assoc]
            congr 1
            funext pte
            split
            · split
              · rfl
              · rw [bind_assoc]
            · rfl
          rw [show hi - a = hi - (a + 1) + 1 by omega, List.range'_succ, List.forM_cons, exec_bind,
            freePage, exec_bind, exec_walk low, ht]
          simp only [Option.map_some]
          rw [visit, exec_bind]
          split
          · exact exec_deallocLoop fuel (a + 1) _ (by omega)
          · rfl

end Skip

theorem freed_setEntry (s : Phys) {v : ℕ} (h : v ≠ t) (i : Fin NPDENTRIES) (e : Word) :
    (s.freed v).setEntry t i e = (s.setEntry t i e).freed v := by
  have same : (s.freed v).page t = s.page t := page_setPage_of_ne s (Ne.symm h) _
  rw [Phys.setEntry, same]
  have swap := setPage_comm (s := s) h (freeContents s.freelist)
    ((s.page t).write (4 * i) (leBytes e))
  simp only [Phys.freed, Phys.setEntry, Phys.setPage] at swap ⊢
  rw [Phys.mk.injEq] at swap
  rw [swap.2.1]

namespace Owns

variable {R hand : Multiset ℕ} {s₀ s : Phys} {d v a : ℕ} {m : Space}

theorem unmap {e : Word} {c : Contents} (h : Owns R s₀ d hand m s) (hm : m.user a = some (e, c))
    (ht : table s d (PDX a) = some t) :
    Owns R s₀ d hand (m.setUser a none) ((s.freed (PTE_ADDR e)).setEntry t (PTX a) 0) := by
  have ha := (h.pte_of_user hm).1
  have used := mem_pages_of_user ha hm
  have ne : PTE_ADDR e ≠ t := by
    rintro eq
    exact h.table_notMem (mem_tables.2 ⟨_, ht⟩) (eq ▸ used)
  rw [freed_setEntry s ne]
  apply Owns.give
  have zero : leafOf 0 = none := rfl
  have done : Owns R s₀ d (PTE_ADDR e ::ₘ hand) _ _ :=
    h.setEntry (e := 0) ha ht (by rw [zero]; simp) (by
    rw [zero, Space.leaf, hm, Option.map_some, Option.toList_none, Option.toList_some,
      Multiset.coe_nil, add_zero, Multiset.coe_singleton, add_comm, Multiset.singleton_add])
  rwa [zero, Option.map_none] at done

/-- The entries of the directory `d`, where those that satisfy `P` and were present are now 0. -/
structure Zeroed (P : ℕ → Prop) [DecidablePred P] (d : ℕ) (s s' : Phys) : Prop where
  table : Mem.table s' d = Mem.table s d
  pte : ∀ b, Mem.pte s' d b = if P b ∧ present (Mem.pte s d b) then 0 else Mem.pte s d b

theorem freePage_spec (ha : a < userPages) (h : Owns R s₀ d hand m s) :
    wp (freePage d a) (fun _ s' => Owns R s₀ d hand (m.setUser a none) s' ∧ Zeroed (· = a) d s s')
      never s := by
  have stay (absent : present (pte s d a) = false) :
      Owns R s₀ d hand (m.setUser a none) s ∧ Zeroed (· = a) d s s := by
    have user : m.user a = none := by
      rw [h.pte_user ha, leafOf_of_not_present absent, Option.map_none]
    refine ⟨?_, rfl, fun b => ?_⟩
    · rwa [Space.setUser, ← user, update_eq_self]
    rw [if_neg]
    rintro ⟨rfl, there⟩
    rw [absent] at there
    cases there
  rw [freePage, wp_bind, wp_walk (h.lt_top h.dir_mem)]
  cases ht : Mem.table s d (PDX a) with
  | none =>
    rw [Option.map_none, wp_pure]
    apply stay
    rw [pte_of_no_table ht]
    rfl
  | some t =>
    have hm := h.table_mem ht
    have entry := pte_of_table (Nat.lt_trans ha (by decide)) ht
    simp only [Option.map_some, freeEntry, wp_bind, wp_load (h.lt_top hm)]
    rw [← entry, wp_ite, wp_pure]
    refine ⟨fun there => ?_, fun absent => stay (by simpa using absent)⟩
    have user := h.user_of_present ha there
    have page := mem_pages_of_user ha user
    have used := h.page_mem page
    have pos : PTE_ADDR (pte s d a) ≠ 0 := by
      have := h.arena.ram _ used
      have := h.arena.text
      omega
    have stays : (s.freed (PTE_ADDR (pte s d a))).writable t := h.writable hm
    simp only [if_neg pos, wp_bind, wp_kfree (h.writable used) (h.kend_le used), wp_store stays]
    have offDir : PTE_ADDR (pte s d a) ≠ d := fun eq => h.dir_notMem.2 (eq ▸ page)
    have offTab : PTE_ADDR (pte s d a) ∉ tables s d := fun tab => h.table_notMem tab page
    have tab : Mem.table (s.freed (PTE_ADDR (pte s d a))) d = Mem.table s d := table_setPage offDir _
    have entries : pte (s.freed (PTE_ADDR (pte s d a))) d = pte s d := pte_setPage offDir offTab _
    refine ⟨h.unmap user ht, ?_, fun b => ?_⟩
    · rw [Phys.setEntry, table_setPage (h.table_ne_dir ht), tab]
    rw [pte_setEntry (Nat.lt_trans ha (by decide)) (by rw [tab, ht]) (h.table_ne_dir ht)
      (by rw [tables, tab]; exact h.tables_nodup), entries, update_apply]
    by_cases same : b = a
    · rw [if_pos same, if_pos ⟨same, same ▸ there⟩]
    · rw [if_neg same, if_neg fun both => same both.1]

theorem freePages_spec : ∀ (n a : ℕ) (m : Space) (s : Phys), a + n ≤ userPages →
    Owns R s₀ d hand m s → wp (forM (List.range' a n) (freePage d))
      (fun _ s' => Owns R s₀ d hand (m.clear a (a + n)) s' ∧
        Zeroed (fun b => a ≤ b ∧ b < a + n) d s s') never s
  | 0, a, m, s, _, h => by
      rw [List.range'_zero, List.forM_nil, wp_pure, Space.clear_of_forall fun b _ _ => by omega]
      exact ⟨h, rfl, fun b => by rw [if_neg (by omega)]⟩
  | n + 1, a, m, s, fits, h => by
      rw [List.range'_succ, List.forM_cons]
      apply wp_next (h.freePage_spec (by omega))
      rintro _ s₁ ⟨own, tab, entries⟩
      apply wp_imp (freePages_spec n (a + 1) _ s₁ (by omega) own)
      rintro _ s₂ ⟨own', tab', entries'⟩
      rw [show a + 1 + n = a + (n + 1) by omega, Space.clear_setUser (by omega)] at own'
      refine ⟨own', tab'.trans tab, fun b => ?_⟩
      by_cases here : b = a
      · subst here
        rw [entries', if_neg (by omega), entries]
        simp only [true_and, show b ≤ b ∧ b < b + (n + 1) by omega]
      have same : pte s₁ d b = pte s d b := by rw [entries, if_neg fun both => here both.1]
      rw [entries', same]
      simp only [show a + 1 ≤ b ∧ b < a + 1 + n ↔ a ≤ b ∧ b < a + (n + 1) by omega]

theorem deallocuvm_spec {oldsz newsz : Word} (small : oldsz.toNat ≤ 2 ^ 31)
    (h : Owns R s₀ d hand m s) :
    wp (deallocuvm d oldsz newsz) (fun r s' => if oldsz ≤ newsz then r = oldsz ∧ s' = s else
      r = newsz ∧ Owns R s₀ d hand (m.clear (pagesBelow newsz) (pagesBelow oldsz)) s' ∧
        Zeroed (fun b => pagesBelow newsz ≤ b ∧ b < pagesBelow oldsz) d s s') never s := by
  rw [deallocuvm, wp_ite]
  refine ⟨fun le => ?_, fun gt => ?_⟩
  · rw [wp_pure, if_pos le]
    exact ⟨rfl, rfl⟩
  have below : newsz.toNat < oldsz.toNat := by simpa [BitVec.le_def] using gt
  rw [wp_bind, pageNumber_PGROUNDUP (by omega)]
  have pages := pagesBelow_mono (show newsz.toNat ≤ oldsz.toNat by omega)
  have freed := freePages_spec (pagesBelow oldsz - pagesBelow newsz) (pagesBelow newsz) m s (by
    have := pagesBelow_le_userPages small
    omega) h
  rw [Nat.add_sub_cancel' pages] at freed
  rw [wp_congr (exec_deallocLoop _ _ s (by omega))]
  apply wp_imp freed
  intro _ s' own
  rw [wp_pure, if_neg gt]
  exact ⟨rfl, own⟩

end Owns

/-! ## Freeing an address space -/

/-- The pages of the page tables at the places `l` of a directory with contents `c`. -/
def tablesAt (c : Contents) (l : List (Fin NPDENTRIES)) : Multiset ℕ :=
  (l.map fun i : Fin NPDENTRIES => ((leafOf (c.word (4 * i))).toList : Multiset ℕ)).sum

theorem tables_eq_tablesAt (s : Phys) (d : ℕ) :
    tables s d = tablesAt (s.page d) (List.finRange NPDENTRIES) := by
  rw [tables, held, Fin.sum_univ_def]
  rfl

/-- In the loop of `freevm`: the user pages and the page tables before the places `l` are free. -/
structure Freeing (R : Multiset ℕ) (s₀ : Phys) (d : ℕ) (hand : Multiset ℕ) (c : Contents)
    (l : List (Fin NPDENTRIES)) (s : Phys) : Prop where
  arena : Arena R s₀
  within : Within R s₀ s
  dir : s.page d = c
  split : (s.freelist : Multiset ℕ) + hand + (d ::ₘ tablesAt c l) = R

namespace Freeing

variable {R hand : Multiset ℕ} {s₀ s : Phys} {d v : ℕ} {c : Contents} {l : List (Fin NPDENTRIES)}

theorem writable (h : Freeing R s₀ d hand c l s) (hv : v ∈ R) : s.writable v ∧ s.kend ≤ v := by
  have ram := h.arena.ram v hv
  have text := h.arena.text
  unfold Phys.writable
  rw [h.within.kdata, h.within.kend]
  omega

theorem dir_mem (h : Freeing R s₀ d hand c l s) : d ∈ R := by
  rw [← h.split]
  simp

theorem cons_of_none {i : Fin NPDENTRIES} (h : Freeing R s₀ d hand c (i :: l) s)
    (none : leafOf (c.word (4 * i)) = none) : Freeing R s₀ d hand c l s := by
  refine ⟨h.arena, h.within, h.dir, ?_⟩
  have split := h.split
  rw [tablesAt, List.map_cons, List.sum_cons, none, Option.toList_none, Multiset.coe_nil,
    zero_add] at split
  exact split

theorem cons_of_some {i : Fin NPDENTRIES} (h : Freeing R s₀ d hand c (i :: l) s)
    (hv : leafOf (c.word (4 * i)) = some v) : v ∈ R ∧ Freeing R s₀ d hand c l (s.freed v) := by
  have split := h.split
  rw [tablesAt, List.map_cons, List.sum_cons, hv, Option.toList_some, Multiset.coe_singleton,
    Multiset.singleton_add] at split
  have mem : v ∈ R := by
    rw [← split]
    simp
  have ne : d ≠ v := by
    have once := h.arena.nodup
    rw [← split, Multiset.nodup_add, Multiset.nodup_cons] at once
    rintro rfl
    exact once.2.1.1 (Multiset.mem_cons_self _ _)
  refine ⟨mem, h.arena, ?_, ?_, ?_⟩
  · have := h.within.setPage mem (freeContents s.freelist)
    exact ⟨this.page, this.kdata, this.kend, this.cr3⟩
  · rw [← h.dir]
    exact page_setPage_of_ne s ne _
  rw [← split]
  show ((v :: s.freelist : List ℕ) : Multiset ℕ) + hand + _ = _
  rw [coe_cons_add]
  simp only [Multiset.add_cons, Multiset.cons_add]
  rfl

theorem freeTables_spec : ∀ (l : List (Fin NPDENTRIES)) (s : Phys), Freeing R s₀ d hand c l s →
    wp (freeTables d l) (fun _ s' => Freeing R s₀ d hand c [] s') never s
  | [], s, h => by
      rw [freeTables, wp_pure]
      exact h
  | i :: l, s, h => by
      have dirOk := (h.writable h.dir_mem).1
      rw [freeTables, wp_bind, wp_load dirOk.1, h.dir]
      dsimp only
      rw [wp_ite]
      refine ⟨fun there => ?_, fun absent => ?_⟩
      · obtain ⟨mem, next⟩ := h.cons_of_some (v := PTE_ADDR (c.word (4 * i)))
          (by rw [leafOf, if_pos there])
        rw [wp_bind, wp_kfree (h.writable mem).1 (h.writable mem).2]
        exact freeTables_spec l _ next
      · exact freeTables_spec l s (h.cons_of_none (by rw [leafOf, if_neg absent]))

end Freeing

theorem Space.pages_clear (m : Space) : (m.clear 0 userPages).pages = 0 := by
  apply held_eq_zero
  intro a ha
  have below := Finset.mem_range.1 ha
  rw [Space.leaf, Space.clear]
  simp only [Nat.zero_le, below, and_self, if_true, Option.map_none]

theorem Owns.freevm_spec {R hand : Multiset ℕ} {s₀ : Phys} {d : ℕ} (h : Owns R s₀ d hand m s) :
    wp (freevm d) (fun _ s' => Within R s₀ s' ∧ (s'.freelist : Multiset ℕ) + hand = R) never s := by
  rw [freevm]
  apply wp_next (h.deallocuvm_spec (by decide))
  intro r s' freed
  rw [if_neg (by decide)] at freed
  have own := freed.2.1
  have below : pagesBelow 0 = 0 := rfl
  have all : pagesBelow KERNBASE = userPages := by decide
  rw [below, all] at own
  have start : Freeing R s₀ d hand (s'.page d) (List.finRange NPDENTRIES) s' := by
    refine ⟨own.arena, own.within, rfl, ?_⟩
    rw [← tables_eq_tablesAt, ← own.split, Space.pages_clear, add_zero]
  rw [wp_bind]
  -- so that Lean does not run the loop
  generalize List.finRange NPDENTRIES = places at start ⊢
  apply wp_imp (start.freeTables_spec)
  intro _ s'' done
  have dirOk := done.writable done.dir_mem
  rw [wp_kfree dirOk.1 dirOk.2]
  constructor
  · have := done.within.setPage done.dir_mem (freeContents s''.freelist)
    exact ⟨this.page, this.kdata, this.kend, this.cr3⟩
  rw [← done.split]
  show ((d :: s''.freelist : List ℕ) : Multiset ℕ) + hand = _
  rw [coe_cons_add, Multiset.add_cons, Multiset.add_cons]
  simp [tablesAt]

/-! ## The kernel part -/

def Space.empty : Space := ⟨fun _ => none, fun _ => 0⟩

theorem Space.pages_of_user (user : m.user = Space.empty.user) : m.pages = 0 := by
  apply held_eq_zero
  intro a _
  rw [Space.leaf, user]
  rfl

theorem table_zero (s : Phys) (d : ℕ) : table (s.setPage d .zero) d = fun _ => none := by
  funext i
  rw [table, page_setPage_self, Bytes.word_zero]
  rfl

theorem space_zero (s : Phys) (d : ℕ) : space (s.setPage d .zero) d = Space.empty := by
  have entries (a : ℕ) : pte (s.setPage d .zero) d a = 0 := pte_of_no_table (by rw [table_zero])
  ext1
  · funext a
    by_cases ha : a < userPages
    · rw [space_user ha, entries]
      rfl
    · simp only [space, ha, if_false, Space.empty]
  · funext a
    simp only [space, entries, ite_self, Space.empty]

theorem Owns.start {d : ℕ} {next : List ℕ} (arena : Arena s.freelist s)
    (free : s.freelist = d :: next) :
    Owns s.freelist s d 0 Space.empty (({ s with freelist := next } : Phys).setPage d .zero) := by
  have noTable := table_zero { s with freelist := next } d
  have mem : d ∈ (s.freelist : Multiset ℕ) := by simp [free]
  refine ⟨arena, ?_, space_zero _ _, ?_⟩
  · have := (Within.refl (s.freelist : Multiset ℕ) s).setPage mem .zero
    exact ⟨this.page, this.kdata, this.kend, this.cr3⟩
  have none : tables (({ s with freelist := next } : Phys).setPage d .zero) d = 0 := by
    rw [tables, noTable]
    exact held_eq_zero fun _ _ => rfl
  rw [none, Space.pages_of_user rfl, free]
  show (next : Multiset ℕ) + 0 + (d ::ₘ (0 + 0)) = _
  rw [add_zero, add_zero, Multiset.add_cons, add_zero, Multiset.cons_coe]

/-- No entry from `KERNBASE` on is for the user, and from `lo` on there are none. -/
structure KernelUpTo (lo : ℕ) (m : Space) : Prop where
  noUser : ∀ a, userPages ≤ a → forUser (m.kernel a) = false
  free : ∀ a, lo ≤ a → m.kernel a = 0

/-- The kernel part: out of reach for the user, and present for the devices at the end. -/
structure KernelPart (m : Space) : Prop where
  noUser : ∀ a, userPages ≤ a → forUser (m.kernel a) = false
  devices : ∀ a, 0xFE000 ≤ a → a < 2 ^ 20 → present (m.kernel a) = true

namespace Owns

variable {R hand : Multiset ℕ} {s₀ s : Phys} {d v a : ℕ} {m : Space}

theorem setKernelEntry {e : Word} (h : Owns R s₀ d hand m s) (ha : userPages ≤ a)
    (small : a < 2 ^ 20) (ht : table s d (PDX a) = some t) :
    Owns R s₀ d hand (m.setKernel a e) (s.setEntry t (PTX a) e) := by
  obtain ⟨hd, apart, same⟩ := h.table_apart ht
  refine ⟨h.arena, h.within.setPage (h.table_mem ht) _, ?_, ?_⟩
  · rw [space_setEntry_kernel ha small ht hd h.tables_nodup apart, h.map]
  rw [same]
  exact h.split

theorem pte_kernel (h : Owns R s₀ d hand m s) (ha : userPages ≤ a) : m.kernel a = pte s d a := by
  rw [← h.map]
  exact if_neg (by omega)

theorem mapLoop_spec {perm : Word} (plain : forUser perm = false) : ∀ (n a x : ℕ) (m : Space)
    (s : Phys), userPages ≤ a → a + n ≤ 2 ^ 20 → KernelUpTo a m → Owns R s₀ d hand m s →
      wp (mapLoop d perm n a (V2P x)) (fun r s' => ∃ m', Owns R s₀ d hand m' s' ∧
        m'.user = m.user ∧ (∀ b < a, m'.kernel b = m.kernel b) ∧ KernelUpTo (a + n) m' ∧
        (a + n ≤ 0x8E000 ∨ 0xFE000 ≤ a → Gap s d → Gap s' d) ∧ (r = false → s'.freelist = []) ∧
        (r = true → ∀ b, a ≤ b → b < a + n → present (m'.kernel b) = true)) never s
  | 0, a, x, m, s, _, _, part, h => by
      rw [mapLoop, wp_pure]
      exact ⟨m, h, rfl, fun _ _ => rfl, part, fun _ gap => gap, by simp, fun _ b ge lt => by omega⟩
  | n + 1, a, x, m, s, lo, fits, part, h => by
      rw [mapLoop]
      apply wp_next (h.walk_spec a)
      rintro r s' ⟨own, -, others, -, found⟩
      have walked (out : a + (n + 1) ≤ 0x8E000 ∨ 0xFE000 ≤ a) (gap : Gap s d) : Gap s' d :=
        gap.walked others (by omega)
      rcases found with ⟨rfl, none⟩ | ⟨t, rfl, ht⟩
      · exact ⟨m, own, rfl, fun _ _ => rfl, ⟨part.noUser, fun b hb => part.free b (by omega)⟩,
          walked, fun _ => none, by simp⟩
      have hm := own.table_mem ht
      have entry := own.pte_kernel lo
      rw [part.free a (Nat.le_refl a), pte_of_table (by omega) ht] at entry
      simp only [wp_bind, wp_load (own.lt_top hm), ← entry]
      rw [if_neg (by decide), wp_bind, wp_store (own.writable hm)]
      have next := own.setKernelEntry (e := V2P x ||| perm ||| PTE_P) lo (by omega) ht
      have stored (gap : Gap s' d) := gap.setEntry (own.table_ne_dir ht) (PTX a)
        (V2P x ||| perm ||| PTE_P)
      generalize s'.setEntry t (PTX a) (V2P x ||| perm ||| PTE_P) = s'' at next stored ⊢
      have part' : KernelUpTo (a + 1) (m.setKernel a (V2P x ||| perm ||| PTE_P)) := by
        constructor
        · intro b hb
          by_cases hab : b = a
          · subst b
            rw [Space.kernel_setKernel_self, forUser_eq, BitVec.getLsbD_or, BitVec.getLsbD_or,
              getLsbD_V2P x (by decide), ← forUser_eq perm, plain]
            rfl
          · rw [Space.kernel_setKernel_of_ne _ hab]
            exact part.noUser b hb
        · intro b hb
          rw [Space.kernel_setKernel_of_ne _ (by omega)]
          exact part.free b (by omega)
      have there : present ((m.setKernel a (V2P x ||| perm ||| PTE_P)).kernel a) = true := by
        rw [Space.kernel_setKernel_self, present_or_P]
      have step : V2P x + 4096 = V2P (x + 1) := (V2P_add x 1).symm
      rw [step]
      rcases Nat.eq_zero_or_pos n with rfl | pos
      · rw [mapLoop, wp_pure]
        refine
          ⟨_, next, rfl, fun b lt => ?_, part', fun out gap => stored (walked out gap), by simp,
          fun _ b ge lt => ?_⟩
        · exact Space.kernel_setKernel_of_ne _ (by omega) _
        · rwa [show b = a by omega]
      rw [Nat.mod_eq_of_lt (by omega)]
      apply wp_imp (mapLoop_spec plain n (a + 1) (x + 1) _ _ (by omega) (by omega) part' next)
      rintro r s₃ ⟨m', done, user, below, kernel, gap', full, all⟩
      refine ⟨m', done, user, fun b lt => ?_, ?_, fun out gap => ?_, full, fun ok b ge lt => ?_⟩
      · rw [below b (by omega), Space.kernel_setKernel_of_ne _ (by omega)]
      · rwa [show a + (n + 1) = a + 1 + n by omega]
      · exact gap' (by omega) (stored (walked out gap))
      by_cases hab : b = a
      · rw [hab, below a (by omega)]
        exact there
      · exact all ok b (by omega) (by omega)

theorem mapRange {n x : ℕ} {perm : Word} (plain : forUser perm = false) (pos : 0 < n)
    (above : lo ≤ a) (ha : userPages ≤ a) (fits : a + n ≤ 2 ^ 20) (part : KernelUpTo lo m)
    (h : Owns R s₀ d hand m s) :
    wp (mappages d (V2P a) (V2P n) (V2P x) perm) (fun r s' => ∃ m', Owns R s₀ d hand m' s' ∧
        m'.user = m.user ∧ KernelUpTo (a + n) m' ∧
        (a + n ≤ 0x8E000 ∨ 0xFE000 ≤ a → Gap s d → Gap s' d) ∧ (r = false → s'.freelist = []) ∧
        (r = true → ∀ b, a ≤ b → b < a + n → present (m'.kernel b) = true)) never s := by
  rw [mappages_pages d pos fits]
  apply wp_imp (mapLoop_spec plain n a x m s ha fits
    ⟨part.noUser, fun b hb => part.free b (by omega)⟩ h)
  rintro r s' ⟨m', own, user, -, rest⟩
  exact ⟨m', own, user, rest⟩

theorem mapKernel_spec (h : Owns R s₀ d 0 Space.empty s) (layout : s₀.kdata < topPage) :
    wp (mapKernel d (kmap s₀.kdata)) (fun r s' => ∃ m', Owns R s₀ d 0 m' s' ∧
      m'.user = Space.empty.user ∧ (r = false → s'.freelist = []) ∧
      (r = true → KernelPart m' ∧ (Gap s d → Gap s' d))) never s := by
  have text := h.arena.text
  have kdata : s₀.kdata < 0xE000 := layout
  -- the lines of `kmap` by their pages
  have textSize : V2P s₀.kdata - (KERNLINK - KERNBASE) = V2P (s₀.kdata - 0x100) :=
    V2P_sub (v := s₀.kdata) (w := 0x100) (by omega)
  have dataSize : PHYSTOP - V2P s₀.kdata = V2P (0xE000 - s₀.kdata) :=
    V2P_sub (v := 0xE000) (by omega)
  have dataStart : KERNBASE + V2P s₀.kdata = V2P (0x80000 + s₀.kdata) := by
    rw [V2P_add]
    rfl
  have ioSize : EXTMEM - 0 = V2P 0x100 := rfl
  have devSize : (0 : Word) - DEVSPACE = V2P 0x2000 := rfl
  have ioStart : KERNBASE = V2P 0x80000 := rfl
  have textStart : KERNLINK = V2P 0x80100 := rfl
  have textPhys : V2P 0x80100 - V2P 0x80000 = V2P 0x100 := rfl
  have devStart : DEVSPACE = V2P 0xFE000 := rfl
  have zero : (0 : Word) = V2P 0 := rfl
  have none : KernelUpTo userPages Space.empty :=
    ⟨fun _ _ => show forUser 0 = false by decide, fun _ _ => rfl⟩
  have user : userPages = 0x80000 := rfl
  simp only [kmap, mapKernel, wp_bind, textSize, dataSize, dataStart, ioSize, devSize]
  rw [ioStart, textStart, textPhys, devStart, zero]
  apply wp_imp (mapRange (by decide) (by decide) (by decide) (by decide) (by decide) none h)
  rintro r s₁ ⟨m₁, own₁, user₁, part₁, gap₁, full₁, -⟩
  rw [wp_ite]
  refine ⟨fun _ => ?_, fun no => ⟨m₁, own₁, user₁, fun _ => full₁ (by simpa using no), by simp⟩⟩
  apply wp_next (mapRange (by decide) (by omega) (by decide) (by decide) (by omega) part₁ own₁)
  rintro r s₂ ⟨m₂, own₂, user₂, part₂, gap₂, full₂, -⟩
  rw [user₁] at user₂
  rw [wp_ite]
  refine ⟨fun _ => ?_, fun no => ⟨m₂, own₂, user₂, fun _ => full₂ (by simpa using no), by simp⟩⟩
  apply wp_next (mapRange (by decide) (by omega) (by omega) (by omega) (by omega) part₂ own₂)
  rintro r s₃ ⟨m₃, own₃, user₃, part₃, gap₃, full₃, -⟩
  rw [user₂] at user₃
  rw [wp_ite]
  refine ⟨fun _ => ?_, fun no => ⟨m₃, own₃, user₃, fun _ => full₃ (by simpa using no), by simp⟩⟩
  apply wp_next (mapRange (by decide) (by decide) (by omega) (by decide) (by decide) part₃ own₃)
  rintro r s₄ ⟨m₄, own₄, user₄, part₄, gap₄, full₄, all₄⟩
  rw [user₃] at user₄
  rw [wp_ite]
  refine ⟨fun yes => ?_, fun no => ⟨m₄, own₄, user₄, fun _ => full₄ (by simpa using no), by simp⟩⟩
  refine ⟨m₄, own₄, user₄, by simp, fun _ =>
    ⟨⟨part₄.noUser, fun b ge lt => all₄ yes b ge (by omega)⟩, fun gap => ?_⟩⟩
  exact gap₄ (by omega) (gap₃ (by omega) (gap₂ (by omega) (gap₁ (by omega) gap)))

theorem card_le (h : Owns R s₀ d hand m s) (none : s.freelist = []) :
    R.card ≤ hand.card + (1 + NPDENTRIES + m.pages.card) := by
  have few : (tables s d).card ≤ NPDENTRIES := by
    have := card_held_le Finset.univ (table s d)
    rwa [Finset.card_univ, Fintype.card_fin] at this
  rw [← h.split, none, Multiset.card_add, Multiset.card_add, Multiset.card_cons, Multiset.card_add,
    Multiset.coe_nil, Multiset.card_zero]
  omega

end Owns

theorem setupkvm_spec (arena : Arena s.freelist s) :
    wp setupkvm (fun r s' =>
      (r = none ∧ s.freelist.length ≤ 1 + NPDENTRIES ∧ Within s.freelist s s' ∧
        (s'.freelist : Multiset ℕ) = s.freelist) ∨
      ∃ d m, r = some d ∧ Owns s.freelist s d 0 m s' ∧ m.user = Space.empty.user ∧ KernelPart m ∧
        Gap s' d) never s := by
  rw [setupkvm, wp_bind]
  cases free : s.freelist with
  | nil =>
    simp only [kalloc, free, wp_bind, wp_get, wp_pure]
    refine Or.inl ⟨trivial, Nat.zero_le _, Within.refl _ _, trivial⟩
  | cons d next =>
    have own := Owns.start arena free
    have layout : s.kdata < topPage := by
      have := arena.ram d (by simp [free])
      have := arena.text
      omega
    have writes : ({ s with freelist := next } : Phys).writable d := own.writable own.dir_mem
    simp only [kalloc, free, wp_bind, wp_get, wp_set, wp_pure, wp_writePage writes]
    rw [if_neg (by decide), wp_bind, wp_get, wp_bind]
    rw [free] at own
    have gap : Gap (({ s with freelist := next } : Phys).setPage d .zero) d := by
      intro i _ _
      rw [table_zero]
    generalize ({ s with freelist := next } : Phys).setPage d .zero = s₁ at own gap ⊢
    rw [own.within.kdata]
    apply wp_imp (own.mapKernel_spec layout)
    rintro r s₂ ⟨m, own', user, full, part⟩
    rw [wp_ite]
    refine ⟨fun yes => Or.inr ⟨d, m, rfl, own', user, (part yes).1, (part yes).2 gap⟩, fun no => ?_⟩
    have few := own'.card_le (full (by simpa using no))
    rw [Space.pages_of_user user, Multiset.card_zero, Multiset.coe_card] at few
    apply wp_next own'.freevm_spec
    rintro _ s₃ ⟨within, all⟩
    rw [add_zero] at all
    exact Or.inl ⟨rfl, by omega, within, all⟩

end Xv6.Mem
