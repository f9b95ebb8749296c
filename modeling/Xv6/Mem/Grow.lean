import Xv6.Mem.Build

/-!
# Growing and shrinking a process

`growproc` sets the size of a process to what `allocuvm` or `deallocuvm` return.  These use 0 as the
error value, and sizes are added modulo 2^32.
-/

namespace Xv6.Mem

open Lib

/-! ## allocuvm -/

def Fresh (x : Option (Word × Contents)) : Prop :=
  ∃ v, x = some (V2P v ||| (PTE_W ||| PTE_U) ||| PTE_P, Bytes.zero)

/-- The map `m'` is `m` with fresh user pages from `lo` up to `hi`. -/
structure Grown (lo hi : ℕ) (m m' : Space) : Prop where
  kernel : m'.kernel = m.kernel
  fresh : ∀ a, lo ≤ a → a < hi → Fresh (m'.user a)
  user : ∀ a, a < lo ∨ hi ≤ a → m'.user a = m.user a

theorem Grown.full {lo hi : ℕ} {m m' : Space} (grown : Grown lo hi m m')
    (full : ∀ a, m.user a ≠ none ↔ a < lo) (le : lo ≤ hi) (a : ℕ) : m'.user a ≠ none ↔ a < hi := by
  by_cases low : a < lo
  · rw [grown.user a (Or.inl low)]
    exact ⟨fun _ => Nat.lt_of_lt_of_le low le, fun _ => (full a).2 low⟩
  by_cases high : a < hi
  · obtain ⟨v, fresh⟩ := grown.fresh a (by omega) high
    rw [fresh]
    simp [high]
  rw [grown.user a (Or.inr (by omega))]
  exact ⟨fun some => absurd ((full a).1 some) low, fun lt => absurd lt high⟩

theorem Space.clear_setUser_of_mem {m : Space} {a lo hi : ℕ} (ge : lo ≤ a) (lt : a < hi)
    (x : Option (Word × Contents)) : (m.setUser a x).clear lo hi = m.clear lo hi := by
  ext1
  · funext b
    simp only [Space.clear]
    split
    case isTrue => rfl
    case isFalse out => rw [Space.user_setUser_of_ne _ (by rintro rfl; exact out ⟨ge, lt⟩)]
  · rfl

theorem Space.card_pages_setUser {m : Space} {a : ℕ} (ha : a < userPages) (none : m.user a = none)
    (x : Word × Contents) : (m.setUser a (some x)).pages.card = m.pages.card + 1 := by
  have moved := congrArg Multiset.card (pages_update (m := m) ha (some x))
  rw [Space.leaf, none] at moved
  simpa using moved

namespace Owns

variable {R hand : Multiset ℕ} {s₀ s : Phys} {d : ℕ} {m : Space}

theorem undo {oldsz newsz : Word} (small : newsz.toNat ≤ 2 ^ 31)
    (grows : pagesBelow oldsz < pagesBelow newsz) (h : Owns R s₀ d hand m s) :
    wp (deallocuvm d newsz oldsz)
      (fun _ s' => Tabled d s s' ∧
        Owns R s₀ d hand (m.clear (pagesBelow oldsz) (pagesBelow newsz)) s') never s := by
  have gt : ¬ newsz ≤ oldsz := by
    intro le
    have := pagesBelow_mono (BitVec.le_def.1 le)
    omega
  apply wp_imp (h.deallocuvm_spec small)
  intro r s' freed
  rw [if_neg gt] at freed
  exact ⟨.of_eq freed.2.2.table, freed.2.1⟩

theorem allocLoop_spec {oldsz newsz : Word} (small : newsz.toNat ≤ 2 ^ 31) :
    ∀ (n a : ℕ) (m : Space) (s : Phys), a + n = pagesBelow newsz → pagesBelow oldsz ≤ a →
      (∀ b, a ≤ b → b < pagesBelow newsz → m.user b = none) → Owns R s₀ d hand m s →
      wp (allocLoop d oldsz newsz (List.range' a n)) (fun r s' => Tabled d s s' ∧ (
        (r = newsz ∧ ∃ m', Owns R s₀ d hand m' s' ∧ Grown a (pagesBelow newsz) m m') ∨
        (r = 0 ∧ R.card ≤ hand.card + (2 + NPDENTRIES + m.pages.card + n) ∧
          Owns R s₀ d hand (m.clear (pagesBelow oldsz) (pagesBelow newsz)) s'))) never s
  | 0, a, m, s, last, _, _, h => by
      rw [List.range'_zero, allocLoop, wp_pure]
      exact ⟨.of_eq rfl, Or.inl ⟨rfl, m, h, rfl, fun b ge lt => by omega, fun _ _ => rfl⟩⟩
  | n + 1, a, m, s, last, ge, absent, h => by
      have user : a < userPages := by
        have := pagesBelow_le_userPages small
        omega
      have free : m.user a = none := absent a (Nat.le_refl a) (by omega)
      rw [List.range'_succ, allocLoop]
      apply wp_next h.kalloc_spec
      rintro r s₁ (⟨rfl, rfl, full⟩ | ⟨v, rfl, same, taken⟩)
      · have few := h.card_le full
        apply wp_next (h.undo small (by omega))
        rintro _ s₂ ⟨tabled, own⟩
        exact ⟨tabled, Or.inr ⟨rfl, by omega, own⟩⟩
      have mine := Multiset.mem_cons_self v hand
      rw [wp_bind, wp_writePage (taken.writable (taken.mem_of_hand mine)), wp_bind,
        mappages_page d user]
      apply wp_imp ((taken.fill mine .zero).map_spec user free (by decide))
      rintro r s₂ ⟨mapped, out⟩
      have tabled : Tabled d s s₂ := by
        refine .trans (.of_eq ?_) mapped
        rw [table_setPage (taken.hand_apart mine).1]
        funext i
        rw [table, same, table]
      rcases out with ⟨rfl, own⟩ | ⟨rfl, full, own⟩
      · rw [if_pos rfl]
        rw [page_setPage_self] at own
        have count := Space.card_pages_setUser (m := m) user free
          (V2P v ||| (PTE_W ||| PTE_U) ||| PTE_P, Bytes.zero)
        apply wp_imp (allocLoop_spec small n (a + 1) _ s₂ (by omega) (by omega) (fun b gb lb => by
          rw [Space.user_setUser_of_ne _ (by omega)]
          exact absent b (by omega) lb) own)
        rintro r s₃ ⟨tabled', ⟨rfl, m', own', grown⟩ | ⟨rfl, few, own'⟩⟩
        · refine ⟨tabled.trans tabled', Or.inl ⟨rfl, m', own', grown.kernel, fun b gb lb => ?_,
            fun b hb => ?_⟩⟩
          · by_cases hab : b = a
            · rw [hab, grown.user a (Or.inl (Nat.lt_succ_self a)), Space.user_setUser_self]
              exact ⟨v, rfl⟩
            · exact grown.fresh b (by omega) lb
          · rw [grown.user b (by omega), Space.user_setUser_of_ne _ (by omega)]
        · rw [Space.clear_setUser_of_mem ge (by omega)] at own'
          exact ⟨tabled.trans tabled', Or.inr ⟨rfl, by omega, own'⟩⟩
      · have few := own.card_le full
        rw [Multiset.card_cons] at few
        rw [if_neg (by decide)]
        apply wp_next (own.undo small (by omega))
        rintro _ s₃ ⟨tabled', own'⟩
        have mine' := own'.mem_of_hand mine
        rw [wp_bind, wp_kfree (own'.writable mine') (own'.kend_le mine')]
        refine ⟨tabled.trans (tabled'.trans (.of_eq ?_)), Or.inr ⟨rfl, by omega, own'.give⟩⟩
        exact table_setPage (own'.hand_apart mine).1 _

theorem allocuvm_spec {oldsz newsz : Word} (h : Owns R s₀ d hand m s)
    (none : ∀ a, pagesBelow oldsz ≤ a → a < pagesBelow newsz → m.user a = none) :
    wp (allocuvm d oldsz newsz) (fun r s' => Tabled d s s' ∧ (
      (r = 0 ∧ (KERNBASE ≤ newsz ∨
          R.card ≤ hand.card + (2 + NPDENTRIES + m.pages.card + pagesBelow newsz)) ∧
        Owns R s₀ d hand m s') ∨
      (newsz < oldsz ∧ r = oldsz ∧ s' = s) ∨
      (newsz < KERNBASE ∧ oldsz ≤ newsz ∧ r = newsz ∧
        ∃ m', Owns R s₀ d hand m' s' ∧ Grown (pagesBelow oldsz) (pagesBelow newsz) m m')))
      never s := by
  rw [allocuvm, wp_ite]
  refine ⟨fun high => ⟨.of_eq rfl, Or.inl ⟨rfl, Or.inl high, h⟩⟩, fun low => ?_⟩
  have below : newsz < KERNBASE := BitVec.not_le.1 low
  rw [wp_ite]
  refine ⟨fun less => ⟨.of_eq rfl, Or.inr (Or.inl ⟨less, rfl, rfl⟩)⟩, fun ge => ?_⟩
  have le : oldsz ≤ newsz := BitVec.not_lt.1 ge
  have small : newsz.toNat < 2 ^ 31 := below
  have order : oldsz.toNat ≤ newsz.toNat := le
  have pages := pagesBelow_mono order
  dsimp only
  rw [pageNumber_PGROUNDUP (by omega)]
  apply wp_imp (h.allocLoop_spec (by omega) (pagesBelow newsz - pagesBelow oldsz) (pagesBelow oldsz)
    m s (by omega) (Nat.le_refl _) none)
  rintro r s' ⟨tabled, ⟨rfl, m', own, grown⟩ | ⟨rfl, few, own⟩⟩
  · exact ⟨tabled, Or.inr (Or.inr ⟨below, le, rfl, m', own, grown⟩)⟩
  rw [Space.clear_of_forall none] at own
  exact ⟨tabled, Or.inl ⟨rfl, Or.inr (by omega), own⟩⟩

end Owns

/-! ## growproc -/

/-- A process as `growproc` sees it: `curproc->sz`, `curproc->pgdir`, and memory. -/
structure Task where
  sz : Word
  pgdir : ℕ
  mem : Phys

abbrev TaskM := Prog Task Fault

def onMem {α : Type} (m : VM α) : TaskM α := zoom Task.mem (fun t s => { t with mem := s }) m

def growproc (n : Word) : TaskM ℤ := do
  let t ← get
  if 0 < n.toInt then
    let sz ← onMem (allocuvm t.pgdir t.sz (t.sz + n))
    if sz = 0 then return -1
    else
      modify fun t => { t with sz := sz }
      onMem (switchuvm t.pgdir)
      return 0
  else if n.toInt < 0 then
    let sz ← onMem (deallocuvm t.pgdir t.sz (t.sz + n))
    if sz = 0 then return -1
    else
      modify fun t => { t with sz := sz }
      onMem (switchuvm t.pgdir)
      return 0
  else
    onMem (switchuvm t.pgdir)
    return 0

namespace Task

def user (t : Task) : ℕ → Option (Word × Contents) := (space t.mem t.pgdir).user

/-- The pages of the free list and of the process are distinct pages behind the kernel. -/
def Sound (t : Task) : Prop :=
  Arena (t.mem.freelist + (t.pgdir ::ₘ (tables t.mem t.pgdir + (space t.mem t.pgdir).pages))) t.mem

/-- Exactly the pages below `PGROUNDUP(sz)` are mapped. -/
def Full (t : Task) : Prop := ∀ a, t.user a ≠ none ↔ a < pagesBelow t.sz

def target (t : Task) (n : Word) : ℤ := t.sz.toNat + n.toInt

/-- `growproc` returns 0 and the process has the size asked for, with its memory below the smaller
size; or it returns -1 and nothing has changed. -/
def Grows (t : Task) (n : Word) (r : ℤ) (t' : Task) : Prop :=
  (r = 0 ∧ 0 ≤ t.target n ∧ t.target n < KERNBASE.toNat ∧ (t'.sz.toNat : ℤ) = t.target n ∧ t'.Full ∧
    ∀ a, a < pagesBelow t.sz → a < pagesBelow t'.sz → t'.user a = t.user a) ∨
  (r = -1 ∧ t'.sz = t.sz ∧ t'.user = t.user)

variable {t : Task} {n : Word}

theorem Sound.owns (h : t.Sound) :
    Owns (t.mem.freelist + (t.pgdir ::ₘ (tables t.mem t.pgdir + (space t.mem t.pgdir).pages)))
      t.mem t.pgdir 0 (space t.mem t.pgdir) t.mem :=
  ⟨h, Within.refl _ _, rfl, by rw [add_zero]⟩

theorem toNat_target (small : t.sz < KERNBASE) (pos : 0 ≤ t.target n) :
    ((t.sz + n).toNat : ℤ) = t.target n := by
  have low : t.sz.toNat < 2 ^ 31 := small
  have sum := BitVec.toNat_add t.sz n
  have int := BitVec.toInt_eq_toNat_cond n
  unfold target at pos ⊢
  split at int <;> omega

theorem le_of_target_neg (small : t.sz < KERNBASE) (neg : t.target n < 0) : t.sz ≤ t.sz + n := by
  have low : t.sz.toNat < 2 ^ 31 := small
  have sum := BitVec.toNat_add t.sz n
  have int := BitVec.toInt_eq_toNat_cond n
  unfold target at neg
  rw [BitVec.le_def]
  split at int <;> omega

theorem Full.none (full : t.Full) {a : ℕ} (ha : pagesBelow t.sz ≤ a) : t.user a = Option.none := by
  by_contra some
  have := (full a).1 some
  omega

theorem grow_spec (small : t.sz < KERNBASE) (sound : t.Sound) (full : t.Full)
    (pos : 0 < n.toInt) : wp (growproc n) (t.Grows n) never t := by
  have goal : 0 ≤ t.target n := by
    unfold target
    omega
  have sum := toNat_target small goal
  rw [growproc, wp_bind, wp_get, if_pos pos, wp_bind, onMem, wp_zoom]
  apply wp_imp (sound.owns.allocuvm_spec fun a ha _ => full.none ha)
  rintro r s' ⟨-, ⟨rfl, -, own⟩ | ⟨less, -⟩ | ⟨below, le, rfl, m', own, grown⟩⟩
  · rw [if_pos rfl]
    exact Or.inr ⟨rfl, rfl, congrArg Space.user own.map⟩
  · have : (t.sz + n).toNat < t.sz.toNat := less
    unfold target at sum
    omega
  have ne : t.sz + n ≠ 0 := by
    intro zero
    rw [zero] at sum
    unfold target at sum
    have : (0 : Word).toNat = 0 := rfl
    omega
  have user : (space s' t.pgdir).user = m'.user := congrArg Space.user own.map
  rw [if_neg ne, wp_bind, wp_modify, wp_bind, onMem, wp_zoom, switchuvm, wp_modify, wp_pure]
  refine Or.inl ⟨rfl, goal, ?_, sum, fun a => ?_, fun a lt _ => ?_⟩
  · rw [← sum]
    exact_mod_cast (show (t.sz + n).toNat < KERNBASE.toNat from below)
  · show (space s' t.pgdir).user a ≠ none ↔ a < pagesBelow (t.sz + n)
    rw [user]
    exact grown.full full (pagesBelow_mono le) a
  · show (space s' t.pgdir).user a = _
    rw [user, grown.user a (Or.inl lt)]
    rfl

theorem shrink_spec (small : t.sz < KERNBASE) (sound : t.Sound) (full : t.Full) (neg : n.toInt < 0)
    (some : 0 < t.target n) : wp (growproc n) (t.Grows n) never t := by
  have sum := toNat_target (n := n) small (by omega)
  have low : t.sz.toNat < 2 ^ 31 := small
  have less : (t.sz + n).toNat < t.sz.toNat := by
    unfold target at sum
    omega
  have gt : ¬ t.sz ≤ t.sz + n := by
    rw [BitVec.le_def]
    omega
  have ne : t.sz + n ≠ 0 := by
    intro zero
    rw [zero] at sum
    have : (0 : Word).toNat = 0 := rfl
    omega
  rw [growproc, wp_bind, wp_get, if_neg (by omega), if_pos neg, wp_bind, onMem, wp_zoom]
  apply wp_imp (sound.owns.deallocuvm_spec (by omega))
  intro r s' freed
  rw [if_neg gt] at freed
  obtain ⟨rfl, own, -⟩ := freed
  have user : (space s' t.pgdir).user = fun a =>
      if pagesBelow (t.sz + n) ≤ a ∧ a < pagesBelow t.sz then none else t.user a :=
    congrArg Space.user own.map
  have pages := pagesBelow_mono (show (t.sz + n).toNat ≤ t.sz.toNat by omega)
  rw [if_neg ne, wp_bind, wp_modify, wp_bind, onMem, wp_zoom, switchuvm, wp_modify, wp_pure]
  refine Or.inl ⟨rfl, by omega, ?_, sum, fun a => ?_, fun a _ lt => ?_⟩
  · rw [← sum]
    exact_mod_cast (show (t.sz + n).toNat < 2 ^ 31 by omega)
  · show (space s' t.pgdir).user a ≠ none ↔ a < pagesBelow (t.sz + n)
    rw [user]
    dsimp only
    split
    case isTrue out => simp [out.1]
    case isFalse =>
      rw [full a]
      omega
  · show (space s' t.pgdir).user a = _
    have here : a < pagesBelow (t.sz + n) := lt
    rw [user]
    exact if_neg (by omega)

/-- Asked to shrink below 0, `growproc` reports success and does nothing. -/
theorem shrink_below_spec (small : t.sz < KERNBASE) (some : t.sz ≠ 0) (neg : t.target n < 0) :
    wp (growproc n) (fun r t' => r = 0 ∧ t'.sz = t.sz) never t := by
  have minus : n.toInt < 0 := by
    unfold target at neg
    omega
  have le := le_of_target_neg small neg
  simp only [growproc, deallocuvm, wp_bind, wp_get, if_neg (show ¬ 0 < n.toInt by omega),
    if_pos minus,
    onMem, wp_zoom, if_pos le, wp_pure, if_neg some, wp_modify, switchuvm, and_self]

/-- Asked to shrink to 0, `growproc` frees the pages and reports failure. -/
theorem shrink_all_spec (small : t.sz < KERNBASE) (some : t.sz ≠ 0) (sound : t.Sound)
    (all : t.target n = 0) : wp (growproc n) (fun r t' => r = -1 ∧ t'.user 0 = none) never t := by
  have low : t.sz.toNat < 2 ^ 31 := small
  have pos : 0 < t.sz.toNat := Nat.pos_of_ne_zero fun zero => some (BitVec.eq_of_toNat_eq zero)
  have sum := toNat_target small (Int.le_of_eq all.symm)
  have minus : n.toInt < 0 := by
    unfold target at all
    omega
  have zero : t.sz + n = 0 := by
    apply BitVec.eq_of_toNat_eq
    have : (0 : Word).toNat = 0 := rfl
    omega
  have gt : ¬ t.sz ≤ 0 := by
    rw [BitVec.le_def]
    have : (0 : Word).toNat = 0 := rfl
    omega
  rw [growproc, wp_bind, wp_get, if_neg (by omega), if_pos minus, wp_bind, onMem, wp_zoom, zero]
  apply wp_imp (sound.owns.deallocuvm_spec (by omega))
  intro r s' freed
  rw [if_neg gt] at freed
  obtain ⟨rfl, own, -⟩ := freed
  rw [if_pos rfl]
  refine ⟨rfl, ?_⟩
  have first : pagesBelow 0 ≤ 0 ∧ 0 < pagesBelow t.sz := ⟨Nat.le_refl 0, pagesBelow_pos some⟩
  show (space s' t.pgdir).user 0 = none
  rw [own.map]
  simp only [Space.clear, first, and_self, if_true]

theorem stay_spec (none : t.sz = 0) (neg : n.toInt < 0) : wp (growproc n) (t.Grows n) never t := by
  have le : t.sz ≤ t.sz + n := by
    rw [none]
    exact Nat.zero_le _
  simp only [growproc, deallocuvm, wp_bind, wp_get, if_neg (show ¬ 0 < n.toInt by omega),
    if_pos neg,
    onMem, wp_zoom, if_pos le, wp_pure, if_pos none]
  exact Or.inr ⟨rfl, rfl, rfl⟩

theorem still_spec (small : t.sz < KERNBASE) (full : t.Full) (zero : n.toInt = 0) :
    wp (growproc n) (t.Grows n) never t := by
  have low : t.sz.toNat < 2 ^ 31 := small
  have same : t.target n = t.sz.toNat := by
    unfold target
    omega
  simp only [growproc, wp_bind, wp_get, zero, Int.lt_irrefl, if_false, onMem, wp_zoom, switchuvm,
    wp_modify, wp_pure]
  refine Or.inl ⟨rfl, by omega, ?_, same.symm, full, fun _ _ _ => rfl⟩
  rw [same]
  exact_mod_cast low

/-- A process that would lose all of its memory or more is told the wrong thing. -/
theorem not_grows (small : t.sz < KERNBASE) (sound : t.Sound) (full : t.Full) (some : t.sz ≠ 0)
    (target : t.target n ≤ 0) : ¬ wp (growproc n) (t.Grows n) never t := by
  intro exact
  rcases Int.lt_or_eq_of_le target with below | all
  · apply wp_false
    apply wp_mono (wp_and exact (shrink_below_spec small some below)) _ fun _ _ h => h.1
    rintro r t' ⟨⟨-, pos, -⟩ | ⟨minus, -⟩, zero, -⟩ <;> omega
  apply wp_false
  apply wp_mono (wp_and exact (shrink_all_spec small some sound all)) _ fun _ _ h => h.1
  rintro r t' ⟨⟨zero, -⟩ | ⟨-, -, same⟩, minus, none⟩
  · omega
  rw [same] at none
  exact (full 0).2 (pagesBelow_pos some) none

end Task

/-- `growproc` is exact or has no effect, unless the process would lose all of its memory or more.
-/
theorem growproc_exact_iff (t : Task) (n : Word) (small : t.sz < KERNBASE) (sound : t.Sound)
    (full : t.Full) : wp (growproc n) (t.Grows n) (fun _ _ => False) t ↔
      0 ≤ n.toInt ∨ t.sz = 0 ∨ 0 < t.target n := by
  constructor
  · intro exact
    by_contra h
    push Not at h
    exact Task.not_grows small sound full h.2.1 h.2.2 exact
  intro cases
  rcases Int.lt_trichotomy n.toInt 0 with neg | zero | pos
  · rcases cases with ge | none | target
    · omega
    · exact Task.stay_spec none neg
    · exact Task.shrink_spec small sound full neg target
  · exact Task.still_spec small full zero
  · exact Task.grow_spec small sound full pos

/-! ## A process with one page -/

theorem Owns.sound {R : Multiset ℕ} {s₀ s : Phys} {d : ℕ} {m : Space} (h : Owns R s₀ d 0 m s)
    (sz : Word) : Task.Sound ⟨sz, d, s⟩ := by
  have all := h.split
  rw [add_zero, ← h.map] at all
  unfold Task.Sound
  rw [all]
  refine ⟨h.arena.nodup, ?_, ?_⟩
  · rw [h.within.kend]
    exact h.arena.ram
  rw [h.within.kdata, h.within.kend]
  exact h.arena.text

theorem Task.Sound.commit {t : Task} (h : t.Sound) (sz : Word) (cr3 : ℕ) :
    Task.Sound ⟨sz, t.pgdir, { t.mem with cr3 := cr3 }⟩ := ⟨h.nodup, h.ram, h.text⟩

/-- What `growproc` leaves of a process can be grown again, and the kernel part is as before. -/
theorem Task.grow_sound {t : Task} {n : Word} (sound : t.Sound) (full : t.Full)
    (pos : 0 < n.toInt) : wp (growproc n) (fun _ t' => t'.Sound ∧ t'.pgdir = t.pgdir ∧
      (space t'.mem t'.pgdir).kernel = (space t.mem t.pgdir).kernel) never t := by
  rw [growproc, wp_bind, wp_get, if_pos pos, wp_bind, onMem, wp_zoom]
  apply wp_imp (sound.owns.allocuvm_spec fun a ha _ => full.none ha)
  intro r s' out
  have still : Task.Sound ⟨t.sz, t.pgdir, s'⟩ ∧
      (space s' t.pgdir).kernel = (space t.mem t.pgdir).kernel := by
    rcases out.2 with ⟨-, -, own⟩ | ⟨-, -, rfl⟩ | ⟨-, -, -, m', own, grown⟩
    · exact ⟨own.sound _, congrArg Space.kernel own.map⟩
    · exact ⟨sound, rfl⟩
    · exact ⟨own.sound _, (congrArg Space.kernel own.map).trans grown.kernel⟩
  rw [wp_ite, wp_pure, wp_bind, wp_modify, wp_bind, onMem, wp_zoom, switchuvm, wp_modify, wp_pure]
  exact ⟨fun _ => ⟨still.1, rfl, still.2⟩, fun _ => ⟨still.1.commit r t.pgdir, rfl, still.2⟩⟩

/-- Memory with `n` free pages. -/
def freeMemory (n : ℕ) : Phys where
  freelist := List.range' 0x401 n
  page := fun _ => .zero
  kdata := 0x108
  kend := 0x400
  cr3 := 0x401

/-- A process without memory of its own, and `n` free pages. -/
def bareTask (n : ℕ) : Task where
  sz := 0
  pgdir := 0x401
  mem := ({ freeMemory n with freelist := List.range' 0x402 n } : Phys).setPage 0x401 .zero

theorem bareTask_owns {n : ℕ} (few : n < 0xDBFF) : Owns (freeMemory (n + 1)).freelist
    (freeMemory (n + 1)) 0x401 0 Space.empty (bareTask n).mem := by
  apply Owns.start _ List.range'_succ
  have text : 0x100 < 0x108 ∧ 0x108 ≤ 0x400 := by decide
  refine ⟨Multiset.coe_nodup.2 List.nodup_range', fun v hv => ?_, text⟩
  have := List.mem_range'_1.1 (Multiset.mem_coe.1 hv)
  have top : topPage = 0xE000 := rfl
  have kend : (freeMemory (n + 1)).kend = 0x400 := rfl
  omega

theorem bareTask_sound {n : ℕ} (few : n < 0xDBFF) : (bareTask n).Sound := (bareTask_owns few).sound 0

theorem bareTask_full {n : ℕ} (few : n < 0xDBFF) : (bareTask n).Full := by
  intro a
  have size : pagesBelow (bareTask n).sz = 0 := show pagesBelow 0 = 0 by decide
  show (space (bareTask n).mem 0x401).user a ≠ none ↔ _
  rw [(bareTask_owns few).map, size]
  exact ⟨fun some => absurd rfl some, fun lt => absurd lt (Nat.not_lt_zero a)⟩

/-- A process with one page, if there was memory for it. -/
def pageTask (n : ℕ) : Task := (exec (growproc 4096) (bareTask n)).2

/-- The process in its parts. -/
theorem exists_pageTask {n : ℕ} (few : n < 0xDBFF)
    (grows : (exec (growproc 4096) (bareTask n)).1 = .ok 0) : ∃ s,
      pageTask n = ⟨4096, 0x401, s⟩ ∧ Task.Sound ⟨4096, 0x401, s⟩ ∧ Task.Full ⟨4096, 0x401, s⟩ ∧
      (space s 0x401).kernel = fun _ => 0 := by
  have run : exec (growproc 4096) (bareTask n) = (.ok 0, pageTask n) := exec_eq_of_ok grows
  have small : (bareTask n).sz = 0 := rfl
  have dir : (bareTask n).pgdir = 0x401 := rfl
  have bare : (space (bareTask n).mem 0x401).kernel = fun _ => 0 :=
    congrArg Space.kernel (bareTask_owns few).map
  have sound := bareTask_sound few
  have full := bareTask_full few
  -- so that Lean does not run `growproc`
  generalize bareTask n = t, pageTask n = t' at *
  obtain ⟨sound', dir', kernel⟩ := wp_of_ok (Task.grow_sound sound full (by decide)) run
  have grown := wp_of_ok (Task.grow_spec (by rw [small]; decide) sound full (by decide)) run
  rcases grown with ⟨-, -, -, size, full', -⟩ | ⟨minus, -⟩
  · have size : t'.sz = 4096 := by
      rw [Task.target, small] at size
      exact BitVec.eq_of_toNat_eq (Nat.cast_injective (R := ℤ) size)
    rw [dir] at dir' kernel
    obtain ⟨sz, d, s⟩ := t'
    obtain rfl : sz = 4096 := size
    obtain rfl : d = 0x401 := dir'
    exact ⟨s, rfl, sound', full', kernel.trans bare⟩
  · exact absurd minus (by decide)

theorem bareTask_grows : (exec (growproc 4096) (bareTask 2)).1 = .ok 0 ∧
    (exec (growproc 4096) (bareTask 3)).1 = .ok 0 := by decide +kernel

-- so that Lean does not run the programs
section

attribute [local irreducible] wp

/-- A process with one page shrinks by some bytes. -/
theorem growproc_exact_iff_page :
    wp (growproc (-100)) ((pageTask 2).Grows (-100)) (fun _ _ => False) (pageTask 2) := by
  obtain ⟨s, parts, sound, full, -⟩ := exists_pageTask (by decide) bareTask_grows.1
  have less : 0 < Task.target ⟨4096, 0x401, s⟩ (-100) := by
    simp only [Task.target]
    decide
  have small : (4096 : Word) < KERNBASE := by decide
  rw [parts]
  exact (growproc_exact_iff ⟨4096, 0x401, s⟩ _ small sound full).2 (Or.inr (Or.inr less))

/-- Shrinking to nothing is reported as a failure, and to less than nothing as a success. -/
theorem growproc_loses_page : (pageTask 2).sz = 4096 ∧ (pageTask 2).Sound ∧ (pageTask 2).Full ∧
    ¬ wp (growproc (-4096)) ((pageTask 2).Grows (-4096)) (fun _ _ => False) (pageTask 2) ∧
    ¬ wp (growproc (-8192)) ((pageTask 2).Grows (-8192)) (fun _ _ => False) (pageTask 2) := by
  obtain ⟨s, parts, sound, full, -⟩ := exists_pageTask (by decide) bareTask_grows.1
  rw [parts]
  have small : (4096 : Word) < KERNBASE := by decide
  have some : (4096 : Word) ≠ 0 := by decide
  refine ⟨rfl, sound, full, Task.not_grows small sound full some ?_,
    Task.not_grows small sound full some ?_⟩
  · simp only [Task.target]
    decide
  simp only [Task.target]
  decide

end

/-! ## What a failed allocuvm leaves -/

/-- The directory shows what it did, and only page tables it gained are no longer free. -/
structure RolledBack (d : ℕ) (s s' : Phys) : Prop where
  map : space s' d = space s d
  kept : ∀ i t, table s d i = some t → table s' d i = some t
  gained : ∃ new, tables s' d = tables s d + new ∧
    (s.freelist : Multiset ℕ) = s'.freelist + new

theorem RolledBack.refl (d : ℕ) (s : Phys) : RolledBack d s s :=
  ⟨rfl, fun _ _ ht => ht, 0, (add_zero _).symm, (add_zero _).symm⟩

theorem Owns.rolledBack {R : Multiset ℕ} {s₀ s s' : Phys} {d : ℕ} {m : Space}
    (before : Owns R s₀ d 0 m s) (after : Owns R s₀ d 0 m s') (tabled : Tabled d s s') :
    RolledBack d s s' := by
  have le : tables s d ≤ tables s' d := by
    rw [tables, tables]
    apply held_le
    intro i _ t ht
    exact tabled.kept i t ht
  obtain ⟨new, more⟩ := Multiset.le_iff_exists_add.1 le
  refine ⟨after.map.trans before.map.symm, tabled.kept, new, more, ?_⟩
  have same := before.split.trans after.split.symm
  rw [more, add_zero, add_zero, add_right_comm (tables s d)] at same
  exact account_cancel same

/-- `allocuvm` leaves the map as it was, with what it took free again or an empty page table, or
makes it one of the pages below the new size, the new ones zero. -/
theorem allocuvm_rolls_back {oldsz newsz : Word} {d : ℕ} {s : Phys}
    (sound : Task.Sound ⟨oldsz, d, s⟩) (full : Task.Full ⟨oldsz, d, s⟩) :
    wp (allocuvm d oldsz newsz) (fun r s' => (r = 0 → RolledBack d s s') ∧
      (r = newsz → Task.Full ⟨newsz, d, s'⟩ ∧
        Grown (pagesBelow oldsz) (pagesBelow newsz) (space s d) (space s' d)) ∧
      (r = 0 ∨ r = newsz ∨ newsz < oldsz ∧ r = oldsz ∧ s' = s)) (fun _ _ => False) s := by
  have own : Owns _ s d 0 (space s d) s := sound.owns
  have absent (a : ℕ) (ge : pagesBelow oldsz ≤ a) (_ : a < pagesBelow newsz) :
      (space s d).user a = none := full.none ge
  by_cases zero : newsz = 0
  · -- the loop has nothing to do, and 0 is no error
    subst zero
    rw [allocuvm, if_neg (by decide), wp_ite, wp_pure]
    refine ⟨fun less => ?_, fun ge => ?_⟩
    · have some : oldsz ≠ 0 := by
        rintro rfl
        exact absurd less (by decide)
      exact ⟨fun h => absurd h some, fun h => absurd h some, Or.inr (Or.inr ⟨less, rfl, rfl⟩)⟩
    have none : oldsz = 0 := BitVec.le_zero_iff.1 (BitVec.not_lt.1 ge)
    subst none
    dsimp only
    rw [pageNumber_PGROUNDUP (by decide), Nat.sub_self, List.range'_zero, allocLoop, wp_pure]
    exact ⟨fun _ => .refl d s, fun _ => ⟨full, rfl, fun a ge lt => absurd lt (Nat.not_lt.2 ge),
      fun _ _ => rfl⟩, Or.inl rfl⟩
  · apply wp_imp (own.allocuvm_spec absent)
    rintro r s' ⟨tabled, ⟨rfl, -, own'⟩ | ⟨less, rfl, rfl⟩ | ⟨-, le, rfl, m', own', grown⟩⟩
    · exact ⟨fun _ => own.rolledBack own' tabled, fun h => absurd h.symm zero, Or.inl rfl⟩
    · refine ⟨fun _ => .refl d s', fun same => ?_, Or.inr (Or.inr ⟨less, rfl, rfl⟩)⟩
      exact absurd (same ▸ less) (BitVec.lt_irrefl r)
    rw [← own'.map] at grown
    refine ⟨fun h => absurd h zero, fun _ => ⟨?_, grown⟩, Or.inr (Or.inl rfl)⟩
    exact grown.full full (pagesBelow_mono le)

section

attribute [local irreducible] wp

/-- Of two more pages there is memory for one, which is free again after the call. -/
theorem allocuvm_rolls_back_page : (exec (allocuvm 0x401 4096 12288) (pageTask 3).mem).1 = .ok 0 ∧
    (pageTask 3).mem.freelist ≠ [] ∧ wp (allocuvm 0x401 4096 12288)
      (fun r s' => r = 0 → RolledBack 0x401 (pageTask 3).mem s') (fun _ _ => False)
      (pageTask 3).mem := by
  refine ⟨by decide +kernel, by decide +kernel, ?_⟩
  obtain ⟨s, parts, sound, full, -⟩ := exists_pageTask (by decide) bareTask_grows.2
  rw [parts]
  exact wp_imp (allocuvm_rolls_back sound full) fun r s' out => out.1

end

/-! ## What deallocuvm frees -/

def Between (newsz oldsz : Word) (a : ℕ) : Prop :=
  newsz.toNat ≤ a * PGSIZE ∧ a * PGSIZE < oldsz.toNat
  deriving Decidable

theorem between_iff {newsz oldsz : Word} {a : ℕ} :
    Between newsz oldsz a ↔ pagesBelow newsz ≤ a ∧ a < pagesBelow oldsz := by
  simp only [Between, pagesBelow, PGSIZE]
  omega

/-- `deallocuvm` where it looks at every page. -/
def deallocEvery (pgdir : ℕ) (oldsz newsz : Word) : VM Word := do
  if oldsz ≤ newsz then return oldsz
  else
    let a := (PGROUNDUP newsz).toNat / PGSIZE
    forM (List.range' a (pagesBelow oldsz - a)) (freePage pgdir)
    return newsz

theorem exec_deallocuvm (d : ℕ) (oldsz newsz : Word) (s : Phys) :
    exec (deallocuvm d oldsz newsz) s = exec (deallocEvery d oldsz newsz) s := by
  rw [deallocuvm, deallocEvery]
  split
  · rfl
  · rw [exec_bind, exec_bind, exec_deallocLoop _ _ s (by omega)]

/-- The pages between the sizes are free, and nothing else has changed. -/
structure Shrunk (newsz oldsz : Word) (d : ℕ) (s s' : Phys) : Prop where
  entries : Owns.Zeroed (Between newsz oldsz) d s s'
  map : space s' d = (space s d).clear (pagesBelow newsz) (pagesBelow oldsz)
  free : (s'.freelist : Multiset ℕ) = s.freelist +
    held ((Finset.range userPages).filter (Between newsz oldsz)) (space s d).leaf

theorem Space.pages_add_clear (m : Space) (newsz oldsz : Word) :
    (m.clear (pagesBelow newsz) (pagesBelow oldsz)).pages +
      held ((Finset.range userPages).filter (Between newsz oldsz)) m.leaf = m.pages := by
  have leaf : (m.clear (pagesBelow newsz) (pagesBelow oldsz)).leaf =
      fun a => if Between newsz oldsz a then none else m.leaf a := by
    funext a
    simp only [Space.leaf, Space.clear, between_iff]
    split <;> rfl
  rw [Space.pages, leaf, held_remove, Space.pages]

/-- `deallocuvm` frees the pages between the sizes, clears their entries and changes nothing else.
-/
theorem deallocuvm_exact {s : Phys} {d : ℕ} {oldsz newsz : Word} (small : oldsz ≤ KERNBASE)
    (sound : Arena (s.freelist + (d ::ₘ (tables s d + (space s d).pages))) s) :
    wp (deallocuvm d oldsz newsz) (fun r s' => r = (if oldsz ≤ newsz then oldsz else newsz) ∧
      Shrunk newsz oldsz d s s') (fun _ _ => False) s ∧
    (∀ t, exec (deallocuvm d oldsz newsz) t = exec (deallocEvery d oldsz newsz) t) ∧
    ∀ t a fuel, pagesBelow oldsz - a ≤ fuel → exec (deallocLoop d (pagesBelow oldsz) fuel a) t =
      exec (deallocLoop d (pagesBelow oldsz) (pagesBelow oldsz - a) a) t := by
  refine ⟨?_, exec_deallocuvm d oldsz newsz, fun t a fuel enough => ?_⟩
  · have own : Owns _ s d 0 (space s d) s := ⟨sound, Within.refl _ _, rfl, by rw [add_zero]⟩
    apply wp_imp (own.deallocuvm_spec small)
    intro r s' freed
    have none (le : oldsz ≤ newsz) (a : ℕ) : ¬ Between newsz oldsz a := by
      have order : oldsz.toNat ≤ newsz.toNat := le
      rintro ⟨ge, lt⟩
      omega
    split at freed
    next le =>
      obtain ⟨rfl, rfl⟩ := freed
      rw [if_pos le]
      refine ⟨rfl, ⟨rfl, fun b => by rw [if_neg fun both => none le b both.1]⟩, ?_, ?_⟩
      · rw [Space.clear_of_forall fun a ge lt => absurd (between_iff.2 ⟨ge, lt⟩) (none le a)]
      · rw [Finset.filter_false_of_mem fun a _ => none le a, held_eq_zero (by simp), add_zero]
    rename_i gt
    obtain ⟨result, own', tab, entries⟩ := freed
    rw [if_neg gt]
    refine ⟨result, ⟨tab, fun b => ?_⟩, own'.map, ?_⟩
    · simp only [entries, between_iff]
    have split := own'.split
    rw [add_zero, tables, tab, ← tables] at split
    have parts := (space s d).pages_add_clear newsz oldsz
    rw [← parts] at split
    rw [← add_assoc (tables s d)] at split
    exact account_cancel split
  · rw [exec_deallocLoop _ _ t (by omega), exec_deallocLoop _ _ t (by omega)]

theorem deallocuvm_exact_page : wp (deallocuvm 0x401 4096 0)
    (fun r s' => r = 0 ∧ Shrunk 0 4096 0x401 (pageTask 2).mem s') (fun _ _ => False)
    (pageTask 2).mem := by
  obtain ⟨s, parts, sound, -⟩ := exists_pageTask (by decide) bareTask_grows.1
  rw [parts]
  apply wp_imp (deallocuvm_exact (show (4096 : Word) ≤ KERNBASE by decide) sound).1
  rintro r s' ⟨result, shrunk⟩
  exact ⟨result, shrunk⟩

end Xv6.Mem
