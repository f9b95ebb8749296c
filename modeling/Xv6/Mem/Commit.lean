import Xv6.Mem.Load

/-!
# exec as a whole

A failed `exec` gives back what it took and leaves the caller as it was.  The one way out of the new
image is a stack pointer that an argument of more than 32 MB takes below 0 and past the devices:
there are no page tables there, and `copyout` takes the caller's first word for the entry.  What
happens then depends on that word; with nothing at address 0 it is a trap.
-/

namespace Xv6.Mem

open Lib

variable {t : Caller} {argv : List (List Byte)} {s : Phys} {v : ℕ}

/-! ## The new image -/

section Image

variable {R hand : Multiset ℕ} {s₀ s : Phys} {d : ℕ} {m : Space}

/-- The arguments can be pushed onto an image of this size, or are refused. -/
abbrev SizeFits (argv : List (List Byte)) (r : Option Word) (_ : Phys) : Prop :=
  ∀ sz, r = some sz → ¬ Overflows sz.toNat 0 sz.toNat argv

theorem buildImage_spec (image : Loaded s d 0) (own : Owns R s₀ d hand m s) (ip : File)
    (elf : Elfhdr) (fit : wp (loadImage d ip elf) (SizeFits argv) never s) :
    wp (buildImage d ip elf argv) (fun _ s' => ∃ m', Owns R s₀ d hand m' s') never s := by
  rw [buildImage]
  apply wp_next (wp_mono (wp_and (loadImage_spec image own ip elf) fit) (fun _ _ both => both)
    fun _ _ no => no.1)
  rintro r s₁ ⟨⟨m₁, own₁, -, built⟩, fit⟩
  cases r with
  | none => exact ⟨m₁, own₁⟩
  | some sz =>
    apply wp_next (pushStack_spec own₁ (built sz rfl).1 argv (fit sz rfl))
    rintro r s₂ ⟨-, own₂, -, -⟩
    cases r <;> exact ⟨_, own₂⟩

/-- If `exec` gets through with nothing mapped at address 0, the arguments fit. -/
theorem buildImage_fits (image : Loaded s d 0) (own : Owns R s₀ d hand m s) (gap : Gap s d)
    (unmapped : ¬ s.cr3 < topPage) (ip : File) (elf : Elfhdr)
    (short : ∀ arg ∈ argv, arg.length < 0xE000000)
    (runs : wp (buildImage d ip elf argv) (fun _ _ => True) never s) :
    wp (loadImage d ip elf) (SizeFits argv) never s := by
  rw [buildImage, wp_bind] at runs
  apply wp_mono (wp_and (loadImage_spec image own ip elf) runs) _ fun _ _ no => no.1
  rintro r s₁ ⟨⟨m₁, own₁, -, built⟩, runs⟩ sz rfl past
  obtain ⟨image₁, gap₁⟩ := built sz rfl
  have aligned := image₁.aligned
  simp only [PGSIZE] at aligned
  have cr3 : s₁.cr3 = s.cr3 := own₁.within.cr3.trans own.within.cr3.symm
  have trap : wp (pushStack d sz argv) (fun _ _ => False) anyStop s₁ := by
    rw [pushStack]
    exact wp_next (pushArgs_null own₁ image₁ (gap₁ gap) (by rwa [cr3]) (by omega) (by omega)
      (Nat.le_refl _) short past) fun _ _ no => no.elim
  dsimp only at runs
  rw [wp_bind] at runs
  exact wp_false (wp_mono (wp_and trap runs) (fun _ _ no => no.1) fun _ _ no => no.2)

end Image

/-! ## The caller -/

theorem Task.Sound.outside {t : Task} (sound : t.Sound) {d : ℕ} {m : Space}
    (own : Owns t.mem.freelist t.mem d 0 m s) (sz : Word) (cr3 : ℕ) :
    Task.Sound ⟨sz, t.pgdir, { s with cr3 := cr3 }⟩ := by
  have split := own.split
  have once := sound.nodup
  rw [Multiset.nodup_add] at once
  have kept : ∀ v ∈ t.pgdir ::ₘ (tables t.mem t.pgdir + (space t.mem t.pgdir).pages),
      ({ s with cr3 := cr3 } : Phys).page v = t.mem.page v :=
    fun v hv => own.within.page v fun free => Multiset.disjoint_left.1 once.2.2 free hv
  obtain ⟨tab, entries⟩ := pte_congr (kept _ (Multiset.mem_cons_self _ _)) fun v hv =>
    kept v (Multiset.mem_cons_of_mem (Multiset.mem_add.2 (Or.inl hv)))
  have same := space_congr entries fun v hv =>
    kept v (Multiset.mem_cons_of_mem (Multiset.mem_add.2 (Or.inr hv)))
  have fewer : (s.freelist : Multiset ℕ) ≤ t.mem.freelist := by
    rw [← split, add_assoc]
    exact Multiset.le_add_right _ _
  unfold Task.Sound
  dsimp only
  rw [tables, tab, same]
  have le := Multiset.add_le_add_right (u := t.pgdir ::ₘ (tables t.mem t.pgdir +
    (space t.mem t.pgdir).pages)) fewer
  refine ⟨Multiset.nodup_of_le le sound.nodup, fun v hv => ?_, ?_⟩
  · rw [own.within.kend]
    exact sound.ram v (Multiset.mem_of_le le hv)
  rw [own.within.kdata, own.within.kend]
  exact sound.text

/-- The pages of the free list and of the caller are distinct pages behind the kernel. -/
def Caller.Sound (t : Caller) : Prop := Task.Sound ⟨t.sz, t.pgdir, t.mem⟩

/-- The caller, the pages that were not free and the set of free pages are as they were. -/
structure Caller.Unchanged (t t' : Caller) : Prop where
  pgdir : t'.pgdir = t.pgdir
  sz : t'.sz = t.sz
  eip : t'.eip = t.eip
  esp : t'.esp = t.esp
  name : t'.name = t.name
  within : Within t.mem.freelist t.mem t'.mem
  free : (t'.mem.freelist : Multiset ℕ) = t.mem.freelist

theorem Caller.Sound.free (h : t.Sound) : Arena t.mem.freelist t.mem :=
  ⟨(Multiset.nodup_add.1 h.nodup).1, fun v hv => h.ram v (Multiset.mem_add.2 (Or.inl hv)), h.text⟩

/-- If the file can be loaded, no argument that is pushed on top of its image leads past 0 and the
devices. -/
def Caller.ArgsFit (t : Caller) (ip : Option File) (argv : List (List Byte)) : Prop :=
  ∀ file bs, ip = some file → readi file 0 (BitVec.ofNat 32 sizeofElfhdr) = some bs →
    bs.length = sizeofElfhdr → (Elfhdr.ofBytes bs).magic = ELF_MAGIC →
    wp setupkvm (fun r s => ∀ d, r = some d → wp (loadImage d file (Elfhdr.ofBytes bs))
      (fun r _ => ∀ sz, r = some sz → ¬ Overflows sz.toNat 0 sz.toNat argv) (fun _ _ => False) s)
      (fun _ _ => False) t.mem

/-- Arguments of less than 32 MB fit whatever is loaded. -/
theorem Caller.Sound.argsFit (sound : t.Sound) (ip : Option File)
    (short : ∀ arg ∈ argv, arg.length < 0x2000000) : t.ArgsFit ip argv := by
  intro file bs _ _ _ _
  apply wp_imp (setupkvm_spec sound.free)
  rintro r s₁ (⟨rfl, -⟩ | ⟨d, m₁, rfl, own₁, user, part, -⟩) _ ⟨⟩
  apply wp_imp (loadImage_spec (own₁.loaded user part) own₁ file _)
  rintro r s₂ ⟨m₂, own₂, -, built⟩ sz rfl
  obtain ⟨image, -⟩ := built sz rfl
  have aligned := image.aligned
  have two := image.two
  simp only [PGSIZE] at aligned two
  apply not_overflows (by omega) (by omega)
  intro arg mem
  have := short arg mem
  simp only [PGSIZE]
  omega

theorem exec_spec (sound : t.Sound) (path : List Byte) (ip : Option File)
    (fit : t.ArgsFit ip argv) :
    wp (Caller.exec path ip argv) (fun r t' => r = -1 → t.Unchanged t') never t := by
  have still : t.Unchanged t := ⟨rfl, rfl, rfl, rfl, rfl, Within.refl _ _, rfl⟩
  cases ip with
  | none => exact fun _ => still
  | some ip =>
    rw [Caller.exec]
    dsimp only
    split
    · exact fun _ => still
    rename_i bs header
    rw [wp_ite, wp_ite]
    refine ⟨fun _ _ => still, fun size => ⟨fun _ _ => still, fun magic => ?_⟩⟩
    have fit := fit ip bs rfl header (not_not.1 size) (not_not.1 magic)
    generalize Elfhdr.ofBytes bs = elf at fit ⊢
    rw [wp_bind, onCaller, wp_zoom]
    apply wp_mono (wp_and (setupkvm_spec sound.free) fit) _ fun _ _ no => no.1
    rintro r s₁ ⟨⟨rfl, -, within, free⟩ | ⟨d, m₁, rfl, own₁, user, part, -⟩, fit⟩
    · exact fun _ => ⟨rfl, rfl, rfl, rfl, rfl, within, free⟩
    dsimp only
    rw [wp_bind, onCaller, wp_zoom]
    apply wp_imp (buildImage_spec (own₁.loaded user part) own₁ ip elf (fit d rfl))
    rintro r s₂ ⟨m₂, own₂⟩
    cases r with
    | none =>
      dsimp only
      rw [wp_bind, onCaller, wp_zoom]
      apply wp_imp own₂.freevm_spec
      rintro _ s₃ ⟨within, free⟩
      rw [add_zero] at free
      exact fun _ => ⟨rfl, rfl, rfl, rfl, rfl, within, free⟩
    | some image =>
      have rest := Task.Sound.outside sound own₂ t.sz d
      dsimp only
      rw [wp_bind, wp_get, wp_bind, wp_modify, wp_bind, onCaller, wp_zoom, switchuvm, wp_modify,
        wp_bind, onCaller, wp_zoom]
      apply wp_imp rest.owns.freevm_spec
      intro _ s₃ _
      rw [wp_pure]
      exact fun committed => absurd committed (by decide)

theorem argsFit_of_exec (sound : t.Sound) (path : List Byte) (ip : Option File)
    (unmapped : ¬ t.mem.cr3 < topPage) (short : ∀ arg ∈ argv, arg.length < 0xE000000)
    (runs : wp (Caller.exec path ip argv) (fun _ _ => True) never t) : t.ArgsFit ip argv := by
  rintro file bs rfl header size magic
  simp only [Caller.exec, header, size, magic, ne_eq, not_true_eq_false, if_false] at runs
  rw [wp_bind, onCaller, wp_zoom] at runs
  apply wp_mono (wp_and (setupkvm_spec sound.free) runs) _ fun _ _ no => no.1
  rintro r s₁ ⟨⟨rfl, -⟩ | ⟨d, m₁, rfl, own₁, user, part, gap⟩, runs⟩ _ ⟨⟩
  dsimp only at runs
  rw [wp_bind, onCaller, wp_zoom] at runs
  exact buildImage_fits (own₁.loaded user part) own₁ gap (by rwa [own₁.within.cr3]) file _ short
    (wp_imp runs fun _ _ _ => trivial)

/-! ## An argument of more than 32 MB -/

section Long

variable {R hand : Multiset ℕ} {s₀ s : Phys} {d : ℕ} {m : Space}

theorem wp_nullEntry {t : ℕ} {Q : Word → Phys → Prop} {E : Fault → Phys → Prop}
    (dir : s.cr3 < topPage) (ht : table s s.cr3 (PDX 0) = some t) (small : t < topPage)
    (there : present (pte s s.cr3 0) = true) (low : PTE_ADDR (pte s s.cr3 0) < topPage) :
    wp nullEntry Q E s ↔ Q ((s.page (PTE_ADDR (pte s s.cr3 0))).word 0) s := by
  have entry := pte_of_table (a := 0) (by decide) ht
  simp only [nullEntry, wp_bind, wp_get, wp_walk dir, ht, Option.map_some, wp_load small, ← entry,
    there, if_true, wp_load low]
  rfl

theorem Owns.elsewhere (own : Owns R s₀ d hand m s) (out : v ∉ R) (c : Contents) :
    Owns R (s.setPage v c) d hand m (s.setPage v c) := by
  have kept {w : ℕ} (hw : w ∈ R) : (s.setPage v c).page w = s.page w :=
    page_setPage_of_ne s (by rintro rfl; exact out hw) c
  obtain ⟨tab, entries⟩ := pte_congr (kept own.dir_mem) fun w hw => by
    obtain ⟨i, hi⟩ := mem_tables.1 hw
    exact kept (own.table_mem hi)
  have map := space_congr entries fun w hw => kept (own.page_mem (by rwa [own.map] at hw))
  refine ⟨⟨own.arena.nodup, ?_, ?_⟩, Within.refl _ _, map.trans own.map, ?_⟩
  · show ∀ w ∈ R, s.kend ≤ w ∧ w < topPage
    rw [own.within.kend]
    exact own.arena.ram
  · show 0x100 < s.kdata ∧ s.kdata ≤ s.kend
    rw [own.within.kdata, own.within.kend]
    exact own.arena.text
  · rw [tables, tab]
    exact own.split

/-- `copyout` to the last word below the devices: four bytes go where the null pointer leads. -/
theorem Owns.copyout_gap (own : Owns R s₀ d hand m s) {sz : ℕ} (image : Image s d sz)
    (gap : Gap s d) {e : Word} (null : ∀ Q E, wp nullEntry Q E s ↔ Q e s)
    (there : present e = true) (user : forUser e = true) (out : PTE_ADDR e ∉ R)
    (writes : s.writable (PTE_ADDR e)) {p : List Byte} (long : 4 < p.length) :
    wp (copyout d 0xFDFFFFFC p) (fun r s' => r = false ∧
      s' = s.setPage (PTE_ADDR e) ((s.page (PTE_ADDR e)).write 0xFFC (p.take 4))) never s := by
  obtain ⟨n, len⟩ : ∃ n, p.length = n + 2 := ⟨p.length - 2, by omega⟩
  have page : (0xFDFFFFFC : Word).toNat / PGSIZE = 0xFDFFF := rfl
  have off : (0xFDFFFFFC : Word).toNat % PGSIZE = 0xFFC := rfl
  have none : table s d (PDX 0xFDFFF) = none := gap _ (by decide) (by decide)
  have ram : PTE_ADDR e ≠ 0x80000 := by
    have top : topPage = 0xE000 := rfl
    have := writes.1
    omega
  have some : p ≠ [] := by
    rintro rfl
    exact absurd long (by decide)
  have more : p.drop (PGSIZE - 0xFFC) ≠ [] := by
    rw [← List.length_pos_iff, List.length_drop]
    simp only [PGSIZE]
    omega
  have own' := own.elsewhere out ((s.page (PTE_ADDR e)).write 0xFFC (p.take 4))
  have image' : Image (s.setPage (PTE_ADDR e) ((s.page (PTE_ADDR e)).write 0xFFC (p.take 4))) d
      sz := by
    apply image.congr
    apply pte_setPage
    · rintro rfl
      exact out own.dir_mem
    intro tab
    obtain ⟨i, hi⟩ := mem_tables.1 tab
    exact out (own.table_mem hi)
  rw [copyout, len, page, off, copyoutLoop, if_neg some, wp_bind, uva2ka, wp_bind,
    wp_walk (own.lt_top own.dir_mem), none]
  simp only [Option.map_none, null, there, user, Bool.not_true, Bool.false_eq_true, if_false, ram,
    wp_pure, wp_bind, wp_memmove writes]
  rw [show p.take (PGSIZE - 0xFFC) = p.take 4 from rfl, copyoutLoop, if_neg more, wp_bind]
  generalize s.setPage (PTE_ADDR e) ((s.page (PTE_ADDR e)).write 0xFFC (p.take 4)) =
    s' at own' image' ⊢
  obtain ⟨-, t, ht⟩ := found_of_present (image'.devices 0xFE000 (by decide) (by decide))
  rw [show (0xFDFFF + 1) % 2 ^ 20 = 0xFE000 from rfl,
    wp_uva2ka (own'.lt_top own'.dir_mem) (by decide) ht (own'.lt_top (own'.table_mem ht)),
    image'.kernel 0xFE000 (by decide)]
  simp

/-- `exec` of a program without segments whose arguments lead to a write outside the new image. -/
theorem exec_escapes (sound : t.Sound) (many : 1028 < t.mem.freelist.length) {ip : File}
    {bs : List Byte} (header : readi ip 0 (BitVec.ofNat 32 sizeofElfhdr) = some bs)
    (size : bs.length = sizeofElfhdr) (magic : (Elfhdr.ofBytes bs).magic = ELF_MAGIC)
    (bare : (Elfhdr.ofBytes bs).phnum = 0) {c : Contents} (out : v ∉ (t.mem.freelist : Multiset ℕ))
    (push : ∀ s d m, Owns t.mem.freelist t.mem d 0 m s → Image s d 0x2000 → Gap s d →
      wp (pushStack d 0x2000 argv) (fun r s' => r = none ∧ s' = s.setPage v c) never s)
    (path : List Byte) : ∃ t', exec (Caller.exec path (some ip) argv) t = (.ok (-1), t') ∧
      t'.mem.page v = c ∧ ∀ w ∉ t.mem.freelist, w ≠ v → t'.mem.page w = t.mem.page w := by
  have run : wp (Caller.exec path (some ip) argv) (fun r t' => r = -1 ∧ t'.mem.page v = c ∧
      ∀ w ∉ t.mem.freelist, w ≠ v → t'.mem.page w = t.mem.page w) never t := by
    rw [Caller.exec]
    dsimp only
    rw [header]
    dsimp only
    rw [if_neg (by simpa using size), if_neg (by simpa using magic), wp_bind, onCaller, wp_zoom]
    apply wp_imp (loadImage_empty sound.free many bare ip)
    rintro r s₁ ⟨d, rfl, built⟩
    dsimp only
    rw [wp_bind, onCaller, wp_zoom, buildImage]
    apply wp_next built
    rintro r s₂ ⟨rfl, image, gap, m, own⟩
    dsimp only
    apply wp_next (push s₂ d m own image gap)
    rintro r s₃ ⟨rfl, rfl⟩
    dsimp only
    rw [wp_pure]
    dsimp only
    rw [wp_bind, onCaller, wp_zoom]
    apply wp_imp (own.elsewhere out c).freevm_spec
    rintro _ s₄ ⟨within, -⟩
    rw [wp_pure]
    refine ⟨rfl, ?_, fun w hw ne => ?_⟩
    · show s₄.page v = c
      rw [within.page v out, page_setPage_self]
    show s₄.page w = _
    have free : w ∉ (t.mem.freelist : Multiset ℕ) := by simpa using hw
    rw [within.page w free, page_setPage_of_ne _ ne, own.within.page w free]
  obtain ⟨r, t', ok, rfl, after⟩ := exists_ok_of_wp run
  exact ⟨t', ok, after⟩

end Long

/-! ## A caller with such an argument -/

/-- A process of 36 MB, whose first word is `0x2005005`, with a string of `0x2002003` letters. -/
def longPage (v : ℕ) : Contents :=
  if v = 0x501 then .ofWords fun i => if i < 9 then V2P (0x510 + i) ||| 7 else 0
  else if 0x510 ≤ v ∧ v < 0x519 then .ofWords fun j => V2P (0x2000 + ((v - 0x510) * 1024 + j)) ||| 7
  else if v = 0x2000 then .ofWords fun i => if i = 0 then 0x2005005 else 0
  else if 0x2010 ≤ v ∧ v < 0x4012 then fun _ => 0x61
  else if v = 0x4012 then .ofWords fun i => if i = 0 then 0x616161 else 0
  else .zero

def longCaller : Caller where
  pgdir := 0x501
  sz := 0x2400000
  eip := 0
  esp := 0
  name := []
  mem :=
    { freelist := List.range' 0x5000 1500, page := longPage, kdata := 0x108, kend := 0x400
      cr3 := 0x501 }

theorem longCaller_table (i : Fin NPDENTRIES) :
    table longCaller.mem 0x501 i = if i.val < 9 then some (0x510 + i.val) else none := by
  have dir : longCaller.mem.page 0x501 =
      .ofWords fun i => if i < 9 then V2P (0x510 + i) ||| 7 else 0 := by
    show longPage 0x501 = _
    rw [longPage, if_pos rfl]
  rw [table, dir, Bytes.word_ofWords _
    (by have := i.isLt; simp only [PGSIZE, NPDENTRIES] at *; omega)]
  split
  case isTrue low => exact leafOf_entry (by omega) (by decide) (by decide)
  case isFalse => rfl

theorem longCaller_pte (a : ℕ) :
    pte longCaller.mem 0x501 a = if a < 9216 then V2P (0x2000 + a) ||| 7 else 0 := by
  have place : (PDX a).val = a / 1024 % 1024 := rfl
  have slot : (PTX a).val = a % 1024 := rfl
  by_cases high : 2 ^ 20 ≤ a
  · rw [pte, if_neg (by omega), if_neg (by omega)]
  by_cases low : a < 9216
  · have found := longCaller_table (PDX a)
    rw [place, if_pos (by omega)] at found
    have tab : longCaller.mem.page (0x510 + a / 1024 % 1024) =
        .ofWords fun j => V2P (0x2000 + (a / 1024 % 1024 * 1024 + j)) ||| 7 := by
      show longPage _ = _
      rw [longPage, if_neg (by omega), if_pos (by omega), Nat.add_sub_cancel_left]
    rw [pte_of_table (by omega) found, tab, slot, Bytes.word_ofWords _ (by
      simp only [PGSIZE]
      omega), if_pos low]
    congr 3
    omega
  · have absent := longCaller_table (PDX a)
    rw [place, if_neg (by omega)] at absent
    rw [pte_of_no_table absent, if_neg low]

theorem longCaller_leaf {a : ℕ} (ha : a < userPages) : (space longCaller.mem 0x501).leaf a =
    if a < 9216 then some (0x2000 + a) else none := by
  rw [leaf_space ha, longCaller_pte]
  split
  case isTrue low => exact leafOf_entry (by omega) (by decide) (by decide)
  case isFalse => rfl

theorem longCaller_sound : longCaller.Sound := by
  have tab : ∀ v ∈ tables longCaller.mem 0x501, 0x510 ≤ v ∧ v < 0x519 := by
    intro v hv
    obtain ⟨i, hi⟩ := mem_tables.1 hv
    rw [longCaller_table] at hi
    split at hi <;> simp at hi
    omega
  have page : ∀ v ∈ (space longCaller.mem 0x501).pages, 0x2000 ≤ v ∧ v < 0x4400 := by
    intro v hv
    obtain ⟨a, ha, leaf⟩ := mem_pages.1 hv
    rw [longCaller_leaf ha] at leaf
    split at leaf <;> simp at leaf
    omega
  have free : ∀ v ∈ (longCaller.mem.freelist : Multiset ℕ), 0x5000 ≤ v ∧ v < 0x55DC := by
    intro v hv
    have := List.mem_range'_1.1 (Multiset.mem_coe.1 hv)
    omega
  have onceTab : (tables longCaller.mem 0x501).Nodup := by
    apply nodup_held
    intro i _ j _ v hi hj
    rw [longCaller_table] at hi hj
    split at hi <;> split at hj <;> simp at hi hj
    exact Fin.ext (by omega)
  have oncePage : (space longCaller.mem 0x501).pages.Nodup := by
    apply nodup_held
    intro a ha b hb v la lb
    rw [longCaller_leaf (Finset.mem_range.1 ha)] at la
    rw [longCaller_leaf (Finset.mem_range.1 hb)] at lb
    split at la <;> split at lb <;> simp at la lb
    omega
  show Arena ((longCaller.mem.freelist : Multiset ℕ) + (0x501 ::ₘ
    (tables longCaller.mem 0x501 + (space longCaller.mem 0x501).pages))) longCaller.mem
  refine ⟨?_, fun v hv => ?_, by decide⟩
  · rw [Multiset.nodup_add, Multiset.nodup_cons, Multiset.nodup_add]
    refine ⟨Multiset.coe_nodup.2 List.nodup_range', ⟨fun mem => ?_, onceTab, oncePage, ?_⟩, ?_⟩
    · rcases Multiset.mem_add.1 mem with mem | mem
      · have := tab _ mem
        omega
      have := page _ mem
      omega
    · apply Multiset.disjoint_left.2
      intro v hv hv'
      have := tab v hv
      have := page v hv'
      omega
    apply Multiset.disjoint_left.2
    intro v hv hv'
    have := free v hv
    rw [Multiset.mem_cons, Multiset.mem_add] at hv'
    rcases hv' with rfl | hv' | hv'
    · omega
    · have := tab v hv'
      omega
    have := page v hv'
    omega
  · have kend : longCaller.mem.kend = 0x400 := rfl
    have top : topPage = 0xE000 := rfl
    rw [Multiset.mem_add, Multiset.mem_cons, Multiset.mem_add] at hv
    rcases hv with hv | rfl | hv | hv
    · have := free v hv
      omega
    · omega
    · have := tab v hv
      omega
    · have := page v hv
      omega

theorem longCaller_frame {x : ℕ} (hx : x / PGSIZE < 9216) :
    frame longCaller.mem 0x501 x = 0x2000 + x / PGSIZE := by
  rw [frame, longCaller_pte, if_pos hx]
  exact PTE_ADDR_entry (by omega) (by decide)

theorem getElem_replicate_nul (n : ℕ) (x : Byte) {j : ℕ}
    (h : j < (List.replicate n x ++ [0]).length) :
    (List.replicate n x ++ [0])[j] = if j < n then x else 0 := by
  rw [List.getElem_append]
  simp

theorem longCaller_string : StringAt longCaller.mem 0x501 0x10000 (.replicate 0x2002003 0x61) := by
  intro j hj
  rw [getElem_replicate_nul]
  rw [List.length_append, List.length_replicate, List.length_singleton] at hj
  have page : (0x10000 + j) / PGSIZE = 0x10 + j / 4096 := by
    simp only [PGSIZE]
    omega
  have off : (0x10000 + j) % PGSIZE = j % 4096 := by
    simp only [PGSIZE]
    omega
  rw [userByte, longCaller_frame (by omega), page, off]
  show (longPage (0x2000 + (0x10 + j / 4096))).byte (j % 4096) = _
  rw [longPage, if_neg (by omega), if_neg (by omega), if_neg (by omega)]
  by_cases inside : j < 0x2002000
  · rw [if_pos (by omega), if_pos (by omega), Bytes.byte, dif_pos (by simp only [PGSIZE]; omega)]
  rw [if_neg (by omega), if_pos (by omega)]
  obtain rfl | rfl | rfl | rfl :
    j = 0x2002000 ∨ j = 0x2002001 ∨ j = 0x2002002 ∨ j = 0x2002003 := by
    omega
  all_goals rfl

/-! ## Safety -/

/-- Loading stops at no panic, maps nothing from `KERNBASE` on for the user, and writes only to free
pages.  A failed `exec` changes nothing, if the arguments fit.  For arguments that do not, it
follows a null pointer: with no directory in use, it runs only if they fit.  (No argument is longer
than memory, 224 MB.) -/
theorem exec_safe (t : Caller) (sound : t.Sound) (path : List Byte) (ip : Option File)
    (argv : List (List Byte)) :
    (∀ (file : File) (elf : Elfhdr), wp setupkvm (fun r s => ∀ d, r = some d →
      wp (loadImage d file elf) (fun _ s' =>
        (∀ a, userPages ≤ a → forUser (pte s' d a) = false) ∧
        ∀ v, s'.page v ≠ t.mem.page v → v ∈ t.mem.freelist ∧
          (v ∈ s'.freelist ∨ v = d ∨ v ∈ tables s' d ∨ v ∈ (space s' d).pages))
        (fun _ _ => False) s) (fun _ _ => False) t.mem) ∧
    (t.ArgsFit ip argv → wp (Caller.exec path ip argv) (fun r t' => r = -1 → t.Unchanged t')
      (fun _ _ => False) t) ∧
    ((∀ arg ∈ argv, arg.length < 0xE000000) → topPage ≤ t.mem.cr3 →
      (wp (Caller.exec path ip argv) (fun r t' => r = -1 → t.Unchanged t') (fun _ _ => False) t ↔
        t.ArgsFit ip argv)) := by
  refine ⟨fun file elf => ?_, exec_spec sound path ip, fun short unmapped =>
    ⟨fun runs => ?_, exec_spec sound path ip⟩⟩
  case refine_2 =>
    exact argsFit_of_exec sound path ip (Nat.not_lt.2 unmapped) short
      (wp_imp runs fun _ _ _ => trivial)
  apply wp_imp (setupkvm_spec sound.free)
  rintro r s (⟨rfl, -⟩ | ⟨d, m, rfl, own, user, part, -⟩)
  · simp
  rintro d' ⟨⟩
  apply wp_imp (loadImage_spec (own.loaded user part) own file elf)
  rintro r s' ⟨m', own', guarded, -⟩
  refine ⟨fun a ha => ?_, fun v changed => ?_⟩
  · rw [← own'.pte_kernel ha]
    exact guarded a ha
  have mem : v ∈ (t.mem.freelist : Multiset ℕ) := by
    by_contra out
    exact changed (own'.within.page v out)
  refine ⟨Multiset.mem_coe.1 mem, ?_⟩
  rw [← own'.split, add_zero, Multiset.mem_add, Multiset.mem_cons, Multiset.mem_add,
    Multiset.mem_coe] at mem
  rwa [own'.map]

/-- A program without segments. -/
def bareProgram : File where
  data := [0x7F, 0x45, 0x4C, 0x46] ++ List.replicate 48 0
  short := by decide

section

-- so that Lean does not run it
attribute [local irreducible] wp

/-- A short argument fits, and one of 33 MB does if the file is missing. -/
theorem exec_safe_long : longCaller.Sound ∧
    longCaller.ArgsFit (some bareProgram) [[0x61, 0x62]] ∧
    wp (Caller.exec [0x61] (some bareProgram) [[0x61, 0x62]])
      (fun r t' => r = -1 → longCaller.Unchanged t') (fun _ _ => False) longCaller ∧
    wp (Caller.exec [0x61] none [.replicate 0x2100000 0x61])
      (fun r t' => r = -1 → longCaller.Unchanged t') (fun _ _ => False) longCaller := by
  have fit : longCaller.ArgsFit (some bareProgram) [[0x61, 0x62]] :=
    longCaller_sound.argsFit _ (by decide)
  refine ⟨longCaller_sound, fit, ?_, ?_⟩
  · exact (exec_safe longCaller longCaller_sound [0x61] (some bareProgram) [[0x61, 0x62]]).2.1 fit
  generalize List.replicate 0x2100000 (0x61 : Byte) = arg
  have none : longCaller.ArgsFit none [arg] := by rintro _ _ ⟨⟩
  exact (exec_safe longCaller longCaller_sound [0x61] .none [arg]).2.1 none

end

theorem longCaller_free (low : v < 0x5000) : v ∉ (longCaller.mem.freelist : Multiset ℕ) := by
  intro mem
  have := List.mem_range'_1.1 (Multiset.mem_coe.1 mem)
  omega

theorem longCaller_entries (kept : ∀ v < 0x2000, s.page v = longCaller.mem.page v) :
    pte s 0x501 = pte longCaller.mem 0x501 := by
  apply (pte_congr (kept 0x501 (by decide)) fun t ht => kept t ?_).2
  obtain ⟨i, hi⟩ := mem_tables.1 ht
  rw [longCaller_table] at hi
  split at hi <;> simp at hi
  omega

/-- The push of the long string writes into the caller's sixth page. -/
theorem pushStack_long {d : ℕ} {m : Space}
    (own : Owns longCaller.mem.freelist longCaller.mem d 0 m s) (image : Image s d 0x2000)
    (gap : Gap s d) {arg : List Byte} (len : arg.length = 0x2002003) :
    wp (pushStack d 0x2000 [arg]) (fun r s' => r = none ∧
      s' = s.setPage 0x2005 ((longCaller.mem.page 0x2005).write 0xFFC ((arg ++ [0]).take 4)))
      never s := by
  have kept {v : ℕ} (low : v < 0x5000) := own.within.page v (longCaller_free low)
  have entries := longCaller_entries fun v low => kept (by omega)
  have sp : ((0x2000 - BitVec.ofNat 32 (arg.length + 1)) &&& ~~~3 : Word) = 0xFDFFFFFC := by
    rw [len]
    decide
  have cr3 : s.cr3 = 0x501 := own.within.cr3
  have tab : table s 0x501 (PDX 0) = some 0x510 := by
    rw [table, kept (v := 0x501) (by decide)]
    exact longCaller_table (PDX 0)
  have first : pte s 0x501 0 = V2P 0x2000 ||| 7 := by
    rw [entries]
    exact longCaller_pte 0
  have null : ∀ Q E, wp nullEntry Q E s ↔ Q 0x2005005 s := by
    intro Q E
    have page : PTE_ADDR (pte s s.cr3 0) = 0x2000 := by
      rw [cr3, first, PTE_ADDR_entry (by decide) (by decide)]
    rw [wp_nullEntry (by rw [cr3]; decide) (by rw [cr3]; exact tab) (by decide)
      (by rw [cr3, first]; decide) (by rw [page]; decide), page, kept (v := 0x2000) (by decide)]
    rfl
  have out : PTE_ADDR 0x2005005 ∉ (longCaller.mem.freelist : Multiset ℕ) :=
    longCaller_free (v := 0x2005) (by decide)
  have writes : s.writable (PTE_ADDR 0x2005005) := by
    rw [Phys.writable, own.within.kdata]
    decide
  have copy :=
    own.copyout_gap image gap null (by decide) (by decide) out writes (p := arg ++ [0]) (by
    rw [List.length_append, len]
    decide)
  rw [pushStack, wp_bind, pushArgs, if_neg (by decide), wp_bind, sp]
  apply wp_imp copy
  rintro r s' ⟨rfl, rfl⟩
  rw [if_neg (by decide), wp_pure, wp_pure, ← kept (v := 0x2005) (by decide)]
  exact ⟨rfl, rfl⟩

/-- With an argument of 32 MB and 8 KB, a failed `exec` has written to the caller's memory. -/
theorem exec_overwrites : longCaller.Sound ∧
    StringAt longCaller.mem 0x501 0x10000 (.replicate 0x2002003 0x61) ∧
    userByte longCaller.mem 0x501 0x5FFC = 0 ∧
    ∃ t', exec (Caller.exec [0x61] (some bareProgram) [.replicate 0x2002003 0x61]) longCaller =
      (.ok (-1), t') ∧ userByte t'.mem 0x501 0x5FFC = 0x61 := by
  refine ⟨longCaller_sound, longCaller_string, ?_, ?_⟩
  · rw [userByte, longCaller_frame (by decide)]
    rfl
  have head : ((List.replicate 0x2002003 (0x61 : Byte)) ++ [0]).take 4 = .replicate 4 0x61 := by
    rw [List.take_append_of_le_length (by rw [List.length_replicate]; decide), List.take_replicate]
    rfl
  have len : (List.replicate 0x2002003 (0x61 : Byte)).length = 0x2002003 := List.length_replicate
  generalize List.replicate 0x2002003 (0x61 : Byte) = arg at head len ⊢
  have many : 1028 < longCaller.mem.freelist.length := by
    rw [longCaller, List.length_range']
    decide
  have header : readi bareProgram 0 (BitVec.ofNat 32 sizeofElfhdr) = some bareProgram.data := by
    decide
  obtain ⟨t', run, page, others⟩ := exec_escapes longCaller_sound many header (by decide)
    (by decide) (by decide)
    (longCaller_free (v := 0x2005) (by decide))
    (fun s d m own image gap => pushStack_long own image gap len) [0x61]
  have entries := longCaller_entries (s := t'.mem) fun v low =>
    others v (fun free => longCaller_free (by omega) (Multiset.mem_coe.2 free)) (by omega)
  refine ⟨t', run, ?_⟩
  rw [userByte, frame_congr entries, longCaller_frame (by decide),
    show 0x2000 + 0x5FFC / PGSIZE = 0x2005 from rfl, page, head]
  exact Bytes.byte_write_of_mem (k := 0xFFC) (j := 0) _ (by decide) (by decide)

end Xv6.Mem
