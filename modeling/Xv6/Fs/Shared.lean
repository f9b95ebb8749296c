import Mathlib.Algebra.BigOperators.Group.Finset.Piecewise
import Xv6.Disk.Bio
import Xv6.Fs.Files
import Xv6.Lib.Run

/-!
# Writing through a shared file

Several processes write to one `struct file`.  `filewrite` cuts its bytes into pieces of at most
`writeMax`; for each it holds the lock of the inode while it calls `writei` and advances `f->off`,
so that a piece is one step.
-/

namespace Xv6.Fs

open Lib Function

/-! ## The code -/

/-- `max` of `filewrite`. -/
def writeMax : ℕ := (MAXOPBLOCKS - 1 - 1 - 2) / 2 * 512

/-- The file with the calls of `filewrite` on it: `f->off`, every call's `i`, and what was returned.
-/
structure Shared (ι : Type) where
  files : Files
  off : Word
  at_ : ι → ℕ
  ret : ι → Option ℤ

variable {ι : Type} {F : Files} {ip off0 : ℕ} {old : List Byte} {calls : ι → List Byte} {c : ι}
  {s : Shared ι} {pieces : List (ι × ℕ)}

/-- One turn of the loop of `filewrite` in call `c`, or its end. -/
def filewrite [DecidableEq ι] (ip : ℕ) (calls : ι → List Byte) (c : ι) : Prog (Shared ι) String
    PUnit := do
  let s ← get
  if s.ret c ≠ none then return
  else if s.at_ c < (calls c).length then
    let n1 := min ((calls c).length - s.at_ c) writeMax
    let r ← zoom Shared.files (fun s F => { s with files := F })
      (Files.perform (.writei ip (fun k => (calls c).getD (s.at_ c + k) 0) s.off
        (BitVec.ofNat 32 n1)))
    match r with
    | .count (some r) =>
        modify fun s => { s with off := s.off + r }
        if r.toNat ≠ n1 then throw "short filewrite"
        else modify fun s => { s with at_ := update s.at_ c (s.at_ c + n1) }
    | _ => modify fun s => { s with ret := update s.ret c (some (-1)) }
  else
    let r := if s.at_ c = (calls c).length then ((calls c).length : ℤ) else -1
    set { s with ret := update s.ret c (some r) }

def Shared.start (F : Files) (off0 : ℕ) : Shared ι :=
  ⟨F, BitVec.ofNat 32 off0, fun _ => 0, fun _ => none⟩

def Shared.blocks (ip : ℕ) (s : Shared ι) : ℕ :=
  s.files.free + (s.files.content ip).elim 0 Content.blocks

/-! ## The pieces -/

/-- Piece `k` of the bytes of a call. -/
def piece (b : List Byte) (k : ℕ) : List Byte := (b.drop (k * writeMax)).take writeMax

def joined (calls : ι → List Byte) (pieces : List (ι × ℕ)) : List Byte :=
  pieces.flatMap fun x => piece (calls x.1) x.2

theorem joined_snoc (pieces : List (ι × ℕ)) (c : ι) (k : ℕ) :
    joined calls (pieces ++ [(c, k)]) = joined calls pieces ++ piece (calls c) k := by
  simp [joined]

variable [DecidableEq ι]

def piecesOf (c : ι) (pieces : List (ι × ℕ)) : List ℕ :=
  (pieces.filter fun x => x.1 = c).map Prod.snd

theorem piecesOf_snoc (pieces : List (ι × ℕ)) (c : ι) (k : ℕ) (c' : ι) :
    piecesOf c' (pieces ++ [(c, k)]) = piecesOf c' pieces ++ if c = c' then [k] else [] := by
  rw [piecesOf, List.filter_append, List.map_append]
  by_cases same : c = c' <;> simp [piecesOf, same]

variable [Fintype ι]

/-- From `off0` to `f->off` the file consists of the pieces, those of every call in order. -/
structure Pieced (ip : ℕ) (old : List Byte) (off0 : ℕ) (calls : ι → List Byte) (s : Shared ι)
    (pieces : List (ι × ℕ)) : Prop where
  content : s.files.content ip =
    some (.file (old.take off0 ++ joined calls pieces ++ old.drop s.off.toNat))
  off : s.off.toNat = off0 + (joined calls pieces).length
  total : s.off.toNat = off0 + ∑ c, s.at_ c
  order : ∀ c, piecesOf c pieces = List.range (piecesOf c pieces).length
  at_ : ∀ c, s.at_ c = min ((piecesOf c pieces).length * writeMax) (calls c).length
  real : ∀ x ∈ pieces, x.2 * writeMax < (calls x.1).length
  ret : ∀ c r, s.ret c = some r →
    r = (calls c).length ∧ (calls c).length ≤ (piecesOf c pieces).length * writeMax

theorem Files.wp_writei {Q : Reply → Files → Prop} {E : String → Files → Prop} {x x' : Content}
    {src : ℕ → Byte} {off n : Word} (at_i : F.content ip = some x)
    (done : x.writei src off n = some x')
    (ok : ∀ free, free + x'.blocks = F.free + x.blocks →
      Q (.count (some n)) ⟨update F.content ip (some x'), free⟩)
    (full : F.free + x.blocks < x'.blocks → E "balloc: out of blocks" F) :
    wp (Files.perform (.writei ip src off n)) Q E F := by
  unfold wp
  rw [Files.exec_writei at_i, done]
  dsimp only
  by_cases short : F.free + x.blocks < x'.blocks
  · rw [if_pos short]
    exact full short
  rw [if_neg short]
  exact ok _ (by omega)

theorem Content.blocks_writei {x x' : Content} {src : ℕ → Byte} {off n : Word}
    (done : x.writei src off n = some x') : x'.blocks ≤ max x.blocks (MAXFILE + 1) := by
  cases x with
  | device major =>
    rw [Content.writei] at done
    split at done <;> cases done
    exact Nat.zero_le _
  | file f =>
    rw [Content.writei] at done
    split at done <;> cases done
    rename_i inside
    have length : (f.take off.toNat ++ (List.range n.toNat).map src ++
        f.drop (off.toNat + n.toNat)).length ≤ max f.length (MAXFILE * BSIZE) := by
      simp only [List.length_append, List.length_take, List.length_map, List.length_range,
        List.length_drop]
      omega
    rcases le_max_iff.1 length with le | le
    · have le := nblk_le.2 (le.trans (nblk_le.1 le_rfl))
      exact (blockCount_mono le le).trans (le_max_left ..)
    have le := nblk_le.2 le
    refine ((blockCount_mono le le).trans ?_).trans (le_max_right ..)
    decide

/-! ## One turn -/

theorem length_piece (b : List Byte) (k : ℕ) :
    (piece b k).length = min (b.length - k * writeMax) writeMax := by
  rw [piece, List.length_take, List.length_drop, min_comm]

theorem map_range_getD {b : List Byte} {i n : ℕ} (le : i + n ≤ b.length) :
    (List.range n).map (fun j => b.getD (i + j) 0) = (b.drop i).take n := by
  apply List.ext_getElem
  · rw [List.length_map, List.length_range, List.length_take, List.length_drop]
    omega
  intro j lt _
  rw [List.length_map, List.length_range] at lt
  simp only [List.getElem_map, List.getElem_range, List.getElem_take, List.getElem_drop]
  rw [List.getD_eq_getElem?_getD, List.getElem?_eq_getElem (by omega), Option.getD_some]

theorem flatMap_piece (b : List Byte) (m : ℕ) :
    (List.range m).flatMap (piece b) = b.take (m * writeMax) := by
  induction m with
  | zero => simp
  | succ m ih =>
    rw [List.range_succ, List.flatMap_append, ih, List.flatMap_singleton, piece, Nat.succ_mul,
      List.take_add]

theorem writei_append {a b : List Byte} {src : ℕ → Byte} {off n : Word} (at_ : a.length = off.toNat)
    (bytes : (List.range n.toNat).map src = b) (fits : off.toNat + b.length ≤ MAXFILE * BSIZE) :
    (Content.file (a ++ old.drop off.toNat)).writei src off n =
      some (.file (a ++ b ++ old.drop (off.toNat + b.length))) := by
  have length : n.toNat = b.length := by rw [← bytes]; simp
  have small : MAXFILE * BSIZE < 2 ^ 32 := by decide
  have outside : ¬ ((a ++ old.drop off.toNat).length < off.toNat ∨
      2 ^ 32 ≤ off.toNat + n.toNat ∨ MAXFILE * BSIZE < off.toNat + n.toNat) := by
    rw [List.length_append]
    omega
  rw [Content.writei, if_neg outside, bytes, ← at_, List.take_left, length,
    List.drop_length_add_append,
    List.drop_drop]

section

variable (h : Pieced ip old off0 calls s pieces)
include h

theorem Pieced.room (c : ι) {n : ℕ}
    (left : s.at_ c + n ≤ (calls c).length) : s.off.toNat + n ≤ off0 + ∑ c, (calls c).length := by
  have others : ∑ c' ∈ Finset.univ.erase c, s.at_ c' ≤
      ∑ c' ∈ Finset.univ.erase c, (calls c').length := by
    apply Finset.sum_le_sum
    intro c' _
    rw [h.at_ c']
    exact min_le_right _ _
  have now := Finset.add_sum_erase Finset.univ s.at_ (Finset.mem_univ c)
  have all := Finset.add_sum_erase Finset.univ (fun c => (calls c).length) (Finset.mem_univ c)
  rw [h.total]
  omega

theorem Pieced.write
    (fits : off0 + ∑ c, (calls c).length ≤ MAXFILE * BSIZE) {k n : ℕ} {free : ℕ}
    (next : (piecesOf c pieces).length = k) (size : (piece (calls c) k).length = n) (pos : 0 < n) :
    Pieced ip old off0 calls
      { s with
        files := ⟨update s.files.content ip (some (.file (old.take off0 ++ joined calls pieces ++
          piece (calls c) k ++ old.drop (s.off.toNat + n)))), free⟩
        off := s.off + BitVec.ofNat 32 n
        at_ := update s.at_ c (s.at_ c + n) } (pieces ++ [(c, k)]) := by
  have here := h.at_ c
  rw [next] at here
  rw [length_piece] at size
  have room := h.room c (n := n) (by omega)
  have small : MAXFILE * BSIZE < 2 ^ 32 := by decide
  have off : (s.off + BitVec.ofNat 32 n).toNat = s.off.toNat + n := by
    rw [BitVec.toNat_add, BitVec.toNat_ofNat]
    omega
  constructor
  case content =>
    show update s.files.content ip _ ip = _
    rw [update_self, joined_snoc, off, List.append_assoc (old.take off0)]
  case off => rw [off, joined_snoc, List.length_append, length_piece, size, h.off, Nat.add_assoc]
  case total =>
    show (s.off + BitVec.ofNat 32 n).toNat = off0 + ∑ c', update s.at_ c (s.at_ c + n) c'
    rw [off, h.total, Finset.sum_update_of_mem (Finset.mem_univ c),
      ← Finset.add_sum_erase _ _ (Finset.mem_univ c), Finset.sdiff_singleton_eq_erase]
    omega
  case order =>
    intro c'
    rw [piecesOf_snoc]
    split
    next same =>
      rw [← same, h.order c, next, List.length_append, List.length_range, List.length_singleton,
        List.range_succ]
    · rw [List.append_nil]
      exact h.order c'
  case at_ =>
    intro c'
    rw [piecesOf_snoc]
    show update s.at_ c (s.at_ c + n) c' = _
    by_cases same : c' = c
    · rw [same, update_self, if_pos rfl, List.length_append, List.length_singleton, next, here,
        Nat.succ_mul]
      omega
    rw [update_of_ne same, if_neg (Ne.symm same), List.append_nil]
    exact h.at_ c'
  case real =>
    intro x mem
    rcases List.mem_append.1 mem with old | new
    · exact h.real x old
    rw [List.mem_singleton.1 new]
    dsimp only
    omega
  case ret =>
    intro c' r returned
    obtain ⟨result, all⟩ := h.ret c' r returned
    refine ⟨result, all.trans (Nat.mul_le_mul_right _ ?_)⟩
    rw [piecesOf_snoc, List.length_append]
    exact Nat.le_add_right ..

theorem Pieced.turn (inside : off0 ≤ old.length)
    (fits : off0 + ∑ c, (calls c).length ≤ MAXFILE * BSIZE) (c : ι) :
    wp (filewrite ip calls c) (fun _ s' => ∃ more, Pieced ip old off0 calls s' (pieces ++ more) ∧
      s'.blocks ip = s.blocks ip ∧
      (s'.ret c = none → 0 < (piecesOf c more).length) ∧ ∀ c', s'.ret c' = none → s.ret c' = none)
      (fun msg _ => msg = "balloc: out of blocks" ∧ s.blocks ip ≤ MAXFILE) s := by
  rw [filewrite, wp_bind, wp_get, wp_ite]
  refine ⟨fun returned => ?_, fun open_ => ?_⟩
  · exact ⟨[], by rwa [List.append_nil], rfl, fun none => absurd none returned, fun _ => id⟩
  have open_ : s.ret c = none := by simpa using open_
  have here := h.at_ c
  rw [wp_ite]
  refine ⟨fun more => ?_, fun done => ?_⟩
  · set k := (piecesOf c pieces).length with k_def
    have at_ : s.at_ c = k * writeMax := by omega
    have size : min ((calls c).length - s.at_ c) writeMax = (piece (calls c) k).length := by
      rw [length_piece, at_]
    have pos : 0 < (piece (calls c) k).length := by
      rw [← size]
      have : 0 < writeMax := by decide
      omega
    have room := h.room c (n := (piece (calls c) k).length) (by omega)
    have small : MAXFILE * BSIZE < 2 ^ 32 := by decide
    have toNat : (BitVec.ofNat 32 (piece (calls c) k).length).toNat = (piece (calls c) k).length := by
      rw [BitVec.toNat_ofNat]
      omega
    have start : (old.take off0 ++ joined calls pieces).length = s.off.toNat := by
      rw [List.length_append, List.length_take, h.off]
      omega
    have bytes : (List.range (BitVec.ofNat 32 (piece (calls c) k).length).toNat).map
        (fun j => (calls c).getD (s.at_ c + j) 0) = piece (calls c) k := by
      rw [toNat, map_range_getD (by omega), at_, length_piece, piece]
      apply List.take_eq_take_iff.2
      rw [List.length_drop]
      omega
    rw [size, wp_bind, wp_zoom]
    have done := @writei_append old _ _ _ _ _ start bytes (by omega)
    have blocks : s.blocks ip = s.files.free + Content.blocks (.file
        (old.take off0 ++ joined calls pieces ++ old.drop s.off.toNat)) := by
      rw [Shared.blocks, h.content, Option.elim_some]
    apply Files.wp_writei h.content done
    · intro free same
      simp only [wp_bind, wp_modify, toNat, ne_eq, not_true_eq_false, if_false]
      refine ⟨[(c, k)], h.write fits k_def.symm rfl pos, ?_, fun _ => ?_, fun _ => id⟩
      · rw [blocks, ← same]
        simp [Shared.blocks]
      · simp [piecesOf]
    · intro short
      have le := Content.blocks_writei done
      exact ⟨rfl, by omega⟩
  · rw [wp_set]
    have whole : s.at_ c = (calls c).length := by omega
    refine ⟨[], ?_, rfl, fun still => ?_, fun c' still => ?_⟩
    · rw [List.append_nil, if_pos whole]
      refine ⟨h.content, h.off, h.total, h.order, h.at_, h.real, fun c' r returned => ?_⟩
      change update s.ret c _ c' = some r at returned
      by_cases same : c' = c
      · rw [same, update_self] at returned
        rw [same]
        exact ⟨(Option.some.inj returned).symm, by omega⟩
      rw [update_of_ne same] at returned
      exact h.ret c' r returned
    · change update s.ret c _ c = none at still
      rw [update_self] at still
      cases still
    · change update s.ret c _ c' = none at still
      by_cases same : c' = c
      · rw [same, open_]
      · rwa [update_of_ne same] at still

end

/-! ## Any interleaving -/

theorem Pieced.start (regular : F.content ip = some (.file old))
    (small : off0 < 2 ^ 32) : Pieced ip old off0 calls (.start F off0) [] := by
  have off : (Shared.start F off0 : Shared ι).off.toNat = off0 := by
    rw [Shared.start, BitVec.toNat_ofNat, Nat.mod_eq_of_lt small]
  refine ⟨?_, ?_, ?_, fun c => rfl, fun c => ?_, nofun, nofun⟩
  · rw [off, joined, List.flatMap_nil, List.append_nil, List.take_append_drop]
    exact regular
  · rw [off]
    rfl
  · rw [off]
    simp [Shared.start]
  · simp [Shared.start, piecesOf]

theorem Pieced.lt (h : Pieced ip old off0 calls s pieces) (c : ι) :
    (piecesOf c pieces).length * writeMax < (calls c).length + writeMax := by
  have pos : 0 < writeMax := by decide
  have order := h.order c
  cases length : (piecesOf c pieces).length with
  | zero => omega
  | succ k =>
    have last : k ∈ piecesOf c pieces := by
      rw [order, length]
      exact List.mem_range.2 k.lt_succ_self
    obtain ⟨⟨c', _⟩, mem, rfl⟩ := List.mem_map.1 last
    obtain ⟨mem, same⟩ := List.mem_filter.1 mem
    have real := h.real _ mem
    rw [decide_eq_true_eq] at same
    rw [same] at real
    rw [Nat.succ_mul]
    omega

theorem Pieced.joined_eq (h : Pieced ip old off0 calls s pieces) (alone : ∀ c', c' ≠ c → calls c' = [])
    (all : (calls c).length ≤ (piecesOf c pieces).length * writeMax) :
    joined calls pieces = calls c := by
  have mine (x : ι × ℕ) (mem : x ∈ pieces) : x.1 = c := by
    by_contra other
    have real := h.real x mem
    rw [alone _ other] at real
    simp at real
  have same : joined calls pieces = (piecesOf c pieces).flatMap (piece (calls c)) := by
    rw [piecesOf, List.filter_eq_self.2 fun x mem => by simp [mine x mem], List.flatMap_map, joined]
    apply List.flatMap_congr
    intro x mem
    rw [mine x mem]
  rw [same, h.order c, flatMap_piece, List.take_of_length_le all]

/-- In any interleaving of calls of `filewrite` on one file, every call returns its `n`, and the
pieces fill the file from `off0` on; a call alone has the effect of one `writei`. -/
theorem filewrite_shared (regular : F.content ip = some (.file old)) (inside : off0 ≤ old.length)
    (fits : off0 + ∑ c, (calls c).length ≤ MAXFILE * BSIZE) (es : List ι) :
    wp (run (filewrite ip calls) es) (fun _ s =>
      (∃ pieces, Pieced ip old off0 calls s pieces ∧ ((∀ c, s.ret c ≠ none) →
        s.off.toNat = off0 + ∑ c, (calls c).length ∧
          ∀ c, (piecesOf c pieces).flatMap (piece (calls c)) = calls c)) ∧
      (∀ c, (calls c).length + writeMax ≤ es.count c * writeMax →
        s.ret c = some ((calls c).length : ℤ)) ∧
      ∀ c, (∀ c', c' ≠ c → calls c' = []) → s.ret c ≠ none →
        s.files.content ip = (Content.file old).writei (fun k => (calls c).getD k 0)
          (BitVec.ofNat 32 off0) (BitVec.ofNat 32 (calls c).length))
      (fun msg _ => msg = "balloc: out of blocks" ∧ F.free ≤ MAXFILE) (.start F off0) := by
  have small : MAXFILE * BSIZE < 2 ^ 32 := by decide
  refine wp_imp (wp_run_trace (I := fun es s => ∃ pieces, Pieced ip old off0 calls s pieces ∧
      F.free ≤ s.blocks ip ∧ ∀ c, s.ret c = none → es.count c ≤ (piecesOf c pieces).length)
    ?turn ⟨[], .start regular (by omega), Nat.le_add_right .., by simp⟩ es) ?_
  case turn =>
    rintro es s c _ ⟨pieces, h, free, turns⟩
    apply wp_mono (h.turn inside fits c)
    · intro _ s' ⟨more, h', blocks, wrote, before⟩
      refine ⟨pieces ++ more, h', by omega, fun c' still => ?_⟩
      have so_far := turns c' (before c' still)
      have split : piecesOf c' (pieces ++ more) = piecesOf c' pieces ++ piecesOf c' more := by
        simp [piecesOf]
      rw [split, List.length_append, List.count_append, List.count_singleton]
      by_cases same : c = c'
      · subst same
        have := wrote still
        simp
        omega
      · simp [same]
        omega
    · intro msg _ ⟨full, le⟩
      exact ⟨full, by omega⟩
  · intro _ s ⟨pieces, h, _, turns⟩
    have whole (c : ι) (returned : s.ret c ≠ none) : (calls c).length ≤
        (piecesOf c pieces).length * writeMax := by
      obtain ⟨r, eq⟩ := Option.ne_none_iff_exists'.1 returned
      exact (h.ret c r eq).2
    refine ⟨⟨pieces, h, fun all => ⟨?_, fun c => ?_⟩⟩, fun c enough => ?_, fun c alone returned => ?_⟩
    · rw [h.total]
      congr 1
      apply Finset.sum_congr rfl
      intro c _
      rw [h.at_ c, min_eq_right (whole c (all c))]
    · rw [h.order c, flatMap_piece, List.take_of_length_le (whole c (all c))]
    · cases returned : s.ret c with
      | none =>
        have le := Nat.mul_le_mul_right writeMax (turns c returned)
        exact absurd (h.lt c) (by omega)
      | some r => rw [(h.ret c r returned).1]
    have le : (calls c).length ≤ ∑ c, (calls c).length :=
      Finset.single_le_sum (f := fun c => (calls c).length) (fun _ _ => Nat.zero_le _)
        (Finset.mem_univ c)
    have joined := h.joined_eq alone (whole c returned)
    have bytes : (List.range (BitVec.ofNat 32 (calls c).length).toNat).map
        (fun k => (calls c).getD k 0) = calls c := by
      rw [BitVec.toNat_ofNat, Nat.mod_eq_of_lt (by omega)]
      have all := map_range_getD (b := calls c) (i := 0) (Nat.zero_add _).le
      simpa using all
    have toNat : (BitVec.ofNat 32 off0).toNat = off0 := by
      rw [BitVec.toNat_ofNat, Nat.mod_eq_of_lt (by omega)]
    have start : (old.take off0).length = (BitVec.ofNat 32 off0).toNat := by
      rw [toNat, List.length_take, min_eq_left inside]
    have one := @writei_append old _ _ _ _ _ start bytes (by omega)
    rw [toNat, List.take_append_drop] at one
    rw [one, h.content, h.off, joined]

def longCalls (c : Bool) : List Byte := .replicate 2000 (if c then 7 else 8)

theorem length_longCalls (c : Bool) : (longCalls c).length = 2000 := List.length_replicate ..

section

attribute [local irreducible] wp longCalls

/-- Two writers of two pieces each, turn by turn, on a file of one byte. -/
theorem filewrite_shared_two :
    wp (run (filewrite 1 longCalls) [true, false, true, false, true, false])
      (fun _ s => s.off.toNat = 4001 ∧ ∀ c, s.ret c = some 2000)
      (fun _ _ => False) (.start ⟨fun _ => some (.file [0]), MAXFILE + 1⟩ 1) := by
  apply wp_mono (filewrite_shared rfl (by decide) (by simp [length_longCalls]; decide) _)
  · intro _ s ⟨⟨_, _, all⟩, turns, _⟩
    simp only [length_longCalls] at all turns
    have returned (c : Bool) : s.ret c = some 2000 := turns c (by cases c <;> decide)
    exact ⟨(all fun c => by simp [returned c]).1, returned⟩
  intro _ _ ⟨_, full⟩
  exact absurd full (by simp)

end

end Xv6.Fs
