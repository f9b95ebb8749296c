import Mathlib.Computability.Language

/-!
# `grep`

`match` of `grep.c` finds a pattern in a text just if the text is among those that the pattern
stands for (`match_iff`).  The loop of `grep` keeps the beginning of a line for the next read only
if there was a newline before it (`grep_lines`).  A string is the list of its characters up to the
NUL.
-/

namespace Xv6.Grep

open Computability

/-! ## The code -/

/-- `c=='.' || c==t`. -/
def fits (c t : Char) : Bool := c == '.' || c == t

/-- `c*re` at the beginning of the text, where `here` is `matchhere` for `re`. -/
def matchstar (c : Char) (here : List Char → Bool) : List Char → Bool
  | [] => here []
  | t :: text => here (t :: text) || (fits c t && matchstar c here text)

def matchone (c : Char) (here : List Char → Bool) : List Char → Bool
  | [] => false
  | t :: text => fits c t && here text

def matchhere : List Char → List Char → Bool
  | [], _ => true
  | [c], text => if c = '$' then text.isEmpty else matchone c (matchhere []) text
  | c :: d :: re, text =>
      if d = '*' then matchstar c (matchhere re) text else matchone c (matchhere (d :: re)) text

/-- The loop of `match`. -/
def matchanywhere (re : List Char) : List Char → Bool
  | [] => matchhere re []
  | t :: text => matchhere re (t :: text) || matchanywhere re text

def match_ : List Char → List Char → Bool
  | [], text => matchanywhere [] text
  | c :: re, text => if c = '^' then matchhere re text else matchanywhere (c :: re) text

/-! ## What a pattern means -/

inductive Item where
  | one (c : Char)
  | star (c : Char)

/-- The items of a pattern, and whether it ends in the anchor. -/
def items : List Char → List Item × Bool
  | [] => ([], false)
  | [c] => if c = '$' then ([], true) else ([.one c], false)
  | c :: d :: re =>
      if d = '*' then (.star c :: (items re).1, (items re).2)
      else (.one c :: (items (d :: re)).1, (items (d :: re)).2)

/-- One character that is `c`, or any if `c` is a dot. -/
def single (c : Char) : Language Char := {w | ∃ t, w = [t] ∧ (c = '.' ∨ c = t)}

def Item.texts : Item → Language Char
  | .one c => single c
  | .star c => (single c)∗

/-- The text begins with one of the texts of the items, and ends there if it is to. -/
def Begins (p : List Item × Bool) (text : List Char) : Prop :=
  ∃ w ∈ (p.1.map Item.texts).prod, ∃ rest, w ++ rest = text ∧ (p.2 = true → rest = [])

/-- The text contains one of the texts of the pattern, at its beginning if there is a `^`. -/
def Denotes (re text : List Char) : Prop :=
  if re.head? = some '^' then Begins (items re.tail) text
  else ∃ before rest, before ++ rest = text ∧ Begins (items re) rest

variable {c : Char} {l : List Item} {e : Bool} {text : List Char}

theorem begins_cons {i : Item} : Begins (i :: l, e) text ↔
    ∃ w ∈ i.texts, ∃ rest, w ++ rest = text ∧ Begins (l, e) rest := by
  simp only [Begins, List.map_cons, List.prod_cons, Language.mem_mul]
  constructor
  · rintro ⟨_, ⟨w, hw, v, hv, rfl⟩, rest, rfl, ends⟩
    exact ⟨w, hw, v ++ rest, (List.append_assoc ..).symm, v, hv, rest, rfl, ends⟩
  rintro ⟨w, hw, _, rfl, v, hv, rest, rfl, ends⟩
  exact ⟨w ++ v, ⟨w, hw, v, hv, rfl⟩, rest, List.append_assoc .., ends⟩

theorem mem_single {w : List Char} : w ∈ single c ↔ ∃ t, w = [t] ∧ fits c t = true := by
  simp only [fits, Bool.or_eq_true, beq_iff_eq]
  rfl

theorem begins_one : Begins (.one c :: l, e) text ↔
    ∃ t rest, text = t :: rest ∧ fits c t = true ∧ Begins (l, e) rest := by
  simp only [begins_cons, Item.texts, mem_single]
  constructor
  · rintro ⟨_, ⟨t, rfl, fit⟩, rest, rfl, begins⟩
    exact ⟨t, rest, rfl, fit, begins⟩
  rintro ⟨t, rest, rfl, fit, begins⟩
  exact ⟨[t], ⟨t, rfl, fit⟩, rest, rfl, begins⟩

theorem mem_star {w : List Char} : w ∈ (single c)∗ ↔
    w = [] ∨ ∃ t v, w = t :: v ∧ fits c t = true ∧ v ∈ (single c)∗ := by
  nth_rewrite 1 [← Language.one_add_self_mul_kstar_eq_kstar]
  rw [Language.mem_add, Language.mem_one, Language.mem_mul]
  refine or_congr_right ⟨?_, ?_⟩
  · rintro ⟨_, one, v, hv, rfl⟩
    obtain ⟨t, rfl, fit⟩ := mem_single.1 one
    exact ⟨t, v, rfl, fit, hv⟩
  rintro ⟨t, v, rfl, fit, hv⟩
  exact ⟨[t], mem_single.2 ⟨t, rfl, fit⟩, v, hv, rfl⟩

theorem begins_star : Begins (.star c :: l, e) text ↔ Begins (l, e) text ∨
    ∃ t rest, text = t :: rest ∧ fits c t = true ∧ Begins (.star c :: l, e) rest := by
  simp only [begins_cons, Item.texts]
  constructor
  · rintro ⟨w, hw, rest, rfl, begins⟩
    rcases mem_star.1 hw with rfl | ⟨t, v, rfl, fit, hv⟩
    · exact .inl begins
    · exact .inr ⟨t, v ++ rest, rfl, fit, v, hv, rest, rfl, begins⟩
  rintro (begins | ⟨t, _, rfl, fit, v, hv, rest, rfl, begins⟩)
  · exact ⟨[], mem_star.2 (.inl rfl), text, rfl, begins⟩
  · exact ⟨t :: v, mem_star.2 (.inr ⟨t, v, rfl, fit, hv⟩), rest, rfl, begins⟩

theorem matchone_iff {here : List Char → Bool} (h : ∀ text, here text = true ↔ Begins (l, e) text) :
    matchone c here text = true ↔ Begins (.one c :: l, e) text := by
  rw [begins_one]
  cases text with
  | nil => simp [matchone]
  | cons t text => simp [matchone, h]

theorem matchstar_iff {here : List Char → Bool} (h : ∀ text, here text = true ↔ Begins (l, e) text) :
    matchstar c here text = true ↔ Begins (.star c :: l, e) text := by
  induction text with
  | nil =>
    rw [begins_star, matchstar, h]
    simp
  | cons t text ih =>
    rw [begins_star, matchstar, Bool.or_eq_true, Bool.and_eq_true, h, ih]
    simp

theorem matchhere_iff (re text : List Char) : matchhere re text = true ↔ Begins (items re) text := by
  induction re using items.induct generalizing text with
  | case1 | case2 => simp [matchhere, items, Begins, Language.mem_one]
  | case3 c other =>
    rw [matchhere, items, if_neg other, if_neg other]
    apply matchone_iff
    simp [matchhere, Begins, Language.mem_one]
  | case4 c re ih =>
    rw [matchhere, items, if_pos rfl, if_pos rfl]
    exact matchstar_iff ih
  | case5 c d re other ih =>
    rw [matchhere, items, if_neg other, if_neg other]
    exact matchone_iff ih

theorem matchanywhere_iff (re text : List Char) : matchanywhere re text = true ↔
    ∃ before rest, before ++ rest = text ∧ Begins (items re) rest := by
  induction text with
  | nil =>
    rw [matchanywhere, matchhere_iff]
    simp
  | cons t text ih =>
    rw [matchanywhere, Bool.or_eq_true, matchhere_iff, ih]
    constructor
    · rintro (here | ⟨before, rest, rfl, later⟩)
      · exact ⟨[], t :: text, rfl, here⟩
      · exact ⟨t :: before, rest, rfl, later⟩
    rintro ⟨before, rest, split, begins⟩
    cases before with
    | nil =>
      subst split
      exact .inl begins
    | cons _ before =>
      obtain ⟨-, rfl⟩ := List.cons.inj split
      exact .inr ⟨before, rest, rfl, begins⟩

/-- `match` finds a pattern in a text just if the text is among those that the pattern stands for. -/
theorem match_iff (re text : List Char) : match_ re text = true ↔ Denotes re text := by
  cases re with
  | nil => exact matchanywhere_iff [] text
  | cons c re =>
    rw [match_, Denotes]
    by_cases anchor : c = '^'
    · rw [if_pos anchor, if_pos (by rw [anchor]; rfl)]
      exact matchhere_iff re text
    rw [if_neg anchor, if_neg (by simpa using anchor)]
    exact matchanywhere_iff (c :: re) text

/-! ## Reading and writing -/

/-- The loop over the lines in the buffer: what is written, and what `p` points to at the end. -/
def scan (pattern : List Char) : ℕ → List Char → List Char × List Char
  | 0, p => ([], p)
  | fuel + 1, p =>
      let q := p.idxOf '\n'
      if q < p.length then
        let line := if match_ pattern (p.take q) then p.take (q + 1) else []
        let rest := scan pattern fuel (p.drop (q + 1))
        (line ++ rest.1, rest.2)
      else ([], p)

/-- `grep` with the bytes `held` in `buf`, and what it writes; a read finds at most `ready 0 + 1`
bytes. -/
def grep (pattern : List Char) : ℕ → (ℕ → ℕ) → List Char → List Char →
    Option (List (List Char) × List Char)
  | 0, _, _, _ => none
  | fuel + 1, ready, held, input =>
      let piece := input.take (min (ready 0 + 1) (1024 - held.length - 1))
      if piece = [] then some ([], [])
      else
        let buf := held ++ piece
        let (out, p) := scan pattern buf.length buf
        let held := if p.length = buf.length then [] else p
        (grep pattern fuel (fun i => ready (i + 1)) held (input.drop piece.length)).map
          fun rest => (piece :: rest.1, out ++ rest.2)

def unlines (ls : List (List Char)) : List Char := ls.flatMap (· ++ ['\n'])

/-- Lines that fit into the buffer. -/
def Lines (ls : List (List Char)) : Prop :=
  ∀ l ∈ ls, '\n' ∉ l ∧ '\x00' ∉ l ∧ l.length ≤ 1022

variable {pattern p input held : List Char} {ls : List (List Char)} {fuel : ℕ} {ready : ℕ → ℕ}

theorem unlines_cons (l : List Char) (ls : List (List Char)) :
    unlines (l :: ls) = l ++ '\n' :: unlines ls := by
  simp [unlines]

theorem unlines_append (ls₁ ls₂ : List (List Char)) :
    unlines (ls₁ ++ ls₂) = unlines ls₁ ++ unlines ls₂ := List.flatMap_append

theorem scan_unlines (lines : ∀ l ∈ ls, '\n' ∉ l) (last : '\n' ∉ p) (enough : ls.length ≤ fuel) :
    scan pattern fuel (unlines ls ++ p) = (unlines (ls.filter (match_ pattern)), p) := by
  induction ls generalizing fuel with
  | nil =>
    have absent : ¬ p.idxOf '\n' < p.length := mt List.idxOf_lt_length_iff.1 last
    cases fuel with
    | zero => rfl
    | succ fuel =>
      show scan pattern (fuel + 1) p = ([], p)
      rw [scan]
      exact if_neg absent
  | cons l ls ih =>
    obtain ⟨fuel, rfl⟩ : ∃ k, fuel = k + 1 := Nat.exists_eq_add_one.2 (by simp at enough; omega)
    have first : (unlines (l :: ls) ++ p).idxOf '\n' = l.length := by
      rw [unlines_cons, List.append_assoc, List.idxOf_append_of_notMem (lines l List.mem_cons_self)]
      simp
    have split : unlines (l :: ls) ++ p = (l ++ ['\n']) ++ (unlines ls ++ p) := by
      simp [unlines_cons]
    have length : l.length + 1 = (l ++ ['\n']).length := by simp
    have rest := ih (fun l mem => lines l (List.mem_cons_of_mem _ mem))
      (show ls.length ≤ fuel by simpa using enough)
    rw [scan]
    simp only [first]
    rw [if_pos (by simp [split]), split, length, List.drop_left, List.take_left, rest,
      List.append_assoc, List.take_left]
    cases found : match_ pattern l with
    | true => simp [found, unlines_cons]
    | false => simp [found]

theorem unlines_prefix {buf : List Char} (lines : Lines ls) (split : buf ++ input = unlines ls) :
    ∃ ls₁ ls₂ p, ls = ls₁ ++ ls₂ ∧ buf = unlines ls₁ ++ p ∧ p ++ input = unlines ls₂ ∧ '\n' ∉ p ∧
      p.length ≤ 1022 := by
  induction ls generalizing buf with
  | nil =>
    obtain ⟨rfl, rfl⟩ := List.append_eq_nil_iff.1 split
    exact ⟨[], [], [], rfl, rfl, rfl, nofun, Nat.zero_le _⟩
  | cons l ls ih =>
    obtain ⟨clean, -, short⟩ := lines l List.mem_cons_self
    rw [unlines_cons] at split
    rcases List.append_eq_append_iff.1 split with ⟨a, rfl, rfl⟩ | ⟨a, rfl, rest⟩
    · refine ⟨[], (buf ++ a) :: ls, buf, rfl, rfl, ?_, fun mem => clean (by simp [mem]), ?_⟩
      · rw [unlines_cons, List.append_assoc]
      rw [List.length_append] at short
      omega
    cases a with
    | nil =>
      obtain rfl : '\n' :: unlines ls = input := rest
      exact ⟨[], l :: ls, l, rfl, List.append_nil l, (unlines_cons ..).symm, clean, short⟩
    | cons x a =>
      obtain ⟨rfl, tail⟩ : '\n' = x ∧ unlines ls = a ++ input := List.cons.inj rest
      obtain ⟨ls₁, ls₂, p, rfl, rfl, last, free⟩ := ih
        (fun l mem => lines l (List.mem_cons_of_mem _ mem)) tail.symm
      exact ⟨l :: ls₁, ls₂, p, rfl, by simp [unlines_cons], last, free⟩

theorem unlines_drop (lines : Lines ls) (split : p ++ input = unlines ls) (part : '\n' ∉ p) :
    ∃ ls', Lines ls' ∧ input = unlines ls' := by
  cases ls with
  | nil => exact ⟨[], nofun, (List.append_eq_nil_iff.1 split).2⟩
  | cons l ls =>
    obtain ⟨⟨clean, text, short⟩, others⟩ := List.forall_mem_cons.1 lines
    rw [unlines_cons] at split
    rcases List.append_eq_append_iff.1 split with ⟨a, rfl, rfl⟩ | ⟨a, rfl, rest⟩
    · refine ⟨a :: ls, List.forall_mem_cons.2 ⟨⟨?_, ?_, ?_⟩, others⟩, (unlines_cons ..).symm⟩
      · exact fun mem => clean (List.mem_append_right _ mem)
      · exact fun mem => text (List.mem_append_right _ mem)
      rw [List.length_append] at short
      omega
    cases a with
    | nil =>
      exact ⟨[] :: ls, List.forall_mem_cons.2 ⟨⟨nofun, nofun, Nat.zero_le _⟩, others⟩, rest.symm⟩
    | cons x a =>
      obtain ⟨rfl, -⟩ : '\n' = x ∧ _ := List.cons.inj rest
      exact absurd (by simp) part

theorem length_le_unlines (ls : List (List Char)) : ls.length ≤ (unlines ls).length := by
  induction ls with
  | nil => rfl
  | cons l ls ih =>
    simp only [unlines_cons, List.length_append, List.length_cons]
    omega

theorem length_unlines_filter (ls : List (List Char)) (f : List Char → Bool) :
    (unlines (ls.filter f)).length ≤ (unlines ls).length := by
  induction ls with
  | nil => rfl
  | cons l ls ih =>
    rw [List.filter_cons]
    split <;> simp only [unlines_cons, List.length_append, List.length_cons] <;> omega

/-- The loop from a buffer that holds the beginning of a line. -/
theorem grep_spec (lines : Lines ls) (part : '\n' ∉ held) (short : held.length ≤ 1022)
    (split : held ++ input = unlines ls) (enough : input.length < fuel) :
    ∃ pieces out, grep pattern fuel ready held input = some (pieces, out) ∧ pieces.flatten = input ∧
      ((∀ piece ∈ pieces, '\n' ∈ piece) → out = unlines (ls.filter (match_ pattern))) ∧
      out.length ≤ (unlines ls).length ∧
      ((∃ piece ∈ pieces, '\n' ∉ piece) → out.length < (unlines ls).length) := by
  induction fuel generalizing ready held input ls with
  | zero => omega
  | succ fuel ih =>
    rw [grep]
    set piece := input.take (min (ready 0 + 1) (1024 - held.length - 1)) with piece_def
    by_cases done : piece = []
    · have none : input = [] := by
        rcases List.take_eq_nil_iff.1 (piece_def.symm.trans done) with none | none
        · omega
        · exact none
      subst none
      rw [List.append_nil] at split
      have empty : ls = [] := by
        cases ls with
        | nil => rfl
        | cons l ls =>
          rw [split, unlines_cons] at part
          exact absurd (by simp) part
      subst empty
      exact ⟨[], [], by rw [if_pos done], rfl, fun _ => rfl, Nat.zero_le _, by simp⟩
    have pos : 0 < piece.length := List.length_pos_iff.2 done
    have whole : piece ++ input.drop piece.length = input := by
      rw [← List.prefix_iff_eq_append]
      exact List.take_prefix ..
    have split' : held ++ piece ++ input.drop piece.length = unlines ls := by
      rw [List.append_assoc, whole, split]
    obtain ⟨ls₁, ls₂, p, rfl, buf, rest, last, small⟩ := unlines_prefix lines split'
    obtain ⟨lines₁, lines₂⟩ := List.forall_mem_append.1 lines
    have left : (input.drop piece.length).length < fuel := by
      have length := congrArg List.length whole
      rw [List.length_append] at length
      omega
    have scanned : scan pattern (held ++ piece).length (held ++ piece) =
        (unlines (ls₁.filter (match_ pattern)), p) := by
      nth_rewrite 2 [buf]
      apply scan_unlines (fun l mem => (lines₁ l mem).1) last
      rw [buf, List.length_append]
      have le := length_le_unlines ls₁
      omega
    rw [if_neg done]
    simp only [scanned]
    cases ls₁ with
    | nil =>
      -- there is no newline, and what has been read is lost
      have all : held ++ piece = p := buf
      obtain ⟨ls', lines', eq⟩ := unlines_drop lines₂ rest last
      obtain ⟨pieces, out, runs, flat, -, le, -⟩ := @ih _ [] ls' (fun i => ready (i + 1))
        lines' (by simp) (Nat.zero_le _) eq left
      have shorter : out.length < (unlines ls₂).length := by
        have length := congrArg List.length rest
        have length' := congrArg List.length all
        rw [List.length_append] at length length'
        rw [eq] at length
        omega
      refine ⟨piece :: pieces, out, ?_, ?_, fun newlines => ?_, shorter.le, fun _ => shorter⟩
      · rw [all, if_pos rfl, runs]
        rfl
      · rw [List.flatten_cons, flat, whole]
      have newline := newlines piece List.mem_cons_self
      exact absurd (all ▸ List.mem_append_right held newline) last
    | cons l ls₁ =>
      obtain ⟨pieces, out, runs, flat, right, le, lost⟩ := @ih _ p ls₂
        (fun i => ready (i + 1)) lines₂ last small rest left
      have le₁ := length_unlines_filter (l :: ls₁) (match_ pattern)
      have newline : '\n' ∈ piece := by
        have mem : '\n' ∈ held ++ piece := by simp [buf, unlines_cons]
        exact (List.mem_append.1 mem).resolve_left part
      have other : p.length ≠ (held ++ piece).length := by
        rw [buf, unlines_cons]
        simp only [List.length_append, List.length_cons]
        omega
      refine ⟨piece :: pieces, unlines ((l :: ls₁).filter (match_ pattern)) ++ out, ?_, ?_,
        fun newlines => ?_, ?_, fun lacks => ?_⟩
      · rw [if_neg other, runs]
        rfl
      · rw [List.flatten_cons, flat, whole]
      · rw [right (List.forall_mem_cons.1 newlines).2, List.filter_append, unlines_append]
      · rw [unlines_append, List.length_append, List.length_append]
        omega
      have fewer := lost ?_
      · rw [unlines_append, List.length_append, List.length_append]
        omega
      obtain ⟨piece', mem, lacks⟩ := lacks
      rcases List.mem_cons.1 mem with rfl | mem
      · exact absurd newline lacks
      · exact ⟨piece', mem, lacks⟩

/-- If every read brings a newline `grep` writes exactly the lines that match, and otherwise less
than the text; it always reads the whole text. -/
theorem grep_lines (pattern : List Char) (ready : ℕ → ℕ) (lines : Lines ls) :
    ∃ pieces out, grep pattern ((unlines ls).length + 1) ready [] (unlines ls) = some (pieces, out) ∧
      pieces.flatten = unlines ls ∧
      ((∀ piece ∈ pieces, '\n' ∈ piece) → out = unlines (ls.filter (match_ pattern))) ∧
      ((∀ l ∈ ls, match_ pattern l = true) →
        (out = unlines (ls.filter (match_ pattern)) ↔ ∀ piece ∈ pieces, '\n' ∈ piece)) := by
  obtain ⟨pieces, out, runs, flat, right, -, lost⟩ := @grep_spec pattern (unlines ls) [] ls _ ready
    lines (by simp) (Nat.zero_le _) rfl (Nat.lt_succ_self _)
  refine ⟨pieces, out, runs, flat, right, fun all => ⟨fun same piece mem => ?_, right⟩⟩
  by_contra lacks
  have shorter := lost ⟨piece, mem, lacks⟩
  rw [same, List.filter_eq_self.2 all] at shorter
  exact lt_irrefl _ shorter

/-- Two lines that come in a read each. -/
theorem grep_lines_two : ∃ pieces out,
    grep ['b'] 6 (fun _ => 2) [] ['a', 'b', '\n', 'c', '\n'] = some (pieces, out) ∧
      (∀ piece ∈ pieces, '\n' ∈ piece) ∧ out = ['a', 'b', '\n'] := by
  have lines : Lines [['a', 'b'], ['c']] := by simp [Lines]
  obtain ⟨pieces, out, runs, -, right, -⟩ := grep_lines ['b'] (fun _ => 2) lines
  have read : (grep ['b'] 6 (fun _ => 2) [] ['a', 'b', '\n', 'c', '\n']).map Prod.fst =
      some [['a', 'b', '\n'], ['c', '\n']] := by decide
  have split : pieces = [['a', 'b', '\n'], ['c', '\n']] :=
    Option.some.inj ((congrArg (Option.map Prod.fst) runs).symm.trans read)
  have whole : ∀ piece ∈ pieces, '\n' ∈ piece := by
    rw [split]
    decide
  exact ⟨pieces, out, runs, whole, right whole⟩

/-- A line that comes in two reads is lost. -/
theorem grep_split_line : match_ ['a'] ['a'] = true ∧
    grep ['a'] 3 (fun _ => 0) [] ['a', '\n'] = some ([['a'], ['\n']], []) := by
  decide

end Xv6.Grep
