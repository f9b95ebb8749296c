import Mathlib.Data.List.TakeWhile
import Xv6.Sh.Grammar

/-!
# Reading tokens

What `peek` and `gettoken` do, in terms of the tokens that the rest of the line spells.
-/

namespace Xv6.Sh

open Lib

section

variable {buf : List Char} {p : ℕ} {c : Char} {l rest : List Char} {t : Token} {ts : List Token}

/-! ## Characters -/

theorem deref_of_drop (h : buf.drop p = c :: l) : deref buf p = c := by
  rw [deref, List.getD_eq_getElem?_getD, ← List.head?_drop, h]
  rfl

theorem deref_end (h : buf.drop p = []) : deref buf p = nul := by
  rw [deref, List.getD_eq_getElem?_getD, ← List.head?_drop, h]
  rfl

theorem drop_skip (buf : List Char) (test : Char → Bool) (p : ℕ) :
    buf.drop (skip buf test p) = (buf.drop p).dropWhile test := by
  rw [skip, ← List.drop_drop]
  have split := List.takeWhile_append_dropWhile (p := test) (l := buf.drop p)
  nth_rewrite 2 [← split]
  exact List.drop_left ..

theorem skip_le (test : Char → Bool) (h : p ≤ buf.length) : skip buf test p ≤ buf.length := by
  have short := (List.takeWhile_prefix test (l := buf.drop p)).length_le
  rw [List.length_drop] at short
  rw [skip]
  omega

theorem dropWhile_blank {test : Char → Bool} {w : List Char} (blank : w.all test = true)
    (stop : rest.head?.any test = false) : (w ++ rest).dropWhile test = rest := by
  rw [List.dropWhile_append_of_pos (List.all_eq_true.1 blank)]
  cases rest with
  | nil => rfl
  | cons c rest => exact List.dropWhile_cons_of_neg (by simpa using stop)

theorem takeWhile_blank {test : Char → Bool} {w : List Char} (blank : w.all test = true)
    (stop : rest.head?.any test = false) : (w ++ rest).takeWhile test = w := by
  rw [List.takeWhile_append_of_pos (List.all_eq_true.1 blank)]
  cases rest with
  | nil => rw [List.takeWhile_nil, List.append_nil]
  | cons c rest => rw [List.takeWhile_cons_of_neg (by simpa using stop), List.append_nil]

theorem head_dropWhile (test : Char → Bool) (l : List Char) :
    (l.dropWhile test).head?.any test = false := by
  rw [← List.find?_not_eq_head?_dropWhile]
  cases found : l.find? fun c => !test c with
  | none => rfl
  | some c => simpa using List.find?_some found

/-! ## Tokens -/

/-- What `gettoken` returns for a token. -/
def Token.code : Token → Char
  | .word _ => 'a'
  | .redir .input => '<'
  | .redir .output => '>'
  | .redir .append => '+'
  | .bar => '|'
  | .amp => '&'
  | .semi => ';'
  | .lparen => '('
  | .rparen => ')'

/-- Whether a token is one of the symbols, by its first character. -/
def Token.begins (toks : List Char) : Token → Bool
  | .word _ => false
  | t => t.text.head?.any toks.contains

theorem Token.text_head (h : t.Ends rest) : ∃ c l, t.text = c :: l ∧ white c = false := by
  cases t with
  | word w =>
    obtain ⟨ne, chars, -⟩ := h
    obtain ⟨c, l, rfl⟩ := List.exists_cons_of_ne_nil ne
    have := List.all_eq_true.1 chars c (by simp)
    rw [wordChar, Bool.and_eq_true, Bool.not_eq_true'] at this
    exact ⟨c, l, rfl, this.1⟩
  | redir r => cases r <;> exact ⟨_, _, rfl, by decide⟩
  | _ => exact ⟨_, _, rfl, by decide⟩

theorem Token.text_stop (h : t.Ends rest) : (t.text ++ rest).head?.any white = false := by
  obtain ⟨c, l, eq, stop⟩ := t.text_head h
  rw [eq]
  exact stop

theorem Spells.trim {s : List Char} (h : Spells ts s) : Spells ts (s.dropWhile white) := by
  cases h with
  | nil blank =>
    rw [← List.append_nil s, dropWhile_blank blank rfl]
    exact .nil rfl
  | cons blank ends more =>
    rw [dropWhile_blank blank (Token.text_stop ends)]
    exact .cons (w := []) rfl ends more

theorem Spells.length_le {s : List Char} (h : Spells ts s) : ts.length ≤ s.length := by
  induction h with
  | nil => exact Nat.zero_le _
  | cons _ ends _ ih =>
    obtain ⟨c, l, eq, -⟩ := Token.text_head ends
    rw [eq]
    simp only [List.length_append, List.length_cons]
    omega

theorem exists_token (black : white c = false) (l : List Char) :
    ∃ (t : Token) (rest : List Char), c :: l = t.text ++ rest ∧ t.Ends rest := by
  by_cases word : wordChar c = true
  · refine ⟨.word ((c :: l).takeWhile wordChar), (c :: l).dropWhile wordChar,
      List.takeWhile_append_dropWhile.symm, ?_, ?_, ?_⟩
    · rw [List.takeWhile_cons_of_pos word]
      exact List.cons_ne_nil c _
    · exact List.all_eq_true.2 fun d mem => List.mem_takeWhile_imp mem
    · exact head_dropWhile ..
  have mem : c ∈ ['<', '|', '>', '&', ';', '(', ')'] := by
    have : c ∈ symbols := by
      rw [wordChar, Bool.and_eq_true, not_and] at word
      simpa using word (by simpa [white] using black)
    exact this
  simp only [List.mem_cons, List.not_mem_nil, or_false] at mem
  rcases mem with rfl | rfl | rfl | rfl | rfl | rfl | rfl
  · exact ⟨.redir .input, l, rfl, trivial⟩
  · exact ⟨.bar, l, rfl, trivial⟩
  · by_cases twice : l.head? = some '>'
    · obtain ⟨l, rfl⟩ : ∃ l', l = '>' :: l' := by
        cases l with
        | nil => cases twice
        | cons d l => exact ⟨l, by rw [Option.some.inj twice]⟩
      exact ⟨.redir .append, l, rfl, trivial⟩
    · exact ⟨.redir .output, l, rfl, twice⟩
  · exact ⟨.amp, l, rfl, trivial⟩
  · exact ⟨.semi, l, rfl, trivial⟩
  · exact ⟨.lparen, l, rfl, trivial⟩
  · exact ⟨.rparen, l, rfl, trivial⟩

theorem exists_spells (s : List Char) : ∃ ts, Spells ts s := by
  induction size : s.length using Nat.strong_induction_on generalizing s with
  | h n ih =>
    have split := List.takeWhile_append_dropWhile (p := white) (l := s)
    have blank : (s.takeWhile white).all white = true :=
      List.all_eq_true.2 fun c mem => List.mem_takeWhile_imp mem
    cases black : s.dropWhile white with
    | nil =>
      rw [black, List.append_nil] at split
      exact ⟨[], .nil (split ▸ blank)⟩
    | cons c l =>
      have first := head_dropWhile white s
      rw [black] at first
      obtain ⟨t, rest, eq, ends⟩ := exists_token first l
      rw [black, eq] at split
      have shorter : rest.length < n := by
        obtain ⟨d, l', text, -⟩ := Token.text_head ends
        rw [← size, ← split, text]
        simp only [List.length_append, List.length_cons]
        omega
      obtain ⟨ts, spells⟩ := ih rest.length shorter rest rfl
      exact ⟨t :: ts, split ▸ .cons blank ends spells⟩

/-! ## The rest of the line -/

/-- From `p` on the line consists of the tokens. -/
structure At (buf : List Char) (ts : List Token) (p : ℕ) : Prop where
  le : p ≤ buf.length
  spells : Spells ts (buf.drop p)

/-- The pointers are to the word `w`, which ends there. -/
structure Holds (buf : List Char) (sp : Span) (w : Word) : Prop where
  stop : sp.eq = sp.q + w.length
  le : sp.eq ≤ buf.length
  drop : ∃ rest, buf.drop sp.q = w ++ rest ∧ rest.head?.any wordChar = false
  chars : w.all wordChar = true

theorem At.skip (h : At buf ts p) : At buf ts (skip buf white p) where
  le := skip_le white h.le
  spells := by
    rw [drop_skip]
    exact h.spells.trim

theorem At.drop_nil (h : At buf [] p) : buf.drop (Sh.skip buf white p) = [] := by
  have spells := h.spells
  rw [drop_skip]
  generalize buf.drop p = s at spells
  cases spells with
  | nil blank => rw [← List.append_nil s, dropWhile_blank blank rfl]

theorem At.drop_cons (h : At buf (t :: ts) p) : ∃ rest,
    buf.drop (Sh.skip buf white p) = t.text ++ rest ∧ t.Ends rest ∧ Spells ts rest := by
  have spells := h.spells
  rw [drop_skip]
  generalize buf.drop p = s at spells
  cases spells with
  | cons blank ends more => exact ⟨_, dropWhile_blank blank (Token.text_stop ends), ends, more⟩

theorem At.deref_cons (clean : nul ∉ buf) (h : At buf (t :: ts) p) :
    ∃ c l, t.text = c :: l ∧ deref buf (Sh.skip buf white p) = c ∧ c ≠ nul := by
  obtain ⟨rest, drop, ends, -⟩ := h.drop_cons
  obtain ⟨c, l, text, -⟩ := Token.text_head ends
  rw [text] at drop
  refine ⟨c, l, text, deref_of_drop drop, ?_⟩
  rintro rfl
  exact clean (List.mem_of_mem_drop (by rw [drop]; simp))

section

variable {E : Stop → ℕ → Prop}

section

variable (clean : nul ∉ buf)
include clean

theorem wp_peek {Q : Bool → ℕ → Prop} {toks : List Char} (h : At buf ts p)
    (symbol : toks.all symbols.contains = true)
    (hQ : ∀ p', At buf ts p' → Q (ts.head?.any (Token.begins toks)) p') :
    wp (peek buf toks) Q E p := by
  have after := hQ _ h.skip
  simp only [peek, wp_bind, wp_get, wp_set, wp_pure]
  suffices same : (decide (deref buf (skip buf white p) ≠ nul) &&
      toks.contains (deref buf (skip buf white p))) = ts.head?.any (Token.begins toks) by
    rwa [← same] at after
  cases ts with
  | nil => simp [deref_end h.drop_nil]
  | cons t ts =>
    obtain ⟨c, l, text, here, black⟩ := h.deref_cons clean
    rw [here]
    simp only [black, ne_eq, not_false_eq_true, decide_true, Bool.true_and, List.head?_cons,
      Option.any_some]
    cases t with
    | word w =>
      obtain ⟨rest, -, ⟨-, chars, -⟩, -⟩ := h.drop_cons
      have plain := List.all_eq_true.1 chars c (by rw [show w = c :: l from text]; simp)
      rw [Token.begins, Bool.eq_false_iff]
      intro mem
      have := List.all_eq_true.1 symbol c (by simpa using mem)
      rw [wordChar, this, Bool.not_true, Bool.and_false] at plain
      cases plain
    | _ => simp only [Token.begins, text, List.head?_cons, Option.any_some]

theorem wp_peek_ite {α : Type} {Q : α → ℕ → Prop} {toks : List Char} {m₁ m₂ : P α}
    (h : At buf ts p) (symbol : toks.all symbols.contains = true)
    (yes : ts.head?.any (Token.begins toks) = true → ∀ p', At buf ts p' → wp m₁ Q E p')
    (no : ts.head?.any (Token.begins toks) = false → ∀ p', At buf ts p' → wp m₂ Q E p') :
    wp (do if ← peek buf toks then m₁ else m₂) Q E p := by
  rw [wp_bind]
  refine wp_peek clean h symbol fun p' h' => wp_ite.2 ⟨fun found => yes found p' h', ?_⟩
  exact fun other => no (Bool.eq_false_iff.2 other) p' h'

theorem token_word {w : Word} {q : ℕ} (drop : buf.drop q = w ++ rest)
    (ends : (Token.word w).Ends rest) : token buf q = ('a', q + w.length) := by
  obtain ⟨ne, chars, stop⟩ := ends
  have reach : skip buf wordChar q = q + w.length := by
    rw [skip, drop, takeWhile_blank chars stop]
  obtain ⟨c, l, rfl⟩ := List.exists_cons_of_ne_nil ne
  have here : deref buf q = c := deref_of_drop drop
  have plain := List.all_eq_true.1 chars c (by simp)
  have black : c ≠ nul := by
    rintro rfl
    exact clean (List.mem_of_mem_drop (by rw [drop]; simp))
  have other : c ∉ symbols := by
    intro mem
    simp [wordChar, mem] at plain
  have first : c ∉ "|();&<".toList := by
    intro mem
    have all : "|();&<".toList.all symbols.contains = true := rfl
    exact other (by simpa using List.all_eq_true.1 all c mem)
  have second : c ≠ '>' := by
    rintro rfl
    exact other (by decide)
  simp only [token, here, if_neg black, if_neg first, if_neg second, reach]

theorem token_eq {q : ℕ} (drop : buf.drop q = t.text ++ rest)
    (ends : t.Ends rest) : token buf q = (t.code, q + t.text.length) := by
  have second : buf.drop (q + 1) = (t.text ++ rest).tail := by
    rw [← drop, List.tail_drop]
  cases t with
  | word w => exact token_word clean drop ends
  | redir r =>
    cases r with
    | input =>
      simp only [token, deref_of_drop drop]
      rfl
    | output =>
      have single : deref buf (q + 1) ≠ '>' := by
        cases rest with
        | nil =>
          rw [deref_end second]
          decide
        | cons c rest =>
          rw [deref_of_drop second]
          rintro rfl
          exact ends rfl
      simp only [token, deref_of_drop drop, if_neg single]
      rfl
    | append =>
      simp only [token, deref_of_drop drop, deref_of_drop second]
      rfl
  | _ =>
    simp only [token, deref_of_drop drop]
    rfl

theorem wp_gettoken {Q : Char × Span → ℕ → Prop} (h : At buf (t :: ts) p)
    (hQ : ∀ sp p', At buf ts p' → (∀ w, t = .word w → Holds buf sp w) → Q (t.code, sp) p') :
    wp (gettoken buf) Q E p := by
  obtain ⟨rest, drop, ends, more⟩ := h.drop_cons
  simp only [gettoken, wp_bind, wp_get, wp_set, wp_pure, token_eq clean drop ends]
  generalize skip buf white p = q at drop
  have after : buf.drop (q + t.text.length) = rest := by
    rw [← List.drop_drop, drop]
    exact List.drop_left ..
  have le : q + t.text.length ≤ buf.length := by
    have length := congrArg List.length drop
    obtain ⟨c, l, text, -⟩ := Token.text_head ends
    rw [text] at length ⊢
    simp only [List.length_drop, List.length_append, List.length_cons] at length ⊢
    omega
  refine hQ ⟨q, q + t.text.length⟩ _ (At.skip ⟨le, by rwa [after]⟩) ?_
  rintro w rfl
  exact ⟨rfl, le, ⟨rest, drop, ends.2.2⟩, ends.2.1⟩

end

theorem wp_gettoken_end {Q : Char × Span → ℕ → Prop} (h : At buf [] p)
    (hQ : ∀ sp p', At buf [] p' → Q (nul, sp) p') : wp (gettoken buf) Q E p := by
  have here := deref_end h.drop_nil
  have token : token buf (skip buf white p) = (nul, skip buf white p) := by
    rw [token, here]
    rfl
  simp only [gettoken, wp_bind, wp_get, wp_set, wp_pure, token]
  exact hQ _ _ h.skip.skip

end

end

end Xv6.Sh
