import Xv6.Sh.Parse

/-!
# The round trip

A tree that is written down and parsed is the same tree again: the NULs that `nulterminate` writes
are not inside any word.
-/

namespace Xv6.Sh

open Lib

/-! ## Writing a tree -/

/-- The tokens stand for the tree at a place. -/
def DerivesAt : Place → List Token → Tree → Prop
  | .line, ts, tree => Derives .line ts tree
  | .left, ts, tree => ∃ ts' n tree', ts = ts' ++ List.replicate n .amp ∧
      tree = tree'.backs n ∧ Derives .pipe ts' tree'
  | .pipe, ts, tree => Derives .pipe ts tree
  | .simple, ts, tree => Derives .simple ts tree

section

variable {ts : List Token} {tree : Tree}

theorem DerivesAt.line (h : DerivesAt .left ts tree) : DerivesAt .line ts tree := by
  obtain ⟨ts', n, tree', rfl, rfl, derives⟩ := h
  exact .line n derives

theorem DerivesAt.left (h : DerivesAt .pipe ts tree) : DerivesAt .left ts tree :=
  ⟨ts, 0, tree, (List.append_nil ts).symm, rfl, h⟩

theorem DerivesAt.of_simple (h : Derives .simple ts tree) (k : Place) : DerivesAt k ts tree := by
  have pipe : DerivesAt .pipe ts tree := .one h
  cases k with
  | line => exact pipe.left.line
  | left => exact pipe.left
  | pipe => exact pipe
  | simple => exact h

theorem DerivesAt.parens (h : DerivesAt .line ts tree) (k : Place) :
    DerivesAt k (.lparen :: (ts ++ [.rparen])) tree := .of_simple (.block h []) k

theorem Derives.redir (h : Derives .simple ts tree) (r : Redir) (w : Word) :
    Derives .simple (ts ++ [.redir r, .word w]) (.redir tree w r) := by
  cases h with
  | block line rs =>
    have more := Derives.block line (rs ++ [(r, w)])
    rw [redirs_append, Cmd.wrap_snoc] at more
    simpa using more
  | words rs args few =>
    -- the redirection belongs to the last argument, if there is one
    rcases List.eq_nil_or_concat args with rfl | ⟨init, ⟨a, rs'⟩, rfl⟩
    · have more := Derives.words (rs ++ [(r, w)]) [] few
      simpa [Cmd.wrap_snoc] using more
    have more := Derives.words rs (init ++ [(a, rs' ++ [(r, w)])]) (by simpa using few)
    simp only [List.flatMap_append, List.flatMap_singleton] at more
    rw [← List.append_assoc (List.flatMap _ init) rs', ← List.append_assoc rs,
      Cmd.wrap_snoc] at more
    simpa using more

theorem derives_exec {argv : List Word} (short : argv.length < MAXARGS) :
    Derives .simple (argv.map .word) (.exec argv) := by
  have words := Derives.words [] (argv.map fun w => (w, [])) (by simpa using short)
  have tokens : (argv.map fun w => (w, ([] : List (Redir × Word)))).flatMap
      (fun a => Token.word a.1 :: redirs a.2) = argv.map .word := by
    rw [List.flatMap_map]
    exact List.map_eq_flatMap.symm
  have none : (argv.map fun w => (w, ([] : List (Redir × Word)))).flatMap Prod.snd = [] := by
    simp
  rw [tokens, none, List.map_map] at words
  simp only [Function.comp_def, List.map_id_fun', id_eq, redirs_nil, List.nil_append] at words
  exact words

theorem derives_print (short : tree.Short) (k : Place) : DerivesAt k (tree.printAt k) tree := by
  induction tree generalizing k with
  | exec argv => exact .of_simple (derives_exec short) k
  | redir cmd file r ih => exact .of_simple (Derives.redir (ih short .simple) r file) k
  | pipe left right ihLeft ihRight =>
    have pipe : DerivesAt .pipe (left.printAt .simple ++ .bar :: right.printAt .pipe)
      (.pipe left right) := .pipe (ihLeft short.1 .simple) (ihRight short.2 .pipe)
    cases k with
    | line => exact pipe.left.line
    | left => exact pipe.left
    | pipe => exact pipe
    | simple => exact pipe.left.line.parens .simple
  | list left right ihLeft ihRight =>
    have line : DerivesAt .line (left.printAt .left ++ .semi :: right.printAt .line)
        (.list left right) := by
      obtain ⟨ts, n, first, eq, eq', derives⟩ := ihLeft short.1 .left
      rw [eq, eq', List.append_assoc]
      exact .list n derives (ihRight short.2 .line)
    cases k with
    | line => exact line
    | left => exact line.parens .left
    | pipe => exact line.parens .pipe
    | simple => exact line.parens .simple
  | back cmd ih =>
    have back : DerivesAt .left (cmd.printAt .left ++ [.amp]) (.back cmd) := by
      obtain ⟨ts, n, first, eq, eq', derives⟩ := ih short .left
      refine ⟨ts, n + 1, first, ?_, ?_, derives⟩
      · rw [eq, List.append_assoc, List.replicate_succ']
      · rw [backs_succ, eq']
    cases k with
    | line => exact back.line
    | left => exact back
    | pipe => exact back.line.parens .pipe
    | simple => exact back.line.parens .simple

end

/-! ## The words -/

/-- The words of a tree, in the order of `nulterminate`. -/
def Cmd.words {W R : Type} : Cmd W R → List W
  | .exec argv => argv
  | .redir cmd file _ => cmd.words ++ [file]
  | .pipe left right => left.words ++ right.words
  | .list left right => left.words ++ right.words
  | .back cmd => cmd.words

theorem nulterminate_eq (cmd : Cmd Span How) (mem : List Char) :
    nulterminate cmd mem = cmd.words.foldl (fun mem sp => mem.set sp.eq nul) mem := by
  induction cmd generalizing mem with
  | exec argv => rfl
  | redir cmd file how ih => rw [nulterminate, ih, Cmd.words, List.foldl_append]; rfl
  | pipe left right ihLeft ihRight | list left right ihLeft ihRight =>
    rw [nulterminate, ihLeft, ihRight, Cmd.words, List.foldl_append]
  | back cmd ih => exact ih mem

section

variable {buf mem : List Char} {sp : Span} {w : Word} {cmd : Cmd Span How} {tree : Tree}

theorem set_nuls (sps : List Span) (mem : List Char) (i : ℕ) :
    (sps.foldl (fun mem sp => mem.set sp.eq nul) mem)[i]? =
      if (∃ sp ∈ sps, sp.eq = i) ∧ i < mem.length then some nul else mem[i]? := by
  induction sps generalizing mem with
  | nil => simp
  | cons sp sps ih =>
    rw [List.foldl_cons, ih, List.length_set, List.getElem?_set]
    by_cases here : sp.eq = i
    · by_cases inside : i < mem.length
      · simp [here, inside]
      · simp [here, inside]
    · simp [here]

theorem Holds.char (h : Holds buf sp w) {j : ℕ} (lt : j < w.length) :
    ∃ c, buf[sp.q + j]? = some c ∧ w[j]? = some c ∧ wordChar c = true := by
  obtain ⟨rest, drop, -⟩ := h.drop
  have same : buf[sp.q + j]? = w[j]? := by
    rw [← List.getElem?_drop, drop, List.getElem?_append_left lt]
  have there : w[j]? = some w[j] := List.getElem?_eq_getElem lt
  exact ⟨w[j], same.trans there, there, List.all_eq_true.1 h.chars _ (List.getElem_mem lt)⟩

theorem Holds.stop_char (h : Holds buf sp w) {c : Char} (there : buf[sp.eq]? = some c) :
    wordChar c = false := by
  obtain ⟨rest, drop, stop⟩ := h.drop
  rw [h.stop, ← List.getElem?_drop, drop, List.getElem?_append_right le_rfl, Nat.sub_self,
    ← List.head?_eq_getElem?] at there
  rwa [there] at stop

theorem Holds.cstr {sps : List Span} (clean : nul ∉ buf) (h : Holds buf sp w) (mem : sp ∈ sps)
    (all : ∀ sp ∈ sps, ∃ w, Holds buf sp w) :
    cstr (sps.foldl (fun mem sp => mem.set sp.eq nul) (buf ++ [nul])) sp = w := by
  generalize image : sps.foldl (fun mem sp => mem.set sp.eq nul) (buf ++ [nul]) = after
  have inside (j : ℕ) (lt : j < w.length) : after[sp.q + j]? = w[j]? := by
    obtain ⟨c, there, here, char⟩ := h.char lt
    rw [← image, set_nuls, if_neg, here, List.getElem?_append_left, there]
    · exact (List.getElem?_eq_some_iff.1 there).1
    rintro ⟨⟨sp', mem', eq⟩, -⟩
    obtain ⟨w', h'⟩ := all sp' mem'
    rw [← eq] at there
    rw [h'.stop_char there] at char
    cases char
  have ended : after[sp.eq]? = some nul := by
    have le := h.le
    rw [← image, set_nuls, if_pos ⟨⟨sp, mem, rfl⟩, by simp; omega⟩]
  have first : (after.drop sp.q).take w.length = w := by
    refine List.ext_getElem? fun j => ?_
    rw [List.getElem?_take, List.getElem?_drop]
    split
    · exact inside j ‹_›
    · exact (List.getElem?_eq_none (by omega)).symm
  have split : after.drop sp.q = w ++ after.drop sp.eq := by
    rw [h.stop, ← List.drop_drop]
    conv_lhs => rw [← List.take_append_drop w.length (after.drop sp.q), first]
  rw [Sh.cstr, split]
  refine takeWhile_blank (List.all_eq_true.2 fun c memC => ?_) ?_
  · obtain ⟨rest, drop, -⟩ := h.drop
    refine decide_eq_true ?_
    rintro rfl
    exact clean (List.mem_of_mem_drop (by rw [drop]; simp [memC]))
  · rw [List.head?_drop, ended]
    rfl

theorem Stands.words (h : Stands buf cmd tree) : ∀ sp ∈ cmd.words, ∃ w, Holds buf sp w := by
  induction h with
  | exec args =>
    intro sp mem
    induction args with
    | nil => cases mem
    | cons word _ ih => exact (List.mem_cons.1 mem).elim (fun eq => ⟨_, eq ▸ word⟩) ih
  | redir r _ word ih =>
    intro sp mem
    rcases List.mem_append.1 mem with mem | mem
    · exact ih sp mem
    · exact ⟨_, List.mem_singleton.1 mem ▸ word⟩
  | pipe _ _ first second | list _ _ first second =>
    exact fun sp mem => (List.mem_append.1 mem).elim (first sp) (second sp)
  | back _ ih => exact ih

theorem Stands.map {f : Span → Word} (h : Stands buf cmd tree)
    (read : ∀ sp ∈ cmd.words, ∀ w, Holds buf sp w → f sp = w) :
    cmd.map f id = tree.map id Redir.how := by
  induction h with
  | @exec argv ws args =>
    have same : argv.map f = ws := by
      induction args with
      | nil => rfl
      | cons word _ ih =>
        rw [List.map_cons, read _ (.head _) _ word, ih fun sp mem => read sp (.tail _ mem)]
    rw [Cmd.map, Cmd.map, same, List.map_id]
  | redir r _ word ih =>
    rw [Cmd.map, Cmd.map, ih fun sp mem => read sp (List.mem_append_left _ mem),
      read _ (by simp [Cmd.words]) _ word]
    rfl
  | pipe _ _ first second | list _ _ first second =>
    rw [Cmd.map, Cmd.map, first fun sp mem => read sp (List.mem_append_left _ mem),
      second fun sp mem => read sp (List.mem_append_right _ mem)]
  | back _ ih => rw [Cmd.map, Cmd.map, ih read]

theorem Stands.read (clean : nul ∉ buf) (h : Stands buf cmd tree) :
    cmd.map (cstr (nulterminate cmd (buf ++ [nul]))) id = tree.map id Redir.how := by
  rw [nulterminate_eq]
  exact h.map fun sp mem w holds => holds.cstr clean mem h.words

/-! ## The whole line -/

variable {fuel : ℕ}

theorem skip_eq_length {ts : List Token} {p : ℕ} (h : At buf ts p) :
    skip buf white p = buf.length ↔ ts = [] := by
  have le := h.skip.le
  constructor
  · intro done
    cases ts with
    | nil => rfl
    | cons t ts =>
      obtain ⟨rest, drop, ends, -⟩ := h.drop_cons
      obtain ⟨c, l, text, -⟩ := Token.text_head ends
      rw [done, List.drop_length, text] at drop
      cases drop
  · rintro rfl
    have := List.drop_eq_nil_iff.1 h.drop_nil
    omega

theorem wp_parseall {Q : Cmd Span How → ℕ → Prop} {E : Stop → ℕ → Prop}
    (h : wp (parseline buf fuel) (fun cmd p => ∃ ts, At buf ts p ∧ (ts = [] → ∀ p', Q cmd p') ∧
      (ts ≠ [] → ∀ p', E (.panic "syntax") p')) E 0) : wp (parseall fuel buf) Q E 0 := by
  rw [parseall]
  apply wp_next h
  rintro cmd p ⟨ts, at_, whole, part⟩
  simp only [peek, wp_bind, wp_get, wp_set, wp_pure]
  rw [wp_ite, ne_eq, skip_eq_length at_]
  exact ⟨fun some => part some _, fun none => whole (not_not.1 none) _⟩

theorem at_start {ts : List Token} {s : List Char} (h : Spells ts s) : At s ts 0 :=
  ⟨Nat.zero_le _, h⟩

/-- What is accepted is of the grammar, and there is no loop. -/
theorem parseall_sound {s : List Char} (clean : nul ∉ s) (enough : 4 * s.length + 4 ≤ fuel) :
    wp (parseall fuel s) (fun _ _ => Grammatical s) (fun e _ => e ≠ .loop) 0 := by
  obtain ⟨ts, spells⟩ := exists_spells s
  have short := spells.length_le
  refine wp_parseall (wp_imp ((sound clean fuel).line (at_start spells) (by omega)) ?_)
  rintro cmd p ⟨pre, rest, tree, rfl, derives, -, at_⟩
  refine ⟨rest, at_, ?_, fun _ _ => nofun⟩
  rintro rfl -
  exact ⟨_, tree, spells, by rwa [List.append_nil]⟩

/-- What is of the grammar is accepted, with its tree. -/
theorem parseall_complete {ts : List Token} {s : List Char} (clean : nul ∉ s)
    (spells : Spells ts s) (derives : Derives .line ts tree) (enough : 4 * s.length + 4 ≤ fuel) :
    wp (parseall fuel s) (fun cmd _ => Stands s cmd tree) never 0 := by
  have short := spells.length_le
  have line := accepts clean derives [] 0 fuel (by rintro t ⟨⟩)
    (by rw [List.append_nil]; exact at_start spells) (show 4 * ts.length + 4 ≤ fuel by omega)
  refine wp_parseall (wp_imp line ?_)
  rintro cmd p ⟨stands, at_⟩
  exact ⟨[], at_, fun _ _ => stands, fun ne => absurd rfl ne⟩

theorem parsecmd_complete {ts : List Token} {s : List Char} (clean : nul ∉ s)
    (spells : Spells ts s) (derives : Derives .line ts tree) (enough : 4 * s.length + 4 ≤ fuel) :
    ∃ cmd mem, parsecmd fuel s = .ok (cmd, mem) ∧
      cmd.map (cstr mem) id = tree.map id Redir.how := by
  obtain ⟨cmd, p, done, stands⟩ := exists_ok_of_wp (parseall_complete clean spells derives enough)
  refine ⟨cmd, _, ?_, stands.read clean⟩
  rw [parsecmd, done]

/-- `parsecmd` ends on every line; it panics exactly if the line is not of the grammar; and a tree
that was written down is returned as it was. -/
theorem parsecmd_spec (s : List Char) (clean : nul ∉ s) (enough : 4 * s.length + 4 ≤ fuel) :
    parsecmd fuel s ≠ .error .loop ∧
      ((∃ r, parsecmd fuel s = .ok r) ↔ Grammatical s) ∧
      ∀ tree : Tree, tree.Short → Spells tree.print s → ∃ cmd mem,
        parsecmd fuel s = .ok (cmd, mem) ∧ cmd.map (cstr mem) id = tree.map id Redir.how := by
  obtain ⟨accepted, failed⟩ := wp_iff_exec.1 (parseall_sound clean enough)
  refine ⟨?_, ⟨?_, ?_⟩, ?_⟩
  · rw [parsecmd]
    cases result : (exec (parseall fuel s) 0).1 with
    | error e =>
      have := failed e result
      simpa using this
    | ok cmd => nofun
  · rintro ⟨r, done⟩
    rw [parsecmd] at done
    cases result : (exec (parseall fuel s) 0).1 with
    | error e => rw [result] at done; cases done
    | ok cmd => exact accepted cmd result
  · rintro ⟨ts, tree, spells, derives⟩
    obtain ⟨cmd, mem, done, -⟩ := parsecmd_complete clean spells derives enough
    exact ⟨_, done⟩
  · intro tree short spells
    exact parsecmd_complete clean spells (derives_print short .line) enough

theorem parsecmd_spec_redir : ∃ cmd mem,
    parsecmd 24 [' ', 'a', '<', 'f'] = .ok (cmd, mem) ∧
      cmd.map (cstr mem) id = (Cmd.redir (.exec [['a']]) ['f'] Redir.input).map id Redir.how := by
  have short : Cmd.Short (.redir (.exec [['a']]) ['f'] Redir.input) := by decide
  have spells : Spells (Cmd.print (.redir (.exec [['a']]) ['f'] Redir.input))
      [' ', 'a', '<', 'f'] :=
    .cons (w := [' ']) (t := .word ['a']) rfl (by decide)
      (.cons (w := []) (t := .redir .input) rfl trivial
        (.cons (w := []) (t := .word ['f']) rfl (by decide) (.nil rfl)))
  exact (parsecmd_spec _ (by decide) (by decide)).2.2 _ short spells

end

end Xv6.Sh
