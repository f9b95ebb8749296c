import Xv6.Sh.Tokens

/-!
# The parser and the grammar

The parser accepts exactly the strings of the grammar and returns the tree they stand for.  One
direction goes along the recursion of the parser (`Reads`), the other along the derivation
(`accepts`).
-/

namespace Xv6.Sh

open Lib

/-- The tree of pointers stands for the tree of words. -/
inductive Stands (buf : List Char) : Cmd Span How → Tree → Prop where
  | exec {argv ws} (args : List.Forall₂ (Holds buf) argv ws) :
      Stands buf (.exec argv) (.exec ws)
  | redir {cmd tree file w} (r : Redir) (inner : Stands buf cmd tree) (word : Holds buf file w) :
      Stands buf (.redir cmd file r.how) (.redir tree w r)
  | pipe {left right left' right'} (first : Stands buf left left')
      (second : Stands buf right right') : Stands buf (.pipe left right) (.pipe left' right')
  | list {left right left' right'} (first : Stands buf left left')
      (second : Stands buf right right') : Stands buf (.list left right) (.list left' right')
  | back {cmd tree} (inner : Stands buf cmd tree) : Stands buf (.back cmd) (.back tree)

section

variable {buf : List Char} {p fuel : ℕ} {ts rest : List Token} {cmd : Cmd Span How} {tree : Tree}
  {rs rs' : List (Redir × Word)} {ws : List Word}

/-! ## Redirections -/

@[simp] theorem redirs_nil : redirs [] = [] := rfl

@[simp] theorem redirs_cons (r : Redir) (w : Word) (rs : List (Redir × Word)) :
    redirs ((r, w) :: rs) = .redir r :: .word w :: redirs rs := rfl

theorem length_redirs : (redirs rs).length = 2 * rs.length := by
  induction rs with
  | nil => rfl
  | cons r rs ih =>
    rw [redirs_cons, List.length_cons, List.length_cons, ih, List.length_cons]
    omega

@[simp] theorem redirs_append : redirs (rs ++ rs') = redirs rs ++ redirs rs' :=
  List.flatMap_append ..

theorem Cmd.wrap_append : tree.wrap (rs ++ rs') = (tree.wrap rs).wrap rs' := List.foldl_append ..

theorem Cmd.wrap_snoc (r : Redir) (w : Word) :
    tree.wrap (rs ++ [(r, w)]) = .redir (tree.wrap rs) w r := Cmd.wrap_append

theorem Stands.addArg {arg : Span} {w : Word} (word : Holds buf arg w)
    (h : Stands buf cmd (Cmd.wrap (.exec ws) rs)) :
    Stands buf (cmd.addArg arg) (Cmd.wrap (.exec (ws ++ [w])) rs) := by
  induction rs using List.reverseRecOn generalizing cmd with
  | nil =>
    cases h with
    | exec args => exact .exec (List.rel_append args (.cons word .nil))
  | append_singleton rs r ih =>
    rw [Cmd.wrap_append] at h ⊢
    cases h with
    | redir r inner file => exact .redir _ (ih inner) file

/-- What `peek(ps, es, "<>")` asks. -/
def Token.redirects : Token → Bool
  | .redir _ => true
  | _ => false

theorem begins_redir (t : Token) : t.begins "<>".toList = t.redirects := by
  cases t with
  | redir r => cases r <;> rfl
  | _ => rfl

theorem redir_of_begins {t : Token} (h : (t :: ts).head?.any (Token.begins "<>".toList) = true) :
    ∃ r, t = .redir r := by
  rw [List.head?_cons, Option.any_some, begins_redir] at h
  cases t with
  | redir r => exact ⟨r, rfl⟩
  | _ => cases h

theorem code_eq_a {t : Token} : t.code = 'a' ↔ ∃ w, t = .word w := by
  constructor
  · intro h
    cases t with
    | word w => exact ⟨w, rfl⟩
    | redir r => cases r <;> exact absurd h (by decide)
    | _ => exact absurd h (by decide)
  · rintro ⟨w, rfl⟩
    rfl

theorem reads_redirs (clean : nul ∉ buf) (h : At buf ts p) (stands : Stands buf cmd tree)
    (enough : ts.length < fuel) :
    wp (parseredirs buf fuel cmd)
      (fun cmd' p' => ∃ rs rest, ts = redirs rs ++ rest ∧ At buf rest p' ∧
        Stands buf cmd' (tree.wrap rs))
      (fun e _ => e ≠ .loop) p := by
  induction fuel generalizing ts p cmd tree with
  | zero => omega
  | succ fuel ih =>
    rw [parseredirs]
    refine wp_peek_ite clean h rfl (fun yes p h => ?_) fun _ p h => ?_
    · cases ts with
      | nil => cases yes
      | cons t ts =>
        obtain ⟨r, rfl⟩ := redir_of_begins yes
        rw [wp_bind]
        refine wp_gettoken clean h fun _ p₁ h₁ _ => ?_
        rw [wp_bind]
        cases ts with
        | nil => exact wp_gettoken_end h₁ fun _ _ _ => nofun
        | cons t' ts =>
          refine wp_gettoken clean h₁ fun file p₂ h₂ word => ?_
          by_cases isWord : ∃ w, t' = .word w
          · obtain ⟨w, rfl⟩ := isWord
            suffices more : wp (parseredirs buf fuel (.redir cmd file r.how))
                (fun cmd' p' => ∃ rs rest, .redir r :: .word w :: ts = redirs rs ++ rest ∧
                  At buf rest p' ∧ Stands buf cmd' (tree.wrap rs)) (fun e _ => e ≠ .loop) p₂ by
              cases r <;> exact more
            simp only [List.length_cons] at enough
            refine wp_imp (ih h₂ (.redir r stands (word w rfl)) (show ts.length < fuel by omega)) ?_
            rintro cmd' p' ⟨rs, rest, rfl, next, stands'⟩
            exact ⟨(r, w) :: rs, rest, rfl, next, stands'⟩
          · rw [← code_eq_a] at isWord
            show wp (if t'.code ≠ 'a' then _ else _) _ _ _
            rw [if_pos isWord]
            exact nofun
    · exact ⟨[], ts, rfl, h, stands⟩

theorem accepts_redirs (clean : nul ∉ buf) (h : At buf (redirs rs ++ rest) p)
    (stands : Stands buf cmd tree) (stop : rest.head?.any Token.redirects = false)
    (enough : rs.length < fuel) :
    wp (parseredirs buf fuel cmd) (fun cmd' p' => At buf rest p' ∧ Stands buf cmd' (tree.wrap rs))
      never p := by
  induction rs generalizing fuel p cmd tree with
  | nil =>
    rcases fuel with _ | fuel
    · simp at enough
    rw [parseredirs]
    refine wp_peek_ite clean h rfl (fun yes _ _ => ?_) fun _ p h => ⟨h, stands⟩
    simp only [redirs_nil, List.nil_append, funext begins_redir, stop] at yes
    cases yes
  | cons r rs ih =>
    obtain ⟨r, w⟩ := r
    rcases fuel with _ | fuel
    · simp at enough
    rw [redirs_cons, List.cons_append, List.cons_append] at h
    rw [parseredirs]
    refine wp_peek_ite clean h rfl (fun _ p h => ?_) fun no _ _ => ?_
    · rw [wp_bind]
      refine wp_gettoken clean h fun _ p h _ => ?_
      rw [wp_bind]
      refine wp_gettoken clean h fun file p h word => ?_
      rw [List.length_cons] at enough
      have more := ih h (.redir r stands (word w rfl)) (show rs.length < fuel by omega)
      cases r <;> exact more
    · rw [List.head?_cons, Option.any_some, begins_redir] at no
      cases no

/-! ## Arguments -/

/-- The tokens of some arguments, each with the redirections behind it. -/
def arguments (args : List (Word × List (Redir × Word))) : List Token :=
  args.flatMap fun a => .word a.1 :: redirs a.2

def Token.closes : Token → Bool
  | .bar => true
  | .rparen => true
  | .amp => true
  | .semi => true
  | _ => false

theorem begins_closes (t : Token) : t.begins "|)&;".toList = t.closes := by
  cases t with
  | redir r => cases r <;> rfl
  | _ => rfl

theorem code_ne_nul (t : Token) : t.code ≠ nul := by
  cases t with
  | word w => exact (by decide : 'a' ≠ nul)
  | redir r => cases r <;> decide
  | _ => decide

variable {args : List (Word × List (Redir × Word))}

theorem reads_args (clean : nul ∉ buf) (h : At buf ts p)
    (stands : Stands buf cmd (Cmd.wrap (.exec ws) rs)) (few : ws.length < MAXARGS)
    (enough : ts.length < fuel) :
    wp (parseargs buf fuel ws.length cmd)
      (fun cmd' p' => ∃ args rest, ts = arguments args ++ rest ∧ At buf rest p' ∧
        ws.length + args.length < MAXARGS ∧
        Stands buf cmd' (Cmd.wrap (.exec (ws ++ args.map Prod.fst))
          (rs ++ args.flatMap Prod.snd)))
      (fun e _ => e ≠ .loop) p := by
  induction fuel generalizing ts p cmd ws rs with
  | zero => omega
  | succ fuel ih =>
    have done {p : ℕ} (h : At buf ts p) : ∃ args rest, ts = arguments args ++ rest ∧
        At buf rest p ∧ ws.length + args.length < MAXARGS ∧ Stands buf cmd
          (Cmd.wrap (.exec (ws ++ args.map Prod.fst)) (rs ++ args.flatMap Prod.snd)) :=
      ⟨[], ts, rfl, h, few, by simpa using stands⟩
    rw [parseargs]
    refine wp_peek_ite clean h rfl (fun _ p h => done h) fun _ p h => ?_
    rw [wp_bind]
    cases ts with
    | nil => exact wp_gettoken_end h fun _ _ h => done h
    | cons t ts =>
      refine wp_gettoken clean h fun arg p₁ h₁ word => ?_
      show wp (if t.code = nul then _ else if t.code ≠ 'a' then _ else _) _ _ _
      rw [if_neg (code_ne_nul t)]
      by_cases isWord : ∃ w, t = .word w
      · obtain ⟨w, rfl⟩ := isWord
        rw [if_neg (by simp [Token.code])]
        by_cases many : ws.length + 1 ≥ MAXARGS
        · rw [if_pos many]
          exact nofun
        rw [if_neg many, wp_bind]
        simp only [List.length_cons] at enough
        refine wp_imp (reads_redirs clean h₁ (stands.addArg (word w rfl))
          (show ts.length < fuel by omega)) ?_
        rintro cmd₂ p₂ ⟨rs', rest, rfl, h₂, stands₂⟩
        rw [← Cmd.wrap_append] at stands₂
        rw [List.length_append] at enough
        have more := ih h₂ stands₂ (by simpa using many) (show rest.length < fuel by omega)
        rw [List.length_append, List.length_singleton] at more
        apply wp_imp more
        rintro cmd₃ p₃ ⟨args, rest', rfl, h₃, few', stands₃⟩
        refine ⟨(w, rs') :: args, rest', by simp [arguments], h₃, ?_, ?_⟩
        · rw [List.length_cons]
          omega
        · simpa using stands₃
      · rw [← code_eq_a] at isWord
        rw [if_pos isWord]
        exact nofun

theorem closes_of_head {t : Token} (h : (t :: ts).head?.any (Token.begins "|)&;".toList) = true) :
    t.closes = true := by
  rwa [List.head?_cons, Option.any_some, begins_closes] at h

/-- The rest of the line is not a part of the simple command. -/
def Closed (rest : List Token) : Prop := ∀ t ∈ rest.head?, t.closes = true

theorem Closed.not_redirects (h : Closed rest) : rest.head?.any Token.redirects = false := by
  cases rest with
  | nil => rfl
  | cons t rest =>
    have := h t rfl
    cases t with
    | redir r => cases this
    | _ => rfl

theorem accepts_args (clean : nul ∉ buf) (h : At buf (arguments args ++ rest) p)
    (stands : Stands buf cmd (Cmd.wrap (.exec ws) rs)) (few : ws.length + args.length < MAXARGS)
    (closed : Closed rest) (enough : (arguments args).length < fuel) :
    wp (parseargs buf fuel ws.length cmd)
      (fun cmd' p' => At buf rest p' ∧
        Stands buf cmd' (Cmd.wrap (.exec (ws ++ args.map Prod.fst))
          (rs ++ args.flatMap Prod.snd))) never p := by
  induction args generalizing fuel p cmd ws rs with
  | nil =>
    rcases fuel with _ | fuel
    · omega
    simp only [List.map_nil, List.append_nil, List.flatMap_nil]
    rw [parseargs]
    refine wp_peek_ite clean h rfl (fun _ p h => ⟨h, stands⟩) fun no p h => ?_
    rw [wp_bind]
    cases rest with
    | nil => exact wp_gettoken_end h fun _ _ h => ⟨h, stands⟩
    | cons t rest =>
      rw [show arguments [] ++ t :: rest = t :: rest from rfl, List.head?_cons, Option.any_some,
        begins_closes, closed t rfl] at no
      cases no
  | cons a args ih =>
    obtain ⟨w, rs'⟩ := a
    have split : arguments ((w, rs') :: args) = .word w :: (redirs rs' ++ arguments args) := by
      simp [arguments]
    rw [split, List.cons_append, List.append_assoc] at h
    rw [split, List.length_cons, List.length_append] at enough
    rw [List.length_cons] at few
    rcases fuel with _ | fuel
    · omega
    rw [parseargs]
    refine wp_peek_ite clean h rfl (fun yes _ _ => ?_) fun no p h => ?_
    · cases closes_of_head yes
    rw [wp_bind]
    refine wp_gettoken clean h fun arg p₁ h₁ word => ?_
    show wp (if 'a' = nul then _ else if 'a' ≠ 'a' then _ else _) _ _ _
    rw [if_neg (by decide), if_neg (by decide), if_neg (by omega), wp_bind]
    have stop : (arguments args ++ rest).head?.any Token.redirects = false := by
      cases args with
      | nil => exact closed.not_redirects
      | cons a args => rfl
    rw [length_redirs] at enough
    refine wp_imp (accepts_redirs clean h₁ (stands.addArg (word w rfl)) stop
      (show rs'.length < fuel by omega)) ?_
    rintro cmd₂ p₂ ⟨h₂, stands₂⟩
    rw [← Cmd.wrap_append] at stands₂
    have more := ih h₂ stands₂ (by simpa [Nat.add_assoc, Nat.add_comm 1] using few)
      (show (arguments args).length < fuel by omega)
    rw [List.length_append, List.length_singleton] at more
    apply wp_imp more
    rintro cmd₃ p₃ ⟨h₃, stands₃⟩
    exact ⟨h₃, by simpa using stands₃⟩

/-! ## Background commands -/

theorem backs_succ (n : ℕ) : tree.backs (n + 1) = .back (tree.backs n) := by
  induction n generalizing tree with
  | zero => rfl
  | succ n ih => exact ih

def Token.single : Token → Bool
  | .word _ => false
  | .redir _ => false
  | _ => true

theorem begins_single {u : Token} (single : u.single = true) (t : Token) :
    t.begins u.text = decide (t = u) := by
  cases u with
  | word w | redir r => cases single
  | _ =>
    cases t with
    | redir r => cases r <;> rfl
    | _ => rfl

section

variable {α : Type} {Q : α → ℕ → Prop} {E : Stop → ℕ → Prop} {m₁ m₂ : P α}

variable (u : Token) (single : u.single = true)
include u single

theorem eq_of_begins {t : Token} (yes : (t :: ts).head?.any (Token.begins u.text) = true) : t = u := by
  rw [List.head?_cons, Option.any_some, begins_single single] at yes
  exact of_decide_eq_true yes

theorem wp_take (clean : nul ∉ buf) (h : At buf ts p)
    (yes : ∀ ts', ts = u :: ts' → ∀ p', At buf ts' p' → wp m₁ Q E p')
    (no : (∀ t ∈ ts.head?, t ≠ u) → ∀ p', At buf ts p' → wp m₂ Q E p') :
    wp (do if ← peek buf u.text then do let _ ← gettoken buf; m₁ else m₂) Q E p := by
  refine wp_peek_ite clean h ?_ (fun found p' h' => ?_) fun other p' h' => no (fun t mem => ?_) p' h'
  · cases u <;> first | rfl | cases single
  · cases ts with
    | nil => cases found
    | cons t ts =>
      obtain rfl := eq_of_begins u single found
      rw [wp_bind]
      exact wp_gettoken clean h' fun _ p'' h'' _ => yes ts rfl p'' h''
  cases ts with
  | nil => cases mem
  | cons t' ts =>
    cases mem
    rw [List.head?_cons, Option.any_some, begins_single single] at other
    exact of_decide_eq_false other

theorem wp_take_cons (clean : nul ∉ buf)
    (h : At buf (u :: ts) p) (yes : ∀ p', At buf ts p' → wp m₁ Q E p') :
    wp (do if ← peek buf u.text then do let _ ← gettoken buf; m₁ else m₂) Q E p := by
  refine wp_take u single clean h (fun ts' eq => ?_) fun no => absurd rfl (no u rfl)
  cases eq
  exact yes

theorem wp_take_other (clean : nul ∉ buf) (h : At buf ts p)
    (other : ∀ t ∈ ts.head?, t ≠ u) (no : ∀ p', At buf ts p' → wp m₂ Q E p') :
    wp (do if ← peek buf u.text then do let _ ← gettoken buf; m₁ else m₂) Q E p := by
  refine wp_take u single clean h (fun ts' eq => ?_) fun _ => no
  subst eq
  exact absurd rfl (other u rfl)

end

theorem reads_backs (clean : nul ∉ buf) (h : At buf ts p) (stands : Stands buf cmd tree)
    (enough : ts.length < fuel) :
    wp (parsebacks buf fuel cmd)
      (fun cmd' p' => ∃ n rest, ts = List.replicate n .amp ++ rest ∧ At buf rest p' ∧
        Stands buf cmd' (tree.backs n))
      (fun e _ => e ≠ .loop) p := by
  induction fuel generalizing ts p cmd tree with
  | zero => omega
  | succ fuel ih =>
    rw [parsebacks]
    refine wp_take .amp rfl clean h ?_ fun _ p h => ⟨0, ts, rfl, h, stands⟩
    rintro ts rfl p₁ h₁
    rw [List.length_cons] at enough
    refine wp_imp (ih h₁ (.back stands) (show ts.length < fuel by omega)) ?_
    rintro cmd' p' ⟨n, rest, rfl, next, stands'⟩
    exact ⟨n + 1, rest, rfl, next, stands'⟩

theorem accepts_backs {n : ℕ} (clean : nul ∉ buf) (h : At buf (List.replicate n .amp ++ rest) p)
    (stands : Stands buf cmd tree) (stop : ∀ t ∈ rest.head?, t ≠ .amp) (enough : n < fuel) :
    wp (parsebacks buf fuel cmd)
      (fun cmd' p' => At buf rest p' ∧ Stands buf cmd' (tree.backs n)) never p := by
  induction n generalizing fuel p cmd tree with
  | zero =>
    rcases fuel with _ | fuel
    · omega
    rw [parsebacks]
    exact wp_take_other .amp rfl clean h stop fun p h => ⟨h, stands⟩
  | succ n ih =>
    rcases fuel with _ | fuel
    · omega
    rw [parsebacks]
    exact wp_take_cons .amp rfl clean h fun p₁ h₁ => ih h₁ (.back stands) (by omega)

/-! ## What the parser reads is of the grammar -/

/-- A first part of the tokens was read, and stands for the tree. -/
def Reads (buf : List Char) (k : Kind) (ts : List Token) (cmd : Cmd Span How) (p : ℕ) : Prop :=
  ∃ pre rest tree, ts = pre ++ rest ∧ Derives k pre tree ∧ Stands buf cmd tree ∧ At buf rest p

/-- The functions read what they should, or panic, if there is enough fuel. -/
structure Sound (buf : List Char) (fuel : ℕ) : Prop where
  line : ∀ {ts p}, At buf ts p → 4 * ts.length + 4 ≤ fuel →
    wp (parseline buf fuel) (Reads buf .line ts) (fun e _ => e ≠ .loop) p
  pipe : ∀ {ts p}, At buf ts p → 4 * ts.length + 3 ≤ fuel →
    wp (parsepipe buf fuel) (Reads buf .pipe ts) (fun e _ => e ≠ .loop) p
  exec : ∀ {ts p}, At buf ts p → 4 * ts.length + 2 ≤ fuel →
    wp (parseexec buf fuel) (Reads buf .simple ts) (fun e _ => e ≠ .loop) p
  block : ∀ {ts p}, At buf ts p → 4 * ts.length + 1 ≤ fuel →
    wp (parseblock buf fuel) (Reads buf .simple ts) (fun e _ => e ≠ .loop) p

section

variable (clean : nul ∉ buf) (h : Sound buf fuel) (at_ : At buf ts p)
include clean h at_

theorem Sound.line_succ (enough : 4 * ts.length + 4 ≤ fuel + 1) :
    wp (parseline buf (fuel + 1)) (Reads buf .line ts) (fun e _ => e ≠ .loop) p := by
  rw [parseline]
  refine wp_next (h.pipe at_ (by omega)) ?_
  rintro cmd p₁ ⟨pre, ts₁, tree, rfl, derives, stands, at₁⟩
  rw [List.length_append] at enough
  refine wp_next (reads_backs clean at₁ stands (show ts₁.length < fuel by omega)) ?_
  rintro cmd₂ p₂ ⟨n, ts₂, rfl, at₂, stands₂⟩
  refine wp_take .semi rfl clean at₂ ?_ fun _ p₃ at₃ => ?_
  · rintro ts₃ rfl p₃ at₃
    simp only [List.length_append, List.length_cons] at enough
    refine wp_next (h.line at₃ (by omega)) ?_
    rintro right p₄ ⟨pre', rest, tree', rfl, derives', stands', at₄⟩
    exact ⟨_, rest, _, by simp, .list n derives derives', .list stands₂ stands', at₄⟩
  · exact ⟨_, ts₂, _, by simp, .line n derives, stands₂, at₃⟩

theorem Sound.pipe_succ (enough : 4 * ts.length + 3 ≤ fuel + 1) :
    wp (parsepipe buf (fuel + 1)) (Reads buf .pipe ts) (fun e _ => e ≠ .loop) p := by
  rw [parsepipe]
  refine wp_next (h.exec at_ (by omega)) ?_
  rintro cmd p₁ ⟨pre, ts₁, tree, rfl, derives, stands, at₁⟩
  rw [List.length_append] at enough
  refine wp_take .bar rfl clean at₁ ?_ fun _ p₂ at₂ => ?_
  · rintro ts₂ rfl p₂ at₂
    simp only [List.length_cons] at enough
    refine wp_next (h.pipe at₂ (by omega)) ?_
    rintro right p₃ ⟨pre', rest, tree', rfl, derives', stands', at₃⟩
    exact ⟨_, rest, _, by simp, .pipe derives derives', .pipe stands stands', at₃⟩
  · exact ⟨_, ts₁, _, by simp, .one derives, stands, at₂⟩

theorem Sound.exec_succ (enough : 4 * ts.length + 2 ≤ fuel + 1) :
    wp (parseexec buf (fuel + 1)) (Reads buf .simple ts) (fun e _ => e ≠ .loop) p := by
  rw [parseexec]
  refine wp_peek_ite clean at_ rfl (fun _ p₁ at₁ => h.block at₁ (by omega)) fun _ p₁ at₁ => ?_
  refine wp_next (reads_redirs clean at₁ (.exec .nil) (show ts.length < fuel by omega)) ?_
  rintro cmd p₂ ⟨rs, ts₂, rfl, at₂, stands⟩
  rw [List.length_append] at enough
  have more := reads_args clean at₂ stands (by decide) (show ts₂.length < fuel by omega)
  apply wp_imp more
  rintro cmd' p₃ ⟨args, rest, rfl, at₃, few, stands'⟩
  exact ⟨_, rest, _, by simp [arguments], .words rs args (by simpa using few), stands', at₃⟩

theorem Sound.block_succ (enough : 4 * ts.length + 1 ≤ fuel + 1) :
    wp (parseblock buf (fuel + 1)) (Reads buf .simple ts) (fun e _ => e ≠ .loop) p := by
  rw [parseblock]
  refine wp_take .lparen rfl clean at_ ?_ fun _ _ _ => nofun
  rintro ts rfl p₁ at₁
  simp only [List.length_cons] at enough
  refine wp_next (h.line at₁ (by omega)) ?_
  rintro cmd p₂ ⟨pre, ts₂, tree, rfl, derives, stands, at₂⟩
  refine wp_take .rparen rfl clean at₂ ?_ fun _ _ _ => nofun
  rintro ts₃ rfl p₃ at₃
  simp only [List.length_append, List.length_cons] at enough
  refine wp_imp (reads_redirs clean at₃ stands (show ts₃.length < fuel by omega)) ?_
  rintro cmd' p₄ ⟨rs, rest, rfl, at₄, stands'⟩
  exact ⟨_, rest, _, by simp, .block derives rs, stands', at₄⟩

end

theorem sound (clean : nul ∉ buf) : ∀ fuel, Sound buf fuel := by
  intro fuel
  induction fuel with
  | zero => exact ⟨by omega, by omega, by omega, by omega⟩
  | succ fuel ih => exact ⟨ih.line_succ clean, ih.pipe_succ clean, ih.exec_succ clean,
      ih.block_succ clean⟩

/-! ## What is of the grammar is read -/

/-- The function for a kind of phrase. -/
def parse (buf : List Char) : Kind → ℕ → P (Cmd Span How)
  | .line => parseline buf
  | .pipe => parsepipe buf
  | .simple => parseexec buf

/-- What may come after a phrase. -/
def Follow : Kind → List Token → Prop
  | .line, rest => ∀ t ∈ rest.head?, t = .rparen
  | .pipe, rest => ∀ t ∈ rest.head?, t.closes = true ∧ t ≠ .bar
  | .simple, rest => Closed rest

/-- Enough fuel for a phrase of `n` tokens. -/
def need : Kind → ℕ → ℕ
  | .line, n => 4 * n + 4
  | .pipe, n => 4 * n + 3
  | .simple, n => 4 * n + 2

theorem Follow.pipe_of_amps {n : ℕ} (h : Follow .pipe rest) :
    Follow .pipe (List.replicate n .amp ++ rest) := by
  cases n with
  | zero => exact h
  | succ n =>
    rintro t ⟨⟩
    decide

theorem no_begins {u : Token} (single : u.single = true) (h : ∀ t ∈ rest.head?, t ≠ u) :
    rest.head?.any (Token.begins u.text) = false := by
  cases rest with
  | nil => rfl
  | cons t rest =>
    rw [List.head?_cons, Option.any_some, begins_single single]
    exact decide_eq_false (h t rfl)

/-- The function for a phrase reads it and gives its tree. -/
def Accepts (buf : List Char) (k : Kind) (ts : List Token) (tree : Tree) : Prop :=
  ∀ (rest : List Token) (p fuel : ℕ), Follow k rest → At buf (ts ++ rest) p →
    need k ts.length ≤ fuel →
    wp (parse buf k fuel) (fun cmd p' => Stands buf cmd tree ∧ At buf rest p')
      (fun _ _ => False) p

variable (clean : nul ∉ buf)
include clean

theorem accepts_block (line : Accepts buf .line ts tree) (follow : Follow .simple rest)
    (at_ : At buf (.lparen :: (ts ++ .rparen :: redirs rs) ++ rest) p)
    (enough : 4 * (ts.length + 2 * rs.length) + 8 ≤ fuel) :
    wp (parseblock buf fuel)
      (fun cmd p' => Stands buf cmd (tree.wrap rs) ∧ At buf rest p') never p := by
  rcases fuel with _ | fuel
  · omega
  simp only [List.cons_append, List.append_assoc] at at_
  rw [parseblock]
  refine wp_take_cons .lparen rfl clean at_ fun p₁ at₁ => ?_
  have first := line (.rparen :: (redirs rs ++ rest)) p₁ fuel (by rintro t ⟨⟩; rfl) at₁
    (by simp only [need]; omega)
  apply wp_next first
  rintro cmd p₂ ⟨stands, at₂⟩
  refine wp_take_cons .rparen rfl clean at₂ fun p₃ at₃ => ?_
  refine wp_imp (accepts_redirs clean at₃ stands follow.not_redirects (by omega)) ?_
  exact fun cmd' p' h => ⟨h.2, h.1⟩

theorem accepts_simple (few : args.length < MAXARGS) :
    Accepts buf .simple (redirs rs ++ arguments args)
      (Cmd.wrap (.exec (args.map Prod.fst)) (rs ++ args.flatMap Prod.snd)) := by
  intro rest p fuel follow at_ enough
  simp only [need, List.length_append, length_redirs] at enough
  rcases fuel with _ | fuel
  · omega
  rw [List.append_assoc] at at_
  show wp (parseexec buf (fuel + 1)) _ _ p
  rw [parseexec]
  have bare : ∀ t ∈ (redirs rs ++ (arguments args ++ rest)).head?, t ≠ .lparen := by
    intro t mem
    cases rs with
    | cons r rs => cases mem; nofun
    | nil =>
      cases args with
      | cons a args => cases mem; nofun
      | nil =>
        have := follow t mem
        rintro rfl
        cases this
  refine wp_peek_ite clean at_ rfl (fun yes _ _ => ?_) fun _ p₁ at₁ => ?_
  · rw [show "(".toList = Token.lparen.text from rfl, no_begins rfl bare] at yes
    cases yes
  rw [wp_bind]
  have stop : (arguments args ++ rest).head?.any Token.redirects = false := by
    cases args with
    | nil => exact follow.not_redirects
    | cons a args => rfl
  refine wp_imp (accepts_redirs clean at₁ (.exec .nil) stop (by omega)) ?_
  rintro cmd p₂ ⟨at₂, stands⟩
  have more := accepts_args clean at₂ stands (by simpa using few) follow
    (show (arguments args).length < fuel by omega)
  exact wp_imp more fun _ _ h => ⟨h.2, h.1⟩

theorem accepts_pipe {ts' : List Token} {right : Tree}
    (simple : Accepts buf .simple ts tree) (pipe : Accepts buf .pipe ts' right) :
    Accepts buf .pipe (ts ++ .bar :: ts') (.pipe tree right) := by
  intro rest p fuel follow at_ enough
  simp only [need, List.length_append, List.length_cons] at enough
  rcases fuel with _ | fuel
  · omega
  rw [List.append_assoc, List.cons_append] at at_
  show wp (parsepipe buf (fuel + 1)) _ _ p
  rw [parsepipe, wp_bind]
  have first := simple (.bar :: (ts' ++ rest)) p fuel (by rintro t ⟨⟩; rfl) at_
    (by simp only [need]; omega)
  apply wp_imp first
  rintro cmd p₁ ⟨stands, at₁⟩
  refine wp_take_cons .bar rfl clean at₁ fun p₂ at₂ => ?_
  refine wp_next (pipe rest p₂ fuel follow at₂ (by simp only [need]; omega)) ?_
  exact fun right' p₃ h => ⟨.pipe stands h.1, h.2⟩

theorem accepts_one (simple : Accepts buf .simple ts tree) : Accepts buf .pipe ts tree := by
  intro rest p fuel follow at_ enough
  simp only [need] at enough
  rcases fuel with _ | fuel
  · omega
  show wp (parsepipe buf (fuel + 1)) _ _ p
  rw [parsepipe, wp_bind]
  have first := simple rest p fuel (fun t mem => (follow t mem).1) at_ (by simp only [need]; omega)
  apply wp_imp first
  rintro cmd p₁ ⟨stands, at₁⟩
  exact wp_take_other .bar rfl clean at₁ (fun t mem => (follow t mem).2) fun p₂ at₂ =>
    ⟨stands, at₂⟩

theorem accepts_backed {n : ℕ} (pipe : Accepts buf .pipe ts tree)
    (follow : ∀ t ∈ rest.head?, t = .rparen ∨ t = .semi)
    (at_ : At buf (ts ++ (List.replicate n .amp ++ rest)) p)
    (enough : 4 * (ts.length + n) + 3 ≤ fuel) :
    wp (do
        let cmd ← parsepipe buf fuel
        parsebacks buf fuel cmd)
      (fun cmd p' => Stands buf cmd (tree.backs n) ∧ At buf rest p') never p := by
  have closed : Follow .pipe rest := by
    intro t mem
    rcases follow t mem with rfl | rfl <;> decide
  have open_ : ∀ t ∈ rest.head?, t ≠ .amp := by
    intro t mem
    rcases follow t mem with rfl | rfl <;> decide
  rw [wp_bind]
  have first := pipe _ p fuel (Follow.pipe_of_amps closed) at_ (by simp only [need]; omega)
  apply wp_imp first
  rintro cmd p₁ ⟨stands, at₁⟩
  refine wp_imp (accepts_backs clean at₁ stands open_ (by omega)) ?_
  exact fun cmd' p' h => ⟨h.2, h.1⟩

theorem accepts_line {n : ℕ} (pipe : Accepts buf .pipe ts tree) :
    Accepts buf .line (ts ++ List.replicate n .amp) (tree.backs n) := by
  intro rest p fuel follow at_ enough
  simp only [need, List.length_append, List.length_replicate] at enough
  rcases fuel with _ | fuel
  · omega
  rw [List.append_assoc] at at_
  show wp (parseline buf (fuel + 1)) _ _ p
  have first := accepts_backed clean pipe (fun t mem => .inl (follow t mem)) at_
    (show 4 * (ts.length + n) + 3 ≤ fuel by omega)
  rw [wp_bind] at first
  rw [parseline]
  refine wp_next first fun cmd p₁ first => ?_
  apply wp_next first
  rintro cmd' p₂ ⟨stands, at₂⟩
  exact wp_take_other .semi rfl clean at₂ (fun t mem => by rw [follow t mem]; decide)
    fun p₃ at₃ => ⟨stands, at₃⟩

theorem accepts_list {n : ℕ} {ts' : List Token} {right : Tree}
    (pipe : Accepts buf .pipe ts tree) (line : Accepts buf .line ts' right) :
    Accepts buf .line (ts ++ (List.replicate n .amp ++ .semi :: ts'))
      (.list (tree.backs n) right) := by
  intro rest p fuel follow at_ enough
  simp only [need, List.length_append, List.length_replicate, List.length_cons] at enough
  rcases fuel with _ | fuel
  · omega
  simp only [List.append_assoc, List.cons_append] at at_
  show wp (parseline buf (fuel + 1)) _ _ p
  have first := accepts_backed clean pipe (by rintro t ⟨⟩; exact .inr rfl) at_
    (show 4 * (ts.length + n) + 3 ≤ fuel by omega)
  rw [wp_bind] at first
  rw [parseline]
  refine wp_next first fun cmd p₁ first => ?_
  apply wp_next first
  rintro cmd' p₂ ⟨stands, at₂⟩
  refine wp_take_cons .semi rfl clean at₂ fun p₃ at₃ => ?_
  refine wp_next (line rest p₃ fuel follow at₃ (by simp only [need]; omega)) ?_
  exact fun right' p₄ h => ⟨.list stands h.1, h.2⟩

theorem accepts {k : Kind} (h : Derives k ts tree) : Accepts buf k ts tree := by
  induction h with
  | line n _ pipe => exact accepts_line clean pipe
  | list n _ _ pipe line => exact accepts_list clean pipe line
  | one _ simple => exact accepts_one clean simple
  | pipe _ _ simple pipe => exact accepts_pipe clean simple pipe
  | block _ rs line =>
    intro rest p fuel follow at_ enough
    simp only [need, List.length_cons, List.length_append, length_redirs] at enough
    rcases fuel with _ | fuel
    · omega
    show wp (parseexec buf (fuel + 1)) _ _ p
    rw [parseexec]
    refine wp_peek_ite clean at_ rfl (fun _ p₁ at₁ => ?_) fun no _ _ => by cases no
    exact accepts_block clean line follow at₁ (by omega)
  | words rs args few => exact accepts_simple clean few

end

end Xv6.Sh
