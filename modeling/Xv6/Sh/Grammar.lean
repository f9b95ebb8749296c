import Xv6.Sh.Parser

/-!
# The shell's grammar

Strings as sequences of tokens (`Spells`), the trees that a sequence of tokens stands for
(`Derives`), and the way to write a tree (`Cmd.print`), with parentheses where they are needed.
-/

namespace Xv6.Sh

/-- The symbols that redirect. -/
inductive Redir where
  | input
  | output
  | append
  deriving DecidableEq

def Redir.how : Redir → How
  | input => ⟨O_RDONLY, 0⟩
  | output => ⟨O_WRONLY ||| O_CREATE, 1⟩
  | append => ⟨O_WRONLY ||| O_CREATE, 1⟩

inductive Token where
  | word (w : List Char)
  | redir (r : Redir)
  | bar
  | amp
  | semi
  | lparen
  | rparen
  deriving DecidableEq

abbrev Word := List Char

/-- A tree as it is written. -/
abbrev Tree := Cmd Word Redir

/-! ## Strings -/

namespace Token

def text : Token → List Char
  | word w => w
  | redir .input => ['<']
  | redir .output => ['>']
  | redir .append => ['>', '>']
  | bar => ['|']
  | amp => ['&']
  | semi => [';']
  | lparen => ['(']
  | rparen => [')']

/-- The token ends where `rest` begins: a word and `>` reach as far as they can. -/
def Ends (rest : List Char) : Token → Prop
  | word w => w ≠ [] ∧ w.all wordChar = true ∧ rest.head?.any wordChar = false
  | redir .output => rest.head? ≠ some '>'
  | _ => True

instance (rest : List Char) : (t : Token) → Decidable (t.Ends rest)
  | word w => inferInstanceAs (Decidable (w ≠ [] ∧ w.all wordChar = true ∧ _ = false))
  | redir .output => inferInstanceAs (Decidable (rest.head? ≠ some '>'))
  | redir .input | redir .append | bar | amp | semi | lparen | rparen =>
      inferInstanceAs (Decidable True)

end Token

/-- The string consists of the tokens, with any white space around them. -/
inductive Spells : List Token → List Char → Prop where
  | nil {w : List Char} (blank : w.all white = true) : Spells [] w
  | cons {w rest : List Char} {t : Token} {ts : List Token} (blank : w.all white = true)
      (ends : t.Ends rest) (more : Spells ts rest) : Spells (t :: ts) (w ++ (t.text ++ rest))

/-! ## Trees -/

def redirs (rs : List (Redir × Word)) : List Token :=
  rs.flatMap fun r => [.redir r.1, .word r.2]

def Cmd.wrap (cmd : Tree) (rs : List (Redir × Word)) : Tree :=
  rs.foldl (fun cmd r => .redir cmd r.2 r.1) cmd

def Cmd.backs (cmd : Tree) : ℕ → Tree
  | 0 => cmd
  | n + 1 => (Cmd.back cmd).backs n

inductive Kind where
  | line
  | pipe
  | simple

/-- `line ::= pipe '&'* [';' line]`, `pipe ::= simple ['|' pipe]`,
`simple ::= '(' line ')' redir* | redir* (word redir*)*` with fewer than `MAXARGS` words. -/
inductive Derives : Kind → List Token → Tree → Prop where
  | line {ts : List Token} {cmd : Tree} (n : ℕ) (pipe : Derives .pipe ts cmd) :
      Derives .line (ts ++ List.replicate n .amp) (cmd.backs n)
  | list {ts ts' : List Token} {left right : Tree} (n : ℕ) (pipe : Derives .pipe ts left)
      (line : Derives .line ts' right) :
      Derives .line (ts ++ (List.replicate n .amp ++ .semi :: ts')) (.list (left.backs n) right)
  | one {ts : List Token} {cmd : Tree} (simple : Derives .simple ts cmd) : Derives .pipe ts cmd
  | pipe {ts ts' : List Token} {left right : Tree} (simple : Derives .simple ts left)
      (pipe : Derives .pipe ts' right) : Derives .pipe (ts ++ .bar :: ts') (.pipe left right)
  | block {ts : List Token} {cmd : Tree} (line : Derives .line ts cmd)
      (rs : List (Redir × Word)) :
      Derives .simple (.lparen :: (ts ++ .rparen :: redirs rs)) (cmd.wrap rs)
  | words (rs : List (Redir × Word)) (args : List (Word × List (Redir × Word)))
      (few : args.length < MAXARGS) :
      Derives .simple (redirs rs ++ args.flatMap fun a => .word a.1 :: redirs a.2)
        (Cmd.wrap (.exec (args.map Prod.fst)) (rs ++ args.flatMap Prod.snd))

/-- The string is one of the grammar. -/
def Grammatical (s : List Char) : Prop := ∃ ts cmd, Spells ts s ∧ Derives .line ts cmd

/-! ## Writing a tree -/

/-- The places where a tree can be written; `left` is before a `;` or an `&`. -/
inductive Place where
  | line
  | left
  | pipe
  | simple

/-- Whether the tree needs no parentheses there. -/
def Cmd.fits : Tree → Place → Bool
  | .list .., k => match k with | .line => true | _ => false
  | .back .., k => match k with | .line | .left => true | _ => false
  | .pipe .., k => match k with | .simple => false | _ => true
  | .redir .., _ => true
  | .exec .., _ => true

def Cmd.printAt : Tree → Place → List Token
  | cmd, k =>
    let text := match cmd with
      | .exec argv => argv.map .word
      | .redir cmd file r => cmd.printAt .simple ++ [.redir r, .word file]
      | .pipe left right => left.printAt .simple ++ .bar :: right.printAt .pipe
      | .list left right => left.printAt .left ++ .semi :: right.printAt .line
      | .back cmd => cmd.printAt .left ++ [.amp]
    if cmd.fits k then text else .lparen :: (text ++ [.rparen])

def Cmd.print (cmd : Tree) : List Token := cmd.printAt .line

/-- No command of the tree has too many words. -/
def Cmd.Short : Tree → Prop
  | .exec argv => argv.length < MAXARGS
  | .redir cmd _ _ => cmd.Short
  | .pipe left right => left.Short ∧ right.Short
  | .list left right => left.Short ∧ right.Short
  | .back cmd => cmd.Short

instance Cmd.decidableShort : (tree : Tree) → Decidable tree.Short
  | .exec argv => inferInstanceAs (Decidable (argv.length < MAXARGS))
  | .redir cmd _ _ => cmd.decidableShort
  | .pipe left right => @instDecidableAnd _ _ left.decidableShort right.decidableShort
  | .list left right => @instDecidableAnd _ _ left.decidableShort right.decidableShort
  | .back cmd => cmd.decidableShort

end Xv6.Sh
