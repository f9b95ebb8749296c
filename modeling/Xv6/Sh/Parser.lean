import Xv6.Lib.Hoare

/-!
# The shell's parser

The recursive-descent parser of `sh.c`.  The line is a buffer `buf` of characters, none of them NUL,
and one NUL past its end `es`; a `char*` into it is its index.  The pointer `*ps` is the state.  A
tree holds the pointers to a word's first character and past its last one, where `nulterminate`
writes a NUL in the end.

A loop or a recursion that goes on after `fuel` turns is reported as `Stop.loop`.
-/

namespace Xv6.Sh

open Lib

abbrev MAXARGS : ℕ := 10

abbrev O_RDONLY : ℕ := 0x000
abbrev O_WRONLY : ℕ := 0x001
abbrev O_CREATE : ℕ := 0x200

def whitespace : List Char := " \t\r\n\x0b".toList

def symbols : List Char := "<|>&;()".toList

abbrev nul : Char := Char.ofNat 0

/-! ## Command trees -/

/-- `struct cmd`, over the words `W` and the kinds of redirection `R`. -/
inductive Cmd (W R : Type) where
  | exec (argv : List W)
  | redir (cmd : Cmd W R) (file : W) (how : R)
  | pipe (left right : Cmd W R)
  | list (left right : Cmd W R)
  | back (cmd : Cmd W R)
  deriving DecidableEq

namespace Cmd

variable {W W' R R' : Type}

/-- Store a further argument; the `struct execcmd` is below the redirections around it. -/
def addArg (w : W) : Cmd W R → Cmd W R
  | exec argv => exec (argv ++ [w])
  | redir cmd file how => redir (cmd.addArg w) file how
  | cmd => cmd

/-- The tree with other words and redirections. -/
def map (f : W → W') (g : R → R') : Cmd W R → Cmd W' R'
  | exec argv => exec (argv.map f)
  | redir cmd file how => redir (cmd.map f g) (f file) (g how)
  | pipe left right => pipe (left.map f g) (right.map f g)
  | list left right => list (left.map f g) (right.map f g)
  | back cmd => back (cmd.map f g)

end Cmd

/-- The pointers `q` and `eq` to a word. -/
structure Span where
  q : ℕ
  eq : ℕ
  deriving DecidableEq

/-- How a redirection opens its file, and for which descriptor. -/
structure How where
  mode : ℕ
  fd : ℕ
  deriving DecidableEq

/-! ## Tokens -/

/-- `panic(s)`, or a loop that has not ended. -/
inductive Stop where
  | panic (s : String)
  | loop
  deriving DecidableEq

abbrev P := Prog ℕ Stop

section

variable (buf : List Char)

def deref (s : ℕ) : Char := buf.getD s nul

/-- `while(s < es && test(*s)) s++;` -/
def skip (test : Char → Bool) (s : ℕ) : ℕ := s + ((buf.drop s).takeWhile test).length

def white (c : Char) : Bool := whitespace.contains c

def wordChar (c : Char) : Bool := !whitespace.contains c && !symbols.contains c

/-- What `gettoken` returns for the token at `s`, and the end of the token. -/
def token (s : ℕ) : Char × ℕ :=
  let c := deref buf s
  if c = nul then (nul, s)
  else if c ∈ "|();&<".toList then (c, s + 1)
  else if c = '>' then if deref buf (s + 1) = '>' then ('+', s + 2) else (c, s + 1)
  else ('a', skip buf wordChar s)

def gettoken : P (Char × Span) := do
  let s ← get
  let q := skip buf white s
  let (ret, eq) := token buf q
  set (skip buf white eq)
  return (ret, ⟨q, eq⟩)

def peek (toks : List Char) : P Bool := do
  let s ← get
  let s := skip buf white s
  set s
  return deref buf s ≠ nul && toks.contains (deref buf s)

/-! ## Parsing -/

def parseredirs : ℕ → Cmd Span How → P (Cmd Span How)
  | 0, _ => throw .loop
  | fuel + 1, cmd => do
      if ← peek buf "<>".toList then
        let (tok, _) ← gettoken buf
        let (tok', file) ← gettoken buf
        if tok' ≠ 'a' then throw (.panic "missing file for redirection")
        else if tok = '<' then parseredirs fuel (.redir cmd file ⟨O_RDONLY, 0⟩)
        else if tok = '>' then parseredirs fuel (.redir cmd file ⟨O_WRONLY ||| O_CREATE, 1⟩)
        else if tok = '+' then parseredirs fuel (.redir cmd file ⟨O_WRONLY ||| O_CREATE, 1⟩)
        else parseredirs fuel cmd
      else return cmd

/-- The loop of `parseexec` over the arguments. -/
def parseargs : ℕ → ℕ → Cmd Span How → P (Cmd Span How)
  | 0, _, _ => throw .loop
  | fuel + 1, argc, ret => do
      if ← peek buf "|)&;".toList then return ret
      else
        let (tok, arg) ← gettoken buf
        if tok = nul then return ret
        else if tok ≠ 'a' then throw (.panic "syntax")
        else if argc + 1 ≥ MAXARGS then throw (.panic "too many args")
        else
          let ret ← parseredirs buf fuel (ret.addArg arg)
          parseargs fuel (argc + 1) ret

def parsebacks : ℕ → Cmd Span How → P (Cmd Span How)
  | 0, _ => throw .loop
  | fuel + 1, cmd => do
      if ← peek buf "&".toList then
        let _ ← gettoken buf
        parsebacks fuel (.back cmd)
      else return cmd

mutual

def parseline : ℕ → P (Cmd Span How)
  | 0 => throw .loop
  | fuel + 1 => do
      let cmd ← parsepipe fuel
      let cmd ← parsebacks buf fuel cmd
      if ← peek buf ";".toList then
        let _ ← gettoken buf
        let right ← parseline fuel
        return .list cmd right
      else return cmd

def parsepipe : ℕ → P (Cmd Span How)
  | 0 => throw .loop
  | fuel + 1 => do
      let cmd ← parseexec fuel
      if ← peek buf "|".toList then
        let _ ← gettoken buf
        let right ← parsepipe fuel
        return .pipe cmd right
      else return cmd

def parseexec : ℕ → P (Cmd Span How)
  | 0 => throw .loop
  | fuel + 1 => do
      if ← peek buf "(".toList then parseblock fuel
      else
        let ret ← parseredirs buf fuel (.exec [])
        parseargs buf fuel 0 ret

def parseblock : ℕ → P (Cmd Span How)
  | 0 => throw .loop
  | fuel + 1 => do
      if ← peek buf "(".toList then
        let _ ← gettoken buf
        let cmd ← parseline fuel
        if ← peek buf ")".toList then
          let _ ← gettoken buf
          parseredirs buf fuel cmd
        else throw (.panic "syntax - missing )")
      else throw (.panic "parseblock")

end

end

/-! ## The whole line -/

/-- The memory of the buffer after a NUL is written past every word of the tree. -/
def nulterminate : Cmd Span How → List Char → List Char
  | .exec argv, mem => argv.foldl (fun mem arg => mem.set arg.eq nul) mem
  | .redir cmd file _, mem => (nulterminate cmd mem).set file.eq nul
  | .pipe left right, mem => nulterminate right (nulterminate left mem)
  | .list left right, mem => nulterminate right (nulterminate left mem)
  | .back cmd, mem => nulterminate cmd mem

/-- The part of `parsecmd` before `nulterminate`. -/
def parseall (fuel : ℕ) (buf : List Char) : P (Cmd Span How) := do
  let cmd ← parseline buf fuel
  let _ ← peek buf []
  let s ← get
  if s ≠ buf.length then throw (.panic "syntax")
  else return cmd

/-- `parsecmd` gives the tree and what is then in the buffer. -/
def parsecmd (fuel : ℕ) (buf : List Char) : Except Stop (Cmd Span How × List Char) :=
  match (exec (parseall fuel buf) 0).1 with
  | .error e => .error e
  | .ok cmd => .ok (cmd, nulterminate cmd (buf ++ [nul]))

def cstr (mem : List Char) (s : Span) : List Char := (mem.drop s.q).takeWhile (· ≠ nul)

end Xv6.Sh
