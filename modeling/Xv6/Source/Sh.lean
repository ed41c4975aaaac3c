import Xv6.Source.Ulib

/-!
# user/sh.c: the parser

`parsecmd` and the functions below it, on the buffer that holds the line. The tree
holds pointers into the buffer, as the C structures do. Loops and recursive calls are
given a depth to run with; a `panic` prints its text and exits. Of `runcmd` there is the
case of a redirection, where `open` does not fail.
-/
namespace Xv6.Source.Sh

open Xv6.Source.Ulib

def MAXARGS : Nat := 10

def O_RDONLY : Nat := 0x000
def O_WRONLY : Nat := 0x001
def O_CREATE : Nat := 0x200
def O_TRUNC : Nat := 0x400

/-- A redirection: the ends of the file's name, how it is opened, and as what. -/
structure Redir where
  file : Int
  efile : Int
  mode : Nat
  fd : Nat
  deriving DecidableEq, Repr

/-- The tree of `parsecmd`. An argument is the two ends of its word. -/
inductive Cmd where
  | exec (argv : List (Int × Int))
  | redir (cmd : Cmd) (target : Redir)
  | pipe (left right : Cmd)
  | list (left right : Cmd)
  | back (cmd : Cmd)
  deriving DecidableEq, Repr

/-- Why the parser does not return: it reads outside the buffer, it panics, or it was
given too little depth. -/
inductive Stop where
  | fault
  | panic (text : String)
  | depth
  deriving DecidableEq, Repr

abbrev Parse (β : Type) := Except Stop β

def whitespace : Bytes := literal [' ', '\t', '\r', '\n', '\x0b']
def symbols : Bytes := literal ['<', '|', '>', '&', ';', '(', ')']

/-- `*s`. -/
def char (m : Bytes) (s : Int) : Parse UInt8 :=
  match load m s with
  | none => .error .fault
  | some c => .ok c

/-- `while(s < es && strchr(whitespace, *s)) s++`, with the distance to `es`. -/
def skipWhite (m : Bytes) : Nat → Int → Parse Int
  | 0, s => .ok s
  | n + 1, s => do
    let c ← char m s
    if c ∈ whitespace then skipWhite m n (s + 1) else .ok s

/-- `while(s < es && !strchr(whitespace, *s) && !strchr(symbols, *s)) s++`. -/
def skipWord (m : Bytes) : Nat → Int → Parse Int
  | 0, s => .ok s
  | n + 1, s => do
    let c ← char m s
    if c ∉ whitespace ∧ c ∉ symbols then skipWord m n (s + 1) else .ok s

/-- What `gettoken` returns and leaves in `*q`, `*eq` and `*ps`. -/
structure Token where
  ret : UInt8
  q : Int
  eq : Int
  ps : Int
  deriving DecidableEq, Repr

def gettoken (m : Bytes) (ps es : Int) : Parse Token := do
  let q ← skipWhite m (es - ps).toNat ps
  let c ← char m q
  let (ret, eq) ←
    if c = 0 then pure (0, q)
    else if c ∈ literal ['|', '(', ')', ';', '&', '<'] then pure (c, q + 1)
    else if c = '>'.toUInt8 then do
      let d ← char m (q + 1)
      if d = '>'.toUInt8 then pure ('+'.toUInt8, q + 2) else pure (c, q + 1)
    else do
      let e ← skipWord m (es - q).toNat q
      pure ('a'.toUInt8, e)
  let s ← skipWhite m (es - eq).toNat eq
  return ⟨ret, q, eq, s⟩

/-- Whether the next character is one of `toks`, and where it is. -/
def peek (m : Bytes) (ps es : Int) (toks : Bytes) : Parse (Bool × Int) := do
  let s ← skipWhite m (es - ps).toNat ps
  let c ← char m s
  return (decide (c ≠ 0 ∧ c ∈ toks), s)

/-- How a redirection token opens its file. -/
def redircmd (tok : UInt8) (file : Token) : Redir :=
  if tok = '<'.toUInt8 then ⟨file.q, file.eq, O_RDONLY, 0⟩
  else if tok = '>'.toUInt8 then ⟨file.q, file.eq, O_WRONLY ||| O_CREATE ||| O_TRUNC, 1⟩
  else ⟨file.q, file.eq, O_WRONLY ||| O_CREATE, 1⟩

/-- The redirections from here on, in the order in which they wrap the command. -/
def parseredirs (m : Bytes) (es : Int) : Nat → Int → Parse (List Redir × Int)
  | 0, _ => .error .depth
  | n + 1, ps => do
    let (found, ps) ← peek m ps es (literal ['<', '>'])
    if found then
      let tok ← gettoken m ps es
      let file ← gettoken m tok.ps es
      if file.ret ≠ 'a'.toUInt8 then .error (.panic "missing file for redirection")
      else
        let (rest, ps) ← parseredirs m es n file.ps
        return (redircmd tok.ret file :: rest, ps)
    else return ([], ps)

def redirect (cmd : Cmd) (redirs : List Redir) : Cmd := redirs.foldl .redir cmd

/-- The loop of `parseexec`: the arguments and redirections, behind those there are. -/
def parseargs (m : Bytes) (es : Int) :
    Nat → List (Int × Int) → List Redir → Int → Parse (List (Int × Int) × List Redir × Int)
  | 0, _, _, _ => .error .depth
  | n + 1, argv, redirs, ps => do
    let (stop, ps) ← peek m ps es (literal ['|', ')', '&', ';'])
    if stop then return (argv, redirs, ps)
    else
      let tok ← gettoken m ps es
      if tok.ret = 0 then return (argv, redirs, tok.ps)
      else if tok.ret ≠ 'a'.toUInt8 then .error (.panic "syntax")
      else if MAXARGS ≤ argv.length + 1 then .error (.panic "too many args")
      else
        let (more, ps) ← parseredirs m es n tok.ps
        parseargs m es n (argv ++ [(tok.q, tok.eq)]) (redirs ++ more) ps

/-- A parser of one of the nonterminals, from a position on. -/
abbrev Rule := Int → Parse (Cmd × Int)

/-- A block in parentheses, whose inside the first argument parses. -/
def parseblock (m : Bytes) (es : Int) (depth : Nat) (parseline : Rule) : Rule := fun ps => do
  let (opened, ps) ← peek m ps es (literal ['('])
  if !opened then .error (.panic "parseblock")
  else
    let tok ← gettoken m ps es
    let (cmd, ps) ← parseline tok.ps
    let (closed, ps) ← peek m ps es (literal [')'])
    if !closed then .error (.panic "syntax - missing )")
    else
      let tok ← gettoken m ps es
      let (redirs, ps) ← parseredirs m es depth tok.ps
      return (redirect cmd redirs, ps)

def parseexec (m : Bytes) (es : Int) (depth : Nat) (parseblock : Rule) : Rule := fun ps => do
  let (block, ps) ← peek m ps es (literal ['('])
  if block then parseblock ps
  else
    let (redirs, ps) ← parseredirs m es depth ps
    let (argv, redirs, ps) ← parseargs m es depth [] redirs ps
    return (redirect (.exec argv) redirs, ps)

def parsepipe (m : Bytes) (es : Int) (parseblock : Rule) : Nat → Rule
  | 0 => fun _ => .error .depth
  | n + 1 => fun ps => do
    let (cmd, ps) ← parseexec m es (n + 1) parseblock ps
    let (found, ps) ← peek m ps es (literal ['|'])
    if found then
      let tok ← gettoken m ps es
      let (right, ps) ← parsepipe m es parseblock n tok.ps
      return (.pipe cmd right, ps)
    else return (cmd, ps)

/-- The loop of `parseline` over `&`. -/
def parseback (m : Bytes) (es : Int) : Nat → Cmd → Rule
  | 0, _ => fun _ => .error .depth
  | n + 1, cmd => fun ps => do
    let (found, ps) ← peek m ps es (literal ['&'])
    if found then
      let tok ← gettoken m ps es
      parseback m es n (.back cmd) tok.ps
    else return (cmd, ps)

def parseline (m : Bytes) (es : Int) : Nat → Rule
  | 0 => fun _ => .error .depth
  | n + 1 => fun ps => do
    let (cmd, ps) ← parsepipe m es (parseblock m es (n + 1) (parseline m es n)) (n + 1) ps
    let (cmd, ps) ← parseback m es (n + 1) cmd ps
    let (found, ps) ← peek m ps es (literal [';'])
    if found then
      let tok ← gettoken m ps es
      let (right, ps) ← parseline m es n tok.ps
      return (.list cmd right, ps)
    else return (cmd, ps)

/-- NUL-terminate all the counted strings. -/
def nulterminate : Cmd → Bytes → Option Bytes
  | .exec argv, m => argv.foldlM (fun m w => store m w.2 0) m
  | .redir cmd target, m => (nulterminate cmd m).bind fun m => store m target.efile 0
  | .pipe left right, m | .list left right, m => (nulterminate left m).bind (nulterminate right)
  | .back cmd, m => nulterminate cmd m

/-- The tree of the string at `s`, and the buffer with its words cut off. -/
def parsecmd (m : Bytes) (s : Int) : Parse (Cmd × Bytes) :=
  match strlen m s with
  | none => .error .fault
  | some n => do
    let es := s + n.toNat
    let (cmd, ps) ← parseline m es (n.toNat + 1) s
    let (_, ps) ← peek m ps es []
    if ps ≠ es then .error (.panic "syntax")
    else
      match nulterminate cmd m with
      | none => .error .fault
      | some m => return (cmd, m)

/-! ## Redirections in runcmd -/

/-- What a descriptor refers to: what it was when `runcmd` was called, or a file by its name. -/
inductive Entry where
  | old (fd : Nat)
  | file (name : Bytes)
  deriving DecidableEq, Repr

abbrev Files := List (Option Entry)

/-- `open` takes the lowest free descriptor. -/
def openFile (files : Files) (name : Bytes) : Option Files :=
  (files.findIdx? Option.isNone).map fun fd => files.set fd (some (.file name))

/-- The case REDIR of `runcmd`, for as many nodes: the command it goes on to, and its files. -/
def runRedirs (m : Bytes) : Nat → Files → Cmd → Option (Cmd × Files)
  | 0, files, cmd => some (cmd, files)
  | n + 1, files, .redir cmd target => do
    let name ← cstring m target.file
    let files ← openFile (files.set target.fd none) name
    runRedirs m n files cmd
  | _ + 1, _, _ => none

end Xv6.Source.Sh
