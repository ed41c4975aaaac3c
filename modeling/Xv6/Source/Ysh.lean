import Xv6.Source.Proc

/-!
# user/ysh.c

The shell's main loop and `runcmd`, on the line buffer as the C code cuts it up in
place. What a process does next is a tree of system calls; `runcmd` takes what its
caller does with the value it returns. The recursion is given a depth to run with.
-/
namespace Xv6.Source.Ysh

open Xv6.Source.Ulib Xv6.Source.Proc

/-- Max length of user input. -/
def bufSize : Nat := 128

/-- Max number of arguments. -/
def maxArgs : Nat := 16

/-- The part of a command that a recursive call or a forked process runs. -/
inductive Side where
  | back
  | before
  | after
  | pipe
  | left
  | right
  | exec
  deriving DecidableEq, Repr

/-- A part of the line, by the way to it from the whole line. -/
abbrev Addr := List Side

abbrev space : UInt8 := ' '.toUInt8
abbrev semicolon : UInt8 := ';'.toUInt8
abbrev bar : UInt8 := '|'.toUInt8
abbrev ampersand : UInt8 := '&'.toUInt8

def exitWord : Bytes := literal ['e', 'x', 'i', 't']
def cdWord : Bytes := literal ['c', 'd', ' ']

/-- `cmd[strlen(cmd)-1]`: the index is an unsigned 32-bit value. -/
def lastIndex (m : Bytes) (cmd : Int) : Option Int :=
  (strlen m cmd).map fun n => cmd + (n - 1).toNat

/-- Read a shell input, and chop off the trailing newline. -/
def readcmd (input : List (Option UInt8)) : Got :=
  match gets bufSize input (List.replicate bufSize 0) 0 with
  | .line m input =>
    match (lastIndex m 0).bind fun last => store m last 0 with
    | none => .fault
    | some m => .line m input
  | got => got

/-- `while(*cmd == ' ') { cmd++; }`. -/
def leading : Bytes → Option Nat
  | [] => none
  | c :: s => if c = space then (leading s).map (· + 1) else some 0

def skip (m : Bytes) (cmd : Int) : Option Int :=
  (deref m cmd).bind fun s => (leading s).map fun n : Nat => cmd + n

/-- `for(...; *c == ' '; c--) { *c = 0; }`, with the number of bytes up to and with `c`. -/
def trimDown : Nat → Bytes → Option Bytes
  | 0, _ => none
  | c + 1, m =>
    match load m c with
    | none => none
    | some d => if d = space then (store m c 0).bind (trimDown c) else some m

def trim (m : Bytes) (cmd : Int) : Option Bytes :=
  (strlen m cmd).bind fun n => trimDown (cmd + n.toNat).toNat m

/-- The loop that fills `argv`, with the entries that are still free. The last word
needs one for itself and one for the null pointer. -/
def split : Nat → Bytes → Int → List Int → Option (Bytes × List Int)
  | 0, _, _, _ => none
  | room + 1, m, cmd, argv =>
    match strchr m cmd space with
    | none => none
    | some (some pp) => (store m pp 0).bind fun m => split room m (pp + 1) (argv ++ [cmd])
    | some none => if room = 0 then none else some (m, argv ++ [cmd])

/-- The argument strings that `exec` copies. -/
def arguments (m : Bytes) (cmd : Int) : Option (List Bytes) :=
  (split maxArgs m cmd []).bind fun (m, argv) => argv.mapM (cstring m)

/-- An access to memory and what is done with its result. -/
def access {β : Type} (r : Option β) (next : β → Prog Addr) : Prog Addr :=
  match r with
  | none => .fault
  | some x => next x

/-- A call of `runcmd` in a process with this memory: the command, the place it stands
at and what the caller goes on to do. -/
abbrev Runner := Bytes → Int → Addr → (Bool → Prog Addr) → Prog Addr

/-- `runcmd` behind its loops over spaces, with the recursive call as a parameter. -/
def runTrimmed (runcmd : Runner) : Runner := fun m cmd addr k =>
  access (strcmp m cmd exitWord) fun r => if r = 0 then k false else
  access (strncmp m cmd cdWord 3) fun r =>
  if r = 0 then access (cstring m (cmd + 3)) fun path => .chdir path (k true) else
  access (strchr m cmd semicolon) fun s =>
  access (strchr m cmd bar) fun p =>
  access (lastIndex m cmd) fun last =>
  access (load m last) fun c =>
  if c = ampersand then
    access (store m last 0) fun m =>
    -- the child does not exit: it returns to the caller as its parent does
    .fork (addr ++ [.back]) (runcmd m cmd (addr ++ [.back]) fun _ => k true) (k true)
  else match s, p with
  | some s, _ =>
    access (store m s 0) fun m =>
    .fork (addr ++ [.before]) (runcmd m cmd (addr ++ [.before]) fun _ => .exit)
      (.wait (runcmd m (s + 1) (addr ++ [.after]) fun _ => k true))
  | none, some p =>
    access (store m p 0) fun m =>
    .fork (addr ++ [.pipe])
      (.pipe addr fun fd0 fd1 => .fork (addr ++ [.left])
        (.close 1 <| .dup fd1 <| .close fd0 <| .close fd1 <|
          runcmd m cmd (addr ++ [.left]) fun _ => .exit)
        (.close 0 <| .dup fd0 <| .close fd0 <| .close fd1 <|
          runcmd m (p + 1) (addr ++ [.right]) fun _ => .exit))
      (.wait (k true))
  | none, none =>
    access (arguments m cmd) fun argv =>
    -- when `exec` fails, the child goes on behind the branch as well
    .fork (addr ++ [.exec]) (.exec addr argv (.wait (k true))) (.wait (k true))

/-- Run a command. -/
def runcmd : Nat → Runner
  | 0 => fun _ _ _ _ => .spin
  | depth + 1 => fun m cmd addr k =>
    access (load m cmd) fun c => if c = 0 then k true else
    access (skip m cmd) fun cmd =>
    access (trim m cmd) fun m => runTrimmed (runcmd depth) m cmd addr k

/-- The main loop, on the input of the process. `ret true` waits for more of it. -/
def mainLoop : Nat → List (Option UInt8) → Prog Addr
  | 0, _ => .spin
  | rounds + 1, input =>
    match readcmd input with
    | .fault => .fault
    | .waiting => .ret true
    | .line m input =>
      runcmd bufSize m 0 [] fun more => if more then mainLoop rounds input else .exit

end Xv6.Source.Ysh
