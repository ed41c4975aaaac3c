import Xv6.Library.Fifo

/-!
# Console input

`consoleintr` and `consoleread` of kernel/console.c. What the code does while it holds `cons.lock`
is one step; a reader that finds no committed input sleeps, which lets the lock go, and starts
again from there whenever it is woken. Readers that are killed are left out, and so is the echo.
-/
namespace Xv6.Source.Console

open Xv6.Library

def INPUT_BUF_SIZE : Nat := 128

instance : NeZero INPUT_BUF_SIZE := ⟨by decide⟩

/-- `#define C(x)  ((x)-'@')  // Control-x` -/
def C (x : Char) : UInt8 := UInt8.ofNat (x.toNat - '@'.toNat)

def newline : UInt8 := UInt8.ofNat '\n'.toNat
def carriageReturn : UInt8 := UInt8.ofNat '\r'.toNat
def delete : UInt8 := 0x7f

structure Cons where
  buf : Fin INPUT_BUF_SIZE → UInt8
  /-- Read index -/
  r : BitVec 32
  /-- Write index -/
  w : BitVec 32
  /-- Edit index -/
  e : BitVec 32

/-- The loop of ^U, which goes round at most `e - w` times. -/
def killLine : Nat → Cons → Cons
  | 0, s => s
  | n + 1, s =>
    if s.e ≠ s.w ∧ s.buf (Fifo.cell INPUT_BUF_SIZE (s.e - 1)) ≠ newline then killLine n { s with e := s.e - 1 }
    else s

/-- `cons.buf[cons.e++ % INPUT_BUF_SIZE] = c` -/
def store (c : UInt8) (s : Cons) : Cons :=
  { s with buf := Function.update s.buf (Fifo.cell INPUT_BUF_SIZE s.e) c, e := s.e + 1 }

/-- Commit the line if it is complete. -/
def commit (c : UInt8) (s : Cons) : Cons :=
  if c = newline ∨ c = C 'D' ∨ (s.e - s.r).toNat = INPUT_BUF_SIZE then { s with w := s.e } else s

def consoleintr (c : UInt8) (s : Cons) : Cons :=
  if c = C 'P' then s
  else if c = C 'U' then killLine (s.e - s.w).toNat s
  else if c = C 'H' ∨ c = delete then
    if s.e ≠ s.w then { s with e := s.e - 1 } else s
  else if c ≠ 0 ∧ (s.e - s.r).toNat < INPUT_BUF_SIZE then
    let c := if c = carriageReturn then newline else c
    commit c (store c s)
  else s

/-- What a reader takes out of the buffer. -/
inductive Item where
  | byte (c : UInt8)
  /-- A ^D, for which the read ends. -/
  | eof
  /-- A byte that could not be copied to the user. -/
  | lost (c : UInt8)
  deriving DecidableEq

/-- From where a reader gets `cons.lock` to where it sleeps or returns: what it leaves, the bytes it
has copied out since the call began, what it has taken in this turn, and whether it returns. -/
structure Turn where
  cons : Cons
  got : List UInt8
  taken : List Item
  done : Bool

def Turn.after (i : Item) (t : Turn) : Turn := { t with taken := i :: t.taken }

/-- `consoleread` with `n` more bytes to go. `room k` tells whether `either_copyout` can copy a byte to
`dst + k`. -/
def turn (room : Nat → Bool) (target : Nat) : Nat → Cons → List UInt8 → Turn
  | 0, s, got => ⟨s, got, [], true⟩
  | n + 1, s, got =>
    if s.r = s.w then ⟨s, got, [], false⟩
    else
      let c := s.buf (Fifo.cell INPUT_BUF_SIZE s.r)
      let s := { s with r := s.r + 1 }
      if c = C 'D' then
        -- the ^D is put back for the next read if this one has bytes to return
        if n + 1 < target then ⟨{ s with r := s.r - 1 }, got, [], true⟩ else ⟨s, got, [.eof], true⟩
      else if room got.length then
        if c = newline then ⟨s, got ++ [c], [.byte c], true⟩
        else (turn room target n s (got ++ [c])).after (.byte c)
      else ⟨s, got, [.lost c], true⟩

/-! ## Readers and the keyboard -/

/-- A call of `consoleread` that has not returned. -/
structure Call where
  target : Nat
  got : List UInt8

def Call.turn (room : Nat → Bool) (call : Call) (s : Cons) : Turn :=
  Console.turn room call.target (call.target - call.got.length) s call.got

structure State (Reader : Type) where
  cons : Cons
  call : Reader → Option Call

inductive Label (Reader : Type) where
  | input (c : UInt8)
  | read (t : Reader) (n : Nat)
  /-- A turn of a reader: what it takes, and the bytes if it returns. -/
  | turn (t : Reader) (taken : List Item) (ret : Option (List UInt8))

variable {Reader : Type} [DecidableEq Reader]

/-- Input and readers in any order; all destinations are mapped. -/
inductive Step : State Reader → Label Reader → State Reader → Prop
  | input (s : State Reader) (c : UInt8) : Step s (.input c) { s with cons := consoleintr c s.cons }
  | read (s : State Reader) (t : Reader) (n : Nat) : s.call t = none → 0 < n →
    Step s (.read t n) { s with call := Function.update s.call t (some ⟨n, []⟩) }
  | sleep (s : State Reader) (t : Reader) (call : Call) (r : Turn) : s.call t = some call →
    call.turn (fun _ => true) s.cons = r → r.done = false →
    Step s (.turn t r.taken none)
      { s with cons := r.cons, call := Function.update s.call t (some { call with got := r.got }) }
  | ret (s : State Reader) (t : Reader) (call : Call) (r : Turn) : s.call t = some call →
    call.turn (fun _ => true) s.cons = r → r.done = true →
    Step s (.turn t r.taken (some r.got)) { s with cons := r.cons, call := Function.update s.call t none }

end Xv6.Source.Console
