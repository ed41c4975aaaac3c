import Xv6.Library.Transition
import Xv6.Source.Log

/-!
# The log over one flat block memory

`kernel/log.c` with the buffer cache replaced by what it stands for: `mem b` are
the bytes `bread` returns for block `b`, `disk b` the bytes on the disk. Any number
of processes run operations; the one that ends the last of them runs `commit`, and
after a crash one process runs `recover_from_log` before the others start. A process
holds the blocks it has read and not released, and `dirty` are the blocks it has
modified in place and not yet passed to `log_write`: callers release a block and end
an operation only when nothing of theirs is dirty.
-/
namespace Xv6.Kernel.FlatLog
open Xv6.Source

/-- Where a process is: outside every operation, in `begin_op` with the log lock to
be taken, asleep there on `&log`, inside an operation, or in the log code. -/
inductive Pc where
  | out | entering | sleeping | inOp
  | log (c : LogPc)
  deriving DecidableEq, Repr

structure Proc where
  pc : Pc
  held : List UInt32
  dirty : List UInt32
  deriving DecidableEq, Repr

structure State (n : Nat) where
  mem : UInt32 → Block
  disk : UInt32 → Block
  lh : List UInt32
  outstanding : Int
  committing : Bool
  pins : List UInt32
  proc : Fin n → Proc
  booting : Bool
  panicked : Option Panic

/-- What an observer of the block layer sees of a step. `store` is a process that
modifies a block it holds, `logStore` the log code doing so; `commit` is the disk
write of the first `write_head`. -/
inductive Label (n : Nat) where
  | tau
  | bread (p : Fin n) (b : UInt32) (d : Block)
  | store (p : Fin n) (b : UInt32) (d : Block)
  | logStore (b : UInt32) (d : Block)
  | logWrite (p : Fin n) (b : UInt32)
  | beginOp (p : Fin n)
  | endOp (p : Fin n)
  | commit
  | recovered
  | panic (x : Panic)

variable {n : Nat}

def State.setProc (s : State n) (p : Fin n) (x : Proc) : State n :=
  { s with proc := Function.update s.proc p x }

def State.goto (s : State n) (p : Fin n) (pc : Pc) : State n :=
  s.setProc p { s.proc p with pc := pc }

/-- `wakeup(&log)`. -/
def wake (x : Proc) : Proc := if x.pc = .sleeping then { x with pc := .entering } else x

def State.wakeup (s : State n) : State n := { s with proc := fun q => wake (s.proc q) }

/-- A process that runs file-system code and may use the buffer cache. -/
def State.User (s : State n) (p : Fin n) : Prop :=
  s.panicked = none ∧ s.booting = false ∧ ((s.proc p).pc = .out ∨ (s.proc p).pc = .inOp)

def State.logWrite (g : Geometry) (s : State n) (p : Fin n) (b : UInt32) : State n :=
  match logWriteCheck g s.lh s.outstanding with
  | some x => { s with panicked := some x }
  | none =>
    let r := absorb s.lh b
    { s with
      lh := r.1
      pins := if r.2 then s.pins ++ [b] else s.pins
      proc := Function.update s.proc p
        { s.proc p with dirty := (s.proc p).dirty.filter (· != b) } }

def State.endOp (s : State n) (p : Fin n) : State n :=
  let s := { s with outstanding := s.outstanding - 1 }
  if s.committing then { s with panicked := some .logCommitting }
  else if s.outstanding = 0 then { s with committing := true }.goto p (.log .commit)
  else s.wakeup.goto p .out

/-- One instruction of the log code, run by process `p` at `c` with `c'` next. -/
def State.exec (s : State n) (p : Fin n) (c c' : LogPc) : Instr → Option (Label n × State n)
  | .skip => some (.tau, s.goto p (.log c'))
  | .bread b => some (.bread p b (s.mem b),
      s.setProc p { s.proc p with pc := .log c', held := b :: (s.proc p).held })
  | .memmove dst src => do
    let bd ← (s.proc p).held[dst]?
    let bs ← (s.proc p).held[src]?
    some (.logStore bd (s.mem bs),
      { s with mem := Function.update s.mem bd (s.mem bs) }.goto p (.log c'))
  | .bwrite k => do
    let b ← (s.proc p).held[k]?
    some (if c = .writeHead .commit .stored then .commit else .tau,
      { s with disk := Function.update s.disk b (s.mem b) }.goto p (.log c'))
  | .bunpin k => do
    let b ← (s.proc p).held[k]?
    some (.tau, { s with pins := s.pins.erase b }.goto p (.log c'))
  | .brelse k => some (.tau, s.setProc p { s.proc p with
      pc := .log c', held := (s.proc p).held.eraseIdx k })
  | .storeHead k => do
    let b ← (s.proc p).held[k]?
    some (.logStore b (setHead (s.mem b) s.lh),
      { s with mem := Function.update s.mem b (setHead (s.mem b) s.lh) }.goto p (.log c'))
  | .loadHead k => do
    let b ← (s.proc p).held[k]?
    -- a longer header would be read past the end of `log.lh.block`
    guard ((getHead (s.mem b)).length ≤ LOGSIZE)
    some (.tau, { s with lh := getHead (s.mem b) }.goto p (.log c'))
  | .clear => some (.tau, { s with lh := [] }.goto p (.log c'))
  | .finish => some (.tau, { s with committing := false }.wakeup.goto p .out)
  | .recovered => some (.recovered, { s with booting := false }.goto p .out)

inductive Step (g : Geometry) : State n → Label n → State n → Prop
  | stutter (s : State n) : Step g s .tau s
  | bread (s : State n) (p : Fin n) (b : UInt32) (user : s.User p) :
      Step g s (.bread p b (s.mem b))
        (s.setProc p { s.proc p with held := b :: (s.proc p).held })
  | brelse (s : State n) (p : Fin n) (k : Nat) (b : UInt32) (user : s.User p)
      (held : (s.proc p).held[k]? = some b) (clean : b ∉ (s.proc p).dirty) :
      Step g s .tau (s.setProc p { s.proc p with held := (s.proc p).held.eraseIdx k })
  | store (s : State n) (p : Fin n) (b : UInt32) (d : Block) (live : s.panicked = none)
      (inOp : (s.proc p).pc = .inOp) (held : b ∈ (s.proc p).held) :
      Step g s (.store p b d)
        ({ s with mem := Function.update s.mem b d }.setProc p
          { s.proc p with dirty := b :: (s.proc p).dirty })
  | logWrite (s : State n) (p : Fin n) (b : UInt32) (live : s.panicked = none)
      (inOp : (s.proc p).pc = .inOp) (held : b ∈ (s.proc p).held) :
      Step g s (.logWrite p b) (s.logWrite g p b)
  | beginOp (s : State n) (p : Fin n) (live : s.panicked = none) (up : s.booting = false)
      (calls : (s.proc p).pc = .out ∨ (s.proc p).pc = .entering)
      (admitted : admits s.committing s.lh s.outstanding = true) :
      Step g s (.beginOp p) ({ s with outstanding := s.outstanding + 1 }.goto p .inOp)
  | sleep (s : State n) (p : Fin n) (live : s.panicked = none) (up : s.booting = false)
      (calls : (s.proc p).pc = .out ∨ (s.proc p).pc = .entering)
      (refused : admits s.committing s.lh s.outstanding = false) :
      Step g s .tau (s.goto p .sleeping)
  | endOp (s : State n) (p : Fin n) (live : s.panicked = none)
      (inOp : (s.proc p).pc = .inOp) (clean : (s.proc p).dirty = []) :
      Step g s (.endOp p) (s.endOp p)
  | log (s s' : State n) (p : Fin n) (c c' : LogPc) (i : Instr) (l : Label n)
      (live : s.panicked = none) (here : (s.proc p).pc = .log c)
      (text : code g s.lh c = (i, c')) (does : s.exec p c c' i = some (l, s')) :
      Step g s l s'
  | noBuffers (s : State n) (live : s.panicked = none) :
      Step g s (.panic .noBuffers) { s with panicked := some .noBuffers }

/-- Power on with process `p₀` about to run `recover_from_log`. -/
def boot (p₀ : Fin n) (disk : UInt32 → Block) : State n where
  mem := disk
  disk := disk
  lh := []
  outstanding := 0
  committing := false
  pins := []
  proc := fun q => { pc := if q = p₀ then .log (.readHead .entry) else .out, held := [], dirty := [] }
  booting := true
  panicked := none

end Xv6.Kernel.FlatLog
