import Xv6.Kernel.FlatLog
import Xv6.Source.Bio

/-!
# The block layer

`kernel/bio.c` and `kernel/log.c` as one machine. Any number of processes read,
modify, log and release buffers; the steps are the sections the code runs under
`bcache.lock` or `log.lock` and the single-block disk requests, in any interleaving.
Every `bread` of the kernel passes ROOTDEV, which is `log.dev`, and the disk has
FSSIZE blocks: a request behind its end never completes.
-/
namespace Xv6.Kernel.BlockLayer
open Xv6.Source Xv6.Kernel.FlatLog

/-- A call of `bread` or `brelse` that is not over: asleep in `acquiresleep`, back in
`bread` with the buffer locked, or in `brelse` behind `releasesleep`. -/
inductive Call where
  | idle
  | getting (i : Fin NBUF) (b : UInt32)
  | locked (i : Fin NBUF) (b : UInt32)
  | releasing (i : Fin NBUF)
  deriving DecidableEq, Repr

structure Proc where
  pc : Pc
  held : List (Fin NBUF)
  dirty : List UInt32
  call : Call
  deriving DecidableEq, Repr

structure State (n : Nat) where
  cache : Bcache n
  disk : UInt32 → Block
  lh : List UInt32
  outstanding : Int
  committing : Bool
  proc : Fin n → Proc
  booting : Bool
  panicked : Option Panic

variable {n : Nat}

namespace State

def setProc (s : State n) (p : Fin n) (x : Proc) : State n :=
  { s with proc := Function.update s.proc p x }

def goto (s : State n) (p : Fin n) (pc : Pc) : State n :=
  s.setProc p { s.proc p with pc := pc }

def setCall (s : State n) (p : Fin n) (call : Call) : State n :=
  s.setProc p { s.proc p with call := call }

/-- The contents of a buffer are overwritten in place. -/
def setData (s : State n) (i : Fin NBUF) (d : Block) : State n :=
  { s with cache := s.cache.setBuf i { s.cache.buf i with data := d } }

def blockno (s : State n) (i : Fin NBUF) : UInt32 := (s.cache.buf i).blockno

/-- A process that is not inside a call of the buffer cache. -/
def Ready (s : State n) (p : Fin n) : Prop := s.panicked = none ∧ (s.proc p).call = .idle

/-- File-system code, which may use the buffer cache once recovery is over. -/
def User (s : State n) (p : Fin n) : Prop :=
  s.booting = false ∧ ((s.proc p).pc = .out ∨ (s.proc p).pc = .inOp)

/-- Process `p` calls `bread(ROOTDEV, b)`. -/
def Reads (g : Geometry) (s : State n) (p : Fin n) (b : UInt32) : Prop :=
  s.User p ∨ ∃ c c', (s.proc p).pc = .log c ∧ code g s.lh c = (.bread b, c')

/-- Where `bread` returns to. -/
def resume (g : Geometry) (s : State n) (p : Fin n) : Pc :=
  match (s.proc p).pc with
  | .log c => .log (code g s.lh c).2
  | pc => pc

/-- `acquiresleep(&b->lock)` succeeds. -/
def acquiresleep (s : State n) (p : Fin n) (i : Fin NBUF) (b : UInt32) : State n :=
  { s with cache := s.cache.setBuf i { s.cache.buf i with lock := some p } }.setCall p (.locked i b)

/-- What `bread` finds in the buffer it has locked, reading the disk if it has to. -/
def contents (s : State n) (i : Fin NBUF) : Block :=
  if (s.cache.buf i).valid then (s.cache.buf i).data else s.disk (s.blockno i)

/-- The rest of `bread`. -/
def fill (g : Geometry) (s : State n) (p : Fin n) (i : Fin NBUF) : State n :=
  { s with cache := s.cache.setBuf i { s.cache.buf i with
      valid := true, data := s.contents i } }.setProc p
    { s.proc p with pc := s.resume g p, held := i :: (s.proc p).held, call := .idle }

/-- `brelse` up to `releasesleep`, of the buffer at position `k`. -/
def brelse (s : State n) (p : Fin n) (k : Nat) (pc : Pc) : Option (Label n × State n) := do
  let i ← (s.proc p).held[k]?
  if (s.cache.buf i).lock = some p then
    some (.tau,
      { s with cache := s.cache.setBuf i { s.cache.buf i with lock := none } }.setProc p
        { s.proc p with pc := pc, held := (s.proc p).held.eraseIdx k, call := .releasing i })
  else some (.panic .brelse, { s with panicked := some .brelse })

def logWrite (g : Geometry) (s : State n) (p : Fin n) (i : Fin NBUF) : State n :=
  match logWriteCheck g s.lh s.outstanding with
  | some x => { s with panicked := some x }
  | none =>
    let r := absorb s.lh (s.blockno i)
    { s with
      lh := r.1
      cache := if r.2 then s.cache.bpin i else s.cache }.setProc p
        { s.proc p with dirty := (s.proc p).dirty.filter (· != s.blockno i) }

def wakeup (s : State n) : State n :=
  { s with proc := fun q =>
      if (s.proc q).pc = .sleeping then { s.proc q with pc := .entering } else s.proc q }

def endOp (s : State n) (p : Fin n) : State n :=
  let s := { s with outstanding := s.outstanding - 1 }
  if s.committing then { s with panicked := some .logCommitting }
  else if s.outstanding = 0 then { s with committing := true }.goto p (.log .commit)
  else s.wakeup.goto p .out

/-- One instruction of the log code other than `bread`. -/
def exec (s : State n) (p : Fin n) (c c' : LogPc) : Instr → Option (Label n × State n)
  | .skip => some (.tau, s.goto p (.log c'))
  | .bread _ => none
  | .memmove dst src => do
    let bd ← (s.proc p).held[dst]?
    let bs ← (s.proc p).held[src]?
    some (.logStore (s.blockno bd) (s.cache.buf bs).data,
      (s.setData bd (s.cache.buf bs).data).goto p (.log c'))
  | .bwrite k => do
    let i ← (s.proc p).held[k]?
    if (s.cache.buf i).lock = some p then
      some (if c = .writeHead .commit .stored then .commit else .tau,
        { s with disk := Function.update s.disk (s.blockno i) (s.cache.buf i).data }.goto p (.log c'))
    else some (.panic .bwrite, { s with panicked := some .bwrite })
  | .bunpin k => do
    let i ← (s.proc p).held[k]?
    some (.tau, { s with cache := s.cache.bunpin i }.goto p (.log c'))
  | .brelse k => s.brelse p k (.log c')
  | .storeHead k => do
    let i ← (s.proc p).held[k]?
    some (.logStore (s.blockno i) (setHead (s.cache.buf i).data s.lh),
      (s.setData i (setHead (s.cache.buf i).data s.lh)).goto p (.log c'))
  | .loadHead k => do
    let i ← (s.proc p).held[k]?
    -- a longer header would be read past the end of `log.lh.block`
    guard ((getHead (s.cache.buf i).data).length ≤ LOGSIZE)
    some (.tau, { s with lh := getHead (s.cache.buf i).data }.goto p (.log c'))
  | .clear => some (.tau, { s with lh := [] }.goto p (.log c'))
  | .finish => some (.tau, { s with committing := false }.wakeup.goto p .out)
  | .recovered => some (.recovered, { s with booting := false }.goto p .out)

end State

/-- One step of one process. Callers of `log_write` follow the rules of `log.c`: they
modify and log blocks inside an operation, hold a buffer while they use it, and log
what they modified before they release it or end the operation. -/
inductive Step (g : Geometry) : State n → Label n → State n → Prop
  | bget (s : State n) (p : Fin n) (b : UInt32) (i : Fin NBUF) (cache : Bcache n)
      (ready : s.Ready p) (reads : s.Reads g p b)
      (found : s.cache.bget ROOTDEV b = some (some (i, cache))) :
      Step g s .tau ({ s with cache := cache }.setCall p (.getting i b))
  | noBuffers (s : State n) (p : Fin n) (b : UInt32) (ready : s.Ready p) (reads : s.Reads g p b)
      (none : s.cache.bget ROOTDEV b = some none) :
      Step g s (.panic .noBuffers) { s with panicked := some .noBuffers }
  | acquiresleep (s : State n) (p : Fin n) (i : Fin NBUF) (b : UInt32) (live : s.panicked = none)
      (call : (s.proc p).call = .getting i b) (free : (s.cache.buf i).lock = none) :
      Step g s .tau (s.acquiresleep p i b)
  | fill (s : State n) (p : Fin n) (i : Fin NBUF) (b : UInt32) (live : s.panicked = none)
      (call : (s.proc p).call = .locked i b)
      (onDisk : (s.cache.buf i).valid = true ∨ b.toNat < FSSIZE) :
      Step g s (.bread p b (s.contents i)) (s.fill g p i)
  | brelse (s s' : State n) (p : Fin n) (k : Nat) (l : Label n) (ready : s.Ready p) (user : s.User p)
      (clean : ∀ i, (s.proc p).held[k]? = some i → s.blockno i ∉ (s.proc p).dirty)
      (does : s.brelse p k (s.proc p).pc = some (l, s')) : Step g s l s'
  | unref (s : State n) (p : Fin n) (i : Fin NBUF) (live : s.panicked = none)
      (call : (s.proc p).call = .releasing i) :
      Step g s .tau ({ s with cache := s.cache.brelse i }.setCall p .idle)
  | store (s : State n) (p : Fin n) (i : Fin NBUF) (d : Block) (ready : s.Ready p)
      (inOp : (s.proc p).pc = .inOp) (held : i ∈ (s.proc p).held) :
      Step g s (.store p (s.blockno i) d)
        ((s.setData i d).setProc p
          { s.proc p with dirty := s.blockno i :: (s.proc p).dirty })
  | logWrite (s : State n) (p : Fin n) (i : Fin NBUF) (ready : s.Ready p)
      (inOp : (s.proc p).pc = .inOp) (held : i ∈ (s.proc p).held) :
      Step g s (.logWrite p (s.blockno i)) (s.logWrite g p i)
  | beginOp (s : State n) (p : Fin n) (ready : s.Ready p) (up : s.booting = false)
      (calls : (s.proc p).pc = .out ∨ (s.proc p).pc = .entering)
      (admitted : admits s.committing s.lh s.outstanding = true) :
      Step g s (.beginOp p) ({ s with outstanding := s.outstanding + 1 }.goto p .inOp)
  | sleep (s : State n) (p : Fin n) (ready : s.Ready p) (up : s.booting = false)
      (calls : (s.proc p).pc = .out ∨ (s.proc p).pc = .entering)
      (refused : admits s.committing s.lh s.outstanding = false) :
      Step g s .tau (s.goto p .sleeping)
  | endOp (s : State n) (p : Fin n) (ready : s.Ready p)
      (inOp : (s.proc p).pc = .inOp) (clean : (s.proc p).dirty = []) :
      Step g s (.endOp p) (s.endOp p)
  | log (s s' : State n) (p : Fin n) (c c' : LogPc) (i : Instr) (l : Label n) (ready : s.Ready p)
      (here : (s.proc p).pc = .log c) (text : code g s.lh c = (i, c'))
      (does : s.exec p c c' i = some (l, s')) : Step g s l s'

/-- Power on: `binit` has run and process `p₀` is about to run `recover_from_log`. -/
def boot (p₀ : Fin n) (disk : UInt32 → Block) : State n where
  cache := Bcache.binit
  disk := disk
  lh := []
  outstanding := 0
  committing := false
  proc := fun q =>
    { pc := if q = p₀ then .log (.readHead .entry) else .out, held := [], dirty := [], call := .idle }
  booting := true
  panicked := none

end Xv6.Kernel.BlockLayer
