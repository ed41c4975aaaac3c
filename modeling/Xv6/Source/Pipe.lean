import Xv6.Library.Fifo
import Xv6.Source.Tables

/-!
# Pipes, sleeping and waking

kernel/pipe.c, with `sleep`, `wakeup`, `kill` and `killed` of kernel/proc.c as far as the
users of one pipe see them. A thread is a process in the kernel, on any CPU. Each access to
shared data is a step, the locks are explicit, and a process that has switched away with
state SLEEPING goes on when another process has made it RUNNABLE again; RUNNABLE and
RUNNING are not told apart. A loop that can go round for ever is bounded by `rounds`, for
which any number can be chosen. The page of the pipe is not freed when both ends are closed.
-/
namespace Xv6.Source.Pipe

open Xv6.Library.Thread Xv6.Library
open Xv6.Source.Tables (NPROC)

def PIPESIZE : Nat := 512

instance : NeZero PIPESIZE := ⟨by decide⟩

abbrev Slot := Fin NPROC

/-- `&pi->nread` and `&pi->nwrite` as sleep channels. -/
inductive Chan where
  | nread
  | nwrite
  deriving DecidableEq

inductive ProcState where
  | runnable
  | sleeping (chan : Chan)
  deriving DecidableEq

/-- The counters and flags of a `struct pipe`. -/
structure Fields where
  nread : BitVec 32
  nwrite : BitVec 32
  readopen : Bool
  writeopen : Bool
  deriving DecidableEq

/-- A byte that a call of `pipewrite` has put into the pipe: the number of the call, the
position of the byte in what the call writes, and the byte. -/
structure Stored where
  call : Nat
  pos : Nat
  byte : UInt8
  deriving DecidableEq

structure State where
  /-- `pi->lock`, and `p->lock` of each process, with the process that holds it. -/
  lock : Option Slot
  plock : Slot → Option Slot
  fields : Fields
  data : Fin PIPESIZE → UInt8
  state : Slot → ProcState
  killed : Slot → Bool
  pid : Slot → Int
  -- recorded for statements about whole runs: what the calls of `pipewrite` write, the bytes
  -- they have stored and those that calls of `piperead` have returned, and which process has
  -- stored bytes since its last `wakeup(&pi->nread)`
  calls : List (Nat → Option UInt8)
  accepted : List Stored
  returned : List UInt8
  unsaid : Slot → Bool

inductive Op where
  | acquire
  | release
  | acquireProc (p : Slot)
  | releaseProc (p : Slot)
  | peek
  /-- A call of `pipewrite` begins; the result is its number. -/
  | begin (src : Nat → Option UInt8)
  /-- `pi->data[pi->nwrite++ % PIPESIZE] = ch` -/
  | put (call pos : Nat) (ch : UInt8)
  /-- `pi->data[pi->nread++ % PIPESIZE]` -/
  | take
  /-- `wakeup(&pi->nread)` in `pipewrite` is done. -/
  | said
  /-- `piperead` is about to return these bytes. -/
  | report (n : Int) (got : List UInt8)
  | close (writable : Bool)
  | pid (p : Slot)
  | getKilled (p : Slot)
  | setKilled (p : Slot)
  /-- `if(p->state == SLEEPING && p->chan == chan) p->state = RUNNABLE` -/
  | rouse (p : Slot) (chan : Chan)
  /-- `if(p->state == SLEEPING) p->state = RUNNABLE` -/
  | rouseAny (p : Slot)
  /-- `p->chan = chan; p->state = SLEEPING` -/
  | doze (chan : Chan)
  /-- The scheduler releases the lock of a process that has switched away. -/
  | swtchOut
  /-- The scheduler switches to a RUNNABLE process, with its lock acquired. -/
  | swtchIn
  /-- A loop is cut off here. -/
  | stuck

@[reducible] def Ret : Op → Type
  | .peek => Fields
  | .begin _ => Nat
  | .take => UInt8
  | .pid _ => Int
  | .getKilled _ => Bool
  | _ => Unit

/-- `p->state` after a wakeup on `chan`. -/
def ProcState.rouse (chan : Chan) : ProcState → ProcState
  | .sleeping c => if c = chan then .runnable else .sleeping c
  | .runnable => .runnable

def perform (t : Slot) : (op : Op) → State → Outcome (Ret op × State)
  | .acquire, s =>
    match s.lock with
    | none => .ok ((), { s with lock := some t })
    | some u => if u = t then .panic "acquire" else .blocked
  | .release, s => if s.lock = some t then .ok ((), { s with lock := none }) else .panic "release"
  | .acquireProc p, s =>
    match s.plock p with
    | none => .ok ((), { s with plock := Function.update s.plock p (some t) })
    | some u => if u = t then .panic "acquire" else .blocked
  | .releaseProc p, s =>
    if s.plock p = some t then .ok ((), { s with plock := Function.update s.plock p none })
    else .panic "release"
  | .peek, s => .ok (s.fields, s)
  | .begin src, s => .ok (s.calls.length, { s with calls := s.calls ++ [src] })
  | .put call pos ch, s => .ok ((), { s with
      data := Function.update s.data (Fifo.cell PIPESIZE s.fields.nwrite) ch
      fields := { s.fields with nwrite := s.fields.nwrite + 1 }
      accepted := s.accepted ++ [⟨call, pos, ch⟩]
      unsaid := Function.update s.unsaid t true })
  | .take, s => .ok (s.data (Fifo.cell PIPESIZE s.fields.nread),
      { s with fields := { s.fields with nread := s.fields.nread + 1 } })
  | .said, s => .ok ((), { s with unsaid := Function.update s.unsaid t false })
  | .report _ got, s => .ok ((), { s with returned := s.returned ++ got })
  | .close writable, s => .ok ((), { s with fields :=
      if writable then { s.fields with writeopen := false }
      else { s.fields with readopen := false } })
  | .pid p, s => .ok (s.pid p, s)
  | .getKilled p, s => .ok (s.killed p, s)
  | .setKilled p, s => .ok ((), { s with killed := Function.update s.killed p true })
  | .rouse p chan, s =>
    .ok ((), { s with state := Function.update s.state p ((s.state p).rouse chan) })
  | .rouseAny p, s => .ok ((), { s with state := Function.update s.state p .runnable })
  | .doze chan, s => .ok ((), { s with state := Function.update s.state t (.sleeping chan) })
  | .swtchOut, s =>
    if s.plock t = some t then .ok ((), { s with plock := Function.update s.plock t none })
    else .panic "sched p->lock"
  | .swtchIn, s =>
    if s.state t = .runnable ∧ s.plock t = none then
      .ok ((), { s with plock := Function.update s.plock t (some t) })
    else .blocked
  | .stuck, _ => .blocked

abbrev Code := Prog Op Ret

def act (op : Op) : Code (Ret op) := Prog.op op

/-! ## kernel/proc.c -/

/-- `sleep(chan, &pi->lock)` of process `me`. -/
def sleep (me : Slot) (chan : Chan) : Code Unit := do
  act (.acquireProc me)
  act .release
  act (.doze chan)
  act .swtchOut
  act .swtchIn
  act (.releaseProc me)
  act .acquire

def wakeupLoop (me : Slot) (chan : Chan) : List Slot → Code Unit
  | [] => pure ()
  | p :: ps => do
    if p ≠ me then
      act (.acquireProc p)
      act (.rouse p chan)
      act (.releaseProc p)
    wakeupLoop me chan ps

/-- `wakeup(chan)` called by process `me`. -/
def wakeup (me : Slot) (chan : Chan) : Code Unit := wakeupLoop me chan (List.finRange NPROC)

def killed (p : Slot) : Code Bool := do
  act (.acquireProc p)
  let k ← act (.getKilled p)
  act (.releaseProc p)
  pure k

def killLoop (pid : Int) : List Slot → Code Int
  | [] => pure (-1)
  | p :: ps => do
    act (.acquireProc p)
    let q ← act (.pid p)
    if q = pid then
      act (.setKilled p)
      act (.rouseAny p)
      act (.releaseProc p)
      pure 0
    else
      act (.releaseProc p)
      killLoop pid ps

def kill (pid : Int) : Code Int := killLoop pid (List.finRange NPROC)

/-! ## kernel/pipe.c -/

/-- `kfree` is left out. -/
def pipeclose (me : Slot) (writable : Bool) : Code Int := do
  act .acquire
  act (.close writable)
  wakeup me (if writable then .nread else .nwrite)
  act .release
  pure 0

/-- `pi->readopen == 0 || killed(pr)` -/
def givesUp (me : Slot) (f : Fields) : Code Bool :=
  if f.readopen then killed me else pure true

/-- The loop of `pipewrite`. The byte at `addr + i` is `src i`, if `copyin` can read it.
The result is `none` when the call has returned −1. -/
def writeLoop (me : Slot) (src : Nat → Option UInt8) (n : Int) (call : Nat) :
    Nat → Nat → Code (Option Nat)
  | 0, _ => do
    act .stuck
    pure none
  | rounds + 1, i => do
    if (i : Int) < n then
      let f ← act .peek
      if ← givesUp me f then
        act .release
        pure none
      else if f.nwrite = f.nread + BitVec.ofNat 32 PIPESIZE then
        wakeup me .nread
        act .said
        sleep me .nwrite
        writeLoop me src n call rounds i
      else
        match src i with
        | none => pure (some i)
        | some ch => do
          act (.put call i ch)
          writeLoop me src n call rounds (i + 1)
    else pure (some i)

def pipewrite (me : Slot) (src : Nat → Option UInt8) (n : Int) (rounds : Nat) : Code Int := do
  let call ← act (.begin src)
  act .acquire
  match ← writeLoop me src n call rounds 0 with
  | none => pure (-1)
  | some i => do
    wakeup me .nread
    act .said
    act .release
    pure i

/-- The first loop of `piperead`; the result is false when the call has returned −1. -/
def awaitByte (me : Slot) : Nat → Code Bool
  | 0 => do
    act .stuck
    pure false
  | rounds + 1 => do
    let f ← act .peek
    if f.nread = f.nwrite ∧ f.writeopen = true then
      if ← killed me then
        act .release
        pure false
      else
        sleep me .nread
        awaitByte me rounds
    else pure true

/-- The second loop of `piperead`, `todo` more times: the bytes it has copied out at `addr`
and up, where `room i` says whether `copyout` can write to `addr + i`. -/
def readLoop (room : Nat → Bool) : Nat → List UInt8 → Code (List UInt8)
  | 0, got => pure got
  | todo + 1, got => do
    let f ← act .peek
    if f.nread = f.nwrite then pure got
    else
      let ch ← act .take
      if room got.length then readLoop room todo (got ++ [ch]) else pure got

def piperead (me : Slot) (room : Nat → Bool) (n : Int) (rounds : Nat) : Code Int := do
  act .acquire
  if ← awaitByte me rounds then
    let got ← readLoop room n.toNat []
    act (.report n got)
    wakeup me .nwrite
    act .release
    pure got.length
  else pure (-1)

end Xv6.Source.Pipe
