import Xv6.Source.Ptable

/-!
# What the threads know of the process table

A thread knows the locks it holds, or will hold once it runs again, and at which stage of its
work it is with the one process whose lock is among them. The stage says what the entry of
that process looks like; an entry whose lock is free is at rest. A thread that has called
`swtch` has written down the stage in which it will find its own entry.
-/
namespace Xv6.Ptable

open Xv6.Library Xv6.Source.Ptable

/-- Where a thread is in its work with a process whose lock it holds. -/
inductive Stage where
  /-- It has only the lock. -/
  | held
  /-- `kill` has found this pid. -/
  | named (pid : Int32)
  -- the scheduler: the process is runnable; it has been made running; `c->proc` is set; it has
  -- come back
  | chose
  | set
  | armed
  | back
  -- the process itself: it is running; in `sleep`, without the other lock; in `exit`, with its
  -- status stored; no longer running
  | mine
  | bound (chan : Chan) (stored : Bool)
  | dying (status : Int32)
  | leaving (st : ProcState)
  -- `allocproc` and `fork`: the entry is unused; it has a pid; it is in use; it has a context
  | free
  | numbered
  | new
  | kept
  -- `wait`: the process is a zombie; `freeproc` has made so many of its writes
  | dead (pid status : Option Int32)
  | freeing (st : ProcState) (writes : Nat)
  deriving DecidableEq

/-- The locks of a thread, and its work. -/
structure Hold where
  locks : List Lock := []
  work : Option (Slot × Stage) := none

/-- What a process finds when it is switched to. -/
def Hold.resume (p : Slot) : Hold := ⟨[.proc p], some (p, .mine)⟩

/-- What a scheduler finds when its process has called `swtch`. -/
def Hold.returned (p : Slot) : Hold := ⟨[.proc p], some (p, .back)⟩

structure Local extends Hold where
  /-- The process has run `forkret` and has not exited. -/
  alive : Bool := false
  /-- The process that a device interrupt has stopped. -/
  me : Option Slot := none
  /-- `wakeup`: the channel, and the processes it has seen to. -/
  wake : Option (Chan × List Slot) := none
  /-- `kill`: its argument, and how many processes it has marked. -/
  call : Option (Int32 × Nat) := none
  /-- `fork`: the new process, and whether it has its parent. -/
  child : Option (Slot × Bool) := none
  -- for as long as `wait_lock` is held: the parent of the process, and a child; a process that
  -- does not wait; whether init has to be woken; entries that are no zombie child, and no child
  parent : Option (Option Slot) := none
  kid : Option Slot := none
  awake : Option Slot := none
  debt : Bool := false
  seen : List Slot := []
  cleared : List Slot := []

abbrev Ghost (Cpu : Type) := Thread Cpu → Local

section views
variable {Cpu : Type}

/-- The thread that a CPU runs unless it is in a device interrupt. -/
def base (s : State Cpu) (c : Cpu) : Thread Cpu :=
  match s.on c with
  | none => .sched c
  | some p => if s.trapped p then .trap p else .proc p

/-- The thread that a CPU runs. -/
def top (s : State Cpu) (c : Cpu) : Thread Cpu :=
  if s.intr c then .irq c else base s c

/-- What the CPU holds: what its thread holds, or its new process before `forkret`. -/
def holds (s : State Cpu) (g : Ghost Cpu) (c : Cpu) : Hold :=
  match s.on c with
  | none => (g (top s c)).toHold
  | some p => if s.fresh p then .resume p else (g (top s c)).toHold

/-- An entry of the table, with what its threads know while it is loaded nowhere. -/
structure View (Cpu : Type) where
  state : ProcState
  chan : Chan
  killed : Bool
  xstate : Int32
  pid : Int32
  linked : Bool
  ctx : Ctx
  loc : Option Cpu
  trapped : Bool
  exited : Option (Int32 × Int32)
  parked : Option (Local × Local)

def view (s : State Cpu) (g : Ghost Cpu) (p : Slot) : View Cpu where
  state := s.state p
  chan := s.chan p
  killed := s.killed p
  xstate := s.xstate p
  pid := s.pid p
  linked := (s.parent p).isSome
  ctx := s.ctx p
  loc := s.loc p
  trapped := s.trapped p
  exited := s.exited p
  parked := if s.loc p = none then some (g (.proc p), g (.trap p)) else none

/-- The process has called `swtch` and will go on from there. -/
def View.Resumable (v : View Cpu) (p : Slot) : Prop :=
  v.loc = none ∧ v.ctx = .saved ∧ ∃ ℓ ℓ' : Local, v.parked = some (ℓ, ℓ') ∧ ℓ.alive = true ∧
    (v.trapped = false → ℓ.toHold = .resume p) ∧
    (v.trapped = true → ℓ.toHold = {} ∧ ℓ'.toHold = .resume p)

/-- No process uses the kernel stack of the entry. -/
def View.Vacant (v : View Cpu) : Prop :=
  v.loc = none ∧ v.trapped = false ∧ ∃ ℓ ℓ' : Local, v.parked = some (ℓ, ℓ') ∧
    ℓ.alive = false ∧ ℓ.toHold = {}

def View.Unborn (v : View Cpu) : Prop := v.Vacant ∧ v.ctx = .forkret

def View.Ready (v : View Cpu) (p : Slot) : Prop := v.Resumable p ∨ v.Unborn

def View.Loaded (v : View Cpu) (c : Cpu) : Prop := v.loc = some c ∧ v.ctx = .gone

/-- A process that runs, has run or is about to run has a parent, and has not exited. -/
def View.Living (v : View Cpu) (p : Slot) : Prop :=
  v.exited = none ∧ (p ≠ init → v.linked = true)

def View.Exited (v : View Cpu) (p : Slot) : Prop :=
  v.exited = some (v.pid, v.xstate) ∧ (p ≠ init → v.linked = true)

/-- An entry whose lock is free. With `strict`, `kill` is never called with pid 0. -/
def View.Rest (strict : Prop) (v : View Cpu) (p : Slot) : Prop :=
  match v.state with
  | .unused => v.Vacant ∧ v.exited = none ∧ v.linked = false ∧ v.pid = 0 ∧ (strict → v.killed = false)
  | .used => v.Unborn ∧ v.exited = none
  | .runnable => v.Ready p ∧ v.Living p
  | .sleeping => v.Resumable p ∧ v.Living p
  | .running => (∃ c, v.Loaded c) ∧ v.Living p
  | .zombie => v.Vacant ∧ v.Exited p

/-- The process runs on the CPU that holds its lock. -/
def View.Mine (v : View Cpu) (p : Slot) (c : Cpu) : Prop :=
  v.state = .running ∧ v.Loaded c ∧ v.Living p

/-- What an entry looks like when CPU `c` holds its lock. -/
def View.Shape (strict : Prop) (v : View Cpu) (p : Slot) (c : Cpu) : Stage → Prop
  | .held => v.Rest strict p
  | .named pid => v.Rest strict p ∧ v.pid = pid
  | .chose => v.state = .runnable ∧ v.Rest strict p
  | .set => v.state = .running ∧ v.Ready p ∧ v.Living p
  | .armed => v.state = .running ∧ v.Ready p ∧ v.Living p
  | .back => v.state ≠ .running ∧ v.Rest strict p
  | .mine => v.Mine p c
  | .bound chan stored => v.Mine p c ∧ (stored = true → v.chan = chan)
  | .dying status => v.Mine p c ∧ v.xstate = status
  | .leaving st => v.Loaded c ∧ v.state = st ∧
      ((st = .runnable ∨ st = .sleeping) ∧ v.Living p ∨ st = .zombie ∧ v.Exited p)
  | .free => v.state = .unused ∧ v.Rest strict p
  | .numbered => v.state = .unused ∧ v.Vacant ∧ v.exited = none ∧ v.linked = false ∧
      (strict → v.killed = false)
  | .new => v.state = .used ∧ v.Vacant ∧ v.exited = none
  | .kept => v.state = .used ∧ v.Unborn ∧ v.exited = none
  | .dead pid status => v.state = .zombie ∧ v.Rest strict p ∧
      (∀ x, pid = some x → v.pid = x) ∧ ∀ x, status = some x → v.xstate = x
  | .freeing st n => v.state = st ∧ (st = .used ∨ st = .zombie) ∧ v.Vacant ∧ v.exited = none ∧
      (1 ≤ n → v.pid = 0) ∧ (2 ≤ n → st = .zombie → v.linked = false) ∧ (4 ≤ n → v.killed = false)

/-- The entry of a process, by who holds its lock. -/
def Entry (strict : Prop) (s : State Cpu) (g : Ghost Cpu) (p : Slot) : Prop :=
  match s.lock (.proc p) with
  | none => (view s g p).Rest strict p
  | some c => ∃ st, (holds s g c).work = some (p, st) ∧ (view s g p).Shape strict p c st

/-- What `c->proc` is, from the work of the scheduler. -/
def assigned : Option (Slot × Stage) → Option Slot
  | some (p, .armed) => some p
  | some (p, .back) => some p
  | _ => none

/-- Which contexts are loaded, and that the threads that do not run have nothing but what they
will find. -/
structure Switching (s : State Cpu) (g : Ghost Cpu) : Prop where
  loaded : ∀ c p, s.on c = some p ↔ s.loc p = some c
  away : ∀ c p, s.on c = some p → (g (.sched c)).toHold = .returned p
  alive : ∀ c p, s.on c = some p → (s.fresh p = true ↔ (g (.proc p)).alive = false)
  fresh : ∀ c p, s.on c = some p → s.fresh p = true →
    s.trapped p = false ∧ s.intr c = false ∧ (g (.proc p)).toHold = {}
  trapped : ∀ c p, s.on c = some p → s.trapped p = true → (g (.proc p)).toHold = {}
  untrapped : ∀ p, s.trapped p = false → (g (.trap p)).toHold = {}
  stopped : ∀ c, s.intr c = true → (g (base s c)).toHold = {} ∧ (g (.irq c)).me = s.on c
  calm : ∀ c, s.intr c = false → (g (.irq c)).toHold = {}
  assigned : ∀ c, s.cproc c = assigned (g (.sched c)).work

/-- The locks of each CPU. -/
structure Locks (s : State Cpu) (g : Ghost Cpu) : Prop where
  lock : ∀ c l, s.lock l = some c ↔ l ∈ (holds s g c).locks
  noff : ∀ c, s.noff c = (holds s g c).locks.length
  nodup : ∀ c, (holds s g c).locks.Nodup
  work : ∀ c p, .proc p ∈ (holds s g c).locks ↔ ∃ st, (holds s g c).work = some (p, st)

structure Core (strict : Prop) (s : State Cpu) (g : Ghost Cpu) : Prop where
  switching : Switching s g
  locks : Locks s g
  entry : ∀ p, Entry strict s g p

/-- The process sleeps on the channel, or is in `sleep` and will. -/
def Pending (s : State Cpu) (g : Ghost Cpu) (p : Slot) (chan : Chan) : Prop :=
  s.state p = .sleeping ∧ s.chan p = chan ∨ ∃ stored, (g (.proc p)).work = some (p, .bound chan stored)

end views

end Xv6.Ptable
