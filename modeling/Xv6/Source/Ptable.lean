import Xv6.Source.Tables

/-!
# The process table and its locks

kernel/proc.c over any number of CPUs, with the spin-locks of kernel/spinlock.c. A thread is
the scheduler of a CPU, the kernel side of a process, a timer interrupt that makes a process
yield, or the interrupt handler of a CPU. A process moves while a CPU has its context loaded,
and the scheduler while its CPU has no process loaded; locks belong to the CPU, so that they
pass from one thread to the other at `swtch`. Interrupts fall at any point at which the CPU
holds no lock, and stop the thread they interrupt. Each access to shared data is a step. Files
and memory are left out: that they run out is an argument of the calls. Loops that can go
round for ever are bounded by `rounds`, for which any number can be chosen.
-/
namespace Xv6.Source.Ptable

open Xv6.Library.Thread
open Xv6.Source.Tables (NPROC)

abbrev Slot := Fin NPROC

/-- `initproc`, the slot that `userinit` takes. -/
def init : Slot := 0

inductive ProcState where
  | unused
  | used
  | sleeping
  | runnable
  | running
  | zombie
  deriving DecidableEq

/-- Sleep channels: none, a process, or any other address. -/
inductive Chan where
  | null
  | proc (p : Slot)
  | other (n : Nat)
  deriving DecidableEq

/-- Spin-locks: `p->lock`, `wait_lock`, `pid_lock`, and those of the rest of the kernel. -/
inductive Lock where
  | proc (p : Slot)
  | wait
  | pid
  | other (n : Nat)
  deriving DecidableEq

/-- `p->context`: it is in use on a CPU, it was saved by `swtch`, or `allocproc` made it. -/
inductive Ctx where
  | gone
  | saved
  | forkret
  deriving DecidableEq

section
variable (Cpu : Type)

inductive Thread where
  | sched (c : Cpu)
  | proc (p : Slot)
  /-- The timer interrupt of a process. -/
  | trap (p : Slot)
  /-- The handler of device interrupts. -/
  | irq (c : Cpu)
  deriving DecidableEq

structure State where
  /-- The CPU that holds a lock. -/
  lock : Lock → Option Cpu
  /-- How many locks a CPU holds. -/
  noff : Cpu → Nat
  state : Slot → ProcState
  chan : Slot → Chan
  killed : Slot → Bool
  xstate : Slot → Int32
  pid : Slot → Int32
  parent : Slot → Option Slot
  nextpid : Int32
  /-- `c->proc` -/
  cproc : Cpu → Option Slot
  -- the process whose context a CPU has loaded, and where that of a process is loaded
  on : Cpu → Option Slot
  loc : Slot → Option Cpu
  ctx : Slot → Ctx
  /-- The process has been switched to and is about to run `forkret`. -/
  fresh : Slot → Bool
  -- whether a process is in a timer interrupt, and a CPU in a device interrupt
  trapped : Slot → Bool
  intr : Cpu → Bool
  -- recorded for statements about whole runs: pid and status of an exited process that has not
  -- been reaped; how often a process has released its lock in `sleep`; for each thread how
  -- often that was when its last `wakeup` began, and for each channel, when the latest `wakeup`
  -- that is over began; and for each thread the pid that its running `kill` names, with the
  -- number of processes it has marked
  exited : Slot → Option (Int32 × Int32)
  sleeps : Slot → Nat
  begun : Thread Cpu → Slot → Nat
  woken : Slot → Chan → Nat
  kills : Thread Cpu → Option (Int32 × Nat)

end

inductive Op where
  | acquire (l : Lock)
  | release (l : Lock)
  /-- `release(lk)` in `sleep(chan, lk)` -/
  | sleepRelease (l : Lock) (chan : Chan)
  | getState (p : Slot)
  | setState (p : Slot) (st : ProcState)
  | setChan (p : Slot) (chan : Chan)
  | getParent (p : Slot)
  | setParent (p : Slot) (q : Option Slot)
  | getPid (p : Slot)
  | setPid (p : Slot) (pid : Int32)
  | getXstate (p : Slot)
  | setXstate (p : Slot) (status : Int32)
  | getKilled (p : Slot)
  | setKilled (p : Slot) (k : Bool)
  /-- `pid = nextpid; nextpid = nextpid + 1` -/
  | nextPid
  /-- `if(p->state == SLEEPING && p->chan == chan) p->state = RUNNABLE` -/
  | rouse (p : Slot) (chan : Chan)
  /-- `p->killed = 1; if(p->state == SLEEPING) p->state = RUNNABLE` in `kill(pid)` -/
  | mark (p : Slot)
  /-- `p->context.ra = forkret` -/
  | makeCtx (p : Slot)
  | setCproc (p : Option Slot)
  /-- `swtch(&c->context, &p->context)` -/
  | swtchTo (p : Slot)
  /-- The checks of `sched`. -/
  | sched
  /-- `swtch(&p->context, &mycpu()->context)` -/
  | swtchOut
  /-- A trap from user space. -/
  | enter
  /-- The first time a process is switched to it runs `forkret`. -/
  | enterForkret
  /-- `panic("zombie exit")`, unless the slot has been given to a new process. -/
  | zombieExit
  /-- `p->state = ZOMBIE` in `exit(status)` -/
  | becomeZombie (status : Int32)
  /-- `wait` has found the process, with this pid and status. -/
  | reap (p : Slot) (pid status : Int32)
  | panic (msg : String)
  | trapBegin
  | trapEnd
  /-- The result is `myproc()`. -/
  | irqBegin
  | irqEnd
  | wakeBegin
  | wakeEnd (chan : Chan)
  | killBegin (pid : Int32)
  | killEnd (result : Int)
  | stuck

@[reducible] def Ret : Op → Type
  | .getState _ => ProcState
  | .getParent _ => Option Slot
  | .getPid _ => Int32
  | .getXstate _ => Int32
  | .getKilled _ => Bool
  | .nextPid => Int32
  | .irqBegin => Option Slot
  | _ => Unit

section machine
variable {Cpu : Type} [DecidableEq Cpu]

/-- The CPU on which a thread can move, if there is one. -/
def hart (s : State Cpu) : Thread Cpu → Option Cpu
  | .sched c => if s.on c = none ∧ s.intr c = false then some c else none
  | .proc p => (s.loc p).filter fun c => !s.trapped p && !s.intr c
  | .trap p => (s.loc p).filter fun c => s.trapped p && !s.intr c
  | .irq c => if s.intr c then some c else none

/-- The process a thread works for. -/
def self : Thread Cpu → Option Slot
  | .proc p => some p
  | .trap p => some p
  | _ => none

/-- `p->state` after a wakeup of a process that sleeps on `chan`. -/
def ProcState.rouse (st : ProcState) (c chan : Chan) : ProcState :=
  if st = .sleeping ∧ c = chan then .runnable else st

/-- What `kill` has recorded once it has marked one more process. -/
def marked : Option (Int32 × Nat) → Option (Int32 × Nat) :=
  Option.map fun k => (k.1, k.2 + 1)

/-- `swtch` loads the context of process `p`. -/
def load (c : Cpu) (p : Slot) (s : State Cpu) : State Cpu :=
  { s with
    on := Function.update s.on c (some p)
    loc := Function.update s.loc p (some c)
    fresh := Function.update s.fresh p (decide (s.ctx p = .forkret))
    ctx := Function.update s.ctx p .gone }

/-- `swtch` saves the context of process `p`. -/
def save (c : Cpu) (p : Slot) (s : State Cpu) : State Cpu :=
  { s with
    on := Function.update s.on c none
    loc := Function.update s.loc p none
    ctx := Function.update s.ctx p .saved }

/-- A step of thread `t` on CPU `c`. -/
def stepOn (t : Thread Cpu) (c : Cpu) : (op : Op) → State Cpu → Outcome (Ret op × State Cpu)
  | .acquire l, s =>
    match s.lock l with
    | none => .ok ((), { s with
        lock := Function.update s.lock l (some c)
        noff := Function.update s.noff c (s.noff c + 1) })
    | some c' => if c' = c then .panic "acquire" else .blocked
  | .release l, s =>
    if s.lock l = some c then .ok ((), { s with
        lock := Function.update s.lock l none
        noff := Function.update s.noff c (s.noff c - 1) })
    else .panic "release"
  | .sleepRelease l _, s =>
    match self t with
    | some p =>
      if s.lock l = some c then .ok ((), { s with
          lock := Function.update s.lock l none
          noff := Function.update s.noff c (s.noff c - 1)
          sleeps := Function.update s.sleeps p (s.sleeps p + 1) })
      else .panic "release"
    | none => .blocked
  | .getState p, s => .ok (s.state p, s)
  | .setState p st, s => .ok ((), { s with state := Function.update s.state p st })
  | .setChan p chan, s => .ok ((), { s with chan := Function.update s.chan p chan })
  | .getParent p, s => .ok (s.parent p, s)
  | .setParent p q, s => .ok ((), { s with parent := Function.update s.parent p q })
  | .getPid p, s => .ok (s.pid p, s)
  | .setPid p pid, s => .ok ((), { s with pid := Function.update s.pid p pid })
  | .getXstate p, s => .ok (s.xstate p, s)
  | .setXstate p status, s => .ok ((), { s with xstate := Function.update s.xstate p status })
  | .getKilled p, s => .ok (s.killed p, s)
  | .setKilled p k, s => .ok ((), { s with killed := Function.update s.killed p k })
  | .nextPid, s => .ok (s.nextpid, { s with nextpid := s.nextpid + 1 })
  | .rouse p chan, s =>
    .ok ((), { s with state := Function.update s.state p ((s.state p).rouse (s.chan p) chan) })
  | .mark p, s => .ok ((), { s with
      killed := Function.update s.killed p true
      state := Function.update s.state p ((s.state p).rouse (s.chan p) (s.chan p))
      kills := Function.update s.kills t (marked (s.kills t)) })
  | .makeCtx p, s => .ok ((), { s with ctx := Function.update s.ctx p .forkret })
  | .setCproc p, s => .ok ((), { s with cproc := Function.update s.cproc c p })
  | .swtchTo p, s =>
    if s.ctx p = .gone then .panic "context" else .ok ((), load c p s)
  | .sched, s =>
    match self t with
    | some p =>
      if s.lock (.proc p) ≠ some c then .panic "sched p->lock"
      else if s.noff c ≠ 1 then .panic "sched locks"
      else if s.state p = .running then .panic "sched running"
      else .ok ((), s)
    | none => .blocked
  | .swtchOut, s =>
    match self t with
    | some p => .ok ((), save c p s)
    | none => .blocked
  | .enter, s =>
    match self t with
    | some p => if s.fresh p then .blocked else .ok ((), s)
    | none => .blocked
  | .enterForkret, s =>
    match self t with
    | some p =>
      if s.fresh p then .ok ((), { s with fresh := Function.update s.fresh p false }) else .blocked
    | none => .blocked
  | .zombieExit, s =>
    match self t with
    | some p => if s.fresh p then .ok ((), s) else .panic "zombie exit"
    | none => .blocked
  | .becomeZombie status, s =>
    match self t with
    | some p => .ok ((), { s with
        state := Function.update s.state p .zombie
        exited := Function.update s.exited p (some (s.pid p, status)) })
    | none => .blocked
  | .reap p _ _, s => .ok ((), { s with exited := Function.update s.exited p none })
  | .panic msg, _ => .panic msg
  | .trapBegin, _ => .blocked
  | .trapEnd, s =>
    match self t with
    | some p => .ok ((), { s with trapped := Function.update s.trapped p false })
    | none => .blocked
  | .irqBegin, _ => .blocked
  | .irqEnd, s => .ok ((), { s with intr := Function.update s.intr c false })
  | .wakeBegin, s => .ok ((), { s with begun := Function.update s.begun t s.sleeps })
  | .wakeEnd chan, s => .ok ((), { s with
      woken := fun p ch => if ch = chan then max (s.begun t p) (s.woken p ch) else s.woken p ch })
  | .killBegin pid, s => .ok ((), { s with kills := Function.update s.kills t (some (pid, 0)) })
  | .killEnd _, s => .ok ((), { s with kills := Function.update s.kills t none })
  | .stuck, _ => .blocked

/-- A timer interrupt begins on a CPU that runs the process and holds no lock. -/
def beginTrap (p : Slot) (s : State Cpu) : Outcome (Unit × State Cpu) :=
  match s.loc p with
  | some c =>
    if s.noff c = 0 ∧ s.trapped p = false ∧ s.intr c = false then
      .ok ((), { s with trapped := Function.update s.trapped p true })
    else .blocked
  | none => .blocked

/-- A device interrupt begins on a CPU that holds no lock. -/
def beginIrq (c : Cpu) (s : State Cpu) : Outcome (Option Slot × State Cpu) :=
  if s.noff c = 0 ∧ s.intr c = false then
    .ok (s.cproc c, { s with intr := Function.update s.intr c true })
  else .blocked

def perform (t : Thread Cpu) (op : Op) (s : State Cpu) : Outcome (Ret op × State Cpu) :=
  match t, op with
  | .trap p, .trapBegin => beginTrap p s
  | .irq c, .irqBegin => beginIrq c s
  | t, op =>
    match hart s t with
    | some c => stepOn t c op s
    | none => .blocked

end machine

abbrev Code := Prog Op Ret

def act (op : Op) : Code (Ret op) := Prog.op op

/-! ## kernel/proc.c -/

/-- `sched()`, up to the return of its `swtch`. -/
def sched : Code Unit := do
  act .sched
  act .swtchOut

/-- `yield()` of process `me`. -/
def yield (me : Slot) : Code Unit := do
  act (.acquire (.proc me))
  act (.setState me .runnable)
  sched
  act (.release (.proc me))

def sleep (me : Slot) (chan : Chan) (lk : Lock) : Code Unit := do
  act (.acquire (.proc me))
  act (.sleepRelease lk chan)
  act (.setChan me chan)
  act (.setState me .sleeping)
  sched
  act (.setChan me .null)
  act (.release (.proc me))
  act (.acquire lk)

/-- The body of the loop of `wakeup(chan)`; `me` is `myproc()`. -/
def wakeupOne (me : Option Slot) (chan : Chan) (p : Slot) : Code Unit :=
  if some p ≠ me then do
    act (.acquire (.proc p))
    act (.rouse p chan)
    act (.release (.proc p))
  else pure ()

def wakeupLoop (me : Option Slot) (chan : Chan) : List Slot → Code Unit
  | [] => pure ()
  | p :: ps => do
    wakeupOne me chan p
    wakeupLoop me chan ps

def wakeup (me : Option Slot) (chan : Chan) : Code Unit := do
  act .wakeBegin
  wakeupLoop me chan (List.finRange NPROC)
  act (.wakeEnd chan)

def killLoop (pid : Int32) : List Slot → Code Int
  | [] => pure (-1)
  | p :: ps => do
    act (.acquire (.proc p))
    let q ← act (.getPid p)
    if q = pid then
      act (.mark p)
      act (.release (.proc p))
      pure 0
    else
      act (.release (.proc p))
      killLoop pid ps

def kill (pid : Int32) : Code Int := do
  act (.killBegin pid)
  let r ← killLoop pid (List.finRange NPROC)
  act (.killEnd r)
  pure r

def setkilled (p : Slot) : Code Unit := do
  act (.acquire (.proc p))
  act (.setKilled p true)
  act (.release (.proc p))

def killed (p : Slot) : Code Bool := do
  act (.acquire (.proc p))
  let k ← act (.getKilled p)
  act (.release (.proc p))
  pure k

def allocpid : Code Int32 := do
  act (.acquire .pid)
  let pid ← act .nextPid
  act (.release .pid)
  pure pid

/-- `freeproc(p)`, without its memory. -/
def freeproc (p : Slot) : Code Unit := do
  act (.setPid p 0)
  act (.setParent p none)
  act (.setChan p .null)
  act (.setKilled p false)
  act (.setXstate p 0)
  act (.setState p .unused)

/-- `allocproc()` from slot `p` on; `memory` says whether the allocations succeed. -/
def allocLoop (memory : Bool) : List Slot → Code (Option Slot)
  | [] => pure none
  | p :: ps => do
    act (.acquire (.proc p))
    let st ← act (.getState p)
    if st = .unused then
      let pid ← allocpid
      act (.setPid p pid)
      act (.setState p .used)
      if memory then
        act (.makeCtx p)
        pure (some p)
      else
        freeproc p
        act (.release (.proc p))
        pure none
    else
      act (.release (.proc p))
      allocLoop memory ps

def allocproc (memory : Bool) : Code (Option Slot) := allocLoop memory (List.finRange NPROC)

/-- `fork()`; `memory` and `copied` say whether `allocproc` and `uvmcopy` find memory. -/
def fork (me : Slot) (memory copied : Bool) : Code Int := do
  match ← allocproc memory with
  | none => pure (-1)
  | some np =>
    if copied then
      let pid ← act (.getPid np)
      act (.release (.proc np))
      act (.acquire .wait)
      act (.setParent np (some me))
      act (.release .wait)
      act (.acquire (.proc np))
      act (.setState np .runnable)
      act (.release (.proc np))
      pure pid.toInt
    else
      freeproc np
      act (.release (.proc np))
      pure (-1)

/-- `pp->parent = initproc; wakeup(initproc)` for a child of `me`. -/
def adopt (me p : Slot) (q : Option Slot) : Code Unit :=
  if q = some me then do
    act (.setParent p (some init))
    wakeup (some me) (.proc init)
  else pure ()

def reparentLoop (me : Slot) : List Slot → Code Unit
  | [] => pure ()
  | p :: ps => do
    let q ← act (.getParent p)
    adopt me p q
    reparentLoop me ps

/-- `reparent(p)` of the calling process. -/
def reparent (me : Slot) : Code Unit := reparentLoop me (List.finRange NPROC)

/-- A forked child's first steps in the kernel. -/
def forkret (me : Slot) : Code Unit := do
  act .enterForkret
  act (.release (.proc me))

/-- `wakeup(p->parent)` -/
def parentChan : Option Slot → Chan
  | some p => .proc p
  | none => .null

/-- `if(p == initproc) panic("init exiting")` -/
def checkInit (me : Slot) : Code Unit :=
  if me = init then act (.panic "init exiting") else pure ()

/-- `exit(status)`, without its files. The kernel stack is used again by `forkret` of
the next process in the slot. -/
def exit (me : Slot) (status : Int32) : Code Unit := do
  checkInit me
  act (.acquire .wait)
  reparent me
  let q ← act (.getParent me)
  wakeup (some me) (parentChan q)
  act (.acquire (.proc me))
  act (.setXstate me status)
  act (.becomeZombie status)
  act (.release .wait)
  sched
  act .zombieExit
  forkret me

/-- The inner loop of `wait`: what it returns, or whether there are children. `copied` says
whether `copyout` of the status succeeds. -/
def waitScan (me : Slot) (copied : Bool) : List Slot → Bool → Code (Int ⊕ Bool)
  | [], havekids => pure (.inr havekids)
  | p :: ps, havekids => do
    let q ← act (.getParent p)
    if q = some me then
      act (.acquire (.proc p))
      let st ← act (.getState p)
      if st = .zombie then
        let pid ← act (.getPid p)
        if copied then
          let status ← act (.getXstate p)
          act (.reap p pid status)
          freeproc p
          act (.release (.proc p))
          act (.release .wait)
          pure (.inl pid.toInt)
        else
          act (.release (.proc p))
          act (.release .wait)
          pure (.inl (-1))
      else
        act (.release (.proc p))
        waitScan me copied ps true
    else waitScan me copied ps havekids

def waitLoop (me : Slot) (copied : Bool) : Nat → Code Int
  | 0 => do
    act .stuck
    pure 0
  | rounds + 1 => do
    match ← waitScan me copied (List.finRange NPROC) false with
    | .inl r => pure r
    | .inr havekids =>
      let k ← killed me
      if !havekids || k then
        act (.release .wait)
        pure (-1)
      else
        sleep me (.proc me) .wait
        waitLoop me copied rounds

def wait (me : Slot) (copied : Bool) (rounds : Nat) : Code Int := do
  act (.acquire .wait)
  waitLoop me copied rounds

/-- The scheduler runs a process that it has found in state `st`. -/
def dispatch (p : Slot) (st : ProcState) : Code Unit :=
  if st = .runnable then do
    act (.setState p .running)
    act (.setCproc (some p))
    act (.swtchTo p)
    act (.setCproc none)
  else pure ()

def schedulerLoop : List Slot → Code Unit
  | [] => pure ()
  | p :: ps => do
    act (.acquire (.proc p))
    let st ← act (.getState p)
    dispatch p st
    act (.release (.proc p))
    schedulerLoop ps

/-- One pass of the scheduler over the table. -/
def scheduler : Code Unit := schedulerLoop (List.finRange NPROC)

/-! ## The rest of the kernel -/

/-- What other kernel code does with spin-locks and sleep channels of its own. -/
inductive Action where
  | acquire (n : Nat)
  | release (n : Nat)
  | sleep (chan lk : Nat)
  | wakeup (chan : Nat)

/-- The locks held after the actions, from those held before; each release and each sleep is of a
lock that is held. -/
def heldAfter : List Action → List Nat → Option (List Nat)
  | [], ls => some ls
  | .acquire n :: as, ls => heldAfter as (n :: ls)
  | .release n :: as, ls => if n ∈ ls then heldAfter as (ls.erase n) else none
  | .sleep _ lk :: as, ls => if lk ∈ ls then heldAfter as ls else none
  | .wakeup _ :: as, ls => heldAfter as ls

/-- Code that a process runs in the kernel. -/
def kernel (me : Slot) : List Action → Code Unit
  | [] => pure ()
  | .acquire n :: as => do
    act (.acquire (.other n))
    kernel me as
  | .release n :: as => do
    act (.release (.other n))
    kernel me as
  | .sleep chan lk :: as => do
    sleep me (.other chan) (.other lk)
    kernel me as
  | .wakeup chan :: as => do
    wakeup (some me) (.other chan)
    kernel me as

/-- What a device handler does, on top of process `me` if there is one. It does not sleep. -/
def handle (me : Option Slot) : List Action → Code Unit
  | [] => pure ()
  | .acquire n :: as => do
    act (.acquire (.other n))
    handle me as
  | .release n :: as => do
    act (.release (.other n))
    handle me as
  | .sleep _ _ :: as => handle me as
  | .wakeup chan :: as => do
    wakeup me (.other chan)
    handle me as

def handler (as : List Action) : Code Unit := do
  let me ← act .irqBegin
  handle me as
  act .irqEnd

/-- A timer interrupt: `yield` on top of what the process is doing. -/
def timer (me : Slot) : Code Unit := do
  act .trapBegin
  yield me
  act .trapEnd

/-- What a process does after a trap from user space. -/
inductive Call where
  | fork (memory copied : Bool)
  | exit (status : Int32)
  | wait (copied : Bool) (rounds : Nat)
  | kill (pid : Int32)
  /-- A fault: `setkilled(p)`. -/
  | fault
  | killed
  /-- Other kernel code, which gives back the locks it takes. -/
  | kernel (as : List Action) (balanced : heldAfter as [] = some [])

def Call.code (me : Slot) : Call → Code Unit
  | .fork memory copied => do
    let _ ← Ptable.fork me memory copied
  | .exit status => Ptable.exit me status
  | .wait copied rounds => do
    let _ ← Ptable.wait me copied rounds
  | .kill pid => do
    let _ ← Ptable.kill pid
  | .fault => setkilled me
  | .killed => do
    let _ ← Ptable.killed me
  | .kernel as _ => Ptable.kernel me as

/-- What a thread can start to do. -/
inductive Starts {Cpu : Type} : Thread Cpu → Code Unit → Prop
  | scheduler (c : Cpu) : Starts (.sched c) scheduler
  | forkret (p : Slot) : Starts (.proc p) (forkret p)
  | call (p : Slot) (call : Call) : Starts (.proc p) (do act .enter; call.code p)
  | timer (p : Slot) : Starts (.trap p) (timer p)
  | handler (c : Cpu) (as : List Action) (balanced : heldAfter as [] = some []) :
      Starts (.irq c) (handler as)

/-- The table after `userinit`: the first process is ready to run. -/
def boot (Cpu : Type) : State Cpu where
  lock _ := none
  noff _ := 0
  state p := if p = init then .runnable else .unused
  chan _ := .null
  killed _ := false
  xstate _ := 0
  pid p := if p = init then 1 else 0
  parent _ := none
  nextpid := 2
  cproc _ := none
  on _ := none
  loc _ := none
  ctx p := if p = init then .forkret else .gone
  fresh _ := false
  trapped _ := false
  intr _ := false
  exited _ := none
  sleeps _ := 0
  begun _ _ := 0
  woken _ _ := 0
  kills _ := none

end Xv6.Source.Ptable
