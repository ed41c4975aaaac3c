import Xv6.Source.Ptable
import Xv6.Source.Vm

/-!
# Processes, their memory and their files

The calls of kernel/proc.c that make processes, with what they need of kernel/file.c, one call at a
time: a call runs alone, so the locks of the kernel are left out. A process has all its fields, memory
is that of `Source.Vm`, and the inode layer is reduced to reference counts, locks of inodes and the
number of operations that are open in the log. A page table that a call changes is written back to its
process. A null pointer that is followed is the fault `wild`.
-/
namespace Xv6.Source.System

open Xv6.Source.Vm (Mem Pagetable Fault PGSIZE)
open Xv6.Source.Ptable (ProcState Chan Slot)
open Xv6.Source.Proc (NOFILE)
open Xv6.Source.Tables (NPROC NFILE)

/-- `struct context`; `s` are s0 to s11. -/
structure Context where
  ra : UInt64
  sp : UInt64
  s : Fin 12 → UInt64

structure Proc where
  state : ProcState
  chan : Chan
  killed : Bool
  xstate : Int32
  pid : Int32
  parent : Option Slot
  kstack : UInt64
  sz : Nat
  pagetable : Option Pagetable
  /-- The physical address of the trapframe. -/
  trapframe : Option Nat
  context : Context
  /-- Open files, as places in the file table. -/
  ofile : Fin NOFILE → Option (Fin NFILE)
  /-- An entry of the inode table. -/
  cwd : Option Nat
  /-- `char name[16]` -/
  name : List UInt8

inductive FileType where
  | none
  | pipe
  | inode
  | device
  deriving DecidableEq

/-- `struct file`, without `off` and `major`, which only reads and writes use. -/
structure File where
  ref : Int
  type : FileType
  readable : Bool
  writable : Bool
  /-- The address of the page that is the pipe. -/
  pipe : Option Nat
  ip : Option Nat

/-- The ends of a pipe. -/
structure Pipe where
  readopen : Bool
  writeopen : Bool

structure Sys where
  mem : Mem
  proc : Slot → Proc
  nextpid : Int32
  file : Fin NFILE → File
  pipe : Nat → Pipe
  /-- `ip->ref` -/
  iref : Nat → Int
  /-- Whether the sleep-lock of an inode is held. -/
  ilocked : Nat → Bool
  /-- `log.outstanding` -/
  outstanding : Int
  /-- The address of `forkret`. -/
  forkret : UInt64

abbrev Prog := StateT Sys (Except Fault)

def panic {α : Type} (msg : String) : Prog α := throw (.panic msg)

/-- Code that works on memory only. -/
def onMem {α : Type} (p : Vm.Prog α) : Prog α := fun s =>
  match p s.mem with
  | .ok (a, m) => .ok (a, { s with mem := m })
  | .error e => .error e

def getProc (p : Slot) : Prog Proc := fun s => .ok (s.proc p, s)

def setProc (p : Slot) (f : Proc → Proc) : Prog Unit := fun s =>
  .ok ((), { s with proc := Function.update s.proc p (f (s.proc p)) })

def getFile (f : Fin NFILE) : Prog File := fun s => .ok (s.file f, s)

def setFile (f : Fin NFILE) (g : File → File) : Prog Unit := fun s =>
  .ok ((), { s with file := Function.update s.file f (g (s.file f)) })

/-- A pointer that is followed. -/
def deref {α : Type} : Option α → Prog α
  | none => throw .wild
  | some a => pure a

/-- The `n` bytes of a word. -/
def leBytes : Nat → Nat → List UInt8
  | 0, _ => []
  | n + 1, v => UInt8.ofNat v :: leBytes n (v / 256)

/-! ## Inodes and the log -/

def beginOp : Prog Unit := fun s => .ok ((), { s with outstanding := s.outstanding + 1 })

def endOp : Prog Unit := fun s => .ok ((), { s with outstanding := s.outstanding - 1 })

def idup (ip : Nat) : Prog Unit := fun s => .ok ((), { s with iref := Function.update s.iref ip (s.iref ip + 1) })

/-- Drop a reference; what becomes of an inode without links is not part of this model. -/
def iput (ip : Nat) : Prog Unit := fun s => .ok ((), { s with iref := Function.update s.iref ip (s.iref ip - 1) })

def ilock (ip : Nat) : Prog Unit := fun s =>
  if s.iref ip < 1 then .error (.panic "ilock")
  else .ok ((), { s with ilocked := Function.update s.ilocked ip true })

def iunlock (ip : Nat) : Prog Unit := fun s =>
  if s.ilocked ip = false ∨ s.iref ip < 1 then .error (.panic "iunlock")
  else .ok ((), { s with ilocked := Function.update s.ilocked ip false })

def iunlockput (ip : Nat) : Prog Unit := do
  iunlock ip
  iput ip

/-! ## Files -/

def filedup (f : Fin NFILE) : Prog Unit := do
  let g ← getFile f
  if g.ref < 1 then panic "filedup" else setFile f fun g => { g with ref := g.ref + 1 }

def setFd (p : Slot) (i : Fin NOFILE) (o : Option (Fin NFILE)) : Prog Unit :=
  setProc p fun q => { q with ofile := Function.update q.ofile i o }

/-! ## Processes (kernel/proc.c) -/

def allocpid : Prog Int32 := fun s => .ok (s.nextpid, { s with nextpid := s.nextpid + 1 })

/-- The copying loop of `safestrcpy`, for the part of `s` that is left. -/
def strcpyLoop : Nat → List UInt8 → List UInt8 → List UInt8
  | n + 2, _ :: s, c :: t => if c = 0 then c :: s.set 0 0 else c :: strcpyLoop (n + 1) s t
  | _, s, _ => s.set 0 0

/-- What `safestrcpy(s, t, n)` leaves in `s`. -/
def safestrcpy (s t : List UInt8) (n : Nat) : List UInt8 := if n = 0 then s else strcpyLoop n s t

/-- `if(p->trapframe) kfree((void*)p->trapframe)` -/
def freeTrapframe : Option Nat → Prog Unit
  | some tf => onMem (Vm.kfree tf)
  | none => pure ()

/-- `if(p->pagetable) proc_freepagetable(p->pagetable, p->sz)` -/
def freePagetable (sz : Nat) : Option Pagetable → Prog Unit
  | some t => onMem (Vm.procFreepagetable t sz)
  | none => pure ()

def freeproc (p : Slot) : Prog Unit := do
  let q ← getProc p
  freeTrapframe q.trapframe
  setProc p fun q => { q with trapframe := none }
  freePagetable q.sz q.pagetable
  setProc p fun q => { q with
    pagetable := none
    sz := 0
    pid := 0
    parent := none
    name := q.name.set 0 0
    chan := .null
    killed := false
    xstate := 0
    state := .unused }

/-- The first slot that is UNUSED. -/
def findUnused (s : Sys) : Option Slot := (List.finRange NPROC).find? fun p => (s.proc p).state = .unused

def allocproc : Prog (Option Slot) := do
  match findUnused (← get) with
  | none => pure none
  | some p =>
    let pid ← allocpid
    setProc p fun q => { q with pid := pid, state := .used }
    match ← onMem Vm.kalloc with
    | none =>
      setProc p fun q => { q with trapframe := none }
      freeproc p
      pure none
    | some tf =>
      setProc p fun q => { q with trapframe := some tf }
      match ← onMem (Vm.procPagetable tf) with
      | none =>
        setProc p fun q => { q with pagetable := none }
        freeproc p
        pure none
      | some t =>
        let s ← get
        setProc p fun q => { q with
          pagetable := some t
          context := ⟨s.forkret, q.kstack + UInt64.ofNat PGSIZE, fun _ => 0⟩ }
        pure (some p)

/-- The size of `struct trapframe`, and where the registers that the kernel sets are in it. -/
def trapframeSize : Nat := 288

def epcOffset : Nat := 24
def spOffset : Nat := 48
def a0Offset : Nat := 112
def a1Offset : Nat := 120

/-- `*(np->trapframe) = *(p->trapframe); np->trapframe->a0 = 0` -/
def copyTrapframe (dst src : Nat) : Vm.Prog Unit := do
  let m ← get
  Vm.memmove dst (Vm.bytesAt m.byte src trapframeSize)
  Vm.memmove (dst + a0Offset) (List.replicate 8 0)

/-- `if(p->ofile[i]) np->ofile[i] = filedup(p->ofile[i])` -/
def dupFile (np : Slot) (i : Fin NOFILE) : Option (Fin NFILE) → Prog Unit
  | some f => do
    filedup f
    setFd np i (some f)
  | none => pure ()

/-- `for(i = 0; i < NOFILE; i++)` -/
def dupFiles (np : Slot) (ofile : Fin NOFILE → Option (Fin NFILE)) : List (Fin NOFILE) → Prog Unit
  | [] => pure ()
  | i :: is => do
    dupFile np i (ofile i)
    dupFiles np ofile is

/-- `fork` by process `p`. -/
def fork (p : Slot) : Prog Int := do
  match ← allocproc with
  | none => pure (-1)
  | some np =>
    let old ← getProc p
    let new ← getProc np
    let t ← deref old.pagetable
    let t' ← deref new.pagetable
    let (r, t') ← onMem (Vm.uvmcopy t t' old.sz)
    setProc np fun q => { q with pagetable := some t' }
    if r < 0 then
      freeproc np
      pure (-1)
    else
      setProc np fun q => { q with sz := old.sz }
      onMem (copyTrapframe (← deref new.trapframe) (← deref old.trapframe))
      dupFiles np old.ofile (List.finRange NOFILE)
      let cwd ← deref old.cwd
      idup cwd
      setProc np fun q => { q with cwd := some cwd }
      setProc np fun q => { q with name := safestrcpy q.name old.name 16 }
      let child ← getProc np
      setProc np fun q => { q with parent := some p }
      setProc np fun q => { q with state := .runnable }
      pure child.pid.toInt

end Xv6.Source.System
