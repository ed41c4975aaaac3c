import Xv6.Library.Thread
import Xv6.Source.Fs
import Xv6.Source.Proc

/-!
# The tables of the file system and the steps of its code

`itable` (kernel/fs.c), `ftable` (kernel/file.c) and the descriptors of the processes (kernel/proc.h),
and the steps in which `filewrite` works on them. What the code does under a spin-lock is one step, and
so is a call of `writei`: it works on an inode whose sleep-lock its process holds, and on free blocks.
`begin_op` never waits here, so the runs include those in which the log has room. Tables are kept field
by field. The device number is left out, there is one disk.
-/
namespace Xv6.Source.Tables

open Xv6.Library.Thread Xv6.Source.Fs

def NPROC : Nat := 64
def NFILE : Nat := 100
def NINODE : Nat := 50
def NDEV : Nat := 10

instance : NeZero NPROC := ⟨by decide⟩

abbrev Pid := Fin NPROC
/-- `struct inode *`: an entry of `itable`. -/
abbrev Entry := Fin NINODE
/-- `struct file *`: an entry of `ftable`. -/
abbrev FileId := Fin NFILE
abbrev Fd := Fin Proc.NOFILE

/-- The fields of a `struct file` of type FD_INODE or FD_DEVICE. -/
structure Open where
  device : Bool
  readable : Bool
  writable : Bool
  ip : Entry
  major : Int16
  deriving DecidableEq

/-- The bytes that a call of `writei` has stored, recorded for statements about whole runs. -/
structure Chunk where
  pid : Pid
  inum : Nat
  off : Nat
  bytes : List UInt8
  deriving DecidableEq

structure State where
  disk : Disk
  -- `itable.inode[]`; `din` has the fields that are copied from the disk
  inum : Entry → Nat
  ref : Entry → Nat
  lock : Entry → Option Pid
  valid : Entry → Bool
  din : Entry → Dinode
  -- `ftable.file[]`; a file of type FD_NONE has no fields
  file : FileId → Option Open
  off : FileId → UInt32
  ofile : Pid → Fd → Option FileId
  -- operations between `begin_op` and `end_op`
  outstanding : Nat
  -- oldest first
  chunks : List Chunk

/-- A step of kernel code. -/
inductive Op where
  | ilock (ip : Entry)
  | iunlock (ip : Entry)
  | writei (ip : Entry) (src : List UInt8) (off n : Nat)
  | beginOp
  | endOp
  | getFd (fd : Fd)
  | getFile (f : FileId)
  | setOff (f : FileId) (off : UInt32)
  | panic (msg : String)

@[reducible] def Ret : Op → Type
  | .writei .. => Int
  | .getFd _ => Option FileId
  | .getFile _ => Option Open × UInt32
  | .panic _ => Empty
  | _ => Unit

/-- What a step of process `t` does. -/
def exec (sb : Superblock) (t : Pid) : (op : Op) → State → Outcome (Ret op × State)
  | .ilock ip, s =>
    if s.ref ip < 1 then .panic "ilock"
    else if (s.lock ip).isSome then .blocked
    else if s.valid ip then .ok ((), { s with lock := Function.update s.lock ip (some t) })
    else if (dinode sb s.disk (s.inum ip)).type = 0 then .panic "ilock: no type"
    else .ok ((), { s with
      lock := Function.update s.lock ip (some t)
      valid := Function.update s.valid ip true
      din := Function.update s.din ip (dinode sb s.disk (s.inum ip)) })
  | .iunlock ip, s =>
    if s.lock ip ≠ some t ∨ s.ref ip < 1 then .panic "iunlock"
    else .ok ((), { s with lock := Function.update s.lock ip none })
  | .writei ip src off n, s =>
    match writei sb s.disk (s.inum ip) (s.din ip) src off n with
    | .error msg => .panic msg
    | .ok r => .ok (r.ret, { s with
        disk := r.disk
        din := Function.update s.din ip r.din
        chunks := s.chunks ++ [⟨t, s.inum ip, off, src.take r.ret.toNat⟩] })
  | .beginOp, s => .ok ((), { s with outstanding := s.outstanding + 1 })
  | .endOp, s =>
    -- the last operation commits
    if s.outstanding = 1 then .ok ((), { s with outstanding := 0, disk := { s.disk with logged := [] } })
    else .ok ((), { s with outstanding := s.outstanding - 1 })
  | .getFd fd, s => .ok (s.ofile t fd, s)
  | .getFile f, s => .ok ((s.file f, s.off f), s)
  | .setOff f off, s => .ok ((), { s with off := Function.update s.off f off })
  | .panic msg, _ => .panic msg

/-- Kernel code. -/
abbrev Code (α : Type) := Prog Op Ret α

def step (op : Op) : Code (Ret op) := .op op

end Xv6.Source.Tables
