import Xv6.Source.Tables

/-!
# kernel/file.c and kernel/sysfile.c: write and fstat

`sys_write` and `filewrite` on files of the file system. Pipes are left out, and a device is known by
what its routine returns. `filestat` is given the bytes that its stack frame happens to hold.
-/
namespace Xv6.Source.Sysfile

open Xv6.Source.Tables

def beginOp : Code Unit := step .beginOp
def endOp : Code Unit := step .endOp
def ilock (ip : Entry) : Code Unit := step (.ilock ip)
def iunlock (ip : Entry) : Code Unit := step (.iunlock ip)
def kpanic {α : Type} (msg : String) : Code α := .call (.panic msg) nofun

theorem fd_lt {fd : Int} (h : 0 ≤ fd ∧ fd.toNat < Proc.NOFILE) : fd.toNat < Proc.NOFILE := h.2

/-- A descriptor in range, and its file. -/
def argfd (fd : Int) : Code (Option (Fd × FileId)) :=
  if h : 0 ≤ fd ∧ fd.toNat < Proc.NOFILE then do
    let f ← step (.getFd ⟨fd.toNat, h.2⟩)
    return f.map fun f => (⟨fd.toNat, h.2⟩, f)
  else return none

/-- `f->major < 0 || f->major >= NDEV`. -/
def badMajor (major : Int16) : Bool := decide (major < 0 ∨ Int16.ofNat NDEV ≤ major)

/-- `((MAXOPBLOCKS-1-1-2) / 2) * BSIZE`. -/
def maxWrite : Nat := (MAXOPBLOCKS - 1 - 1 - 2) / 2 * BSIZE

/-- The loop of `filewrite`, with room for its rounds; true if all bytes are written. -/
def filewriteLoop (f : FileId) (ip : Entry) (src : List UInt8) (n : Nat) : Nat → Nat → Code Bool
  | 0, i => return i = n
  | rounds + 1, i =>
    if i < n then do
      let n1 := min (n - i) maxWrite
      beginOp
      ilock ip
      let (_, off) ← step (.getFile f)
      let r ← step (.writei ip (src.drop i) off.toNat n1)
      -- `f->off += r` reads the offset again
      if 0 < r then do
        let (_, off) ← step (.getFile f)
        step (.setOff f (off + UInt32.ofNat r.toNat))
      iunlock ip
      endOp
      if r ≠ n1 then return i = n else filewriteLoop f ip src n rounds (i + n1)
    else return i = n

/-- Write to file f: `n` bytes, of which those in `src` can be read. -/
def filewrite (f : FileId) (src : List UInt8) (n : Int) (device : Int) : Code Int := do
  let (o, _) ← step (.getFile f)
  match o with
  | none => kpanic "filewrite"
  | some o =>
    if o.writable = false then return -1
    else if o.device then return if badMajor o.major then -1 else device
    else if n < 0 then return -1
    else
      let all ← filewriteLoop f o.ip src n.toNat n.toNat 0
      return if all then n else -1

def sysWrite (fd : Int) (src : List UInt8) (n : Int) (device : Int) : Code Int := do
  match ← argfd fd with
  | none => return -1
  | some (_, f) => filewrite f src n device

/-! ## fstat -/

inductive FileType where
  | none
  | pipe
  | inode
  | device
  deriving DecidableEq, Repr

/-- The fields of a `struct inode` that `stati` reads. -/
structure Meta where
  dev : UInt32
  inum : UInt32
  type : Int16
  nlink : Int16
  size : UInt32

/-- The bytes of a `struct stat`: `dev` at 0, `ino` at 4, `type` at 8, `nlink` at 10 and, as it is aligned
to 8 bytes, `size` at 16. -/
abbrev Stat := Fin 24 → UInt8

/-- An assignment to the field of `n` bytes at `off`. -/
def assign (st : Stat) (off n x : Nat) : Stat := fun j =>
  if off ≤ j.val ∧ j.val < off + n then UInt8.ofNat (x / 256 ^ (j.val - off)) else st j

/-- Copy stat information from inode. -/
def stati (ip : Meta) (st : Stat) : Stat :=
  let st := assign st 0 4 ip.dev.toNat
  let st := assign st 4 4 ip.inum.toNat
  let st := assign st 8 2 ip.type.toUInt16.toNat
  let st := assign st 10 2 ip.nlink.toUInt16.toNat
  assign st 16 8 ip.size.toNat

/-- What `filestat` gives to `copyout`, on a stack that holds `st`. -/
def filestat (type : FileType) (ip : Meta) (st : Stat) : Option Stat :=
  if type = .inode ∨ type = .device then some (stati ip st) else Option.none

end Xv6.Source.Sysfile
