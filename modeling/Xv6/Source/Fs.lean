import Xv6.Source.Layout

/-!
# kernel/fs.c: blocks and the content of inodes

The block allocator and the functions that read, write and truncate an inode. The
caller holds the inode's lock, so its in-memory fields are passed in and handed back.
Blocks are read and stored as the buffer cache shows them, and the blocks given to
`log_write` are noted.
-/
namespace Xv6.Source.Fs

/-- A value, or the text of a panic. -/
abbrev Kernel (β : Type) := Except String β

structure Disk where
  block : Nat → Block
  logged : List Nat

namespace Disk

/-- `bp->data` of block `b` changes. -/
def store (d : Disk) (b : Nat) (data : Block) : Disk :=
  { d with block := Function.update d.block b data }

def logWrite (d : Disk) (b : Nat) : Disk := { d with logged := b :: d.logged }

@[simp] theorem store_block (d : Disk) (b : Nat) (data : Block) :
    (d.store b data).block = Function.update d.block b data := rfl

@[simp] theorem logWrite_block (d : Disk) (b : Nat) : (d.logWrite b).block = d.block := rfl

end Disk

/-- Zero a block. -/
def bzero (d : Disk) (bno : Nat) : Disk := (d.store bno .zero).logWrite bno

section blocks
variable (sb : Superblock)

/-- The first free bit in the bitmap block for the blocks from `b` on. -/
def freeBit (d : Disk) (b : Nat) : Option Nat :=
  (List.range' 0 BPB).find? fun bi => decide (b + bi < sb.size) && !(d.block (BBLOCK b sb)).bit bi

/-- Allocate a zeroed disk block; 0 if out of disk space. -/
def balloc (d : Disk) : Nat × Disk :=
  match (List.range' 0 ((sb.size + BPB - 1) / BPB) BPB).findSome? fun b =>
      (freeBit sb d b).map fun bi => (b, bi) with
  | none => (0, d)
  | some (b, bi) =>
    let bp := BBLOCK b sb
    (b + bi, bzero ((d.store bp ((d.block bp).setBit bi)).logWrite bp) (b + bi))

/-- Free a disk block. -/
def bfree (d : Disk) (b : Nat) : Kernel Disk :=
  let bp := BBLOCK b sb
  let bi := b % BPB
  if (d.block bp).bit bi then .ok ((d.store bp ((d.block bp).clearBit bi)).logWrite bp)
  else .error "freeing free block"

/-- The on-disk inode. -/
def dinode (d : Disk) (inum : Nat) : Dinode := Dinode.read (d.block (IBLOCK inum sb)) (inum % IPB)

/-- Copy a modified in-memory inode to disk. -/
def iupdate (d : Disk) (inum : Nat) (din : Dinode) : Disk :=
  let bp := IBLOCK inum sb
  (d.store bp (Dinode.write (d.block bp) (inum % IPB) din)).logWrite bp

/-- Return the disk block address of the nth block in inode ip. If there is no such
block, bmap allocates one; 0 if out of disk space. -/
def bmap (d : Disk) (din : Dinode) (bn : Nat) : Kernel (Nat × Disk × Dinode) :=
  if bn < NDIRECT then
    if din.addr bn = 0 then
      let (addr, d) := balloc sb d
      if addr = 0 then .ok (0, d, din) else .ok (addr, d, din.setAddr bn addr)
    else .ok (din.addr bn, d, din)
  else if bn - NDIRECT < NINDIRECT then
    -- load indirect block, allocating if necessary
    let (ind, d, din) :=
      if din.addr NDIRECT = 0 then
        let (addr, d) := balloc sb d
        if addr = 0 then (0, d, din) else (addr, d, din.setAddr NDIRECT addr)
      else (din.addr NDIRECT, d, din)
    if ind = 0 then .ok (0, d, din)
    else
      let addr := ((d.block ind).getInt (bn - NDIRECT)).toNat
      if addr = 0 then
        let (addr, d) := balloc sb d
        if addr = 0 then .ok (0, d, din)
        else
          let data := (d.block ind).setInt (bn - NDIRECT) (UInt32.ofNat addr)
          .ok (addr, (d.store ind data).logWrite ind, din)
      else .ok (addr, d, din)
  else .error "bmap: out of range"

/-- The loop of `itrunc` over the direct blocks. -/
def truncDirect : List Nat → Disk → Dinode → Kernel (Disk × Dinode)
  | [], d, din => .ok (d, din)
  | i :: rest, d, din =>
    if din.addr i ≠ 0 then do
      let d ← bfree sb d (din.addr i)
      truncDirect rest d (din.setAddr i 0)
    else truncDirect rest d din

/-- The loop of `itrunc` over the entries of the indirect block `a`. -/
def truncEntries (a : Block) : List Nat → Disk → Kernel Disk
  | [], d => .ok d
  | j :: rest, d =>
    if (a.getInt j).toNat ≠ 0 then do
      let d ← bfree sb d (a.getInt j).toNat
      truncEntries a rest d
    else truncEntries a rest d

def truncIndirect (d : Disk) (din : Dinode) : Kernel (Disk × Dinode) :=
  if din.addr NDIRECT ≠ 0 then do
    let d ← truncEntries sb (d.block (din.addr NDIRECT)) (List.range' 0 NINDIRECT) d
    let d ← bfree sb d (din.addr NDIRECT)
    return (d, din.setAddr NDIRECT 0)
  else .ok (d, din)

/-- Truncate inode (discard contents). -/
def itrunc (d : Disk) (inum : Nat) (din : Dinode) : Kernel (Disk × Dinode) := do
  let (d, din) ← truncDirect sb (List.range' 0 NDIRECT) d din
  let (d, din) ← truncIndirect sb d din
  let din := { din with size := 0 }
  return (iupdate sb d inum din, din)

/-- What `readi` returns, the bytes it has copied out, and what it leaves behind. -/
structure ReadResult where
  ret : Int
  bytes : List UInt8
  disk : Disk
  din : Dinode

/-- The loop of `readi`, with room for its rounds. `copyout tot m` tells whether the next
`m` bytes can be copied to their destination behind `tot` others. -/
def readLoop (copyout : Nat → Nat → Bool) (n : Nat) : Nat → Nat → Nat → List UInt8 → Disk →
    Dinode → Kernel ReadResult
  | 0, _, tot, got, d, din => .ok ⟨tot, got, d, din⟩
  | rounds + 1, off, tot, got, d, din =>
    if tot < n then do
      let (addr, d, din) ← bmap sb d din (off / BSIZE)
      if addr = 0 then return ⟨tot, got, d, din⟩
      else
        let m := min (n - tot) (BSIZE - off % BSIZE)
        if copyout tot m then
          readLoop copyout n rounds (off + m) (tot + m)
            (got ++ (d.block addr).slice (off % BSIZE) m) d din
        else return ⟨-1, got, d, din⟩
    else .ok ⟨tot, got, d, din⟩

/-- Read data from inode. -/
def readi (copyout : Nat → Nat → Bool) (d : Disk) (din : Dinode) (off n : Nat) :
    Kernel ReadResult :=
  let size := din.size.toNat
  if off > size ∨ (off + n) % 2 ^ 32 < off then .ok ⟨0, [], d, din⟩
  else
    let n := if (off + n) % 2 ^ 32 > size then size - off else n
    readLoop sb copyout n n off 0 [] d din

/-- What the loop of `writei` ends with. -/
structure WriteLoop where
  tot : Nat
  off : Nat
  disk : Disk
  din : Dinode

/-- The loop of `writei`, with room for its rounds. `src` holds the source up to the
first address that cannot be read: `copyin` stores what comes before it and fails there. -/
def writeLoop (src : List UInt8) (n : Nat) : Nat → Nat → Nat → Disk → Dinode → Kernel WriteLoop
  | 0, off, tot, d, din => .ok ⟨tot, off, d, din⟩
  | rounds + 1, off, tot, d, din =>
    if tot < n then do
      let (addr, d, din) ← bmap sb d din (off / BSIZE)
      if addr = 0 then return ⟨tot, off, d, din⟩
      else
        let m := min (n - tot) (BSIZE - off % BSIZE)
        let chunk := (src.drop tot).take m
        let d := d.store addr ((d.block addr).patch (off % BSIZE) chunk)
        if chunk.length < m then return ⟨tot, off, d, din⟩
        else writeLoop src n rounds (off + m) (tot + m) (d.logWrite addr) din
    else .ok ⟨tot, off, d, din⟩

structure WriteResult where
  ret : Int
  disk : Disk
  din : Dinode

/-- Write data to inode. -/
def writei (d : Disk) (inum : Nat) (din : Dinode) (src : List UInt8) (off n : Nat) :
    Kernel WriteResult :=
  if off > din.size.toNat ∨ (off + n) % 2 ^ 32 < off then .ok ⟨-1, d, din⟩
  else if (off + n) % 2 ^ 32 > MAXFILE * BSIZE then .ok ⟨-1, d, din⟩
  else do
    let w ← writeLoop sb src n n off 0 d din
    let din := if w.off > w.din.size.toNat then { w.din with size := UInt32.ofNat w.off } else w.din
    -- the inode is written back even if the size did not change: bmap may have added a block
    return ⟨w.tot, iupdate sb w.disk inum din, din⟩

end blocks
end Xv6.Source.Fs
