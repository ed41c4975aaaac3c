import Xv6.Source.Layout

/-!
# mkfs/mkfs.c

The program that builds the file system image. Structures are written to the image in
the byte order of the machine that reads it, which is what `xint` and `xshort` are for.
-/
namespace Xv6.Source.Mkfs

def NINODES : Nat := 200
def nbitmap : Nat := FSSIZE / (BSIZE * 8) + 1
def ninodeblocks : Nat := NINODES / IPB + 1
def nlog : Nat := LOGSIZE
/-- Number of meta blocks (boot, sb, nlog, inode, bitmap). -/
def nmeta : Nat := 2 + nlog + ninodeblocks + nbitmap
def nblocks : Nat := FSSIZE - nmeta

def sb : Superblock where
  size := FSSIZE
  nblocks := nblocks
  ninodes := NINODES
  nlog := nlog
  logstart := 2
  inodestart := 2 + nlog
  bmapstart := 2 + nlog + ninodeblocks

/-- The image and the next inode and block that have not been given out. -/
structure Image where
  sect : Nat → Block
  freeinode : Nat
  freeblock : Nat

/-- The image, or why the program stops: `die` or a failed assertion. -/
abbrev Build := Except String

/-- The super block, as it lies in sector 1. -/
def superblock : Block :=
  (List.zipIdx [FSMAGIC.toNat, sb.size, sb.nblocks, sb.ninodes, sb.nlog, sb.logstart,
    sb.inodestart, sb.bmapstart]).foldl (fun b x => b.setInt x.2 (UInt32.ofNat x.1)) .zero

/-- The image before any inode is made. -/
def blank : Image := ⟨Function.update (fun _ => .zero) 1 superblock, 1, nmeta⟩

def wsect (img : Image) (sec : Nat) (buf : Block) : Image :=
  { img with sect := Function.update img.sect sec buf }

def rsect (img : Image) (sec : Nat) : Build Block :=
  if sec < FSSIZE then .ok (img.sect sec) else .error "read"

def rinode (img : Image) (inum : Nat) : Build Dinode := do
  let buf ← rsect img (IBLOCK inum sb)
  return Dinode.read buf (inum % IPB)

def winode (img : Image) (inum : Nat) (din : Dinode) : Build Image := do
  let buf ← rsect img (IBLOCK inum sb)
  return wsect img (IBLOCK inum sb) (Dinode.write buf (inum % IPB) din)

def ialloc (img : Image) (type : Int16) : Build (Nat × Image) := do
  let inum := img.freeinode
  let img ← winode { img with freeinode := img.freeinode + 1 } inum
    { Dinode.zero with type := type, nlink := 1 }
  return (inum, img)

/-- The sector of block `fbn` of the file, which is given one if it has none. -/
def sector (img : Image) (din : Dinode) (fbn : Nat) : Build (Nat × Image × Dinode) :=
  if fbn < NDIRECT then
    if din.addr fbn = 0 then
      .ok (img.freeblock, { img with freeblock := img.freeblock + 1 },
        din.setAddr fbn img.freeblock)
    else .ok (din.addr fbn, img, din)
  else do
    let (img, din) :=
      if din.addr NDIRECT = 0 then
        ({ img with freeblock := img.freeblock + 1 }, din.setAddr NDIRECT img.freeblock)
      else (img, din)
    let indirect ← rsect img (din.addr NDIRECT)
    let x := (indirect.getInt (fbn - NDIRECT)).toNat
    if x = 0 then
      let x := img.freeblock
      let img := { img with freeblock := img.freeblock + 1 }
      return (x, wsect img (din.addr NDIRECT)
        (indirect.setInt (fbn - NDIRECT) (UInt32.ofNat x)), din)
    else return (x, img, din)

/-- The loop of `iappend`, with room for its rounds: the bytes `p` go behind `off`. -/
def appendLoop : Nat → Nat → List UInt8 → Image → Dinode → Build (Nat × Image × Dinode)
  | 0, off, _, img, din => .ok (off, img, din)
  | rounds + 1, off, p, img, din =>
    if p = [] then .ok (off, img, din)
    else if off / BSIZE < MAXFILE then do
      let fbn := off / BSIZE
      let (x, img, din) ← sector img din fbn
      let n1 := min p.length ((fbn + 1) * BSIZE - off)
      let buf ← rsect img x
      let img := wsect img x (buf.patch (off - fbn * BSIZE) (p.take n1))
      appendLoop rounds (off + n1) (p.drop n1) img din
    else .error "fbn < MAXFILE"

def iappend (img : Image) (inum : Nat) (p : List UInt8) : Build Image := do
  let din ← rinode img inum
  let (off, img, din) ← appendLoop p.length din.size.toNat p img din
  winode img inum { din with size := UInt32.ofNat off }

/-- The bitmap of an image whose first `used` blocks are allocated. -/
def bitmap (used : Nat) : Block := (List.range used).foldl Block.setBit .zero

def balloc (img : Image) (used : Nat) : Build Image :=
  if used < BSIZE * 8 then .ok (wsect img sb.bmapstart (bitmap used))
  else .error "used < BSIZE*8"

/-- The `name` field of a directory entry that held zeroes, after `strncpy`. -/
def nameField (name : List UInt8) : List UInt8 :=
  name.take DIRSIZ ++ List.replicate (DIRSIZ - name.length) 0

def direntFor (inum : Nat) (name : List UInt8) : Dirent := ⟨UInt16.ofNat inum, nameField name⟩

/-- `user/`. -/
def userDir : List UInt8 := ['u', 's', 'e', 'r', '/'].map Char.toUInt8

/-- The name in the file system for an argument: without `user/` and a leading `_`. -/
def shortname (arg : List UInt8) : Build (List UInt8) :=
  let name := if userDir <+: arg then arg.drop 5 else arg
  if '/'.toUInt8 ∈ name then .error "index(shortname, '/') == 0"
  else .ok (if name.head? = some '_'.toUInt8 then name.tail else name)

/-- An argument and what the calls of `read` give of the file, up to its end. -/
structure File where
  arg : List UInt8
  chunks : List (List UInt8)

/-- One round of the loop over the arguments. -/
def addFile (rootino : Nat) (img : Image) (f : File) : Build Image := do
  let name ← shortname f.arg
  let (inum, img) ← ialloc img T_FILE
  let img ← iappend img rootino (direntFor inum name).bytes
  f.chunks.foldlM (fun img chunk => iappend img inum chunk) img

/-- Fix size of root inode dir. -/
def roundRoot (img : Image) (rootino : Nat) : Build Image := do
  let din ← rinode img rootino
  winode img rootino { din with size := UInt32.ofNat ((din.size.toNat / BSIZE + 1) * BSIZE) }

def dot : List UInt8 := ['.'.toUInt8]
def dotdot : List UInt8 := ['.'.toUInt8, '.'.toUInt8]

def main (files : List File) : Build Image := do
  let (rootino, img) ← ialloc blank T_DIR
  if rootino ≠ ROOTINO then .error "rootino == ROOTINO"
  else
    let img ← iappend img rootino (direntFor rootino dot).bytes
    let img ← iappend img rootino (direntFor rootino dotdot).bytes
    let img ← files.foldlM (addFile rootino) img
    let img ← roundRoot img rootino
    balloc img img.freeblock

end Xv6.Source.Mkfs
