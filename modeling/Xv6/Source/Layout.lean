import Mathlib.Data.Fintype.Basic
import Mathlib.Data.Nat.Bitwise
import Xv6.Source.Block

/-!
# On-disk file system format

`kernel/fs.h` and `kernel/stat.h`: the super block, inodes, bitmap bits and directory
entries, as they lie in the bytes of a block. C structures are read and written in place.
-/
namespace Xv6.Source

def ROOTINO : Nat := 1
def NDIRECT : Nat := 12
def NINDIRECT : Nat := BSIZE / 4
def MAXFILE : Nat := NDIRECT + NINDIRECT
/-- Inodes per block. -/
def IPB : Nat := BSIZE / 64
/-- Bitmap bits per block. -/
def BPB : Nat := BSIZE * 8
def DIRSIZ : Nat := 14
def FSMAGIC : UInt32 := 0x10203040

def T_DIR : Int16 := 1
def T_FILE : Int16 := 2
def T_DEVICE : Int16 := 3

structure Superblock where
  size : Nat
  nblocks : Nat
  ninodes : Nat
  nlog : Nat
  logstart : Nat
  inodestart : Nat
  bmapstart : Nat
  deriving DecidableEq, Repr

/-- Block containing inode i. -/
def IBLOCK (i : Nat) (sb : Superblock) : Nat := i / IPB + sb.inodestart

/-- Block of free map containing bit for block b. -/
def BBLOCK (b : Nat) (sb : Superblock) : Nat := b / BPB + sb.bmapstart

namespace Block

def get (d : Block) (j : Nat) : UInt8 := if h : j < BSIZE then d ⟨j, h⟩ else 0

/-- The bytes are copied to offset `off`. -/
def patch (d : Block) (off : Nat) (bytes : List UInt8) : Block := fun j =>
  if off ≤ j.val ∧ j.val < off + bytes.length then bytes.getD (j.val - off) 0 else d j

/-- The `n` bytes from offset `off`. -/
def slice (d : Block) (off n : Nat) : List UInt8 := (List.range n).map fun j => d.get (off + j)

def zero : Block := fun _ => 0

/-- `data[bi/8] & (1 << (bi % 8))`. -/
def bit (d : Block) (bi : Nat) : Bool := (d.get (bi / 8)).toNat.testBit (bi % 8)

/-- `data[bi/8] |= 1 << (bi % 8)`. -/
def setBit (d : Block) (bi : Nat) : Block :=
  d.patch (bi / 8) [d.get (bi / 8) ||| UInt8.ofNat (2 ^ (bi % 8))]

/-- `data[bi/8] &= ~(1 << (bi % 8))`. -/
def clearBit (d : Block) (bi : Nat) : Block :=
  d.patch (bi / 8) [d.get (bi / 8) &&& UInt8.ofNat (255 - 2 ^ (bi % 8))]

theorem get_patch (d : Block) (off : Nat) (bytes : List UInt8) {j : Nat} (hj : j < BSIZE) :
    (d.patch off bytes).get j =
      if off ≤ j ∧ j < off + bytes.length then bytes.getD (j - off) 0 else d.get j := by
  simp only [get, patch, hj, dif_pos]

@[simp] theorem get_zero (j : Nat) : zero.get j = 0 := by
  unfold get zero
  split <;> rfl

theorem bit_patch (d : Block) (x : UInt8) {i j : Nat} (hj : j < BPB) :
    (d.patch (i / 8) [x]).bit j = if j / 8 = i / 8 then x.toNat.testBit (j % 8) else d.bit j := by
  have hlt : j / 8 < BSIZE := Nat.div_lt_of_lt_mul (by unfold BPB at hj; omega)
  rw [bit, get_patch _ _ _ hlt]
  by_cases h : j / 8 = i / 8
  · simp [h]
  · have hnot : ¬ (i / 8 ≤ j / 8 ∧ j / 8 < i / 8 + 1) := by omega
    simp only [List.length_singleton, if_neg hnot, if_neg h, bit]

theorem testBit_mask : ∀ p < 8, ∀ q < 8,
    (UInt8.ofNat (2 ^ p)).toNat.testBit q = decide (q = p) ∧
    (UInt8.ofNat (255 - 2 ^ p)).toNat.testBit q = decide (q ≠ p) := by
  decide

theorem bit_setBit (d : Block) {i j : Nat} (hj : j < BPB) :
    (d.setBit i).bit j = (decide (j = i) || d.bit j) := by
  rw [setBit, bit_patch _ _ hj]
  split
  · next h =>
    rw [UInt8.toNat_or, Nat.testBit_or,
      (testBit_mask (i % 8) (Nat.mod_lt _ (by decide)) (j % 8) (Nat.mod_lt _ (by decide))).1,
      bit, h, Bool.or_comm]
    congr 1
    exact decide_eq_decide.mpr (by omega)
  · next h =>
    have hne : j ≠ i := fun e => h (e ▸ rfl)
    simp [hne]

theorem bit_clearBit (d : Block) {i j : Nat} (hj : j < BPB) :
    (d.clearBit i).bit j = (decide (j ≠ i) && d.bit j) := by
  rw [clearBit, bit_patch _ _ hj]
  split
  · next h =>
    rw [UInt8.toNat_and, Nat.testBit_and,
      (testBit_mask (i % 8) (Nat.mod_lt _ (by decide)) (j % 8) (Nat.mod_lt _ (by decide))).2,
      bit, h, Bool.and_comm]
    congr 1
    exact decide_eq_decide.mpr (by omega)
  · next h =>
    have hne : j ≠ i := fun e => h (e ▸ rfl)
    simp [hne]

end Block

/-- On-disk inode structure. -/
structure Dinode where
  type : Int16
  major : Int16
  minor : Int16
  nlink : Int16
  size : UInt32
  addrs : Fin (NDIRECT + 1) → UInt32
  deriving DecidableEq

namespace Dinode

/-- Byte `k` of the `k`-byte wide little-endian integer `x`. -/
def part (x k : Nat) : UInt8 := UInt8.ofNat (x / 2 ^ (8 * k))

/-- The bytes of the structure. -/
def byte (d : Dinode) (j : Nat) : UInt8 :=
  if j < 2 then part d.type.toUInt16.toNat j
  else if j < 4 then part d.major.toUInt16.toNat (j - 2)
  else if j < 6 then part d.minor.toUInt16.toNat (j - 4)
  else if j < 8 then part d.nlink.toUInt16.toNat (j - 6)
  else if j < 12 then part d.size.toNat (j - 8)
  else if h : (j - 12) / 4 < NDIRECT + 1 then part (d.addrs ⟨(j - 12) / 4, h⟩).toNat (j % 4)
  else 0

def short (f : Nat → UInt8) (j : Nat) : Int16 :=
  (UInt16.ofNat ((f j).toNat + 2 ^ 8 * (f (j + 1)).toNat)).toInt16

def uint (f : Nat → UInt8) (j : Nat) : UInt32 :=
  UInt32.ofNat ((f j).toNat + 2 ^ 8 * (f (j + 1)).toNat + 2 ^ 16 * (f (j + 2)).toNat +
    2 ^ 24 * (f (j + 3)).toNat)

/-- The structure that lies in these bytes. -/
def ofBytes (f : Nat → UInt8) : Dinode where
  type := short f 0
  major := short f 2
  minor := short f 4
  nlink := short f 6
  size := uint f 8
  addrs := fun k => uint f (12 + 4 * k.val)

/-- `*((struct dinode*)data + k)`. -/
def read (d : Block) (k : Nat) : Dinode := ofBytes fun j => d.get (64 * k + j)

/-- `*((struct dinode*)data + k) = din`. -/
def write (d : Block) (k : Nat) (din : Dinode) : Block := fun j =>
  if j.val / 64 = k then din.byte (j.val % 64) else d j

/-- An inode of zeroes. -/
def zero : Dinode := ⟨0, 0, 0, 0, 0, fun _ => 0⟩

/-- `memset(dip, 0, sizeof(*dip)); dip->type = type`. -/
def fresh (type : Int16) : Dinode := { zero with type := type }

/-- `addrs[k]`, as a number. -/
def addr (din : Dinode) (k : Nat) : Nat :=
  if h : k < NDIRECT + 1 then (din.addrs ⟨k, h⟩).toNat else 0

/-- `addrs[k] = b`. -/
def setAddr (din : Dinode) (k b : Nat) : Dinode :=
  { din with addrs := fun j => if j.val = k then UInt32.ofNat b else din.addrs j }

theorem part_toNat (x k : Nat) : (part x k).toNat = x / 2 ^ (8 * k) % 256 := by
  simp [part]

theorem short_part {f : Nat → UInt8} {j : Nat} {x : Int16}
    (h0 : f j = part x.toUInt16.toNat 0) (h1 : f (j + 1) = part x.toUInt16.toNat 1) :
    short f j = x := by
  have hx : x.toUInt16.toNat < 2 ^ 16 := UInt16.toNat_lt _
  have hnat : (f j).toNat + 2 ^ 8 * (f (j + 1)).toNat = x.toUInt16.toNat := by
    rw [h0, h1, part_toNat, part_toNat]
    norm_num
    omega
  rw [short, hnat, UInt16.ofNat_toNat, Int16.toInt16_toUInt16]

theorem uint_part {f : Nat → UInt8} {j : Nat} {x : UInt32}
    (h : ∀ k < 4, f (j + k) = part x.toNat k) : uint f j = x := by
  have hx : x.toNat < 2 ^ 32 := UInt32.toNat_lt _
  have hnat : (f j).toNat + 2 ^ 8 * (f (j + 1)).toNat + 2 ^ 16 * (f (j + 2)).toNat +
      2 ^ 24 * (f (j + 3)).toNat = x.toNat := by
    rw [h 1 (by decide), h 2 (by decide), h 3 (by decide)]
    have h0 := h 0 (by decide)
    rw [Nat.add_zero] at h0
    rw [h0, part_toNat, part_toNat, part_toNat, part_toNat]
    norm_num
    omega
  rw [uint, hnat, UInt32.ofNat_toNat]

/-- The structure comes back from its bytes. -/
theorem ofBytes_byte (d : Dinode) : ofBytes d.byte = d := by
  have hsize : uint d.byte 8 = d.size := uint_part fun k hk => by
    have h2 : ¬ 8 + k < 2 := by omega
    have h4 : ¬ 8 + k < 4 := by omega
    have h6 : ¬ 8 + k < 6 := by omega
    have h8 : ¬ 8 + k < 8 := by omega
    have h12 : 8 + k < 12 := by omega
    simp only [byte, h2, h4, h6, h8, h12, if_false, if_true, Nat.add_sub_cancel_left]
  have haddr : (fun k : Fin (NDIRECT + 1) => uint d.byte (12 + 4 * k.val)) = d.addrs := by
    funext n
    refine uint_part fun k hk => ?_
    have hidx : (12 + 4 * n.val + k - 12) / 4 = n.val := by omega
    have hmod : (12 + 4 * n.val + k) % 4 = k := by omega
    have h2 : ¬ 12 + 4 * n.val + k < 2 := by omega
    have h4 : ¬ 12 + 4 * n.val + k < 4 := by omega
    have h6 : ¬ 12 + 4 * n.val + k < 6 := by omega
    have h8 : ¬ 12 + 4 * n.val + k < 8 := by omega
    have h12 : ¬ 12 + 4 * n.val + k < 12 := by omega
    have hlt : (12 + 4 * n.val + k - 12) / 4 < NDIRECT + 1 := by rw [hidx]; exact n.isLt
    simp only [byte, h2, h4, h6, h8, h12, if_false, dif_pos hlt, hmod]
    congr 3
    exact Fin.ext hidx
  have h0 : short d.byte 0 = d.type := short_part rfl rfl
  have h2 : short d.byte 2 = d.major := short_part rfl rfl
  have h4 : short d.byte 4 = d.minor := short_part rfl rfl
  have h6 : short d.byte 6 = d.nlink := short_part rfl rfl
  rw [ofBytes, h0, h2, h4, h6, hsize, haddr]

theorem ofBytes_congr {f g : Nat → UInt8} (h : ∀ j < 64, f j = g j) : ofBytes f = ofBytes g := by
  have haddr : (fun k : Fin (NDIRECT + 1) => uint f (12 + 4 * k.val)) =
      fun k => uint g (12 + 4 * k.val) := by
    funext n
    have hn : n.val < 13 := n.isLt
    simp only [uint, h (12 + 4 * n.val) (by omega), h (12 + 4 * n.val + 1) (by omega),
      h (12 + 4 * n.val + 2) (by omega), h (12 + 4 * n.val + 3) (by omega)]
  rw [ofBytes, ofBytes, haddr]
  simp only [short, uint, h 0 (by decide), h 1 (by decide), h 2 (by decide), h 3 (by decide),
    h 4 (by decide), h 5 (by decide), h 6 (by decide), h 7 (by decide), h 8 (by decide),
    h 9 (by decide), h 10 (by decide), h 11 (by decide), Nat.reduceAdd]

theorem get_write (d : Block) (k : Nat) (din : Dinode) {j : Nat} (hj : j < BSIZE) :
    (write d k din).get j = if j / 64 = k then din.byte (j % 64) else d.get j := by
  simp only [Block.get, write, hj, dif_pos]

theorem read_write (d : Block) {k : Nat} (hk : k < IPB) (din : Dinode) :
    read (write d k din) k = din := by
  refine (ofBytes_congr fun j hj => ?_).trans (ofBytes_byte din)
  have hB : 64 * k + j < BSIZE := by
    unfold IPB BSIZE at *
    omega
  have hdiv : (64 * k + j) / 64 = k := by omega
  have hmod : (64 * k + j) % 64 = j := by omega
  rw [get_write _ _ _ hB, if_pos hdiv, hmod]

theorem read_write_ne (d : Block) {k k' : Nat} (hk : k' < IPB) (hne : k' ≠ k) (din : Dinode) :
    read (write d k din) k' = read d k' := by
  refine ofBytes_congr fun j hj => ?_
  have hB : 64 * k' + j < BSIZE := by
    unfold IPB BSIZE at *
    omega
  have hdiv : ¬ (64 * k' + j) / 64 = k := by omega
  rw [get_write _ _ _ hB, if_neg hdiv]

theorem addr_setAddr (din : Dinode) {k b : Nat} (hb : b < 2 ^ 32) (hk : k < NDIRECT + 1) (j : Nat) :
    (din.setAddr k b).addr j = if j = k then b else din.addr j := by
  unfold addr setAddr
  by_cases hj : j < NDIRECT + 1
  · rw [dif_pos hj, dif_pos hj]
    dsimp only
    split
    · exact UInt32.toNat_ofNat_of_lt' hb
    · rfl
  · have hne : j ≠ k := fun e => hj (e ▸ hk)
    rw [dif_neg hj, dif_neg hj, if_neg hne]

end Dinode

/-- Directory is a file containing a sequence of dirent structures. -/
structure Dirent where
  inum : UInt16
  name : List UInt8
  deriving DecidableEq, Repr

namespace Dirent

/-- `sizeof(struct dirent)`. -/
def size : Nat := 16

def bytes (de : Dirent) : List UInt8 :=
  [Dinode.part de.inum.toNat 0, Dinode.part de.inum.toNat 1] ++ de.name

def ofBytes (b : List UInt8) : Dirent :=
  ⟨UInt16.ofNat ((b.getD 0 0).toNat + 2 ^ 8 * (b.getD 1 0).toNat), b.drop 2⟩

/-- `memset(&de, 0, sizeof(de))`. -/
def zero : Dirent := ⟨0, List.replicate DIRSIZ 0⟩

theorem bytes_length {de : Dirent} (h : de.name.length = DIRSIZ) : de.bytes.length = size := by
  simp [bytes, h, DIRSIZ, size]

theorem ofBytes_bytes (de : Dirent) : ofBytes de.bytes = de := by
  have hx : de.inum.toNat < 2 ^ 16 := UInt16.toNat_lt _
  have hnat : (Dinode.part de.inum.toNat 0).toNat + 2 ^ 8 * (Dinode.part de.inum.toNat 1).toNat =
      de.inum.toNat := by
    rw [Dinode.part_toNat, Dinode.part_toNat]
    norm_num
    omega
  simp only [ofBytes, bytes, List.cons_append, List.nil_append, List.getD_cons_zero,
    List.getD_cons_succ, hnat, UInt16.ofNat_toNat, List.drop_succ_cons, List.drop_zero]

end Dirent
end Xv6.Source
