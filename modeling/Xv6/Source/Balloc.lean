import Xv6.Source.Fs

/-!
# kernel/fs.c: the integers of the block allocator

`balloc` and `bfree` as in `Source.Fs`, but loop by loop and with the widths of the source: `b` and `bi`
are `int`, block numbers and `sb.size` are `uint`, and an `int` is compared with a `uint` as a `uint`.
The message of `balloc` is left out.
-/
namespace Xv6.Source.Balloc

open Xv6.Source.Fs (Disk Kernel bzero)

/-- A number stored in a `uint`. -/
def uint (x : Int) : Nat := (x % 2 ^ 32).toNat

/-- A number stored in an `int`. -/
def int (x : Int) : Int := (x + 2 ^ 31) % 2 ^ 32 - 2 ^ 31

variable (sb : Superblock)

/-- `BBLOCK(b, sb)` -/
def bblock (b : Int) : Nat := uint (b.tdiv BPB + sb.bmapstart)

/-- `for(bi = 0; bi < BPB && b + bi < sb.size; bi++)`. The rounds for which it is called are `BPB`, so
that `bi` is `BPB` behind the last of them. -/
def freeBit (data : Block) (b : Int) : Nat → Int → Option Int
  | 0, _ => none
  | rounds + 1, bi =>
    if bi < BPB ∧ uint (b + bi) < sb.size then
      if data.bit bi.toNat then freeBit data b rounds (int (bi + 1)) else some bi
    else none

/-- The block is marked, then zeroed. -/
def take (d : Disk) (b bi : Int) : Nat × Disk :=
  let bp := bblock sb b
  (uint (b + bi), bzero ((d.store bp ((d.block bp).setBit bi.toNat)).logWrite bp) (uint (b + bi)))

/-- `for(b = 0; b < sb.size; b += BPB)`; `none` is a loop that is still going on. -/
def ballocLoop (d : Disk) : Nat → Int → Option (Nat × Disk)
  | 0, _ => none
  | rounds + 1, b =>
    if uint b < sb.size then
      match freeBit sb (d.block (bblock sb b)) b BPB 0 with
      | some bi => some (take sb d b bi)
      | none => ballocLoop d rounds (int (b + BPB))
    else some (0, d)

/-- An `int` that grows by `BPB` is 0 again after 2^19 rounds, so a longer loop does not end. -/
def balloc (d : Disk) : Option (Nat × Disk) := ballocLoop sb d (2 ^ 19 + 1) 0

def bfree (d : Disk) (b : Nat) : Kernel Disk :=
  let bp := bblock sb b
  let bi := b % BPB
  if (d.block bp).bit bi then .ok ((d.store bp ((d.block bp).clearBit bi)).logWrite bp)
  else .error "freeing free block"

end Xv6.Source.Balloc
