import Mathlib.Algebra.Group.Nat.Defs
import Mathlib.Logic.Function.Basic

/-!
# memmove

kernel/string.c and user/ulib.c have a `memmove` each. Memory is all of the 64-bit addresses, and
pointers wrap. The length is a `uint` in the kernel and an `int` for the user.
-/
namespace Xv6.Source.Memmove

abbrev Memory := BitVec 64 → UInt8

/-- `while(n-- > 0) *d++ = *s++` -/
def copyUp : Nat → BitVec 64 → BitVec 64 → Memory → Memory
  | 0, _, _, m => m
  | n + 1, d, s, m => copyUp n (d + 1) (s + 1) (Function.update m d (m s))

/-- `while(n-- > 0) *--d = *--s` -/
def copyDown : Nat → BitVec 64 → BitVec 64 → Memory → Memory
  | 0, _, _, m => m
  | n + 1, d, s, m => copyDown n (d - 1) (s - 1) (Function.update m (d - 1) (m (s - 1)))

/-- `memmove` of kernel/string.c: the pointer that is returned, and memory. -/
def kernelMemmove (dst src : BitVec 64) (n : BitVec 32) (m : Memory) : BitVec 64 × Memory :=
  if n = 0 then (dst, m)
  else if src < dst ∧ src + n.setWidth 64 > dst then
    (dst, copyDown n.toNat (dst + n.setWidth 64) (src + n.setWidth 64) m)
  else (dst, copyUp n.toNat dst src m)

/-- `memmove` of user/ulib.c. -/
def userMemmove (dst src : BitVec 64) (n : BitVec 32) (m : Memory) : BitVec 64 × Memory :=
  if src > dst then (dst, copyUp n.toInt.toNat dst src m)
  else (dst, copyDown n.toInt.toNat (dst + n.signExtend 64) (src + n.signExtend 64) m)

end Xv6.Source.Memmove
