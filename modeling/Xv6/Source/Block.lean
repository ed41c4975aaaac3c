import Mathlib.Logic.Function.Basic
import Mathlib.Data.List.Range
import Mathlib.Tactic.Ring

/-!
# Disk blocks and the log header

`kernel/param.h`, `kernel/fs.h` and the block views of `kernel/log.c`. A block is
its BSIZE bytes. `struct logheader` is read and written in place as little-endian
32-bit integers: `n` at integer 0 and `block[i]` at integer `i + 1`.
-/
namespace Xv6.Source

def MAXOPBLOCKS : Nat := 10
def LOGSIZE : Nat := MAXOPBLOCKS * 3
def NBUF : Nat := MAXOPBLOCKS * 3
def BSIZE : Nat := 1024
def FSSIZE : Nat := 2000
def ROOTDEV : UInt32 := 1

abbrev Block := Fin BSIZE → UInt8

namespace Block

def byte (d : Block) (j : Nat) : Nat := if h : j < BSIZE then (d ⟨j, h⟩).toNat else 0

/-- `((int *) data)[k]`, kept as its 32 bits. -/
def getInt (d : Block) (k : Nat) : UInt32 :=
  UInt32.ofNat (d.byte (4 * k) + 2 ^ 8 * d.byte (4 * k + 1) +
    2 ^ 16 * d.byte (4 * k + 2) + 2 ^ 24 * d.byte (4 * k + 3))

/-- `((int *) data)[k] = w`. -/
def setInt (d : Block) (k : Nat) (w : UInt32) : Block := fun j =>
  if j.val / 4 = k then UInt8.ofNat (w.toNat / 2 ^ (8 * (j.val % 4))) else d j

theorem byte_lt (d : Block) (j : Nat) : d.byte j < 256 := by
  unfold byte
  split
  · exact UInt8.toNat_lt _
  · decide

theorem byte_setInt (d : Block) (k j : Nat) (w : UInt32) (hj : j < BSIZE) :
    (d.setInt k w).byte j =
      if j / 4 = k then w.toNat / 2 ^ (8 * (j % 4)) % 256 else d.byte j := by
  simp only [byte, setInt, hj, dif_pos]
  split <;> simp

theorem getInt_toNat (d : Block) (k : Nat) : (d.getInt k).toNat =
    d.byte (4 * k) + 2 ^ 8 * d.byte (4 * k + 1) +
      2 ^ 16 * d.byte (4 * k + 2) + 2 ^ 24 * d.byte (4 * k + 3) := by
  have h0 := d.byte_lt (4 * k)
  have h1 := d.byte_lt (4 * k + 1)
  have h2 := d.byte_lt (4 * k + 2)
  have h3 := d.byte_lt (4 * k + 3)
  simp only [getInt, UInt32.toNat_ofNat']
  omega

theorem getInt_setInt (d : Block) (k : Nat) (w : UInt32) (hk : k < BSIZE / 4) :
    (d.setInt k w).getInt k = w := by
  have hw : w.toNat < 2 ^ 32 := UInt32.toNat_lt w
  have hB : BSIZE = 1024 := rfl
  apply UInt32.toNat_inj.mp
  rw [getInt_toNat, byte_setInt _ _ _ _ (by omega), byte_setInt _ _ _ _ (by omega),
    byte_setInt _ _ _ _ (by omega), byte_setInt _ _ _ _ (by omega)]
  have e0 : 4 * k / 4 = k ∧ 4 * k % 4 = 0 := by omega
  have e1 : (4 * k + 1) / 4 = k ∧ (4 * k + 1) % 4 = 1 := by omega
  have e2 : (4 * k + 2) / 4 = k ∧ (4 * k + 2) % 4 = 2 := by omega
  have e3 : (4 * k + 3) / 4 = k ∧ (4 * k + 3) % 4 = 3 := by omega
  simp only [e0, e1, e2, e3, if_true]
  norm_num
  omega

theorem getInt_setInt_ne (d : Block) (k k' : Nat) (w : UInt32) (hk : k' < BSIZE / 4)
    (hne : k' ≠ k) : (d.setInt k w).getInt k' = d.getInt k' := by
  have hB : BSIZE = 1024 := rfl
  apply UInt32.toNat_inj.mp
  rw [getInt_toNat, getInt_toNat, byte_setInt _ _ _ _ (by omega), byte_setInt _ _ _ _ (by omega),
    byte_setInt _ _ _ _ (by omega), byte_setInt _ _ _ _ (by omega)]
  have e0 : 4 * k' / 4 ≠ k := by omega
  have e1 : (4 * k' + 1) / 4 ≠ k := by omega
  have e2 : (4 * k' + 2) / 4 ≠ k := by omega
  have e3 : (4 * k' + 3) / 4 ≠ k := by omega
  simp only [if_neg e0, if_neg e1, if_neg e2, if_neg e3]

/-- Storing the integer that is already there leaves every byte in place. -/
theorem setInt_getInt (d : Block) (k : Nat) : d.setInt k (d.getInt k) = d := by
  have h0 := d.byte_lt (4 * k)
  have h1 := d.byte_lt (4 * k + 1)
  have h2 := d.byte_lt (4 * k + 2)
  have h3 := d.byte_lt (4 * k + 3)
  funext j
  simp only [setInt]
  split
  · next hj =>
    apply UInt8.toNat_inj.mp
    have hb : (d j).toNat = d.byte j.val := by simp [byte]
    rw [hb, UInt8.toNat_ofNat', getInt_toNat]
    obtain h | h | h | h : j.val = 4 * k ∨ j.val = 4 * k + 1 ∨ j.val = 4 * k + 2 ∨
      j.val = 4 * k + 3 := by omega
    · have e : j.val % 4 = 0 := by omega
      rw [e, h]
      norm_num
      omega
    · have e : j.val % 4 = 1 := by omega
      rw [e, h]
      norm_num
      omega
    · have e : j.val % 4 = 2 := by omega
      rw [e, h]
      norm_num
      omega
    · have e : j.val % 4 = 3 := by omega
      rw [e, h]
      norm_num
      omega
  · rfl

end Block
end Xv6.Source
