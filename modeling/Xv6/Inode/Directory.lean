import Mathlib.Algebra.BigOperators.Group.Finset.Basic
import Xv6.Inode.Node

/-!
# Directories

The content of a directory as a list of entries: appending one, and writing one over
another.
-/
namespace Xv6.Inode

open Xv6.Source Xv6.Source.Fs

/-- Entry `k` of a directory with these bytes. -/
def entry (data : List UInt8) (k : Nat) : Dirent :=
  Dirent.ofBytes ((data.drop (Dirent.size * k)).take Dirent.size)

def entries (data : List UInt8) : List Dirent :=
  (List.range (data.length / Dirent.size)).map (entry data)

/-- The name of an entry, up to a NUL. -/
def key (name : List UInt8) : List UInt8 := name.takeWhile (· ≠ 0)

/-- The name of the entry of a directory for itself. -/
def dotKey : List UInt8 := ['.'.toUInt8]

/-- How many entries of a directory other than `.` name inode `i`. -/
def namesIn (nd : Node) (i : Nat) : Nat :=
  if nd.type = T_DIR then
    (entries nd.data).countP fun de => de.inum ≠ 0 ∧ de.inum.toNat = i ∧ key de.name ≠ dotKey
  else 0

/-- How many entries of directories other than `.` name inode `i`. -/
def linkCount (sb : Superblock) (nodes : Nat → Node) (i : Nat) : Nat :=
  ∑ dir ∈ Finset.range sb.ninodes, namesIn (nodes dir) i

/-- The entry behind whole entries. -/
theorem entry_append_right {data : List UInt8} {k : Nat} {de : Dirent} (hlen : data.length = Dirent.size * k)
    (hname : de.name.length = DIRSIZ) (rest : List UInt8) : entry (data ++ (de.bytes ++ rest)) k = de := by
  have hb := Dirent.bytes_length hname
  rw [entry, ← hlen, List.drop_left, ← hb, List.take_left, Dirent.ofBytes_bytes]

theorem entry_append_left {data : List UInt8} {k : Nat} (hk : Dirent.size * k + Dirent.size ≤ data.length)
    (rest : List UInt8) : entry (data ++ rest) k = entry data k := by
  rw [entry, entry, List.drop_append_of_le_length (by omega),
    List.take_append_of_le_length (by rw [List.length_drop]; omega)]

/-- An entry is put behind the others. -/
theorem entries_append {data : List UInt8} {de : Dirent} (hlen : data.length % Dirent.size = 0)
    (hname : de.name.length = DIRSIZ) : entries (data ++ de.bytes) = entries data ++ [de] := by
  have hb := Dirent.bytes_length hname
  have hdiv := Nat.div_add_mod data.length Dirent.size
  rw [hlen, Nat.add_zero] at hdiv
  have hpos : 0 < Dirent.size := by decide
  have hcount : (data ++ de.bytes).length / Dirent.size = data.length / Dirent.size + 1 := by
    rw [List.length_append, hb, Nat.add_div_right _ hpos]
  rw [entries, hcount, List.range_succ, List.map_append, List.map_singleton]
  refine congrArg₂ _ (List.map_congr_left fun k hk => entry_append_left ?_ _) ?_
  · have hk := List.mem_range.mp hk
    have := Nat.mul_le_mul_left Dirent.size (Nat.succ_le_of_lt hk)
    rw [Nat.mul_succ] at this
    omega
  · have := entry_append_right hdiv.symm hname []
    rw [List.append_nil] at this
    rw [this]

/-- Zeroes behind the entries are free entries. -/
theorem entries_append_zero {data : List UInt8} (hlen : data.length % Dirent.size = 0) (k : Nat) :
    entries (data ++ List.replicate (Dirent.size * k) 0) = entries data ++ List.replicate k .zero := by
  induction k with
  | zero => simp
  | succ k ih =>
    have hz : List.replicate Dirent.size 0 = Dirent.bytes .zero := by decide
    have hlen' : (data ++ List.replicate (Dirent.size * k) (0 : UInt8)).length % Dirent.size = 0 := by
      simp [hlen]
    rw [Nat.mul_succ, ← List.replicate_append_replicate, ← List.append_assoc, hz,
      entries_append hlen' (by decide), ih, List.append_assoc, List.replicate_succ']

end Xv6.Inode
