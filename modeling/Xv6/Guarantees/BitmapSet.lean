import Xv6.Inode.Blocks
import Xv6.Source.Balloc

/-!
# The bitmap is a set of blocks

`balloc` takes the smallest block below `sb.size` whose bit is clear, and `bfree` gives a block back.
The bits are those of the blocks of the bitmap, also behind `sb.size` in the last of them.
-/
namespace Xv6.Guarantees.BitmapSet

open Xv6.Source Xv6.Source.Balloc
open Xv6.Source.Fs (Disk bzero)
open Xv6.Inode (bit_update setBit_bit clearBit_bit)

variable {sb : Superblock} {d : Disk} {k : Nat}

/-- The bit of a block. -/
def inUse (sb : Superblock) (d : Disk) (k : Nat) : Bool := (d.block (bblock sb k)).bit (k % BPB)

/-- The bits of the boot block and of the blocks of the bitmap are set. -/
structure Reserved (sb : Superblock) (d : Disk) : Prop where
  boot : 0 < sb.size → inUse sb d 0 = true
  bitmap : ∀ k < sb.size, bblock sb k < sb.size → inUse sb d (bblock sb k) = true

/-- The bit lies in a block of the bitmap. -/
def InBitmap (sb : Superblock) (k : Nat) : Prop := k / BPB * BPB < sb.size

theorem bpb_eq : BPB = 8192 := rfl

theorem uint_nat (h : k < 2 ^ 32) : uint k = k := by
  unfold uint
  omega

theorem int_nat (h : k < 2 ^ 31) : int k = k := by
  unfold int
  omega

theorem bblock_nat (sb : Superblock) (k : Nat) : bblock sb k = (k / BPB + sb.bmapstart) % 2 ^ 32 := by
  unfold bblock uint
  rw [← Int.ofNat_tdiv]
  omega

theorem bblock_eq_iff {j : Nat} (hj : j < 2 ^ 32) (hk : k < 2 ^ 32) : bblock sb j = bblock sb k ↔ j / BPB = k / BPB := by
  rw [bblock_nat, bblock_nat, bpb_eq]
  omega

/-- The inner loop stops at the first clear bit of the block, below `sb.size`. -/
theorem freeBit_spec (sb : Superblock) (data : Block) {b rounds bi : Nat} (hb : b + BPB < 2 ^ 31) (hbi : bi + rounds = BPB) :
    (freeBit sb data b rounds bi = none ∧ ∀ j, bi ≤ j → j < BPB → b + j < sb.size → data.bit j = true) ∨
    ∃ j : Nat, freeBit sb data b rounds bi = some (j : Int) ∧ j < BPB ∧ b + j < sb.size ∧ data.bit j = false ∧
      ∀ i, bi ≤ i → i < j → data.bit i = true := by
  induction rounds generalizing bi with
  | zero =>
    left
    refine ⟨rfl, fun j hj hlt => ?_⟩
    omega
  | succ rounds ih =>
    have hsum : uint (b + bi) = b + bi := uint_nat (k := b + bi) (by omega)
    have hnext : int (bi + 1) = (bi + 1 : Nat) := int_nat (k := bi + 1) (by omega)
    unfold freeBit
    rw [hsum, hnext, Int.toNat_natCast]
    split
    · next hin =>
      by_cases hbit : data.bit bi = true
      · rw [if_pos hbit]
        rcases @ih (bi + 1) (by omega) with ⟨hnone, hset⟩ | ⟨j, hsome, hj, hlt, hclear, hset⟩
        · left
          refine ⟨hnone, fun j hle => ?_⟩
          rcases Nat.eq_or_lt_of_le hle with rfl | hgt
          · exact fun _ _ => hbit
          · exact hset j hgt
        · right
          refine ⟨j, hsome, hj, hlt, hclear, fun i hle => ?_⟩
          rcases Nat.eq_or_lt_of_le hle with rfl | hgt
          · exact fun _ => hbit
          · exact hset i hgt
      · right
        rw [if_neg hbit]
        exact ⟨bi, rfl, by omega, hin.2, Bool.eq_false_iff.2 hbit, fun i _ _ => by omega⟩
    · next hout =>
      left
      refine ⟨rfl, fun j hle hlt hj => ?_⟩
      omega

theorem bblock_add (q : Nat) {j : Nat} (hj : j < BPB) : bblock sb (q * BPB + j : Nat) = bblock sb (q * BPB : Nat) := by
  rw [bpb_eq] at hj
  rw [bblock_nat, bblock_nat, bpb_eq]
  omega

theorem add_mod (q : Nat) {j : Nat} (hj : j < BPB) : (q * BPB + j) % BPB = j := by
  rw [Nat.mul_add_mod_self_right, Nat.mod_eq_of_lt hj]

theorem inUse_add (q : Nat) {j : Nat} (hj : j < BPB) :
    inUse sb d (q * BPB + j) = (d.block (bblock sb (q * BPB : Nat))).bit j := by
  rw [inUse, bblock_add q hj, add_mod q hj]

/-- The disk after `balloc` has taken block `k`. -/
def taken (sb : Superblock) (d : Disk) (k : Nat) : Disk :=
  bzero ((d.store (bblock sb k) ((d.block (bblock sb k)).setBit (k % BPB))).logWrite (bblock sb k)) k

theorem take_eq {q j : Nat} (hj : j < BPB) (hlt : q * BPB + j < 2 ^ 32) :
    take sb d (q * BPB : Nat) j = (q * BPB + j, taken sb d (q * BPB + j)) := by
  have hsum : uint ((q * BPB : Nat) + j) = q * BPB + j := uint_nat (k := q * BPB + j) hlt
  rw [take, taken, hsum, bblock_add q hj, add_mod q hj, Int.toNat_natCast]

theorem inUse_front {q j : Nat} (hj : j ≤ BPB) (hset : ∀ k < q * BPB, k < sb.size → inUse sb d k = true)
    (hbits : ∀ i < j, q * BPB + i < sb.size → (d.block (bblock sb (q * BPB : Nat))).bit i = true) :
    ∀ k < q * BPB + j, k < sb.size → inUse sb d k = true := by
  intro k hk hin
  rcases Nat.lt_or_ge k (q * BPB) with hlt | hge
  · exact hset k hlt hin
  · obtain ⟨i, rfl⟩ := Nat.exists_eq_add_of_le hge
    rw [inUse_add q (by omega)]
    exact hbits i (by omega) hin

/-- The outer loop at bitmap block `q`, when the bits of the blocks in front of it are set. -/
theorem ballocLoop_spec (hsize : sb.size < 2 ^ 30) {rounds q : Nat} (hrounds : sb.size ≤ (q + rounds) * BPB)
    (hq : q * BPB < sb.size + BPB) (hset : ∀ k < q * BPB, k < sb.size → inUse sb d k = true) :
    (ballocLoop sb d (rounds + 1) (q * BPB : Nat) = some (0, d) ∧ ∀ k < sb.size, inUse sb d k = true) ∨
    ∃ k < sb.size, inUse sb d k = false ∧ (∀ j < k, inUse sb d j = true) ∧
      ballocLoop sb d (rounds + 1) (q * BPB : Nat) = some (k, taken sb d k) := by
  have hbpb := bpb_eq
  induction rounds generalizing q with
  | zero =>
    rw [Nat.add_zero] at hrounds
    left
    unfold ballocLoop
    rw [uint_nat (by omega), if_neg (Nat.not_lt.2 hrounds)]
    exact ⟨rfl, fun k hk => hset k (Nat.lt_of_lt_of_le hk hrounds) hk⟩
  | succ rounds ih =>
    have hnext : int ((q * BPB : Nat) + BPB) = ((q + 1) * BPB : Nat) := by
      rw [Nat.succ_mul]
      exact int_nat (k := q * BPB + BPB) (by omega)
    unfold ballocLoop
    rw [uint_nat (by omega), hnext]
    rcases Nat.lt_or_ge (q * BPB) sb.size with hlt | hge
    · rw [if_pos hlt]
      rcases freeBit_spec sb (d.block (bblock sb (q * BPB : Nat))) (by omega : q * BPB + BPB < 2 ^ 31)
        (Nat.zero_add BPB) with ⟨hnone, hfull⟩ | ⟨j, hsome, hj, hin, hclear, hfirst⟩
      · -- No bit below `sb.size` is clear in this block of the bitmap.
        rw [show freeBit sb _ _ BPB 0 = none from hnone]
        apply ih
        · rw [Nat.add_right_comm]
          exact hrounds
        · rw [Nat.succ_mul]
          omega
        · rw [Nat.succ_mul]
          exact inUse_front (Nat.le_refl BPB) hset fun i hi => hfull i (Nat.zero_le i) hi
      · right
        rw [show freeBit sb _ _ BPB 0 = some (j : Int) from hsome]
        refine ⟨q * BPB + j, hin, ?_, fun i hi => ?_, congrArg some (take_eq hj (by omega))⟩
        · rw [inUse_add q hj]
          exact hclear
        · exact inUse_front (Nat.le_of_lt hj) hset (fun i hi _ => hfirst i (Nat.zero_le i) hi) i hi (by omega)
    · left
      rw [if_neg (Nat.not_lt.2 hge)]
      exact ⟨rfl, fun k hk => hset k (Nat.lt_of_lt_of_le hk hge) hk⟩

/-- A block that `balloc` takes is not in the bitmap. -/
theorem Reserved.bblock_ne (h : Reserved sb d) (hk : k < sb.size) (hfree : inUse sb d k = false)
    {j : Nat} (hj : InBitmap sb j) : bblock sb j ≠ k := by
  rintro rfl
  unfold InBitmap at hj
  have hsame : bblock sb (j / BPB * BPB : Nat) = bblock sb j := by
    rw [bblock_nat, bblock_nat, Nat.mul_div_cancel _ (by decide)]
  have hset := h.bitmap _ hj (by rw [hsame]; exact hk)
  rw [hsame, hfree] at hset
  cases hset

theorem InBitmap.lt {j : Nat} (hsize : sb.size < 2 ^ 30) (hj : InBitmap sb j) : j < 2 ^ 32 := by
  unfold InBitmap at hj
  rw [bpb_eq] at hj
  omega

theorem inUse_taken (h : Reserved sb d) (hsize : sb.size < 2 ^ 30) (hk : k < sb.size) (hfree : inUse sb d k = false)
    {j : Nat} (hj : InBitmap sb j) : inUse sb (taken sb d k) j = if j = k then true else inUse sb d j := by
  have hne : bblock sb j ≠ k := h.bblock_ne hk hfree hj
  have hblock : (taken sb d k).block (bblock sb j) =
      Function.update d.block (bblock sb k) ((d.block (bblock sb k)).setBit (k % BPB)) (bblock sb j) :=
    Function.update_of_ne hne _ _
  rw [inUse, hblock]
  exact bit_update (bblock_eq_iff (hj.lt hsize) (by omega)) (setBit_bit _ _)

theorem bfree_spec (hk : k < 2 ^ 32) (hset : inUse sb d k = true) :
    ∃ d', bfree sb d k = .ok d' ∧ (∀ j < 2 ^ 32, inUse sb d' j = if j = k then false else inUse sb d j) ∧
      ∀ c, c ≠ bblock sb k → d'.block c = d.block c := by
  refine ⟨_, if_pos hset, fun j hj => ?_, fun c hc => Function.update_of_ne hc _ _⟩
  exact bit_update (bblock_eq_iff hj hk) (clearBit_bit _ _)

/-- The bitmap is a set: `balloc` takes the smallest block that is not in it, `bfree` takes one out. -/
theorem bitmap_is_set (sb : Superblock) (d : Disk) (hsize : sb.size < 2 ^ 30) (h : Reserved sb d) :
    (∃ r d', balloc sb d = some (r, d') ∧ (r = 0 ↔ ∀ k < sb.size, inUse sb d k = true) ∧ (r = 0 → d' = d) ∧
      (r ≠ 0 → r < sb.size ∧ inUse sb d r = false ∧ (∀ k < r, inUse sb d k = true) ∧
        (∀ k, InBitmap sb k → inUse sb d' k = if k = r then true else inUse sb d k) ∧
        d'.block r = Block.zero ∧ (∀ c, c ≠ r → c ≠ bblock sb r → d'.block c = d.block c) ∧
        ∃ d'', bfree sb d' r = .ok d'' ∧ ∀ k, InBitmap sb k → inUse sb d'' k = inUse sb d k)) ∧
    ∀ b < 2 ^ 32, inUse sb d b = true →
      ∃ d', bfree sb d b = .ok d' ∧ (∀ k < 2 ^ 32, inUse sb d' k = if k = b then false else inUse sb d k) ∧
        ∀ c, c ≠ bblock sb b → d'.block c = d.block c := by
  refine ⟨?_, fun b hb hset => bfree_spec hb hset⟩
  have hbpb := bpb_eq
  have hrounds : sb.size ≤ (0 + 2 ^ 19) * BPB := by omega
  rcases @ballocLoop_spec sb d hsize _ 0 hrounds (by omega) fun k hk => by omega with ⟨hrun, hfull⟩ | ⟨r, hr, hfree, hfirst, hrun⟩
  · exact ⟨0, d, hrun, iff_of_true rfl hfull, fun _ => rfl, fun hne => absurd rfl hne⟩
  · have hpos : r ≠ 0 := by
      rintro rfl
      rw [h.boot hr] at hfree
      cases hfree
    have hsome : ¬ ∀ k < sb.size, inUse sb d k = true := by
      intro hall
      rw [hall r hr] at hfree
      cases hfree
    have hbits : ∀ k, InBitmap sb k → inUse sb (taken sb d r) k = if k = r then true else inUse sb d k :=
      fun k hk => inUse_taken h hsize hr hfree hk
    refine ⟨r, taken sb d r, hrun, iff_of_false hpos hsome, fun h0 => absurd h0 hpos, fun _ =>
      ⟨hr, hfree, hfirst, hbits, Function.update_self .., fun c hc hb => ?_, ?_⟩⟩
    · exact (Function.update_of_ne hc _ _).trans (Function.update_of_ne hb _ _)
    · -- `bfree` finds the bit that `balloc` has set.
      have hin : InBitmap sb r := Nat.lt_of_le_of_lt (Nat.div_mul_le_self r BPB) hr
      have hset := hbits r hin
      rw [if_pos rfl] at hset
      obtain ⟨d'', hrun'', hbits'', -⟩ := bfree_spec (by omega) hset
      refine ⟨d'', hrun'', fun k hk => ?_⟩
      rw [hbits'' k (hk.lt hsize)]
      by_cases hkr : k = r
      · rw [if_pos hkr, hkr, hfree]
      · rw [if_neg hkr, hbits k hk, if_neg hkr]

/-- Two blocks of bitmap, in each of which the first 64 bits are set. -/
def smallDisk : Disk := ⟨fun _ j => if j.val < 8 then 255 else 0, []⟩

def smallSb : Superblock := ⟨10000, 9954, 200, 30, 2, 32, 45⟩

theorem smallDisk_bits : (∀ k < 64, inUse smallSb smallDisk k = true) ∧ inUse smallSb smallDisk 64 = false := by decide

theorem reserved_small : Reserved smallSb smallDisk := by
  refine ⟨fun _ => smallDisk_bits.1 0 (by decide), fun k hk _ => smallDisk_bits.1 _ ?_⟩
  have hlt : k < 10000 := hk
  have hstart : smallSb.bmapstart = 45 := rfl
  rw [bblock_nat, bpb_eq, hstart]
  omega

theorem bitmap_is_set_small : ∃ d', balloc smallSb smallDisk = some (64, d') ∧ inUse smallSb d' 64 = true := by
  obtain ⟨⟨r, d', hrun, hzero, -, htaken⟩, -⟩ := bitmap_is_set smallSb smallDisk (by decide) reserved_small
  have hne : r ≠ 0 := by
    intro h0
    have hset := hzero.1 h0 64 (by decide)
    rw [smallDisk_bits.2] at hset
    cases hset
  obtain ⟨hr, hfree, hfirst, hbits, -⟩ := htaken hne
  have hle : r ≤ 64 := by
    apply Nat.le_of_not_lt
    intro hlt
    have hset := hfirst 64 hlt
    rw [smallDisk_bits.2] at hset
    cases hset
  have hge : 64 ≤ r := by
    apply Nat.le_of_not_lt
    intro hlt
    rw [smallDisk_bits.1 r hlt] at hfree
    cases hfree
  obtain rfl := Nat.le_antisymm hle hge
  exact ⟨d', hrun, hbits 64 (show 64 / 8192 * 8192 < 10000 by decide)⟩

end Xv6.Guarantees.BitmapSet
