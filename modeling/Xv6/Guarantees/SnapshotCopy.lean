import Xv6.Source.Memmove

/-!
# memmove copies a snapshot

Both `memmove`s leave at `dst` what was at `src` before the call, however the two ranges overlap.
-/
namespace Xv6.Guarantees.SnapshotCopy

open Xv6.Source.Memmove

variable {d s : BitVec 64} {n : Nat}

/-- Memory after the `n` bytes at `s` have been copied to `d` at once. -/
def snapshot (n : Nat) (d s : BitVec 64) (m : Memory) : Memory := fun a =>
  if (a - d).toNat < n then m (s + (a - d)) else m a

/-- Upwards, nothing is stored where a byte is still to be read if `d` is not among the `n` bytes at `s`. -/
theorem copyUp_snapshot (m : Memory) (hn : n < 2 ^ 64) (h : d = s ∨ n ≤ (d - s).toNat) :
    copyUp n d s m = snapshot n d s m := by
  induction n generalizing d s m with
  | zero =>
    funext a
    exact (if_neg (Nat.not_lt_zero _)).symm
  | succ n ih =>
    have hstep : d + 1 = s + 1 ∨ n ≤ (d + 1 - (s + 1)).toNat := by bv_omega
    rw [copyUp, ih _ (by omega) hstep]
    funext a
    have hsrc : s + 1 + (a - (d + 1)) = s + (a - d) := by bv_omega
    unfold snapshot
    rw [hsrc]
    by_cases ha : a = d
    · have hnot : ¬ (a - (d + 1)).toNat < n := by bv_omega
      rw [if_neg hnot, ha, Function.update_self, BitVec.sub_self, BitVec.add_zero]
      exact (if_pos (Nat.succ_pos n)).symm
    · have hless : (a - (d + 1)).toNat < n ↔ (a - d).toNat < n + 1 := by bv_omega
      rw [Function.update_of_ne ha, if_congr hless rfl rfl]
      split
      · have hread : s + (a - d) ≠ d := by bv_omega
        rw [Function.update_of_ne hread]
      · rfl

theorem copyDown_snapshot (m : Memory) (hn : n < 2 ^ 64) (h : d = s ∨ n ≤ (s - d).toNat) :
    copyDown n (d + BitVec.ofNat 64 n) (s + BitVec.ofNat 64 n) m = snapshot n d s m := by
  induction n generalizing m with
  | zero =>
    funext a
    exact (if_neg (Nat.not_lt_zero _)).symm
  | succ n ih =>
    have hlast : ∀ p : BitVec 64, p + BitVec.ofNat 64 (n + 1) - 1 = p + BitVec.ofNat 64 n := by
      intro p
      bv_omega
    rw [copyDown, hlast, hlast, ih _ (by omega) (h.imp id Nat.le_of_succ_le)]
    funext a
    unfold snapshot
    by_cases ha : a = d + BitVec.ofNat 64 n
    · have hoff : a - d = BitVec.ofNat 64 n := by bv_omega
      have hnat : (a - d).toNat = n := by bv_omega
      rw [hnat, if_neg (Nat.lt_irrefl n), if_pos (Nat.lt_succ_self n), hoff, ha, Function.update_self]
    · have hless : (a - d).toNat < n ↔ (a - d).toNat < n + 1 := by bv_omega
      rw [Function.update_of_ne ha, if_congr hless rfl rfl]
      split
      · have hread : s + (a - d) ≠ d + BitVec.ofNat 64 n := by bv_omega
        rw [Function.update_of_ne hread]
      · rfl

theorem memmove_snapshot (m : Memory) (dst src : BitVec 64) (n : BitVec 32) (hn : n.toNat < 2 ^ 31)
    (hdst : dst.toNat + n.toNat ≤ 2 ^ 64) (hsrc : src.toNat + n.toNat ≤ 2 ^ 64) :
    ∃ m', kernelMemmove dst src n m = (dst, m') ∧ userMemmove dst src n m = (dst, m') ∧
      (∀ i < n.toNat, m' (dst + BitVec.ofNat 64 i) = m (src + BitVec.ofNat 64 i)) ∧
      ∀ a, a.toNat < dst.toNat ∨ dst.toNat + n.toNat ≤ a.toNat → m' a = m a := by
  have hlt : n.toNat < 2 ^ 64 := by omega
  have hint : n.toInt = n.toNat := BitVec.toInt_eq_toNat_of_lt (by omega)
  have hwidth : n.setWidth 64 = BitVec.ofNat 64 n.toNat := (BitVec.ofNat_toNat ..).symm
  have hsign : n.signExtend 64 = BitVec.ofNat 64 n.toNat := by
    rw [BitVec.signExtend, hint, BitVec.ofInt_natCast]
  refine ⟨snapshot n.toNat dst src m, ?_, ?_, fun i hi => ?_, fun a ha => ?_⟩
  · unfold kernelMemmove
    rw [hwidth]
    split
    · next hzero =>
      rw [hzero]
      exact congrArg (Prod.mk dst) (copyUp_snapshot m (n := 0) (by decide) (.inr (Nat.zero_le _)))
    · split
      · rw [copyDown_snapshot m hlt (by bv_omega)]
      · rw [copyUp_snapshot m hlt (by bv_omega)]
  · unfold userMemmove
    rw [hsign, hint, Int.toNat_natCast]
    split
    · rw [copyUp_snapshot m hlt (by bv_omega)]
    · rw [copyDown_snapshot m hlt (by bv_omega)]
  · have hoff : dst + BitVec.ofNat 64 i - dst = BitVec.ofNat 64 i := by bv_omega
    have hin : (BitVec.ofNat 64 i).toNat < n.toNat := by bv_omega
    unfold snapshot
    rw [hoff, if_pos hin]
  · have hout : ¬ (a - dst).toNat < n.toNat := by bv_omega
    exact if_neg hout

/-- Three bytes moved up by one, in place. -/
theorem memmove_snapshot_overlap :
    ∃ m' : Memory, kernelMemmove 101 100 3 (fun a => a.toNat.toUInt8) = (101, m') ∧
      userMemmove 101 100 3 (fun a => a.toNat.toUInt8) = (101, m') ∧ m' 103 = 102 := by
  obtain ⟨m', hkernel, huser, hcopied, -⟩ :=
    memmove_snapshot (fun a => a.toNat.toUInt8) 101 100 3 (by decide) (by decide) (by decide)
  exact ⟨m', hkernel, huser, hcopied 2 (by decide)⟩

end Xv6.Guarantees.SnapshotCopy
