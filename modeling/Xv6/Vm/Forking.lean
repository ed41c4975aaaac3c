import Xv6.Source.System
import Xv6.Vm.UserMemory
import Xv6.Vm.Copy

/-!
# The memory of a forked process

The calls of `fork` that work on memory, one after the other: a page for the trapframe, a page table
that maps it and the trampoline, a copy of the parent's pages, and a copy of its trapframe. Where one
fails, all pages that were taken are free again.
-/
namespace Xv6.Vm

open Xv6.Library.Total Xv6.Source.Vm
open Xv6.Source.System (copyTrapframe trapframeSize a0Offset)

variable {m m' m₁ m₂ m₃ : Mem} {t t' new : Pagetable} {sz tf tf' : Nat} {own : Multiset Nat} {a b : UInt64}

/-- All pages of a process. -/
def processPages (t : Pagetable) (sz tf : Nat) : Multiset Nat := space t (pageCount sz) + {tf}

/-- A process in memory, and others that own the pages `own`. -/
structure InMemory (m : Mem) (t : Pagetable) (sz tf : Nat) (own : Multiset Nat) (a b : UInt64) : Prop where
  maps : Maps t (pageCount sz) a b
  sound : Sound m (processPages t sz tf + own)
  apart : Apart m (processPages t sz tf + own)

theorem write_inside {pa i : Nat} {bytes : List UInt8} (h : i < bytes.length) (byte : Nat → UInt8) :
    write pa bytes byte (pa + i) = bytes[i] := by
  rw [write, if_pos (Nat.le_add_right pa i), Nat.add_sub_cancel_left, List.getD_eq_getElem _ _ h]

theorem write_outside {pa x : Nat} {bytes : List UInt8} (h : x < pa ∨ pa + bytes.length ≤ x) (byte : Nat → UInt8) :
    write pa bytes byte x = byte x := by
  rw [write]
  split_ifs with hle
  · exact List.getD_eq_default _ _ (by omega)
  · rfl

/-- Nothing has been written to but the page at `pa`. -/
structure Writes (pa : Nat) (m m' : Mem) : Prop where
  only : m' = { m with byte := m'.byte }
  outside : ∀ x, ¬ InPage pa x → m'.byte x = m.byte x

theorem Writes.refl (pa : Nat) (m : Mem) : Writes pa m m := ⟨rfl, fun _ _ => rfl⟩

theorem Writes.trans {pa : Nat} (h : Writes pa m m₁) (h' : Writes pa m₁ m₂) : Writes pa m m₂ where
  only := by rw [h'.only, h.only]
  outside x hx := (h'.outside x hx).trans (h.outside x hx)

theorem Writes.moves {pa : Nat} (h : Writes pa m m') : memory.Moves m {pa} m' {pa} := by
  refine ⟨?_, fun x hx => h.outside x (hx pa (Multiset.mem_add.2 (.inr (Multiset.mem_singleton_self pa)))), ?_⟩
  · rw [h.only]
    rfl
  · rw [h.only]
    rfl

/-- Bytes that are moved to a place in a page change this page only. -/
theorem writes_write {off : Nat} {bytes : List UInt8} (h : off + bytes.length ≤ PGSIZE) (m : Mem) (pa : Nat) :
    Writes pa m { m with byte := write (pa + off) bytes m.byte } := by
  refine ⟨rfl, fun x hx => write_outside ?_ m.byte⟩
  change ¬ (pa ≤ x ∧ x < pa + PGSIZE) at hx
  omega

/-- Registers are copied, and `a0` is 0. -/
theorem copyTrapframe_spec (m : Mem) (dst src : Nat) :
    Ends (copyTrapframe dst src) m fun _ m' => memory.Moves m {dst} m' {dst} ∧ ∀ i < trapframeSize,
      m'.byte (dst + i) = if a0Offset ≤ i ∧ i < a0Offset + 8 then 0 else m.byte (src + i) := by
  have hlen : (bytesAt m.byte src trapframeSize).length = trapframeSize := by rw [bytesAt, List.length_map, List.length_range]
  have hcopied : Writes dst m { m with byte := write dst (bytesAt m.byte src trapframeSize) m.byte } :=
    @writes_write 0 _ (by rw [hlen]; decide) m dst
  have hzeroed : Writes dst { m with byte := write dst (bytesAt m.byte src trapframeSize) m.byte }
      { m with byte := write (dst + a0Offset) (List.replicate 8 0) (write dst (bytesAt m.byte src trapframeSize) m.byte) } :=
    writes_write (by decide) _ dst
  refine .step (show (get : Prog Mem) m = .ok (m, m) from rfl) (.step rfl (.of_eq rfl ⟨(hcopied.trans hzeroed).moves, fun i hi => ?_⟩))
  show write (dst + a0Offset) (List.replicate 8 0) (write dst (bytesAt m.byte src trapframeSize) m.byte) (dst + i) = _
  split_ifs with ha0
  · rw [show dst + i = dst + a0Offset + (i - a0Offset) by omega, write_inside (by rw [List.length_replicate]; omega)]
    exact List.getElem_replicate ..
  · rw [write_outside (by rw [List.length_replicate]; omega), write_inside (by rw [hlen]; exact hi)]
    simp [bytesAt]

/-! ## The child -/

/-- What the child has of a parent with table `t`, size `sz` and trapframe `tf`. -/
structure ChildMemory (m : Mem) (t : Pagetable) (sz tf : Nat) (m' : Mem) (t' : Pagetable) (tf' : Nat) : Prop where
  maps : Maps t' (pageCount sz) (trampolinePte m.ram) (trapframePte tf')
  flags : ∀ v < pageCount sz, PTE_FLAGS (pte t' v) = PTE_FLAGS (pte t v)
  bytes : ∀ v < pageCount sz, ∀ j < PGSIZE, m'.byte (frame t' v + j) = m.byte (frame t v + j)
  registers : ∀ i < trapframeSize, m'.byte (tf' + i) = if a0Offset ≤ i ∧ i < a0Offset + 8 then 0 else m.byte (tf + i)
  moves : memory.Moves m 0 m' (processPages t' sz tf')

theorem or_valid {x : UInt64} (h : x &&& PTE_V ≠ 0) : x ||| PTE_V = x := by
  have hodd : x.toNat.testBit 0 = true := by
    rw [Nat.testBit_zero, decide_eq_true_eq]
    by_contra heven
    refine h (UInt64.toNat_inj.1 ?_)
    rw [UInt64.toNat_and, show PTE_V.toNat = 2 ^ 1 - 1 from rfl, Nat.and_two_pow_sub_one_eq_mod]
    show x.toNat % 2 = 0
    omega
  refine UInt64.toNat_inj.1 (Nat.eq_of_testBit_eq fun i => ?_)
  rw [UInt64.toNat_or, Nat.testBit_or, show PTE_V.toNat = 1 from rfl]
  cases i with
  | zero =>
    rw [hodd]
    rfl
  | succ i => rw [Nat.testBit_succ 1, show 1 / 2 = 0 from rfl, Nat.zero_testBit, Bool.or_false]

/-- A copy of a PTE has its flags. -/
theorem flags_copied {p q : UInt64} {pa : Nat} (hleaf : Leaf p) (hq : q = PA2PTE pa ||| PTE_FLAGS p ||| PTE_V) :
    PTE_FLAGS q = PTE_FLAGS p := by
  rw [hq, flags_entry pa (flags_lt p), or_valid]
  rw [flags_and p (by decide)]
  exact hleaf.1

/-- Pages that somebody owns keep their bytes while others are taken from the free ones. -/
theorem kept_of_free {pa x : Nat} (hm : memory.Moves m 0 m' own) (hok : Sound m {pa}) (hapart : Apart m {pa}) (hx : InPage pa x) :
    m'.byte x = m.byte x :=
  byte_kept hm (by rwa [zero_add]) (by rwa [zero_add]) hx

theorem singleton_le_frames {v n : Nat} (h : v < n) : {frame t v} ≤ frames t 0 n :=
  Multiset.singleton_le.2 (mem_frames.2 ⟨v, Nat.zero_le v, h, rfl⟩)

theorem frames_le_process (t : Pagetable) (sz tf : Nat) : frames t 0 (pageCount sz) ≤ processPages t sz tf :=
  (Multiset.le_add_left _ _).trans (Multiset.le_add_right _ _)

theorem inPage_add {pa j : Nat} (h : j < PGSIZE) : InPage pa (pa + j) := ⟨Nat.le_add_right _ _, Nat.add_lt_add_left h _⟩

/-- The copies of the pages and of the trapframe, into a table `new` and a page `tf'` that were free
before. -/
theorem childMemory_of_copies (h : InMemory m t sz tf own a b) (htaken : memory.Moves m 0 m₁ (tables new + {tf'}))
    (hcopied : Copied t 0 (pageCount sz) (trampolinePte m.ram) (trapframePte tf') new m₁ (0, t') m₂)
    (hmoves : memory.Moves m₂ {tf'} m₃ {tf'})
    (hregs : ∀ i < trapframeSize, m₃.byte (tf' + i) = if a0Offset ≤ i ∧ i < a0Offset + 8 then 0 else m₂.byte (tf + i)) :
    ChildMemory m t sz tf m₃ t' tf' := by
  cases hcopied with
  | copied maps kept flags bytes added =>
    have hle : processPages t sz tf ≤ processPages t sz tf + own := Multiset.le_add_right _ _
    have htf : {tf} ≤ processPages t sz tf + own := (Multiset.le_add_left _ _).trans hle
    have hall₂ : memory.Moves m 0 m₂ (processPages t' sz tf') := htaken.trans (added.frame {tf'})
    have hsound₂ : Sound m₂ (processPages t' sz tf') := (h.sound.mono (Multiset.zero_le _)).moves hall₂
    have hapart₂ : Apart m₂ (processPages t' sz tf') := (h.apart.mono (Multiset.zero_le _)).moves hall₂
    refine ⟨maps, fun v hv => flags_copied (h.maps.user v hv) (flags v (Nat.zero_le v) hv), fun v hv j hj => ?_,
      fun i hi => ?_, ?_⟩
    · have hframe : {frame t v} ≤ processPages t sz tf + own :=
        (singleton_le_frames hv).trans ((frames_le_process t sz tf).trans hle)
      have hframe' : {tf'} + {frame t' v} ≤ processPages t' sz tf' := by
        rw [add_comm]
        exact add_le_add_left ((singleton_le_frames hv).trans (Multiset.le_add_left _ _)) _
      calc m₃.byte (frame t' v + j) = m₂.byte (frame t' v + j) :=
            byte_kept hmoves (hsound₂.mono hframe') (hapart₂.mono hframe') (inPage_add hj)
        _ = m₁.byte (frame t v + j) := bytes v (Nat.zero_le v) hv j hj
        _ = m.byte (frame t v + j) := kept_of_free htaken (h.sound.mono hframe) (h.apart.mono hframe) (inPage_add hj)
    · have hlt : i < PGSIZE := Nat.lt_trans hi (by decide)
      rw [hregs i hi, kept_of_free hall₂ (h.sound.mono htf) (h.apart.mono htf) (inPage_add hlt)]
    · refine hall₂.trans ?_
      exact hmoves.frame_left _

end Xv6.Vm
